import Folo.BenchHistory.Comparability
import Folo.Lib.Maps
import Folo.Lib.Sorting

/-!
# Series of stored runs

`SeriesBuilder` of `cbh_detect/detect/series.rs`. Stored runs are folded into
points, grouped by discriminant set, benchmark and metric kind, and `finish`
flattens the groups and sorts them. The groups are hash maps: a loop over one
takes its entries in whatever order (`HashOrder`), and both sorts of `finish`
are unstable. The type of the measured values is `V`; nothing here looks into
a value.
-/

namespace Folo.BenchHistory

open Folo.Lib Std

variable {V : Type}

/-- One observation in a series. -/
structure SeriesPoint (V : Type) where
  topoIndex : Nat
  dirty : Bool
  objectOrdinal : Nat
  commit : Option Text
  value : V
  intervalLow : Option V
  intervalHigh : Option V

/-- `topo_index`, then `dirty`, then `object_ordinal`. -/
def SeriesPoint.position (p : SeriesPoint V) : Nat ×ₗ (Bool ×ₗ Nat) :=
  toLex (p.topoIndex, toLex (p.dirty, p.objectOrdinal))

structure Blessing where
  commit : Text
  commitTime : Option Int

structure BaseLevel (V : Type) where
  topoIndex : Nat
  commit : Option Text
  value : V
  interval : Option (V × V)

structure Series (V : Type) where
  set : DiscriminantSet
  id : BenchmarkId
  kind : MetricKind
  points : List (SeriesPoint V)
  baseWindow : List (BaseLevel V)
  baseHistoryCount : Nat
  activeStart : Nat
  blessing : Option Blessing

/-- What names a series. -/
abbrev SeriesKey := DiscriminantSet ×ₗ (BenchmarkId ×ₗ MetricKind)

def Series.key (s : Series V) : SeriesKey := toLex (s.set, toLex (s.id, s.kind))

structure MetricPoint (V : Type) where
  kind : MetricKind
  value : V
  intervalLow : Option V
  intervalHigh : Option V

structure ResultPoints (V : Type) where
  id : BenchmarkId
  metrics : List (MetricPoint V)

/-- A stored run reduced to what the series are made of. -/
structure RunPoints (V : Type) where
  results : List (ResultPoints V)

abbrev KindGroups (V : Type) := ExtTreeMap MetricKind (List (SeriesPoint V))

abbrev IdGroups (V : Type) := ExtTreeMap BenchmarkId (KindGroups V)

abbrev GroupTree (V : Type) := ExtTreeMap DiscriminantSet (IdGroups V)

/-- The orders in which the hash maps of one builder give their entries. -/
structure HashOrder (V : Type) where
  sets : Iteration DiscriminantSet (IdGroups V)
  ids : DiscriminantSet → Iteration BenchmarkId (KindGroups V)
  kinds : DiscriminantSet → BenchmarkId → Iteration MetricKind (List (SeriesPoint V))

/-- The shared texts of the commits seen so far: each is the text of its key. -/
structure InternTable where
  texts : ExtTreeMap Text Text
  faithful : ∀ commit text : Text, texts[commit]? = some text → text = commit

def InternTable.empty : InternTable where
  texts := ∅
  faithful _ _ h := by simp at h

/-- The table with `commit` in it. -/
def InternTable.add (t : InternTable) (commit : Text) : InternTable where
  texts := t.texts.insert commit commit
  faithful key text h := by
    rw [getElem?_insert] at h
    split at h
    next hk => exact (Option.some.inj h).symm.trans hk
    next => exact t.faithful key text h

/-- `SeriesBuilder::intern`. -/
def InternTable.intern (t : InternTable) (commit : Text) : Text × InternTable :=
  match t.texts[commit]? with
  | some existing => (existing, t)
  | none => (commit, t.add commit)

/-- An interned text reads as the commit. -/
theorem InternTable.intern_fst (t : InternTable) (commit : Text) :
    (t.intern commit).1 = commit := by
  unfold intern
  split
  next existing h => exact t.faithful commit existing h
  next => rfl

def prefixesAccept (prefixes : List BenchmarkIdPrefix) (id : BenchmarkId) : Bool :=
  prefixes.isEmpty || (id.matchingPrefix prefixes).isSome

structure SeriesBuilder (V : Type) where
  prefixes : List BenchmarkIdPrefix
  groups : GroupTree V
  commits : InternTable

namespace SeriesBuilder

def withPrefixes (prefixes : List BenchmarkIdPrefix) : SeriesBuilder V where
  prefixes := prefixes
  groups := ∅
  commits := .empty

/-- The point that a metric becomes. -/
def pointOf (topoIndex : Nat) (dirty : Bool) (objectOrdinal : Nat) (commit : Text)
    (metric : MetricPoint V) : SeriesPoint V where
  topoIndex := topoIndex
  dirty := dirty
  objectOrdinal := objectOrdinal
  commit := some commit
  value := metric.value
  intervalLow := metric.intervalLow
  intervalHigh := metric.intervalHigh

/-- One metric of a record. -/
def pushMetric (point : MetricPoint V → SeriesPoint V) (kindGroups : KindGroups V)
    (metric : MetricPoint V) : KindGroups V :=
  upsert kindGroups metric.kind [] fun points => points ++ [point metric]

/-- One record of a run. -/
def pushRecord (prefixes : List BenchmarkIdPrefix) (point : MetricPoint V → SeriesPoint V)
    (idGroups : IdGroups V) (record : ResultPoints V) : IdGroups V :=
  if prefixesAccept prefixes record.id then
    upsert idGroups record.id ∅ fun kindGroups => record.metrics.foldl (pushMetric point) kindGroups
  else idGroups

def push (b : SeriesBuilder V) (set : DiscriminantSet) (topoIndex : Nat) (dirty : Bool)
    (objectOrdinal : Nat) (commit : Text) (run : RunPoints V) : SeriesBuilder V :=
  let (commit, commits) := b.commits.intern commit
  let point := pointOf topoIndex dirty objectOrdinal commit
  { b with
    commits := commits
    groups := upsert b.groups set ∅ fun idGroups =>
      run.results.foldl (pushRecord b.prefixes point) idGroups }

/-- One kind of a benchmark that both builders may hold. -/
def mergeKind (kindGroups : KindGroups V) (other : MetricKind × List (SeriesPoint V)) :
    KindGroups V :=
  match kindGroups[other.1]? with
  | some points => kindGroups.insert other.1 (points ++ other.2)
  | none => kindGroups.insert other.1 other.2

def mergeId (order : BenchmarkId → Iteration MetricKind (List (SeriesPoint V)))
    (idGroups : IdGroups V) (other : BenchmarkId × KindGroups V) : IdGroups V :=
  upsert idGroups other.1 ∅ fun kindGroups =>
    ((order other.1).entries other.2).foldl mergeKind kindGroups

def mergeSet (order : HashOrder V) (groups : GroupTree V) (other : DiscriminantSet × IdGroups V) :
    GroupTree V :=
  upsert groups other.1 ∅ fun idGroups =>
    ((order.ids other.1).entries other.2).foldl (mergeId (order.kinds other.1)) idGroups

/-- `order` is the order of the maps of `other`. -/
def merge (b : SeriesBuilder V) (order : HashOrder V) (other : SeriesBuilder V) :
    SeriesBuilder V :=
  { b with groups := (order.sets.entries other.groups).foldl (mergeSet order) b.groups }

/-- The series of the groups, the points as they were inserted. -/
def flatten (order : HashOrder V) (groups : GroupTree V) : List (Series V) :=
  (order.sets.entries groups).flatMap fun (set, idGroups) =>
    ((order.ids set).entries idGroups).flatMap fun (id, kindGroups) =>
      ((order.kinds set id).entries kindGroups).map fun (kind, points) =>
        { set, id, kind, points, baseWindow := [], baseHistoryCount := 0, activeStart := 0,
          blessing := none }

def finish (order : HashOrder V) (sortSeries : UnstableSort (Series V))
    (sortPoints : UnstableSort (SeriesPoint V)) (b : SeriesBuilder V) : List (Series V) :=
  let series := sortSeries.sortByKey Series.key (flatten order b.groups)
  series.map fun s => { s with points := sortPoints.sortByKey SeriesPoint.position s.points }

end SeriesBuilder

end Folo.BenchHistory
