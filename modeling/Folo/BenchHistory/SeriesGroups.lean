import Folo.BenchHistory.Series

/-!
# What a builder has gathered

The groups of a builder stand for the points of each series, in the order in
which they came (`Gathers`). A push adds to the series of its run and a merge
puts the points of the other builder after those of this one, whatever order
the maps give their entries in. Two builders with the same points in each
series, in any order, finish with the same series: the sort keys are unique,
so neither sort has a choice.
-/

namespace Folo.BenchHistory

open Folo.Lib Std

variable {V : Type} {α : Type}

/-! ## Entries that grow -/

/-- More points for an entry that may not exist: none leaves it as it is. -/
def extend (entry : Option (List α)) (more : List α) : Option (List α) :=
  if more = [] then entry else some (entry.getD [] ++ more)

@[simp] theorem extend_nil (entry : Option (List α)) : extend entry [] = entry := if_pos rfl

theorem extend_extend (entry : Option (List α)) (xs ys : List α) :
    extend (extend entry xs) ys = extend entry (xs ++ ys) := by
  unfold extend
  by_cases hx : xs = [] <;> by_cases hy : ys = [] <;> simp [hx, hy]

theorem extend_none_eq_some {xs ys : List α} : extend none xs = some ys ↔ xs ≠ [] ∧ xs = ys := by
  unfold extend
  by_cases hx : xs = [] <;> simp [hx]

/-- What is appended to an entry when the other map has one. -/
theorem elim_extend_none (entry : Option (List α)) (xs : List α) :
    ((extend none xs).elim entry fun more => some (entry.getD [] ++ more)) = extend entry xs := by
  unfold extend
  by_cases hx : xs = [] <;> simp [hx]

/-! ## The points of a series -/

/-- The points gathered for a series, if any were. -/
def seriesAt (groups : GroupTree V) (set : DiscriminantSet) (id : BenchmarkId)
    (kind : MetricKind) : Option (List (SeriesPoint V)) :=
  groups[set]?.bind fun idGroups => idGroups[id]?.bind fun kindGroups => kindGroups[kind]?

/-- The points of a benchmark within one set. -/
def kindAt (idGroups : IdGroups V) (id : BenchmarkId) (kind : MetricKind) :
    Option (List (SeriesPoint V)) :=
  idGroups[id]?.bind fun kindGroups => kindGroups[kind]?

theorem getElem?_getD_empty (entry : Option (KindGroups V)) (kind : MetricKind) :
    (entry.getD ∅)[kind]? = entry.bind fun kindGroups => kindGroups[kind]? := by
  cases entry with
  | none => simp
  | some kindGroups => rfl

theorem kindAt_getD_empty (entry : Option (IdGroups V)) (id : BenchmarkId) (kind : MetricKind) :
    kindAt (entry.getD ∅) id kind = entry.bind fun idGroups => kindAt idGroups id kind := by
  cases entry with
  | none => simp [kindAt]
  | some idGroups => rfl

theorem kindAt_upsert (idGroups : IdGroups V) (id id' : BenchmarkId) (kind : MetricKind)
    (f : KindGroups V → KindGroups V) :
    kindAt (upsert idGroups id ∅ f) id' kind =
      if id = id' then (f (idGroups[id]?.getD ∅))[kind]? else kindAt idGroups id' kind := by
  unfold kindAt
  rw [getElem?_upsert]
  split
  · rfl
  · rfl

theorem seriesAt_upsert (groups : GroupTree V) (set set' : DiscriminantSet) (id : BenchmarkId)
    (kind : MetricKind) (f : IdGroups V → IdGroups V) :
    seriesAt (upsert groups set ∅ f) set' id kind =
      if set = set' then kindAt (f (groups[set]?.getD ∅)) id kind
      else seriesAt groups set' id kind := by
  unfold seriesAt kindAt
  rw [getElem?_upsert]
  split
  · rfl
  · rfl

/-! ## Push -/

/-- The points of a run in the series of a benchmark. -/
def runPoints (prefixes : List BenchmarkIdPrefix) (point : MetricPoint V → SeriesPoint V)
    (results : List (ResultPoints V)) (id : BenchmarkId) (kind : MetricKind) :
    List (SeriesPoint V) :=
  if prefixesAccept prefixes id then
    (results.filter (·.id = id)).flatMap fun record =>
      (record.metrics.filter (·.kind = kind)).map point
  else []

theorem getElem?_foldl_pushMetric (point : MetricPoint V → SeriesPoint V)
    (metrics : List (MetricPoint V)) (kindGroups : KindGroups V) (kind : MetricKind) :
    (metrics.foldl (SeriesBuilder.pushMetric point) kindGroups)[kind]? =
      extend kindGroups[kind]? ((metrics.filter (·.kind = kind)).map point) := by
  induction metrics generalizing kindGroups with
  | nil => rfl
  | cons metric metrics ih =>
    rw [List.foldl_cons, ih, SeriesBuilder.pushMetric, getElem?_upsert]
    by_cases hk : metric.kind = kind
    · subst hk
      rw [if_pos rfl, List.filter_cons_of_pos (by simp), List.map_cons,
        ← List.singleton_append (l := List.map _ _), ← extend_extend]
      rfl
    · rw [if_neg hk, List.filter_cons_of_neg (by simpa using hk)]

theorem runPoints_cons (prefixes : List BenchmarkIdPrefix) (point : MetricPoint V → SeriesPoint V)
    (record : ResultPoints V) (results : List (ResultPoints V)) (id : BenchmarkId)
    (kind : MetricKind) :
    runPoints prefixes point (record :: results) id kind =
      runPoints prefixes point [record] id kind ++ runPoints prefixes point results id kind := by
  unfold runPoints
  split
  · by_cases hid : record.id = id <;> simp [hid]
  · rfl

theorem kindAt_pushRecord (prefixes : List BenchmarkIdPrefix)
    (point : MetricPoint V → SeriesPoint V) (idGroups : IdGroups V) (record : ResultPoints V)
    (id : BenchmarkId) (kind : MetricKind) :
    kindAt (SeriesBuilder.pushRecord prefixes point idGroups record) id kind =
      extend (kindAt idGroups id kind) (runPoints prefixes point [record] id kind) := by
  unfold SeriesBuilder.pushRecord runPoints
  by_cases hid : record.id = id
  · subst hid
    split
    next hacc =>
      rw [kindAt_upsert, if_pos rfl, getElem?_foldl_pushMetric, getElem?_getD_empty]
      simp [kindAt]
    next => simp
  · split
    next => rw [kindAt_upsert, if_neg hid]; simp [hid]
    next => simp [hid]

theorem kindAt_foldl_pushRecord (prefixes : List BenchmarkIdPrefix)
    (point : MetricPoint V → SeriesPoint V) (results : List (ResultPoints V))
    (idGroups : IdGroups V) (id : BenchmarkId) (kind : MetricKind) :
    kindAt (results.foldl (SeriesBuilder.pushRecord prefixes point) idGroups) id kind =
      extend (kindAt idGroups id kind) (runPoints prefixes point results id kind) := by
  induction results generalizing idGroups with
  | nil => simp [runPoints]
  | cons record results ih =>
    rw [List.foldl_cons, ih, kindAt_pushRecord, extend_extend, ← runPoints_cons]

/-- What a push adds to a series. -/
def pushedPoints (prefixes : List BenchmarkIdPrefix) (set : DiscriminantSet)
    (point : MetricPoint V → SeriesPoint V) (run : RunPoints V) (set' : DiscriminantSet)
    (id : BenchmarkId) (kind : MetricKind) : List (SeriesPoint V) :=
  if set = set' then runPoints prefixes point run.results id kind else []

theorem seriesAt_push (b : SeriesBuilder V) (set set' : DiscriminantSet) (topoIndex : Nat)
    (dirty : Bool) (ordinal : Nat) (commit : Text) (run : RunPoints V) (id : BenchmarkId)
    (kind : MetricKind) :
    seriesAt (b.push set topoIndex dirty ordinal commit run).groups set' id kind =
      extend (seriesAt b.groups set' id kind) (pushedPoints b.prefixes set
        (SeriesBuilder.pointOf topoIndex dirty ordinal commit) run set' id kind) := by
  unfold SeriesBuilder.push pushedPoints
  simp only [InternTable.intern_fst]
  rw [seriesAt_upsert]
  split
  next hset =>
    subst hset
    rw [kindAt_foldl_pushRecord, kindAt_getD_empty]
    rfl
  next => simp

/-! ## Merge -/

theorem getElem?_foldl_mergeKind (it : Iteration MetricKind (List (SeriesPoint V)))
    (other kindGroups : KindGroups V) (kind : MetricKind) :
    ((it.entries other).foldl SeriesBuilder.mergeKind kindGroups)[kind]? =
      other[kind]?.elim kindGroups[kind]? fun more =>
        some (kindGroups[kind]?.getD [] ++ more) := by
  refine it.getElem?_foldl SeriesBuilder.mergeKind (fun _ more entry => entry.getD [] ++ more) ?_
    other _ kind
  intro m k more a
  unfold SeriesBuilder.mergeKind
  cases hm : m[k]? with
  | none => simp [getElem?_insert]
  | some points => simp [getElem?_insert]

theorem kindAt_foldl_mergeId (it : Iteration BenchmarkId (KindGroups V))
    (kinds : BenchmarkId → Iteration MetricKind (List (SeriesPoint V)))
    (other idGroups : IdGroups V) (id : BenchmarkId) (kind : MetricKind) :
    kindAt ((it.entries other).foldl (SeriesBuilder.mergeId kinds) idGroups) id kind =
      (kindAt other id kind).elim (kindAt idGroups id kind) fun more =>
        some ((kindAt idGroups id kind).getD [] ++ more) := by
  unfold kindAt
  rw [it.getElem?_foldl (SeriesBuilder.mergeId kinds) (fun id theirs entry =>
    ((kinds id).entries theirs).foldl SeriesBuilder.mergeKind (entry.getD ∅))
    fun m k theirs a => getElem?_upsert m k a ∅ _]
  cases other[id]? with
  | none => rfl
  | some theirs =>
    rw [Option.bind_some, Option.elim_some, Option.bind_some, getElem?_foldl_mergeKind,
      getElem?_getD_empty]

theorem seriesAt_merge (b other : SeriesBuilder V) (order : HashOrder V) (set : DiscriminantSet)
    (id : BenchmarkId) (kind : MetricKind) :
    seriesAt (b.merge order other).groups set id kind =
      (seriesAt other.groups set id kind).elim (seriesAt b.groups set id kind) fun more =>
        some ((seriesAt b.groups set id kind).getD [] ++ more) := by
  unfold SeriesBuilder.merge seriesAt
  dsimp only
  rw [order.sets.getElem?_foldl (SeriesBuilder.mergeSet order) (fun set theirs entry =>
    ((order.ids set).entries theirs).foldl (SeriesBuilder.mergeId (order.kinds set))
      (entry.getD ∅)) fun m k theirs a => getElem?_upsert m k a ∅ _]
  cases other.groups[set]? with
  | none => rfl
  | some theirs =>
    have hmerge := kindAt_foldl_mergeId (order.ids set) (order.kinds set) theirs
      (b.groups[set]?.getD ∅) id kind
    rw [kindAt_getD_empty] at hmerge
    exact hmerge

/-! ## Gathering -/

/-- The points of every series, in the order in which they came. -/
abbrev Contents (V : Type) :=
  DiscriminantSet → BenchmarkId → MetricKind → List (SeriesPoint V)

/-- The groups hold these points and nothing else. -/
def Gathers (groups : GroupTree V) (contents : Contents V) : Prop :=
  ∀ set id kind, seriesAt groups set id kind = extend none (contents set id kind)

theorem gathers_empty : Gathers (∅ : GroupTree V) fun _ _ _ => [] := by
  intro set id kind
  simp [seriesAt]

theorem Gathers.push {b : SeriesBuilder V} {contents : Contents V} (h : Gathers b.groups contents)
    (set : DiscriminantSet) (topoIndex : Nat) (dirty : Bool) (ordinal : Nat) (commit : Text)
    (run : RunPoints V) :
    Gathers (b.push set topoIndex dirty ordinal commit run).groups fun set' id kind =>
      contents set' id kind ++ pushedPoints b.prefixes set
        (SeriesBuilder.pointOf topoIndex dirty ordinal commit) run set' id kind := by
  intro set' id kind
  rw [seriesAt_push, h, extend_extend]

theorem Gathers.merge {b other : SeriesBuilder V} {mine theirs : Contents V}
    (hmine : Gathers b.groups mine) (order : HashOrder V) (htheirs : Gathers other.groups theirs) :
    Gathers (b.merge order other).groups fun set id kind =>
      mine set id kind ++ theirs set id kind := by
  intro set id kind
  rw [seriesAt_merge, htheirs, elim_extend_none, hmine, extend_extend]

/-! ## Finish -/

/-- A series as `finish` first makes it. -/
def bareSeries (set : DiscriminantSet) (id : BenchmarkId) (kind : MetricKind)
    (points : List (SeriesPoint V)) : Series V :=
  { set, id, kind, points, baseWindow := [], baseHistoryCount := 0, activeStart := 0,
    blessing := none }

theorem mem_flatten (order : HashOrder V) (groups : GroupTree V) (s : Series V) :
    s ∈ SeriesBuilder.flatten order groups ↔
      ∃ points, seriesAt groups s.set s.id s.kind = some points ∧
        s = bareSeries s.set s.id s.kind points := by
  simp only [SeriesBuilder.flatten, List.mem_flatMap, List.mem_map, Prod.exists,
    Iteration.mem_entries]
  constructor
  · rintro ⟨set, idGroups, hset, id, kindGroups, hid, kind, points, hkind, rfl⟩
    exact ⟨points, by simp [seriesAt, hset, hid, hkind], rfl⟩
  · rintro ⟨points, hat, heq⟩
    obtain ⟨idGroups, hset, hat⟩ := Option.bind_eq_some_iff.mp hat
    obtain ⟨kindGroups, hid, hkind⟩ := Option.bind_eq_some_iff.mp hat
    exact ⟨_, _, hset, _, _, hid, _, _, hkind, heq.symm⟩

/-- No series twice. -/
theorem nodup_keys_flatten (order : HashOrder V) (groups : GroupTree V) :
    ((SeriesBuilder.flatten order groups).map Series.key).Nodup := by
  have hne : ∀ {κ β : Type} [LinearOrder κ] (it : Iteration κ β) (m : ExtTreeMap κ β),
      (it.entries m).Pairwise fun a b => a.1 ≠ b.1 :=
    fun it m => List.pairwise_map.mp (it.nodup_keys m)
  rw [List.Nodup, List.pairwise_map]
  unfold SeriesBuilder.flatten
  refine List.pairwise_flatMap.mpr ⟨fun e _ => List.pairwise_flatMap.mpr ⟨fun e' _ => ?_, ?_⟩, ?_⟩
  · refine List.pairwise_map.mpr ((hne _ _).imp fun hkind heq => hkind ?_)
    exact (Prod.mk.inj (Prod.mk.inj heq).2).2
  · refine (hne _ _).imp fun hid s hs s' hs' heq => hid ?_
    obtain ⟨_, -, rfl⟩ := List.mem_map.mp hs
    obtain ⟨_, -, rfl⟩ := List.mem_map.mp hs'
    exact (Prod.mk.inj (Prod.mk.inj heq).2).1
  · refine (hne _ _).imp fun hset s hs s' hs' heq => hset ?_
    obtain ⟨_, -, hs⟩ := List.mem_flatMap.mp hs
    obtain ⟨_, -, rfl⟩ := List.mem_map.mp hs
    obtain ⟨_, -, hs'⟩ := List.mem_flatMap.mp hs'
    obtain ⟨_, -, rfl⟩ := List.mem_map.mp hs'
    exact (Prod.mk.inj heq).1

/-- The series that `finish` returns. -/
theorem mem_finish {b : SeriesBuilder V} {contents : Contents V} (h : Gathers b.groups contents)
    (order : HashOrder V) (sortSeries : UnstableSort (Series V))
    (sortPoints : UnstableSort (SeriesPoint V)) (s : Series V) :
    s ∈ b.finish order sortSeries sortPoints ↔
      contents s.set s.id s.kind ≠ [] ∧
        s = bareSeries s.set s.id s.kind
          (sortPoints.sortByKey SeriesPoint.position (contents s.set s.id s.kind)) := by
  unfold SeriesBuilder.finish
  simp only [List.mem_map, (sortSeries.perm_sortByKey _ _).mem_iff, mem_flatten, h _ _ _,
    extend_none_eq_some]
  constructor
  · rintro ⟨t, ⟨points, ⟨hne, rfl⟩, ht⟩, rfl⟩
    refine ⟨hne, ?_⟩
    dsimp only
    rw [ht]
    rfl
  · rintro ⟨hne, hs⟩
    refine ⟨bareSeries s.set s.id s.kind (contents s.set s.id s.kind),
      ⟨_, ⟨hne, rfl⟩, rfl⟩, hs.symm⟩

/-- Each series once, in order. -/
theorem strict_finish (order : HashOrder V) (sortSeries : UnstableSort (Series V))
    (sortPoints : UnstableSort (SeriesPoint V)) (b : SeriesBuilder V) :
    (b.finish order sortSeries sortPoints).Pairwise fun s t => s.key < t.key :=
  List.pairwise_map.mpr (sortSeries.strict_sortByKey (nodup_keys_flatten order b.groups))

/-- The same points in any order make the same series. -/
theorem finish_eq {b c : SeriesBuilder V} {mine theirs : Contents V} (hb : Gathers b.groups mine)
    (hc : Gathers c.groups theirs)
    (hperm : ∀ set id kind, (mine set id kind).Perm (theirs set id kind))
    (hnodup : ∀ set id kind, ((mine set id kind).map SeriesPoint.position).Nodup)
    (order order' : HashOrder V) (sortSeries sortSeries' : UnstableSort (Series V))
    (sortPoints sortPoints' : UnstableSort (SeriesPoint V)) :
    b.finish order sortSeries sortPoints = c.finish order' sortSeries' sortPoints' := by
  refine eq_of_strict (strict_finish ..) (strict_finish ..) fun s => ?_
  rw [mem_finish hb, mem_finish hc, sortPoints.sortByKey_eq sortPoints' (hnodup _ _ _)
    (hperm _ _ _), ne_eq, ne_eq, ← List.length_eq_zero_iff, ← List.length_eq_zero_iff,
    (hperm _ _ _).length_eq]

end Folo.BenchHistory
