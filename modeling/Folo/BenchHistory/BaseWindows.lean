import Folo.BenchHistory.SeriesGroups
import Folo.Lib.Least
import Folo.Lib.Runs

/-!
# Base windows

`attach_base_windows` and `apply_base_blessings` of `cbh_detect/detect/series.rs`,
with the median of `cbh_stats`. A context series gets the newest levels of the
base series with its key, a level for each run of points of one commit, and the
latest blessing cuts off the levels before it. The measured values are in the
order of `total_cmp`; the sorts, the binary search and the midpoint of two
values are parameters.
-/

namespace Folo.BenchHistory

open Folo.Lib
open Std (ExtTreeMap)

variable {V : Type} [LinearOrder V]

/-! ## Medians -/

/-- What `cbh_stats` and the standard library bring: a sort of the values, the
midpoint of two of them, and the search in the levels. -/
structure Statistics (V : Type) where
  sort : UnstableSort V
  midpoint : V → V → V
  partitionPoint : PartitionPoint (BaseLevel V)

def medianInPlace (stats : Statistics V) (values : List V) : Option V :=
  if values.isEmpty then none
  else
    let values := stats.sort.sortByKey id values
    let mid := values.length / 2
    if values.length % 2 = 1 then values[mid]?
    else match mid with
      | 0 => none
      | lower + 1 =>
        values[lower]?.bind fun low => values[mid]?.map fun high => stats.midpoint low high

/-- The value in the middle, or the midpoint of the two that are. -/
def IsMedian (midpoint : V → V → V) (values : List V) (m : V) : Prop :=
  ∃ sorted : List V, sorted.Perm values ∧ sorted.Pairwise (· ≤ ·) ∧
    ((∃ half, sorted.length = 2 * half + 1 ∧ sorted[half]? = some m) ∨
      ∃ half low high, sorted.length = 2 * half + 2 ∧ sorted[half]? = some low ∧
        sorted[half + 1]? = some high ∧ m = midpoint low high)

/-! ## Levels -/

/-- The loop of `commit_levels` between two points. -/
structure LevelLoop (V : Type) where
  levels : List (BaseLevel V)
  values : List V
  lows : List V
  highs : List V
  current : Option (Nat × Bool × Option Text)

def pushBaseLevel (stats : Statistics V) (levels : List (BaseLevel V)) (topoIndex : Nat)
    (commit : Option Text) (values lows highs : List V) : List (BaseLevel V) :=
  match medianInPlace stats values with
  | none => levels
  | some value =>
    let interval := (medianInPlace stats lows).bind fun low =>
      (medianInPlace stats highs).map fun high => (low, high)
    levels ++ [{ topoIndex, commit, value, interval }]

namespace LevelLoop

def start : LevelLoop V := ⟨[], [], [], [], none⟩

/-- The levels with the one that is being gathered. -/
def flush (stats : Statistics V) (loop : LevelLoop V) : List (BaseLevel V) :=
  match loop.current with
  | none => loop.levels
  | some (topoIndex, _, commit) =>
    pushBaseLevel stats loop.levels topoIndex commit loop.values loop.lows loop.highs

/-- The point is not of the commit whose level is being gathered. -/
def isNew (loop : LevelLoop V) (point : SeriesPoint V) : Bool :=
  match loop.current with
  | none => true
  | some (topoIndex, dirty, _) => (topoIndex, dirty) ≠ (point.topoIndex, point.dirty)

def turn (stats : Statistics V) (loop : LevelLoop V) (point : SeriesPoint V) : LevelLoop V :=
  let loop :=
    if loop.isNew point then
      { levels := loop.flush stats, values := [], lows := [], highs := [],
        current := some (point.topoIndex, point.dirty, point.commit) }
    else loop
  { loop with
    values := loop.values ++ [point.value]
    lows := loop.lows ++ point.intervalLow.toList
    highs := loop.highs ++ point.intervalHigh.toList }

end LevelLoop

def commitLevels (stats : Statistics V) (points : List (SeriesPoint V)) : List (BaseLevel V) :=
  (points.foldl (LevelLoop.turn stats) .start).flush stats

/-! ## Windows -/

/-- What a context series gets of its counterpart. -/
def attachBaseWindow (stats : Statistics V) (compareWindow : Nat) (one candidate : Series V) :
    Series V :=
  let levels := commitLevels stats candidate.points
  let first := levels.length - compareWindow
  { one with baseHistoryCount := levels.length, baseWindow := levels.drop first }

/-- `attach_base_windows`: the base series are walked along with the others. -/
def attachBaseWindows (stats : Statistics V) (series baseSeries : List (Series V))
    (compareWindow : Nat) : List (Series V) :=
  updateAlong Series.key Series.key (attachBaseWindow stats compareWindow) series baseSeries

/-- A blessing positioned in history, with what is read of its record. -/
structure BlessingPlacement where
  topoIndex : Nat
  commitTime : Option Int
  commit : Text
  prefixes : List BenchmarkIdPrefix

/-- `BlessingRecord::matches` -/
def BlessingPlacement.matches (placement : BlessingPlacement) (id : BenchmarkId) : Bool :=
  prefixesAccept placement.prefixes id

/-- The latest blessing of a set that accepts a benchmark. -/
def latestBlessing (setBlessings : List BlessingPlacement) (id : BenchmarkId) :
    Option BlessingPlacement :=
  maxByKey BlessingPlacement.topoIndex (setBlessings.filter fun p => p.matches id)

def applyBaseBlessing (stats : Statistics V)
    (blessings : ExtTreeMap DiscriminantSet (List BlessingPlacement)) (one : Series V) :
    Series V :=
  match blessings[one.set]? with
  | none => one
  | some setBlessings =>
    match latestBlessing setBlessings one.id with
    | none => one
    | some latest =>
      let keepFrom := stats.partitionPoint.index (fun level => level.topoIndex < latest.topoIndex)
        one.baseWindow
      { one with
        baseWindow := one.baseWindow.drop keepFrom
        blessing := some { commit := latest.commit, commitTime := latest.commitTime } }

def applyBaseBlessings (stats : Statistics V) (series : List (Series V))
    (blessings : ExtTreeMap DiscriminantSet (List BlessingPlacement)) : List (Series V) :=
  series.map (applyBaseBlessing stats blessings)

/-! ## What the levels are -/

/-- There is a median of any values, and it is what the sort puts there. -/
theorem medianInPlace_spec (stats : Statistics V) {values : List V} (h : values ≠ []) :
    ∃ m, medianInPlace stats values = some m ∧ IsMedian stats.midpoint values m := by
  have hperm : (stats.sort.sortByKey id values).Perm values := stats.sort.perm_sortByKey ..
  have hsorted : (stats.sort.sortByKey id values).Pairwise (· ≤ ·) :=
    stats.sort.pairwise_sortByKey id values
  have hpos : 0 < (stats.sort.sortByKey id values).length := by
    rw [hperm.length_eq]
    exact List.length_pos_iff.mpr h
  unfold medianInPlace
  rw [if_neg (by rwa [List.isEmpty_iff])]
  simp only
  generalize stats.sort.sortByKey id values = sorted at *
  by_cases hodd : sorted.length % 2 = 1
  · have hlt : sorted.length / 2 < sorted.length := by omega
    rw [if_pos hodd]
    refine ⟨sorted[sorted.length / 2], List.getElem?_eq_getElem hlt, sorted, hperm, hsorted,
      .inl ⟨sorted.length / 2, by omega, List.getElem?_eq_getElem hlt⟩⟩
  · obtain ⟨half, hhalf⟩ : ∃ half, sorted.length / 2 = half + 1 :=
      Nat.exists_eq_succ_of_ne_zero (by omega)
    have hlow : half < sorted.length := by omega
    have hhigh : half + 1 < sorted.length := by omega
    rw [if_neg hodd, hhalf]
    simp only
    rw [List.getElem?_eq_getElem hlow, List.getElem?_eq_getElem hhigh]
    exact ⟨_, rfl, sorted, hperm, hsorted, .inr ⟨half, _, _, by omega,
      List.getElem?_eq_getElem hlow, List.getElem?_eq_getElem hhigh, rfl⟩⟩

/-- There is one median only. -/
theorem IsMedian.unique {midpoint : V → V → V} {values : List V} {m m' : V}
    (h : IsMedian midpoint values m) (h' : IsMedian midpoint values m') : m = m' := by
  obtain ⟨sorted, hperm, hsorted, hmiddle⟩ := h
  obtain ⟨sorted', hperm', hsorted', hmiddle'⟩ := h'
  obtain rfl : sorted = sorted' :=
    (hperm.trans hperm'.symm).eq_of_pairwise (fun a b _ _ hab hba => le_antisymm hab hba)
      hsorted hsorted'
  rcases hmiddle with ⟨half, hlen, hm⟩ | ⟨half, low, high, hlen, hlow, hhigh, rfl⟩
  · rcases hmiddle' with ⟨half', hlen', hm'⟩ | ⟨half', _, _, hlen', _⟩
    · obtain rfl : half = half' := by omega
      exact Option.some.inj (hm.symm.trans hm')
    · omega
  · rcases hmiddle' with ⟨half', hlen', _⟩ | ⟨half', low', high', hlen', hlow', hhigh', rfl⟩
    · omega
    · obtain rfl : half = half' := by omega
      obtain rfl := Option.some.inj (hlow.symm.trans hlow')
      obtain rfl := Option.some.inj (hhigh.symm.trans hhigh')
      rfl

theorem not_isMedian_nil {midpoint : V → V → V} {m : V} : ¬ IsMedian midpoint [] m := by
  intro ⟨sorted, hperm, _, hmiddle⟩
  obtain rfl := hperm.eq_nil
  rcases hmiddle with ⟨half, hlen, _⟩ | ⟨half, _, _, hlen, _⟩
  · exact nomatch hlen
  · exact nomatch hlen

theorem medianInPlace_eq_some_iff (stats : Statistics V) {values : List V} {m : V} :
    medianInPlace stats values = some m ↔ IsMedian stats.midpoint values m := by
  by_cases hnil : values = []
  · subst hnil
    exact ⟨nofun, fun h => absurd h not_isMedian_nil⟩
  · obtain ⟨m', hm', hmedian⟩ := medianInPlace_spec stats hnil
    rw [hm']
    constructor
    · intro h
      exact Option.some.inj h ▸ hmedian
    · intro h
      exact congrArg some (hmedian.unique h)

/-- What the points of one level share. -/
def SeriesPoint.commitKey (p : SeriesPoint V) : Nat × Bool := (p.topoIndex, p.dirty)

/-- The runs of points that become a level each. -/
def commitRuns (points : List (SeriesPoint V)) : List (List (SeriesPoint V)) :=
  runsBy SeriesPoint.commitKey points

/-- The level of a run: of its first point the commit, of all the medians. -/
structure LevelOf (midpoint : V → V → V) (run : List (SeriesPoint V)) (level : BaseLevel V) :
    Prop where
  commit : ∃ first, run.head? = some first ∧ level.topoIndex = first.topoIndex ∧
    level.commit = first.commit
  value : IsMedian midpoint (run.map SeriesPoint.value) level.value
  interval : ∀ low high, level.interval = some (low, high) ↔
    IsMedian midpoint (run.filterMap SeriesPoint.intervalLow) low ∧
      IsMedian midpoint (run.filterMap SeriesPoint.intervalHigh) high

/-- What the loop holds of a run that it is in. -/
structure LevelLoop.Holds (loop : LevelLoop V) (run : List (SeriesPoint V)) : Prop where
  current : ∃ first, run.head? = some first ∧
    loop.current = some (first.topoIndex, first.dirty, first.commit)
  values : loop.values = run.map SeriesPoint.value
  lows : loop.lows = run.filterMap SeriesPoint.intervalLow
  highs : loop.highs = run.filterMap SeriesPoint.intervalHigh

theorem LevelLoop.Holds.flush {loop : LevelLoop V} {run : List (SeriesPoint V)}
    (h : loop.Holds run) (stats : Statistics V) :
    ∃ level, loop.flush stats = loop.levels ++ [level] ∧ LevelOf stats.midpoint run level := by
  obtain ⟨first, hfirst, hcurrent⟩ := h.current
  have hne : run.map SeriesPoint.value ≠ [] := by
    intro hnil
    rw [List.map_eq_nil_iff.mp hnil] at hfirst
    exact nomatch hfirst
  obtain ⟨value, hvalue, hmedian⟩ := medianInPlace_spec stats hne
  unfold LevelLoop.flush pushBaseLevel
  rw [hcurrent, h.values, h.lows, h.highs]
  simp only
  rw [hvalue]
  refine ⟨_, rfl, ⟨first, hfirst, rfl, rfl⟩, hmedian, fun low high => ?_⟩
  simp only [Option.bind_eq_some_iff, Option.map_eq_some_iff, Prod.mk.injEq,
    medianInPlace_eq_some_iff]
  constructor
  · intro ⟨_, hlow, _, hhigh, rfl, rfl⟩
    exact ⟨hlow, hhigh⟩
  · intro ⟨hlow, hhigh⟩
    exact ⟨low, hlow, high, hhigh, rfl, rfl⟩

/-- A point of the same commit goes to the run. -/
theorem LevelLoop.Holds.turn_of_eq {loop : LevelLoop V} {run : List (SeriesPoint V)}
    (h : loop.Holds run) (stats : Statistics V) {first point : SeriesPoint V}
    (hfirst : run.head? = some first) (heq : first.commitKey = point.commitKey) :
    (loop.turn stats point).levels = loop.levels ∧ (loop.turn stats point).Holds (run ++ [point])
    := by
  obtain ⟨_, hfirst', hcurrent⟩ := h.current
  obtain rfl := Option.some.inj (hfirst.symm.trans hfirst')
  have hold : loop.isNew point = false := by
    unfold LevelLoop.isNew
    rw [hcurrent]
    exact decide_eq_false (not_not.mpr heq)
  have hne : run ≠ [] := fun hnil => nomatch (hnil ▸ hfirst : [].head? = some first)
  unfold LevelLoop.turn
  rw [hold]
  refine ⟨rfl, ⟨first, ?_, hcurrent⟩, ?_, ?_, ?_⟩
  · rw [List.head?_append_of_ne_nil _ hne]
    exact hfirst
  · show loop.values ++ [point.value] = (run ++ [point]).map SeriesPoint.value
    rw [h.values, List.map_append]
    rfl
  · show loop.lows ++ point.intervalLow.toList = (run ++ [point]).filterMap SeriesPoint.intervalLow
    rw [h.lows, List.filterMap_append]
    cases hlow : point.intervalLow <;> simp [hlow]
  · show loop.highs ++ point.intervalHigh.toList =
      (run ++ [point]).filterMap SeriesPoint.intervalHigh
    rw [h.highs, List.filterMap_append]
    cases hhigh : point.intervalHigh <;> simp [hhigh]

/-- Another point starts one, and the level of the last run is done. -/
theorem LevelLoop.turn_of_isNew (stats : Statistics V) {loop : LevelLoop V}
    {point : SeriesPoint V} (h : loop.isNew point = true) :
    (loop.turn stats point).levels = loop.flush stats ∧ (loop.turn stats point).Holds [point] := by
  unfold LevelLoop.turn
  rw [h]
  refine ⟨rfl, ⟨point, rfl, rfl⟩, rfl, ?_, ?_⟩
  · show [] ++ point.intervalLow.toList = [point].filterMap SeriesPoint.intervalLow
    cases hlow : point.intervalLow <;> simp [hlow]
  · show [] ++ point.intervalHigh.toList = [point].filterMap SeriesPoint.intervalHigh
    cases hhigh : point.intervalHigh <;> simp [hhigh]

/-- The loop has the levels of all runs but the last. -/
theorem foldl_turn (stats : Statistics V) (points : List (SeriesPoint V)) :
    (points = [] ∧ points.foldl (LevelLoop.turn stats) .start = .start) ∨
    ∃ front run, commitRuns points = front ++ [run] ∧
      List.Forall₂ (LevelOf stats.midpoint) front
        (points.foldl (LevelLoop.turn stats) .start).levels ∧
      (points.foldl (LevelLoop.turn stats) .start).Holds run := by
  induction points using List.reverseRecOn with
  | nil => exact .inl ⟨rfl, rfl⟩
  | append_singleton points point ih =>
    refine .inr ?_
    rw [List.foldl_concat]
    rcases ih with ⟨rfl, hstart⟩ | ⟨front, run, hruns, hlevels, hholds⟩
    · have hnew : LevelLoop.start.isNew point = true := rfl
      obtain ⟨hkept, hnext⟩ := LevelLoop.turn_of_isNew stats hnew
      refine ⟨[], [point], rfl, ?_, hnext⟩
      rw [List.foldl_nil, hkept]
      exact .nil
    · obtain ⟨first, hfirst, hcurrent⟩ := hholds.current
      have hmem : first ∈ run := List.mem_of_mem_head? hfirst
      by_cases heq : first.commitKey = point.commitKey
      · obtain ⟨hkept, hnext⟩ := hholds.turn_of_eq stats hfirst heq
        exact ⟨front, run ++ [point], runsBy_concat_of_eq hruns hmem heq, hkept ▸ hlevels, hnext⟩
      · have hnew : (points.foldl (LevelLoop.turn stats) .start).isNew point = true := by
          unfold LevelLoop.isNew
          rw [hcurrent]
          exact decide_eq_true heq
        obtain ⟨hkept, hnext⟩ := LevelLoop.turn_of_isNew stats hnew
        obtain ⟨level, hflush, hlevel⟩ := hholds.flush stats
        refine ⟨front ++ [run], [point], runsBy_concat_of_ne hruns hmem heq, ?_, hnext⟩
        rw [hkept, hflush]
        exact List.rel_append hlevels (.cons hlevel .nil)

/-- A level for each run. -/
theorem commitLevels_spec (stats : Statistics V) (points : List (SeriesPoint V)) :
    List.Forall₂ (LevelOf stats.midpoint) (commitRuns points) (commitLevels stats points) := by
  unfold commitLevels
  rcases foldl_turn stats points with ⟨rfl, hstart⟩ | ⟨front, run, hruns, hlevels, hholds⟩
  · rw [hstart]
    exact .nil
  · obtain ⟨level, hflush, hlevel⟩ := hholds.flush stats
    rw [hruns, hflush]
    exact List.rel_append hlevels (.cons hlevel .nil)

/-! ## The order of the levels -/

/-- The observations are in order, and the levels oldest first. -/
structure Series.InOrder (s : Series V) : Prop where
  points : s.points.Pairwise fun p q => p.position ≤ q.position
  window : s.baseWindow.Pairwise fun l m => l.topoIndex ≤ m.topoIndex

omit [LinearOrder V] in
omit [LinearOrder V] in
theorem SeriesPoint.topoIndex_le {p q : SeriesPoint V} (h : p.position ≤ q.position) :
    p.topoIndex ≤ q.topoIndex := by
  rcases Prod.Lex.toLex_le_toLex.mp h with hlt | ⟨heq, -⟩
  · exact Nat.le_of_lt hlt
  · exact Nat.le_of_eq heq

theorem map_topoIndex_of_levels {midpoint : V → V → V} {runs : List (List (SeriesPoint V))}
    {levels : List (BaseLevel V)} (h : List.Forall₂ (LevelOf midpoint) runs levels) :
    levels.map BaseLevel.topoIndex = (runs.filterMap List.head?).map SeriesPoint.topoIndex := by
  induction h with
  | nil => rfl
  | cons hlevel _ ih =>
    obtain ⟨first, hfirst, htopo, -⟩ := hlevel.commit
    rw [List.map_cons, ih, List.filterMap_cons, hfirst, htopo]
    rfl

/-- Points in order make levels in order. -/
theorem pairwise_commitLevels (stats : Statistics V) {points : List (SeriesPoint V)}
    (h : points.Pairwise fun p q => p.position ≤ q.position) :
    (commitLevels stats points).Pairwise fun l m => l.topoIndex ≤ m.topoIndex := by
  have hheads : ((commitRuns points).filterMap List.head?).Sublist points := by
    have hsub := filterMap_head?_sublist (commitRuns points)
    rwa [commitRuns, flatten_runsBy] at hsub
  have htopo : (((commitRuns points).filterMap List.head?).map SeriesPoint.topoIndex).Pairwise
      (· ≤ ·) :=
    List.pairwise_map.mpr ((h.sublist hheads).imp SeriesPoint.topoIndex_le)
  rw [← map_topoIndex_of_levels (commitLevels_spec stats points)] at htopo
  exact List.pairwise_map.mp htopo

theorem inOrder_attachBaseWindow {one candidate : Series V} (hone : one.InOrder)
    (hcandidate : candidate.InOrder) (stats : Statistics V) (compareWindow : Nat) :
    (attachBaseWindow stats compareWindow one candidate).InOrder where
  points := hone.points
  window := (pairwise_commitLevels stats hcandidate.points).sublist (List.drop_sublist ..)

/-! ## Keyed lookup -/

/-- What a context series becomes: the newest levels of the base series with
its key, and itself where there is none. -/
structure Attached (midpoint : V → V → V) (baseSeries : List (Series V)) (compareWindow : Nat)
    (one one' : Series V) : Prop where
  absent : (∀ candidate ∈ baseSeries, candidate.key ≠ one.key) → one' = one
  present : ∀ candidate ∈ baseSeries, candidate.key = one.key → ∃ older newest,
    List.Forall₂ (LevelOf midpoint) (commitRuns candidate.points) (older ++ newest) ∧
    newest.length = min compareWindow (older ++ newest).length ∧
    one' = { one with
      baseWindow := newest, baseHistoryCount := (older ++ newest).length }

/-- What the blessings make of a series: the levels from the latest one on that
accepts its benchmark, and all of them where there is none. -/
structure Blessed (blessings : ExtTreeMap DiscriminantSet (List BlessingPlacement))
    (one one' : Series V) : Prop where
  unblessed : (∀ placements, blessings[one.set]? = some placements →
    ∀ p ∈ placements, p.matches one.id = false) → one' = one
  blessed : ∀ placements, blessings[one.set]? = some placements →
    ∀ latest ∈ placements, latest.matches one.id = true →
    (∀ p ∈ placements, p.matches one.id = true → p.topoIndex ≤ latest.topoIndex) →
    ∃ p ∈ placements, p.matches one.id = true ∧ p.topoIndex = latest.topoIndex ∧
      one' = { one with
        baseWindow := one.baseWindow.filter fun level => latest.topoIndex ≤ level.topoIndex
        blessing := some { commit := p.commit, commitTime := p.commitTime } }

theorem attached_updateFrom (stats : Statistics V) {baseSeries : List (Series V)}
    (hbase : baseSeries.Pairwise fun s t => s.key < t.key) (compareWindow : Nat)
    (one : Series V) :
    Attached stats.midpoint baseSeries compareWindow one
      (updateFrom Series.key Series.key (attachBaseWindow stats compareWindow) baseSeries one) := by
  refine ⟨updateFrom_eq_self, fun candidate hmem hkey => ?_⟩
  rw [updateFrom_of_mem hbase hmem hkey]
  have hlevels := commitLevels_spec stats candidate.points
  unfold attachBaseWindow
  generalize commitLevels stats candidate.points = levels at *
  refine ⟨levels.take (levels.length - compareWindow), levels.drop (levels.length - compareWindow),
    ?_, ?_, ?_⟩
  · rwa [List.take_append_drop]
  · rw [List.take_append_drop, List.length_drop]
    omega
  · rw [List.take_append_drop]

theorem inOrder_updateFrom {baseSeries : List (Series V)}
    (hbase : baseSeries.Pairwise fun s t => s.key < t.key)
    (horder : ∀ s ∈ baseSeries, s.InOrder) {one : Series V} (hone : one.InOrder)
    (stats : Statistics V) (compareWindow : Nat) :
    (updateFrom Series.key Series.key (attachBaseWindow stats compareWindow) baseSeries
      one).InOrder := by
  by_cases hsome : ∃ candidate ∈ baseSeries, candidate.key = one.key
  · obtain ⟨candidate, hmem, hkey⟩ := hsome
    rw [updateFrom_of_mem hbase hmem hkey]
    exact inOrder_attachBaseWindow hone (horder candidate hmem) stats compareWindow
  · rw [updateFrom_eq_self fun candidate hmem hkey => hsome ⟨candidate, hmem, hkey⟩]
    exact hone

omit [LinearOrder V] in
theorem blessed_applyBaseBlessing (stats : Statistics V)
    (blessings : ExtTreeMap DiscriminantSet (List BlessingPlacement)) {one : Series V}
    (hone : one.InOrder) : Blessed blessings one (applyBaseBlessing stats blessings one) := by
  unfold applyBaseBlessing
  cases hset : blessings[one.set]? with
  | none => exact ⟨fun _ => rfl, fun _ heq => nomatch hset.symm.trans heq⟩
  | some placements =>
    obtain ⟨hnone, hsome⟩ := maxByKey_spec BlessingPlacement.topoIndex
      (placements.filter fun p => p.matches one.id)
    simp only
    cases hlatest : latestBlessing placements one.id with
    | none =>
      refine ⟨fun _ => rfl, fun placements' heq latest hmem hmatch _ => ?_⟩
      obtain rfl := Option.some.inj (hset.symm.trans heq)
      exact absurd hmatch (List.filter_eq_nil_iff.mp (hnone hlatest) latest hmem)
    | some p =>
      obtain ⟨hp, hgreatest⟩ := hsome p hlatest
      obtain ⟨hin, hmatch⟩ := List.mem_filter.mp hp
      refine ⟨fun hnever => ?_, fun placements' heq latest hmem hlmatch hlast => ?_⟩
      · exact absurd (hnever placements hset p hin) (by rw [hmatch]; decide)
      · obtain rfl := Option.some.inj (hset.symm.trans heq)
        have hsame : p.topoIndex = latest.topoIndex := Nat.le_antisymm (hlast p hin hmatch)
          (hgreatest latest (List.mem_filter.mpr ⟨hmem, hlmatch⟩))
        refine ⟨p, hin, hmatch, hsame, ?_⟩
        simp only
        rw [stats.partitionPoint.drop_index hone.window, hsame]

/-- **Base windows by a linear merge are those of a keyed lookup**, and the
blessings cut them where they should. -/
theorem base_windows_spec (stats : Statistics V) {series baseSeries : List (Series V)}
    (hseries : series.Pairwise fun s t => s.key < t.key)
    (hbase : baseSeries.Pairwise fun s t => s.key < t.key)
    (horder : ∀ s ∈ series ++ baseSeries, s.InOrder) (compareWindow : Nat)
    (blessings : ExtTreeMap DiscriminantSet (List BlessingPlacement)) :
    let attached := attachBaseWindows stats series baseSeries compareWindow
    List.Forall₂ (Attached stats.midpoint baseSeries compareWindow) series attached ∧
      List.Forall₂ (Blessed blessings) attached (applyBaseBlessings stats attached blessings) := by
  have hmap : attachBaseWindows stats series baseSeries compareWindow = series.map
      (updateFrom Series.key Series.key (attachBaseWindow stats compareWindow) baseSeries) :=
    updateAlong_eq_map (hseries.imp le_of_lt) hbase
  simp only
  rw [hmap]
  constructor
  · rw [List.forall₂_map_right_iff, List.forall₂_same]
    exact fun one _ => attached_updateFrom stats hbase compareWindow one
  · unfold applyBaseBlessings
    rw [List.forall₂_map_right_iff, List.forall₂_same]
    intro one' hmem
    obtain ⟨one, hone, rfl⟩ := List.mem_map.mp hmem
    have hinOrder := horder one (List.mem_append_left _ hone)
    exact blessed_applyBaseBlessing stats blessings (inOrder_updateFrom hbase
      (fun s hs => horder s (List.mem_append_right _ hs)) hinOrder stats compareWindow)

/-! A benchmark measured at three commits of the base ref and blessed at the
second, with a window of three levels. -/

def wallTime : SeriesKey :=
  toLex (⟨.criterion, ['l'], ['m']⟩, toLex (⟨[['b']], List.cons_ne_nil _ _⟩, .wallTime))

/-- A series of whole numbers, measured at the given commits. -/
def measured (key : SeriesKey) (values : List (Nat × Nat)) : Series Nat where
  set := key.1
  id := key.2.1
  kind := key.2.2
  points := values.zipIdx.map fun ((topoIndex, value), ordinal) =>
    { topoIndex, dirty := false, objectOrdinal := ordinal, commit := none, value,
      intervalLow := none, intervalHigh := none }
  baseWindow := []
  baseHistoryCount := 0
  activeStart := 0
  blessing := none

def wholeNumbers : Statistics Nat where
  sort := .stable
  midpoint low high := (low + high) / 2
  partitionPoint := .linear _

def threeCommits : List (Series Nat) := [measured wallTime [(0, 4), (1, 5), (2, 8)]]

def blessedSecond : ExtTreeMap DiscriminantSet (List BlessingPlacement) :=
  (∅ : ExtTreeMap DiscriminantSet (List BlessingPlacement)).insert wallTime.1 [⟨1, none, ['c'], []⟩]

theorem three_commits_attached :
    let attached := attachBaseWindows wholeNumbers [measured wallTime [(2, 9)]] threeCommits 3
    List.Forall₂ (Attached wholeNumbers.midpoint threeCommits 3) [measured wallTime [(2, 9)]]
        attached ∧
      List.Forall₂ (Blessed blessedSecond) attached
        (applyBaseBlessings wholeNumbers attached blessedSecond) := by
  refine base_windows_spec wholeNumbers (List.pairwise_singleton ..) (List.pairwise_singleton ..)
    (fun s hs => ?_) 3 blessedSecond
  rcases List.mem_cons.mp hs with rfl | hs
  · exact ⟨List.pairwise_singleton .., .nil⟩
  · obtain rfl := List.mem_singleton.mp hs
    exact ⟨by decide, .nil⟩

end Folo.BenchHistory
