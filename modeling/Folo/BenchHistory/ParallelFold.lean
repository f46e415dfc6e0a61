import Folo.BenchHistory.RunTally
import Folo.BenchHistory.SeriesGroups
import Mathlib.Algebra.BigOperators.Group.List.Basic
import Mathlib.Algebra.GroupWithZero.Nat
import Mathlib.Data.List.Forall2

/-!
# The parallel fold

A worker's contribution stands for the objects that it folded (`Represents`),
and merging two contributions puts their objects together. Whatever chunks the
objects were cut into and in whatever order the contributions are merged, the
result stands for the same objects in another order, and a contribution does
not depend on that order: in each series the objects give at most one point
each, their ordinals differ, and so the sorts have no ties.
-/

namespace Folo.BenchHistory

open Folo.Lib Std

variable {V ε : Type}

/-! ## Chunks -/

theorem sum_balanced (base remainder workers : Nat) :
    ((List.range workers).map fun i => if i < remainder then base + 1 else base).sum =
      workers * base + min remainder workers := by
  induction workers with
  | zero => simp
  | succ n ih =>
    rw [List.range_succ, List.map_append, List.sum_append, ih, Nat.succ_mul]
    by_cases h : n < remainder
    · simp only [List.map_cons, List.map_nil, List.sum_cons, List.sum_nil, if_pos h]
      omega
    · simp only [List.map_cons, List.map_nil, List.sum_cons, List.sum_nil, if_neg h]
      omega

/-- The chunks have room for all the items. -/
theorem sum_balancedChunkSizes {len workers : Nat} (h : workers = 0 → len = 0) :
    (balancedChunkSizes len workers).sum = len := by
  unfold balancedChunkSizes
  by_cases hw : workers = 0
  · rw [hw, h hw]
    rfl
  · dsimp only
    rw [if_neg hw, if_neg hw, Option.getD_some, Option.getD_some, sum_balanced]
    have hlt : len % workers < workers := Nat.mod_lt _ (Nat.pos_of_ne_zero hw)
    rw [Nat.min_eq_left hlt.le]
    exact Nat.div_add_mod len workers

/-- No chunk is empty. -/
theorem zero_notMem_balancedChunkSizes {len workers : Nat} (h : workers ≤ len) :
    0 ∉ balancedChunkSizes len workers := by
  intro hmem
  obtain ⟨i, hi, hsize⟩ := List.mem_map.mp hmem
  have hw : 0 < workers := (Nat.zero_le i).trans_lt (List.mem_range.mp hi)
  have hbase : 0 < len / workers := Nat.div_pos h hw
  rw [if_neg hw.ne', if_neg hw.ne', Option.getD_some, Option.getD_some] at hsize
  split at hsize <;> omega

theorem takeChunks_spec {α : Type} (sizes : List Nat) (items : List α)
    (hsum : sizes.sum = items.length) :
    (takeChunks sizes items).flatten = items ∧
      (takeChunks sizes items).map List.length = sizes := by
  induction sizes generalizing items with
  | nil => exact ⟨(List.length_eq_zero_iff.mp hsum.symm).symm, rfl⟩
  | cons size sizes ih =>
    rw [List.sum_cons] at hsum
    have hdrop : sizes.sum = (items.drop size).length := by
      rw [List.length_drop]
      omega
    obtain ⟨hflat, hlen⟩ := ih _ hdrop
    constructor
    · rw [takeChunks, List.flatten_cons, hflat, List.take_append_drop]
    · rw [takeChunks, List.map_cons, hlen, List.length_take]
      congr 1
      omega

/-- The chunks are the items, cut at the sizes. -/
theorem chunksOf_spec {α : Type} (items : List α) {parallelism : Nat} (hp : 0 < parallelism) :
    (chunksOf items parallelism).flatten = items ∧
      (chunksOf items parallelism).map List.length =
        balancedChunkSizes items.length (workerCount items.length parallelism) := by
  refine takeChunks_spec _ _ (sum_balancedChunkSizes fun h => ?_)
  unfold workerCount at h
  omega

/-! ## At most one point of a run in a series -/

/-- No benchmark twice, and no kind twice within a benchmark. -/
structure RunPoints.NoRepeats (run : RunPoints V) : Prop where
  ids : (run.results.map (·.id)).Nodup
  kinds : ∀ record ∈ run.results, (record.metrics.map (·.kind)).Nodup

/-- Of elements with different keys, those with one key are all related. -/
theorem pairwise_filter_key {α β : Type} [DecidableEq β] {key : α → β} {xs : List α}
    (h : (xs.map key).Nodup) (b : β) (R : α → α → Prop) :
    (xs.filter fun x => decide (key x = b)).Pairwise R := by
  refine ((List.pairwise_map.mp h).filter _).imp_of_mem fun hx hy hne => ?_
  rw [List.mem_filter, decide_eq_true_iff] at hx hy
  exact absurd (hx.2.trans hy.2.symm) hne

theorem pairwise_runPoints {run : RunPoints V} (h : run.NoRepeats)
    (prefixes : List BenchmarkIdPrefix) (point : MetricPoint V → SeriesPoint V) (id : BenchmarkId)
    (kind : MetricKind) (R : SeriesPoint V → SeriesPoint V → Prop) :
    (runPoints prefixes point run.results id kind).Pairwise R := by
  unfold runPoints
  split
  · refine List.pairwise_flatMap.mpr
      ⟨fun record hrecord => ?_, pairwise_filter_key h.ids id _⟩
    exact List.pairwise_map.mpr
      (pairwise_filter_key (h.kinds record (List.mem_filter.mp hrecord).1) kind _)
  · exact List.Pairwise.nil

theorem objectOrdinal_of_mem_runPoints {prefixes : List BenchmarkIdPrefix} {topoIndex : Nat}
    {dirty : Bool} {ordinal : Nat} {commit : Text} {results : List (ResultPoints V)}
    {id : BenchmarkId} {kind : MetricKind} {p : SeriesPoint V}
    (hp : p ∈ runPoints prefixes (SeriesBuilder.pointOf topoIndex dirty ordinal commit) results
      id kind) : p.objectOrdinal = ordinal := by
  unfold runPoints at hp
  split at hp
  · obtain ⟨_, -, hp⟩ := List.mem_flatMap.mp hp
    obtain ⟨_, -, rfl⟩ := List.mem_map.mp hp
    rfl
  · nomatch hp

namespace LoadContext

variable {ctx : LoadContext V ε}

/-! ## What a contribution stands for -/

/-- The points of a stored object in a series. -/
def pointsOf (ctx : LoadContext V ε) (o : RankedObject ctx.order) : Contents V :=
  fun set id kind =>
    match ctx.fetch o.key with
    | .ok run =>
      pushedPoints ctx.prefixes o.parsed.set (SeriesBuilder.pointOf o.topoIndex o.parsed.isDirty
        (ordinalOf o.rank) o.parsed.commit) run set id kind
    | .error _ => []

def contents (ctx : LoadContext V ε) (objects : List (RankedObject ctx.order)) : Contents V :=
  fun set id kind => objects.flatMap fun o => ctx.pointsOf o set id kind

/-- The contribution is what the objects make, in some order of folding. -/
structure Represents (ctx : LoadContext V ε) (fold : WorkerFold V)
    (objects : List (RankedObject ctx.order)) : Prop where
  prefixes : fold.builder.prefixes = ctx.prefixes
  gathers : Gathers fold.builder.groups (ctx.contents objects)
  tallies : Tallies fold.runIndex objects

theorem represents_nothing : ctx.Represents ctx.nothing [] :=
  ⟨rfl, gathers_empty, tallies_empty⟩

theorem Represents.foldRun {fold : WorkerFold V} {objects : List (RankedObject ctx.order)}
    (h : ctx.Represents fold objects) {o : RankedObject ctx.order} {run : RunPoints V}
    (hrun : ctx.fetch o.key = .ok run) :
    ctx.Represents (ctx.foldRun fold o run) (objects ++ [o]) where
  prefixes := h.prefixes
  gathers := by
    intro set id kind
    refine (h.gathers.push o.parsed.set o.topoIndex o.parsed.isDirty (ordinalOf o.rank)
      o.parsed.commit run set id kind).trans ?_
    simp [contents, pointsOf, hrun, h.prefixes]
  tallies := h.tallies.record o

theorem Represents.merge {combined : WorkerFold V} {xs : List (RankedObject ctx.order)}
    (h : ctx.Represents combined xs) {worker : HashOrder V × WorkerFold V}
    {ys : List (RankedObject ctx.order)} (hw : ctx.Represents worker.2 ys) :
    ctx.Represents (combined.merge worker) (xs ++ ys) where
  prefixes := h.prefixes
  gathers := by
    intro set id kind
    refine (h.gathers.merge worker.1 hw.gathers set id kind).trans ?_
    simp [contents]
  tallies := h.tallies.merge hw.tallies

/-- All of a chunk is folded, or nothing is returned. -/
theorem represents_of_foldlM {chunk : List (RankedObject ctx.order)} {fold result : WorkerFold V}
    {objects : List (RankedObject ctx.order)} (h : ctx.Represents fold objects)
    (hok : chunk.foldlM (fun fold object => do
      let run ← ctx.fetch object.key
      pure (ctx.foldRun fold object run)) fold = .ok result) :
    ctx.Represents result (objects ++ chunk) ∧ ∀ o ∈ chunk, ∃ run, ctx.fetch o.key = .ok run := by
  induction chunk generalizing fold objects with
  | nil =>
    obtain rfl := Except.ok.inj hok
    exact ⟨by rwa [List.append_nil], fun o ho => absurd ho List.not_mem_nil⟩
  | cons o chunk ih =>
    rw [List.foldlM_cons] at hok
    cases hrun : ctx.fetch o.key with
    | error e => rw [hrun] at hok; nomatch hok
    | ok run =>
      rw [hrun] at hok
      obtain ⟨hrep, hall⟩ := ih (h.foldRun hrun) hok
      rw [List.append_assoc, List.singleton_append] at hrep
      refine ⟨hrep, fun o' ho' => ?_⟩
      rcases List.mem_cons.mp ho' with rfl | hmem
      · exact ⟨run, hrun⟩
      · exact hall o' hmem

theorem represents_of_foldChunk {chunk : List (RankedObject ctx.order)} {fold : WorkerFold V}
    (hok : ctx.foldChunk chunk = .ok fold) :
    ctx.Represents fold chunk ∧ ∀ o ∈ chunk, ∃ run, ctx.fetch o.key = .ok run :=
  represents_of_foldlM represents_nothing hok

/-- A chunk whose objects load is folded. -/
theorem foldChunk_ok {chunk : List (RankedObject ctx.order)}
    (hall : ∀ o ∈ chunk, ∃ run, ctx.fetch o.key = .ok run) :
    ∃ fold, ctx.foldChunk chunk = .ok fold := by
  unfold foldChunk
  generalize ctx.nothing = start
  induction chunk generalizing start with
  | nil => exact ⟨start, rfl⟩
  | cons o chunk ih =>
    obtain ⟨run, hrun⟩ := hall o (List.mem_cons_self ..)
    obtain ⟨fold, hfold⟩ := ih (fun o' ho' => hall o' (List.mem_cons_of_mem _ ho'))
      (ctx.foldRun start o run)
    exact ⟨fold, by rw [List.foldlM_cons, hrun]; exact hfold⟩

theorem mapM_foldChunk_ok {chunks : List (List (RankedObject ctx.order))}
    (hall : ∀ chunk ∈ chunks, ∀ o ∈ chunk, ∃ run, ctx.fetch o.key = .ok run) :
    ∃ folds, chunks.mapM ctx.foldChunk = .ok folds ∧
      List.Forall₂ (fun fold chunk => ctx.Represents fold chunk) folds chunks := by
  induction chunks with
  | nil => exact ⟨[], rfl, .nil⟩
  | cons chunk chunks ih =>
    obtain ⟨fold, hfold⟩ := foldChunk_ok (hall chunk (List.mem_cons_self ..))
    obtain ⟨folds, hfolds, hrep⟩ := ih fun c hc => hall c (List.mem_cons_of_mem _ hc)
    refine ⟨fold :: folds, ?_, .cons (represents_of_foldChunk hfold).1 hrep⟩
    rw [List.mapM_cons, hfold, hfolds]
    rfl

theorem Represents.foldl_merge {combined : WorkerFold V} {xs : List (RankedObject ctx.order)}
    (h : ctx.Represents combined xs) {workers : List (HashOrder V × WorkerFold V)}
    {chunks : List (List (RankedObject ctx.order))}
    (hw : List.Forall₂ (fun fold chunk => ctx.Represents fold chunk) (workers.map Prod.snd)
      chunks) :
    ctx.Represents (workers.foldl WorkerFold.merge combined) (xs ++ chunks.flatten) := by
  induction workers generalizing combined xs chunks with
  | nil =>
    cases hw
    rwa [List.flatten_nil, List.append_nil]
  | cons worker workers ih =>
    obtain _ | ⟨hrep, hw⟩ := hw
    rw [List.flatten_cons, ← List.append_assoc]
    exact ih (h.merge hrep) hw

/-! ## One history for one set of objects -/

/-- No two points of a series are in one place. -/
theorem nodup_positions {objects : List (RankedObject ctx.order)}
    (hordinals : (objects.map fun o => ordinalOf o.rank).Nodup)
    (hruns : ∀ o ∈ objects, ∀ run, ctx.fetch o.key = .ok run → run.NoRepeats)
    (set : DiscriminantSet) (id : BenchmarkId) (kind : MetricKind) :
    ((ctx.contents objects set id kind).map SeriesPoint.position).Nodup := by
  have hordinal : ∀ (o : RankedObject ctx.order) p, p ∈ ctx.pointsOf o set id kind →
      p.objectOrdinal = ordinalOf o.rank := fun o p hp => by
    unfold pointsOf pushedPoints at hp
    split at hp
    · split at hp
      · exact objectOrdinal_of_mem_runPoints hp
      · nomatch hp
    · nomatch hp
  refine List.pairwise_map.mpr (List.pairwise_flatMap.mpr ⟨fun o ho => ?_, ?_⟩)
  · unfold pointsOf pushedPoints
    split
    next run hrun =>
      split
      · exact pairwise_runPoints (hruns o ho run hrun) ..
      · exact List.Pairwise.nil
    next => exact List.Pairwise.nil
  · refine (List.pairwise_map.mp hordinals).imp fun hne p hp q hq heq => hne ?_
    rw [← hordinal _ p hp, ← hordinal _ q hq]
    exact (Prod.mk.inj (Prod.mk.inj heq).2).2

/-- The series and the tallies are the same, whatever the hash maps and the
sorts do. -/
def SameHistory (a b : WorkerFold V) : Prop :=
  (∀ (order order' : HashOrder V) (sortSeries sortSeries' : UnstableSort (Series V))
    (sortPoints sortPoints' : UnstableSort (SeriesPoint V)),
    a.builder.finish order sortSeries sortPoints =
      b.builder.finish order' sortSeries' sortPoints') ∧
  a.runIndex = b.runIndex

/-- Each series once and in order, and so are its points. -/
structure InOrder (all : List (Series V)) : Prop where
  series : all.Pairwise fun s t => s.key < t.key
  points : ∀ s ∈ all, s.points.Pairwise fun p q => p.position < q.position

theorem Represents.sameHistory {a b : WorkerFold V} {xs ys : List (RankedObject ctx.order)}
    (ha : ctx.Represents a xs) (hb : ctx.Represents b ys) (hperm : xs.Perm ys)
    (hordinals : (xs.map fun o => ordinalOf o.rank).Nodup)
    (hruns : ∀ o ∈ xs, ∀ run, ctx.fetch o.key = .ok run → run.NoRepeats) : SameHistory a b :=
  ⟨finish_eq ha.gathers hb.gathers (fun _ _ _ => hperm.flatMap_right _)
    (nodup_positions hordinals hruns), ha.tallies.eq_of_perm hb.tallies hperm⟩

theorem Represents.inOrder {a : WorkerFold V} {xs : List (RankedObject ctx.order)}
    (ha : ctx.Represents a xs) (hordinals : (xs.map fun o => ordinalOf o.rank).Nodup)
    (hruns : ∀ o ∈ xs, ∀ run, ctx.fetch o.key = .ok run → run.NoRepeats) (order : HashOrder V)
    (sortSeries : UnstableSort (Series V)) (sortPoints : UnstableSort (SeriesPoint V)) :
    InOrder (a.builder.finish order sortSeries sortPoints) where
  series := strict_finish ..
  points s hs := by
    rw [((mem_finish ha.gathers order sortSeries sortPoints s).mp hs).2]
    exact sortPoints.strict_sortByKey (nodup_positions hordinals hruns ..)

/-- Cutting the ranked objects into chunks and merging what the workers make of
them, in any order, gives the history of folding them all into one. -/
theorem parallel_fold_eq_sequential (ctx : LoadContext V ε)
    {ranked : List (RankedObject ctx.order)} {sequential : WorkerFold V}
    (hseq : ctx.foldChunk ranked = .ok sequential)
    (hordinals : (ranked.map fun o => ordinalOf o.rank).Nodup)
    (hruns : ∀ o ∈ ranked, ∀ run, ctx.fetch o.key = .ok run → run.NoRepeats)
    {parallelism : Nat} (hp : 0 < parallelism) :
    (∃ folds, (chunksOf ranked parallelism).mapM ctx.foldChunk = .ok folds ∧
      ∀ merging : List (HashOrder V × WorkerFold V), (merging.map Prod.snd).Perm folds →
        SameHistory (ctx.mergeFolds merging) sequential) ∧
    (∀ hashOrders, ∃ fold, ctx.foldRunsChunked parallelism hashOrders ranked = .ok fold ∧
      SameHistory fold sequential) ∧
    (∀ order sortSeries sortPoints,
      InOrder (sequential.builder.finish order sortSeries sortPoints)) ∧
    (let sizes := balancedChunkSizes ranked.length (workerCount ranked.length parallelism)
    (chunksOf ranked parallelism).map List.length = sizes ∧ sizes.sum = ranked.length ∧
      0 ∉ sizes) := by
  obtain ⟨hrep, hloads⟩ := represents_of_foldChunk hseq
  obtain ⟨hflat, hsizes⟩ := chunksOf_spec ranked hp
  have hchunks : ∀ chunk ∈ chunksOf ranked parallelism, ∀ o ∈ chunk,
      ∃ run, ctx.fetch o.key = .ok run := fun chunk hc o ho =>
    hloads o (by rw [← hflat]; exact List.mem_flatten_of_mem hc ho)
  obtain ⟨folds, hfolds, hreps⟩ := mapM_foldChunk_ok hchunks
  have hmerged : ∀ merging : List (HashOrder V × WorkerFold V),
      (merging.map Prod.snd).Perm folds → SameHistory (ctx.mergeFolds merging) sequential := by
    intro merging hperm
    -- the chunks in the order in which their contributions are merged
    obtain ⟨chunks, hmerging, hchunks⟩ := List.perm_comp_forall₂ hperm hreps
    have hmerge := represents_nothing.foldl_merge hmerging
    have hall : chunks.flatten.Perm ranked := by
      rw [← hflat]
      exact hchunks.flatten
    rw [List.nil_append] at hmerge
    refine hmerge.sameHistory hrep hall ((hall.map _).nodup_iff.mpr hordinals) fun o ho => ?_
    exact hruns o (hall.subset ho)
  refine ⟨⟨folds, hfolds, hmerged⟩, fun hashOrders => ?_, hrep.inOrder hordinals hruns, hsizes, ?_,
    zero_notMem_balancedChunkSizes (Nat.min_le_right ..)⟩
  · unfold foldRunsChunked
    split
    next hempty =>
      obtain rfl := List.length_eq_zero_iff.mp hempty
      obtain rfl := Except.ok.inj hseq
      exact ⟨ctx.nothing, rfl, hrep.sameHistory hrep (List.Perm.refl _) hordinals hruns⟩
    next =>
      rw [hfolds]
      refine ⟨_, rfl, hmerged _ ?_⟩
      rw [show (folds.mapIdx fun i fold => (hashOrders i, fold)).map Prod.snd = folds from
        List.ext_getElem (by simp) (by simp)]
  · rw [← hsizes, ← List.length_flatten, hflat]

/-- One benchmark, run on two commits. -/
def twoCommits : LoadContext Nat Unit where
  order := .ofCommits [['a'], ['b']]
  dirtyBaseException := ∅
  prefixes := []
  fetch _ := .ok { results := [{
    id := ⟨[['x']], List.cons_ne_nil _ _⟩
    metrics := [{ kind := .wallTime, value := 7, intervalLow := none, intervalHigh := none }] }] }

theorem twoCommits_index (commit : Text) : twoCommits.order.index[commit]? =
    if ['b'] = commit then some 1 else if ['a'] = commit then some 0 else none := by
  change (((∅ : ExtTreeMap Text Nat).insert ['a'] 0).insert ['b'] 1)[commit]? = _
  rw [getElem?_insert, getElem?_insert, ExtTreeMap.getElem?_empty]

/-- A clean run on each commit. -/
def twoRuns : List (RankedObject twoCommits.order) :=
  [{ rank := 0
     key := ['k']
     parsed := ⟨['p'], ⟨.criterion, ['t'], ['m']⟩, ['b'], .clean⟩
     topoIndex := 1
     onHistory := twoCommits_index _ },
   { rank := 1
     key := ['l']
     parsed := ⟨['p'], ⟨.criterion, ['t'], ['m']⟩, ['a'], .clean⟩
     topoIndex := 0
     onHistory := twoCommits_index _ }]

theorem parallel_fold_eq_sequential_two_runs :
    ∃ sequential, twoCommits.foldChunk twoRuns = .ok sequential ∧
      ∃ folds, (chunksOf twoRuns 2).mapM twoCommits.foldChunk = .ok folds ∧
        ∀ merging : List (HashOrder Nat × WorkerFold Nat), (merging.map Prod.snd).Perm folds →
          SameHistory (twoCommits.mergeFolds merging) sequential := by
  refine ⟨_, rfl, (parallel_fold_eq_sequential twoCommits rfl (by decide) ?_ (by decide)).1⟩
  intro o _ run hrun
  obtain rfl := Except.ok.inj hrun
  exact ⟨by decide, by simp⟩

end LoadContext

end Folo.BenchHistory
