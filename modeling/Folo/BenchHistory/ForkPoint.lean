import Folo.Lib.CommitGraphs
import Folo.Lib.Outcomes
import Folo.BenchHistory.History

/-!
# Where the target forks from the base

What `resolve_history` finds when git answers for a commit graph. The commits
of the target's line that the base contains are a beginning of it, and the
fork point is where they end, whether it is the merge-base on the line or the
commit that the binary search ends at (`HistoryFacts.fork`).
-/

namespace Folo.BenchHistory

open Folo.Lib Std

variable {ε : Type} {git : GitHistory ε} {repo : CommitGraph Text} {time : Text → Option Int}

/-- Git answers for these commits and these committer times. -/
structure GitHistory.Answers (git : GitHistory ε) (repo : CommitGraph Text)
    (time : Text → Option Int) : Prop where
  mergeBase : ∀ a b m, git.mergeBase a b = .ok (some m) → repo.IsMergeBase a b m
  noMergeBase : ∀ a b, git.mergeBase a b = .ok none →
    ∀ c, repo.Ancestor c a → ¬ repo.Ancestor c b
  firstParent : ∀ tip commits, git.firstParent tip = .ok commits →
    repo.FirstParentLine tip (commits.map (·.commitId))
  committerTime : ∀ tip commits, git.firstParent tip = .ok commits →
    ∀ commit ∈ commits, commit.committerTime = time commit.commitId

theorem mapErr_eq_ok {ε' α : Type} {wrap : ε → ε'} {x : Except ε α} {a : α}
    (h : mapErr wrap x = .ok a) : x = .ok a := by
  cases x with
  | error e => nomatch h
  | ok b => exact congrArg _ (Except.ok.inj h)

/-! ## The binary search -/

theorem isAncestorOf_iff (hgit : git.Answers repo time) {commit descendant : Text} {answer : Bool}
    (h : isAncestorOf git commit descendant = .ok answer) :
    answer = true ↔ repo.Ancestor commit descendant := by
  obtain ⟨mergeBase, hmb, hanswer⟩ := bind_eq_ok.mp h
  obtain rfl := Except.ok.inj hanswer
  replace hmb := mapErr_eq_ok hmb
  rw [decide_eq_true_iff]
  cases mergeBase with
  | none =>
    refine iff_of_false (fun h => nomatch h) ?_
    exact hgit.noMergeBase _ _ hmb commit (CommitGraph.Ancestor.refl commit)
  | some m =>
    have hbase := hgit.mergeBase _ _ _ hmb
    rw [Option.some.injEq]
    constructor
    · rintro rfl
      exact hbase.right
    · exact hbase.eq_left

/-- Up to `low` the commits of the line are the base's, from `high` on they are
not. -/
structure Bisected (repo : CommitGraph Text) (trunk : List Text) (base : Text) (low high : Nat) :
    Prop where
  before : ∀ i c, i < low → trunk[i]? = some c → repo.Ancestor c base
  after : ∀ i c, high ≤ i → trunk[i]? = some c → ¬ repo.Ancestor c base

theorem Bisected.bisectLine (hgit : git.Answers repo time) {tip base : Text} {trunk : List Text}
    (hline : repo.FirstParentLine tip trunk) {rounds low high result : Nat}
    (h : Bisected repo trunk base low high) (hle : low ≤ high) (hlen : high ≤ trunk.length)
    (hrounds : high - low < rounds) (hok : bisectLine git trunk base rounds low high = .ok result) :
    Bisected repo trunk base result result := by
  induction rounds generalizing low high with
  | zero => exact absurd hrounds (Nat.not_lt_zero _)
  | succ rounds ih =>
    unfold BenchHistory.bisectLine at hok
    split at hok
    next hge =>
      obtain rfl := Except.ok.inj hok
      exact ⟨h.before, fun i c hi => h.after i c (hge.trans hi)⟩
    next hlt =>
      have hmid : (low + high) / 2 < high := by omega
      obtain ⟨candidate, hcandidate⟩ : ∃ c, trunk[(low + high) / 2]? = some c :=
        ⟨_, List.getElem?_eq_getElem (by omega)⟩
      dsimp only at hok
      rw [hcandidate] at hok
      obtain ⟨answer, hanswer, hok⟩ := bind_eq_ok.mp hok
      have hiff := isAncestorOf_iff hgit hanswer
      cases answer with
      | true =>
        refine ih ⟨fun i c hi hc => ?_, h.after⟩ (by omega) hlen (by omega) hok
        exact (hline.ancestor (Nat.lt_succ_iff.mp hi) hc hcandidate).trans (hiff.mp rfl)
      | false =>
        refine ih ⟨h.before, fun i c hi hc hanc => ?_⟩ (by omega) (by omega) (by omega) hok
        -- an ancestor of the base beyond the candidate would make the candidate one
        exact Bool.false_ne_true (hiff.mpr ((hline.ancestor hi hcandidate hc).trans hanc))

/-- The commit at `j` is the last of the line that the base contains. -/
structure ForksAt (repo : CommitGraph Text) (trunk : List Text) (base : Text) (j : Nat) : Prop where
  before : ∀ i c, i ≤ j → trunk[i]? = some c → repo.Ancestor c base
  after : ∀ i c, j < i → trunk[i]? = some c → ¬ repo.Ancestor c base

theorem forksAt_of_baseRefForkPoint (hgit : git.Answers repo time) {tip base : Text}
    {trunk : List Text} (hline : repo.FirstParentLine tip trunk) {fork : Text}
    (hok : baseRefForkPoint git trunk base = .ok (some fork)) :
    ∃ j, trunk[j]? = some fork ∧ ForksAt repo trunk base j := by
  obtain ⟨low, hlow, hfork⟩ := bind_eq_ok.mp hok
  have hstart : Bisected repo trunk base 0 trunk.length :=
    ⟨fun i c hi => absurd hi (Nat.not_lt_zero i), fun i c hi hc => by
      rw [List.getElem?_eq_none hi] at hc
      nomatch hc⟩
  have hend := hstart.bisectLine hgit hline (Nat.zero_le _) le_rfl (by omega) hlow
  cases low with
  | zero => nomatch Except.ok.inj hfork
  | succ j =>
    exact ⟨j, Except.ok.inj hfork, fun i c hi => hend.before i c (Nat.lt_succ_of_le hi),
      fun i c hi => hend.after i c hi⟩

/-- A merge-base on the line is where the base's commits end. -/
theorem forksAt_of_mergeBase {tip base m : Text} {trunk : List Text}
    (hline : repo.FirstParentLine tip trunk) (hm : repo.IsMergeBase tip base m) {j : Nat}
    (hj : trunk[j]? = some m) : ForksAt repo trunk base j where
  before i c hi hc := (hline.ancestor hi hc hj).trans hm.right
  after i c hi hc hanc := by
    obtain ⟨hlt, -⟩ := List.getElem?_eq_some_iff.mp hc
    obtain ⟨last, hlast⟩ : ∃ last, trunk[trunk.length - 1]? = some last :=
      ⟨_, List.getElem?_eq_getElem (by omega)⟩
    obtain rfl : last = tip := hline.last last (by rw [List.getLast?_eq_getElem?, hlast])
    -- a later ancestor of the base would be a better common ancestor
    have heq : c = m := hm.best c (hline.ancestor (by omega) hc hlast) hanc
      (hline.ancestor hi.le hj hc)
    have hsame := (List.nodup_iff_getElem?_ne_getElem?.mp hline.nodup) j i hi hlt
    exact hsame (by rw [hj, hc, heq])

/-! ## The maps of the history -/

theorem commits_selectCommits (ancestry : List Text) (split : Option Text) (allowDirty tip : Bool) :
    (selectCommits ancestry split allowDirty tip).map (·.commit) = ancestry := by
  unfold selectCommits
  exact List.ext_getElem (by simp) (by simp)

theorem mem_of_collectMap {β : Type} {pairs : List (Text × β)} (hkeys : (pairs.map Prod.fst).Nodup)
    (a : Text) :
    (∀ v, (a, v) ∈ pairs → (collectMap pairs)[a]? = some v) ∧
      ((∀ v, (a, v) ∉ pairs) → (collectMap pairs)[a]? = none) := by
  have h := getElem?_foldl_pairs (fun m pair => m.insert pair.1 pair.2) (fun _ v _ => v)
    (fun m k v a => getElem?_insert m k a v) pairs hkeys ∅ a
  rwa [ExtTreeMap.getElem?_empty] at h

/-- On a line, a commit is indexed by its place. -/
theorem indexCommits_eq_some_iff {trunk : List Text} (hnodup : trunk.Nodup) {c : Text} {i : Nat} :
    (indexCommits trunk)[c]? = some i ↔ trunk[i]? = some c := by
  refine ⟨getElem?_of_indexCommits, fun hi => ?_⟩
  have hkeys : (trunk.zipIdx.map Prod.fst).Nodup := by
    rwa [List.zipIdx_map_fst]
  have h := getElem?_foldl_pairs (fun m pair => m.insert pair.1 pair.2) (fun _ i _ => i)
    (fun m k i a => getElem?_insert m k a i) trunk.zipIdx hkeys ∅ c
  exact h.1 i (List.mem_zipIdx_iff_getElem?.mpr hi)

theorem commitTimes_eq {commits : List FirstParentCommit}
    (hnodup : (commits.map (·.commitId)).Nodup)
    (htime : ∀ commit ∈ commits, commit.committerTime = time commit.commitId) {c : Text}
    (hc : c ∈ commits.map (·.commitId)) :
    (collectMap (commits.filterMap fun commit =>
      commit.committerTime.map fun t => (commit.commitId, t)))[c]? = time c := by
  have hkeys : ((commits.filterMap fun commit =>
      commit.committerTime.map fun t => (commit.commitId, t)).map Prod.fst).Nodup := by
    refine List.pairwise_map.mpr (List.pairwise_filterMap.mpr
      ((List.pairwise_map.mp hnodup).imp fun hne p hp q hq heq => hne ?_))
    obtain ⟨_, -, rfl⟩ := Option.map_eq_some_iff.mp hp
    obtain ⟨_, -, rfl⟩ := Option.map_eq_some_iff.mp hq
    exact heq
  obtain ⟨hsome, hnone⟩ := mem_of_collectMap hkeys c
  obtain ⟨commit, hmem, rfl⟩ := List.mem_map.mp hc
  cases ht : time commit.commitId with
  | some t =>
    refine hsome t (List.mem_filterMap.mpr ⟨commit, hmem, ?_⟩)
    rw [htime commit hmem, ht]
    rfl
  | none =>
    refine hnone fun t hin => ?_
    obtain ⟨other, hother, heq⟩ := List.mem_filterMap.mp hin
    obtain ⟨t', ht', heq⟩ := Option.map_eq_some_iff.mp heq
    obtain ⟨hid, -⟩ := Prod.mk.inj heq
    rw [htime other hother, hid, ht] at ht'
    nomatch ht'

/-! ## The resolved history -/

/-- What a resolved history says of the commits. -/
structure HistoryFacts (git : GitHistory ε) (config : Config) (repo : CommitGraph Text)
    (time : Text → Option Int) (selection : Selection) (history : ResolvedHistory) : Prop where
  target : git.resolve (selection.context.getD "HEAD".toList) = .ok (some history.tipCommit)
  base : resolveBase git config selection.base =
    .ok (some { name := history.baseName, commit := history.baseCommit })
  line : repo.FirstParentLine history.tipCommit history.orderedCommits
  order : ∀ (c : Text) (i : Nat),
    history.order.index[c]? = some i ↔ history.orderedCommits[i]? = some c
  times : ∀ c ∈ history.orderedCommits, history.commitTimes[c]? = time c
  tip : history.tipIsMergeBase = true ↔ repo.Ancestor history.tipCommit history.baseCommit
  fork : ∀ j, history.mergeBaseIndex = some j →
    ForksAt repo history.orderedCommits history.baseCommit j

theorem historyFacts (hgit : git.Answers repo time) {config : Config} {selection : Selection}
    {policy : DirtyTipPolicy} {history : ResolvedHistory}
    (hok : resolveHistory git config selection policy = .ok history) :
    HistoryFacts git config repo time selection history := by
  unfold resolveHistory at hok
  obtain ⟨target, htarget, hok⟩ := bind_eq_ok.mp hok
  cases target with
  | none => nomatch hok
  | some target =>
  obtain ⟨base, hbase, hok⟩ := bind_eq_ok.mp hok
  cases base with
  | none => nomatch hok
  | some base =>
  obtain ⟨commits, hcommits, hok⟩ := bind_eq_ok.mp hok
  obtain ⟨mergeBase, hmb, hok⟩ := bind_eq_ok.mp hok
  cases mergeBase with
  | none => nomatch hok
  | some m =>
  obtain ⟨dirty, -, hok⟩ := bind_eq_ok.mp hok
  obtain ⟨split, hsplit, hok⟩ := bind_eq_ok.mp hok
  obtain rfl := Except.ok.inj hok
  replace hcommits := mapErr_eq_ok hcommits
  have hline := hgit.firstParent _ _ hcommits
  have hm := hgit.mergeBase _ _ _ (mapErr_eq_ok hmb)
  have horder : ∀ (allowDirty exception : Bool) (c : Text) (i : Nat),
      (CommitOrder.ofCommits ((selectCommits (commits.map (·.commitId)) split allowDirty
        exception).map (·.commit))).index[c]? = some i ↔
      (commits.map (·.commitId))[i]? = some c := fun allowDirty exception c i => by
    rw [commits_selectCommits]
    exact indexCommits_eq_some_iff hline.nodup
  refine ⟨mapErr_eq_ok htarget, hbase, hline, horder _ _,
    fun c hc => commitTimes_eq hline.nodup (hgit.committerTime _ _ hcommits) hc, ?_, ?_⟩
  · rw [decide_eq_true_iff]
    constructor
    · rintro rfl
      exact hm.right
    · exact hm.eq_left
  · intro j hj
    obtain ⟨fork, hfork, hat⟩ := Option.bind_eq_some_iff.mp hj
    replace hat := (horder _ _ fork j).mp hat
    unfold findSplitCommit at hsplit
    split at hsplit
    next =>
      obtain rfl := Option.some.inj ((Except.ok.inj hsplit).trans hfork)
      exact forksAt_of_mergeBase hline hm hat
    next =>
      rw [hfork] at hsplit
      obtain ⟨k, hk, hforks⟩ := forksAt_of_baseRefForkPoint hgit hline hsplit
      -- the fork point has one place on the line
      obtain rfl : j = k := Option.some.inj
        (((horder false false fork j).mpr hat).symm.trans ((horder _ _ fork k).mpr hk))
      exact hforks

end Folo.BenchHistory
