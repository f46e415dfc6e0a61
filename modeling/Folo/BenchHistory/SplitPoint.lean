import Folo.BenchHistory.ForkPoint

/-!
# The split of a resolved history

Whichever way it is found, the commit that `resolve_history` splits the line at
is the newest one of the line that the base contains, and there is none exactly
when the base contains nothing of the line (`isSplit_of_findSplitCommit`). So
what `select_commits` takes for the target's side is what the base does not
contain.
-/

namespace Folo.BenchHistory

open Folo.Lib Std

variable {ε : Type} {git : GitHistory ε} {repo : CommitGraph Text} {time : Text → Option Int}
  {tip base : Text} {trunk : List Text}

/-! ## The end of the base's commits -/

/-- The base's commits end at one place of the line. -/
theorem ForksAt.unique {i j : Nat} {c d : Text} (hi : ForksAt repo trunk base i)
    (hj : ForksAt repo trunk base j) (hc : trunk[i]? = some c) (hd : trunk[j]? = some d) :
    i = j := by
  rcases Nat.lt_trichotomy i j with hlt | heq | hgt
  · exact absurd (hj.before j d le_rfl hd) (hi.after j d hlt hd)
  · exact heq
  · exact absurd (hi.before i c le_rfl hc) (hj.after i c hgt hc)

/-- The newest commit of the line that the base contains; none if it contains
none of them. -/
structure IsSplit (repo : CommitGraph Text) (trunk : List Text) (base : Text)
    (split : Option Text) : Prop where
  newest : ∀ fork, split = some fork ↔ ∃ j, trunk[j]? = some fork ∧ ForksAt repo trunk base j
  absent : split = none ↔ ∀ c ∈ trunk, ¬ repo.Ancestor c base

theorem ForksAt.isSplit {j : Nat} {fork : Text} (h : ForksAt repo trunk base j)
    (hfork : trunk[j]? = some fork) : IsSplit repo trunk base (some fork) where
  newest other := by
    constructor
    · intro heq
      exact ⟨j, Option.some.inj heq ▸ hfork, h⟩
    · rintro ⟨k, hk, hforks⟩
      obtain rfl := h.unique hforks hfork hk
      rw [← hfork, hk]
  absent := by
    refine iff_of_false (fun heq => nomatch heq) fun hnone => ?_
    exact hnone fork (List.mem_of_getElem? hfork) (h.before j fork le_rfl hfork)

/-- What the binary search ends with. -/
theorem Bisected.isSplit {low : Nat} (h : Bisected repo trunk base low low)
    (hle : low ≤ trunk.length) :
    IsSplit repo trunk base (match low with
      | 0 => none
      | index + 1 => trunk[index]?) := by
  cases low with
  | zero =>
    refine ⟨fun fork => ?_, ?_⟩
    · refine iff_of_false (fun heq => nomatch heq) ?_
      rintro ⟨j, hj, hforks⟩
      exact h.after j fork (Nat.zero_le j) hj (hforks.before j fork le_rfl hj)
    · refine iff_of_true rfl fun c hc => ?_
      obtain ⟨i, hi⟩ := List.mem_iff_getElem?.mp hc
      exact h.after i c (Nat.zero_le i) hi
  | succ j =>
    obtain ⟨fork, hfork⟩ : ∃ c, trunk[j]? = some c := ⟨_, List.getElem?_eq_getElem (by omega)⟩
    have hforks : ForksAt repo trunk base j :=
      ⟨fun i c hi => h.before i c (Nat.lt_succ_of_le hi), fun i c hi => h.after i c hi⟩
    dsimp only
    rw [hfork]
    exact hforks.isSplit hfork

theorem bisectLine_le {rounds low high result : Nat} (hle : low ≤ high)
    (hok : bisectLine git trunk base rounds low high = .ok result) : result ≤ high := by
  induction rounds generalizing low high with
  | zero => exact Except.ok.inj hok ▸ hle
  | succ rounds ih =>
    unfold bisectLine at hok
    split at hok
    next => exact Except.ok.inj hok ▸ hle
    next hlt =>
      dsimp only at hok
      split at hok
      next => exact Except.ok.inj hok ▸ hle
      next =>
        obtain ⟨answer, -, hok⟩ := bind_eq_ok.mp hok
        cases answer with
        | true => exact ih (by omega) hok
        | false =>
          have := ih (by omega) hok
          omega

/-- Both ways to the split commit, the merge-base on the line and the search
along it, find the same one. -/
theorem isSplit_of_findSplitCommit (hgit : git.Answers repo time)
    (hline : repo.FirstParentLine tip trunk) {m : Text} (hm : repo.IsMergeBase tip base m)
    {split : Option Text} (hok : findSplitCommit git trunk m base = .ok split) :
    IsSplit repo trunk base split := by
  unfold findSplitCommit at hok
  split at hok
  next hmem =>
    obtain rfl := Except.ok.inj hok
    obtain ⟨j, hj⟩ := List.mem_iff_getElem?.mp hmem
    exact (forksAt_of_mergeBase hline hm hj).isSplit hj
  next =>
    obtain ⟨low, hlow, hfork⟩ := bind_eq_ok.mp hok
    have hstart : Bisected repo trunk base 0 trunk.length := by
      refine ⟨fun i c hi => absurd hi (Nat.not_lt_zero i), fun i c hi hc => ?_⟩
      rw [List.getElem?_eq_none hi] at hc
      nomatch hc
    have hend := hstart.bisectLine hgit hline (Nat.zero_le _) le_rfl (by omega) hlow
    have hsplit := hend.isSplit (bisectLine_le (Nat.zero_le _) hlow)
    cases low with
    | zero => exact Except.ok.inj hfork ▸ hsplit
    | succ index => exact Except.ok.inj hfork ▸ hsplit

/-! ## What is selected -/

/-- Only the target's side is admitted, the exception apart. -/
theorem dirty_eq_admitted_iff : ∀ targetSide isTip allowDirty exception : Bool,
    (if !targetSide && isTip && allowDirty && exception then DirtyAdmission.baseException
      else if targetSide && allowDirty then .admitted
      else .excluded) = .admitted ↔ allowDirty = true ∧ targetSide = true := by
  decide

/-- A selected commit by its place on the line. -/
theorem mem_selectCommits {split : Option Text} {allowDirty exception : Bool}
    {one : SelectedCommit} (h : one ∈ selectCommits trunk split allowDirty exception) :
    ∃ index, trunk[index]? = some one.commit ∧
      (one.dirty = .admitted ↔ allowDirty = true ∧
        ∀ fork, split = some fork → ∀ boundary, trunk.findIdx? (fun c => decide (c = fork)) =
          some boundary → boundary < index) := by
  obtain ⟨index, hlt, rfl⟩ := List.mem_mapIdx.mp h
  refine ⟨index, List.getElem?_eq_getElem hlt, ?_⟩
  refine (dirty_eq_admitted_iff _ _ _ _).trans (and_congr_right fun _ => ?_)
  rw [Option.all_eq_true]
  simp only [decide_eq_true_iff, Option.bind_eq_some_iff]
  constructor
  · intro h fork hfork boundary hboundary
    exact h boundary ⟨fork, hfork, hboundary⟩
  · rintro h boundary ⟨fork, hfork, hboundary⟩
    exact h fork hfork boundary hboundary

/-- The place of a commit of the line. -/
theorem findIdx?_of_getElem? (hnodup : trunk.Nodup) {j : Nat} {fork : Text}
    (hj : trunk[j]? = some fork) :
    trunk.findIdx? (fun c => decide (c = fork)) = some j := by
  obtain ⟨hlt, heq⟩ := List.getElem?_eq_some_iff.mp hj
  refine List.findIdx?_eq_some_iff_getElem.mpr ⟨hlt, decide_eq_true heq, fun i hi heq' => ?_⟩
  have hne := List.nodup_iff_getElem?_ne_getElem?.mp hnodup i j hi hlt
  exact hne (by rw [hj, List.getElem?_eq_getElem (hi.trans hlt), of_decide_eq_true heq'])

/-- **The target's side is what the base does not contain**: of the commits that
may admit dirty runs, these do. -/
theorem admitted_iff (hline : repo.FirstParentLine tip trunk) {split : Option Text}
    (hsplit : IsSplit repo trunk base split) {allowDirty exception : Bool} {one : SelectedCommit}
    (h : one ∈ selectCommits trunk split allowDirty exception) :
    one.dirty = .admitted ↔ allowDirty = true ∧ ¬ repo.Ancestor one.commit base := by
  obtain ⟨index, hindex, hiff⟩ := mem_selectCommits h
  rw [hiff]
  refine and_congr_right fun _ => ?_
  cases split with
  | none =>
    refine iff_of_true (fun fork heq => nomatch heq) ?_
    exact hsplit.absent.mp rfl _ (List.mem_of_getElem? hindex)
  | some fork =>
    obtain ⟨j, hj, hforks⟩ := (hsplit.newest fork).mp rfl
    have hplace := findIdx?_of_getElem? hline.nodup hj
    constructor
    · intro hafter
      exact hforks.after index _ (hafter fork rfl j hplace) hindex
    · intro hnot other heq boundary hboundary
      obtain rfl := Option.some.inj heq
      obtain rfl := Option.some.inj (hplace.symm.trans hboundary)
      by_contra hle
      exact hnot (hforks.before index _ (Nat.le_of_not_lt hle) hindex)

/-! ## The resolved history -/

/-- Git answers every question that it is asked. -/
structure GitHistory.Serves (git : GitHistory ε) : Prop where
  mergeBase : ∀ a b, ∃ answer, git.mergeBase a b = .ok answer
  firstParent : ∀ tip, ∃ commits, git.firstParent tip = .ok commits
  isDirty : ∃ answer, git.isDirty = .ok answer

theorem exists_bisectLine (hserve : git.Serves) (trunk : List Text) (base : Text)
    (rounds low high : Nat) :
    ∃ result, bisectLine git trunk base rounds low high = .ok result := by
  induction rounds generalizing low high with
  | zero => exact ⟨low, rfl⟩
  | succ rounds ih =>
    unfold bisectLine
    split
    next => exact ⟨low, rfl⟩
    next =>
      dsimp only
      split
      next => exact ⟨low, rfl⟩
      next candidate _ =>
        obtain ⟨mergeBase, hmb⟩ := hserve.mergeBase candidate base
        have hanswer : isAncestorOf git candidate base =
            .ok (decide (mergeBase = some candidate)) := by
          unfold isAncestorOf mergeBaseOf
          rw [hmb]
          rfl
        rw [hanswer]
        cases decide (mergeBase = some candidate) with
        | true => exact ih _ _
        | false => exact ih _ _

theorem exists_findSplitCommit (hserve : git.Serves) (trunk : List Text) (base m : Text) :
    ∃ split, findSplitCommit git trunk m base = .ok split := by
  unfold findSplitCommit
  split
  next => exact ⟨some m, rfl⟩
  next =>
    obtain ⟨low, hlow⟩ := exists_bisectLine hserve trunk base (trunk.length + 1) 0
      trunk.length
    unfold baseRefForkPoint
    rw [hlow]
    cases low with
    | zero => exact ⟨none, rfl⟩
    | succ index => exact ⟨trunk[index]?, rfl⟩

/-- The commit that a history is split at. -/
def ResolvedHistory.splitCommit (history : ResolvedHistory) : Option Text :=
  history.mergeBaseIndex.bind fun index => history.orderedCommits[index]?

/-- How a history is split and what it admits. -/
structure HistorySplit (repo : CommitGraph Text) (selection : Selection)
    (history : ResolvedHistory) : Prop where
  line : repo.FirstParentLine history.tipCommit history.orderedCommits
  split : IsSplit repo history.orderedCommits history.baseCommit history.splitCommit
  /-- the index is that of the commit -/
  index : history.mergeBaseIndex = none ↔ history.splitCommit = none
  selected : ∀ allowDirty exception, ∀ one ∈ selectCommits history.orderedCommits
    history.splitCommit allowDirty exception, (one.dirty = .admitted ↔
      allowDirty = true ∧ ¬ repo.Ancestor one.commit history.baseCommit)
  admitted : ∀ c ∈ history.orderedCommits,
    (history.admitDirty[c]? = some true ∧ history.dirtyBaseException[c]? = some false ↔
      selection.noDirty = false ∧ ¬ repo.Ancestor c history.baseCommit)

theorem DirtyAdmission.eq_admitted_iff (dirty : DirtyAdmission) :
    dirty.admitsDirty = true ∧ dirty.isBaseException = false ↔ dirty = .admitted := by
  cases dirty <;> decide

/-- What is collected from the selected commits of a line. -/
theorem collectMap_selected {β : Type} {selected : List SelectedCommit} (f : DirtyAdmission → β)
    (hnodup : (selected.map (·.commit)).Nodup) {one : SelectedCommit} (hone : one ∈ selected) :
    (collectMap (selected.map fun one => (one.commit, f one.dirty)))[one.commit]? =
      some (f one.dirty) := by
  have hkeys : ((selected.map fun one => (one.commit, f one.dirty)).map Prod.fst).Nodup := by
    rwa [List.map_map]
  exact (mem_of_collectMap hkeys one.commit).1 _ (List.mem_map.mpr ⟨one, hone, rfl⟩)

/-- A commit of the line is found again by its index. -/
theorem bind_index (hnodup : trunk.Nodup) {split : Option Text}
    (hmem : ∀ fork, split = some fork → fork ∈ trunk) :
    (split.bind fun c => (CommitOrder.ofCommits trunk).index[c]?).bind
      (fun index => trunk[index]?) = split := by
  cases split with
  | none => rfl
  | some fork =>
    obtain ⟨j, hj⟩ := List.mem_iff_getElem?.mp (hmem fork rfl)
    have hindex : (CommitOrder.ofCommits trunk).index[fork]? = some j :=
      (indexCommits_eq_some_iff hnodup).mpr hj
    rw [Option.bind_some, hindex, Option.bind_some, hj]

theorem IsSplit.mem {split : Option Text} (h : IsSplit repo trunk base split) {fork : Text}
    (hfork : split = some fork) : fork ∈ trunk := by
  obtain ⟨j, hj, -⟩ := (h.newest fork).mp hfork
  exact List.mem_of_getElem? hj

theorem historySplit (hgit : git.Answers repo time) {config : Config} {selection : Selection}
    {policy : DirtyTipPolicy} {history : ResolvedHistory}
    (hok : resolveHistory git config selection policy = .ok history) :
    HistorySplit repo selection history := by
  unfold resolveHistory at hok
  obtain ⟨target, -, hok⟩ := bind_eq_ok.mp hok
  cases target with
  | none => nomatch hok
  | some target =>
  obtain ⟨base, -, hok⟩ := bind_eq_ok.mp hok
  cases base with
  | none => nomatch hok
  | some base =>
  obtain ⟨commits, hcommits, hok⟩ := bind_eq_ok.mp hok
  obtain ⟨mergeBase, hmb, hok⟩ := bind_eq_ok.mp hok
  cases mergeBase with
  | none => nomatch hok
  | some m =>
  obtain ⟨dirty, -, hok⟩ := bind_eq_ok.mp hok
  obtain ⟨split, hfind, hok⟩ := bind_eq_ok.mp hok
  obtain rfl := Except.ok.inj hok
  have hline := hgit.firstParent _ _ (mapErr_eq_ok hcommits)
  have hsplit := isSplit_of_findSplitCommit hgit hline
    (hgit.mergeBase _ _ _ (mapErr_eq_ok hmb)) hfind
  have hindex := bind_index hline.nodup fun _ => hsplit.mem
  have hcommits := commits_selectCommits (commits.map (·.commitId)) split (!selection.noDirty)
  refine
    { line := hline
      split := ?_
      index := ?_
      selected := ?_
      admitted := ?_ }
  · unfold ResolvedHistory.splitCommit
    dsimp only
    rw [hcommits, hindex]
    exact hsplit
  · unfold ResolvedHistory.splitCommit
    dsimp only
    rw [hcommits, hindex]
    constructor
    · intro hnone
      rw [← hindex, hnone]
      rfl
    · rintro rfl
      rfl
  · intro allowDirty exception one hone
    unfold ResolvedHistory.splitCommit at hone
    dsimp only at hone
    rw [hcommits, hindex] at hone
    exact admitted_iff hline hsplit hone
  · dsimp only
    intro c hc
    have hnodup := hline.nodup
    rw [← hcommits] at hc hnodup
    obtain ⟨one, hone, rfl⟩ := List.mem_map.mp hc
    rw [collectMap_selected DirtyAdmission.admitsDirty hnodup hone,
      collectMap_selected DirtyAdmission.isBaseException hnodup hone, Option.some.injEq,
      Option.some.injEq, one.dirty.eq_admitted_iff, admitted_iff hline hsplit hone,
      Bool.not_eq_true']

theorem exists_resolveHistory (hgit : git.Answers repo time) (hserve : git.Serves)
    {config : Config} {selection : Selection} {policy : DirtyTipPolicy} {target : Text}
    {base : ResolvedBase}
    (htarget : resolveRef git (selection.context.getD "HEAD".toList) = .ok (some target))
    (hbase : resolveBase git config selection.base = .ok (some base))
    (hcommon : ∃ c, repo.Ancestor c target ∧ repo.Ancestor c base.commit) :
    ∃ history, resolveHistory git config selection policy = .ok history ∧
      history.tipCommit = target ∧ history.baseCommit = base.commit := by
  obtain ⟨commits, hcommits⟩ := hserve.firstParent target
  obtain ⟨mergeBase, hmb⟩ := hserve.mergeBase target base.commit
  obtain ⟨m, rfl⟩ : ∃ m, mergeBase = some m := by
    obtain ⟨c, hct, hcb⟩ := hcommon
    cases mergeBase with
    | none => exact absurd hcb (hgit.noMergeBase _ _ hmb c hct)
    | some m => exact ⟨m, rfl⟩
  obtain ⟨dirty, hdirty⟩ : ∃ dirty, probeWorkingTree git selection policy = .ok dirty := by
    obtain ⟨answer, hanswer⟩ := hserve.isDirty
    unfold probeWorkingTree
    split
    next =>
      rw [hanswer]
      exact ⟨answer, rfl⟩
    next => exact ⟨false, rfl⟩
  obtain ⟨split, hsplit⟩ := exists_findSplitCommit hserve (commits.map (·.commitId))
    base.commit m
  unfold resolveHistory
  refine ⟨_, bind_eq_ok.mpr ⟨_, htarget, bind_eq_ok.mpr ⟨_, hbase, bind_eq_ok.mpr
    ⟨commits, by rw [hcommits]; rfl, bind_eq_ok.mpr ⟨some m, ?_, bind_eq_ok.mpr
      ⟨dirty, hdirty, bind_eq_ok.mpr ⟨split, hsplit, rfl⟩⟩⟩⟩⟩⟩, rfl, rfl⟩
  unfold mergeBaseOf
  rw [hmb]
  rfl

/-- **The split of a resolved history** is the newest commit of the target's
line that the base contains, absent exactly when it contains none, and the
target's side is what the base does not contain. Where git answers and the two
have a common ancestor, a history is resolved. -/
theorem resolveHistory_splits (git : GitHistory ε) (config : Config) (selection : Selection)
    (policy : DirtyTipPolicy) (hgit : git.Answers repo time) :
    (∀ history, resolveHistory git config selection policy = .ok history →
      HistorySplit repo selection history) ∧
    (git.Serves → ∀ target base,
      resolveRef git (selection.context.getD "HEAD".toList) = .ok (some target) →
      resolveBase git config selection.base = .ok (some base) →
      (∃ c, repo.Ancestor c target ∧ repo.Ancestor c base.commit) →
      ∃ history, resolveHistory git config selection policy = .ok history ∧
        history.tipCommit = target ∧ history.baseCommit = base.commit) :=
  ⟨fun _ hok => historySplit hgit hok, fun hserve _ _ htarget hbase hcommon =>
    exists_resolveHistory hgit hserve htarget hbase hcommon⟩

/-! A branch `t` of the root `r` that the base `b` was merged into: the merge-base
is off the line, so the split is searched for. -/

def mergedRank (commit : Text) : Nat :=
  if commit = "t".toList then 2 else if commit = "b".toList then 1 else 0

def mergedParents (commit : Text) : List Text :=
  if commit = "t".toList then ["r".toList, "b".toList]
  else if commit = "b".toList then ["r".toList]
  else []

theorem mergedRank_lt {a b : Text} (h : a ∈ mergedParents b) : mergedRank a < mergedRank b := by
  unfold mergedParents at h
  split at h
  next heq =>
    subst heq
    rcases List.mem_pair.mp h with rfl | rfl <;> decide
  next =>
    split at h
    next heq =>
      subst heq
      obtain rfl := List.mem_singleton.mp h
      decide
    next => cases h

def mergedRepo : CommitGraph Text where
  parents := mergedParents
  acyclic c h := by
    have hrank : ∀ d, Relation.TransGen (fun a b => a ∈ mergedParents b) c d →
        mergedRank c < mergedRank d := by
      intro d hd
      induction hd with
      | single hstep => exact mergedRank_lt hstep
      | tail _ hstep ih => exact ih.trans (mergedRank_lt hstep)
    exact absurd (hrank c h) (Nat.lt_irrefl _)

def mergedGit : GitHistory Unit where
  resolve reference := .ok (some (if reference = "HEAD".toList then "t".toList else "b".toList))
  defaultBranch := .ok (some "main".toList)
  mergeBase a b :=
    if b = "b".toList then
      if a = "t".toList then .ok (some "b".toList)
      else if a = "r".toList then .ok (some "r".toList)
      else .error ()
    else .error ()
  firstParent tip :=
    if tip = "t".toList then
      .ok [{ commitId := "r".toList, committerTime := none, subject := [] },
        { commitId := "t".toList, committerTime := none, subject := [] }]
    else .error ()
  isDirty := .ok false

theorem mergedRepo_onLine {c : Text} (h : mergedRepo.OnLine c "t".toList) :
    c ∈ ["r".toList, "t".toList] := by
  rcases Relation.ReflTransGen.cases_tail h with heq | ⟨d, hd, hstep⟩
  · rw [← heq]
    decide
  · obtain rfl : d = "r".toList := (Option.some.inj hstep).symm
    rcases Relation.ReflTransGen.cases_tail hd with heq | ⟨e, -, hstep⟩
    · rw [← heq]
      decide
    · nomatch hstep

theorem mergedGit_answers : mergedGit.Answers mergedRepo fun _ => none where
  mergeBase a b m h := by
    have hrb : mergedRepo.Ancestor "r".toList "b".toList :=
      .single (show "r".toList ∈ mergedParents "b".toList by decide)
    have hbt : mergedRepo.Ancestor "b".toList "t".toList :=
      .single (show "b".toList ∈ mergedParents "t".toList by decide)
    unfold mergedGit at h
    dsimp only at h
    split at h
    next hb =>
      subst hb
      split at h
      next ha =>
        obtain rfl := Option.some.inj (Except.ok.inj h)
        subst ha
        exact ⟨hbt, .refl _, fun c _ hcb hbc => hcb.antisymm hbc⟩
      next =>
        split at h
        next ha =>
          obtain rfl := Option.some.inj (Except.ok.inj h)
          subst ha
          exact .of_ancestor hrb
        next => nomatch h
    next => nomatch h
  noMergeBase a b h := by
    unfold mergedGit at h
    dsimp only at h
    split at h
    next =>
      split at h
      next => nomatch h
      next =>
        split at h
        next => nomatch h
        next => nomatch h
    next => nomatch h
  firstParent tip commits h := by
    unfold mergedGit at h
    dsimp only at h
    split at h
    next htip =>
      obtain rfl := Except.ok.inj h
      obtain rfl := htip
      refine ⟨.cons_cons ?_ (.singleton _), fun c hc => (Option.some.inj hc).symm,
        fun c hc => mergedRepo_onLine hc⟩
      show (mergedParents "t".toList).head? = some "r".toList
      decide
    next => nomatch h
  committerTime tip commits h := by
    unfold mergedGit at h
    dsimp only at h
    split at h
    next =>
      obtain rfl := Except.ok.inj h
      decide
    next => nomatch h

def wholeSelection : Selection where
  context := none
  base := none
  noDirty := false
  since := none
  engine := []
  targetTriple := []
  machineKey := []

theorem resolveHistory_splits_merged : ∃ history,
    resolveHistory mergedGit { defaultBranch := none } wholeSelection .whenWorkingTreeDirty =
        .ok history ∧
      history.splitCommit = some "r".toList ∧ HistorySplit mergedRepo wholeSelection history :=
  ⟨_, rfl, by decide, (resolveHistory_splits mergedGit { defaultBranch := none } wholeSelection
    .whenWorkingTreeDirty mergedGit_answers).1 _ rfl⟩

end Folo.BenchHistory
