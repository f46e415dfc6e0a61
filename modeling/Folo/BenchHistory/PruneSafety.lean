import Folo.BenchHistory.ForkPoint
import Folo.BenchHistory.Prune

/-!
# Pruning preserves history

What `prune_with` may delete. Every item of a plan passed the gates of its
kind (`Removable`) and the commit gate, which with the facts about the fork
point is the range of commits that the options select (`InRange`). The plan
holds the keys of the items and no others, and it is not made when a selected
blessing is only partly within the selection.
-/

namespace Folo.BenchHistory

open Folo.Lib Std

variable {ε Span : Type} {repo : CommitGraph Text} {time : Text → Option Int}

/-! ## The plan -/

/-- The keys of the removals of a commit come from items. -/
theorem mem_keys_of_foldl_addRemoval {items : List RemovalItem}
    {byCommit : ExtTreeMap Nat CommitRemoval} {i : Nat} {removal : CommitRemoval} {key : Key}
    (h : (items.foldl addRemoval byCommit)[i]? = some removal) (hkey : key ∈ removal.keys) :
    (∃ item ∈ items, item.key = key) ∨
      ∃ before : CommitRemoval, byCommit[i]? = some before ∧ key ∈ before.keys := by
  induction items generalizing byCommit with
  | nil => exact .inr ⟨removal, h, hkey⟩
  | cons item items ih =>
    rcases ih h with ⟨other, hmem, heq⟩ | ⟨before, hbefore, hin⟩
    · exact .inl ⟨other, List.mem_cons_of_mem _ hmem, heq⟩
    · rw [addRemoval, getElem?_upsert] at hbefore
      split at hbefore
      next hi =>
        obtain rfl := Option.some.inj hbefore
        rcases List.mem_append.mp hin with hold | hnew
        · cases hentry : byCommit[item.index]? with
          | none => rw [hentry] at hold; nomatch hold
          | some entry =>
            rw [hentry] at hold
            exact .inr ⟨entry, hi ▸ hentry, hold⟩
        · exact .inl ⟨item, List.mem_cons_self .., (List.mem_singleton.mp hnew).symm⟩
      next => exact .inr ⟨before, hbefore, hin⟩

/-- A key of a plan is the key of an item. -/
theorem exists_item_of_mem_keys {projectId targetRef : Text} {items : List RemovalItem} {key : Key}
    (h : key ∈ (buildPlan projectId targetRef items).keys) : ∃ item ∈ items, item.key = key := by
  obtain ⟨removals, hremovals, h⟩ := List.mem_flatMap.mp h
  obtain ⟨set, -, rfl⟩ := List.mem_map.mp hremovals
  obtain ⟨removal, hremoval, hkey⟩ := List.mem_flatMap.mp h
  obtain ⟨⟨i, entry⟩, hentry, rfl⟩ := List.mem_map.mp hremoval
  rw [ExtTreeMap.mem_toList_iff_getElem?_eq_some] at hentry
  rcases mem_keys_of_foldl_addRemoval hentry hkey with ⟨item, hmem, heq⟩ | ⟨before, hbefore, -⟩
  · exact ⟨item, (List.mem_filter.mp hmem).1, heq⟩
  · simp at hbefore

/-! ## Listing -/

/-- What a listing may hold after some keys. -/
structure ListingFacts (fromNanosecond : Int → Option Int) (query : DiscriminantSetQuery)
    (keys : List Key) (listing : CandidateListing) : Prop where
  selected : ∀ key parsed, (key, parsed) ∈ listing.selected →
    key ∈ keys ∧ parseKey key = some parsed ∧ query.accepts parsed.set = true
  scopedIff : ∀ key candidate, (key, candidate) ∈ listing.scopedBlessings ↔
    key ∈ keys ∧ candidate.legacySet = none ∧
      parseScopedBlessingKey fromNanosecond key = some candidate.commit

theorem ListingFacts.filterCandidate {fromNanosecond : Int → Option Int}
    {query : DiscriminantSetQuery} {keys : List Key} {listing : CandidateListing}
    (h : ListingFacts fromNanosecond query keys listing) (collectSiblings : Bool) (key : Key) :
    ListingFacts fromNanosecond query (keys ++ [key])
      (filterCandidate fromNanosecond query collectSiblings listing key) := by
  have hold : ∀ k parsed, (k, parsed) ∈ listing.selected →
      k ∈ keys ++ [key] ∧ parseKey k = some parsed ∧ query.accepts parsed.set = true :=
    fun k parsed hmem => (h.selected k parsed hmem).imp_left (List.mem_append_left _)
  have hnotScoped : parseScopedBlessingKey fromNanosecond key = none →
      ∀ k candidate, (k, candidate) ∈ listing.scopedBlessings ↔
        k ∈ keys ++ [key] ∧ candidate.legacySet = none ∧
          parseScopedBlessingKey fromNanosecond k = some candidate.commit := by
    intro hnone k candidate
    rw [h.scopedIff, List.mem_append, List.mem_singleton]
    refine and_congr_left fun hscoped => ⟨.inl, ?_⟩
    rintro (hin | rfl)
    · exact hin
    · rw [hnone] at hscoped
      nomatch hscoped.2
  unfold BenchHistory.filterCandidate
  split
  next commit hcommit =>
    refine ⟨hold, fun k candidate => ?_⟩
    rw [List.mem_append, h.scopedIff, List.mem_append, List.mem_singleton, List.mem_singleton]
    constructor
    · rintro (⟨hin, hrest⟩ | heq)
      · exact ⟨.inl hin, hrest⟩
      · obtain ⟨rfl, rfl⟩ := Prod.mk.inj heq
        exact ⟨.inr rfl, rfl, hcommit⟩
    · rintro ⟨hin | rfl, hlegacy, hscoped⟩
      · exact .inl ⟨hin, hlegacy, hscoped⟩
      · rw [hcommit] at hscoped
        obtain ⟨c, legacy⟩ := candidate
        obtain rfl : legacy = none := hlegacy
        obtain rfl := Option.some.inj hscoped
        exact .inr rfl
  next hnone =>
    split
    · exact ⟨hold, hnotScoped hnone⟩
    · split
      next => exact ⟨hold, hnotScoped hnone⟩
      next parsed hparsed =>
        refine ⟨fun k other hmem => ?_, hnotScoped hnone⟩
        dsimp only at hmem
        split at hmem
        next hacc =>
          rcases List.mem_append.mp hmem with hin | heq
          · exact hold k other hin
          · obtain ⟨rfl, rfl⟩ := Prod.mk.inj (List.mem_singleton.mp heq)
            exact ⟨List.mem_append_right _ (List.mem_singleton_self _), hparsed, hacc⟩
        next => exact hold k other hmem

theorem ListingFacts.foldl {fromNanosecond : Int → Option Int} {query : DiscriminantSetQuery}
    {seen : List Key} {listing : CandidateListing}
    (h : ListingFacts fromNanosecond query seen listing) (collectSiblings : Bool)
    (keys : List Key) :
    ListingFacts fromNanosecond query (seen ++ keys)
      (keys.foldl (BenchHistory.filterCandidate fromNanosecond query collectSiblings) listing) := by
  induction keys generalizing seen listing with
  | nil => rwa [List.append_nil]
  | cons key keys ih =>
    rw [List.foldl_cons, ← List.singleton_append, ← List.append_assoc]
    exact ih (h.filterCandidate collectSiblings key)

theorem listingFacts (fromNanosecond : Int → Option Int) (keys : List Key)
    (query : DiscriminantSetQuery) (collectSiblings : Bool) :
    ListingFacts fromNanosecond query keys
      (filterCandidates fromNanosecond keys query collectSiblings) := by
  have hnone : ListingFacts fromNanosecond query []
      { selected := [], siblings := [], scopedBlessings := [] } :=
    ⟨fun _ _ h => (nomatch h), fun _ _ => ⟨fun h => (nomatch h), fun h => nomatch h.1⟩⟩
  exact hnone.foldl collectSiblings keys

/-! ## What the options select -/

/-- What the options stand for. -/
structure PruneRequest where
  target : Text
  base : Text
  since : Option Int
  query : DiscriminantSetQuery
  keys : List Key

namespace PruneRequest

structure Resolves (request : PruneRequest) (ctx : PruneContext ε Span) (options : PruneOptions) :
    Prop where
  target : ctx.git.resolve (options.context.getD "HEAD".toList) = .ok (some request.target)
  base : ∃ name, resolveBase ctx.git ctx.config options.base =
    .ok (some { name, commit := request.base })
  since : (parseSince ctx.dates options.since ctx.now : Except (AnalyzeError ε) _) =
    .ok request.since
  query : (resolveDiscriminants (.fromPrune options) (some ctx.auto) : Except (AnalyzeError ε) _) =
    .ok request.query
  keys : ctx.storage.list (projectObjectsPrefix ctx.projectId) = .ok request.keys

/-- The commits that may be pruned. -/
structure InRange (request : PruneRequest) (repo : CommitGraph Text) (time : Text → Option Int)
    (options : PruneOptions) (commit : Text) : Prop where
  onLine : repo.OnLine commit request.target
  filters : options.commit = [] ∨
    ∃ filter ∈ options.commit, asciiLowercase filter <+: asciiLowercase commit
  cutoff : ∀ t since, time commit = some t → request.since = some since → since ≤ t
  /-- only the base branch's own view reaches the base's history -/
  base : repo.Ancestor commit request.base →
    repo.IsMergeBase request.target request.base request.target ∧ options.pruneBase = true

/-- The object is of a selected set, and of a kind that the options include. -/
inductive Removable (request : PruneRequest) (ctx : PruneContext ε Span) (options : PruneOptions)
    (key : Key) (commit : Text) : Prop
  | run (parsed : StorageKey) (hkey : parseKey key = some parsed) (hcommit : parsed.commit = commit)
      (hset : request.query.accepts parsed.set = true) (hrun : parsed.isBless = false)
      (hkind : if parsed.isDirty then options.dirty = true else options.clean = true)
  | sidecar (parsed : StorageKey) (hkey : parseKey key = some parsed)
      (hcommit : parsed.commit = commit) (hset : request.query.accepts parsed.set = true)
      (hbless : parsed.isBless = true) (hkind : options.includeBlessings = true)
  | scopedBlessing (stored : StoredBlessing)
      (hkey : parseScopedBlessingKey ctx.dates.fromNanosecond key = some commit)
      (hstored : fetchBlessing ctx.storage ctx.codec (key, { commit, legacySet := none }) =
        .ok stored)
      (hset : ∀ set, stored.scope.accepts set = true → request.query.accepts set = true)
      (hkind : options.includeBlessings = true)

end PruneRequest
/-! ## The gates -/

/-- The commit passes the gates that every object does. -/
def Passes (history : ResolvedHistory) (options : PruneOptions) (since : Option Int)
    (commit : Text) : Prop :=
  (history.selectedIndex commit options.commit).isSome = true ∧
    beforeSinceCutoff history.commitTimes[commit]? since = false

theorem selectedIndex_eq_some_iff {history : ResolvedHistory} {filters : List Text} {commit : Text}
    {i : Nat} :
    history.selectedIndex commit filters = some i ↔
      history.order.index[commit]? = some i ∧
        commitIsEligible i history.mergeBaseIndex history.tipIsMergeBase = true ∧
          commitMatches commit filters = true := by
  unfold ResolvedHistory.selectedIndex BenchHistory.selectedIndex
  cases hindex : history.order.index[commit]? with
  | none => exact iff_of_false (fun h => nomatch h) (fun h => nomatch h.1)
  | some j =>
    dsimp only
    rw [Option.some.injEq]
    split
    next hineligible =>
      refine iff_of_false (fun h => nomatch h) ?_
      rintro ⟨rfl, heligible, -⟩
      rw [heligible] at hineligible
      nomatch hineligible
    next heligible =>
      rw [Bool.not_eq_true', Bool.not_eq_false] at heligible
      split
      next hunmatched =>
        refine iff_of_false (fun h => nomatch h) ?_
        rintro ⟨-, -, hmatch⟩
        rw [hmatch] at hunmatched
        nomatch hunmatched
      next hmatch =>
        rw [Bool.not_eq_true', Bool.not_eq_false] at hmatch
        rw [Option.some.injEq]
        constructor
        · rintro rfl
          exact ⟨rfl, heligible, hmatch⟩
        · exact fun h => h.1

theorem commitMatches_iff {commit : Text} {filters : List Text} :
    commitMatches commit filters = true ↔ filters = [] ∨
      ∃ filter ∈ filters, asciiLowercase filter <+: asciiLowercase commit := by
  unfold commitMatches
  cases filters with
  | nil => exact iff_of_true rfl (.inl rfl)
  | cons filter filters =>
    rw [List.isEmpty_cons, if_neg Bool.false_ne_true, List.any_eq_true]
    simp only [List.isPrefixOf_iff_prefix, reduceCtorEq, false_or]

theorem beforeSinceCutoff_eq_false_iff {committerTime since : Option Int} :
    beforeSinceCutoff committerTime since = false ↔
      ∀ t s, committerTime = some t → since = some s → s ≤ t := by
  unfold beforeSinceCutoff
  cases committerTime with
  | none => exact iff_of_true rfl fun _ _ h => nomatch h
  | some t =>
    cases since with
    | none => exact iff_of_true rfl fun _ _ _ h => nomatch h
    | some s => simp

section Range

variable {ctx : PruneContext ε Span} {options : PruneOptions} {history : ResolvedHistory}
  {since : Option Int}

/-- What of a request a history resolves. -/
structure Matches (request : PruneRequest) (history : ResolvedHistory) (since : Option Int) :
    Prop where
  target : request.target = history.tipCommit
  base : request.base = history.baseCommit
  since : request.since = since

theorem inRange_of_passes
    (hfacts : HistoryFacts ctx.git ctx.config repo time (.fromPrune options) history)
    (hprune : history.tipIsMergeBase = true → options.pruneBase = true) {request : PruneRequest}
    (hmatch : Matches request history since) {commit : Text}
    (h : Passes history options since commit) : request.InRange repo time options commit := by
  obtain ⟨i, hi⟩ := Option.isSome_iff_exists.mp h.1
  obtain ⟨hindex, heligible, hfilters⟩ := selectedIndex_eq_some_iff.mp hi
  have hplace := (hfacts.order commit i).mp hindex
  have hline : commit ∈ history.orderedCommits := List.mem_of_getElem? hplace
  refine ⟨?_, commitMatches_iff.mp hfilters, ?_, ?_⟩
  · rw [hmatch.target]
    exact hfacts.line.onLine hline
  · rw [hmatch.since, ← hfacts.times commit hline]
    exact beforeSinceCutoff_eq_false_iff.mp h.2
  · rw [hmatch.target, hmatch.base]
    intro hbase
    have htip : history.tipIsMergeBase = true := by
      by_contra hside
      unfold commitIsEligible at heligible
      rw [if_neg hside] at heligible
      -- beyond the fork point nothing is the base's
      cases hfork : history.mergeBaseIndex with
      | none => rw [hfork] at heligible; nomatch heligible
      | some j =>
        rw [hfork] at heligible
        exact (hfacts.fork j hfork).after i commit (of_decide_eq_true heligible) hplace hbase
    exact ⟨.of_ancestor (hfacts.tip.mp htip), hprune htip⟩

/-- Where any commit passes the gates, those of the range do. -/
theorem passes_of_inRange
    (hfacts : HistoryFacts ctx.git ctx.config repo time (.fromPrune options) history)
    {request : PruneRequest} (hmatch : Matches request history since) {other : Text}
    (hother : Passes history options since other) {commit : Text}
    (h : request.InRange repo time options commit) : Passes history options since commit := by
  obtain ⟨i, hi⟩ := List.mem_iff_getElem?.mp
    (hfacts.line.complete commit (hmatch.target ▸ h.onLine))
  refine ⟨?_, ?_⟩
  · refine Option.isSome_iff_exists.mpr ⟨i, selectedIndex_eq_some_iff.mpr
      ⟨(hfacts.order commit i).mpr hi, ?_, commitMatches_iff.mpr h.filters⟩⟩
    unfold commitIsEligible
    split
    next => rfl
    next hside =>
      obtain ⟨k, hk⟩ := Option.isSome_iff_exists.mp hother.1
      have heligible := (selectedIndex_eq_some_iff.mp hk).2.1
      unfold commitIsEligible at heligible
      rw [if_neg hside] at heligible
      cases hfork : history.mergeBaseIndex with
      | none => rw [hfork] at heligible; nomatch heligible
      | some j =>
        refine decide_eq_true (Nat.lt_of_not_le fun hle => hside (hfacts.tip.mpr ?_))
        have hbase := (hfacts.fork j hfork).before i commit hle hi
        rw [← hmatch.target, ← hmatch.base]
        exact (h.base (hmatch.base ▸ hbase)).1.right
  · rw [beforeSinceCutoff_eq_false_iff, hfacts.times commit (List.mem_of_getElem? hi),
      ← hmatch.since]
    exact h.cutoff

end Range

/-! ## The items of a plan -/

section Items

variable {ctx : PruneContext ε Span} {options : PruneOptions} {history : ResolvedHistory}
  {since : Option Int} {query : DiscriminantSetQuery} {listing : CandidateListing}

theorem kind_of_fromOptions {scope : PruneScope}
    (h : (PruneScope.fromOptions options : Except (AnalyzeError ε) _) = .ok (some scope)) :
    scope.touchesClean = options.clean ∧ scope.touchesDirty = options.dirty := by
  unfold PruneScope.fromOptions at h
  cases hclean : options.clean <;> cases hdirty : options.dirty <;> rw [hclean, hdirty] at h
  · dsimp only at h
    split at h <;> nomatch h
  all_goals
    obtain rfl := Option.some.inj (Except.ok.inj h)
    exact ⟨rfl, rfl⟩

theorem runRemoval_eq_some {scope : PruneScope} {key : Key} {parsed : StorageKey}
    {item : RemovalItem} (h : runRemoval history options since scope (key, parsed) = some item) :
    item.key = key ∧ Passes history options since parsed.commit ∧
      if parsed.isDirty then scope.touchesDirty = true else scope.touchesClean = true := by
  unfold runRemoval at h
  dsimp only at h
  split at h
  next => nomatch h
  next i hi =>
    have hsome : (history.selectedIndex parsed.commit options.commit).isSome = true :=
      Option.isSome_iff_exists.mpr ⟨i, hi⟩
    cases hdirty : parsed.isDirty with
    | true =>
      simp only [hdirty, if_true] at h ⊢
      split at h
      next => nomatch h
      next hskipped =>
        rw [Bool.or_eq_true, not_or, Bool.not_eq_true', Bool.not_eq_false] at hskipped
        split at h
        next => nomatch h
        next hcutoff =>
          obtain rfl := Option.some.inj h
          exact ⟨rfl, ⟨hsome, Bool.not_eq_true _ ▸ hcutoff⟩, hskipped.1⟩
    | false =>
      simp only [hdirty, Bool.false_eq_true, if_false] at h ⊢
      split at h
      next => nomatch h
      next hskipped =>
        rw [Bool.not_eq_true', Bool.not_eq_false] at hskipped
        split at h
        next => nomatch h
        next hcutoff =>
          obtain rfl := Option.some.inj h
          exact ⟨rfl, ⟨hsome, Bool.not_eq_true _ ▸ hcutoff⟩, hskipped⟩

theorem sidecarRemoval_eq_some {key : Key} {parsed : StorageKey} {item : RemovalItem}
    (h : sidecarRemoval history options since (key, parsed) = some item) :
    item.key = key ∧ Passes history options since parsed.commit := by
  unfold sidecarRemoval at h
  dsimp only at h
  split at h
  next => nomatch h
  next i hi =>
    split at h
    next => nomatch h
    next hcutoff =>
      obtain rfl := Option.some.inj h
      exact ⟨rfl, Option.isSome_iff_exists.mpr ⟨i, hi⟩, Bool.not_eq_true _ ▸ hcutoff⟩

theorem fetchBlessing_eq_ok {one : Key × BlessingCandidate} {stored : StoredBlessing}
    (h : fetchBlessing ctx.storage ctx.codec one = .ok stored) :
    stored.key = one.1 ∧ stored.commit = one.2.commit := by
  obtain ⟨bytes, -, h⟩ := bind_eq_ok.mp h
  split at h
  next => nomatch h
  next =>
    split at h
    next => nomatch h
    next =>
      split at h
      next => nomatch h
      next =>
        obtain rfl := Except.ok.inj h
        exact ⟨rfl, rfl⟩

/-- The blessings that are loaded, and no others. -/
theorem mem_of_loadBlessings {candidates : List (Key × BlessingCandidate)}
    {blessings : List StoredBlessing}
    (h : loadBlessings ctx.storage ctx.codec ctx.fetches candidates query = .ok blessings)
    (stored : StoredBlessing) :
    stored ∈ blessings ↔ (blessingScope query).intersects stored.scope = true ∧
      ∃ one ∈ candidates, fetchBlessing ctx.storage ctx.codec one = .ok stored := by
  obtain ⟨fetched, hfetched, h⟩ := bind_eq_ok.mp h
  obtain rfl := Except.ok.inj h
  rw [List.mem_filter, List.mem_insertionSort, and_comm]
  refine and_congr_right fun _ => ⟨fun hmem => ?_, ?_⟩
  · obtain ⟨one, hone, hok⟩ := exists_source_of_mapM_eq_ok hfetched stored hmem
    exact ⟨one, (ctx.fetches.perm candidates).mem_iff.mp hone, hok⟩
  · rintro ⟨one, hone, hok⟩
    obtain ⟨other, hmem, hother⟩ := exists_result_of_mapM_eq_ok hfetched one
      ((ctx.fetches.perm candidates).mem_iff.mpr hone)
    obtain rfl := Except.ok.inj (hok.symm.trans hother)
    exact hmem

theorem requireContainedScope_eq_ok {selected scope : BlessingScope} {key : Key} {u : Unit}
    (h : (requireContainedScope selected scope key : Except (AnalyzeError ε) Unit) = .ok u) :
    selected.contains scope = true := by
  unfold requireContainedScope at h
  split at h
  next hin => exact hin
  next => nomatch h

/-- The blessings that are selected are selected whole, and removed. -/
structure ScopedFacts (ctx : PruneContext ε Span) (options : PruneOptions)
    (history : ResolvedHistory) (query : DiscriminantSetQuery) (since : Option Int)
    (listed : List (Key × BlessingCandidate)) (items : List RemovalItem) : Prop where
  contained : ∀ one ∈ listed, Passes history options since one.2.commit → ∀ stored,
    fetchBlessing ctx.storage ctx.codec one = .ok stored →
      (blessingScope query).intersects stored.scope = true →
        (blessingScope query).contains stored.scope = true
  source : ∀ item ∈ items, ∃ one ∈ listed, item.key = one.1 ∧
    Passes history options since one.2.commit ∧ ∃ stored,
      fetchBlessing ctx.storage ctx.codec one = .ok stored ∧
        (blessingScope query).contains stored.scope = true

theorem scopedFacts {listed : List (Key × BlessingCandidate)} {items : List RemovalItem}
    (h : ctx.scopedRemovals options history query since listed = .ok items) :
    ScopedFacts ctx options history query since listed items := by
  obtain ⟨blessings, hload, hitems⟩ := bind_eq_ok.mp h
  have hpasses : ∀ one, scopedSelected history options since one = true ↔
      Passes history options since one.2.commit := fun one => by
    unfold scopedSelected Passes
    rw [Bool.and_eq_true, Bool.not_eq_true']
  refine ⟨fun one hone hpass stored hstored hinter => ?_, fun item hitem => ?_⟩
  · have hmem : stored ∈ blessings := (mem_of_loadBlessings hload stored).mpr
      ⟨hinter, one, List.mem_filter.mpr ⟨hone, (hpasses one).mpr hpass⟩, hstored⟩
    obtain ⟨item, -, hok⟩ := exists_result_of_mapM_eq_ok hitems stored hmem
    obtain ⟨_, hcontained, -⟩ := bind_eq_ok.mp hok
    exact requireContainedScope_eq_ok hcontained
  · obtain ⟨stored, hmem, hok⟩ := exists_source_of_mapM_eq_ok hitems item hitem
    obtain ⟨_, hcontained, hok⟩ := bind_eq_ok.mp hok
    obtain rfl := Except.ok.inj hok
    obtain ⟨-, one, hone, hstored⟩ := (mem_of_loadBlessings hload stored).mp hmem
    obtain ⟨hlisted, hselected⟩ := List.mem_filter.mp hone
    exact ⟨one, hlisted, (fetchBlessing_eq_ok hstored).1, (hpasses one).mp hselected, stored,
      hstored, requireContainedScope_eq_ok hcontained⟩

/-- Where every item of a plan comes from. -/
inductive ItemSource (ctx : PruneContext ε Span) (options : PruneOptions)
    (history : ResolvedHistory) (query : DiscriminantSetQuery) (since : Option Int)
    (listing : CandidateListing) (key : Key) : Prop
  | run (parsed : StorageKey) (hlisted : (key, parsed) ∈ listing.selected)
      (hrun : parsed.isBless = false) (hpass : Passes history options since parsed.commit)
      (hkind : if parsed.isDirty then options.dirty = true else options.clean = true)
  | sidecar (parsed : StorageKey) (hlisted : (key, parsed) ∈ listing.selected)
      (hbless : parsed.isBless = true) (hpass : Passes history options since parsed.commit)
      (hkind : options.includeBlessings = true)
  | scopedBlessing (candidate : BlessingCandidate)
      (hlisted : (key, candidate) ∈ listing.scopedBlessings)
      (hpass : Passes history options since candidate.commit) (stored : StoredBlessing)
      (hstored : fetchBlessing ctx.storage ctx.codec (key, candidate) = .ok stored)
      (hset : (blessingScope query).contains stored.scope = true)
      (hkind : options.includeBlessings = true)

theorem ItemSource.passes {key : Key} (h : ItemSource ctx options history query since listing key) :
    ∃ commit, Passes history options since commit := by
  cases h with
  | run parsed _ _ hpass _ => exact ⟨_, hpass⟩
  | sidecar parsed _ _ hpass _ => exact ⟨_, hpass⟩
  | scopedBlessing candidate _ hpass _ _ _ _ => exact ⟨_, hpass⟩

theorem itemSource_of_removalItems {scope : Option PruneScope}
    (hscope : (PruneScope.fromOptions options : Except (AnalyzeError ε) _) = .ok scope)
    {items : List RemovalItem}
    (h : ctx.removalItems options history query since scope listing = .ok items) :
    ∀ item ∈ items, ItemSource ctx options history query since listing item.key := by
  have hruns : ∀ item ∈ (scope.map fun scope => (listing.selected.filter fun one =>
        !one.2.isBless).filterMap (runRemoval history options since scope)).getD [],
      ItemSource ctx options history query since listing item.key := by
    intro item hitem
    cases scope with
    | none => nomatch hitem
    | some scope =>
      obtain ⟨⟨key, parsed⟩, hone, hsome⟩ := List.mem_filterMap.mp hitem
      obtain ⟨hlisted, hrun⟩ := List.mem_filter.mp hone
      obtain ⟨rfl, hpass, hkind⟩ := runRemoval_eq_some hsome
      obtain ⟨hclean, hdirty⟩ := kind_of_fromOptions hscope
      rw [hclean, hdirty] at hkind
      exact .run parsed hlisted (Bool.not_eq_true' _ ▸ hrun) hpass hkind
  unfold PruneContext.removalItems at h
  dsimp only at h
  split at h
  next hbless =>
    obtain ⟨scopedItems, hscoped, h⟩ := bind_eq_ok.mp h
    obtain rfl := Except.ok.inj h
    intro item hitem
    rcases List.mem_append.mp hitem with hitem | hitem
    · rcases List.mem_append.mp hitem with hitem | hitem
      · exact hruns item hitem
      · obtain ⟨⟨key, parsed⟩, hone, hsome⟩ := List.mem_filterMap.mp hitem
        obtain ⟨hlisted, hsidecar⟩ := List.mem_filter.mp hone
        obtain ⟨rfl, hpass⟩ := sidecarRemoval_eq_some hsome
        exact .sidecar parsed hlisted hsidecar hpass hbless
    · obtain ⟨⟨key, candidate⟩, hlisted, hkey, hpass, stored, hstored, hset⟩ :=
        (scopedFacts hscoped).source item hitem
      rw [hkey]
      exact .scopedBlessing candidate hlisted hpass stored hstored hset hbless
  next =>
    obtain rfl := Except.ok.inj h
    exact hruns

end Items

/-! ## The plan and what it deletes -/

section Plans

variable {ctx : PruneContext ε Span} {options : PruneOptions}

/-- What a plan was made from. -/
structure PlanFacts (ctx : PruneContext ε Span) (options : PruneOptions) (repo : CommitGraph Text)
    (time : Text → Option Int) (request : PruneRequest) (history : ResolvedHistory)
    (items : List RemovalItem) (plan : Plan) : Prop where
  resolves : request.Resolves ctx options
  facts : HistoryFacts ctx.git ctx.config repo time (.fromPrune options) history
  ofHistory : Matches request history request.since
  prune : history.tipIsMergeBase = true → options.pruneBase = true
  removals : ∃ scope, (PruneScope.fromOptions options : Except (AnalyzeError ε) _) = .ok scope ∧
    ctx.removalItems options history request.query request.since scope
      (filterCandidates ctx.dates.fromNanosecond request.keys request.query false) = .ok items
  plan : plan = buildPlan ctx.projectId history.targetRef items

theorem planFacts (hgit : ctx.git.Answers repo time) {plan : Plan}
    (h : ctx.planRemovals options = .ok plan) :
    ∃ request history items, PlanFacts ctx options repo time request history items plan := by
  obtain ⟨_, -, h⟩ := bind_eq_ok.mp h
  obtain ⟨since, hsince, h⟩ := bind_eq_ok.mp h
  obtain ⟨scope, hscope, h⟩ := bind_eq_ok.mp h
  obtain ⟨query, hquery, h⟩ := bind_eq_ok.mp h
  obtain ⟨listing, hlisting, h⟩ := bind_eq_ok.mp h
  obtain ⟨history, hhistory, h⟩ := bind_eq_ok.mp h
  obtain ⟨keys, hkeys, hlisting⟩ := bind_eq_ok.mp hlisting
  obtain rfl := Except.ok.inj hlisting
  have hfacts := historyFacts hgit hhistory
  split at h
  next => nomatch h
  next hbase =>
    obtain ⟨items, hitems, h⟩ := bind_eq_ok.mp h
    obtain rfl := Except.ok.inj h
    refine ⟨⟨history.tipCommit, history.baseCommit, since, query, keys⟩, history, items,
      ⟨hfacts.target, ⟨_, hfacts.base⟩, hsince, hquery, mapErr_eq_ok hkeys⟩, hfacts,
      ⟨rfl, rfl, rfl⟩, fun htip => ?_, ⟨scope, hscope, hitems⟩, rfl⟩
    rw [htip, Bool.true_and, Bool.not_eq_true', Bool.not_eq_false] at hbase
    exact hbase

theorem PruneRequest.Resolves.unique {request other : PruneRequest}
    (h : request.Resolves ctx options) (hother : other.Resolves ctx options) : request = other := by
  obtain ⟨target, base, since, query, keys⟩ := request
  obtain ⟨_, _, _, _, _⟩ := other
  obtain ⟨name, hbase⟩ := h.base
  obtain ⟨name', hbase'⟩ := hother.base
  obtain ⟨rfl, rfl⟩ := ResolvedBase.mk.inj (Option.some.inj (Except.ok.inj
    (hbase.symm.trans hbase')))
  obtain rfl := Option.some.inj (Except.ok.inj (h.target.symm.trans hother.target))
  obtain rfl := Except.ok.inj (h.since.symm.trans hother.since)
  obtain rfl := Except.ok.inj (h.query.symm.trans hother.query)
  obtain rfl := Except.ok.inj (h.keys.symm.trans hother.keys)
  rfl

theorem mem_of_deleteKeys {keys : List Key} {key : Key} (h : key ∈ (ctx.deleteKeys keys).1) :
    key ∈ keys := by
  induction keys with
  | nil => nomatch h
  | cons first keys ih =>
    unfold PruneContext.deleteKeys at h
    split at h
    next =>
      rw [List.mem_singleton.mp h]
      exact List.mem_cons_self ..
    next =>
      rcases List.mem_cons.mp h with rfl | hin
      · exact List.mem_cons_self ..
      · exact List.mem_cons_of_mem _ (ih hin)

/-- A key that was deleted is of a plan. -/
theorem exists_plan_of_deleted {key : Key} (h : key ∈ (ctx.pruneWith options).1) :
    ∃ plan, ctx.planRemovals options = .ok plan ∧ key ∈ plan.keys := by
  unfold PruneContext.pruneWith at h
  split at h
  next => nomatch h
  next plan hplan =>
    split at h
    next => nomatch h
    next => exact ⟨plan, hplan, mem_of_deleteKeys h⟩

variable {request : PruneRequest} {history : ResolvedHistory} {items : List RemovalItem}
  {plan : Plan}

theorem PlanFacts.itemSource (h : PlanFacts ctx options repo time request history items plan)
    {key : Key} (hkey : key ∈ plan.keys) :
    ItemSource ctx options history request.query request.since
      (filterCandidates ctx.dates.fromNanosecond request.keys request.query false) key := by
  obtain ⟨scope, hscope, hitems⟩ := h.removals
  rw [h.plan] at hkey
  obtain ⟨item, hmem, rfl⟩ := exists_item_of_mem_keys hkey
  exact itemSource_of_removalItems hscope hitems item hmem

theorem PlanFacts.inRange (h : PlanFacts ctx options repo time request history items plan)
    {commit : Text} (hpass : Passes history options request.since commit) :
    request.InRange repo time options commit :=
  inRange_of_passes h.facts h.prune h.ofHistory hpass

/-- A key of a plan is a listed one that may be removed. -/
theorem PlanFacts.removable (h : PlanFacts ctx options repo time request history items plan)
    {key : Key} (hkey : key ∈ plan.keys) :
    key ∈ request.keys ∧ ∃ commit, request.InRange repo time options commit ∧
      request.Removable ctx options key commit := by
  have hlisting := listingFacts ctx.dates.fromNanosecond request.keys request.query false
  cases h.itemSource hkey with
  | run parsed hlisted hrun hpass hkind =>
    obtain ⟨hin, hparsed, hset⟩ := hlisting.selected key parsed hlisted
    exact ⟨hin, parsed.commit, h.inRange hpass, .run parsed hparsed rfl hset hrun hkind⟩
  | sidecar parsed hlisted hbless hpass hkind =>
    obtain ⟨hin, hparsed, hset⟩ := hlisting.selected key parsed hlisted
    exact ⟨hin, parsed.commit, h.inRange hpass, .sidecar parsed hparsed rfl hset hbless hkind⟩
  | scopedBlessing candidate hlisted hpass stored hstored hset hkind =>
    obtain ⟨hin, hlegacy, hparsed⟩ := (hlisting.scopedIff key candidate).mp hlisted
    obtain ⟨commit, legacy⟩ := candidate
    obtain rfl : legacy = none := hlegacy
    refine ⟨hin, commit, h.inRange hpass, .scopedBlessing stored hparsed hstored ?_ hkind⟩
    intro set haccepts
    rw [← accepts_blessingScope]
    exact BlessingScope.accepts_of_contains hset haccepts

/-- A plan with keys has no selected blessing that is only partly selected. -/
theorem PlanFacts.contained (h : PlanFacts ctx options repo time request history items plan)
    {other : Key} (hother : other ∈ plan.keys) {key : Key} {commit : Text}
    (hkey : key ∈ request.keys)
    (hscoped : parseScopedBlessingKey ctx.dates.fromNanosecond key = some commit)
    (hkind : options.includeBlessings = true) (hrange : request.InRange repo time options commit)
    {stored : StoredBlessing}
    (hstored : fetchBlessing ctx.storage ctx.codec (key, { commit, legacySet := none }) =
      .ok stored)
    (hinter : (blessingScope request.query).intersects stored.scope = true) :
    (blessingScope request.query).contains stored.scope = true := by
  obtain ⟨scope, -, hitems⟩ := h.removals
  unfold PruneContext.removalItems at hitems
  rw [if_pos hkind] at hitems
  obtain ⟨scopedItems, hremovals, -⟩ := bind_eq_ok.mp hitems
  obtain ⟨passing, hpass⟩ := (h.itemSource hother).passes
  have hlisted := ((listingFacts ctx.dates.fromNanosecond request.keys request.query
    false).scopedIff key { commit, legacySet := none }).mpr ⟨hkey, rfl, hscoped⟩
  exact (scopedFacts hremovals).contained _ hlisted
    (passes_of_inRange h.facts h.ofHistory hpass hrange) stored hstored hinter

end Plans

/-- Pruning removes only what the options select, beyond the base's history
except in the base branch's own view, and removes nothing where it would have to
narrow a blessing. -/
theorem prune_preserves_history (ctx : PruneContext ε Span) (options : PruneOptions)
    (hgit : ctx.git.Answers repo time) :
    (∀ key ∈ (ctx.pruneWith options).1, ∃ request : PruneRequest,
      request.Resolves ctx options ∧ key ∈ request.keys ∧ ∃ commit,
        request.InRange repo time options commit ∧ request.Removable ctx options key commit) ∧
    ∀ request : PruneRequest, request.Resolves ctx options → ∀ key ∈ request.keys, ∀ commit,
      parseScopedBlessingKey ctx.dates.fromNanosecond key = some commit →
        options.includeBlessings = true → request.InRange repo time options commit → ∀ stored,
          fetchBlessing ctx.storage ctx.codec (key, { commit, legacySet := none }) = .ok stored →
            (blessingScope request.query).intersects stored.scope = true →
              (blessingScope request.query).contains stored.scope = false →
                (ctx.pruneWith options).1 = [] := by
  constructor
  · intro key hkey
    obtain ⟨plan, hplan, hin⟩ := exists_plan_of_deleted hkey
    obtain ⟨request, history, items, hfacts⟩ := planFacts hgit hplan
    exact ⟨request, hfacts.resolves, hfacts.removable hin⟩
  · intro request hresolves key hkey commit hscoped hkind hrange stored hstored hinter hcontains
    by_contra hdeleted
    obtain ⟨other, hother⟩ := List.exists_mem_of_ne_nil _ hdeleted
    obtain ⟨plan, hplan, hin⟩ := exists_plan_of_deleted hother
    obtain ⟨resolved, history, items, hfacts⟩ := planFacts hgit hplan
    obtain rfl := hresolves.unique hfacts.resolves
    rw [hfacts.contained hin hkey hscoped hkind hrange hstored hinter] at hcontains
    nomatch hcontains

/-! A topic commit `t` on top of a base commit `b`, both with a clean run. -/

def topicRepo : CommitGraph Text where
  parents commit := if commit = "t".toList then ["b".toList] else []
  acyclic c h := by
    obtain ⟨y, hfirst, -⟩ := Relation.TransGen.head'_iff.mp h
    obtain ⟨z, -, hlast⟩ := Relation.TransGen.tail'_iff.mp h
    split at hlast
    next heq =>
      split at hfirst
      next =>
        rw [heq, List.mem_singleton] at hfirst
        exact absurd hfirst (by decide)
      next => nomatch hfirst
    next => nomatch hlast

def topicGit : GitHistory Unit where
  resolve reference := .ok (some (if reference = "HEAD".toList then "t".toList else "b".toList))
  defaultBranch := .ok (some "main".toList)
  mergeBase a b :=
    if a = "t".toList ∧ b = "b".toList then .ok (some "b".toList) else .error ()
  firstParent tip :=
    if tip = "t".toList then
      .ok [{ commitId := "b".toList, committerTime := some 10, subject := [] },
        { commitId := "t".toList, committerTime := some 20, subject := [] }]
    else .error ()
  isDirty := .ok false

def topicTime (commit : Text) : Option Int := if commit = "t".toList then some 20 else some 10

theorem topicRepo_step : topicRepo.FirstParent "b".toList "t".toList := rfl

theorem topicRepo_onLine {c : Text} (h : topicRepo.OnLine c "t".toList) :
    c ∈ ["b".toList, "t".toList] := by
  rcases Relation.ReflTransGen.cases_tail h with heq | ⟨d, hd, hstep⟩
  · rw [← heq]
    decide
  · obtain rfl : d = "b".toList := (Option.some.inj hstep).symm
    rcases Relation.ReflTransGen.cases_tail hd with heq | ⟨e, -, hstep⟩
    · rw [← heq]
      decide
    · nomatch hstep

theorem topicGit_answers : topicGit.Answers topicRepo topicTime where
  mergeBase a b m h := by
    unfold topicGit at h
    dsimp only at h
    split at h
    next hpair =>
      obtain rfl := Option.some.inj (Except.ok.inj h)
      rw [hpair.1, hpair.2]
      have hstep : topicRepo.Ancestor "b".toList "t".toList := .single topicRepo_step.mem
      exact ⟨hstep, .refl _, fun c _ hcb hbc => hcb.antisymm hbc⟩
    next => nomatch h
  noMergeBase a b h := by
    unfold topicGit at h
    dsimp only at h
    split at h
    next => nomatch h
    next => nomatch h
  firstParent tip commits h := by
    unfold topicGit at h
    dsimp only at h
    split at h
    next htip =>
      obtain rfl := Except.ok.inj h
      obtain rfl := htip
      refine ⟨.cons_cons topicRepo_step (.singleton _), ?_, fun c hc => topicRepo_onLine hc⟩
      exact fun c hc => (Option.some.inj hc).symm
    next => nomatch h
  committerTime tip commits h := by
    unfold topicGit at h
    dsimp only at h
    split at h
    next =>
      obtain rfl := Except.ok.inj h
      decide
    next => nomatch h

def topicPrune : PruneContext Unit Unit where
  git := topicGit
  storage :=
    { list := fun _ => .ok ["v1/p/objects/callgrind/x/m/b/clean.json".toList,
        "v1/p/objects/callgrind/x/m/t/clean.json".toList]
      get := fun _ => .error ()
      delete := fun _ => .ok () }
  projectId := "p".toList
  config := { defaultBranch := none }
  auto := { triple := "x".toList, machineKey := "m".toList }
  now := 30
  dates :=
    { timestamp := fun _ => none
      date := fun _ => none
      span := fun _ => none
      instantBefore := fun _ _ => none
      fromNanosecond := some }
  codec :=
    { utf8 := fun _ => none, recordFromJson := fun _ => none, scopedFromJson := fun _ => none }
  fetches := { completed := id, perm := fun _ => .refl _ }

/-- Prune the clean runs of the topic. -/
def cleanOptions : PruneOptions where
  context := none
  base := none
  commit := []
  since := none
  engine := []
  targetTriple := []
  machineKey := []
  clean := true
  dirty := false
  includeBlessings := false
  pruneBase := false
  dryRun := false
  noText := false
  markdown := none
  json := none

theorem prune_preserves_history_topic :
    (topicPrune.pruneWith cleanOptions).1 =
        ["v1/p/objects/callgrind/x/m/t/clean.json".toList] ∧
      ∀ key ∈ (topicPrune.pruneWith cleanOptions).1, ∃ request : PruneRequest,
        request.Resolves topicPrune cleanOptions ∧ key ∈ request.keys ∧ ∃ commit,
          request.InRange topicRepo topicTime cleanOptions commit ∧
            request.Removable topicPrune cleanOptions key commit :=
  ⟨by decide, (prune_preserves_history topicPrune cleanOptions topicGit_answers).1⟩

end Folo.BenchHistory
