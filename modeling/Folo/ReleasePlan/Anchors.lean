import Folo.Lib.Outcomes
import Folo.ReleasePlan.Versions

/-!
# Anchors

`resolve_anchor` of `crp_versioning/anchor.rs` and the `build_timeline_with` of
`classify.rs` that feeds it: from the newest commit on, the first one before
which the package had another version. A commit that did not publish the
package is passed over. What is found is not changed by older commits
(`resolveAnchor_append_of_found`), so that neither stopping at the first change
nor a clone that ends early can give another anchor.
-/

namespace Folo.ReleasePlan

open Folo.Lib

structure Anchor where
  commit : Text
  version : Version
  deriving DecidableEq

/-- What one commit's workspace says about the package. -/
inductive Presence
  | absent
  | unpublished
  | published (version : Version)
  deriving DecidableEq

def Presence.releasedVersion : Presence → Option Version
  | .published version => some version
  | .absent | .unpublished => none

def Presence.isUnpublished : Presence → Bool
  | .unpublished => true
  | .absent | .published _ => false

/-- A commit of the first-parent line. One whose parent is not fetched has a
parent. -/
structure TimelineEntry where
  commit : Text
  presence : Presence
  hasParent : Bool

inductive AnchorError (ε : Type)
  | shallowHistory (package : Text)
  | port (cause : ε)

/-- The loop of `resolve_anchor`: whether it returned, and with what, or else
what it ended with. -/
def walkAnchor (prev : Anchor) : List TimelineEntry → Bool × Anchor
  | [] => (false, prev)
  | entry :: rest =>
    if entry.presence.releasedVersion ≠ some prev.version then (true, prev)
    else walkAnchor
      { commit := entry.commit, version := entry.presence.releasedVersion.getD prev.version } rest

/-- The entries that the walk sees. -/
def observable (timeline : List TimelineEntry) : List TimelineEntry :=
  timeline.filter fun entry => !entry.presence.isUnpublished

/-- `resolve_anchor`; the newest commit comes first. -/
def resolveAnchor {ε : Type} (package : Text) (timeline : List TimelineEntry) :
    Except (AnchorError ε) Anchor :=
  match observable timeline with
  | [] => .error (.shallowHistory package)
  | first :: rest =>
    match first.presence.releasedVersion with
    | none => .error (.shallowHistory package)
    | some version =>
      match walkAnchor { commit := first.commit, version } rest with
      | (true, anchor) => .ok anchor
      | (false, anchor) =>
        if ((timeline.getLast?).getD first).hasParent then .error (.shallowHistory package)
        else .ok anchor

/-- The last entry is seen and does not have the version of the walk. -/
def canStopTimeline (timeline : List TimelineEntry) : Bool :=
  match timeline.getLast? with
  | none => false
  | some last =>
    match timeline.findSome? fun entry => entry.presence.releasedVersion with
    | none => false
    | some reference =>
      !last.presence.isUnpublished && decide (last.presence.releasedVersion ≠ some reference)

section Building

variable {ε : Type} (observe : Text → Except ε Presence) (parentBoundary : Text → Except ε Bool)

/-- Every commit but the last has a parent. -/
def hasParentOf (commit : Text) (isLast : Bool) : Except ε Bool :=
  if isLast then parentBoundary commit else .ok true

def observeEntry (commit : Text) (isLast : Bool) : Except ε TimelineEntry := do
  let presence ← observe commit
  let hasParent ← hasParentOf parentBoundary commit isLast
  pure { commit, presence, hasParent }

/-- The loop of `build_timeline_with`. -/
def buildFrom (timeline : List TimelineEntry) : List Text → Except ε (List TimelineEntry)
  | [] => pure timeline
  | commit :: rest => do
    let entry ← observeEntry observe parentBoundary commit rest.isEmpty
    if canStopTimeline (timeline ++ [entry]) then pure (timeline ++ [entry])
    else buildFrom (timeline ++ [entry]) rest

def buildTimelineWith (commits : List Text) : Except ε (List TimelineEntry) :=
  buildFrom observe parentBoundary [] commits

/-- The timeline of all the commits. -/
def wholeTimeline : List Text → Except ε (List TimelineEntry)
  | [] => pure []
  | commit :: rest => do
    let entry ← observeEntry observe parentBoundary commit rest.isEmpty
    let older ← wholeTimeline rest
    pure (entry :: older)

end Building

/-! ## The walk -/

/-- What is found stays found. -/
theorem walkAnchor_append {prev : Anchor} {entries : List TimelineEntry}
    (h : (walkAnchor prev entries).1 = true) (older : List TimelineEntry) :
    walkAnchor prev (entries ++ older) = walkAnchor prev entries := by
  induction entries generalizing prev with
  | nil => nomatch h
  | cons entry rest ih =>
    rw [List.cons_append]
    unfold walkAnchor at h ⊢
    split at h
    next hne => rw [if_pos hne, if_pos hne]
    next hsame =>
      rw [if_neg hsame, if_neg hsame]
      exact ih h

/-- Any other version is found. -/
theorem walkAnchor_found {prev : Anchor} {entries : List TimelineEntry} {entry : TimelineEntry}
    (hmem : entry ∈ entries) (hne : entry.presence.releasedVersion ≠ some prev.version) :
    (walkAnchor prev entries).1 = true := by
  induction entries generalizing prev with
  | nil => nomatch hmem
  | cons head rest ih =>
    unfold walkAnchor
    split
    next => rfl
    next hsame =>
      have hsame := Decidable.not_not.mp hsame
      rcases List.mem_cons.mp hmem with rfl | hmem
      · exact absurd hsame hne
      · refine ih hmem ?_
        rw [hsame]
        exact hne

/-- The anchor is found before the end of the timeline. -/
structure Found (timeline : List TimelineEntry) (anchor : Anchor) : Prop where
  walk : ∃ first rest version, observable timeline = first :: rest ∧
    first.presence.releasedVersion = some version ∧
    walkAnchor { commit := first.commit, version } rest = (true, anchor)

variable {ε : Type} {package : Text} {timeline : List TimelineEntry} {anchor : Anchor}

theorem Found.resolve (h : Found timeline anchor) :
    resolveAnchor (ε := ε) package timeline = .ok anchor := by
  obtain ⟨first, rest, version, hobservable, hversion, hwalk⟩ := h.walk
  unfold resolveAnchor
  rw [hobservable]
  dsimp only
  rw [hversion]
  dsimp only
  rw [hwalk]

theorem Found.append (h : Found timeline anchor) (older : List TimelineEntry) :
    Found (timeline ++ older) anchor := by
  obtain ⟨first, rest, version, hobservable, hversion, hwalk⟩ := h.walk
  refine ⟨first, rest ++ observable older, version, ?_, hversion, ?_⟩
  · unfold observable at hobservable ⊢
    rw [List.filter_append, hobservable, List.cons_append]
  · rw [walkAnchor_append (by rw [hwalk]), hwalk]

/-- Where the last commit has a parent, what is resolved was found. -/
theorem found_of_resolveAnchor (h : resolveAnchor (ε := ε) package timeline = .ok anchor)
    {last : TimelineEntry} (hlast : timeline.getLast? = some last)
    (hparent : last.hasParent = true) : Found timeline anchor := by
  unfold resolveAnchor at h
  split at h
  next => nomatch h
  next first rest hobservable =>
    split at h
    next => nomatch h
    next version hversion =>
      split at h
      next found hwalk =>
        obtain rfl := Except.ok.inj h
        exact ⟨first, rest, version, hobservable, hversion, hwalk⟩
      next found hwalk =>
        rw [hlast, Option.getD_some, if_pos hparent] at h
        nomatch h

theorem releasedVersion_of_isUnpublished {presence : Presence}
    (h : presence.isUnpublished = true) : presence.releasedVersion = none := by
  cases presence with
  | unpublished => rfl
  | absent => nomatch h
  | published version => nomatch h

/-- What the walk passes over has no released version. -/
theorem findSome?_observable (timeline : List TimelineEntry) :
    (timeline.findSome? fun entry => entry.presence.releasedVersion) =
      (observable timeline).findSome? fun entry => entry.presence.releasedVersion := by
  induction timeline with
  | nil => rfl
  | cons entry rest ih =>
    unfold observable at ih ⊢
    rw [List.findSome?_cons, List.filter_cons, ih]
    cases hunpublished : entry.presence.isUnpublished with
    | true =>
      rw [releasedVersion_of_isUnpublished hunpublished]
      rfl
    | false =>
      rw [Bool.not_false, if_pos rfl, List.findSome?_cons]

/-- **Stopping is right**: where the loop may stop, older commits change nothing. -/
theorem resolveAnchor_append_of_canStop (h : canStopTimeline timeline = true)
    (older : List TimelineEntry) :
    resolveAnchor (ε := ε) package (timeline ++ older) = resolveAnchor package timeline := by
  unfold canStopTimeline at h
  split at h
  next => nomatch h
  next last hlast =>
    split at h
    next => nomatch h
    next reference hreference =>
      obtain ⟨hseen, hne⟩ := Bool.and_eq_true_iff.mp h
      have hmem : last ∈ observable timeline :=
        List.mem_filter.mpr ⟨List.mem_of_getLast? hlast, hseen⟩
      replace hne := of_decide_eq_true hne
      rw [findSome?_observable] at hreference
      cases hobservable : observable timeline with
      | nil =>
        rw [hobservable] at hmem
        nomatch hmem
      | cons first rest =>
        have happend : observable (timeline ++ older) = first :: (rest ++ observable older) := by
          unfold observable at hobservable ⊢
          rw [List.filter_append, hobservable, List.cons_append]
        rw [hobservable] at hmem hreference
        cases hversion : first.presence.releasedVersion with
        | none =>
          -- the newest commit does not have the package
          unfold resolveAnchor
          rw [happend, hobservable]
          dsimp only
          rw [hversion]
        | some version =>
          rw [List.findSome?_cons, hversion] at hreference
          obtain rfl := Option.some.inj hreference
          have hrest : last ∈ rest := by
            rcases List.mem_cons.mp hmem with rfl | hrest
            · exact absurd hversion hne
            · exact hrest
          have hfound : Found timeline (walkAnchor { commit := first.commit, version } rest).2 :=
            ⟨first, rest, version, hobservable, hversion,
              Prod.ext (walkAnchor_found hrest hne) rfl⟩
          rw [(hfound.append older).resolve, hfound.resolve]

/-! ## Building -/

variable {observe : Text → Except ε Presence}
  {parentBoundary parentBoundary' : Text → Except ε Bool}

theorem buildFrom_cons (timeline : List TimelineEntry) (commit : Text) (rest : List Text) :
    buildFrom observe parentBoundary timeline (commit :: rest) =
      observeEntry observe parentBoundary commit rest.isEmpty >>= fun entry =>
        if canStopTimeline (timeline ++ [entry]) then pure (timeline ++ [entry])
        else buildFrom observe parentBoundary (timeline ++ [entry]) rest := rfl

/-- The loop stops with the whole timeline, or where it may stop. -/
theorem exists_buildFrom {commits : List Text} {more : List TimelineEntry}
    (h : wholeTimeline observe parentBoundary commits = .ok more)
    (timeline : List TimelineEntry) :
    ∃ early older, buildFrom observe parentBoundary timeline commits = .ok early ∧
      timeline ++ more = early ++ older ∧ (older = [] ∨ canStopTimeline early = true) := by
  induction commits generalizing timeline more with
  | nil =>
    obtain rfl := Except.ok.inj h
    exact ⟨timeline, [], rfl, rfl, .inl rfl⟩
  | cons commit rest ih =>
    obtain ⟨entry, hentry, h⟩ := bind_eq_ok.mp h
    obtain ⟨older, holder, h⟩ := bind_eq_ok.mp h
    obtain rfl := Except.ok.inj h
    unfold buildFrom
    rw [hentry]
    by_cases hstop : canStopTimeline (timeline ++ [entry]) = true
    · refine ⟨timeline ++ [entry], older, if_pos hstop, ?_, .inr hstop⟩
      rw [List.append_assoc, List.singleton_append]
    · obtain ⟨early, rest', hbuild, happend, hend⟩ := ih holder (timeline ++ [entry])
      refine ⟨early, rest', (if_neg hstop).trans hbuild, ?_, hend⟩
      rw [← happend, List.append_assoc, List.singleton_append]

/-- A timeline that is built further: up to the last of the commits, which has
a parent, the loop goes the same way. -/
theorem buildFrom_append {commits older : List Text} {last : Text}
    (hlast : commits.getLast? = some last) (hparent : parentBoundary last = .ok true)
    (holder : older ≠ []) (timeline : List TimelineEntry) :
    buildFrom observe parentBoundary' timeline (commits ++ older) =
      buildFrom observe parentBoundary timeline commits >>= fun built =>
        if canStopTimeline built then pure built
        else buildFrom observe parentBoundary' built older := by
  induction commits generalizing timeline with
  | nil => nomatch hlast
  | cons commit rest ih =>
    have hboundary : hasParentOf parentBoundary' commit (rest ++ older).isEmpty =
        hasParentOf parentBoundary commit rest.isEmpty := by
      rw [List.isEmpty_eq_false_iff.mpr (List.append_ne_nil_of_right_ne_nil rest holder)]
      cases rest with
      | nil =>
        obtain rfl := Option.some.inj hlast
        exact hparent.symm
      | cons => rfl
    have hsame : observeEntry observe parentBoundary' commit (rest ++ older).isEmpty =
        observeEntry observe parentBoundary commit rest.isEmpty := by
      unfold observeEntry
      rw [hboundary]
    rw [List.cons_append, buildFrom_cons, buildFrom_cons, hsame]
    cases observeEntry observe parentBoundary commit rest.isEmpty with
    | error e => rfl
    | ok entry =>
      show (if canStopTimeline (timeline ++ [entry]) = true then _ else _) =
        (if canStopTimeline (timeline ++ [entry]) = true then _ else _) >>= _
      by_cases hstop : canStopTimeline (timeline ++ [entry]) = true
      · rw [if_pos hstop, if_pos hstop]
        exact (if_pos hstop).symm
      · rw [if_neg hstop, if_neg hstop]
        cases rest with
        | nil => exact (if_neg hstop).symm
        | cons next rest => exact ih hlast _

/-- What is built begins with what was there. -/
theorem prefix_of_buildFrom {commits : List Text} {timeline built : List TimelineEntry}
    (h : buildFrom observe parentBoundary timeline commits = .ok built) :
    ∃ more, built = timeline ++ more := by
  induction commits generalizing timeline with
  | nil => exact ⟨[], (Except.ok.inj h).symm.trans (List.append_nil _).symm⟩
  | cons commit rest ih =>
    rw [buildFrom_cons] at h
    obtain ⟨entry, -, h⟩ := bind_eq_ok.mp h
    split at h
    next => exact ⟨[entry], (Except.ok.inj h).symm⟩
    next =>
      obtain ⟨more, rfl⟩ := ih h
      exact ⟨entry :: more, List.append_assoc ..⟩

/-- Where the last of the commits has a parent, so has the last entry built. -/
theorem hasParent_of_buildFrom {commits : List Text} {last : Text}
    (hlast : commits.getLast? = some last) (hparent : parentBoundary last = .ok true)
    {timeline built : List TimelineEntry}
    (h : buildFrom observe parentBoundary timeline commits = .ok built) :
    ∃ entry, built.getLast? = some entry ∧ entry.hasParent = true := by
  induction commits generalizing timeline with
  | nil => nomatch hlast
  | cons commit rest ih =>
    rw [buildFrom_cons] at h
    obtain ⟨entry, hentry, h⟩ := bind_eq_ok.mp h
    have hentryParent : entry.hasParent = true := by
      obtain ⟨presence, -, hentry⟩ := bind_eq_ok.mp hentry
      obtain ⟨hasParent, hboundary, hentry⟩ := bind_eq_ok.mp hentry
      obtain rfl := Except.ok.inj hentry
      cases rest with
      | nil =>
        obtain rfl := Option.some.inj hlast
        exact (Except.ok.inj (hparent.symm.trans hboundary)).symm
      | cons => exact (Except.ok.inj hboundary).symm
    split at h
    next =>
      obtain rfl := Except.ok.inj h
      exact ⟨entry, List.getLast?_concat .., hentryParent⟩
    next =>
      cases rest with
      | nil =>
        obtain rfl := Except.ok.inj h
        exact ⟨entry, List.getLast?_concat .., hentryParent⟩
      | cons next rest => exact ih hlast h

/-- The further timeline of a deeper clone has the anchor that was found. -/
theorem resolveAnchor_deeper {commits older : List Text} {last : Text}
    (hlast : commits.getLast? = some last) (hparent : parentBoundary last = .ok true)
    {deeper : List TimelineEntry}
    (hbuild : buildTimelineWith observe parentBoundary commits = .ok timeline)
    (hanchor : resolveAnchor (ε := ε) package timeline = .ok anchor) (holder : older ≠ [])
    (hdeeper : buildTimelineWith observe parentBoundary' (commits ++ older) = .ok deeper) :
    resolveAnchor (ε := ε) package deeper = .ok anchor := by
  unfold buildTimelineWith at hbuild hdeeper
  obtain ⟨entry, hentry, hentryParent⟩ := hasParent_of_buildFrom hlast hparent hbuild
  have hfound := found_of_resolveAnchor hanchor hentry hentryParent
  rw [buildFrom_append hlast hparent holder, hbuild] at hdeeper
  change (if canStopTimeline timeline = true then _ else _) = _ at hdeeper
  split at hdeeper
  next =>
    obtain rfl := Except.ok.inj hdeeper
    exact hanchor
  next =>
    obtain ⟨more, rfl⟩ := prefix_of_buildFrom hdeeper
    exact (hfound.append more).resolve

/-- **Early-stopped and truncated history give the anchor of the whole one.** -/
theorem resolveAnchor_stable (package : Text) (observe : Text → Except ε Presence)
    (parentBoundary : Text → Except ε Bool) (commits : List Text) :
    (∀ whole, wholeTimeline observe parentBoundary commits = .ok whole →
      ∃ early, buildTimelineWith observe parentBoundary commits = .ok early ∧
        resolveAnchor (ε := ε) package early = resolveAnchor package whole) ∧
    (∀ timeline last anchor, timeline.getLast? = some last → last.hasParent = true →
      resolveAnchor (ε := ε) package timeline = .ok anchor →
      ∀ older, resolveAnchor (ε := ε) package (timeline ++ older) = .ok anchor) ∧
    ∀ last, commits.getLast? = some last → parentBoundary last = .ok true →
      ∀ timeline anchor, buildTimelineWith observe parentBoundary commits = .ok timeline →
        resolveAnchor (ε := ε) package timeline = .ok anchor →
        ∀ (parentBoundary' : Text → Except ε Bool) older deeper, older ≠ [] →
          buildTimelineWith observe parentBoundary' (commits ++ older) = .ok deeper →
          resolveAnchor (ε := ε) package deeper = .ok anchor := by
  refine ⟨fun whole hwhole => ?_, ?_, ?_⟩
  · obtain ⟨early, older, hbuild, happend, hend⟩ := exists_buildFrom hwhole []
    refine ⟨early, hbuild, ?_⟩
    rw [List.nil_append] at happend
    rw [happend]
    rcases hend with rfl | hstop
    · rw [List.append_nil]
    · exact (resolveAnchor_append_of_canStop hstop older).symm
  · intro timeline last anchor hlast hparent hanchor older
    exact ((found_of_resolveAnchor hanchor hlast hparent).append older).resolve
  · intro last hlast hparent timeline anchor hbuild hanchor parentBoundary' older deeper holder
      hdeeper
    exact resolveAnchor_deeper hlast hparent hbuild hanchor holder hdeeper

end Folo.ReleasePlan
