import Folo.Lib.Descent
import Folo.Lib.Hops
import Folo.Lib.Texts
import Folo.ReleasePlan.LinkTargets
import Std.Data.ExtTreeMap

/-!
# Released paths behind links

`expand_historical_released_path` and `expand_work_released_path` of
`crp_versioning/classify.rs` with what they resolve nodes by. The packaging
rules and the observation of a work tree are parameters. A released path is
resolved through links (`Hop`), and a directory is walked down with the
directories above it kept (`descend`): the recorded paths have finitely many
fronts, and these are all that a link or a directory is marked by.
-/

namespace Folo.ReleasePlan

open Folo.Lib
open Std (ExtTreeMap)

variable {ε : Type}

structure TreeEntry where
  path : Text
  id : Text
  mode : Text

def symlinkTreeMode : Text := "120000".toList

def treeMode (executable : Bool) : Text :=
  if executable then "100755".toList else "100644".toList

def TreeEntry.isSymlink (entry : TreeEntry) : Bool := entry.mode = symlinkTreeMode

def TreeEntry.isExecutable (entry : TreeEntry) : Bool := entry.mode = treeMode true

def treeEntryIsRegular (entry : TreeEntry) : Bool :=
  entry.mode = treeMode false || entry.mode = treeMode true

structure HistoricalTree where
  entries : List TreeEntry

def HistoricalTree.paths (tree : HistoricalTree) : List Text := tree.entries.map TreeEntry.path

/-- The index by path holds the last entry of a path. -/
def HistoricalTree.entry (tree : HistoricalTree) (path : Text) : Option TreeEntry :=
  tree.entries.reverse.find? fun entry => entry.path = path

/-- What the packaging rules say of an archive path. -/
structure PackagingRules where
  isReleased : Text → Bool
  mayReleasePathOrDescendant : Text → Bool

def archiveSubtreeSelected (rules : PackagingRules) (ruleExceptions : List Text)
    (archivePath : Text) : Bool :=
  rules.mayReleasePathOrDescendant archivePath ||
    ruleExceptions.any fun ruleException =>
      ruleException = archivePath || (archivePath ++ ['/']).isPrefixOf ruleException

/-- `str::from_utf8`. -/
def fromUtf8 (bytes : List UInt8) : Option Text :=
  (String.fromUTF8? ⟨bytes.toArray⟩).map String.toList

/-! ## Historical trees -/

structure ReleasedFileIdentity where
  id : Text
  executable : Bool

inductive HistoricalResolvedNode
  | file (identity : ReleasedFileIdentity)
  | directory (path : Text)

/-- What the functions of one historical expansion share. -/
structure HistoricalContext (ε : Type) where
  readBlob : Text → Except ε (List UInt8)
  name : Text
  tree : HistoricalTree
  workspaceDir : Text
  rules : PackagingRules
  ruleExceptions : List Text
  case : PathCase
  mainSeparator : Char

namespace HistoricalContext

variable (cx : HistoricalContext ε)

/-- The spelling under which the tree has a path. -/
def recorded (current : Text) : Option Text :=
  match cx.tree.entry current with
  | some entry => some entry.path
  | none =>
    match cx.case with
    | .sensitive => none
    | .insensitive _ => cx.case.recordedPath cx.tree.paths current

/-- Where a link leads. -/
def linkTarget (releasedPath recorded : Text) (entry : TreeEntry) : Except (LinkError ε) Text := do
  let bytes ← (cx.readBlob entry.id).mapError .acquisition
  match fromUtf8 bytes with
  | none => .error (.encoding cx.name releasedPath)
  | some target =>
    resolveSymlinkTarget cx.name releasedPath recorded target cx.workspaceDir cx.case

/-- One round of `resolve_historical_node`, which marks a link by its path. -/
def hop (releasedPath current : Text) :
    Hop Text Text (Except (LinkError ε) HistoricalResolvedNode) :=
  match cx.recorded current with
  | none =>
    match recordedDirectory cx.tree.paths current cx.case with
    | some directory => .stop (.ok (.directory directory))
    | none => .stop (.error (.missing cx.name releasedPath current))
  | some recorded =>
    match cx.tree.entry recorded with
    | none => .stop (.error .panicked)
    | some entry =>
      if entry.isSymlink then
        .link recorded (match cx.linkTarget releasedPath recorded entry with
          | .error e => .inl (.error e)
          | .ok target => .inr target)
      else if !treeEntryIsRegular entry then
        .stop (.error (.nonRegular cx.name releasedPath recorded))
      else .stop (.ok (.file { id := entry.id, executable := entry.isExecutable }))

def resolveHistoricalNode (rounds : Nat) (releasedPath : Text) :
    Option (Except (LinkError ε) HistoricalResolvedNode) :=
  follow (cx.hop releasedPath) (fun _ recorded => .error (.cycle cx.name releasedPath recorded))
    rounds releasedPath

/-- An archive path with the path that it is released from. -/
structure Selected where
  archivePath : Text
  sourcePath : Text

abbrev Identities := ExtTreeMap Text ReleasedFileIdentity

def children (archivePath directory : Text) : List Selected :=
  (directTrackedChildren cx.tree.paths directory cx.tree.paths cx.case).filterMap fun child =>
    (archiveChild archivePath child directory cx.case).map fun archive => ⟨archive, child⟩

def visit (rounds : Nat) (node : Selected) :
    Except (Halt (LinkError ε)) (Visit Selected Text Identities) :=
  if !archiveSubtreeSelected cx.rules cx.ruleExceptions node.archivePath then .ok (.leaf id)
  else
    match cx.resolveHistoricalNode rounds node.sourcePath with
    | none => .error .exhausted
    | some (.error e) => .error (.failed e)
    | some (.ok (.file identity)) => .ok (.leaf fun identities =>
        if cx.rules.isReleased node.archivePath || node.archivePath ∈ cx.ruleExceptions then
          identities.insertIfNew node.archivePath identity
        else identities)
    | some (.ok (.directory directory)) =>
      if isPackageDirectory cx.mainSeparator cx.tree.paths directory cx.case then .ok (.leaf id)
      else .ok (.enter id directory (cx.children node.archivePath directory))

def expandHistoricalReleasedPath (fuel : Nat) (activeDirectories : List Text) (node : Selected)
    (identities : Identities) : Except (Halt (LinkError ε)) Identities :=
  descend (cx.visit fuel) (fun node directory => .cycle cx.name node.sourcePath directory) fuel
    activeDirectories node identities

end HistoricalContext

/-! ## Work trees -/

/-- A native target is a text if it is Unicode. -/
inductive WorkTreeSymlinkTarget
  | native (path : Option Text)
  | placeholder (bytes : List UInt8)

inductive WorkTreePath
  | missing
  | regular
  | directory
  | symlink (target : WorkTreeSymlinkTarget)
  | other

structure ResolvedWorkFile where
  path : Text
  executable : Bool

inductive ResolvedWorkNode
  | file (file : ResolvedWorkFile) (linkInputs : List Text)
  | directory (path : Text) (linkInputs : List Text)

/-- The variables of the loop of `resolve_work_node_with`. -/
structure WorkPlace where
  current : Text
  directoryRequired : Bool
  first : Bool
  followedLink : Bool
  linkInputs : List Text

/-- The place at which the resolution of a path starts. -/
def WorkPlace.start (sourcePath : Text) (directoryRequired : Bool) : WorkPlace :=
  { current := sourcePath, directoryRequired, first := true, followedLink := false
    linkInputs := [] }

/-- A target found only through what is below it must stay a directory. -/
structure RecordedWorkTarget where
  path : Text
  directoryOnly : Bool

/-- An archive path with the path that it is released from, and how this is
observed. -/
structure WorkSelected where
  archivePath : Text
  sourcePath : Text
  useInitialModes : Bool
  directoryRequired : Bool

structure WorkContent where
  files : ExtTreeMap Text ResolvedWorkFile
  linkInputs : List Text
  directoryInputs : List Text

/-- What the functions of one work-tree expansion share. A path is observed
with whether it is the first of its chain, and whether initial modes are used
for this. -/
structure WorkContext (ε : Type) where
  observe : Bool → Text → Bool → Except ε (WorkTreePath × Bool)
  name : Text
  tracked : List Text
  boundaryPaths : List Text
  workspaceDir : Text
  rules : PackagingRules
  ruleExceptions : List Text
  case : PathCase
  mainSeparator : Char

namespace WorkContext

variable (cx : WorkContext ε)

def workTreeLinkText (releasedPath : Text) (target : WorkTreeSymlinkTarget) :
    Except (LinkError ε) Text :=
  match target with
  | .native (some path) => .ok (toGitSeparators path cx.mainSeparator)
  | .native none => .error (.encoding cx.name releasedPath)
  | .placeholder bytes => (fromUtf8 bytes).elim (.error (.encoding cx.name releasedPath)) .ok

def recordedWorkTarget (releasedPath requested : Text) :
    Except (LinkError ε) RecordedWorkTarget :=
  match cx.case.recordedPath cx.tracked requested with
  | some path => .ok { path, directoryOnly := false }
  | none =>
    match recordedDirectory cx.tracked requested cx.case with
    | some path => .ok { path, directoryOnly := true }
    | none => .error (.missing cx.name releasedPath requested)

/-- Where a link leads. -/
def linkTarget (releasedPath current : Text) (target : WorkTreeSymlinkTarget) :
    Except (LinkError ε) RecordedWorkTarget := do
  let target ← cx.workTreeLinkText releasedPath target
  let requested ←
    resolveSymlinkTarget cx.name releasedPath current target cx.workspaceDir cx.case
  cx.recordedWorkTarget releasedPath requested

/-- One round of `resolve_work_node_with`, which marks a link by its path. -/
def hop (useInitialModes : Bool) (releasedPath : Text) (place : WorkPlace) :
    Hop Text WorkPlace (Except (LinkError ε) (Option ResolvedWorkNode)) :=
  let nonRegular := .stop (.error (.nonRegular cx.name releasedPath place.current))
  match cx.observe useInitialModes place.current place.first with
  | .error e => .stop (.error (.acquisition e))
  | .ok (path, executable) =>
    match path with
    | .missing =>
      if place.followedLink then
        .stop (.error (.missing cx.name releasedPath place.current))
      else .stop (.ok none)
    | .directory =>
      let directory := (recordedDirectory cx.tracked place.current cx.case).getD place.current
      .stop (.ok (some (.directory directory place.linkInputs)))
    | .other => nonRegular
    | .regular =>
      if place.directoryRequired then nonRegular
      else .stop (.ok (some (.file { path := place.current, executable } place.linkInputs)))
    | .symlink target =>
      if place.directoryRequired then nonRegular
      else
        .link place.current (match cx.linkTarget releasedPath place.current target with
          | .error e => .inl (.error e)
          | .ok target => .inr
            { current := target.path, directoryRequired := target.directoryOnly, first := false
              followedLink := true, linkInputs := place.linkInputs.insert place.current })

def resolveWorkNodeWith (useInitialModes : Bool) (rounds : Nat) (releasedPath : Text)
    (directoryRequired : Bool) : Option (Except (LinkError ε) (Option ResolvedWorkNode)) :=
  follow (cx.hop useInitialModes releasedPath)
    (fun _ current => .error (.cycle cx.name releasedPath current)) rounds
    (.start releasedPath directoryRequired)

def children (archivePath directory : Text) : List WorkSelected :=
  (directTrackedChildren cx.tracked directory cx.boundaryPaths cx.case).filterMap fun child =>
    (archiveChild archivePath child directory cx.case).map fun archive =>
      { archivePath := archive, sourcePath := child, useInitialModes := false
        directoryRequired := (cx.case.recordedPath cx.tracked child).isNone }

def visit (rounds : Nat) (node : WorkSelected) :
    Except (Halt (LinkError ε)) (Visit WorkSelected Text WorkContent) :=
  if !archiveSubtreeSelected cx.rules cx.ruleExceptions node.archivePath then .ok (.leaf id)
  else
    match cx.resolveWorkNodeWith node.useInitialModes rounds node.sourcePath
        node.directoryRequired with
    | none => .error .exhausted
    | some (.error e) => .error (.failed e)
    | some (.ok none) => .ok (.leaf id)
    | some (.ok (some (.file file linkInputs))) => .ok (.leaf fun content =>
        { content with
          linkInputs := linkInputs ∪ content.linkInputs
          files :=
            if cx.rules.isReleased node.archivePath || node.archivePath ∈ cx.ruleExceptions then
              content.files.insertIfNew node.archivePath file
            else content.files })
    | some (.ok (some (.directory path linkInputs))) =>
      let change := fun content : WorkContent =>
        { content with
          linkInputs := linkInputs ∪ content.linkInputs
          directoryInputs := content.directoryInputs.insert path }
      if isPackageDirectory cx.mainSeparator cx.boundaryPaths path cx.case then .ok (.leaf change)
      else .ok (.enter change path (cx.children node.archivePath path))

def expandWorkReleasedPath (fuel : Nat) (activeDirectories : List Text) (node : WorkSelected)
    (content : WorkContent) : Except (Halt (LinkError ε)) WorkContent :=
  descend (cx.visit fuel) (fun node directory => .cycle cx.name node.sourcePath directory) fuel
    activeDirectories node content

end WorkContext

/-! ## Expansions end -/

namespace HistoricalContext

variable {cx : HistoricalContext ε}

theorem recorded_mem {current recorded : Text} (h : cx.recorded current = some recorded) :
    recorded ∈ cx.tree.paths := by
  unfold HistoricalContext.recorded at h
  split at h
  next entry hentry =>
    obtain rfl := Option.some.inj h
    exact List.mem_map_of_mem (List.mem_reverse.mp (List.mem_of_find?_eq_some hentry))
  next =>
    split at h
    next => nomatch h
    next => exact recordedPath_mem h

/-- A link is marked by a recorded path, and a directory ends the way. -/
theorem hop_cases (cx : HistoricalContext ε) (releasedPath current : Text) :
    (∃ result, cx.hop releasedPath current = .stop result ∧
      ∀ directory, result = .ok (.directory directory) → directory ∈ fronts cx.tree.paths) ∨
    ∃ recorded target, cx.hop releasedPath current = .link recorded target ∧
      recorded ∈ cx.tree.paths ∧ ∀ directory, target ≠ .inl (.ok (.directory directory)) := by
  unfold hop
  cases hrecorded : cx.recorded current with
  | none =>
    cases hdirectory : recordedDirectory cx.tree.paths current cx.case with
    | none => exact .inl ⟨_, rfl, nofun⟩
    | some directory =>
      refine .inl ⟨_, rfl, fun directory' heq => ?_⟩
      obtain rfl := HistoricalResolvedNode.directory.inj (Except.ok.inj heq)
      exact recordedDirectory_mem hdirectory
  | some recorded =>
    dsimp only
    cases cx.tree.entry recorded with
    | none => exact .inl ⟨_, rfl, nofun⟩
    | some entry =>
      dsimp only
      split
      next =>
        refine .inr ⟨recorded, _, rfl, recorded_mem hrecorded, ?_⟩
        split
        · nofun
        · nofun
      next =>
        split
        · exact .inl ⟨_, rfl, nofun⟩
        · exact .inl ⟨_, rfl, nofun⟩

theorem exists_resolveHistoricalNode (cx : HistoricalContext ε) (releasedPath : Text) :
    ∃ result, cx.resolveHistoricalNode (cx.tree.paths.length + 1) releasedPath = some result := by
  refine exists_follow (P := fun _ => True) ?_ trivial
  intro current mark target _ hlink
  rcases hop_cases cx releasedPath current with
    ⟨result, hstop, -⟩ | ⟨recorded, target', hlink', hmem, -⟩
  · exact nomatch hstop.symm.trans hlink
  · obtain ⟨rfl, -⟩ := Hop.link.inj (hlink'.symm.trans hlink)
    exact ⟨hmem, fun _ _ => trivial⟩

theorem directory_mem {rounds : Nat} {releasedPath directory : Text}
    (h : cx.resolveHistoricalNode rounds releasedPath = some (.ok (.directory directory))) :
    directory ∈ fronts cx.tree.paths := by
  refine of_follow (P := fun _ => True)
    (Q := fun result => ∀ directory, result = .ok (.directory directory) →
      directory ∈ fronts cx.tree.paths) ?_ ?_ trivial h directory rfl
  · intro current result _ hstop
    rcases hop_cases cx releasedPath current with
      ⟨result', hstop', hmem⟩ | ⟨recorded, target, hlink, -, -⟩
    · exact Hop.stop.inj (hstop'.symm.trans hstop) ▸ hmem
    · exact nomatch hlink.symm.trans hstop
  · intro current mark target _ hlink
    rcases hop_cases cx releasedPath current with
      ⟨result, hstop, -⟩ | ⟨recorded, target', hlink', -, hne⟩
    · exact nomatch hstop.symm.trans hlink
    · obtain ⟨-, rfl⟩ := Hop.link.inj (hlink'.symm.trans hlink)
      exact ⟨nofun, fun result heq directory hok => (hne directory (hok ▸ heq)).elim,
        fun _ _ => trivial⟩

theorem visit_settles : Settles cx.visit := by
  intro n m node hle hne
  unfold visit at hne ⊢
  split
  next => rfl
  next hselected =>
    rw [if_neg hselected] at hne
    cases hresolve : cx.resolveHistoricalNode n node.sourcePath with
    | none =>
      rw [hresolve] at hne
      exact absurd rfl hne
    | some result =>
      have hmore : cx.resolveHistoricalNode m node.sourcePath = some result :=
        follow_mono hle hresolve
      rw [hmore]

theorem visit_ne_exhausted (node : Selected) :
    cx.visit (cx.tree.paths.length + 1) node ≠ .error .exhausted := by
  obtain ⟨result, hresult⟩ := exists_resolveHistoricalNode cx node.sourcePath
  unfold visit
  split
  next => nofun
  next =>
    rw [hresult]
    rcases result with e | identity | directory
    · nofun
    · nofun
    · dsimp only
      split
      · nofun
      · nofun

theorem visit_enter {n : Nat} {node : Selected} {change : Identities → Identities} {key : Text}
    {children : List Selected} (h : cx.visit n node = .ok (.enter change key children)) :
    key ∈ fronts cx.tree.paths := by
  unfold visit at h
  split at h
  next => nomatch h
  next =>
    split at h
    next => nomatch h
    next => nomatch h
    next => nomatch h
    next directory hresolve =>
      split at h
      next => nomatch h
      next =>
        obtain ⟨-, rfl, -⟩ := Visit.enter.inj (Except.ok.inj h)
        exact directory_mem hresolve

/-- Links that go on for ever cannot be visited. -/
theorem visit_endless {node : Selected}
    (hselected : archiveSubtreeSelected cx.rules cx.ruleExceptions node.archivePath = true)
    (h : Endless (cx.hop node.sourcePath) node.sourcePath) (n : Nat)
    (v : Visit Selected Text Identities) : cx.visit n node ≠ .ok v := by
  unfold visit
  rw [hselected]
  cases hresolve : cx.resolveHistoricalNode n node.sourcePath with
  | none => nofun
  | some result =>
    obtain ⟨place, mark, rfl⟩ := follow_of_endless h hresolve
    nofun

/-- From a released path the links go on for ever, or a directory is come to
again below itself. -/
def Cyclic (cx : HistoricalContext ε) (root : Selected) : Prop :=
  ∃ above last, Walk (Enters cx.visit) root above last ∧
    (archiveSubtreeSelected cx.rules cx.ruleExceptions last.archivePath = true ∧
        Endless (cx.hop last.sourcePath) last.sourcePath ∨
      ∃ directory children, Enters cx.visit last directory children ∧ directory ∈ above)

theorem Cyclic.stuck {root : Selected} (h : cx.Cyclic root) : Stuck cx.visit root := by
  obtain ⟨above, last, hwalk, ⟨hselected, hendless⟩ | hagain⟩ := h
  · exact ⟨above, last, hwalk, .inl (visit_endless hselected hendless)⟩
  · exact ⟨above, last, hwalk, .inr hagain⟩

/-- **An expansion of a historical tree ends**, and a cycle ends it with an
error. -/
theorem expandHistoricalReleasedPath_ends (cx : HistoricalContext ε) (root : Selected)
    (identities : Identities) : ∃ fuel result, result ≠ .error .exhausted ∧
      (∀ n, fuel ≤ n → cx.expandHistoricalReleasedPath n [] root identities = result) ∧
      (cx.Cyclic root → ∃ e, result = .error (.failed e)) := by
  obtain ⟨fuel, result, hne, hresult, hstuck⟩ := visit_settles.ends (P := fun _ => True)
    (fun node directory => .cycle cx.name node.sourcePath directory)
    (fun node _ => visit_ne_exhausted node)
    (fun n node change key children _ h => ⟨visit_enter h, fun _ _ => trivial⟩)
    root trivial identities
  exact ⟨fuel, result, hne, hresult, fun hcyclic => hstuck hcyclic.stuck⟩

end HistoricalContext

namespace WorkContext

variable {cx : WorkContext ε}

/-- The paths that can be come to: the first one, and recorded ones with the
directories above them. -/
def places (cx : WorkContext ε) (root : Text) : List Text := root :: fronts cx.tracked

theorem recordedWorkTarget_mem {releasedPath requested : Text} {target : RecordedWorkTarget}
    (h : cx.recordedWorkTarget releasedPath requested = .ok target) :
    target.path ∈ fronts cx.tracked := by
  unfold recordedWorkTarget at h
  split at h
  next path hpath =>
    obtain rfl := Except.ok.inj h
    exact mem_fronts.mpr ⟨path, recordedPath_mem hpath, List.prefix_refl _⟩
  next =>
    split at h
    next directory hdirectory =>
      obtain rfl := Except.ok.inj h
      exact recordedDirectory_mem hdirectory
    next => nomatch h

theorem linkTarget_mem {releasedPath current : Text} {link : WorkTreeSymlinkTarget}
    {target : RecordedWorkTarget} (h : cx.linkTarget releasedPath current link = .ok target) :
    target.path ∈ fronts cx.tracked := by
  obtain ⟨text, -, h⟩ := bind_eq_ok.mp h
  obtain ⟨requested, -, h⟩ := bind_eq_ok.mp h
  exact recordedWorkTarget_mem h

/-- A link is marked by the path it is at, and a directory ends the way. -/
theorem hop_cases (cx : WorkContext ε) (useInitialModes : Bool) (releasedPath root : Text)
    (place : WorkPlace) (hplace : place.current ∈ cx.places root) :
    (∃ result, cx.hop useInitialModes releasedPath place = .stop result ∧
      ∀ path links, result = .ok (some (.directory path links)) → path ∈ cx.places root) ∨
    ∃ target, cx.hop useInitialModes releasedPath place = .link place.current target ∧
      (∀ next, target = .inr next → next.current ∈ cx.places root) ∧
      ∀ path links, target ≠ .inl (.ok (some (.directory path links))) := by
  have hdirectory : (recordedDirectory cx.tracked place.current cx.case).getD place.current ∈
      cx.places root := by
    cases hrecorded : recordedDirectory cx.tracked place.current cx.case with
    | none => exact hplace
    | some directory => exact List.mem_cons_of_mem _ (recordedDirectory_mem hrecorded)
  unfold hop
  cases cx.observe useInitialModes place.current place.first with
  | error e => exact .inl ⟨_, rfl, nofun⟩
  | ok observed =>
    obtain ⟨path, executable⟩ := observed
    cases path with
    | missing =>
      dsimp only
      split
      · exact .inl ⟨_, rfl, nofun⟩
      · exact .inl ⟨_, rfl, nofun⟩
    | directory =>
      refine .inl ⟨_, rfl, fun path links heq => ?_⟩
      obtain ⟨rfl, -⟩ := ResolvedWorkNode.directory.inj (Option.some.inj (Except.ok.inj heq))
      exact hdirectory
    | other => exact .inl ⟨_, rfl, nofun⟩
    | regular =>
      dsimp only
      split
      · exact .inl ⟨_, rfl, nofun⟩
      · exact .inl ⟨_, rfl, nofun⟩
    | symlink link =>
      dsimp only
      split
      · exact .inl ⟨_, rfl, nofun⟩
      · refine .inr ⟨_, rfl, ?_, ?_⟩
        · intro next heq
          split at heq
          next => nomatch heq
          next target htarget =>
            obtain rfl := Sum.inr.inj heq
            exact List.mem_cons_of_mem _ (linkTarget_mem htarget)
        · intro path links
          split
          · nofun
          · nofun

theorem exists_resolveWorkNodeWith (cx : WorkContext ε) (useInitialModes : Bool)
    (releasedPath : Text) (directoryRequired : Bool) {root : Text}
    (hroot : releasedPath ∈ cx.places root) :
    ∃ result, cx.resolveWorkNodeWith useInitialModes ((cx.places root).length + 1) releasedPath
      directoryRequired = some result := by
  refine exists_follow (P := fun place : WorkPlace => place.current ∈ cx.places root) ?_ hroot
  intro place mark target hplace hlink
  rcases hop_cases cx useInitialModes releasedPath root place hplace with
    ⟨result, hstop, -⟩ | ⟨target', hlink', hnext, -⟩
  · exact nomatch hstop.symm.trans hlink
  · obtain ⟨rfl, rfl⟩ := Hop.link.inj (hlink'.symm.trans hlink)
    exact ⟨hplace, hnext⟩

theorem directory_mem {useInitialModes directoryRequired : Bool} {rounds : Nat}
    {releasedPath root path : Text} {links : List Text} (hroot : releasedPath ∈ cx.places root)
    (h : cx.resolveWorkNodeWith useInitialModes rounds releasedPath directoryRequired =
      some (.ok (some (.directory path links)))) : path ∈ cx.places root := by
  refine of_follow (P := fun place : WorkPlace => place.current ∈ cx.places root)
    (Q := fun result => ∀ path links, result = .ok (some (.directory path links)) →
      path ∈ cx.places root) ?_ ?_ hroot h path links rfl
  · intro place result hplace hstop
    rcases hop_cases cx useInitialModes releasedPath root place hplace with
      ⟨result', hstop', hmem⟩ | ⟨target, hlink, -, -⟩
    · exact Hop.stop.inj (hstop'.symm.trans hstop) ▸ hmem
    · exact nomatch hlink.symm.trans hstop
  · intro place mark target hplace hlink
    rcases hop_cases cx useInitialModes releasedPath root place hplace with
      ⟨result, hstop, -⟩ | ⟨target', hlink', hnext, hne⟩
    · exact nomatch hstop.symm.trans hlink
    · obtain ⟨-, rfl⟩ := Hop.link.inj (hlink'.symm.trans hlink)
      exact ⟨nofun, fun result heq path links hok => (hne path links (hok ▸ heq)).elim, hnext⟩

theorem visit_settles : Settles cx.visit := by
  intro n m node hle hne
  unfold visit at hne ⊢
  split
  next => rfl
  next hselected =>
    rw [if_neg hselected] at hne
    cases hresolve : cx.resolveWorkNodeWith node.useInitialModes n node.sourcePath
        node.directoryRequired with
    | none =>
      rw [hresolve] at hne
      exact absurd rfl hne
    | some result =>
      have hmore : cx.resolveWorkNodeWith node.useInitialModes m node.sourcePath
          node.directoryRequired = some result := follow_mono hle hresolve
      rw [hmore]

theorem visit_ne_exhausted {root : Text} (node : WorkSelected)
    (hnode : node.sourcePath ∈ cx.places root) :
    cx.visit ((cx.places root).length + 1) node ≠ .error .exhausted := by
  obtain ⟨result, hresult⟩ := exists_resolveWorkNodeWith cx node.useInitialModes node.sourcePath
    node.directoryRequired hnode
  unfold visit
  split
  next => nofun
  next =>
    rw [hresult]
    rcases result with e | _ | ⟨file, links⟩ | ⟨path, links⟩
    · nofun
    · nofun
    · nofun
    · dsimp only
      split
      · nofun
      · nofun

theorem visit_enter {n : Nat} {node : WorkSelected} {change : WorkContent → WorkContent}
    {key root : Text} {children : List WorkSelected} (hnode : node.sourcePath ∈ cx.places root)
    (h : cx.visit n node = .ok (.enter change key children)) :
    key ∈ cx.places root ∧ ∀ child ∈ children, child.sourcePath ∈ cx.places root := by
  unfold visit at h
  split at h
  next => nomatch h
  next =>
    split at h
    next => nomatch h
    next => nomatch h
    next => nomatch h
    next => nomatch h
    next path links hresolve =>
      dsimp only at h
      split at h
      next => nomatch h
      next =>
        obtain ⟨-, rfl, rfl⟩ := Visit.enter.inj (Except.ok.inj h)
        refine ⟨directory_mem hnode hresolve, fun child hchild => ?_⟩
        obtain ⟨source, hsource, hchild⟩ := List.mem_filterMap.mp hchild
        obtain ⟨archive, -, rfl⟩ := Option.map_eq_some_iff.mp hchild
        exact List.mem_cons_of_mem _ (directTrackedChildren_mem hsource).1

/-- Links that go on for ever cannot be visited. -/
theorem visit_endless {node : WorkSelected}
    (hselected : archiveSubtreeSelected cx.rules cx.ruleExceptions node.archivePath = true)
    (h : Endless (cx.hop node.useInitialModes node.sourcePath)
      (.start node.sourcePath node.directoryRequired)) (n : Nat)
    (v : Visit WorkSelected Text WorkContent) : cx.visit n node ≠ .ok v := by
  unfold visit
  rw [hselected]
  cases hresolve : cx.resolveWorkNodeWith node.useInitialModes n node.sourcePath
      node.directoryRequired with
  | none => nofun
  | some result =>
    obtain ⟨place, mark, rfl⟩ := follow_of_endless h hresolve
    nofun

/-- From a released path the links go on for ever, or a directory is come to
again below itself. -/
def Cyclic (cx : WorkContext ε) (root : WorkSelected) : Prop :=
  ∃ above last, Walk (Enters cx.visit) root above last ∧
    (archiveSubtreeSelected cx.rules cx.ruleExceptions last.archivePath = true ∧
        Endless (cx.hop last.useInitialModes last.sourcePath)
          (.start last.sourcePath last.directoryRequired) ∨
      ∃ directory children, Enters cx.visit last directory children ∧ directory ∈ above)

theorem Cyclic.stuck {root : WorkSelected} (h : cx.Cyclic root) : Stuck cx.visit root := by
  obtain ⟨above, last, hwalk, ⟨hselected, hendless⟩ | hagain⟩ := h
  · exact ⟨above, last, hwalk, .inl (visit_endless hselected hendless)⟩
  · exact ⟨above, last, hwalk, .inr hagain⟩

/-- **An expansion of a work tree ends**, and a cycle ends it with an error. -/
theorem expandWorkReleasedPath_ends (cx : WorkContext ε) (root : WorkSelected)
    (content : WorkContent) : ∃ fuel result, result ≠ .error .exhausted ∧
      (∀ n, fuel ≤ n → cx.expandWorkReleasedPath n [] root content = result) ∧
      (cx.Cyclic root → ∃ e, result = .error (.failed e)) := by
  obtain ⟨fuel, result, hne, hresult, hstuck⟩ := visit_settles.ends
    (P := fun node : WorkSelected => node.sourcePath ∈ cx.places root.sourcePath)
    (fun node directory => .cycle cx.name node.sourcePath directory)
    (fun node hnode => visit_ne_exhausted node hnode)
    (fun n node change key children hnode h => visit_enter hnode h) root
    (List.mem_cons_self ..) content
  exact ⟨fuel, result, hne, hresult, fun hcyclic => hstuck hcyclic.stuck⟩

end WorkContext

/-- **Expansions end, inside the workspace**: a cycle is an error, and a
resolved target is made of names if the directory of the link is. -/
theorem linkExpansion_ends_inside :
    (∀ (cx : HistoricalContext ε) root identities, ∃ fuel result, result ≠ .error .exhausted ∧
      (∀ n, fuel ≤ n → cx.expandHistoricalReleasedPath n [] root identities = result) ∧
      (cx.Cyclic root → ∃ e, result = .error (.failed e))) ∧
    (∀ (cx : WorkContext ε) root content, ∃ fuel result, result ≠ .error .exhausted ∧
      (∀ n, fuel ≤ n → cx.expandWorkReleasedPath n [] root content = result) ∧
      (cx.Cyclic root → ∃ e, result = .error (.failed e))) ∧
    ∀ name releasedPath linkPath target workspaceDir resolved case,
      resolveSymlinkTarget (ε := ε) name releasedPath linkPath target workspaceDir case =
        .ok resolved →
      (∀ c ∈ parentComponents linkPath, c ≠ ['.'] ∧ c ≠ ['.', '.']) →
      ∃ components, resolved = joinComponents components ∧ (∀ c ∈ components, Named c) ∧
        Inside resolved workspaceDir case :=
  ⟨fun cx => cx.expandHistoricalReleasedPath_ends, fun cx => cx.expandWorkReleasedPath_ends,
    fun _ _ _ _ _ _ _ h hlink => resolveSymlinkTarget_ok h hlink⟩

/-- A link in a directory that is not made of names leads out of the
workspace. -/
theorem resolveSymlinkTarget_outside :
    resolveSymlinkTarget (ε := Unit) "pkg".toList "../link".toList "../link".toList
      "file".toList [] .sensitive = .ok "../file".toList ∧
    ¬ ∃ components, "../file".toList = joinComponents components ∧
      ∀ c ∈ components, Named c := by
  refine ⟨rfl, ?_⟩
  rintro ⟨components, heq, hnamed⟩
  have hne : components ≠ [] := by
    rintro rfl
    nomatch heq
  have hsplit : ("../file".toList).splitOn '/' = components := by
    rw [heq]
    exact List.splitOn_intercalate '/' (fun c hc => (hnamed c hc).2.2.2) hne
  have hup : ['.', '.'] ∈ components := by
    rw [← hsplit]
    decide
  exact (hnamed _ hup).2.2.1 rfl

end Folo.ReleasePlan
