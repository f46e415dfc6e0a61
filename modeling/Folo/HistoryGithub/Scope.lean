import Folo.HistoryGithub.Model
import Folo.Lib.Least
import Folo.Lib.Loops
import Folo.Lib.Maps
import Folo.Lib.Outcomes
import Folo.Lib.Worklist

/-!
# The scope of a pull request

`Workspace` of `action/preparation/scope.rs` and `affected_packages` of
`execute.rs`: the members of a workspace, which of them own the changed paths,
and which depend on these. Shared inputs at the root of the workspace widen the
scope to all members. What Git, Cargo and the package detector say is a
parameter, as are the files that `Host::directory` looks at.
-/

namespace Folo.HistoryGithub

open Folo.Lib Relation
open Std (ExtTreeMap ExtTreeSet)

variable {ε : Type}

/-- A path by its components, from the root of the filesystem on. -/
abbrev Path := List Text

structure Host (ε : Type) where
  /-- resolves a directory that exists -/
  directory : Path → Except ε Path
  package : Path → Path → Except ε (Option Text)

/-- A package as Cargo reports it, with the kinds of its targets and the paths
of its dependencies. -/
structure Package where
  id : Text
  name : Text
  manifestPath : Path
  targets : List (List Text)
  dependencies : List (Option Path)

structure Metadata where
  workspaceRoot : Path
  workspaceMembers : List Text
  packages : List Package

structure Workspace where
  root : Path
  directories : ExtTreeMap Path Text
  benchmarks : ExtTreeSet Text
  dependents : ExtTreeMap Text (ExtTreeSet Text)

inductive ScopeError (ε : Type)
  | host (e : ε)
  /-- Cargo workspace members lack package metadata -/
  | membersLackMetadata
  /-- package manifest lacks a parent directory -/
  | noParent
  /-- ambiguous Cargo package identity -/
  | ambiguousIdentity
  /-- Git changed paths must be NUL-terminated -/
  | notTerminated
  /-- invalid repository-relative Git path -/
  | invalidPath
  /-- the package is not a Cargo workspace member -/
  | notMember (name : Text)

/-! ## The workspace -/

/-- `char::is_control`. -/
def isControl (c : Char) : Bool :=
  decide (c.toNat < 0x20) || (decide (0x7F ≤ c.toNat) && decide (c.toNat ≤ 0x9F))

def packageName (name : Text) : Bool :=
  !name.isEmpty && name.head? ≠ some '-' &&
    !(name.any fun c => isWhitespace c || isControl c || c = ',')

def parent (path : Path) : Option Path := if path = [] then none else some path.dropLast

def Package.hasBench (package : Package) : Bool :=
  package.targets.any fun kinds => kinds.any fun kind => decide (kind = "bench".toList)

def Metadata.members (metadata : Metadata) : List Package :=
  metadata.packages.filter fun package => metadata.workspaceMembers.contains package.id

namespace Workspace

variable (host : Host ε)

def resolve (path : Path) : Except (ScopeError ε) Path := (host.directory path).mapError .host

/-- A member, of a name and a directory of its own. -/
def register (ws : Workspace) (package : Package) : Except (ScopeError ε) Workspace :=
  match parent package.manifestPath with
  | none => .error .noParent
  | some directory =>
    if !packageName package.name || ws.dependents.contains package.name then
      .error .ambiguousIdentity
    else do
      let directory ← resolve host directory
      if ws.directories.contains directory then throw .ambiguousIdentity
      return { ws with
        directories := ws.directories.insert directory package.name
        dependents := ws.dependents.insert package.name ∅
        benchmarks :=
          if package.hasBench then ws.benchmarks.insert package.name else ws.benchmarks }

/-- One dependency of a member; only a member is looked up in `dependents`. -/
def linkDependency (package : Package) (ws : Workspace) (dependency : Option Path) :
    Except (ScopeError ε) Workspace :=
  match dependency with
  | none => .ok ws
  | some path => do
    let directory ← resolve host path
    match ws.directories[directory]? with
    | none => return ws
    | some name =>
      return { ws with
        dependents := upsert ws.dependents name ∅ fun held => held.insert package.name }

def link (ws : Workspace) (package : Package) : Except (ScopeError ε) Workspace :=
  package.dependencies.foldlM (linkDependency host package) ws

def parse (metadata : Metadata) : Except (ScopeError ε) Workspace := do
  let root ← resolve host metadata.workspaceRoot
  let memberIds : ExtTreeSet Text := ExtTreeSet.ofList metadata.workspaceMembers
  if metadata.members.length ≠ memberIds.size then throw .membersLackMetadata
  let ws ← metadata.members.foldlM (register host)
    { root, directories := ∅, benchmarks := ∅, dependents := ∅ }
  metadata.members.foldlM (link host) ws

/-- The member whose directory is the deepest above a path. -/
def packageOwner (ws : Workspace) (path : Path) : Option (Path × Text) :=
  maxByKey (fun entry => entry.1.length)
    (ws.directories.toList.filter fun entry => entry.1.isPrefixOf path)

/-- The first name that is not a member's. -/
def firstUnknown (ws : Workspace) (names : List Text) : Option Text :=
  names.find? fun name => !ws.dependents.contains name

/-- One package of the queue; nothing where it is no member, which was checked. -/
def selectRound (ws : Workspace) (w : Worklist Text) :
    Option (ExtTreeSet Text) ⊕ Worklist Text :=
  match w.pending with
  | [] => .inl (some w.found)
  | name :: rest =>
    match ws.dependents[name]? with
    | none => .inl none
    | some dependents =>
      .inr (({ w with pending := rest } : Worklist Text).enqueueAll dependents.toList)

/-- `none` is where more than `rounds` rounds are taken, or a package of the
queue is no member. -/
def select (ws : Workspace) (affected : Option (ExtTreeSet Text)) (excluded : ExtTreeSet Text)
    (rounds : Nat) : Option (Except (ScopeError ε) (ExtTreeSet Text)) :=
  match ws.firstUnknown (excluded.toList ++ (affected.map (·.toList)).getD []) with
  | some name => some (.error (.notMember name))
  | none =>
    let selected := affected.getD (ExtTreeSet.ofList ws.dependents.keys)
    (whileLoop ws.selectRound rounds { found := selected, pending := selected.toList }).join.map
      fun selected => .ok (selected.filter fun name =>
        ws.benchmarks.contains name && !excluded.contains name)

end Workspace

/-! ## Changed paths -/

def sharedInputs : List Path :=
  [["Cargo.toml".toList], ["Cargo.lock".toList], ["rust-toolchain".toList],
    ["rust-toolchain.toml".toList], [".cargo".toList, "config".toList],
    [".cargo".toList, "config.toml".toList]]

/-- The components of a path that Git lists. -/
def components (path : Text) : Path :=
  (path.splitOn '/').filter fun part => decide (part ≠ [] ∧ part ≠ ['.'])

def validChange (path : Text) : Bool :=
  !path.isEmpty && path.head? ≠ some '/' && !((components path).contains ['.', '.'])

/-- `split_terminator`. -/
def splitTerminator (terminator : Char) (text : Text) : List Text :=
  let parts := text.splitOn terminator
  if parts.getLast? = some [] then parts.dropLast else parts

/-- The owners of the changed paths; nothing where a shared input changed. -/
def ownersOf (host : Host ε) (ws : Workspace) (root : Path) :
    List Text → ExtTreeSet Text → Except (ScopeError ε) (Option (ExtTreeSet Text))
  | [], owners => .ok (some owners)
  | change :: rest, owners =>
    if !validChange change then .error .invalidPath
    else
      let path := root ++ components change
      if !(ws.root.isPrefixOf path) then ownersOf host ws root rest owners
      else if sharedInputs.any fun input => decide (path = ws.root ++ input) then .ok none
      else
        match ws.packageOwner path with
        | none => ownersOf host ws root rest owners
        | some (directory, name) =>
          match host.package ws.root directory with
          | .error e => .error (.host e)
          | .ok (some name) => ownersOf host ws root rest (owners.insert name)
          | .ok none =>
            if directory = ws.root then ownersOf host ws root rest (owners.insert name)
            else ownersOf host ws root rest owners

/-- `changed` is what Git lists, each path ended by a NUL. -/
def affectedPackages (host : Host ε) (ws : Workspace) (root : Path) (changed : Text) :
    Except (ScopeError ε) (Option (ExtTreeSet Text)) :=
  if !changed.isEmpty && changed.getLast? ≠ some '\x00' then .error .notTerminated
  else ownersOf host ws root (splitTerminator '\x00' changed) ∅

/-! ## What the metadata says -/

/-- The directory of a package, as the host resolves it. -/
def DirectoryOf (host : Host ε) (package : Package) (directory : Path) : Prop :=
  ∃ above, parent package.manifestPath = some above ∧ host.directory above = .ok directory

namespace Metadata

def HasMember (metadata : Metadata) (name : Text) : Prop :=
  ∃ package ∈ metadata.members, package.name = name

def HasBenchmark (metadata : Metadata) (name : Text) : Prop :=
  ∃ package ∈ metadata.members, package.hasBench = true ∧ package.name = name

/-- The second package is a member with a path dependency, of whatever kind, on
the first, which is one too. -/
def Affects (metadata : Metadata) (host : Host ε) (name dependent : Text) : Prop :=
  ∃ member ∈ metadata.members, member.name = dependent ∧
    ∃ path directory, some path ∈ member.dependencies ∧ host.directory path = .ok directory ∧
      ∃ package ∈ metadata.members, DirectoryOf host package directory ∧ package.name = name

/-- The member has the deepest directory that holds the path. -/
def Owns (metadata : Metadata) (host : Host ε) (path : Path) (name : Text) : Prop :=
  ∃ package ∈ metadata.members, package.name = name ∧
    ∃ directory, DirectoryOf host package directory ∧ directory <+: path ∧
      ∀ other ∈ metadata.members, ∀ d, DirectoryOf host other d → d <+: path →
        d.length ≤ directory.length

end Metadata

namespace Workspace

variable {host : Host ε} {ws ws' : Workspace}

theorem resolve_eq_ok {path directory : Path} :
    (resolve host path : Except (ScopeError ε) Path) = .ok directory ↔
      host.directory path = .ok directory := by
  unfold resolve
  cases host.directory path with
  | error e => exact ⟨nofun, nofun⟩
  | ok d => exact ⟨fun h => congrArg _ (Except.ok.inj h), fun h => congrArg _ (Except.ok.inj h)⟩

/-! ### The members -/

/-- The workspace of the members that were gone over. -/
structure Registered (host : Host ε) (root : Path) (done : List Package) (ws : Workspace) :
    Prop where
  root : ws.root = root
  directories : ∀ (directory : Path) name, ws.directories[directory]? = some name ↔
    ∃ package ∈ done, DirectoryOf host package directory ∧ package.name = name
  benchmarks : ∀ name, name ∈ ws.benchmarks ↔
    ∃ package ∈ done, package.hasBench = true ∧ package.name = name
  members : ∀ name, name ∈ ws.dependents ↔ ∃ package ∈ done, package.name = name
  free : ∀ (name : Text) dependents, ws.dependents[name]? = some dependents → dependents = ∅

theorem register_eq_ok {package : Package} (h : register host ws package = .ok ws') :
    ∃ directory, DirectoryOf host package directory ∧ ws.directories[directory]? = none ∧
      ws' = { ws with
        directories := ws.directories.insert directory package.name
        dependents := ws.dependents.insert package.name ∅
        benchmarks :=
          if package.hasBench then ws.benchmarks.insert package.name else ws.benchmarks } := by
  unfold register at h
  split at h
  · cases h
  next above habove =>
    split at h
    · cases h
    · obtain ⟨directory, hdirectory, h⟩ := bind_eq_ok.mp h
      cases hheld : ws.directories.contains directory with
      | true =>
        rw [hheld] at h
        cases h
      | false =>
        rw [hheld] at h
        have hnone := ExtTreeMap.getElem?_eq_none_of_contains_eq_false hheld
        exact ⟨directory, ⟨above, habove, resolve_eq_ok.mp hdirectory⟩, hnone,
          (Except.ok.inj h).symm⟩

theorem exists_mem_concat {P : Package → Prop} {done : List Package} {package : Package} :
    (∃ p ∈ done ++ [package], P p) ↔ (∃ p ∈ done, P p) ∨ P package := by
  simp [or_and_right, exists_or]

/-- One more member. -/
theorem Registered.register {root : Path} {done : List Package} {package : Package}
    (h : Registered host root done ws) (hok : register host ws package = .ok ws') :
    Registered host root (done ++ [package]) ws' := by
  obtain ⟨directory, hdirectory, hnew, rfl⟩ := register_eq_ok hok
  refine ⟨h.root, fun d name => ?_, fun name => ?_, fun name => ?_, fun name dependents => ?_⟩
  · rw [exists_mem_concat, ← h.directories, getElem?_insert]
    by_cases hd : directory = d
    · subst hd
      rw [if_pos rfl, hnew, Option.some.injEq]
      constructor
      · exact fun hname => .inr ⟨hdirectory, hname⟩
      · rintro (hnone | ⟨-, hname⟩)
        · cases hnone
        · exact hname
    · -- a package has one directory
      rw [if_neg hd]
      refine (or_iff_left fun hother => hd ?_).symm
      obtain ⟨⟨above, habove, hresolve⟩, -⟩ := hother
      obtain ⟨above', habove', hresolve'⟩ := hdirectory
      obtain rfl := Option.some.inj (habove.symm.trans habove')
      exact Except.ok.inj (hresolve'.symm.trans hresolve)
  · rw [exists_mem_concat, ← h.benchmarks]
    cases hbench : package.hasBench with
    | true =>
      dsimp only
      rw [if_pos rfl, Worklist.mem_insert]
      refine or_congr_right ⟨fun hname => ⟨rfl, hname.symm⟩, fun hname => hname.2.symm⟩
    | false => exact (or_iff_left fun hname => nomatch hname.1).symm
  · rw [exists_mem_concat, ← h.members]
    dsimp only
    rw [ExtTreeMap.mem_insert, Std.compare_eq_iff_eq, or_comm]
  · dsimp only
    rw [getElem?_insert]
    split
    · exact fun hempty => (Option.some.inj hempty).symm
    · exact h.free name dependents

/-! ### The dependents -/

/-- The second package is listed among the dependents of the first. -/
def Lists (ws : Workspace) (name dependent : Text) : Prop :=
  ∃ dependents, ws.dependents[name]? = some dependents ∧ dependent ∈ dependents

/-- Every directory is that of a member. -/
def Closed (ws : Workspace) : Prop :=
  ∀ (directory : Path) name, ws.directories[directory]? = some name → name ∈ ws.dependents

/-- The workspace with more dependents listed, and otherwise as it was. -/
structure Links (ws ws' : Workspace) (edges : Text → Text → Prop) : Prop where
  root : ws'.root = ws.root
  directories : ws'.directories = ws.directories
  benchmarks : ws'.benchmarks = ws.benchmarks
  members : ∀ name, name ∈ ws'.dependents ↔ name ∈ ws.dependents
  lists : ∀ name dependent, ws'.Lists name dependent ↔
    ws.Lists name dependent ∨ edges name dependent

theorem Links.refl (ws : Workspace) {edges : Text → Text → Prop}
    (hnone : ∀ name dependent, ¬ edges name dependent) : Links ws ws edges where
  root := rfl
  directories := rfl
  benchmarks := rfl
  members _ := Iff.rfl
  lists name dependent := (or_iff_left (hnone name dependent)).symm

theorem Links.closed {edges : Text → Text → Prop} (h : Links ws ws' edges) (hclosed : ws.Closed) :
    ws'.Closed := by
  intro directory name hname
  rw [h.directories] at hname
  exact (h.members name).mpr (hclosed directory name hname)

/-- The member has a dependency in a directory of the named one. -/
def PathEdge (host : Host ε) (directories : ExtTreeMap Path Text) (package : Package)
    (dependency : Option Path) (name dependent : Text) : Prop :=
  package.name = dependent ∧ ∃ path directory, dependency = some path ∧
    host.directory path = .ok directory ∧ directories[directory]? = some name

theorem links_dependency {package : Package} {dependency : Option Path} (hclosed : ws.Closed)
    (hok : linkDependency host package ws dependency = .ok ws') :
    Links ws ws' (PathEdge host ws.directories package dependency) := by
  unfold linkDependency at hok
  split at hok
  · obtain rfl := Except.ok.inj hok
    refine .refl ws fun name dependent hedge => ?_
    obtain ⟨-, path, directory, hnone, -⟩ := hedge
    cases hnone
  next path =>
    obtain ⟨directory, hdirectory, hok⟩ := bind_eq_ok.mp hok
    have hdirectory := resolve_eq_ok.mp hdirectory
    split at hok
    next hforeign =>
      obtain rfl := Except.ok.inj hok
      refine .refl ws fun name dependent hedge => ?_
      obtain ⟨-, path', directory', hpath, hdirectory', hname⟩ := hedge
      obtain rfl := Option.some.inj hpath
      obtain rfl := Except.ok.inj (hdirectory.symm.trans hdirectory')
      cases hforeign.symm.trans hname
    next name hname =>
      obtain rfl := Except.ok.inj hok
      have hedges : ∀ n dependent, PathEdge host ws.directories package (some path) n dependent ↔
          name = n ∧ package.name = dependent := by
        intro n dependent
        constructor
        · rintro ⟨hdependent, path', directory', hpath, hdirectory', hn⟩
          obtain rfl := Option.some.inj hpath
          obtain rfl := Except.ok.inj (hdirectory.symm.trans hdirectory')
          exact ⟨Option.some.inj (hname.symm.trans hn), hdependent⟩
        · rintro ⟨rfl, hdependent⟩
          exact ⟨hdependent, path, directory, rfl, hdirectory, hname⟩
      obtain ⟨held, hheld⟩ : ∃ held, ws.dependents[name]? = some held :=
        Option.isSome_iff_exists.mp (ExtTreeMap.isSome_getElem?_iff_mem.mpr
          (hclosed directory name hname))
      refine ⟨rfl, rfl, rfl, fun n => ?_, fun n dependent => ?_⟩
      · rw [← ExtTreeMap.isSome_getElem?_iff_mem, ← ExtTreeMap.isSome_getElem?_iff_mem,
          getElem?_upsert]
        by_cases hn : name = n
        · rw [if_pos hn, ← hn, hheld]
          rfl
        · rw [if_neg hn]
      · rw [hedges]
        unfold Lists
        dsimp only
        rw [getElem?_upsert]
        by_cases hn : name = n
        · subst hn
          rw [if_pos rfl, hheld]
          simp only [Option.getD_some, Option.some.injEq, exists_eq_left', Worklist.mem_insert,
            true_and]
          exact or_congr_right eq_comm
        · rw [if_neg hn]
          exact (or_iff_left fun h => hn h.1).symm

/-- Step after step, with the directories as they are. -/
theorem links_foldlM {α : Type} {step : Workspace → α → Except (ScopeError ε) Workspace}
    {directories : ExtTreeMap Path Text} {edges : α → Text → Text → Prop}
    (hstep : ∀ ws ws' x, ws.directories = directories → ws.Closed → step ws x = .ok ws' →
      Links ws ws' (edges x))
    {xs : List α} (hdirectories : ws.directories = directories) (hclosed : ws.Closed)
    (hok : xs.foldlM step ws = .ok ws') :
    Links ws ws' fun name dependent => ∃ x ∈ xs, edges x name dependent := by
  induction xs generalizing ws with
  | nil =>
    obtain rfl := Except.ok.inj hok
    refine .refl ws fun name dependent h => ?_
    obtain ⟨x, hx, -⟩ := h
    cases hx
  | cons x xs ih =>
    rw [List.foldlM_cons] at hok
    obtain ⟨mid, hmid, hok⟩ := bind_eq_ok.mp hok
    have hfirst := hstep ws mid x hdirectories hclosed hmid
    have hrest := ih (hfirst.directories.trans hdirectories) (hfirst.closed hclosed) hok
    refine ⟨hrest.root.trans hfirst.root, hrest.directories.trans hfirst.directories,
      hrest.benchmarks.trans hfirst.benchmarks,
      fun name => (hrest.members name).trans (hfirst.members name), fun name dependent => ?_⟩
    rw [hrest.lists, hfirst.lists, or_assoc, List.exists_mem_cons_iff]

/-! ### What is parsed -/

/-- The workspace is what the metadata says. -/
structure Parsed (host : Host ε) (metadata : Metadata) (ws : Workspace) : Prop where
  directories : ∀ (directory : Path) name, ws.directories[directory]? = some name ↔
    ∃ package ∈ metadata.members, DirectoryOf host package directory ∧ package.name = name
  benchmarks : ∀ name, name ∈ ws.benchmarks ↔ metadata.HasBenchmark name
  members : ∀ name, name ∈ ws.dependents ↔ metadata.HasMember name
  lists : ∀ name dependent, ws.Lists name dependent ↔ metadata.Affects host name dependent

/-- **Parsing** finds the members and which of them depend on which. -/
theorem parsed_of_parse {metadata : Metadata} (h : parse host metadata = .ok ws) :
    Parsed host metadata ws := by
  unfold parse at h
  obtain ⟨root, -, h⟩ := bind_eq_ok.mp h
  dsimp only at h
  split at h
  · cases h
  · obtain ⟨-, -, h⟩ := bind_eq_ok.mp h
    obtain ⟨start, hstart, h⟩ := bind_eq_ok.mp h
    have hregistered : Registered host root metadata.members start := by
      refine foldlM_processed (I := Registered host root)
        (fun done package b b' hb hok => hb.register hok) ?_ hstart
      exact ⟨rfl, fun d name => ⟨nofun, nofun⟩, fun name => ⟨nofun, nofun⟩,
        fun name => ⟨nofun, nofun⟩, nofun⟩
    have hclosed : start.Closed := by
      intro directory name hname
      obtain ⟨package, hpackage, -, hname⟩ := (hregistered.directories directory name).mp hname
      exact (hregistered.members name).mpr ⟨package, hpackage, hname⟩
    have hlinks : Links start ws fun name dependent => ∃ package ∈ metadata.members,
        ∃ dependency ∈ package.dependencies,
          PathEdge host start.directories package dependency name dependent := by
      refine links_foldlM (fun mid mid' package hmid hclosed hok => ?_) rfl hclosed h
      refine links_foldlM (fun ws ws' dependency hws hclosed hok => ?_) hmid hclosed hok
      exact hws ▸ links_dependency hclosed hok
    refine ⟨fun d name => ?_, fun name => ?_, fun name => ?_, fun name dependent => ?_⟩
    · rw [hlinks.directories, hregistered.directories]
    · rw [hlinks.benchmarks, hregistered.benchmarks]
      exact Iff.rfl
    · rw [hlinks.members, hregistered.members]
      exact Iff.rfl
    · -- nothing was listed before, and the directories are those of the members
      rw [hlinks.lists]
      constructor
      · rintro (⟨dependents, hfree, hmem⟩ | ⟨member, hmember, dependency, hdependency, hedge⟩)
        · rw [hregistered.free name dependents hfree] at hmem
          cases hmem
        · obtain ⟨hname, path, directory, rfl, hdirectory, hheld⟩ := hedge
          exact ⟨member, hmember, hname, path, directory, hdependency, hdirectory,
            (hregistered.directories directory name).mp hheld⟩
      · rintro ⟨member, hmember, hname, path, directory, hdependency, hdirectory, hheld⟩
        exact .inr ⟨member, hmember, some path, hdependency, hname, path, directory, rfl,
          hdirectory, (hregistered.directories directory name).mpr hheld⟩

/-! ### Owners -/

/-- A path has at most one prefix of a length, so that the deepest directory above
it is one. -/
theorem Parsed.packageOwner {metadata : Metadata} (h : Parsed host metadata ws) (path : Path) :
    (∀ directory name, ws.packageOwner path = some (directory, name) →
      ws.directories[directory]? = some name ∧ ∀ n, metadata.Owns host path n ↔ n = name) ∧
    (ws.packageOwner path = none → ∀ n, ¬ metadata.Owns host path n) := by
  have hmem : ∀ entry : Path × Text,
      (entry ∈ ws.directories.toList.filter fun entry => entry.1.isPrefixOf path) ↔
        ws.directories[entry.1]? = some entry.2 ∧ entry.1 <+: path := by
    intro entry
    rw [List.mem_filter, List.isPrefixOf_iff_prefix]
    exact and_congr_left' ExtTreeMap.mem_toList_iff_getElem?_eq_some
  obtain ⟨hnone, hsome⟩ := maxByKey_spec (fun entry : Path × Text => entry.1.length)
    (ws.directories.toList.filter fun entry => entry.1.isPrefixOf path)
  constructor
  · intro directory name howner
    obtain ⟨hin, hmax⟩ := hsome _ howner
    obtain ⟨hheld, hprefix⟩ := (hmem _).mp hin
    refine ⟨hheld, fun n => ⟨?_, ?_⟩⟩
    · rintro ⟨package, hpackage, hname, d, hd, hdprefix, hdeepest⟩
      obtain ⟨other, hother, hotherd, -⟩ := (h.directories directory name).mp hheld
      have hn : ws.directories[d]? = some n :=
        (h.directories d n).mpr ⟨package, hpackage, hd, hname⟩
      have hlen : d.length = directory.length :=
        Nat.le_antisymm (hmax (d, n) ((hmem _).mpr ⟨hn, hdprefix⟩))
          (hdeepest other hother directory hotherd hprefix)
      have hwithin := List.prefix_of_prefix_length_le hdprefix hprefix (Nat.le_of_eq hlen)
      obtain rfl := hwithin.eq_of_length hlen
      exact Option.some.inj (hn.symm.trans hheld)
    · rintro rfl
      obtain ⟨package, hpackage, hd, hname⟩ := (h.directories directory n).mp hheld
      refine ⟨package, hpackage, hname, directory, hd, hprefix,
        fun other hother d hd hdprefix => ?_⟩
      exact hmax (d, other.name) ((hmem _).mpr
        ⟨(h.directories d other.name).mpr ⟨other, hother, hd, rfl⟩, hdprefix⟩)
  · rintro hempty n ⟨package, hpackage, hname, d, hd, hprefix, -⟩
    have hin := (hmem (d, n)).mpr
      ⟨(h.directories d n).mpr ⟨package, hpackage, hd, hname⟩, hprefix⟩
    rw [hnone hempty] at hin
    cases hin

/-! ### Selection -/

theorem mem_keys {name : Text} : name ∈ ws.dependents.keys ↔ name ∈ ws.dependents :=
  ExtTreeMap.mem_keys

/-- One package of the queue, or the end. -/
theorem Parsed.selectRound {metadata : Metadata} (h : Parsed host metadata ws)
    {seeds : ExtTreeSet Text} (hseeds : ∀ name ∈ seeds, name ∈ ws.dependents) (w : Worklist Text)
    (hw : w.Explores (· ∈ seeds) ws.Lists (fun _ => True)) :
    (∃ found, ws.selectRound w = .inl found ∧ ∃ selected, found = some selected ∧
      ∀ name, name ∈ selected ↔ ∃ s ∈ seeds, ReflTransGen ws.Lists s name) ∨
    ∃ next, ws.selectRound w = .inr next ∧ next.Explores (· ∈ seeds) ws.Lists (fun _ => True) ∧
      next.todo ws.dependents.keys < w.todo ws.dependents.keys := by
  have hlisted : ∀ a b, ws.Lists a b → b ∈ ws.dependents := by
    intro a b hab
    obtain ⟨member, hmember, hname, -⟩ := (h.lists a b).mp hab
    exact (h.members b).mpr ⟨member, hmember, hname⟩
  unfold Workspace.selectRound
  split
  next hempty => exact .inl ⟨_, rfl, w.found, rfl, fun name => hw.mem_iff hempty⟩
  next name rest hpending =>
    -- what the seeds reach is a member
    have hname : name ∈ ws.dependents := by
      obtain ⟨s, hs, hreach⟩ := hw.reached name (hw.pending name (hpending ▸ List.mem_cons_self ..))
      rcases hreach.cases_tail with rfl | ⟨b, -, hb⟩
      · exact hseeds _ hs
      · exact hlisted b name hb
    split
    next hnone =>
      rw [← ExtTreeMap.isSome_getElem?_iff_mem, hnone] at hname
      cases hname
    next dependents hdependents =>
      have htargets : ∀ b, b ∈ dependents.toList ↔ ws.Lists name b := by
        intro b
        rw [ExtTreeSet.mem_toList]
        constructor
        · exact fun hb => ⟨dependents, hdependents, hb⟩
        · rintro ⟨dependents', hdependents', hb⟩
          obtain rfl := Option.some.inj (hdependents.symm.trans hdependents')
          exact hb
      have hextends := Worklist.extends_enqueueAll { w with pending := rest } dependents.toList
      refine .inr ⟨_, rfl, hw.follow hpending hextends htargets trivial,
        hextends.todo_lt hpending fun b hb => ?_⟩
      exact mem_keys.mpr (hlisted name b ((htargets b).mp hb))

theorem firstUnknown_eq_none {names : List Text} (h : ∀ name ∈ names, name ∈ ws.dependents) :
    ws.firstUnknown names = none := by
  unfold firstUnknown
  rw [List.find?_eq_none]
  intro name hname
  rw [ExtTreeMap.contains_iff_mem.mpr (h name hname)]
  exact Bool.false_ne_true

/-- **Selection ends**, also when packages depend on each other in a cycle, with
the benchmarks among what the affected packages reach. -/
theorem Parsed.select {metadata : Metadata} (h : Parsed host metadata ws)
    {affected : Option (ExtTreeSet Text)} {excluded : ExtTreeSet Text}
    (haffected : ∀ owners, affected = some owners → ∀ name ∈ owners, metadata.HasMember name)
    (hexcluded : ∀ name ∈ excluded, metadata.HasMember name) :
    ∃ rounds selected, (∀ more, rounds ≤ more →
        ws.select affected excluded more = some (.ok selected : Except (ScopeError ε) _)) ∧
      ∀ name, name ∈ selected ↔ metadata.HasBenchmark name ∧ name ∉ excluded ∧
        ∀ owners, affected = some owners →
          ∃ s ∈ owners, ReflTransGen (metadata.Affects host) s name := by
  have hknown : ws.firstUnknown
      (excluded.toList ++ (affected.map (·.toList)).getD []) = none := by
    refine firstUnknown_eq_none fun name hname => (h.members name).mpr ?_
    rcases List.mem_append.mp hname with hname | hname
    · exact hexcluded name (ExtTreeSet.mem_toList.mp hname)
    · cases affected with
      | none => cases hname
      | some owners => exact haffected owners rfl name (ExtTreeSet.mem_toList.mp hname)
  have hlists : ws.Lists = metadata.Affects host :=
    funext fun a => funext fun b => propext (h.lists a b)
  -- the seeds: the affected packages, or all members
  obtain ⟨seeds, hseeds⟩ : ∃ seeds, affected.getD (ExtTreeSet.ofList ws.dependents.keys) = seeds :=
    ⟨_, rfl⟩
  have hmember : ∀ name ∈ seeds, name ∈ ws.dependents := by
    intro name hname
    cases affected with
    | none =>
      rw [← hseeds, Option.getD_none, ← ExtTreeSet.contains_iff_mem, ExtTreeSet.contains_ofList,
        List.contains_iff_mem] at hname
      exact mem_keys.mp hname
    | some owners =>
      rw [← hseeds] at hname
      exact (h.members name).mpr (haffected owners rfl name hname)
  have hreach : ∀ name, metadata.HasBenchmark name →
      ((∃ s ∈ seeds, ReflTransGen ws.Lists s name) ↔ ∀ owners, affected = some owners →
        ∃ s ∈ owners, ReflTransGen (metadata.Affects host) s name) := by
    intro name hbench
    rw [← hseeds, hlists]
    cases affected with
    | none =>
      refine iff_of_true ⟨name, ?_, .refl⟩ fun owners hnone => by cases hnone
      obtain ⟨package, hpackage, -, hname⟩ := hbench
      rw [Option.getD_none, ← ExtTreeSet.contains_iff_mem, ExtTreeSet.contains_ofList,
        List.contains_iff_mem]
      exact mem_keys.mpr ((h.members name).mpr ⟨package, hpackage, hname⟩)
    | some owners =>
      constructor
      · intro hfound owners' heq
        cases heq
        exact hfound
      · exact fun hall => hall owners rfl
  obtain ⟨start, hstart⟩ : ∃ start : Worklist Text, start = ⟨seeds, seeds.toList⟩ := ⟨_, rfl⟩
  have hexplores : start.Explores (· ∈ seeds) ws.Lists (fun _ => True) := by
    rw [hstart]
    exact Worklist.explores_start fun a => ExtTreeSet.mem_toList
  obtain ⟨found, hloop, selected, rfl, hfound⟩ := whileLoop_spec
    (v := fun w : Worklist Text => w.todo ws.dependents.keys)
    (fun w hw => h.selectRound hmember w hw) hexplores
    (Nat.lt_succ_self (start.todo ws.dependents.keys))
  refine ⟨start.todo ws.dependents.keys + 1,
    selected.filter fun name => ws.benchmarks.contains name && !excluded.contains name,
    fun more hmore => ?_, fun name => ?_⟩
  · unfold Workspace.select
    rw [hknown]
    dsimp only
    rw [hseeds, ← hstart, whileLoop_mono hloop hmore]
    rfl
  · rw [← ExtTreeSet.mem_toList, ExtTreeSet.toList_filter, List.mem_filter, ExtTreeSet.mem_toList,
      hfound, Bool.and_eq_true, ExtTreeSet.contains_iff_mem, Bool.not_eq_true',
      ← Bool.not_eq_true, ExtTreeSet.contains_iff_mem, h.benchmarks]
    constructor
    · rintro ⟨hreached, hbench, hnot⟩
      exact ⟨hbench, hnot, (hreach name hbench).mp hreached⟩
    · rintro ⟨hbench, hnot, hreached⟩
      exact ⟨(hreach name hbench).mpr hreached, hbench, hnot⟩

end Workspace

/-! ## The scope of changes -/

/-- The detector names the member of a directory, or leaves the root of the
workspace to the workspace. -/
def Detects (host : Host ε) (metadata : Metadata) (root : Path) : Prop :=
  ∀ package ∈ metadata.members, ∀ directory, DirectoryOf host package directory →
    host.package root directory = .ok (some package.name) ∨
      directory = root ∧ host.package root directory = .ok none

/-- One of the shared inputs of the workspace. -/
def IsSharedInput (root path : Path) : Prop := ∃ input ∈ sharedInputs, path = root ++ input

variable {host : Host ε} {metadata : Metadata} {ws : Workspace}

/-- One change inside the workspace that is no shared input adds its owner. -/
theorem Workspace.Parsed.packageNamed (h : ws.Parsed host metadata)
    (hdetects : Detects host metadata ws.root) {path directory : Path} {name : Text}
    (howner : ws.packageOwner path = some (directory, name)) :
    (host.package ws.root directory = .ok (some name) ∨
      directory = ws.root ∧ host.package ws.root directory = .ok none) ∧
      ∀ n, metadata.Owns host path n ↔ n = name := by
  obtain ⟨hheld, howns⟩ := (h.packageOwner path).1 directory name howner
  obtain ⟨package, hpackage, hdirectory, rfl⟩ := (h.directories directory name).mp hheld
  exact ⟨hdetects package hpackage directory hdirectory, howns⟩

/-- What the changes affect: everything if a shared input is among them, and
otherwise their owners. -/
def Affected (host : Host ε) (metadata : Metadata) (ws : Workspace) (root : Path)
    (changes : List Text) (owners : ExtTreeSet Text) : Option (ExtTreeSet Text) → Prop
  | none => ∃ change ∈ changes, IsSharedInput ws.root (root ++ components change)
  | some found => (∀ change ∈ changes, ¬ IsSharedInput ws.root (root ++ components change)) ∧
      ∀ name, name ∈ found ↔ name ∈ owners ∨ ∃ change ∈ changes,
        ws.root <+: root ++ components change ∧
          metadata.Owns host (root ++ components change) name

/-- A change before the others, and what it adds to the owners. -/
theorem Affected.cons {root : Path} {change : Text} {changes : List Text}
    {owners owners' : ExtTreeSet Text} {affected : Option (ExtTreeSet Text)}
    (h : Affected host metadata ws root changes owners' affected)
    (hshared : ¬ IsSharedInput ws.root (root ++ components change))
    (hadds : ∀ name, name ∈ owners' ↔ name ∈ owners ∨ ws.root <+: root ++ components change ∧
      metadata.Owns host (root ++ components change) name) :
    Affected host metadata ws root (change :: changes) owners affected := by
  cases affected with
  | none =>
    obtain ⟨c, hc, hinput⟩ := h
    exact ⟨c, List.mem_cons_of_mem _ hc, hinput⟩
  | some found =>
    refine ⟨List.forall_mem_cons.mpr ⟨hshared, h.1⟩, fun name => ?_⟩
    rw [h.2, hadds, or_assoc, List.exists_mem_cons_iff]

theorem Workspace.Parsed.ownersOf (h : ws.Parsed host metadata)
    (hdetects : Detects host metadata ws.root) (root : Path) {changes : List Text}
    (hvalid : ∀ change ∈ changes, validChange change = true) (owners : ExtTreeSet Text) :
    ∃ affected, ownersOf host ws root changes owners = .ok affected ∧
      Affected host metadata ws root changes owners affected := by
  induction changes generalizing owners with
  | nil =>
    refine ⟨some owners, rfl, nofun, fun name => (or_iff_left fun hnone => ?_).symm⟩
    obtain ⟨change, hchange, -⟩ := hnone
    cases hchange
  | cons change changes ih =>
    obtain ⟨hchange, hvalid⟩ := List.forall_mem_cons.mp hvalid
    have ih := ih hvalid
    rw [Folo.HistoryGithub.ownersOf, hchange, Bool.not_true, if_neg Bool.false_ne_true]
    dsimp only
    cases hinside : ws.root.isPrefixOf (root ++ components change) with
    | false =>
      rw [Bool.not_false, if_pos rfl]
      obtain ⟨affected, hok, haffected⟩ := ih owners
      have hnot : ¬ ws.root <+: root ++ components change := by
        rw [← List.isPrefixOf_iff_prefix, hinside]
        exact Bool.false_ne_true
      refine ⟨affected, hok, haffected.cons ?_ fun name => (or_iff_left fun hin => hnot hin.1).symm⟩
      rintro ⟨input, -, heq⟩
      exact hnot (heq ▸ List.prefix_append _ _)
    | true =>
      rw [Bool.not_true, if_neg Bool.false_ne_true]
      have hprefix := List.isPrefixOf_iff_prefix.mp hinside
      split
      next hshared =>
        obtain ⟨input, hinput, heq⟩ := List.any_eq_true.mp hshared
        exact ⟨none, rfl, change, List.mem_cons_self .., input, hinput, of_decide_eq_true heq⟩
      next hshared =>
        have hshared : ¬ IsSharedInput ws.root (root ++ components change) := by
          rintro ⟨input, hinput, heq⟩
          exact hshared (List.any_eq_true.mpr ⟨input, hinput, decide_eq_true heq⟩)
        cases howner : ws.packageOwner (root ++ components change) with
        | none =>
          obtain ⟨affected, hok, haffected⟩ := ih owners
          refine ⟨affected, hok, haffected.cons hshared fun name => ?_⟩
          exact (or_iff_left fun hin => (h.packageOwner _).2 howner name hin.2).symm
        | some owner =>
          obtain ⟨directory, name⟩ := owner
          obtain ⟨hpackage, howns⟩ := h.packageNamed hdetects howner
          obtain ⟨affected, hok, haffected⟩ := ih (owners.insert name)
          refine ⟨affected, ?_, haffected.cons hshared fun n => ?_⟩
          · dsimp only
            rcases hpackage with hpackage | ⟨hroot, hpackage⟩
            · rw [hpackage]
              exact hok
            · rw [hpackage]
              dsimp only
              rw [if_pos hroot]
              exact hok
          · rw [Worklist.mem_insert, howns, and_iff_right hprefix]

/-! ### What Git lists -/

/-- Paths that are each ended by a terminator are split again. -/
theorem splitTerminator_ended {terminator : Char} {texts : List Text}
    (h : ∀ text ∈ texts, terminator ∉ text) :
    splitTerminator terminator (ended terminator texts []) = texts := by
  unfold splitTerminator
  dsimp only
  rw [splitOn_ended h List.not_mem_nil, List.getLast?_concat, if_pos rfl, List.dropLast_concat]

theorem getLast?_ended {terminator : Char} {texts : List Text} (h : texts ≠ []) :
    (ended terminator texts []).getLast? = some terminator := by
  induction texts with
  | nil => exact absurd rfl h
  | cons text texts ih =>
    show (text ++ terminator :: ended terminator texts []).getLast? = _
    rw [List.getLast?_append_cons, List.getLast?_cons]
    cases texts with
    | nil => rfl
    | cons next texts =>
      rw [ih (List.cons_ne_nil next texts)]
      rfl

/-- **The scope of changed paths**: the benchmarks that are not excluded among what
depends, through whatever chain, on an owner of a path in the workspace, and all
of them where a shared input changed. -/
theorem affected_then_select {host : Host ε} {metadata : Metadata} {ws : Workspace}
    (hparse : Workspace.parse host metadata = .ok ws) (hdetects : Detects host metadata ws.root)
    (root : Path) {changes : List Text}
    (hchanges : ∀ change ∈ changes, validChange change = true ∧ '\x00' ∉ change)
    {excluded : ExtTreeSet Text} (hexcluded : ∀ name ∈ excluded, metadata.HasMember name) :
    ∃ affected rounds selected,
      affectedPackages host ws root (ended '\x00' changes []) = .ok affected ∧
      (∀ more, rounds ≤ more →
        ws.select affected excluded more = some (.ok selected : Except (ScopeError ε) _)) ∧
      ∀ name, name ∈ selected ↔ metadata.HasBenchmark name ∧ name ∉ excluded ∧
        ((∃ change ∈ changes, IsSharedInput ws.root (root ++ components change)) ∨
          ∃ change ∈ changes, ws.root <+: root ++ components change ∧
            ∃ owner, metadata.Owns host (root ++ components change) owner ∧
              ReflTransGen (metadata.Affects host) owner name) := by
  have hparsed := Workspace.parsed_of_parse hparse
  obtain ⟨affected, hok, haffected⟩ := hparsed.ownersOf hdetects root
    (fun change hchange => (hchanges change hchange).1) ∅
  have hmembers : ∀ owners, affected = some owners → ∀ name ∈ owners,
      metadata.HasMember name := by
    rintro owners rfl name hname
    rcases (haffected.2 name).mp hname with hname | ⟨change, -, -, howns⟩
    · exact absurd hname ExtTreeSet.not_mem_empty
    · obtain ⟨package, hpackage, hname, -⟩ := howns
      exact ⟨package, hpackage, hname⟩
  obtain ⟨rounds, selected, hselect, hmem⟩ := hparsed.select hmembers hexcluded
  refine ⟨affected, rounds, selected, ?_, hselect, fun name => ?_⟩
  · unfold affectedPackages
    rw [splitTerminator_ended fun change hchange => (hchanges change hchange).2, hok, if_neg]
    rw [Bool.and_eq_true, Bool.not_eq_true', List.isEmpty_eq_false_iff, decide_eq_true_eq]
    rintro ⟨hnonempty, hlast⟩
    refine hlast (getLast?_ended ?_)
    rintro rfl
    exact hnonempty rfl
  · rw [hmem]
    refine and_congr_right fun _ => and_congr_right fun _ => ?_
    cases affected with
    | none => exact iff_of_true (by rintro _ ⟨⟩) (.inl haffected)
    | some owners =>
      obtain ⟨hunshared, howners⟩ := haffected
      constructor
      · intro hall
        obtain ⟨owner, howner, hreach⟩ := hall owners rfl
        rcases (howners owner).mp howner with hempty | ⟨change, hchange, hinside, howns⟩
        · exact absurd hempty ExtTreeSet.not_mem_empty
        · exact .inr ⟨change, hchange, hinside, owner, howns, hreach⟩
      · rintro (⟨change, hchange, hshared⟩ | ⟨change, hchange, hinside, owner, howns, hreach⟩)
        · exact absurd hshared (hunshared change hchange)
        · rintro _ ⟨⟩
          exact ⟨owner, (howners owner).mpr (.inr ⟨change, hchange, hinside, howns⟩), hreach⟩

/-- Every directory exists, and its last component is the name of a package. -/
def plainHost : Host Unit where
  directory path := .ok path
  package _ directory := .ok directory.getLast?

def benchmarked (name : String) (dependencies : List (Option Path)) : Package where
  id := name.toList
  name := name.toList
  manifestPath := [name.toList, "Cargo.toml".toList]
  targets := [["lib".toList], ["bench".toList]]
  dependencies := dependencies

def workspaceOf (root : Path) (packages : List Package) : Metadata where
  workspaceRoot := root
  workspaceMembers := packages.map Package.id
  packages := packages

/-- Every package is in a directory of its name. -/
def InNamed (metadata : Metadata) : Prop :=
  ∀ package ∈ metadata.members, package.manifestPath = [package.name, "Cargo.toml".toList]

theorem directoryOf_plainHost {metadata : Metadata} (h : InNamed metadata) {package : Package}
    (hpackage : package ∈ metadata.members) {directory : Path} :
    DirectoryOf plainHost package directory ↔ directory = [package.name] := by
  unfold DirectoryOf
  rw [h package hpackage]
  constructor
  · rintro ⟨above, habove, hdirectory⟩
    cases habove
    cases hdirectory
    rfl
  · rintro rfl
    exact ⟨_, rfl, rfl⟩

theorem detects_plainHost {metadata : Metadata} (h : InNamed metadata) (root : Path) :
    Detects plainHost metadata root := by
  intro package hpackage directory hdirectory
  obtain rfl := (directoryOf_plainHost h hpackage).mp hdirectory
  exact .inl rfl

theorem owns_plainHost {metadata : Metadata} (h : InNamed metadata) {package : Package}
    (hpackage : package ∈ metadata.members) (rest : Path) :
    metadata.Owns plainHost (package.name :: rest) package.name := by
  refine ⟨package, hpackage, rfl, [package.name], (directoryOf_plainHost h hpackage).mpr rfl,
    List.prefix_append [package.name] rest, fun other hother d hd _ => ?_⟩
  rw [(directoryOf_plainHost h hother).mp hd]
  exact Nat.le_refl _

/-- Two benchmarks that depend on each other. -/
def cyclic : Metadata :=
  workspaceOf [] [benchmarked "a" [some ["b".toList]], benchmarked "b" [none, some ["a".toList]]]

theorem scope_cyclic : ∃ ws affected rounds selected,
    Workspace.parse plainHost cyclic = .ok ws ∧
    affectedPackages plainHost ws [] (ended '\x00' ["a/lib.rs".toList] []) = .ok affected ∧
    (∀ more, rounds ≤ more →
      ws.select affected ∅ more = some (.ok selected : Except (ScopeError Unit) _)) ∧
    "b".toList ∈ selected := by
  have hnamed : InNamed cyclic := by
    show ∀ package ∈ [benchmarked "a" _, benchmarked "b" _], _
    simp [benchmarked]
  have hfirst : benchmarked "a" [some ["b".toList]] ∈ cyclic.members := List.mem_cons_self ..
  have hsecond : benchmarked "b" [none, some ["a".toList]] ∈ cyclic.members :=
    List.mem_cons_of_mem _ (List.mem_cons_self ..)
  obtain ⟨ws, hparse⟩ : ∃ ws, Workspace.parse plainHost cyclic = .ok ws := ⟨_, rfl⟩
  obtain ⟨affected, rounds, selected, hok, hselect, hmem⟩ :=
    affected_then_select hparse (detects_plainHost hnamed _) []
      (show ∀ change ∈ ["a/lib.rs".toList], validChange change = true ∧ '\x00' ∉ change by decide)
      (fun name (hname : name ∈ (∅ : ExtTreeSet Text)) => absurd hname ExtTreeSet.not_mem_empty)
  refine ⟨ws, affected, rounds, selected, hparse, hok, hselect, (hmem _).mpr
    ⟨⟨_, hsecond, rfl, rfl⟩, ExtTreeSet.not_mem_empty, .inr ⟨_, List.mem_singleton_self _, ?_⟩⟩⟩
  refine ⟨?_, "a".toList, owns_plainHost hnamed hfirst ["lib.rs".toList], .single ?_⟩
  · cases hparse
    exact List.nil_prefix
  · exact ⟨_, hsecond, rfl, ["a".toList], ["a".toList],
      List.mem_cons_of_mem _ (List.mem_cons_self ..), rfl, _, hfirst,
      (directoryOf_plainHost hnamed hfirst).mpr rfl, rfl⟩

/-- A benchmark that is a member of a workspace beside it. -/
def beside : Metadata := workspaceOf ["ws".toList] [benchmarked "a" []]

theorem scope_beside : ∃ ws affected selected,
    Workspace.parse plainHost beside = .ok ws ∧ Detects plainHost beside ws.root ∧
    affectedPackages plainHost ws [] (ended '\x00' ["a/lib.rs".toList] []) = .ok affected ∧
    (∀ more, 0 < more →
      ws.select affected ∅ more = some (.ok selected : Except (ScopeError Unit) _)) ∧
    beside.HasBenchmark "a".toList ∧
    beside.Owns plainHost (components "a/lib.rs".toList) "a".toList ∧
    "a".toList ∉ selected := by
  have hnamed : InNamed beside := by
    show ∀ package ∈ [benchmarked "a" _], _
    simp [benchmarked]
  have hmember : benchmarked "a" [] ∈ beside.members := List.mem_cons_self ..
  refine ⟨_, some ∅, ∅, rfl, detects_plainHost hnamed _, rfl, fun more hmore => ?_,
    ⟨_, hmember, rfl, rfl⟩, owns_plainHost hnamed hmember ["lib.rs".toList],
    ExtTreeSet.not_mem_empty⟩
  obtain ⟨more, rfl⟩ := Nat.exists_eq_succ_of_ne_zero (Nat.pos_iff_ne_zero.mp hmore)
  rfl

end Folo.HistoryGithub
