import Folo.ReleasePlan.Manifests
import Folo.ReleasePlan.Plans

/-!
# Applying a plan

`compute_edits` of `crp_versioning/apply.rs`: the rewritten manifests of a
workspace. What a path stands for on the file system is a parameter, and notes
and comments are left out.
-/

namespace Folo.ReleasePlan

open Folo.Lib Std

/-! ## Paths -/

/-- `std::path::Component`. -/
inductive Component
  | pathPrefix (text : Text)
  | rootDir
  | curDir
  | parentDir
  | normal (text : Text)
  deriving DecidableEq

abbrev Path := List Component

/-- How texts are taken for paths, and what paths stand for. -/
structure FileSystem where
  components : Text → Path
  canonicalize : Path → Option Path

/-- `Path::join`. -/
def FileSystem.join (fs : FileSystem) (base : Path) (text : Text) : Path :=
  match fs.components text with
  | .rootDir :: rest => .rootDir :: rest
  | .pathPrefix p :: rest => .pathPrefix p :: rest
  | relative => base ++ relative

/-- `PathBuf::pop`, of a path with neither `.` nor `..` in it. -/
def popPath (path : Path) : Path :=
  match path.getLast? with
  | some (.normal _) => path.dropLast
  | _ => path

def normalizeLexically (path : Path) : Path :=
  path.foldl (fun normalized component =>
    match component with
    | .curDir => normalized
    | .parentDir => popPath normalized
    | other => normalized ++ [other]) []

/-- The manifest of a directory. -/
def manifestPath (dir : Path) : Path := dir ++ [.normal "Cargo.toml".toList]

structure DepTargets where
  manifestDir : Path
  membersByDir : List (Path × Text)

/-- The member at a directory. -/
def memberAt (members : List (Path × Text)) (dir : Path) : Option Text :=
  (members.find? fun member => member.1 == dir).map Prod.snd

def DepTargets.declares (targets : DepTargets) (fs : FileSystem) (depPath packageName : Text) :
    Bool :=
  let joined := fs.join targets.manifestDir depPath
  match memberAt targets.membersByDir (normalizeLexically joined) with
  | some declared => declared == packageName
  | none =>
    match fs.canonicalize joined with
    | none => false
    | some resolved =>
      targets.membersByDir.any fun member =>
        member.2 == packageName && fs.canonicalize member.1 == some resolved

/-! ## The rewritten entries -/

abbrev ResolvedVersions := ExtTreeMap Text Version

def depPath (entry : Item) : Option Text :=
  match entry with
  | .inlineTable table | .table table => (Entries.get table "path".toList).bind Item.asStr
  | _ => none

def depPackageName (entry : Item) (tableKey : Text) : Text :=
  (match entry with
    | .inlineTable table | .table table => (Entries.get table "package".toList).bind Item.asStr
    | _ => none).getD tableKey

def plannedVersion (fs : FileSystem) (targets : DepTargets) (resolved : ResolvedVersions)
    (entry : Item) (tableKey : Text) : Option Version :=
  match depPath entry with
  | none => none
  | some path =>
    match resolved[depPackageName entry tableKey]? with
    | none => none
    | some newVersion =>
      if targets.declares fs path (depPackageName entry tableKey) then some newVersion else none

/-- A requirement that is a string is rewritten. -/
def rewriteReqItem (newVersion : Version) : Item → Item
  | .string old => .string (rewriteReq old newVersion)
  | item => item

def rewriteDepEntry (newVersion : Version) : Item → Item
  | .string old => .string (rewriteReq old newVersion)
  | .inlineTable table =>
    .inlineTable (Entries.modify table "version".toList (rewriteReqItem newVersion))
  | .table table => .table (Entries.modify table "version".toList (rewriteReqItem newVersion))
  | item => item

/-- One round of `rewrite_dep_table`. -/
def rewriteEntry (fs : FileSystem) (targets : DepTargets) (resolved : ResolvedVersions)
    (key : Text) (entry : Item) : Item :=
  match plannedVersion fs targets resolved entry key with
  | none => entry
  | some newVersion => rewriteDepEntry newVersion entry

def rewriteDepTable (fs : FileSystem) (targets : DepTargets) (resolved : ResolvedVersions)
    (table : Entries) : Entries :=
  table.map fun entry => (entry.1, rewriteEntry fs targets resolved entry.1 entry.2)

/-! ## The rewritten manifests -/

def packageName (doc : Entries) : Option Text :=
  ((doc.get "package".toList).bind Item.asTableLike).bind fun package =>
    (package.get "name".toList).bind Item.asStr

def setPackageVersionItem (newVersion : Version) (item : Item) : Item :=
  match item with
  | .string _ => .string newVersion.display
  | item => if isWorkspaceInherit item then .string newVersion.display else item

def rewritePackageVersion (resolved : ResolvedVersions) (doc : Entries) : Entries :=
  match packageName doc with
  | none => doc
  | some name =>
    match resolved[name]? with
    | none => doc
    | some newVersion =>
      doc.modify "package".toList (Item.mapTableLike fun package =>
        package.modify "version".toList (setPackageVersionItem newVersion))

def rewriteWorkspaceDependencies (fs : FileSystem) (targets : DepTargets)
    (resolved : ResolvedVersions) (doc : Entries) : Entries :=
  doc.modify "workspace".toList (Item.mapTableLike fun workspace =>
    workspace.modify "dependencies".toList
      (Item.mapTableLike (rewriteDepTable fs targets resolved)))

/-- The dependency tables of a document, or of one target of it. -/
def rewriteTables (rewrite : Entries → Entries) (table : Entries) : Entries :=
  dependencyTables.foldl (fun table canonical =>
    match dependencyTableName table canonical with
    | none => table
    | some name => table.modify name (Item.mapTableLike rewrite)) table

def rewriteDependencyTables (fs : FileSystem) (targets : DepTargets) (resolved : ResolvedVersions)
    (doc : Entries) : Entries :=
  let rewrite := rewriteTables (rewriteDepTable fs targets resolved)
  (rewrite doc).modify "target".toList (Item.mapTableLike fun target =>
    target.map fun spec => (spec.1, spec.2.mapTableLike rewrite))

/-! ## The workspace -/

variable {ε : Type}

/-- What of a work tree is read, as `cargo metadata` reports it. -/
structure WorkTree (ε : Type) where
  workspaceRoot : Path
  membersByDir : List (Path × Text)
  /-- the members that Git tracks, which are those that a plan may set -/
  tracked : Path → Bool
  read : Path → Except ε Entries
  dirsNodup : (membersByDir.map Prod.fst).Nodup
  namesNodup : (membersByDir.map Prod.snd).Nodup
  named : ∀ dir name, (dir, name) ∈ membersByDir → ∀ doc, read (manifestPath dir) = .ok doc →
    packageName doc = some name

/-- The version of an identity: the package's own, or the shared one. -/
def packageVersion (semver : SemverCrate) (root doc : Entries) : Option Version :=
  ((((doc.get "package".toList).bind Item.asTableLike).bind fun package =>
    package.get "version".toList).bind fun item =>
      if isWorkspaceInherit item then
        (((root.get "workspace".toList).bind Item.asTableLike).bind fun workspace =>
          ((workspace.get "package".toList).bind Item.asTableLike).bind fun package =>
            package.get "version".toList).bind Item.asStr
      else item.asStr).bind semver.parse

namespace WorkTree

def memberManifests (tree : WorkTree ε) : List Path :=
  tree.membersByDir.map fun member => manifestPath member.1

/-- The version that the member at a directory declares, if it is a target. -/
def targetVersion (tree : WorkTree ε) (semver : SemverCrate) (dir : Path) : Option Version :=
  if tree.tracked dir then
    match tree.read (manifestPath tree.workspaceRoot), tree.read (manifestPath dir) with
    | .ok root, .ok doc => packageVersion semver root doc
    | _, _ => none
  else none

def targetVersions (tree : WorkTree ε) (semver : SemverCrate) : ExtTreeMap Text Version :=
  (tree.membersByDir.filterMap fun member =>
    (tree.targetVersion semver member.1).map fun version => (member.2, version)).foldl
      (fun m target => m.insert target.1 target.2) ∅

end WorkTree

structure ManifestEdit where
  path : Path
  original : Entries
  updated : Entries

/-- `edit_manifest` of a file that is read. -/
def editManifest (tree : WorkTree ε) (path : Path) (rewrite : Entries → Entries) :
    Except ε ManifestEdit :=
  (tree.read path).map fun original => { path, original, updated := rewrite original }

/-- What becomes of the root manifest. -/
def rewriteRoot (fs : FileSystem) (tree : WorkTree ε) (resolved : ResolvedVersions)
    (doc : Entries) : Entries :=
  let targets : DepTargets :=
    { manifestDir := tree.workspaceRoot, membersByDir := tree.membersByDir }
  rewriteDependencyTables fs targets resolved
    (rewritePackageVersion resolved (rewriteWorkspaceDependencies fs targets resolved doc))

/-- What becomes of the manifest of another member. -/
def rewriteMember (fs : FileSystem) (tree : WorkTree ε) (resolved : ResolvedVersions)
    (path : Path) (doc : Entries) : Entries :=
  let targets : DepTargets :=
    { manifestDir := path.dropLast, membersByDir := tree.membersByDir }
  rewriteDependencyTables fs targets resolved (rewritePackageVersion resolved doc)

/-- The edits of the manifests that are not among the seen ones. -/
def memberEdits (fs : FileSystem) (tree : WorkTree ε) (resolved : ResolvedVersions) :
    List Path → List Path → Except ε (List ManifestEdit)
  | _, [] => .ok []
  | seen, path :: paths =>
    if path ∈ seen then memberEdits fs tree resolved seen paths
    else do
      let edit ← editManifest tree path (rewriteMember fs tree resolved path)
      let edits ← memberEdits fs tree resolved (path :: seen) paths
      pure (edit :: edits)

def computeEdits (fs : FileSystem) (tree : WorkTree ε) (resolved : ResolvedVersions) :
    Except ε (List ManifestEdit) := do
  let root := manifestPath tree.workspaceRoot
  let rootEdit ← editManifest tree root (rewriteRoot fs tree resolved)
  let edits ← memberEdits fs tree resolved [root] tree.memberManifests
  pure (rootEdit :: edits)

/-- The manifest at a path once the edits are written. -/
def readEdited (tree : WorkTree ε) (edits : List ManifestEdit) (path : Path) : Except ε Entries :=
  match edits.find? fun edit => edit.path == path with
  | some edit => .ok edit.updated
  | none => tree.read path

end Folo.ReleasePlan
