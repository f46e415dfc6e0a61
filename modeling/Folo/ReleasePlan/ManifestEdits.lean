import Folo.Lib.Texts
import Folo.ReleasePlan.Agreement
import Folo.ReleasePlan.Places

/-!
# What the edits change

A rewritten manifest is the original with the version of a planned package and
the requirements on planned members rewritten, and everything else as it was
(`Rewritten`). The rewriting is one pass over the entries of the document
(`rewriteManifest_eq`), and a second pass finds nothing to do
(`rewriteManifest_idem`).
-/

namespace Folo.ReleasePlan

open Folo.Lib Std

variable {ε : Type}

/-! ## One pass over a document -/

/-- What of a document's top level is rewritten, by its keys. -/
def rewriteItem (isRoot : Bool) (fs : FileSystem) (targets : DepTargets)
    (resolved : ResolvedVersions) (doc : Entries) (key : Text) (item : Item) : Item :=
  let rewrite := rewriteDepTable fs targets resolved
  if key = "workspace".toList then
    if isRoot then item.mapTableLike fun workspace =>
      workspace.modify "dependencies".toList (Item.mapTableLike rewrite)
    else item
  else if key = "package".toList then
    match (packageName doc).bind (resolved[·]?) with
    | none => item
    | some newVersion => item.mapTableLike fun package =>
        package.modify "version".toList (setPackageVersionItem newVersion)
  else if key = "target".toList then item.mapTableLike fun target =>
    target.mapItems fun _ spec => spec.mapTableLike (rewriteTables rewrite)
  else if key ∈ tableNames doc then item.mapTableLike rewrite
  else item

theorem foldl_modify_eq_mapItems (f : Item → Item) {names : List Text} (hnodup : names.Nodup)
    (table : Entries) : names.foldl (fun t n => t.modify n f) table =
      table.mapItems fun key item => if key ∈ names then f item else item := by
  induction names generalizing table with
  | nil => exact (List.map_id' table).symm
  | cons first names ih =>
    obtain ⟨hnotin, hnodup⟩ := List.nodup_cons.mp hnodup
    rw [List.foldl_cons, ih hnodup, Entries.modify_eq_mapItems, Entries.mapItems_mapItems]
    refine Entries.mapItems_congr fun entry _ => ?_
    by_cases hfirst : entry.1 = first
    · rw [hfirst, if_pos rfl, if_neg hnotin, if_pos (List.mem_cons_self ..)]
    · rw [if_neg hfirst]
      simp only [List.mem_cons, hfirst, false_or]

theorem rewriteTables_eq_mapItems (f : Entries → Entries) (table : Entries) :
    rewriteTables f table = table.mapItems fun key item =>
      if key ∈ tableNames table then item.mapTableLike f else item := by
  rw [rewriteTables_eq]
  exact foldl_modify_eq_mapItems _ (tableNames_nodup table) table

theorem rewritePackageVersion_eq_mapItems (resolved : ResolvedVersions) (doc : Entries) :
    rewritePackageVersion resolved doc = doc.mapItems fun key item =>
      if key = "package".toList then
        match (packageName doc).bind (resolved[·]?) with
        | none => item
        | some newVersion => item.mapTableLike fun package =>
            package.modify "version".toList (setPackageVersionItem newVersion)
      else item := by
  have hsame : doc = doc.mapItems fun _ item => item := (List.map_id' doc).symm
  unfold rewritePackageVersion
  cases packageName doc with
  | none =>
    refine hsame.trans (Entries.mapItems_congr fun entry _ => ?_)
    split <;> rfl
  | some name =>
    simp only [Option.bind_some]
    cases resolved[name]? with
    | none =>
      refine hsame.trans (Entries.mapItems_congr fun entry _ => ?_)
      split <;> rfl
    | some newVersion => exact Entries.modify_eq_mapItems ..

theorem rewriteDependencyTables_eq_mapItems (fs : FileSystem) (targets : DepTargets)
    (resolved : ResolvedVersions) (doc : Entries) :
    rewriteDependencyTables fs targets resolved doc = doc.mapItems fun key item =>
      if key = "target".toList then item.mapTableLike fun target =>
        target.mapItems fun _ spec =>
          spec.mapTableLike (rewriteTables (rewriteDepTable fs targets resolved))
      else if key ∈ tableNames doc then
        item.mapTableLike (rewriteDepTable fs targets resolved)
      else item := by
  unfold rewriteDependencyTables
  simp only
  rw [rewriteTables_eq_mapItems, Entries.modify_eq_mapItems, Entries.mapItems_mapItems]
  refine Entries.mapItems_congr fun entry _ => ?_
  by_cases htarget : entry.1 = "target".toList
  · have hnot : entry.1 ∉ tableNames doc := fun hin =>
      ne_of_mem_tableNames hin (by decide) htarget
    rw [if_pos htarget, if_neg hnot, if_pos htarget]
    rfl
  · rw [if_neg htarget, if_neg htarget]

/-- Where the paths of a manifest begin, and the members. -/
def WorkTree.depTargets (tree : WorkTree ε) (dir : Path) : DepTargets where
  manifestDir := dir
  membersByDir := tree.membersByDir

theorem rewriteItem_congr {isRoot : Bool} {fs : FileSystem} {targets : DepTargets}
    {resolved : ResolvedVersions} {doc doc' : Entries} (hname : packageName doc' = packageName doc)
    (htables : tableNames doc' = tableNames doc) :
    rewriteItem isRoot fs targets resolved doc' = rewriteItem isRoot fs targets resolved doc := by
  unfold rewriteItem
  rw [hname, htables]

/-- The pass over a document whose shared dependencies are let be. -/
theorem rewriteDependencyTables_rewritePackageVersion (fs : FileSystem) (targets : DepTargets)
    (resolved : ResolvedVersions) (doc : Entries) :
    rewriteDependencyTables fs targets resolved (rewritePackageVersion resolved doc) =
      doc.mapItems (rewriteItem false fs targets resolved doc) := by
  rw [rewriteDependencyTables_eq_mapItems, tableNames_rewritePackageVersion,
    rewritePackageVersion_eq_mapItems, Entries.mapItems_mapItems]
  refine Entries.mapItems_congr fun entry _ => ?_
  have hother : ∀ name : Text, name ∉ dependencyTables.flatMap spellings → entry.1 = name →
      entry.1 ∉ tableNames doc := fun name hname heq hin => ne_of_mem_tableNames hin hname heq
  unfold rewriteItem
  by_cases hworkspace : entry.1 = "workspace".toList
  · have hnot := hother _ (by decide) hworkspace
    rw [if_pos hworkspace, if_neg hnot, if_neg (by rw [hworkspace]; decide),
      if_neg (by rw [hworkspace]; decide)]
    rfl
  by_cases hpackage : entry.1 = "package".toList
  · have hnot := hother _ (by decide) hpackage
    rw [if_neg hworkspace, if_pos hpackage, if_pos hpackage, if_neg hnot,
      if_neg (by rw [hpackage]; decide)]
  · rw [if_neg hworkspace, if_neg hpackage, if_neg hpackage]

theorem rewriteRoot_eq (fs : FileSystem) (tree : WorkTree ε) (resolved : ResolvedVersions)
    (doc : Entries) :
    rewriteRoot fs tree resolved doc = doc.mapItems
      (rewriteItem true fs (tree.depTargets tree.workspaceRoot) resolved doc) := by
  let targets := tree.depTargets tree.workspaceRoot
  have hworkspace : rewriteWorkspaceDependencies fs targets resolved doc =
      doc.mapItems fun key item =>
        if key = "workspace".toList then item.mapTableLike fun workspace =>
          workspace.modify "dependencies".toList
            (Item.mapTableLike (rewriteDepTable fs targets resolved))
        else item := Entries.modify_eq_mapItems ..
  have hname : packageName (rewriteWorkspaceDependencies fs targets resolved doc) =
      packageName doc := by
    show (Entries.tableAt _ "package".toList).bind _ = _
    unfold rewriteWorkspaceDependencies
    rw [tableAt_modify_ne _ (by decide)]
    rfl
  have htables : tableNames (rewriteWorkspaceDependencies fs targets resolved doc) =
      tableNames doc := tableNames_modify ..
  show rewriteDependencyTables fs targets resolved (rewritePackageVersion resolved
    (rewriteWorkspaceDependencies fs targets resolved doc)) = _
  rw [rewriteDependencyTables_rewritePackageVersion, rewriteItem_congr hname htables, hworkspace,
    Entries.mapItems_mapItems]
  refine Entries.mapItems_congr fun entry _ => ?_
  unfold rewriteItem
  by_cases heq : entry.1 = "workspace".toList
  · rw [if_pos heq, if_pos heq, if_pos heq]
    rfl
  · rw [if_neg heq, if_neg heq, if_neg heq]

theorem rewriteManifest_eq (fs : FileSystem) (tree : WorkTree ε) (resolved : ResolvedVersions)
    (dir : Path) (doc : Entries) :
    rewriteManifest fs tree resolved dir doc = doc.mapItems
      (rewriteItem (dir = tree.workspaceRoot) fs (tree.depTargets dir) resolved doc) := by
  unfold rewriteManifest
  by_cases hroot : dir = tree.workspaceRoot
  · rw [if_pos hroot, decide_eq_true hroot, hroot]
    exact rewriteRoot_eq fs tree resolved doc
  · rw [if_neg hroot, decide_eq_false hroot]
    have hdir : (manifestPath dir).dropLast = dir := List.dropLast_concat
    unfold rewriteMember
    simp only
    rw [hdir]
    exact rewriteDependencyTables_rewritePackageVersion fs (tree.depTargets dir) resolved doc

theorem tableNames_mapItems (g : Text → Item → Item) (table : Entries) :
    tableNames (table.mapItems g) = tableNames table := by
  have hcontains : ∀ key, (table.mapItems g).containsKey key = table.containsKey key := fun key => by
    unfold Entries.containsKey
    rw [Entries.get_mapItems]
    exact Option.isSome_map
  unfold tableNames dependencyTableName
  simp only [hcontains]

/-! ## A second pass -/

theorem rewriteReq_idem (old : Text) (v : Version) :
    rewriteReq (rewriteReq old v) v = rewriteReq old v :=
  if_pos (requirementNamesVersion_rewriteReq old v)

theorem rewriteReqItem_idem (v : Version) (item : Item) :
    rewriteReqItem v (rewriteReqItem v item) = rewriteReqItem v item := by
  cases item with
  | string old => exact congrArg Item.string (rewriteReq_idem old v)
  | boolean value => rfl
  | inlineTable entries => rfl
  | table entries => rfl
  | other => rfl

theorem rewriteDepEntry_idem (v : Version) (item : Item) :
    rewriteDepEntry v (rewriteDepEntry v item) = rewriteDepEntry v item := by
  have hmodify := Entries.modify_idem (rewriteReqItem_idem v) "version".toList
  cases item with
  | string old => exact congrArg Item.string (rewriteReq_idem old v)
  | boolean value => rfl
  | inlineTable entries => exact congrArg Item.inlineTable (hmodify entries)
  | table entries => exact congrArg Item.table (hmodify entries)
  | other => rfl

theorem plannedVersion_congr (fs : FileSystem) (targets : DepTargets) (resolved : ResolvedVersions)
    {item item' : Item} {key : Text} (hpath : depPath item' = depPath item)
    (hpackage : depPackageName item' key = depPackageName item key) :
    plannedVersion fs targets resolved item' key = plannedVersion fs targets resolved item key := by
  unfold plannedVersion
  rw [hpath, hpackage]

theorem rewriteEntry_idem (fs : FileSystem) (targets : DepTargets) (resolved : ResolvedVersions)
    (key : Text) (item : Item) :
    rewriteEntry fs targets resolved key (rewriteEntry fs targets resolved key item) =
      rewriteEntry fs targets resolved key item := by
  obtain ⟨hpath, hpackage⟩ := sameTarget_rewriteEntry fs targets resolved key item
  have hversion := plannedVersion_congr fs targets resolved hpath hpackage
  unfold rewriteEntry at hversion ⊢
  cases hplanned : plannedVersion fs targets resolved item key with
  | none => simp only [hplanned]
  | some v =>
    simp only [hplanned] at hversion ⊢
    rw [hversion]
    exact rewriteDepEntry_idem v item

theorem rewriteDepTable_idem (fs : FileSystem) (targets : DepTargets) (resolved : ResolvedVersions)
    (table : Entries) :
    rewriteDepTable fs targets resolved (rewriteDepTable fs targets resolved table) =
      rewriteDepTable fs targets resolved table :=
  Entries.mapItems_idem (rewriteEntry_idem fs targets resolved) table

theorem rewriteTables_idem {f : Entries → Entries} (h : ∀ table, f (f table) = f table)
    (table : Entries) : rewriteTables f (rewriteTables f table) = rewriteTables f table := by
  rw [rewriteTables_eq_mapItems f (rewriteTables f table), tableNames_rewriteTables,
    rewriteTables_eq_mapItems f table]
  refine Entries.mapItems_idem (fun key item => ?_) table
  split
  · exact Item.mapTableLike_idem h item
  · rfl

/-- A version becomes the planned one or stays as it is. -/
theorem setPackageVersionItem_cases (v : Version) (item : Item) :
    setPackageVersionItem v item = .string v.display ∨ setPackageVersionItem v item = item := by
  unfold setPackageVersionItem
  split
  · exact .inl rfl
  · split
    · exact .inl rfl
    · exact .inr rfl

theorem setPackageVersionItem_idem (v : Version) (item : Item) :
    setPackageVersionItem v (setPackageVersionItem v item) = setPackageVersionItem v item := by
  rcases setPackageVersionItem_cases v item with h | h
  · rw [h]
    rfl
  · rw [h, h]

theorem rewriteItem_idem (isRoot : Bool) (fs : FileSystem) (targets : DepTargets)
    (resolved : ResolvedVersions) (doc : Entries) (key : Text) (item : Item) :
    rewriteItem isRoot fs targets resolved doc key
        (rewriteItem isRoot fs targets resolved doc key item) =
      rewriteItem isRoot fs targets resolved doc key item := by
  have htable := rewriteDepTable_idem fs targets resolved
  unfold rewriteItem
  by_cases hworkspace : key = "workspace".toList
  · rw [if_pos hworkspace, if_pos hworkspace]
    split
    · exact Item.mapTableLike_idem (Entries.modify_idem (Item.mapTableLike_idem htable) _) item
    · rfl
  by_cases hpackage : key = "package".toList
  · rw [if_neg hworkspace, if_pos hpackage, if_neg hworkspace, if_pos hpackage]
    cases (packageName doc).bind (resolved[·]?) with
    | none => rfl
    | some v =>
      exact Item.mapTableLike_idem (Entries.modify_idem (setPackageVersionItem_idem v) _) item
  by_cases htarget : key = "target".toList
  · rw [if_neg hworkspace, if_neg hpackage, if_pos htarget, if_neg hworkspace, if_neg hpackage,
      if_pos htarget]
    exact Item.mapTableLike_idem (Entries.mapItems_idem fun _ =>
      Item.mapTableLike_idem (rewriteTables_idem htable)) item
  · rw [if_neg hworkspace, if_neg hpackage, if_neg htarget, if_neg hworkspace, if_neg hpackage,
      if_neg htarget]
    split
    · exact Item.mapTableLike_idem htable item
    · rfl

/-- What was rewritten stays as it is. -/
theorem rewriteManifest_idem (fs : FileSystem) (tree : WorkTree ε) (resolved : ResolvedVersions)
    (dir : Path) (doc : Entries) :
    rewriteManifest fs tree resolved dir (rewriteManifest fs tree resolved dir doc) =
      rewriteManifest fs tree resolved dir doc := by
  have htables : tableNames (rewriteManifest fs tree resolved dir doc) = tableNames doc := by
    rw [rewriteManifest_eq, tableNames_mapItems]
  rw [rewriteManifest_eq fs tree resolved dir (rewriteManifest fs tree resolved dir doc),
    rewriteItem_congr (packageName_rewriteManifest ..) htables, rewriteManifest_eq]
  exact Entries.mapItems_idem (rewriteItem_idem _ fs _ resolved doc) doc

/-! ## What is changed -/

/-- Where the dependency tables are that Cargo reads. -/
inductive DependencyTable (isRoot : Bool) (doc : Entries) : List Text → Prop
  | shared (hroot : isRoot = true) :
      DependencyTable isRoot doc ["workspace".toList, "dependencies".toList]
  | own {name : Text} (hname : name ∈ tableNames doc) : DependencyTable isRoot doc [name]
  | target {spec name : Text} {item : Item} {table : Entries}
      (hspec : doc.at ["target".toList, spec] = some item) (htable : item.asTableLike = some table)
      (hname : name ∈ tableNames table) :
      DependencyTable isRoot doc ["target".toList, spec, name]

/-- The entry is on the planned package, by a path to its member directory. -/
structure PlannedEntry (fs : FileSystem) (targets : DepTargets) (resolved : ResolvedVersions)
    (key : Text) (entry : Item) (v : Version) : Prop where
  planned : resolved[depPackageName entry key]? = some v
  path : ∃ path dir, depPath entry = some path ∧
    (dir, depPackageName entry key) ∈ targets.membersByDir ∧
    PointsTo fs targets.membersByDir targets.manifestDir path dir

/-- A requirement on a planned package, in a table that Cargo reads. -/
structure PlannedRequirement (isRoot : Bool) (fs : FileSystem) (targets : DepTargets)
    (resolved : ResolvedVersions) (doc : Entries) (place : List Text) (old : Text) (v : Version) :
    Prop where
  entry : ∃ table key entry, DependencyTable isRoot doc table ∧
    place = table ++ [key, "version".toList] ∧ doc.at (table ++ [key]) = some entry ∧
    PlannedEntry fs targets resolved key entry v
  text : doc.at place = some (.string old)

/-- The version of a planned package, its own or inherited. -/
structure PlannedPackage (resolved : ResolvedVersions) (doc : Entries) (v : Version) : Prop where
  planned : ∃ name, packageName doc = some name ∧ resolved[name]? = some v
  item : ∃ item, doc.at ["package".toList, "version".toList] = some item ∧
    ((∃ old, item = .string old) ∨ isWorkspaceInherit item = true)

/-- An exact pin. -/
def IsPin (requirement : Text) : Prop := ['='] <+: trim requirement

/-- The new manifest is the old one with the planned versions. -/
structure Rewritten (isRoot : Bool) (fs : FileSystem) (targets : DepTargets)
    (resolved : ResolvedVersions) (doc doc' : Entries) : Prop where
  version : ∀ v, PlannedPackage resolved doc v →
    doc'.at ["package".toList, "version".toList] = some (.string v.display)
  requirement : ∀ place old v,
    PlannedRequirement isRoot fs targets resolved doc place old v →
    ∃ new, doc'.at place = some (.string new) ∧ requirementNamesVersion new v = true ∧
      (IsPin new ↔ IsPin old) ∧ (requirementNamesVersion old v = true → new = old)
  others : ∀ place,
    (¬ ∃ v, PlannedPackage resolved doc v ∧ ["package".toList, "version".toList] <+: place) →
    (¬ ∃ old v, PlannedRequirement isRoot fs targets resolved doc place old v) →
    (doc'.at place).map Item.outline = (doc.at place).map Item.outline

/-! ## Planned entries -/

theorem exists_mem_of_memberAt {members : List (Path × Text)} {dir : Path} {name : Text}
    (h : memberAt members dir = some name) : (dir, name) ∈ members := by
  obtain ⟨member, hfind, rfl⟩ := Option.map_eq_some_iff.mp h
  have hdir : member.1 = dir := beq_iff_eq.mp
    (List.find?_some (p := fun member : Path × Text => member.1 == dir) hfind)
  exact hdir ▸ List.mem_of_find?_eq_some hfind

theorem not_mem_of_memberAt_eq_none {members : List (Path × Text)} {dir : Path}
    (h : memberAt members dir = none) : dir ∉ members.map Prod.fst := by
  intro hin
  obtain ⟨member, hmem, heq⟩ := List.mem_map.mp hin
  exact List.find?_eq_none.mp (Option.map_eq_none_iff.mp h) member hmem (beq_iff_eq.mpr heq)

/-- A path that declares a member points to its directory. -/
theorem pointsTo_of_declares {fs : FileSystem} {targets : DepTargets} {path name : Text}
    (h : targets.declares fs path name = true) :
    ∃ dir, (dir, name) ∈ targets.membersByDir ∧
      PointsTo fs targets.membersByDir targets.manifestDir path dir := by
  unfold DepTargets.declares at h
  simp only at h
  split at h
  next declared hmember =>
    obtain rfl := beq_iff_eq.mp h
    exact ⟨_, exists_mem_of_memberAt hmember, .inl rfl⟩
  next hnone =>
    split at h
    next => nomatch h
    next identity hidentity =>
      obtain ⟨⟨dir, declared⟩, hmem, hboth⟩ := List.any_eq_true.mp h
      rw [Bool.and_eq_true, beq_iff_eq, beq_iff_eq] at hboth
      obtain ⟨rfl, hdir⟩ := hboth
      exact ⟨dir, hmem, .inr ⟨not_mem_of_memberAt_eq_none hnone, identity, hidentity, hdir⟩⟩

theorem plannedVersion_eq_some_iff {fs : FileSystem} {targets : DepTargets}
    (hnodup : (targets.membersByDir.map Prod.fst).Nodup) {resolved : ResolvedVersions}
    {key : Text} {entry : Item} {v : Version} :
    plannedVersion fs targets resolved entry key = some v ↔
      PlannedEntry fs targets resolved key entry v := by
  unfold plannedVersion
  constructor
  · intro h
    split at h
    next => nomatch h
    next path hpath =>
      split at h
      next => nomatch h
      next newVersion hplanned =>
        split at h
        next hdeclares =>
          obtain rfl := Option.some.inj h
          obtain ⟨dir, hmember, hpoints⟩ := pointsTo_of_declares hdeclares
          exact ⟨hplanned, path, dir, hpath, hmember, hpoints⟩
        next => nomatch h
  · intro ⟨hplanned, path, dir, hpath, hmember, hpoints⟩
    rw [hpath, hplanned]
    exact if_pos (declares_of_pointsTo hnodup hmember hpoints)

/-! ## Where the dependency tables end up -/

section Places

variable {isRoot : Bool} {fs : FileSystem} {targets : DepTargets} {resolved : ResolvedVersions}
  {doc : Entries}

theorem rewriteItem_of_mem_tableNames {name : Text} (h : name ∈ tableNames doc) (item : Item) :
    rewriteItem isRoot fs targets resolved doc name item =
      item.mapTableLike (rewriteDepTable fs targets resolved) := by
  have hne {other : Text} (hother : other ∉ dependencyTables.flatMap spellings) : name ≠ other :=
    ne_of_mem_tableNames h hother
  unfold rewriteItem
  rw [if_neg (hne (by decide)), if_neg (hne (by decide)), if_neg (hne (by decide)), if_pos h]

theorem rewriteItem_target (item : Item) :
    rewriteItem isRoot fs targets resolved doc "target".toList item =
      item.mapTableLike fun target => target.mapItems fun _ spec =>
        spec.mapTableLike (rewriteTables (rewriteDepTable fs targets resolved)) := by
  unfold rewriteItem
  rw [if_neg (by decide), if_neg (by decide), if_pos rfl]

theorem rewriteItem_package (item : Item) :
    rewriteItem isRoot fs targets resolved doc "package".toList item =
      match (packageName doc).bind (resolved[·]?) with
      | none => item
      | some newVersion => item.mapTableLike fun package =>
          package.modify "version".toList (setPackageVersionItem newVersion) := by
  unfold rewriteItem
  rw [if_neg (by decide), if_pos rfl]

theorem rewriteItem_workspace (item : Item) :
    rewriteItem isRoot fs targets resolved doc "workspace".toList item =
      if isRoot then item.mapTableLike fun workspace =>
        workspace.modify "dependencies".toList
          (Item.mapTableLike (rewriteDepTable fs targets resolved))
      else item := by
  unfold rewriteItem
  rw [if_pos rfl]

/-- The item under a key, once the table was rewritten. -/
theorem at_cons_mapTableLike (f : Entries → Entries) (item : Item) (key : Text)
    (place : List Text) :
    (item.mapTableLike f).at (key :: place) =
      (item.asTableLike.bind fun entries => (f entries).get key).bind (Item.at · place) := by
  rw [Item.at_cons, asTableLike_mapTableLike, Option.bind_map]
  rfl

theorem at_dependencyTable {table : List Text} (h : DependencyTable isRoot doc table) :
    (doc.mapItems (rewriteItem isRoot fs targets resolved doc)).at table =
      (doc.at table).map (Item.mapTableLike (rewriteDepTable fs targets resolved)) := by
  cases h with
  | shared hroot =>
    rw [Entries.at_cons, Entries.at_cons, Entries.get_mapItems]
    cases doc.get "workspace".toList with
    | none => rfl
    | some workspace =>
      rw [Option.map_some, Option.bind_some, Option.bind_some, rewriteItem_workspace, if_pos hroot,
        at_cons_mapTableLike, Item.at_cons]
      cases workspace.asTableLike with
      | none => rfl
      | some entries =>
        rw [Option.bind_some, Option.bind_some, Entries.get_modify, if_pos rfl]
        cases entries.get "dependencies".toList <;> rfl
  | own hname =>
    rw [Entries.at_singleton, Entries.at_singleton, Entries.get_mapItems]
    cases doc.get _ with
    | none => rfl
    | some item => exact congrArg some (rewriteItem_of_mem_tableNames hname item)
  | target hspec htable hname =>
    rw [Entries.at_cons] at hspec
    obtain ⟨target, htarget, hat⟩ := Option.bind_eq_some_iff.mp hspec
    rw [Item.at_cons] at hat
    obtain ⟨spec, hfound, hitem⟩ := Option.bind_eq_some_iff.mp hat
    obtain rfl := Option.some.inj hitem
    obtain ⟨entries, hentries, hget⟩ := Option.bind_eq_some_iff.mp hfound
    rw [Entries.at_cons, Entries.at_cons, Entries.get_mapItems, htarget, Option.map_some,
      Option.bind_some, Option.bind_some, rewriteItem_target, at_cons_mapTableLike, Item.at_cons,
      hentries, Option.bind_some, Option.bind_some, Entries.get_mapItems, hget, Option.map_some,
      Option.bind_some, Option.bind_some, at_cons_mapTableLike, Item.at_cons, htable,
      Option.bind_some, Option.bind_some, rewriteTables_eq_mapItems, Entries.get_mapItems]
    simp only [if_pos hname]
    cases Entries.get _ _ <;> rfl

theorem at_dependencyEntry {table : List Text} (h : DependencyTable isRoot doc table) (key : Text) :
    (doc.mapItems (rewriteItem isRoot fs targets resolved doc)).at (table ++ [key]) =
      (doc.at (table ++ [key])).map (rewriteEntry fs targets resolved key) := by
  rw [Entries.at_append, Entries.at_append, at_dependencyTable h]
  cases doc.at table with
  | none => rfl
  | some item =>
    rw [Option.map_some, Option.bind_some, Option.bind_some, at_cons_mapTableLike, Item.at_cons]
    cases item.asTableLike with
    | none => rfl
    | some entries =>
      show ((Entries.mapItems _ entries).get key).bind _ = _
      rw [Entries.get_mapItems, Option.bind_some]
      cases entries.get key <;> rfl

/-! ## What is kept -/

theorem keepsOff_rewriteReqItem {changed : List Text → Prop} {v : Version} {item : Item}
    (h : ∀ old, item = .string old → changed []) : KeepsOff changed item (rewriteReqItem v item) := by
  cases item with
  | string old =>
    intro place hplace
    cases place with
    | nil => exact absurd (h old rfl) hplace
    | cons key place => rfl
  | boolean value => exact KeepsOff.refl _ _
  | inlineTable entries => exact KeepsOff.refl _ _
  | table entries => exact KeepsOff.refl _ _
  | other => exact KeepsOff.refl _ _

theorem rewriteDepEntry_eq_mapTableLike {fs : FileSystem} {targets : DepTargets}
    {resolved : ResolvedVersions} {key : Text} {entry : Item} {v : Version}
    (h : PlannedEntry fs targets resolved key entry v) :
    rewriteDepEntry v entry = entry.mapTableLike fun table =>
      table.modify "version".toList (rewriteReqItem v) := by
  obtain ⟨path, -, hpath, -⟩ := h.path
  cases entry with
  | string old => nomatch hpath
  | boolean value => rfl
  | inlineTable entries => rfl
  | table entries => rfl
  | other => rfl

/-- Of a dependency table only the planned requirements are changed. -/
theorem keepsOff_rewriteDepTable (hnodup : (targets.membersByDir.map Prod.fst).Nodup)
    {changed : List Text → Prop}
    (hchanged : ∀ place old v,
      PlannedRequirement isRoot fs targets resolved doc place old v → changed place)
    {table : List Text} (htable : DependencyTable isRoot doc table) {item : Item}
    (hat : doc.at table = some item) :
    KeepsOff (fun place => changed (table ++ place)) item
      (item.mapTableLike (rewriteDepTable fs targets resolved)) := by
  refine keepsOff_mapTableLike (g := rewriteEntry fs targets resolved)
    fun entries key entry hentries hget => ?_
  unfold rewriteEntry
  split
  next => exact KeepsOff.refl _ _
  next v hplanned =>
    have hentry := (plannedVersion_eq_some_iff hnodup).mp hplanned
    have hplace : doc.at (table ++ [key]) = some entry := by
      rw [Entries.at_append, hat, Option.bind_some, Item.at_cons, hentries, Option.bind_some, hget]
      rfl
    rw [rewriteDepEntry_eq_mapTableLike hentry]
    refine keepsOff_modify fun fields requirement hfields hversion =>
      keepsOff_rewriteReqItem fun old hold => hchanged _ old v ⟨⟨table, key, entry, htable, rfl,
        hplace, hentry⟩, ?_⟩
    show doc.at (table ++ ([key] ++ ["version".toList])) = some (.string old)
    rw [← List.append_assoc, Entries.at_append, hplace, Option.bind_some, Item.at_cons, hfields,
      Option.bind_some, hversion, hold]
    rfl

theorem keepsOff_setPackageVersion {changed : List Text → Prop} {v : Version} {item : Item}
    (h : (∃ old, item = .string old) ∨ isWorkspaceInherit item = true → ∀ place, changed place) :
    KeepsOff changed item (setPackageVersionItem v item) := by
  unfold setPackageVersionItem
  split
  next old => exact fun place hplace => absurd (h (.inl ⟨old, rfl⟩) place) hplace
  next =>
    split
    next hinherit => exact fun place hplace => absurd (h (.inr hinherit) place) hplace
    next => exact KeepsOff.refl _ _

/-- **Nothing else is changed.** -/
theorem keepsOff_rewriteItem (hnodup : (targets.membersByDir.map Prod.fst).Nodup)
    (changed : List Text → Prop)
    (hrequirement : ∀ place old v,
      PlannedRequirement isRoot fs targets resolved doc place old v → changed place)
    (hpackage : ∀ v, PlannedPackage resolved doc v → ∀ place,
      ["package".toList, "version".toList] <+: place → changed place) :
    KeepsOff changed (.table doc)
      (.table (doc.mapItems (rewriteItem isRoot fs targets resolved doc))) := by
  refine keepsOff_mapItems fun key item hget => ?_
  by_cases hworkspaceKey : key = "workspace".toList
  · subst hworkspaceKey
    rw [rewriteItem_workspace]
    split
    next hroot =>
      refine keepsOff_modify fun entries shared hentries hshared => ?_
      refine keepsOff_rewriteDepTable hnodup hrequirement (.shared hroot) ?_
      rw [Entries.at_cons, hget, Option.bind_some, Item.at_cons, hentries, Option.bind_some,
        hshared]
      rfl
    next => exact KeepsOff.refl _ _
  by_cases hpackageKey : key = "package".toList
  · subst hpackageKey
    rw [rewriteItem_package]
    split
    next => exact KeepsOff.refl _ _
    next v hplanned =>
      obtain ⟨name, hname, hresolved⟩ := Option.bind_eq_some_iff.mp hplanned
      refine keepsOff_modify fun entries version hentries hversion =>
        keepsOff_setPackageVersion fun hitem place => ?_
      refine hpackage v ⟨⟨name, hname, hresolved⟩, version, ?_, hitem⟩ _ (List.prefix_append _ place)
      rw [Entries.at_cons, hget, Option.bind_some, Item.at_cons, hentries, Option.bind_some,
        hversion]
      rfl
  by_cases htargetKey : key = "target".toList
  · subst htargetKey
    rw [rewriteItem_target]
    refine keepsOff_mapTableLike (g := fun _ spec => spec.mapTableLike _)
      fun entries spec specItem hentries hspec => ?_
    have hplace : doc.at ["target".toList, spec] = some specItem := by
      rw [Entries.at_cons, hget, Option.bind_some, Item.at_cons, hentries, Option.bind_some, hspec]
      rfl
    cases htable : specItem.asTableLike with
    | none =>
      rw [Item.mapTableLike_eq_self htable]
      exact KeepsOff.refl _ _
    | some table =>
      rw [Item.mapTableLike_congr htable (rewriteTables_eq_mapItems _ table)]
      refine keepsOff_mapTableLike (g := fun name item => if name ∈ tableNames table then _ else _)
        fun entries' name sub hsame hname => ?_
      split
      next hin =>
        refine keepsOff_rewriteDepTable hnodup hrequirement (.target hplace htable hin) ?_
        obtain rfl := Option.some.inj (htable.symm.trans hsame)
        show doc.at (["target".toList, spec] ++ [name]) = some sub
        rw [Entries.at_append, hplace, Option.bind_some, Item.at_cons, htable, Option.bind_some,
          hname]
        rfl
      next => exact KeepsOff.refl _ _
  · by_cases htableKey : key ∈ tableNames doc
    · rw [rewriteItem_of_mem_tableNames htableKey]
      refine keepsOff_rewriteDepTable hnodup hrequirement (.own htableKey) ?_
      rw [Entries.at_singleton, hget]
    · unfold rewriteItem
      rw [if_neg hworkspaceKey, if_neg hpackageKey, if_neg htargetKey, if_neg htableKey]
      exact KeepsOff.refl _ _

theorem rewriteDepEntry_version {entry : Item} {v : Version} {old : Text}
    (h : entry.at ["version".toList] = some (.string old)) :
    (rewriteDepEntry v entry).at ["version".toList] = some (.string (rewriteReq old v)) := by
  have hmodify : ∀ table : Entries, table.get "version".toList = some (.string old) →
      (table.modify "version".toList (rewriteReqItem v)).get "version".toList =
        some (.string (rewriteReq old v)) := fun table hget => by
    rw [Entries.get_modify, if_pos rfl, hget]
    rfl
  rw [Item.at_cons] at h
  obtain ⟨item, hitem, hat⟩ := Option.bind_eq_some_iff.mp h
  obtain ⟨table, htable, hget⟩ := Option.bind_eq_some_iff.mp hitem
  obtain rfl := Option.some.inj hat
  cases entry with
  | string value => nomatch htable
  | boolean value => nomatch htable
  | inlineTable entries =>
    obtain rfl := Option.some.inj htable
    exact congrArg (·.bind (Item.at · [])) (hmodify entries hget)
  | table entries =>
    obtain rfl := Option.some.inj htable
    exact congrArg (·.bind (Item.at · [])) (hmodify entries hget)
  | other => nomatch htable

/-- A requirement is a pin when it was one. -/
theorem isPin_rewriteReq (old : Text) (v : Version) : IsPin (rewriteReq old v) ↔ IsPin old := by
  unfold rewriteReq
  split
  next => rfl
  next =>
    split
    next hpin =>
      have htrim : trim ('=' :: v.display) = '=' :: v.display :=
        trim_operator_cons (.inr rfl) fun _ hc => printable_of_mem_display hc
      refine iff_of_true ?_ (List.isPrefixOf_iff_prefix.mp hpin)
      rw [IsPin, htrim]
      exact ⟨v.display, rfl⟩
    next hpin =>
      refine iff_of_false ?_ fun h => hpin (List.isPrefixOf_iff_prefix.mpr h)
      rw [IsPin, trim_display]
      intro ⟨rest, hrest⟩
      have hmem : '=' ∈ v.display := hrest ▸ List.mem_cons_self ..
      rcases printable_of_mem_display hmem with hid | heq
      · exact absurd hid (by decide)
      · exact absurd heq (by decide)

theorem rewritten_mapItems (hnodup : (targets.membersByDir.map Prod.fst).Nodup) :
    Rewritten isRoot fs targets resolved doc
      (doc.mapItems (rewriteItem isRoot fs targets resolved doc)) := by
  refine ⟨fun v hplanned => ?_, fun place old v hplanned => ?_, fun place hversion hother => ?_⟩
  · obtain ⟨name, hname, hresolved⟩ := hplanned.planned
    obtain ⟨item, hitem, hkind⟩ := hplanned.item
    rw [Entries.at_cons] at hitem
    obtain ⟨package, hpackage, hat⟩ := Option.bind_eq_some_iff.mp hitem
    rw [Item.at_cons] at hat
    obtain ⟨found, hfound, heq⟩ := Option.bind_eq_some_iff.mp hat
    obtain rfl := Option.some.inj heq
    obtain ⟨entries, hentries, hget⟩ := Option.bind_eq_some_iff.mp hfound
    have hset : setPackageVersionItem v found = .string v.display := by
      unfold setPackageVersionItem
      rcases hkind with ⟨old, rfl⟩ | hinherit
      · rfl
      · split
        · rfl
        · rw [if_pos hinherit]
    rw [Entries.at_cons, Entries.get_mapItems, hpackage, Option.map_some, Option.bind_some,
      rewriteItem_package, hname, Option.bind_some, hresolved]
    simp only
    rw [at_cons_mapTableLike, hentries, Option.bind_some, Entries.get_modify, if_pos rfl, hget,
      Option.map_some, hset]
    rfl
  · obtain ⟨table, key, entry, htable, rfl, hentry, hplannedEntry⟩ := hplanned.entry
    have htext := hplanned.text
    have hsplit : table ++ [key, "version".toList] = table ++ [key] ++ ["version".toList] := by
      rw [List.append_assoc]
      rfl
    rw [hsplit, Entries.at_append, hentry, Option.bind_some] at htext
    refine ⟨rewriteReq old v, ?_, requirementNamesVersion_rewriteReq old v,
      isPin_rewriteReq old v, fun hnames => if_pos hnames⟩
    rw [hsplit, Entries.at_append, at_dependencyEntry htable, hentry, Option.map_some,
      Option.bind_some]
    unfold rewriteEntry
    rw [(plannedVersion_eq_some_iff hnodup).mpr hplannedEntry]
    exact rewriteDepEntry_version htext
  · refine keepsOff_rewriteItem hnodup (fun place =>
      (∃ v, PlannedPackage resolved doc v ∧ ["package".toList, "version".toList] <+: place) ∨
        ∃ old v, PlannedRequirement isRoot fs targets resolved doc place old v)
      (fun place old v hplanned => .inr ⟨old, v, hplanned⟩)
      (fun v hplanned place hprefix => .inl ⟨v, hplanned, hprefix⟩) place ?_
    exact fun hor => hor.elim hversion hother

end Places

/-! ## The edits of a workspace -/

section Edits

variable {fs : FileSystem} {tree : WorkTree ε} {resolved : ResolvedVersions}
  {edits : List ManifestEdit}

theorem path_mem_of_memberEdits {seen paths : List Path}
    (h : memberEdits fs tree resolved seen paths = .ok edits) :
    ∀ edit ∈ edits, edit.path ∈ paths := by
  induction paths generalizing seen edits with
  | nil =>
    obtain rfl := Except.ok.inj h
    exact fun _ hedit => nomatch hedit
  | cons first paths ih =>
    unfold memberEdits at h
    split at h
    next => exact fun edit hedit => List.mem_cons_of_mem _ (ih h edit hedit)
    next =>
      obtain ⟨edit, hedit, h⟩ := bind_eq_ok.mp h
      obtain ⟨rest, hrest, h⟩ := bind_eq_ok.mp h
      obtain rfl := Except.ok.inj h
      intro other hother
      rcases List.mem_cons.mp hother with rfl | hother
      · exact (editManifest_eq_ok hedit).1 ▸ List.mem_cons_self ..
      · exact List.mem_cons_of_mem _ (ih hrest other hother)

/-- What an edit is of: the manifest of the root or of another member. -/
theorem edit_of_computeEdits (h : computeEdits fs tree resolved = .ok edits) :
    ∀ edit ∈ edits, ∃ dir ∈ tree.manifestDirs, edit.path = manifestPath dir ∧
      tree.read edit.path = .ok edit.original ∧
      edit.updated = rewriteManifest fs tree resolved dir edit.original := by
  obtain ⟨rootEdit, hroot, h⟩ := bind_eq_ok.mp h
  obtain ⟨rest, hrest, h⟩ := bind_eq_ok.mp h
  obtain rfl := Except.ok.inj h
  obtain ⟨hpath, hread, hupdated⟩ := editManifest_eq_ok hroot
  intro edit hedit
  rcases List.mem_cons.mp hedit with rfl | hedit
  · refine ⟨tree.workspaceRoot, List.mem_cons_self .., hpath, hpath ▸ hread, ?_⟩
    rw [hupdated]
    exact (if_pos rfl).symm
  · obtain ⟨hnotRoot, hread, hupdated⟩ := (memberEdits_eq_ok hrest).1 edit hedit
    obtain ⟨member, hmember, heq⟩ := List.mem_map.mp (path_mem_of_memberEdits hrest edit hedit)
    refine ⟨member.1, List.mem_cons_of_mem _ (List.mem_map_of_mem hmember), heq.symm, hread, ?_⟩
    have hne : member.1 ≠ tree.workspaceRoot := fun hsame =>
      hnotRoot (List.mem_singleton.mpr (heq.symm.trans (congrArg manifestPath hsame)))
    rw [hupdated, ← heq]
    exact (if_neg hne).symm

theorem exists_edit_of_computeEdits (h : computeEdits fs tree resolved = .ok edits) :
    ∀ dir ∈ tree.manifestDirs, ∃ edit ∈ edits, edit.path = manifestPath dir := by
  obtain ⟨rootEdit, hroot, h⟩ := bind_eq_ok.mp h
  obtain ⟨rest, hrest, h⟩ := bind_eq_ok.mp h
  obtain rfl := Except.ok.inj h
  have hpath := (editManifest_eq_ok hroot).1
  intro dir hdir
  by_cases hisRoot : manifestPath dir = manifestPath tree.workspaceRoot
  · exact ⟨rootEdit, List.mem_cons_self .., hpath.trans hisRoot.symm⟩
  · have hmember : manifestPath dir ∈ tree.memberManifests := by
      rcases List.mem_cons.mp hdir with rfl | hmem
      · exact absurd rfl hisRoot
      · obtain ⟨member, hmember, rfl⟩ := List.mem_map.mp hmem
        exact List.mem_map.mpr ⟨member, hmember, rfl⟩
    obtain ⟨edit, hedit, hsame⟩ := (memberEdits_eq_ok hrest).2 _ hmember fun hin =>
      hisRoot (List.mem_singleton.mp hin)
    exact ⟨edit, List.mem_cons_of_mem _ hedit, hsame⟩

theorem exists_editManifest (rewrite : Entries → Entries) {path : Path} {doc : Entries}
    (h : tree.read path = .ok doc) : ∃ edit, editManifest tree path rewrite = .ok edit :=
  ⟨_, map_eq_ok.mpr ⟨doc, h, rfl⟩⟩

variable (fs resolved) in
theorem exists_memberEdits {paths : List Path}
    (hread : ∀ path ∈ paths, ∃ doc, tree.read path = .ok doc) (seen : List Path) :
    ∃ edits, memberEdits fs tree resolved seen paths = .ok edits := by
  induction paths generalizing seen with
  | nil => exact ⟨[], rfl⟩
  | cons first paths ih =>
    have hrest := ih fun path hpath => hread path (List.mem_cons_of_mem _ hpath)
    unfold memberEdits
    split
    next => exact hrest seen
    next =>
      obtain ⟨doc, hdoc⟩ := hread first (List.mem_cons_self ..)
      obtain ⟨edit, hedit⟩ := exists_editManifest (rewriteMember fs tree resolved first) hdoc
      obtain ⟨edits, hedits⟩ := hrest (first :: seen)
      exact ⟨edit :: edits, bind_eq_ok.mpr ⟨edit, hedit, bind_eq_ok.mpr ⟨edits, hedits, rfl⟩⟩⟩

variable (fs resolved) in
/-- The edits are there when the manifests can be read. -/
theorem exists_computeEdits
    (hread : ∀ dir ∈ tree.manifestDirs, ∃ doc, tree.read (manifestPath dir) = .ok doc) :
    ∃ edits, computeEdits fs tree resolved = .ok edits := by
  obtain ⟨doc, hdoc⟩ := hread tree.workspaceRoot (List.mem_cons_self ..)
  obtain ⟨edit, hedit⟩ := exists_editManifest (rewriteRoot fs tree resolved) hdoc
  have hmembers : ∀ path ∈ tree.memberManifests, ∃ doc, tree.read path = .ok doc := by
    intro path hpath
    obtain ⟨member, hmember, rfl⟩ := List.mem_map.mp hpath
    exact hread member.1 (mem_manifestDirs hmember)
  obtain ⟨edits, hedits⟩ := exists_memberEdits fs resolved hmembers
    [manifestPath tree.workspaceRoot]
  exact ⟨edit :: edits, bind_eq_ok.mpr ⟨edit, hedit, bind_eq_ok.mpr ⟨edits, hedits, rfl⟩⟩⟩

end Edits

/-- **The edits are exact**, and once they are written there is nothing more to
edit. -/
theorem manifest_edits_exact (fs : FileSystem) (tree : WorkTree ε) (resolved : ResolvedVersions)
    (edits : List ManifestEdit) (h : computeEdits fs tree resolved = .ok edits) :
    (∀ edit ∈ edits, ∃ dir ∈ tree.manifestDirs, edit.path = manifestPath dir ∧
      tree.read edit.path = .ok edit.original ∧
      Rewritten (dir = tree.workspaceRoot) fs (tree.depTargets dir) resolved edit.original
        edit.updated) ∧
    (∀ dir ∈ tree.manifestDirs, ∃ edit ∈ edits, edit.path = manifestPath dir) ∧
    ∃ again, computeEdits fs (tree.applied h) resolved = .ok again ∧
      ∀ edit ∈ again, edit.updated = edit.original := by
  refine ⟨fun edit hedit => ?_, exists_edit_of_computeEdits h, ?_⟩
  · obtain ⟨dir, hdir, hpath, hread, hupdated⟩ := edit_of_computeEdits h edit hedit
    refine ⟨dir, hdir, hpath, hread, ?_⟩
    rw [hupdated, rewriteManifest_eq]
    exact rewritten_mapItems tree.dirsNodup
  · have hread : ∀ dir ∈ (tree.applied h).manifestDirs, ∃ doc,
        (tree.applied h).read (manifestPath dir) = .ok doc := by
      intro dir hdir
      obtain ⟨edit, hedit, hpath⟩ := exists_edit_of_computeEdits h dir hdir
      show ∃ doc, readEdited tree edits (manifestPath dir) = .ok doc
      unfold readEdited
      cases hfind : edits.find? fun edit => edit.path == manifestPath dir with
      | none => exact absurd (beq_iff_eq.mpr hpath) (List.find?_eq_none.mp hfind edit hedit)
      | some found => exact ⟨found.updated, rfl⟩
    obtain ⟨again, hagain⟩ := exists_computeEdits fs resolved hread
    refine ⟨again, hagain, fun edit hedit => ?_⟩
    obtain ⟨dir, hdir, hpath, hread, hupdated⟩ := edit_of_computeEdits hagain edit hedit
    -- what is read now was rewritten
    obtain ⟨original, -, heq⟩ := read_of_computeEdits h hdir (hpath ▸ hread)
    rw [hupdated, heq]
    exact rewriteManifest_idem fs tree resolved dir original

theorem two_members_edited :
    ∃ edits, ∃ h : computeEdits plainPaths twoMembers
        ((∅ : ResolvedVersions).insert "a".toList versionC) = .ok edits,
      ∃ again, computeEdits plainPaths (twoMembers.applied h)
          ((∅ : ResolvedVersions).insert "a".toList versionC) = .ok again ∧
        ∀ edit ∈ again, edit.updated = edit.original :=
  ⟨_, rfl, (manifest_edits_exact plainPaths twoMembers _ _ rfl).2.2⟩

end Folo.ReleasePlan
