import Folo.ReleasePlan.Apply

/-!
# What is applied passes the check

A dependency table of a rewritten manifest is a dependency table of the
original with each entry rewritten (`ReadTable.rewritten`), and the planned
package declares the planned version, so that its dependents name it
(`DeclaredDependency.names`). What `cargo metadata` makes of a requirement
names it too, exactly when there is no build metadata to lose.
-/

namespace Folo.ReleasePlan

open Folo.Lib Std

variable {ε : Type}

/-! ## The tables that Cargo reads -/

/-- The table under a key. -/
def Entries.tableAt (entries : Entries) (key : Text) : Option Entries :=
  (entries.get key).bind Item.asTableLike

/-- The names under which dependency tables are read. -/
def tableNames (table : Entries) : List Text :=
  dependencyTables.filterMap (dependencyTableName table)

/-- A dependency table of the manifest; `isRoot` for a workspace's own, which
has the shared dependencies too. -/
inductive ReadTable (isRoot : Bool) (doc : Entries) : Entries → Prop
  | shared {workspace table : Entries} (hroot : isRoot = true)
      (hworkspace : doc.tableAt "workspace".toList = some workspace)
      (htable : workspace.tableAt "dependencies".toList = some table) : ReadTable isRoot doc table
  | own {name : Text} {table : Entries} (hname : name ∈ tableNames doc)
      (htable : doc.tableAt name = some table) : ReadTable isRoot doc table
  | target {targets spec table : Entries} {name : Text} {item : Item} {key : Text}
      (htargets : doc.tableAt "target".toList = some targets) (hspec : (key, item) ∈ targets)
      (hitem : item.asTableLike = some spec) (hname : name ∈ tableNames spec)
      (htable : spec.tableAt name = some table) : ReadTable isRoot doc table

theorem tableAt_modify (entries : Entries) (key other : Text) (f : Entries → Entries) :
    (entries.modify key (Item.mapTableLike f)).tableAt other =
      if other = key then (entries.tableAt other).map f else entries.tableAt other := by
  unfold Entries.tableAt
  rw [Entries.get_modify]
  split
  next =>
    cases entries.get other with
    | none => rfl
    | some item => exact asTableLike_mapTableLike f item
  next => rfl

theorem tableAt_modify_ne {entries : Entries} {key other : Text} (f : Entries → Entries)
    (h : other ≠ key) :
    (entries.modify key (Item.mapTableLike f)).tableAt other = entries.tableAt other := by
  rw [tableAt_modify, if_neg h]

theorem tableNames_modify (table : Entries) (key : Text) (f : Item → Item) :
    tableNames (table.modify key f) = tableNames table := by
  unfold tableNames
  exact congrArg (fun g => List.filterMap g dependencyTables)
    (funext (dependencyTableName_modify table key · f))

/-! ## Rewriting the tables -/

/-- The spellings that a dependency table has. -/
def spellings (name : Text) : List Text := name :: (legacyTableName name).toList

theorem mem_spellings {table : Entries} {canonical name : Text}
    (h : dependencyTableName table canonical = some name) : name ∈ spellings canonical := by
  unfold dependencyTableName at h
  split at h
  next => exact Option.some.inj h ▸ List.mem_cons_self ..
  next =>
    split at h
    next => nomatch h
    next legacy hlegacy =>
      split at h
      next =>
        refine List.mem_cons_of_mem _ (Option.mem_toList.mpr ?_)
        exact hlegacy.trans h
      next => nomatch h

theorem mem_spellings_of_mem_tableNames {table : Entries} {name : Text}
    (h : name ∈ tableNames table) : name ∈ dependencyTables.flatMap spellings := by
  obtain ⟨canonical, hmem, heq⟩ := List.mem_filterMap.mp h
  exact List.mem_flatMap.mpr ⟨canonical, hmem, mem_spellings heq⟩

theorem tableNames_nodup (table : Entries) : (tableNames table).Nodup := by
  have hdisjoint : dependencyTables.Pairwise fun a b => ∀ n ∈ spellings a, n ∉ spellings b := by
    decide
  refine List.pairwise_filterMap.mpr (hdisjoint.imp ?_)
  rintro a b hab n hn m hm rfl
  exact hab n (mem_spellings hn) (mem_spellings hm)

/-- Tables rewritten under names of which there are no two the same. -/
theorem tableAt_foldl_modify (f : Entries → Entries) {names : List Text} (hnodup : names.Nodup)
    (table : Entries) (name : Text) :
    (names.foldl (fun t n => t.modify n (Item.mapTableLike f)) table).tableAt name =
      if name ∈ names then (table.tableAt name).map f else table.tableAt name := by
  induction names generalizing table with
  | nil => rfl
  | cons first names ih =>
    obtain ⟨hnotin, hnodup⟩ := List.nodup_cons.mp hnodup
    rw [List.foldl_cons, ih hnodup, tableAt_modify]
    by_cases hname : name = first
    · obtain rfl := hname
      rw [if_neg hnotin, if_pos rfl, if_pos (List.mem_cons_self ..)]
    · rw [if_neg hname]
      simp only [List.mem_cons, hname, false_or]

/-- Rewriting does not change which tables there are. -/
theorem rewriteTables_eq (f : Entries → Entries) (table : Entries) :
    rewriteTables f table =
      (tableNames table).foldl (fun t n => t.modify n (Item.mapTableLike f)) table := by
  unfold rewriteTables tableNames
  generalize dependencyTables = canonicals
  induction canonicals generalizing table with
  | nil => rfl
  | cons c canonicals ih =>
    rw [List.foldl_cons, List.filterMap_cons]
    cases dependencyTableName table c with
    | none => exact ih table
    | some name =>
      -- a table that is modified keeps its names
      have hnames : dependencyTableName table =
          dependencyTableName (table.modify name (Item.mapTableLike f)) :=
        funext fun c' => (dependencyTableName_modify table name c' _).symm
      rw [hnames]
      exact ih _

theorem tableAt_rewriteTables (f : Entries → Entries) (table : Entries) (name : Text) :
    (rewriteTables f table).tableAt name =
      if name ∈ tableNames table then (table.tableAt name).map f else table.tableAt name := by
  rw [rewriteTables_eq]
  exact tableAt_foldl_modify f (tableNames_nodup table) table name

theorem tableNames_rewriteTables (f : Entries → Entries) (table : Entries) :
    tableNames (rewriteTables f table) = tableNames table := by
  have hfold : ∀ (names : List Text) (t : Entries),
      tableNames (names.foldl (fun t n => t.modify n (Item.mapTableLike f)) t) = tableNames t := by
    intro names
    induction names with
    | nil => exact fun _ => rfl
    | cons name names ih => exact fun t => (ih _).trans (tableNames_modify t name _)
  rw [rewriteTables_eq, hfold]

/-- The tables of a rewritten table are rewritten ones. -/
theorem exists_table_of_rewriteTables {f : Entries → Entries} {table rewritten : Entries}
    {name : Text} (hname : name ∈ tableNames (rewriteTables f table))
    (h : (rewriteTables f table).tableAt name = some rewritten) :
    name ∈ tableNames table ∧ ∃ original, table.tableAt name = some original ∧
      f original = rewritten := by
  rw [tableNames_rewriteTables] at hname
  rw [tableAt_rewriteTables, if_pos hname] at h
  exact ⟨hname, Option.map_eq_some_iff.mp h⟩

/-! ## Rewriting a manifest -/

/-- A manifest after its dependency tables were rewritten. -/
structure RewrittenFrom (isRoot : Bool) (g : Entries → Entries) (doc rewritten : Entries) :
    Prop where
  names : tableNames rewritten = tableNames doc
  own : ∀ name ∈ tableNames doc, rewritten.tableAt name = (doc.tableAt name).map g
  target : rewritten.tableAt "target".toList = (doc.tableAt "target".toList).map fun target =>
    target.map fun spec => (spec.1, spec.2.mapTableLike (rewriteTables g))
  shared : isRoot = true → rewritten.tableAt "workspace".toList =
    (doc.tableAt "workspace".toList).map fun workspace =>
      workspace.modify "dependencies".toList (Item.mapTableLike g)

theorem RewrittenFrom.readTable {isRoot : Bool} {g : Entries → Entries} {doc rewritten : Entries}
    (h : RewrittenFrom isRoot g doc rewritten) {table : Entries}
    (hread : ReadTable isRoot rewritten table) :
    ∃ original, ReadTable isRoot doc original ∧ g original = table := by
  cases hread with
  | shared hroot hworkspace htable =>
    rw [h.shared hroot] at hworkspace
    obtain ⟨workspace, hfrom, rfl⟩ := Option.map_eq_some_iff.mp hworkspace
    rw [tableAt_modify, if_pos rfl] at htable
    obtain ⟨original, horiginal, heq⟩ := Option.map_eq_some_iff.mp htable
    exact ⟨original, .shared hroot hfrom horiginal, heq⟩
  | own hname htable =>
    rw [h.names] at hname
    rw [h.own _ hname] at htable
    obtain ⟨original, horiginal, heq⟩ := Option.map_eq_some_iff.mp htable
    exact ⟨original, .own hname horiginal, heq⟩
  | target htargets hspec hitem hname htable =>
    rw [h.target] at htargets
    obtain ⟨targets, hfrom, rfl⟩ := Option.map_eq_some_iff.mp htargets
    obtain ⟨⟨key, item⟩, hmem, heq⟩ := List.mem_map.mp hspec
    obtain ⟨rfl, rfl⟩ := Prod.mk.inj heq
    rw [asTableLike_mapTableLike] at hitem
    obtain ⟨spec, hspec, rfl⟩ := Option.map_eq_some_iff.mp hitem
    obtain ⟨hname, original, horiginal, heq⟩ := exists_table_of_rewriteTables hname htable
    exact ⟨original, .target hfrom hmem hspec hname horiginal, heq⟩

theorem ne_of_mem_tableNames {doc : Entries} {name other : Text} (h : name ∈ tableNames doc)
    (hother : other ∉ dependencyTables.flatMap spellings) : name ≠ other :=
  fun heq => hother (heq ▸ mem_spellings_of_mem_tableNames h)

theorem tableAt_rewriteTables_of_not_mem {f : Entries → Entries} {doc : Entries} {name : Text}
    (h : name ∉ dependencyTables.flatMap spellings) :
    (rewriteTables f doc).tableAt name = doc.tableAt name := by
  rw [tableAt_rewriteTables, if_neg fun hin => h (mem_spellings_of_mem_tableNames hin)]

section Stages

variable (fs : FileSystem) (targets : DepTargets) (resolved : ResolvedVersions) (doc : Entries)

theorem tableAt_rewritePackageVersion {name : Text} (h : name ≠ "package".toList) :
    (rewritePackageVersion resolved doc).tableAt name = doc.tableAt name := by
  unfold rewritePackageVersion
  split
  next => rfl
  next =>
    split
    next => rfl
    next => exact tableAt_modify_ne _ h

theorem tableNames_rewritePackageVersion :
    tableNames (rewritePackageVersion resolved doc) = tableNames doc := by
  unfold rewritePackageVersion
  split
  next => rfl
  next =>
    split
    next => rfl
    next => exact tableNames_modify ..

theorem rewrittenFrom_rewriteDependencyTables :
    RewrittenFrom false (rewriteDepTable fs targets resolved) doc
      (rewriteDependencyTables fs targets resolved doc) where
  names := (tableNames_modify ..).trans (tableNames_rewriteTables ..)
  own name hname := by
    have hne : name ≠ "target".toList := ne_of_mem_tableNames hname (by decide)
    unfold rewriteDependencyTables
    rw [tableAt_modify_ne _ hne, tableAt_rewriteTables, if_pos hname]
  target := by
    unfold rewriteDependencyTables
    rw [tableAt_modify, if_pos rfl, tableAt_rewriteTables_of_not_mem (by decide)]
  shared h := nomatch h

theorem tableAt_rewriteDependencyTables {name : Text}
    (h : name ∉ "target".toList :: dependencyTables.flatMap spellings) :
    (rewriteDependencyTables fs targets resolved doc).tableAt name = doc.tableAt name := by
  obtain ⟨htarget, hnames⟩ := not_or.mp (mt List.mem_cons.mpr h)
  unfold rewriteDependencyTables
  rw [tableAt_modify_ne _ htarget, tableAt_rewriteTables_of_not_mem hnames]

end Stages

theorem rewrittenFrom_rewriteMember (fs : FileSystem) (tree : WorkTree ε)
    (resolved : ResolvedVersions) (path : Path) (doc : Entries) :
    RewrittenFrom false
      (rewriteDepTable fs { manifestDir := path.dropLast, membersByDir := tree.membersByDir }
        resolved) doc (rewriteMember fs tree resolved path doc) := by
  have h := rewrittenFrom_rewriteDependencyTables fs
    { manifestDir := path.dropLast, membersByDir := tree.membersByDir } resolved
    (rewritePackageVersion resolved doc)
  have hnames := tableNames_rewritePackageVersion resolved doc
  refine ⟨h.names.trans hnames, fun name hname => ?_, ?_, fun h => nomatch h⟩
  · have hne : name ≠ "package".toList := ne_of_mem_tableNames hname (by decide)
    rw [← tableAt_rewritePackageVersion resolved doc hne]
    exact h.own name (hnames.symm ▸ hname)
  · rw [← tableAt_rewritePackageVersion resolved doc (by decide)]
    exact h.target

theorem rewrittenFrom_rewriteRoot (fs : FileSystem) (tree : WorkTree ε)
    (resolved : ResolvedVersions) (doc : Entries) :
    RewrittenFrom true
      (rewriteDepTable fs { manifestDir := tree.workspaceRoot, membersByDir := tree.membersByDir }
        resolved) doc (rewriteRoot fs tree resolved doc) := by
  let targets : DepTargets :=
    { manifestDir := tree.workspaceRoot, membersByDir := tree.membersByDir }
  let shared := rewriteWorkspaceDependencies fs targets resolved doc
  have h := rewrittenFrom_rewriteDependencyTables fs targets resolved
    (rewritePackageVersion resolved shared)
  have hnames : tableNames (rewritePackageVersion resolved shared) = tableNames doc :=
    (tableNames_rewritePackageVersion ..).trans (tableNames_modify ..)
  have hframe : ∀ name : Text, name ≠ "package".toList → name ≠ "workspace".toList →
      (rewritePackageVersion resolved shared).tableAt name = doc.tableAt name :=
    fun name hpackage hworkspace =>
      (tableAt_rewritePackageVersion resolved shared hpackage).trans (tableAt_modify_ne _ hworkspace)
  refine ⟨h.names.trans hnames, fun name hname => ?_, ?_, fun _ => ?_⟩
  · rw [← hframe name (ne_of_mem_tableNames hname (by decide))
      (ne_of_mem_tableNames hname (by decide))]
    exact h.own name (hnames.symm ▸ hname)
  · rw [← hframe _ (by decide) (by decide)]
    exact h.target
  · refine (tableAt_rewriteDependencyTables fs targets resolved _ (by decide)).trans ?_
    rw [tableAt_rewritePackageVersion resolved shared (by decide)]
    exact (tableAt_modify ..).trans (if_pos rfl)

/-! ## Rewriting an entry -/

/-- `dependency_requirement`. -/
def dependencyRequirement (item : Item) : Option Text :=
  match item with
  | .inlineTable table | .table table => (Entries.get table "version".toList).bind Item.asStr
  | item => item.asStr

theorem get_version_rewritten (v : Version) (table : Entries) :
    (Entries.get (table.modify "version".toList (rewriteReqItem v)) "version".toList).bind
        Item.asStr =
      ((table.get "version".toList).bind Item.asStr).map fun old => rewriteReq old v := by
  rw [Entries.get_modify, if_pos rfl]
  cases table.get "version".toList with
  | none => rfl
  | some item => cases item <;> rfl

theorem get_frame_rewritten (v : Version) (table : Entries) {key : Text}
    (h : key ≠ "version".toList) :
    Entries.get (table.modify "version".toList (rewriteReqItem v)) key = table.get key := by
  rw [Entries.get_modify, if_neg h]

theorem dependencyRequirement_rewriteDepEntry (v : Version) (item : Item) :
    dependencyRequirement (rewriteDepEntry v item) =
      (dependencyRequirement item).map fun old => rewriteReq old v := by
  cases item with
  | string old => rfl
  | boolean b => rfl
  | inlineTable table => exact get_version_rewritten v table
  | table table => exact get_version_rewritten v table
  | other => rfl

theorem depPath_rewriteDepEntry (v : Version) (item : Item) :
    depPath (rewriteDepEntry v item) = depPath item := by
  have pathKey : "path".toList ≠ "version".toList := by decide
  cases item with
  | string old => rfl
  | boolean b => rfl
  | inlineTable table =>
    exact congrArg (·.bind Item.asStr) (get_frame_rewritten v table pathKey)
  | table table => exact congrArg (·.bind Item.asStr) (get_frame_rewritten v table pathKey)
  | other => rfl

theorem depPackageName_rewriteDepEntry (v : Version) (item : Item) (key : Text) :
    depPackageName (rewriteDepEntry v item) key = depPackageName item key := by
  have hget : ∀ table : Entries,
      ((Entries.get (table.modify "version".toList (rewriteReqItem v)) "package".toList).bind
        Item.asStr).getD key = ((table.get "package".toList).bind Item.asStr).getD key :=
    fun table => congrArg (fun i => (i.bind Item.asStr).getD key)
      (get_frame_rewritten v table (by decide))
  cases item with
  | string old => rfl
  | boolean b => rfl
  | inlineTable table => exact hget table
  | table table => exact hget table
  | other => rfl

/-- A rewritten entry is on the same package at the same path. -/
theorem sameTarget_rewriteEntry (fs : FileSystem) (targets : DepTargets)
    (resolved : ResolvedVersions) (key : Text) (item : Item) :
    depPath (rewriteEntry fs targets resolved key item) = depPath item ∧
      depPackageName (rewriteEntry fs targets resolved key item) key = depPackageName item key := by
  unfold rewriteEntry
  split
  next => exact ⟨rfl, rfl⟩
  next v _ => exact ⟨depPath_rewriteDepEntry v item, depPackageName_rewriteDepEntry v item key⟩

/-! ## Which member a path is -/

/-- What Cargo takes a path for: the directory that it spells, or, where that is
no member's, the one that it is an alias of. -/
def PointsTo (fs : FileSystem) (members : List (Path × Text)) (manifestDir : Path) (path : Text)
    (dir : Path) : Prop :=
  let joined := fs.join manifestDir path
  normalizeLexically joined = dir ∨
    normalizeLexically joined ∉ members.map Prod.fst ∧
      ∃ identity, fs.canonicalize joined = some identity ∧ fs.canonicalize dir = some identity

theorem memberAt_eq_none {members : List (Path × Text)} {dir : Path}
    (h : dir ∉ members.map Prod.fst) : memberAt members dir = none := by
  unfold memberAt
  rw [Option.map_eq_none_iff, List.find?_eq_none]
  intro member hmem heq
  exact h (List.mem_map.mpr ⟨member, hmem, beq_iff_eq.mp heq⟩)

theorem memberAt_eq_some {members : List (Path × Text)} (hnodup : (members.map Prod.fst).Nodup)
    {dir : Path} {name : Text} (h : (dir, name) ∈ members) : memberAt members dir = some name := by
  induction members with
  | nil => nomatch h
  | cons member members ih =>
    obtain ⟨hnotin, hnodup⟩ := List.nodup_cons.mp hnodup
    unfold memberAt
    rw [List.find?_cons]
    rcases List.mem_cons.mp h with rfl | h
    · rw [beq_self_eq_true]
      rfl
    · have hne : (member.1 == dir) = false := by
        refine beq_eq_false_iff_ne.mpr fun heq => hnotin ?_
        exact List.mem_map.mpr ⟨(dir, name), h, heq.symm⟩
      rw [hne]
      exact ih hnodup h

theorem declares_of_pointsTo {fs : FileSystem} {targets : DepTargets}
    (hnodup : (targets.membersByDir.map Prod.fst).Nodup) {path : Text} {dir : Path} {name : Text}
    (hmember : (dir, name) ∈ targets.membersByDir)
    (h : PointsTo fs targets.membersByDir targets.manifestDir path dir) :
    targets.declares fs path name = true := by
  unfold DepTargets.declares
  dsimp only
  rcases h with rfl | ⟨hnot, identity, hjoined, hdir⟩
  · rw [memberAt_eq_some hnodup hmember]
    exact beq_self_eq_true name
  · rw [memberAt_eq_none hnot, hjoined]
    refine List.any_eq_true.mpr ⟨(dir, name), hmember, ?_⟩
    rw [hdir, beq_self_eq_true, beq_self_eq_true]
    rfl

/-! ## The edits -/

theorem manifestPath_injective : Function.Injective manifestPath :=
  fun _ _ h => List.append_cancel_right h

/-- The directories whose manifests are rewritten. -/
def WorkTree.manifestDirs (tree : WorkTree ε) : List Path :=
  tree.workspaceRoot :: tree.membersByDir.map Prod.fst

/-- What becomes of the manifest of a directory. -/
def rewriteManifest (fs : FileSystem) (tree : WorkTree ε) (resolved : ResolvedVersions)
    (dir : Path) (doc : Entries) : Entries :=
  if dir = tree.workspaceRoot then rewriteRoot fs tree resolved doc
  else rewriteMember fs tree resolved (manifestPath dir) doc

theorem editManifest_eq_ok {tree : WorkTree ε} {path : Path} {rewrite : Entries → Entries}
    {edit : ManifestEdit} (h : editManifest tree path rewrite = .ok edit) :
    edit.path = path ∧ tree.read path = .ok edit.original ∧
      edit.updated = rewrite edit.original := by
  obtain ⟨doc, hdoc, rfl⟩ := map_eq_ok.mp h
  exact ⟨rfl, hdoc, rfl⟩

theorem memberEdits_eq_ok {fs : FileSystem} {tree : WorkTree ε} {resolved : ResolvedVersions}
    {seen paths : List Path} {edits : List ManifestEdit}
    (h : memberEdits fs tree resolved seen paths = .ok edits) :
    (∀ edit ∈ edits, edit.path ∉ seen ∧ tree.read edit.path = .ok edit.original ∧
      edit.updated = rewriteMember fs tree resolved edit.path edit.original) ∧
      ∀ path ∈ paths, path ∉ seen → ∃ edit ∈ edits, edit.path = path := by
  induction paths generalizing seen edits with
  | nil =>
    obtain rfl := Except.ok.inj h
    exact ⟨fun _ h => (nomatch h), fun _ h => nomatch h⟩
  | cons first paths ih =>
    unfold memberEdits at h
    split at h
    next hseen =>
      obtain ⟨hedits, hpaths⟩ := ih h
      refine ⟨hedits, fun path hpath hnew => ?_⟩
      rcases List.mem_cons.mp hpath with rfl | hpath
      · exact absurd hseen hnew
      · exact hpaths path hpath hnew
    next hnew =>
      obtain ⟨edit, hedit, h⟩ := bind_eq_ok.mp h
      obtain ⟨rest, hrest, h⟩ := bind_eq_ok.mp h
      obtain rfl := Except.ok.inj h
      obtain ⟨hpath, hread, hupdated⟩ := editManifest_eq_ok hedit
      obtain ⟨hedits, hpaths⟩ := ih hrest
      constructor
      · intro other hother
        rcases List.mem_cons.mp hother with rfl | hother
        · rw [hpath]
          exact ⟨hnew, hread, hupdated⟩
        · obtain ⟨hseen, hrest⟩ := hedits other hother
          exact ⟨fun hin => hseen (List.mem_cons_of_mem _ hin), hrest⟩
      · intro path hin hunseen
        by_cases heq : path = first
        · exact ⟨edit, List.mem_cons_self .., hpath.trans heq.symm⟩
        · obtain ⟨other, hother, hsame⟩ := hpaths path
            ((List.mem_cons.mp hin).resolve_left heq)
            fun hseen => (List.mem_cons.mp hseen).elim heq hunseen
          exact ⟨other, List.mem_cons_of_mem _ hother, hsame⟩

/-- What is read at a manifest once the edits are written. -/
theorem read_of_computeEdits {fs : FileSystem} {tree : WorkTree ε} {resolved : ResolvedVersions}
    {edits : List ManifestEdit} (h : computeEdits fs tree resolved = .ok edits) {dir : Path}
    (hdir : dir ∈ tree.manifestDirs) {doc : Entries}
    (hread : readEdited tree edits (manifestPath dir) = .ok doc) :
    ∃ original, tree.read (manifestPath dir) = .ok original ∧
      doc = rewriteManifest fs tree resolved dir original := by
  obtain ⟨rootEdit, hroot, h⟩ := bind_eq_ok.mp h
  obtain ⟨rest, hrest, h⟩ := bind_eq_ok.mp h
  obtain rfl := Except.ok.inj h
  obtain ⟨hpath, hrootRead, hrootUpdated⟩ := editManifest_eq_ok hroot
  obtain ⟨hedits, hpaths⟩ := memberEdits_eq_ok hrest
  unfold readEdited at hread
  unfold rewriteManifest
  split at hread
  next edit hfind =>
    obtain rfl := Except.ok.inj hread
    have heq : edit.path = manifestPath dir := beq_iff_eq.mp
      (List.find?_some (p := fun edit : ManifestEdit => edit.path == manifestPath dir) hfind)
    rw [← heq]
    rcases List.mem_cons.mp (List.mem_of_find?_eq_some hfind) with rfl | hmem
    · refine ⟨edit.original, hpath ▸ hrootRead, ?_⟩
      rw [if_pos (manifestPath_injective (heq.symm.trans hpath))]
      exact hrootUpdated
    · obtain ⟨hnotRoot, hmemRead, hupdated⟩ := hedits edit hmem
      have hne : dir ≠ tree.workspaceRoot := fun hsame =>
        hnotRoot (List.mem_singleton.mpr (heq.trans (congrArg manifestPath hsame)))
      refine ⟨edit.original, hmemRead, ?_⟩
      rw [if_neg hne]
      exact hupdated
  next hfind =>
    -- every manifest of the list has an edit
    rw [List.find?_eq_none] at hfind
    refine absurd ?_ (not_exists.mpr fun edit (hedit : edit ∈ rootEdit :: rest ∧
      edit.path = manifestPath dir) => hfind edit hedit.1 (beq_iff_eq.mpr hedit.2))
    by_cases hisRoot : manifestPath dir = manifestPath tree.workspaceRoot
    · exact ⟨rootEdit, List.mem_cons_self .., hpath.trans hisRoot.symm⟩
    · have hmember : manifestPath dir ∈ tree.memberManifests := by
        rcases List.mem_cons.mp hdir with rfl | hmem
        · exact absurd rfl hisRoot
        · obtain ⟨member, hmember, rfl⟩ := List.mem_map.mp hmem
          exact List.mem_map.mpr ⟨member, hmember, rfl⟩
      obtain ⟨edit, hedit, hsame⟩ := hpaths _ hmember fun hin => hisRoot (List.mem_singleton.mp hin)
      exact ⟨edit, List.mem_cons_of_mem _ hedit, hsame⟩

/-! ## The package's own version -/

theorem tableAt_package_rewriteManifest (fs : FileSystem) (tree : WorkTree ε)
    (resolved : ResolvedVersions) (dir : Path) (doc : Entries) :
    (rewriteManifest fs tree resolved dir doc).tableAt "package".toList =
      (doc.tableAt "package".toList).map fun package =>
        match (packageName doc).bind (resolved[·]?) with
        | none => package
        | some newVersion =>
          package.modify "version".toList (setPackageVersionItem newVersion) := by
  have hversion : ∀ d : Entries, d.tableAt "package".toList = doc.tableAt "package".toList →
      (rewritePackageVersion resolved d).tableAt "package".toList =
        (doc.tableAt "package".toList).map fun package =>
          match (packageName doc).bind (resolved[·]?) with
          | none => package
          | some newVersion =>
            package.modify "version".toList (setPackageVersionItem newVersion) := by
    intro d hd
    have hname : packageName d = packageName doc := congrArg
      (fun t : Option Entries => t.bind fun package =>
        (package.get "name".toList).bind Item.asStr) hd
    unfold rewritePackageVersion
    rw [hname]
    cases packageName doc with
    | none => exact hd.trans Option.map_id'.symm
    | some name =>
      dsimp only [Option.bind_some]
      cases resolved[name]? with
      | none => exact hd.trans Option.map_id'.symm
      | some newVersion => rw [tableAt_modify, if_pos rfl, hd]
  unfold rewriteManifest
  split
  next =>
    refine (tableAt_rewriteDependencyTables fs _ resolved _ (by decide)).trans (hversion _ ?_)
    exact tableAt_modify_ne _ (by decide)
  next =>
    exact (tableAt_rewriteDependencyTables fs _ resolved _ (by decide)).trans (hversion _ rfl)

theorem packageName_rewriteManifest (fs : FileSystem) (tree : WorkTree ε)
    (resolved : ResolvedVersions) (dir : Path) (doc : Entries) :
    packageName (rewriteManifest fs tree resolved dir doc) = packageName doc := by
  have hdef : ∀ d : Entries, packageName d = (d.tableAt "package".toList).bind fun package =>
      (package.get "name".toList).bind Item.asStr := fun _ => rfl
  rw [hdef, tableAt_package_rewriteManifest, hdef doc]
  cases doc.tableAt "package".toList with
  | none => rfl
  | some package =>
    dsimp only [Option.map_some, Option.bind_some]
    split
    next => rfl
    next newVersion _ => rw [Entries.get_modify, if_neg (by decide)]

/-- A planned package that had a version has the planned one. -/
theorem packageVersion_rewriteManifest {semver : SemverCrate} {fs : FileSystem}
    {tree : WorkTree ε} {resolved : ResolvedVersions} {dir : Path} {root root' doc : Entries}
    {name : Text} {old v : Version} (hname : packageName doc = some name)
    (hplanned : resolved[name]? = some v) (hold : packageVersion semver root doc = some old) :
    packageVersion semver root' (rewriteManifest fs tree resolved dir doc) =
      semver.parse v.display := by
  have hdef : ∀ r d : Entries, packageVersion semver r d =
      ((((d.tableAt "package".toList)).bind fun package => package.get "version".toList).bind
        fun item => if isWorkspaceInherit item then
          (((r.tableAt "workspace".toList)).bind fun workspace =>
            (workspace.tableAt "package".toList).bind fun package =>
              package.get "version".toList).bind Item.asStr
        else item.asStr).bind semver.parse := fun _ _ => rfl
  rw [hdef] at hold ⊢
  rw [tableAt_package_rewriteManifest, hname, Option.bind_some, hplanned]
  obtain ⟨text, htext, -⟩ := Option.bind_eq_some_iff.mp hold
  obtain ⟨item, hitem, htext⟩ := Option.bind_eq_some_iff.mp htext
  obtain ⟨package, hpackage, hitem⟩ := Option.bind_eq_some_iff.mp hitem
  rw [hpackage]
  dsimp only [Option.map_some, Option.bind_some]
  rw [Entries.get_modify, if_pos rfl, hitem]
  -- a version is a text or inherited, and both become a text
  have hset : setPackageVersionItem v item = .string v.display := by
    unfold setPackageVersionItem
    split
    next => rfl
    next hnotString =>
      split
      next => rfl
      next hown =>
        rw [if_neg hown] at htext
        cases item with
        | string t => exact absurd rfl (hnotString t)
        | boolean b => nomatch htext
        | inlineTable t => nomatch htext
        | table t => nomatch htext
        | other => nomatch htext
  rw [Option.map_some, hset]
  rfl

/-! ## The rewritten workspace -/

theorem mem_manifestDirs {tree : WorkTree ε} {dir : Path} {name : Text}
    (h : (dir, name) ∈ tree.membersByDir) : dir ∈ tree.manifestDirs :=
  List.mem_cons_of_mem _ (List.mem_map.mpr ⟨_, h, rfl⟩)

/-- The work tree once the edits are written. -/
def WorkTree.applied (tree : WorkTree ε) {fs : FileSystem} {resolved : ResolvedVersions}
    {edits : List ManifestEdit} (h : computeEdits fs tree resolved = .ok edits) : WorkTree ε where
  workspaceRoot := tree.workspaceRoot
  membersByDir := tree.membersByDir
  tracked := tree.tracked
  read := readEdited tree edits
  dirsNodup := tree.dirsNodup
  namesNodup := tree.namesNodup
  named dir name hmem doc hread := by
    obtain ⟨original, horiginal, rfl⟩ := read_of_computeEdits h (mem_manifestDirs hmem) hread
    rw [packageName_rewriteManifest]
    exact tree.named dir name hmem original horiginal

theorem eq_of_mem_of_nodup_snd {members : List (Path × Text)}
    (hnodup : (members.map Prod.snd).Nodup) {dir dir' : Path} {name : Text}
    (h : (dir, name) ∈ members) (h' : (dir', name) ∈ members) : dir = dir' :=
  congrArg Prod.fst (List.inj_on_of_nodup_map hnodup h h' rfl)

/-- A target's version is that of its member. -/
theorem exists_of_targetVersions {tree : WorkTree ε} {semver : SemverCrate} {name : Text}
    {version : Version} (h : (tree.targetVersions semver)[name]? = some version) :
    ∃ dir, (dir, name) ∈ tree.membersByDir ∧ tree.targetVersion semver dir = some version := by
  unfold WorkTree.targetVersions at h
  generalize hpairs : (tree.membersByDir.filterMap fun member =>
    (tree.targetVersion semver member.1).map fun version => (member.2, version)) = pairs at h
  have hmem : (name, version) ∈ pairs := by
    have hfold : ∀ (pairs : List (Text × Version)) (m : ExtTreeMap Text Version),
        (pairs.foldl (fun m target => m.insert target.1 target.2) m)[name]? = some version →
          (name, version) ∈ pairs ∨ m[name]? = some version := by
      intro pairs
      induction pairs with
      | nil => exact fun _ h => .inr h
      | cons pair pairs ih =>
        intro m h
        rcases ih _ h with hin | hbefore
        · exact .inl (List.mem_cons_of_mem _ hin)
        · rw [getElem?_insert] at hbefore
          split at hbefore
          next heq =>
            obtain ⟨k, v⟩ := pair
            obtain rfl := Option.some.inj hbefore
            obtain rfl : k = name := heq
            exact .inl (List.mem_cons_self ..)
          next => exact .inr hbefore
    rcases hfold pairs ∅ h with hin | hnone
    · exact hin
    · simp at hnone
  rw [← hpairs] at hmem
  obtain ⟨⟨dir, n⟩, hmember, hsome⟩ := List.mem_filterMap.mp hmem
  obtain ⟨v, hv, heq⟩ := Option.map_eq_some_iff.mp hsome
  obtain ⟨rfl, rfl⟩ := Prod.mk.inj heq
  exact ⟨dir, hmember, hv⟩

theorem read_of_targetVersion {tree : WorkTree ε} {semver : SemverCrate} {dir : Path}
    {version : Version} (h : tree.targetVersion semver dir = some version) :
    ∃ root doc, tree.read (manifestPath dir) = .ok doc ∧
      packageVersion semver root doc = some version := by
  unfold WorkTree.targetVersion at h
  split at h
  next =>
    split at h
    next root doc _ hdoc => exact ⟨root, doc, hdoc, h⟩
    next => nomatch h
  next => nomatch h

/-- `check`'s condition for reporting a requirement as stale. -/
def requirementIsStale (declared : ExtTreeMap Text Version) (name requirement : Text) : Bool :=
  match declared[name]? with
  | none => false
  | some version => !requirementNamesVersion requirement version

/-- A path dependency on a member, in a dependency table of a manifest of the
workspace or in the shared one, with its requirement. -/
structure DeclaredDependency (fs : FileSystem) (tree : WorkTree ε) (target requirement : Text) :
    Prop where
  declared : ∃ (dir : Path) (doc table : Entries) (key : Text) (item : Item),
    dir ∈ tree.manifestDirs ∧ tree.read (manifestPath dir) = .ok doc ∧
      ReadTable (dir = tree.workspaceRoot) doc table ∧ (key, item) ∈ table ∧
        depPackageName item key = target ∧ dependencyRequirement item = some requirement ∧
          ∃ path memberDir, depPath item = some path ∧ (memberDir, target) ∈ tree.membersByDir ∧
            PointsTo fs tree.membersByDir dir path memberDir

section Applied

variable {semver : SemverCrate} {fs : FileSystem} {tree : WorkTree ε} {resolved : ResolvedVersions}
  {edits : List ManifestEdit} {target requirement : Text} {v : Version}

/-- The requirement on a planned member names the planned version. -/
theorem DeclaredDependency.names (hedits : computeEdits fs tree resolved = .ok edits)
    (hplanned : resolved[target]? = some v)
    (h : DeclaredDependency fs (tree.applied hedits) target requirement) :
    requirementNamesVersion requirement v = true := by
  obtain ⟨dir, doc, table, key, item, hdir, hread, htable, hentry, hpackage, hrequirement, path,
    memberDir, hpath, hmember, hpoints⟩ := h.declared
  obtain ⟨original, -, rfl⟩ := read_of_computeEdits hedits hdir hread
  have hrewritten : RewrittenFrom (dir = tree.workspaceRoot)
      (rewriteDepTable fs { manifestDir := dir, membersByDir := tree.membersByDir } resolved)
      original (rewriteManifest fs tree resolved dir original) := by
    unfold rewriteManifest
    by_cases hroot : dir = tree.workspaceRoot
    · rw [if_pos hroot, decide_eq_true hroot, hroot]
      exact rewrittenFrom_rewriteRoot fs tree resolved original
    · have hmember := rewrittenFrom_rewriteMember fs tree resolved (manifestPath dir) original
      rw [show (manifestPath dir).dropLast = dir from List.dropLast_concat] at hmember
      rw [if_neg hroot, decide_eq_false hroot]
      exact hmember
  obtain ⟨source, -, rfl⟩ := hrewritten.readTable htable
  obtain ⟨⟨k, entry⟩, -, heq⟩ := List.mem_map.mp hentry
  obtain ⟨rfl, rfl⟩ := Prod.mk.inj heq
  obtain ⟨hsamePath, hsamePackage⟩ := sameTarget_rewriteEntry fs
    { manifestDir := dir, membersByDir := tree.membersByDir } resolved k entry
  rw [hsamePath] at hpath
  rw [hsamePackage] at hpackage
  have hversion : plannedVersion fs { manifestDir := dir, membersByDir := tree.membersByDir }
      resolved entry k = some v := by
    unfold plannedVersion
    rw [hpath, hpackage]
    dsimp only
    rw [hplanned]
    exact if_pos (declares_of_pointsTo tree.dirsNodup hmember hpoints)
  unfold rewriteEntry at hrequirement
  rw [hversion] at hrequirement
  rw [dependencyRequirement_rewriteDepEntry] at hrequirement
  obtain ⟨old, -, rfl⟩ := Option.map_eq_some_iff.mp hrequirement
  exact requirementNamesVersion_rewriteReq old v

/-- The planned member declares the planned version. -/
theorem display_of_applied (hsemver : semver.Documented)
    (hedits : computeEdits fs tree resolved = .ok edits) (hplanned : resolved[target]? = some v)
    {old : Version} (hold : (tree.targetVersions semver)[target]? = some old) {version : Version}
    (hversion : ((tree.applied hedits).targetVersions semver)[target]? = some version) :
    version.display = v.display := by
  obtain ⟨dir, hmember, hdeclared⟩ := exists_of_targetVersions hversion
  obtain ⟨dir', hmember', hbefore⟩ := exists_of_targetVersions hold
  obtain rfl := eq_of_mem_of_nodup_snd tree.namesNodup hmember hmember'
  obtain ⟨root, doc, hread, hpackage⟩ := read_of_targetVersion hdeclared
  obtain ⟨root', original, horiginal, hidentity⟩ := read_of_targetVersion hbefore
  obtain ⟨original', hsame, rfl⟩ := read_of_computeEdits hedits (mem_manifestDirs hmember) hread
  obtain rfl := Except.ok.inj (horiginal.symm.trans hsame)
  rw [packageVersion_rewriteManifest (tree.named dir target hmember original horiginal) hplanned
    hidentity] at hpackage
  exact hsemver.parsed _ _ hpackage

end Applied

theorem requirementNamesVersion_congr {version v : Version} (h : version.display = v.display)
    (requirement : Text) :
    requirementNamesVersion requirement version = requirementNamesVersion requirement v := by
  unfold requirementNamesVersion
  rw [h]

/-- Applying a plan leaves no stale requirement on a planned package, in the
manifests and in what `cargo metadata` makes of them, exactly when the package
is not given a version with build metadata. -/
theorem applied_requirement_agrees_iff (semver : SemverCrate) (hsemver : semver.Documented)
    (fs : FileSystem) (tree : WorkTree ε) (plan : PlanFile) (pins : List (Text × Text))
    (resolved : ResolvedVersions)
    (hplan : resolvePlan semver plan (Groups.fromEdges (tree.targetVersions semver).keys pins)
      (tree.targetVersions semver) = .ok resolved)
    (edits : List ManifestEdit) (hedits : computeEdits fs tree resolved = .ok edits)
    (target requirement : Text) (v : Version) (hplanned : resolved[target]? = some v)
    (hdep : DeclaredDependency fs (tree.applied hedits) target requirement)
    (version : Version)
    (hversion : ((tree.applied hedits).targetVersions semver)[target]? = some version)
    (printed : Text) (hprinted : semver.printRequirement requirement = some printed) :
    (requirementNamesVersion requirement version = true ∧
      requirementNamesVersion printed version = true ∧
        ∀ req ∈ [requirement, printed],
          requirementIsStale ((tree.applied hedits).targetVersions semver) target req = false) ↔
      v.build = [] := by
  have htarget : target ∈ (tree.targetVersions semver).keys :=
    mem_targets_of_resolvePlan (Groups.members_fromEdges _ pins)
      (fun name hname => ExtTreeMap.mem_keys.mpr (ExtTreeMap.contains_iff_mem.mp hname)) hplan
      hplanned
  obtain ⟨old, hold⟩ : ∃ old, (tree.targetVersions semver)[target]? = some old :=
    ⟨_, ExtTreeMap.getElem?_eq_some_getElem (ExtTreeMap.mem_keys.mp htarget)⟩
  have hcongr := requirementNamesVersion_congr
    (display_of_applied hsemver hedits hplanned hold hversion)
  have hstale : ∀ req, requirementIsStale ((tree.applied hedits).targetVersions semver) target
      req = !requirementNamesVersion req v := fun req => by
    unfold requirementIsStale
    rw [hversion]
    exact congrArg not (hcongr req)
  have hnames := hdep.names hedits hplanned
  have hiff := requirementNamesVersion_printed_iff hsemver hnames hprinted
  rw [hcongr, hcongr, ← hiff]
  refine ⟨fun h => h.2.1, fun h => ⟨hnames, h, ?_⟩⟩
  simp only [List.forall_mem_cons, hstale, hnames, h, Bool.not_true, true_and]
  exact fun _ h => nomatch h

/-! A package `a` at 1.0.0 that `b` depends on, and plans for 1.2.3 with build
metadata and without. -/

def versionA : Version := { major := 1, minor := 0, patch := 0, fits := Version.one_fits }

def versionB : Version := { major := 1, minor := 2, patch := 3, build := "b".toList }

def versionC : Version := { major := 1, minor := 2, patch := 3 }

/-- The crate on requirements without spaces around them, and three versions. -/
def threeVersions : SemverCrate where
  parse text := [versionA, versionB, versionC].find? fun v => v.display == text
  compare a b := (compare a.major b.major).then
    ((compare a.minor b.minor).then (compare a.patch b.patch))
  printRequirement text :=
    if trim text = text then
      match text with
      | '^' :: rest => some ('^' :: rest.takeWhile (· != '+'))
      | '=' :: rest => some ('=' :: rest.takeWhile (· != '+'))
      | rest => some ('^' :: rest.takeWhile (· != '+'))
    else none

theorem takeWhile_display (v : Version) : v.display.takeWhile (· != '+') = v.withoutBuild := by
  have hid : ∀ c ∈ v.withoutBuild, (c != '+') = true := fun c hc => by
    rw [bne_iff_ne]
    rintro rfl
    nomatch isIdentifierChar_of_mem_withoutBuild hc
  unfold Version.display
  rw [List.takeWhile_append_of_pos hid]
  split
  next => exact List.append_nil _
  next => exact List.append_nil _

theorem threeVersions_documented : threeVersions.Documented where
  parsed text v h := beq_iff_eq.mp (List.find?_some (p := fun v : Version => v.display == text) h)
  bare v := by
    have hhead : ∀ op ∈ ['^', '='], ∀ rest, v.display ≠ op :: rest := by
      intro op hop rest heq
      have hmem : op ∈ v.display := heq ▸ List.mem_cons_self ..
      rcases printable_of_mem_display hmem with hid | rfl
      · rcases List.mem_cons.mp hop with rfl | hop
        · nomatch hid
        · rw [List.mem_singleton.mp hop] at hid
          nomatch hid
      · exact absurd hop (by decide)
    unfold threeVersions
    dsimp only
    rw [if_pos (trim_display v)]
    split
    next rest heq => exact absurd heq (hhead '^' (by decide) rest)
    next rest heq => exact absurd heq (hhead '=' (by decide) rest)
    next => rw [takeWhile_display]
  caret v := by
    refine (if_pos (trim_operator_cons (.inl rfl) fun _ hc => printable_of_mem_display hc)).trans ?_
    exact congrArg (fun rest => some ('^' :: rest)) (takeWhile_display v)
  exactly v := by
    refine (if_pos (trim_operator_cons (.inr rfl) fun _ hc => printable_of_mem_display hc)).trans ?_
    exact congrArg (fun rest => some ('=' :: rest)) (takeWhile_display v)
  spaces text printed h := by
    have htrim : trim text = text := by
      by_contra hne
      exact nomatch h.symm.trans (if_neg hne)
    rwa [htrim]

/-- Components between slashes. -/
def plainPaths : FileSystem where
  components text := (text.splitOn '/').map fun segment =>
    if segment = "..".toList then .parentDir
    else if segment = ".".toList then .curDir
    else .normal segment
  canonicalize path := some path

def packageManifest (name version : Text) : Text × Item :=
  ("package".toList, .table [("name".toList, .string name), ("version".toList, .string version)])

def twoManifests (path : Path) : Except Unit Entries :=
  if path = manifestPath [] then .ok []
  else if path = manifestPath [.normal "a".toList] then
    .ok [packageManifest "a".toList "1.0.0".toList]
  else if path = manifestPath [.normal "b".toList] then
    .ok [packageManifest "b".toList "1.0.0".toList,
      ("dependencies".toList, .table [("a".toList,
        .inlineTable [("path".toList, .string "../a".toList),
          ("version".toList, .string "1.0.0".toList)])])]
  else .error ()

def twoMembers : WorkTree Unit where
  workspaceRoot := []
  membersByDir :=
    [([.normal "a".toList], "a".toList), ([.normal "b".toList], "b".toList)]
  tracked _ := true
  read := twoManifests
  dirsNodup := by decide
  namesNodup := by decide
  named dir name hmem doc hread := by
    rcases List.mem_cons.mp hmem with heq | hmem
    · obtain ⟨rfl, rfl⟩ := Prod.mk.inj heq
      obtain rfl := Except.ok.inj hread
      rfl
    · obtain ⟨rfl, rfl⟩ := Prod.mk.inj (List.mem_singleton.mp hmem)
      obtain rfl := Except.ok.inj hread
      rfl

def planFor (version : Text) : PlanFile where
  schemaVersion := 8
  releaseHistory := none
  mergeTarget := none
  expanded := false
  increments := [{ name := "a".toList, bump := none, version := some version }]

def resolvedFor (version : Text) : ResolvedVersions :=
  match resolvePlan threeVersions (planFor version)
    (Groups.fromEdges (twoMembers.targetVersions threeVersions).keys [])
    (twoMembers.targetVersions threeVersions) with
  | .ok resolved => resolved
  | .error _ => ∅

/-- What the plan for a version comes to: everything that the workspace has to
fulfil, with the requirement of `b` on `a` and what it is printed as. -/
structure AppliedFor (version requirement printed : Text) (v : Version) : Prop where
  plan : resolvePlan threeVersions (planFor version)
    (Groups.fromEdges (twoMembers.targetVersions threeVersions).keys [])
    (twoMembers.targetVersions threeVersions) = .ok (resolvedFor version)
  planned : (resolvedFor version)["a".toList]? = some v
  edits : ∃ (edits : List ManifestEdit)
    (hedits : computeEdits plainPaths twoMembers (resolvedFor version) = .ok edits),
    DeclaredDependency plainPaths (twoMembers.applied hedits) "a".toList requirement ∧
      ((twoMembers.applied hedits).targetVersions threeVersions)["a".toList]? = some v
  printed : threeVersions.printRequirement requirement = some printed

theorem appliedFor_build : AppliedFor "1.2.3+b".toList "1.2.3+b".toList "^1.2.3".toList versionB where
  plan := rfl
  planned := by decide
  edits := by
    refine ⟨_, rfl, ⟨⟨[.normal "b".toList], _, _, "a".toList, _, by decide, rfl,
      .own (by decide : "dependencies".toList ∈ tableNames _) rfl, List.mem_singleton_self _, rfl, rfl,
      "../a".toList, [.normal "a".toList], rfl, by decide, .inl (by decide)⟩⟩, by decide⟩
  printed := by decide

theorem appliedFor_plain : AppliedFor "1.2.3".toList "1.2.3".toList "^1.2.3".toList versionC where
  plan := rfl
  planned := by decide
  edits := by
    refine ⟨_, rfl, ⟨⟨[.normal "b".toList], _, _, "a".toList, _, by decide, rfl,
      .own (by decide : "dependencies".toList ∈ tableNames _) rfl, List.mem_singleton_self _, rfl, rfl,
      "../a".toList, [.normal "a".toList], rfl, by decide, .inl (by decide)⟩⟩, by decide⟩
  printed := by decide

theorem applied_requirement_agrees_plain :
    ∃ (edits : List ManifestEdit)
      (hedits : computeEdits plainPaths twoMembers (resolvedFor "1.2.3".toList) = .ok edits),
      ∀ req ∈ ["1.2.3".toList, "^1.2.3".toList],
        requirementIsStale ((twoMembers.applied hedits).targetVersions threeVersions) "a".toList
          req = false := by
  obtain ⟨edits, hedits, hdep, hversion⟩ := appliedFor_plain.edits
  exact ⟨edits, hedits, ((applied_requirement_agrees_iff threeVersions threeVersions_documented
    plainPaths twoMembers (planFor "1.2.3".toList) [] _ appliedFor_plain.plan edits hedits
    "a".toList "1.2.3".toList versionC appliedFor_plain.planned hdep versionC hversion
    "^1.2.3".toList appliedFor_plain.printed).mpr rfl).2.2⟩

/-- With build metadata the requirement that was just applied is stale. -/
theorem applied_requirement_stale_with_build :
    threeVersions.Documented ∧
      resolvePlan threeVersions (planFor "1.2.3+b".toList)
        (Groups.fromEdges (twoMembers.targetVersions threeVersions).keys [])
        (twoMembers.targetVersions threeVersions) = .ok (resolvedFor "1.2.3+b".toList) ∧
      (resolvedFor "1.2.3+b".toList)["a".toList]? = some versionB ∧
      ∃ (edits : List ManifestEdit)
        (hedits : computeEdits plainPaths twoMembers (resolvedFor "1.2.3+b".toList) = .ok edits),
        DeclaredDependency plainPaths (twoMembers.applied hedits) "a".toList "1.2.3+b".toList ∧
          threeVersions.printRequirement "1.2.3+b".toList = some "^1.2.3".toList ∧
          requirementNamesVersion "^1.2.3".toList versionB = false ∧
          requirementIsStale ((twoMembers.applied hedits).targetVersions threeVersions) "a".toList
            "^1.2.3".toList = true := by
  obtain ⟨edits, hedits, hdep, hversion⟩ := appliedFor_build.edits
  refine ⟨threeVersions_documented, appliedFor_build.plan, appliedFor_build.planned, edits, hedits,
    hdep, appliedFor_build.printed, by decide, ?_⟩
  unfold requirementIsStale
  rw [hversion]
  decide

end Folo.ReleasePlan
