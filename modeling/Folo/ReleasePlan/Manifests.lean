import Folo.ReleasePlan.Versions

/-!
# Manifests

Parsed manifests: what `apply.rs` and `crp_workspace` read of the documents of
`toml_edit`. Positions and comments are left out, as is the printing of a
document, which keeps both. The keys of a table are distinct.
-/

namespace Folo.ReleasePlan

inductive Item
  | string (value : Text)
  | boolean (value : Bool)
  | inlineTable (entries : List (Text × Item))
  | table (entries : List (Text × Item))
  /-- numbers, dates, arrays -/
  | other

/-- The entries of a table, in the order of the text. -/
abbrev Entries := List (Text × Item)

namespace Item

def asStr : Item → Option Text
  | .string value => some value
  | _ => none

def asBool : Item → Option Bool
  | .boolean value => some value
  | _ => none

def asTableLike : Item → Option Entries
  | .inlineTable entries => some entries
  | .table entries => some entries
  | _ => none

/-- The table of an item is rewritten, if it is one. -/
def mapTableLike (f : Entries → Entries) : Item → Item
  | .inlineTable entries => .inlineTable (f entries)
  | .table entries => .table (f entries)
  | item => item

end Item

namespace Entries

def get (entries : Entries) (key : Text) : Option Item :=
  (entries.find? fun entry => entry.1 == key).map Prod.snd

def containsKey (entries : Entries) (key : Text) : Bool := (entries.get key).isSome

/-- The item under a key is rewritten, if there is one. -/
def modify (entries : Entries) (key : Text) (f : Item → Item) : Entries :=
  entries.map fun entry => if entry.1 = key then (entry.1, f entry.2) else entry

end Entries

def isWorkspaceInherit (item : Item) : Bool :=
  (item.asTableLike.bind fun table => (table.get "workspace".toList).bind Item.asBool).getD false

/-- `DEPENDENCY_TABLES`. -/
def dependencyTables : List Text :=
  ["dependencies".toList, "dev-dependencies".toList, "build-dependencies".toList]

/-- The underscored spelling that editions before 2024 read too. -/
def legacyTableName (name : Text) : Option Text :=
  if name = "build-dependencies".toList then some "build_dependencies".toList
  else if name = "dev-dependencies".toList then some "dev_dependencies".toList
  else none

def dependencyTableName (table : Entries) (name : Text) : Option Text :=
  if table.containsKey name then some name
  else
    match legacyTableName name with
    | none => none
    | some legacy => if table.containsKey legacy then some legacy else none

/-! ## Reading what was rewritten -/

namespace Entries

theorem get_map (entries : Entries) (g : Text → Item → Item) (key : Text) :
    Entries.get (entries.map fun entry => (entry.1, g entry.1 entry.2)) key =
      (entries.get key).map (g key) := by
  unfold get
  induction entries with
  | nil => rfl
  | cons entry entries ih =>
    rw [List.map_cons, List.find?_cons, List.find?_cons]
    by_cases hkey : entry.1 = key
    · rw [beq_iff_eq.mpr hkey]
      exact congrArg (fun k => some (g k entry.2)) hkey
    · rw [beq_eq_false_iff_ne.mpr hkey]
      exact ih

theorem modify_eq (entries : Entries) (key : Text) (f : Item → Item) :
    entries.modify key f =
      entries.map fun entry => (entry.1, if entry.1 = key then f entry.2 else entry.2) := by
  unfold modify
  refine List.map_congr_left fun entry _ => ?_
  split <;> rfl

theorem get_modify (entries : Entries) (key other : Text) (f : Item → Item) :
    (entries.modify key f).get other =
      if other = key then (entries.get other).map f else entries.get other := by
  rw [modify_eq, get_map entries fun k item => if k = key then f item else item]
  split
  next => rfl
  next => exact Option.map_id'

@[simp] theorem containsKey_modify (entries : Entries) (key other : Text) (f : Item → Item) :
    (entries.modify key f).containsKey other = entries.containsKey other := by
  unfold containsKey
  rw [get_modify]
  split
  next => exact Option.isSome_map
  next => rfl

end Entries

@[simp] theorem dependencyTableName_modify (table : Entries) (key name : Text) (f : Item → Item) :
    dependencyTableName (table.modify key f) name = dependencyTableName table name := by
  unfold dependencyTableName
  simp only [Entries.containsKey_modify]

@[simp] theorem asTableLike_mapTableLike (f : Entries → Entries) (item : Item) :
    (item.mapTableLike f).asTableLike = item.asTableLike.map f := by
  cases item <;> rfl

end Folo.ReleasePlan
