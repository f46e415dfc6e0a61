import Mathlib.Data.List.Infix
import Folo.ReleasePlan.Manifests

/-!
# Places of a document

A place is the keys that lead to an item (`Item.at`). A rewriting keeps the
places that it is not to change: of a value there, the value itself, and of a
table, what kind of table it is and its keys in their order (`KeepsOff`). Where
a rewriting goes down the tables, so does the proof (`keepsOff_mapTableLike`).
-/

namespace Folo.ReleasePlan

/-- The item at a place, if there is one. -/
def Item.at (item : Item) : List Text → Option Item
  | [] => some item
  | key :: place => (item.asTableLike.bind (Entries.get · key)).bind (Item.at · place)

/-- The item at a place of a document. -/
def Entries.at (doc : Entries) (place : List Text) : Option Item := (Item.table doc).at place

/-- An item without what its entries hold. -/
def Item.outline : Item → Item
  | .inlineTable entries => .inlineTable (entries.map fun entry => (entry.1, .other))
  | .table entries => .table (entries.map fun entry => (entry.1, .other))
  | item => item

/-- Each entry rewritten under its key. -/
def Entries.mapItems (g : Text → Item → Item) (entries : Entries) : Entries :=
  entries.map fun entry => (entry.1, g entry.1 entry.2)

/-! ## Lookups -/

@[simp] theorem Item.at_nil (item : Item) : item.at [] = some item := rfl

theorem Item.at_cons (item : Item) (key : Text) (place : List Text) :
    item.at (key :: place) =
      (item.asTableLike.bind (Entries.get · key)).bind (Item.at · place) := rfl

theorem Entries.at_cons (doc : Entries) (key : Text) (place : List Text) :
    doc.at (key :: place) = (doc.get key).bind (Item.at · place) := rfl

@[simp] theorem Entries.at_singleton (doc : Entries) (key : Text) : doc.at [key] = doc.get key := by
  rw [at_cons]
  cases doc.get key <;> rfl

theorem Item.at_append (item : Item) (place rest : List Text) :
    item.at (place ++ rest) = (item.at place).bind (Item.at · rest) := by
  induction place generalizing item with
  | nil => rfl
  | cons key place ih =>
    rw [List.cons_append, at_cons, at_cons]
    cases item.asTableLike.bind (Entries.get · key) with
    | none => rfl
    | some sub => exact ih sub

theorem Entries.at_append (doc : Entries) (place rest : List Text) :
    doc.at (place ++ rest) = (doc.at place).bind (Item.at · rest) :=
  Item.at_append ..

@[simp] theorem Entries.get_mapItems (g : Text → Item → Item) (entries : Entries) (key : Text) :
    (entries.mapItems g).get key = (entries.get key).map (g key) :=
  get_map entries g key

theorem Entries.modify_eq_mapItems (entries : Entries) (key : Text) (f : Item → Item) :
    entries.modify key f = entries.mapItems fun k item => if k = key then f item else item :=
  modify_eq entries key f

theorem Entries.mapItems_mapItems (entries : Entries) (g f : Text → Item → Item) :
    (entries.mapItems g).mapItems f = entries.mapItems fun key item => f key (g key item) :=
  List.map_map

theorem Entries.mapItems_congr {g f : Text → Item → Item} {entries : Entries}
    (h : ∀ entry ∈ entries, g entry.1 entry.2 = f entry.1 entry.2) :
    entries.mapItems g = entries.mapItems f :=
  List.map_congr_left fun entry hentry => by rw [h entry hentry]

/-- Rewriting twice is rewriting once when it is so for the items. -/
theorem Entries.mapItems_idem {g : Text → Item → Item}
    (h : ∀ key item, g key (g key item) = g key item) (entries : Entries) : (entries.mapItems g).mapItems g = entries.mapItems g := by
  rw [mapItems_mapItems]
  exact mapItems_congr fun entry _ => h entry.1 entry.2

theorem Entries.modify_idem {f : Item → Item} (h : ∀ item, f (f item) = f item) (key : Text)
    (entries : Entries) : (entries.modify key f).modify key f = entries.modify key f := by
  rw [modify_eq_mapItems, modify_eq_mapItems]
  refine mapItems_idem (fun k item => ?_) entries
  split
  · exact h item
  · rfl

theorem Item.mapTableLike_idem {f : Entries → Entries} (h : ∀ entries, f (f entries) = f entries)
    (item : Item) : (item.mapTableLike f).mapTableLike f = item.mapTableLike f := by
  cases item with
  | string value => rfl
  | boolean value => rfl
  | inlineTable entries => exact congrArg Item.inlineTable (h entries)
  | table entries => exact congrArg Item.table (h entries)
  | other => rfl

theorem Item.mapTableLike_eq_self {item : Item} (h : item.asTableLike = none)
    (f : Entries → Entries) : item.mapTableLike f = item := by
  cases item with
  | string value => rfl
  | boolean value => rfl
  | inlineTable entries => nomatch h
  | table entries => nomatch h
  | other => rfl

theorem Item.mapTableLike_congr {item : Item} {f g : Entries → Entries} {entries : Entries}
    (h : item.asTableLike = some entries) (heq : f entries = g entries) :
    item.mapTableLike f = item.mapTableLike g := by
  cases item with
  | string value => rfl
  | boolean value => rfl
  | inlineTable entries =>
    obtain rfl := Option.some.inj h
    exact congrArg Item.inlineTable heq
  | table entries =>
    obtain rfl := Option.some.inj h
    exact congrArg Item.table heq
  | other => rfl

/-! ## What stays as it is -/

/-- Outside the changed places the items have their outlines. -/
def KeepsOff (changed : List Text → Prop) (item item' : Item) : Prop :=
  ∀ place, ¬ changed place → (item'.at place).map Item.outline = (item.at place).map Item.outline

theorem KeepsOff.refl (changed : List Text → Prop) (item : Item) : KeepsOff changed item item :=
  fun _ _ => rfl

theorem outline_mapTableLike (g : Text → Item → Item) (item : Item) :
    (item.mapTableLike (Entries.mapItems g)).outline = item.outline := by
  cases item with
  | string value => rfl
  | boolean value => rfl
  | inlineTable entries => exact congrArg Item.inlineTable List.map_map
  | table entries => exact congrArg Item.table List.map_map
  | other => rfl

/-- A table keeps what its items keep. -/
theorem keepsOff_mapTableLike {changed : List Text → Prop} {g : Text → Item → Item} {item : Item}
    (h : ∀ entries key sub, item.asTableLike = some entries → entries.get key = some sub →
      KeepsOff (fun place => changed (key :: place)) sub (g key sub)) :
    KeepsOff changed item (item.mapTableLike (Entries.mapItems g)) := by
  intro place hplace
  cases place with
  | nil => exact congrArg some (outline_mapTableLike g item)
  | cons key place =>
    rw [Item.at_cons, Item.at_cons, asTableLike_mapTableLike]
    cases htable : item.asTableLike with
    | none => rfl
    | some entries =>
      rw [Option.map_some, Option.bind_some, Option.bind_some, Entries.get_mapItems]
      cases hget : entries.get key with
      | none => rfl
      | some sub => exact h entries key sub htable hget place hplace

theorem keepsOff_mapItems {changed : List Text → Prop} {g : Text → Item → Item} {doc : Entries}
    (h : ∀ key sub, doc.get key = some sub →
      KeepsOff (fun place => changed (key :: place)) sub (g key sub)) :
    KeepsOff changed (.table doc) (.table (doc.mapItems g)) := by
  have hkeeps : KeepsOff changed (.table doc) ((Item.table doc).mapTableLike (Entries.mapItems g)) :=
    keepsOff_mapTableLike fun entries key sub htable hget =>
      h key sub (Option.some.inj htable ▸ hget)
  exact hkeeps

/-- Only the item under a key is rewritten. -/
theorem keepsOff_modify {changed : List Text → Prop} {key : Text} {f : Item → Item} {item : Item}
    (h : ∀ entries sub, item.asTableLike = some entries → entries.get key = some sub →
      KeepsOff (fun place => changed (key :: place)) sub (f sub)) :
    KeepsOff changed item (item.mapTableLike fun entries => entries.modify key f) := by
  have hmodify : (fun entries : Entries => entries.modify key f) =
      Entries.mapItems fun k sub => if k = key then f sub else sub :=
    funext fun entries => entries.modify_eq_mapItems key f
  rw [hmodify]
  refine keepsOff_mapTableLike fun entries k sub htable hget => ?_
  split
  next heq =>
    subst heq
    exact h entries sub htable hget
  next => exact KeepsOff.refl _ _

end Folo.ReleasePlan
