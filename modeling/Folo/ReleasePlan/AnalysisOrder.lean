import Folo.Lib.Sorting
import Folo.Lib.Texts
import Folo.Lib.Worklist
import Folo.ReleasePlan.Reports
import Mathlib.Data.Char
import Mathlib.Data.List.Lex

/-!
# The order of analysis

`crp_versioning/analysis_order.rs`: the packages in batches, each a strong
component of the dependencies, every batch after those it depends on
(`analysisOrder_spec`). A panic, which is an `expect` or the assertion that
fails, is `none`. A `BTreeSet` is the list of its elements in order.
-/

namespace Folo.ReleasePlan

open Folo.Lib Std Relation

structure AnalysisBatch where
  order : Nat
  packages : List Text
  cyclic : Bool
  deriving DecidableEq

abbrev Edges := ExtTreeMap Text (List Text)

/-- What a visited package adds to the pending names, the last one first. -/
def unvisited (visited dependencies : List Text) : List Text :=
  (dependencies.filter (· ∉ visited)).reverse

/-- The loop of `reach`; the last pending name is the head. -/
def reachFrom (edges : Edges) (visited : List Text) : List Text → Option (List Text)
  | [] => some visited
  | name :: pending =>
    if name ∈ visited then reachFrom edges visited pending
    else match _h : edges[name]? with
      | none => none
      | some dependencies =>
        reachFrom edges (name :: visited) (unvisited (name :: visited) dependencies ++ pending)
  termination_by pending =>
    ((edges.keys.filter fun key => !visited.contains key).length, pending.length)
  decreasing_by
    · exact Prod.Lex.right _ (Nat.lt_succ_self _)
    · rename_i hnew
      refine Prod.Lex.left _ _ (filter_notMem_lt ?_ hnew)
      exact ExtTreeMap.mem_keys.mpr (ExtTreeMap.mem_iff_isSome_getElem?.mpr (by rw [_h]; rfl))

def reach (start : Text) (edges : Edges) : Option (List Text) :=
  (reachFrom edges [] [start]).map treeSet

/-- One round of the loop that collects a component. -/
def takeMember (reachable : ExtTreeMap Text (List Text)) (first : Text)
    (state : List Text × List Text) (name : Text) : Option (List Text × List Text) :=
  if name ∈ state.2 then do
    let back ← reachable[name]?
    if first ∈ back then some (state.1 ++ [name], state.2.erase name) else some state
  else some state

def takeMembers (reachable : ExtTreeMap Text (List Text)) (first : Text) (remaining : List Text) :
    Option (List Text × List Text) := do
  let found ← reachable[first]?
  found.foldlM (takeMember reachable first) ([first], remaining)

theorem length_takeMembers {reachable : ExtTreeMap Text (List Text)} {first : Text}
    {remaining : List Text} {result : List Text × List Text}
    (h : takeMembers reachable first remaining = some result) :
    result.2.length ≤ remaining.length := by
  obtain ⟨found, -, h⟩ := Option.bind_eq_some_iff.mp h
  suffices hfold : ∀ (found : List Text) state, found.foldlM (takeMember reachable first) state =
      some result → result.2.length ≤ state.2.length from hfold found ([first], remaining) h
  intro found
  induction found with
  | nil =>
    intro state h
    rw [← Option.some.inj h]
  | cons name found ih =>
    intro state h
    obtain ⟨next, hnext, h⟩ := Option.bind_eq_some_iff.mp h
    refine Nat.le_trans (ih next h) ?_
    unfold takeMember at hnext
    split at hnext
    · obtain ⟨back, -, hnext⟩ := Option.bind_eq_some_iff.mp hnext
      split at hnext
      · rw [← Option.some.inj hnext]
        exact List.length_erase_le
      · rw [← Option.some.inj hnext]
    · rw [← Option.some.inj hnext]

/-- The components in the order of their first members. -/
def componentsFrom (reachable : ExtTreeMap Text (List Text)) :
    List Text → Option (List (List Text))
  | [] => some []
  | first :: remaining =>
    match _h : takeMembers reachable first remaining with
    | none => none
    | some taken => do
      let components ← componentsFrom reachable taken.2
      some (taken.1.insertionSort (· ≤ ·) :: components)
  termination_by remaining => remaining.length
  decreasing_by exact Nat.lt_succ_of_le (length_takeMembers _h)

/-- Every dependency outside the component was emitted. -/
def isReady (edges : Edges) (emitted members : List Text) : Option Bool :=
  members.allM fun name => do
    let dependencies ← edges[name]?
    some (dependencies.all fun dependency => dependency ∈ emitted || dependency ∈ members)

def partition {α : Type} (ready : α → Option Bool) : List α → Option (List α × List α)
  | [] => some ([], [])
  | component :: components => do
    let isReady ← ready component
    let (yes, no) ← partition ready components
    some (if isReady then (component :: yes, no) else (yes, component :: no))

def emitBatch (state : List Text × List AnalysisBatch) (packages : List Text) :
    List Text × List AnalysisBatch :=
  (state.1 ++ packages,
    state.2 ++ [{ order := state.2.length + 1, packages, cyclic := 1 < packages.length }])

/-- What the partition keeps. -/
theorem partition_spec {α : Type} {ready : α → Option Bool} {components yes no : List α}
    (h : partition ready components = some (yes, no)) :
    components.Perm (yes ++ no) ∧ ∀ c ∈ yes, ready c = some true := by
  induction components generalizing yes no with
  | nil =>
    obtain ⟨rfl, rfl⟩ := Prod.mk.inj (Option.some.inj h)
    exact ⟨.nil, nofun⟩
  | cons component components ih =>
    obtain ⟨isReady, hready, h⟩ := Option.bind_eq_some_iff.mp h
    obtain ⟨⟨yes', no'⟩, hrest, h⟩ := Option.bind_eq_some_iff.mp h
    obtain ⟨hperm, hall⟩ := ih hrest
    cases isReady with
    | true =>
      obtain ⟨rfl, rfl⟩ := Prod.mk.inj (Option.some.inj h)
      exact ⟨hperm.cons _, List.forall_mem_cons.mpr ⟨hready, hall⟩⟩
    | false =>
      obtain ⟨rfl, rfl⟩ := Prod.mk.inj (Option.some.inj h)
      exact ⟨(hperm.cons _).trans List.perm_middle.symm, hall⟩

def batchesFrom (edges : Edges) (emitted : List Text) (batches : List AnalysisBatch)
    (components : List (List Text)) : Option (List AnalysisBatch) :=
  if components = [] then some batches
  else match _h : partition (isReady edges emitted) components with
    | none => none
    | some (ready, blocked) =>
      -- the assertion
      if ready = [] then none
      else
        let state := ready.foldl emitBatch (emitted, batches)
        batchesFrom edges state.1 state.2 blocked
  termination_by components.length
  decreasing_by
    rename_i hready
    rw [(partition_spec _h).1.length_eq, List.length_append]
    exact Nat.lt_add_of_pos_left (List.length_pos_iff.mpr hready)

def ReportFile.names (report : ReportFile) : List Text := treeSet (report.packages.map (·.name))

def ReportFile.edges (report : ReportFile) : Edges :=
  report.packages.foldl (fun edges package => edges.insert package.name
    (treeSet ((package.dependencies.map (·.name)).filter (· ∈ report.names)))) ∅

def reachableOf (names : List Text) (edges : Edges) : Option (ExtTreeMap Text (List Text)) :=
  names.foldlM (fun reachable name => do
    let reached ← reach name edges
    some (reachable.insert name reached)) ∅

def analysisOrder (report : ReportFile) : Option (List AnalysisBatch) := do
  let reachable ← reachableOf report.names report.edges
  let components ← componentsFrom reachable report.names
  batchesFrom report.edges [] [] components

/-! ## What is reached -/

namespace Edges

/-- `a` depends on `b`. -/
def Step (edges : Edges) (a b : Text) : Prop := ∃ dependencies, edges[a]? = some dependencies ∧
  b ∈ dependencies

/-- Every dependency is a package. -/
def Closed (edges : Edges) : Prop := ∀ a b, edges.Step a b → ∃ dependencies,
  edges[b]? = some dependencies

end Edges

/-- Where every dependency of what was visited is visited or pending, the loop
returns what is reached. -/
theorem reachFrom_spec {edges : Edges} (hclosed : edges.Closed) (visited pending : List Text)
    (hpending : ∀ name ∈ pending, ∃ dependencies, edges[name]? = some dependencies)
    (hinv : ∀ a ∈ visited, ∀ b, edges.Step a b → b ∈ visited ∨ b ∈ pending) :
    ∃ result, reachFrom edges visited pending = some result ∧
      (∀ name, name ∈ visited ∨ name ∈ pending → name ∈ result) ∧
      (∀ a ∈ result, ∀ b, edges.Step a b → b ∈ result) ∧
      ∀ b ∈ result, b ∈ visited ∨ ∃ a ∈ pending, ReflTransGen edges.Step a b := by
  fun_induction reachFrom edges visited pending with
  | case1 visited =>
    refine ⟨visited, rfl, fun name h => h.elim id nofun, fun a ha b hab => ?_, fun b hb => .inl hb⟩
    exact (hinv a ha b hab).elim id nofun
  | case2 visited name pending hin ih =>
    obtain ⟨result, hresult, hmem, hstep, hreach⟩ := ih
      (fun name h => hpending name (List.mem_cons_of_mem _ h)) fun a ha b hab => by
        rcases hinv a ha b hab with h | h
        · exact .inl h
        · rcases List.mem_cons.mp h with rfl | h
          · exact .inl hin
          · exact .inr h
    refine ⟨result, hresult, fun n hn => hmem n ?_, hstep, fun b hb => ?_⟩
    · rcases hn with h | h
      · exact .inl h
      · rcases List.mem_cons.mp h with rfl | h
        · exact .inl hin
        · exact .inr h
    · refine (hreach b hb).imp_right ?_
      rintro ⟨a, ha, hab⟩
      exact ⟨a, List.mem_cons_of_mem _ ha, hab⟩
  | case3 visited name pending _ hnone =>
    obtain ⟨dependencies, hsome⟩ := hpending name (List.mem_cons_self ..)
    rw [hnone] at hsome
    nomatch hsome
  | case4 visited name pending _ dependencies hsome ih =>
    -- a dependency of the name is visited already or becomes pending
    have hnext : ∀ b ∈ dependencies, b ∈ name :: visited ∨
        b ∈ unvisited (name :: visited) dependencies ++ pending := by
      intro b hb
      by_cases hvisited : b ∈ name :: visited
      · exact .inl hvisited
      · refine .inr (List.mem_append_left _ (List.mem_reverse.mpr ?_))
        exact List.mem_filter.mpr ⟨hb, decide_eq_true hvisited⟩
    have hsource : ∀ b ∈ unvisited (name :: visited) dependencies ++ pending,
        b ∈ dependencies ∨ b ∈ pending := by
      intro b hb
      rcases List.mem_append.mp hb with hb | hb
      · exact .inl (List.mem_filter.mp (List.mem_reverse.mp hb)).1
      · exact .inr hb
    obtain ⟨result, hresult, hmem, hstep, hreach⟩ := ih (fun b hb => by
      rcases hsource b hb with h | h
      · exact hclosed name b ⟨dependencies, hsome, h⟩
      · exact hpending b (List.mem_cons_of_mem _ h)) fun a ha b hab => by
        rcases List.mem_cons.mp ha with rfl | ha
        · obtain ⟨ds, hds, hb⟩ := hab
          rw [hsome] at hds
          exact hnext b (Option.some.inj hds ▸ hb)
        · rcases hinv a ha b hab with h | h
          · exact .inl (List.mem_cons_of_mem _ h)
          · rcases List.mem_cons.mp h with rfl | h
            · exact .inl (List.mem_cons_self ..)
            · exact .inr (List.mem_append_right _ h)
    refine ⟨result, hresult, fun n hn => hmem n ?_, hstep, fun b hb => ?_⟩
    · rcases hn with h | h
      · exact .inl (List.mem_cons_of_mem _ h)
      · rcases List.mem_cons.mp h with rfl | h
        · exact .inl (List.mem_cons_self ..)
        · exact .inr (List.mem_append_right _ h)
    · rcases hreach b hb with h | ⟨a, ha, hab⟩
      · rcases List.mem_cons.mp h with rfl | h
        · exact .inr ⟨b, List.mem_cons_self .., .refl⟩
        · exact .inl h
      · rcases hsource a ha with h | h
        · exact .inr ⟨name, List.mem_cons_self .., .head ⟨dependencies, hsome, h⟩ hab⟩
        · exact .inr ⟨a, List.mem_cons_of_mem _ h, hab⟩

theorem reach_spec {edges : Edges} (hclosed : edges.Closed) {start : Text}
    (hstart : ∃ dependencies, edges[start]? = some dependencies) :
    ∃ reached, reach start edges = some reached ∧ reached.Nodup ∧
      ∀ name, name ∈ reached ↔ ReflTransGen edges.Step start name := by
  obtain ⟨result, hresult, hmem, hstep, hreach⟩ := reachFrom_spec hclosed [] [start]
    (fun name h => List.mem_singleton.mp h ▸ hstart) nofun
  refine ⟨treeSet result, ?_, nodup_treeSet _, fun name => ?_⟩
  · unfold reach
    rw [hresult]
    rfl
  rw [mem_treeSet]
  constructor
  · intro h
    obtain ⟨a, ha, hreached⟩ := (hreach name h).resolve_left nofun
    rwa [List.mem_singleton.mp ha] at hreached
  · exact mem_of_reflTransGen (S := (· ∈ result)) (fun a b ha hab => hstep a ha b hab)
      (hmem start (.inr (List.mem_singleton.mpr rfl)))

/-- What the reachability of the names is. -/
def Reached (edges : Edges) (reachable : ExtTreeMap Text (List Text)) (name : Text) : Prop :=
  ∃ reached, reachable[name]? = some reached ∧
    ∀ other, other ∈ reached ↔ ReflTransGen edges.Step name other

theorem reachableOf_spec {edges : Edges} (hclosed : edges.Closed) {names : List Text}
    (hnames : ∀ name ∈ names, ∃ dependencies, edges[name]? = some dependencies) :
    ∃ reachable, reachableOf names edges = some reachable ∧
      ∀ name ∈ names, Reached edges reachable name := by
  suffices hfold : ∀ (names : List Text) (known : ExtTreeMap Text (List Text)),
      (∀ name ∈ names, ∃ dependencies, edges[name]? = some dependencies) →
      ∃ reachable, names.foldlM (fun (known : ExtTreeMap Text (List Text)) name => do
          let reached ← reach name edges
          some (known.insert name reached)) known = some reachable ∧
        ∀ name, name ∈ names ∨ Reached edges known name → Reached edges reachable name by
    obtain ⟨reachable, hfold, hall⟩ := hfold names ∅ hnames
    exact ⟨reachable, hfold, fun name hname => hall name (.inl hname)⟩
  intro names
  induction names with
  | nil => exact fun known _ => ⟨known, rfl, fun name h => h.resolve_left nofun⟩
  | cons first names ih =>
    intro known hnames
    obtain ⟨hfirst, hnames⟩ := List.forall_mem_cons.mp hnames
    obtain ⟨reached, hreached, -, hmem⟩ := reach_spec hclosed hfirst
    obtain ⟨reachable, hfold, hall⟩ := ih (known.insert first reached) hnames
    refine ⟨reachable, ?_, fun name h => hall name ?_⟩
    · rw [List.foldlM_cons, hreached]
      exact hfold
    · by_cases heq : first = name
      · subst heq
        refine .inr ⟨reached, ?_, hmem⟩
        rw [getElem?_insert, if_pos rfl]
      · rcases h with h | ⟨old, hold, hspec⟩
        · exact .inl ((List.mem_cons.mp h).resolve_left fun h => heq h.symm)
        · refine .inr ⟨old, ?_, hspec⟩
          rw [getElem?_insert, if_neg heq, hold]

/-! ## Components -/

/-- The loop takes, of what remains, the names found that reach the first one. -/
theorem foldlM_takeMember {edges : Edges} {reachable : ExtTreeMap Text (List Text)} {first : Text}
    (found : List Text) (state : List Text × List Text)
    (hreached : ∀ name ∈ state.2, Reached edges reachable name)
    (hnodup : (state.1 ++ state.2).Nodup) :
    ∃ result, found.foldlM (takeMember reachable first) state = some result ∧
      (result.1 ++ result.2).Nodup ∧
      (∀ x, x ∈ result.1 ↔ x ∈ state.1 ∨
        (x ∈ found ∧ x ∈ state.2 ∧ ReflTransGen edges.Step x first)) ∧
      ∀ x, x ∈ result.2 ↔ x ∈ state.2 ∧ ¬(x ∈ found ∧ ReflTransGen edges.Step x first) := by
  induction found generalizing state with
  | nil => exact ⟨state, rfl, hnodup, fun x => by simp, fun x => by simp⟩
  | cons name found ih =>
    rw [List.foldlM_cons]
    by_cases hin : name ∈ state.2
    · obtain ⟨back, hback, hmem⟩ := hreached name hin
      by_cases hfirst : first ∈ back
      · -- the name moves from what remains to the members
        have hstep : takeMember reachable first state name =
            some (state.1 ++ [name], state.2.erase name) := by
          unfold takeMember
          rw [if_pos hin, hback, Option.bind_eq_bind, Option.bind_some, if_pos hfirst]
        have hrest : state.2.Nodup := (List.nodup_append.mp hnodup).2.1
        have hperm : (state.1 ++ state.2).Perm (state.1 ++ [name] ++ state.2.erase name) := by
          rw [List.append_assoc]
          exact (List.perm_cons_erase hin).append_left _
        obtain ⟨result, hfold, hdisjoint, hmembers, hremaining⟩ :=
          ih (state.1 ++ [name], state.2.erase name)
            (fun x hx => hreached x (List.mem_of_mem_erase hx)) (hperm.nodup_iff.mp hnodup)
        rw [hstep]
        have hback := (hmem first).mp hfirst
        refine ⟨result, hfold, hdisjoint, fun x => ?_, fun x => ?_⟩
        · rw [hmembers, List.mem_append, List.mem_singleton, hrest.mem_erase_iff, List.mem_cons]
          constructor
          · rintro ((h | rfl) | ⟨hx, ⟨-, hx'⟩, hr⟩)
            · exact .inl h
            · exact .inr ⟨.inl rfl, hin, hback⟩
            · exact .inr ⟨.inr hx, hx', hr⟩
          · rintro (h | ⟨rfl | hx, hx', hr⟩)
            · exact .inl (.inl h)
            · exact .inl (.inr rfl)
            · by_cases heq : x = name
              · exact .inl (.inr heq)
              · exact .inr ⟨hx, ⟨heq, hx'⟩, hr⟩
        · rw [hremaining, hrest.mem_erase_iff, List.mem_cons]
          constructor
          · rintro ⟨⟨hne, hx⟩, hnot⟩
            exact ⟨hx, fun ⟨h, hr⟩ => hnot ⟨h.resolve_left hne, hr⟩⟩
          · rintro ⟨hx, hnot⟩
            refine ⟨⟨fun heq => hnot ⟨.inl heq, heq ▸ hback⟩, hx⟩, fun ⟨h, hr⟩ => ?_⟩
            exact hnot ⟨.inr h, hr⟩
      · have hstep : takeMember reachable first state name = some state := by
          unfold takeMember
          rw [if_pos hin, hback, Option.bind_eq_bind, Option.bind_some, if_neg hfirst]
        have hnot : ¬ReflTransGen edges.Step name first := fun h => hfirst ((hmem first).mpr h)
        obtain ⟨result, hfold, hdisjoint, hmembers, hremaining⟩ := ih _ hreached hnodup
        rw [hstep]
        refine ⟨result, hfold, hdisjoint, fun x => ?_, fun x => ?_⟩
        · rw [hmembers, List.mem_cons]
          refine or_congr_right ⟨fun h => ⟨.inr h.1, h.2⟩, fun h => ⟨?_, h.2⟩⟩
          exact h.1.resolve_left fun heq => hnot (heq ▸ h.2.2)
        · rw [hremaining, List.mem_cons]
          refine and_congr_right fun _ => not_congr ⟨fun h => ⟨.inr h.1, h.2⟩, fun h => ⟨?_, h.2⟩⟩
          exact h.1.resolve_left fun heq => hnot (heq ▸ h.2)
    · have hstep : takeMember reachable first state name = some state := if_neg hin
      obtain ⟨result, hfold, hdisjoint, hmembers, hremaining⟩ := ih _ hreached hnodup
      rw [hstep]
      refine ⟨result, hfold, hdisjoint, fun x => ?_, fun x => ?_⟩
      · rw [hmembers, List.mem_cons]
        refine or_congr_right ⟨fun h => ⟨.inr h.1, h.2⟩, fun h => ⟨?_, h.2⟩⟩
        exact h.1.resolve_left fun heq => hin (heq ▸ h.2.1)
      · rw [hremaining, List.mem_cons]
        refine and_congr_right fun hx => not_congr ⟨fun h => ⟨.inr h.1, h.2⟩, fun h => ⟨?_, h.2⟩⟩
        exact h.1.resolve_left fun heq => hin (heq ▸ hx)

/-- What remains is split into the component of the first name and the rest. -/
theorem takeMembers_spec {edges : Edges} {reachable : ExtTreeMap Text (List Text)} {first : Text}
    {remaining : List Text}
    (hreached : ∀ name ∈ first :: remaining, Reached edges reachable name)
    (hnodup : (first :: remaining).Nodup) :
    ∃ members rest, takeMembers reachable first remaining = some (members, rest) ∧
      (members ++ rest).Nodup ∧
      (∀ x, x ∈ members ↔ x ∈ first :: remaining ∧ Mutual edges.Step first x) ∧
      ∀ x, x ∈ rest ↔ x ∈ first :: remaining ∧ ¬Mutual edges.Step first x := by
  obtain ⟨hfirst, hrest⟩ := List.forall_mem_cons.mp hreached
  obtain ⟨found, hfound, hmem⟩ := hfirst
  obtain ⟨⟨members, rest⟩, hfold, hdisjoint, hmembers, hremaining⟩ :=
    foldlM_takeMember found ([first], remaining) hrest hnodup
  refine ⟨members, rest, ?_, hdisjoint, fun x => ?_, fun x => ?_⟩
  · unfold takeMembers
    rw [hfound]
    exact hfold
  · rw [hmembers, List.mem_singleton, List.mem_cons, hmem]
    constructor
    · rintro (rfl | ⟨hreach, hx, hback⟩)
      · exact ⟨.inl rfl, .refl x⟩
      · exact ⟨.inr hx, hreach, hback⟩
    · rintro ⟨rfl | hx, hreach, hback⟩
      · exact .inl rfl
      · exact .inr ⟨hreach, hx, hback⟩
  · rw [hremaining, List.mem_cons, hmem]
    constructor
    · exact fun h => ⟨.inr h.1, h.2⟩
    · rintro ⟨rfl | hx, hnot⟩
      · exact absurd (.refl x) hnot
      · exact ⟨hx, hnot⟩

theorem componentsFrom_cons {reachable : ExtTreeMap Text (List Text)} {first : Text}
    {remaining : List Text} {taken : List Text × List Text}
    (h : takeMembers reachable first remaining = some taken) :
    componentsFrom reachable (first :: remaining) =
      (componentsFrom reachable taken.2).bind fun components =>
        some (taken.1.insertionSort (· ≤ ·) :: components) := by
  rw [componentsFrom]
  split
  next hnone => rw [h] at hnone; nomatch hnone
  next taken' hsome =>
    obtain rfl := Option.some.inj (h.symm.trans hsome)
    rfl

/-- The names in their components. -/
structure IsPartition (edges : Edges) (names : List Text) (components : List (List Text)) :
    Prop where
  component : ∀ c ∈ components, ∃ x ∈ names, ∀ y, y ∈ c ↔ y ∈ names ∧ Mutual edges.Step x y
  covered : ∀ x, x ∈ names ↔ x ∈ components.flatten
  nodup : components.flatten.Nodup

theorem componentsFrom_spec {edges : Edges} {reachable : ExtTreeMap Text (List Text)}
    {names : List Text} (hreached : ∀ name ∈ names, Reached edges reachable name)
    (hnodup : names.Nodup) :
    ∃ components, componentsFrom reachable names = some components ∧
      IsPartition edges names components := by
  induction hn : names.length using Nat.strong_induction_on generalizing names with
  | _ n ih =>
  cases names with
  | nil =>
    refine ⟨[], by rw [componentsFrom], nofun, fun x => Iff.rfl, .nil⟩
  | cons first remaining =>
    obtain ⟨members, rest, htaken, hdisjoint, hmembers, hrest⟩ := takeMembers_spec hreached hnodup
    obtain ⟨hmem, hrestNodup, hne⟩ := List.nodup_append.mp hdisjoint
    have hlength : rest.length < n := by
      have := length_takeMembers htaken
      rw [← hn, List.length_cons]
      exact Nat.lt_succ_of_le this
    obtain ⟨components, hcomponents, hpartition⟩ := ih _ hlength
      (fun name h => hreached name ((hrest name).mp h).1) hrestNodup rfl
    have hperm := List.perm_insertionSort (· ≤ ·) members
    refine ⟨members.insertionSort (· ≤ ·) :: components, ?_, ?_, fun x => ?_, ?_⟩
    · rw [componentsFrom_cons htaken, hcomponents]
      rfl
    · refine List.forall_mem_cons.mpr ⟨⟨first, List.mem_cons_self .., fun y => ?_⟩, ?_⟩
      · rw [hperm.mem_iff, hmembers]
      · intro c hc
        obtain ⟨x, hx, hspec⟩ := hpartition.component c hc
        obtain ⟨hx, hnot⟩ := (hrest x).mp hx
        refine ⟨x, hx, fun y => ?_⟩
        rw [hspec, hrest]
        refine ⟨fun h => ⟨h.1.1, h.2⟩, fun h => ⟨⟨h.1, fun hy => hnot ?_⟩, h.2⟩⟩
        exact hy.trans h.2.symm
    · rw [List.flatten_cons, List.mem_append, hperm.mem_iff, ← hpartition.covered, hmembers, hrest]
      tauto
    · rw [List.flatten_cons, List.nodup_append]
      refine ⟨hperm.nodup_iff.mpr hmem, hpartition.nodup, fun a ha b hb => ?_⟩
      exact hne a (hperm.mem_iff.mp ha) b ((hpartition.covered b).mpr hb)

/-! ## Batches -/

theorem isReady_spec {edges : Edges} (emitted members : List Text)
    (hmembers : ∀ name ∈ members, ∃ dependencies, edges[name]? = some dependencies) :
    ∃ ready, isReady edges emitted members = some ready ∧ (ready = true ↔
      ∀ a ∈ members, ∀ b, edges.Step a b → b ∈ emitted ∨ b ∈ members) := by
  suffices hall : ∀ names : List Text, (∀ name ∈ names, ∃ dependencies,
      edges[name]? = some dependencies) →
      ∃ ready, names.allM (fun name => do
          let dependencies ← edges[name]?
          some (dependencies.all fun d => d ∈ emitted || d ∈ members)) = some ready ∧
        (ready = true ↔ ∀ a ∈ names, ∀ b, edges.Step a b → b ∈ emitted ∨ b ∈ members) from
    hall members hmembers
  intro names
  induction names with
  | nil => exact fun _ => ⟨true, rfl, fun _ => nofun, fun _ => rfl⟩
  | cons name names ih =>
    intro hnames
    obtain ⟨⟨dependencies, hsome⟩, hnames⟩ := List.forall_mem_cons.mp hnames
    obtain ⟨ready, hready, hspec⟩ := ih hnames
    have hone : (dependencies.all fun d => d ∈ emitted || d ∈ members) = true ↔
        ∀ b, edges.Step name b → b ∈ emitted ∨ b ∈ members := by
      rw [List.all_eq_true]
      constructor
      · rintro h b ⟨ds, hds, hb⟩
        rw [hsome] at hds
        simpa using h b (Option.some.inj hds ▸ hb)
      · intro h d hd
        simpa using h d ⟨dependencies, hsome, hd⟩
    cases hfirst : dependencies.all fun d => d ∈ emitted || d ∈ members with
    | true =>
      refine ⟨ready, ?_, ?_⟩
      · simp only [List.allM, hsome, Option.bind_eq_bind, Option.bind_some, hfirst]
        exact hready
      · rw [hspec, List.forall_mem_cons, and_iff_right (hone.mp hfirst)]
    | false =>
      refine ⟨false, ?_, ⟨nofun, fun h => ?_⟩⟩
      · simp only [List.allM, hsome, Option.bind_eq_bind, Option.bind_some, hfirst]
        rfl
      · rw [hone.mpr (List.forall_mem_cons.mp h).1] at hfirst
        nomatch hfirst

theorem exists_partition {α : Type} {ready : α → Option Bool} {components : List α}
    (h : ∀ c ∈ components, ∃ isReady, ready c = some isReady) :
    ∃ yes no, partition ready components = some (yes, no) := by
  induction components with
  | nil => exact ⟨[], [], rfl⟩
  | cons component components ih =>
    obtain ⟨⟨isReady, hready⟩, hrest⟩ := List.forall_mem_cons.mp h
    obtain ⟨yes, no, hpartition⟩ := ih hrest
    unfold partition
    rw [hready, hpartition]
    cases isReady with
    | true => exact ⟨_, _, rfl⟩
    | false => exact ⟨_, _, rfl⟩

/-- A component that is ready is among those that the partition says are. -/
theorem mem_of_partition {α : Type} {ready : α → Option Bool} {components yes no : List α}
    (h : partition ready components = some (yes, no)) {c : α} (hc : c ∈ components)
    (hready : ready c = some true) : c ∈ yes := by
  induction components generalizing yes no with
  | nil => nomatch hc
  | cons component components ih =>
    obtain ⟨isReady, hfirst, h⟩ := Option.bind_eq_some_iff.mp h
    obtain ⟨⟨yes', no'⟩, hrest, h⟩ := Option.bind_eq_some_iff.mp h
    rcases List.mem_cons.mp hc with rfl | hc
    · obtain rfl := Option.some.inj (hready.symm.trans hfirst)
      obtain ⟨rfl, rfl⟩ := Prod.mk.inj (Option.some.inj h)
      exact List.mem_cons_self ..
    · have hin := ih hrest hc
      cases isReady with
      | true =>
        obtain ⟨rfl, rfl⟩ := Prod.mk.inj (Option.some.inj h)
        exact List.mem_cons_of_mem _ hin
      | false =>
        obtain ⟨rfl, rfl⟩ := Prod.mk.inj (Option.some.inj h)
        exact hin

/-- What a batch is, after the batches before it. -/
structure BatchSound (edges : Edges) (names : List Text) (before : List AnalysisBatch)
    (batch : AnalysisBatch) : Prop where
  order : batch.order = before.length + 1
  cyclic : batch.cyclic = decide (1 < batch.packages.length)
  component : ∃ x ∈ names, ∀ y, y ∈ batch.packages ↔ y ∈ names ∧ Mutual edges.Step x y
  earlier : ∀ a ∈ batch.packages, ∀ b, edges.Step a b →
    b ∈ batch.packages ∨ b ∈ before.flatMap (·.packages)

def Sound (edges : Edges) (names : List Text) (batches : List AnalysisBatch) : Prop :=
  ∀ before batch after, batches = before ++ batch :: after → BatchSound edges names before batch

theorem Sound.concat {edges : Edges} {names : List Text} {batches : List AnalysisBatch}
    {batch : AnalysisBatch} (h : Sound edges names batches)
    (hbatch : BatchSound edges names batches batch) : Sound edges names (batches ++ [batch]) := by
  intro before b after heq
  rcases List.eq_nil_or_concat after with rfl | ⟨rest, last, rfl⟩
  · obtain ⟨rfl, hb⟩ := List.append_inj' heq rfl
    obtain rfl := List.singleton_inj.mp hb
    exact hbatch
  · rw [List.concat_eq_append, ← List.cons_append, ← List.append_assoc] at heq
    exact h before b rest (List.append_inj' heq rfl).1

/-- Where the loop stands: what was emitted, and the components that remain. -/
structure Progress (edges : Edges) (names emitted : List Text) (batches : List AnalysisBatch)
    (components : List (List Text)) : Prop where
  emitted_eq : emitted = batches.flatMap (·.packages)
  sound : Sound edges names batches
  component : ∀ c ∈ components, ∃ x ∈ names, ∀ y, y ∈ c ↔ y ∈ names ∧ Mutual edges.Step x y
  covered : ∀ x, x ∈ names ↔ x ∈ emitted ++ components.flatten
  nodup : (emitted ++ components.flatten).Nodup

/-- Emitting components that are ready. -/
theorem Progress.emit {edges : Edges} {names emitted : List Text} {batches : List AnalysisBatch}
    {ready blocked : List (List Text)}
    (h : Progress edges names emitted batches (ready ++ blocked))
    (hready : ∀ c ∈ ready, ∀ a ∈ c, ∀ b, edges.Step a b → b ∈ emitted ∨ b ∈ c) :
    Progress edges names (ready.foldl emitBatch (emitted, batches)).1
      (ready.foldl emitBatch (emitted, batches)).2 blocked := by
  induction ready generalizing emitted batches with
  | nil => exact h
  | cons first ready ih =>
    obtain ⟨hfirst, hready⟩ := List.forall_mem_cons.mp hready
    obtain ⟨hemitted, hsound, hcomponent, hcovered, hnodup⟩ := h
    have hassoc : emitted ++ (first :: ready ++ blocked).flatten =
        emitted ++ first ++ (ready ++ blocked).flatten := by
      rw [List.cons_append, List.flatten_cons, List.append_assoc]
    refine ih ⟨?_, hsound.concat ⟨rfl, rfl, ?_, ?_⟩, ?_, ?_, ?_⟩ ?_
    · rw [List.flatMap_append, List.flatMap_singleton, ← hemitted]
    · exact hcomponent first (List.mem_cons_self ..)
    · rw [← hemitted]
      exact fun a ha b hab => (hfirst a ha b hab).symm
    · exact fun c hc => hcomponent c (List.mem_cons_of_mem _ hc)
    · rw [← hassoc]
      exact hcovered
    · rw [← hassoc]
      exact hnodup
    · intro c hc a ha b hab
      exact (hready c hc a ha b hab).imp_left (List.mem_append_left _)

/-- As long as a component remains, one of them is ready. -/
theorem Progress.exists_ready {edges : Edges} {names emitted : List Text}
    {batches : List AnalysisBatch} {components : List (List Text)} (hclosed : edges.Closed)
    (hnames : ∀ name, name ∈ names ↔ ∃ dependencies, edges[name]? = some dependencies)
    (h : Progress edges names emitted batches components) (hne : components ≠ []) :
    ∃ c ∈ components, isReady edges emitted c = some true := by
  have hflatten : components.flatten ≠ [] := by
    obtain ⟨c, hc⟩ := List.exists_mem_of_ne_nil components hne
    obtain ⟨x, hx, hspec⟩ := h.component c hc
    exact List.ne_nil_of_mem (List.mem_flatten_of_mem hc ((hspec x).mpr ⟨hx, .refl x⟩))
  -- a component from which no other one that remains is reached
  obtain ⟨x, hx, hfinal⟩ := exists_final (r := edges.Step) hflatten
  obtain ⟨c, hc, hxc⟩ := List.mem_flatten.mp hx
  obtain ⟨first, -, hspec⟩ := h.component c hc
  obtain ⟨ready, hready, hiff⟩ := isReady_spec emitted c
    fun a ha => (hnames a).mp ((hspec a).mp ha).1
  have htrue : ready = true := by
    rw [hiff]
    intro a ha b hab
    have hb : b ∈ names := (hnames b).mpr (hclosed a b hab)
    rcases List.mem_append.mp ((h.covered b).mp hb) with hin | hin
    · exact .inl hin
    · have hxa := ((hspec x).mp hxc).2.symm.trans ((hspec a).mp ha).2
      have hxb := hfinal b hin (hxa.1.tail hab)
      exact .inr ((hspec b).mpr ⟨hb, ((hspec x).mp hxc).2.trans hxb⟩)
  exact ⟨c, hc, htrue ▸ hready⟩

theorem batchesFrom_eq {edges : Edges} {emitted : List Text} {batches : List AnalysisBatch}
    {components ready blocked : List (List Text)} (hne : components ≠ [])
    (h : partition (isReady edges emitted) components = some (ready, blocked))
    (hready : ready ≠ []) : batchesFrom edges emitted batches components =
      batchesFrom edges (ready.foldl emitBatch (emitted, batches)).1
        (ready.foldl emitBatch (emitted, batches)).2 blocked := by
  rw [batchesFrom, if_neg hne]
  split
  next hnone => rw [h] at hnone; nomatch hnone
  next hsome =>
    obtain ⟨rfl, rfl⟩ := Prod.mk.inj (Option.some.inj (h.symm.trans hsome))
    rw [if_neg hready]

/-- The loop ends with every name in a batch, and the assertion holds throughout. -/
theorem batchesFrom_spec {edges : Edges} {names : List Text} (emitted : List Text)
    (batches : List AnalysisBatch) {components : List (List Text)} (hclosed : edges.Closed)
    (hnames : ∀ name, name ∈ names ↔ ∃ dependencies, edges[name]? = some dependencies)
    (h : Progress edges names emitted batches components) :
    ∃ result, batchesFrom edges emitted batches components = some result ∧
      Progress edges names (result.flatMap (·.packages)) result [] := by
  induction hn : components.length using Nat.strong_induction_on
    generalizing emitted batches components with
  | _ n ih =>
  by_cases hne : components = []
  · subst hne
    refine ⟨batches, ?_, h.emitted_eq ▸ h⟩
    rw [batchesFrom, if_pos rfl]
  · have htotal : ∀ c ∈ components, ∃ ready, isReady edges emitted c = some ready := by
      intro c hc
      obtain ⟨x, -, hspec⟩ := h.component c hc
      obtain ⟨ready, hready, -⟩ := isReady_spec emitted c
        fun a ha => (hnames a).mp ((hspec a).mp ha).1
      exact ⟨ready, hready⟩
    obtain ⟨ready, blocked, hpartition⟩ := exists_partition htotal
    obtain ⟨c, hc, hready⟩ := h.exists_ready hclosed hnames hne
    have hready' : ready ≠ [] := List.ne_nil_of_mem (mem_of_partition hpartition hc hready)
    obtain ⟨hperm, hall⟩ := partition_spec hpartition
    have hflatten := hperm.flatten
    have hnext : Progress edges names emitted batches (ready ++ blocked) :=
      { emitted_eq := h.emitted_eq
        sound := h.sound
        component := fun c hc => h.component c (hperm.mem_iff.mpr hc)
        covered := fun x => by
          rw [h.covered x, (hflatten.append_left emitted).mem_iff]
        nodup := (hflatten.append_left emitted).nodup_iff.mp h.nodup }
    have hdone : ∀ c ∈ ready, ∀ a ∈ c, ∀ b, edges.Step a b → b ∈ emitted ∨ b ∈ c := by
      intro c hc
      obtain ⟨x, -, hspec⟩ := hnext.component c (List.mem_append_left _ hc)
      obtain ⟨isReady, hisReady, hiff⟩ := isReady_spec emitted c
        fun a ha => (hnames a).mp ((hspec a).mp ha).1
      exact hiff.mp (Option.some.inj (hisReady.symm.trans (hall c hc)))
    have hlength : blocked.length < n := by
      rw [← hn, hperm.length_eq, List.length_append]
      exact Nat.lt_add_of_pos_left (List.length_pos_iff.mpr hready')
    rw [batchesFrom_eq hne hpartition hready']
    exact ih _ hlength _ _ (hnext.emit hdone) rfl

/-! ## The whole order -/

namespace ReportFile

/-- A package of the report depends on another one. -/
def DependsOn (report : ReportFile) (a b : Text) : Prop :=
  ∃ package ∈ report.packages, package.name = a ∧ b ∈ package.dependencies.map (·.name) ∧
    b ∈ report.packages.map (·.name)

theorem getElem?_edges {report : ReportFile} (hunique : (report.packages.map (·.name)).Nodup)
    (name : Text) :
    (∀ package ∈ report.packages, package.name = name → report.edges[name]? =
      some (treeSet ((package.dependencies.map (·.name)).filter (· ∈ report.names)))) ∧
    (name ∉ report.packages.map (·.name) → report.edges[name]? = none) := by
  let pair (package : ReportPackage) := (package.name,
    treeSet ((package.dependencies.map (·.name)).filter (· ∈ report.names)))
  have hfold : report.edges = (report.packages.map pair).foldl
      (fun edges entry => edges.insert entry.1 entry.2) ∅ := by
    rw [List.foldl_map]
    rfl
  have hkeys : ((report.packages.map pair).map Prod.fst).Nodup := by
    rw [List.map_map]
    exact hunique
  obtain ⟨hin, hout⟩ := getElem?_foldl_pairs
    (fun (edges : Edges) (entry : Text × List Text) => edges.insert entry.1 entry.2)
    (fun _ dependencies _ => dependencies) (fun m k v a => getElem?_insert m k a v) _ hkeys ∅ name
  rw [hfold]
  constructor
  · rintro package hpackage rfl
    exact hin _ (List.mem_map.mpr ⟨package, hpackage, rfl⟩)
  · intro hnot
    rw [hout fun v hv => hnot ?_]
    · simp
    · obtain ⟨package, hpackage, heq⟩ := List.mem_map.mp hv
      exact List.mem_map.mpr ⟨package, hpackage, (Prod.mk.inj heq).1⟩

theorem step_edges {report : ReportFile} (hunique : (report.packages.map (·.name)).Nodup)
    (a b : Text) : report.edges.Step a b ↔ report.DependsOn a b := by
  obtain ⟨hin, hout⟩ := getElem?_edges hunique a
  constructor
  · rintro ⟨dependencies, hsome, hb⟩
    by_cases ha : a ∈ report.packages.map (·.name)
    · obtain ⟨package, hpackage, hname⟩ := List.mem_map.mp ha
      rw [hin package hpackage hname] at hsome
      rw [← Option.some.inj hsome, mem_treeSet, List.mem_filter, decide_eq_true_iff] at hb
      exact ⟨package, hpackage, hname, hb.1, mem_treeSet.mp hb.2⟩
    · rw [hout ha] at hsome
      nomatch hsome
  · rintro ⟨package, hpackage, hname, hb, hin'⟩
    refine ⟨_, hin package hpackage hname, ?_⟩
    rw [mem_treeSet, List.mem_filter, decide_eq_true_iff]
    exact ⟨hb, mem_treeSet.mpr hin'⟩

theorem mem_names_iff {report : ReportFile} (hunique : (report.packages.map (·.name)).Nodup)
    (name : Text) : name ∈ report.names ↔
      ∃ dependencies, report.edges[name]? = some dependencies := by
  obtain ⟨hin, hout⟩ := getElem?_edges hunique name
  unfold names
  rw [mem_treeSet]
  constructor
  · intro h
    obtain ⟨package, hpackage, hname⟩ := List.mem_map.mp h
    exact ⟨_, hin package hpackage hname⟩
  · rintro ⟨dependencies, hsome⟩
    by_contra hnot
    rw [hout hnot] at hsome
    nomatch hsome

theorem closed_edges {report : ReportFile} (hunique : (report.packages.map (·.name)).Nodup) :
    report.edges.Closed := by
  intro a b hab
  obtain ⟨_, -, -, -, hb⟩ := (step_edges hunique a b).mp hab
  exact (mem_names_iff hunique b).mp (mem_treeSet.mpr hb)

end ReportFile

/-- The names and the dependencies between them determine the order. -/
theorem analysisOrder_congr {report other : ReportFile}
    (hunique : (report.packages.map (·.name)).Nodup) (hother : (other.packages.map (·.name)).Nodup)
    (hnames : ∀ name, name ∈ other.packages.map (·.name) ↔ name ∈ report.packages.map (·.name))
    (hdepends : ∀ a b, other.DependsOn a b ↔ report.DependsOn a b) :
    analysisOrder other = analysisOrder report := by
  have hn : other.names = report.names := treeSet_congr hnames
  have he : other.edges = report.edges := by
    refine ExtTreeMap.ext_getElem? fun name => ?_
    obtain ⟨hin, hout⟩ := ReportFile.getElem?_edges hunique name
    obtain ⟨hin', hout'⟩ := ReportFile.getElem?_edges hother name
    by_cases hname : name ∈ report.packages.map (·.name)
    · obtain ⟨package, hpackage, heq⟩ := List.mem_map.mp hname
      obtain ⟨package', hpackage', heq'⟩ := List.mem_map.mp ((hnames name).mpr hname)
      have hsome := hin package hpackage heq
      have hsome' := hin' package' hpackage' heq'
      rw [hsome, hsome']
      refine congrArg some (treeSet_congr fun b => ?_)
      have hstep := (ReportFile.step_edges hunique name b).symm
      have hstep' := (ReportFile.step_edges hother name b).symm
      rw [hdepends] at hstep'
      have hmem := hstep'.symm.trans hstep
      simpa [Edges.Step, hsome, hsome', mem_treeSet] using hmem
    · rw [hout hname, hout' fun h => hname ((hnames name).mp h)]
  unfold analysisOrder
  rw [hn, he]

/-- A batch after the batches before it: it is one strong component of the
dependencies, and what it depends on outside itself came before. -/
structure Scheduled (report : ReportFile) (before : List AnalysisBatch) (batch : AnalysisBatch) :
    Prop where
  order : batch.order = before.length + 1
  cyclic : batch.cyclic = decide (1 < batch.packages.length)
  nonempty : batch.packages ≠ []
  component : ∀ x ∈ batch.packages, ∀ y, y ∈ batch.packages ↔ Mutual report.DependsOn x y
  earlier : ∀ a ∈ batch.packages, ∀ b, report.DependsOn a b →
    b ∈ batch.packages ∨ ∃ other ∈ before, b ∈ other.packages

/-- The batches are the strong components in the order of the dependencies,
however the packages and their dependencies are listed. -/
theorem analysisOrder_spec (report : ReportFile)
    (hunique : (report.packages.map (·.name)).Nodup) :
    ∃ batches, analysisOrder report = some batches ∧
      (batches.flatMap (·.packages)).Nodup ∧
      (∀ name, name ∈ batches.flatMap (·.packages) ↔ name ∈ report.packages.map (·.name)) ∧
      (∀ before batch after, batches = before ++ batch :: after →
        Scheduled report before batch) ∧
      ∀ other : ReportFile, (other.packages.map (·.name)).Nodup →
        (∀ name, name ∈ other.packages.map (·.name) ↔ name ∈ report.packages.map (·.name)) →
        (∀ a b, other.DependsOn a b ↔ report.DependsOn a b) →
        analysisOrder other = some batches := by
  have hclosed := ReportFile.closed_edges hunique
  have hnames := ReportFile.mem_names_iff hunique
  obtain ⟨reachable, hreachable, hreached⟩ := reachableOf_spec hclosed fun name h =>
    (hnames name).mp h
  obtain ⟨components, hcomponents, hpartition⟩ := componentsFrom_spec hreached (nodup_treeSet _)
  obtain ⟨batches, hbatches, hdone⟩ := batchesFrom_spec [] [] hclosed
    hnames ⟨rfl, fun before _ _ h => by simp at h, hpartition.component, hpartition.covered,
      hpartition.nodup⟩
  have hrun : analysisOrder report = some batches := by
    unfold analysisOrder
    rw [hreachable, Option.bind_eq_bind, Option.bind_some, hcomponents]
    exact hbatches
  have hsteps : report.edges.Step = report.DependsOn :=
    funext fun a => funext fun b => propext (ReportFile.step_edges hunique a b)
  refine ⟨batches, hrun, ?_, fun name => ?_, fun before batch after heq => ?_, ?_⟩
  · have hnodup := hdone.nodup
    rwa [List.flatten_nil, List.append_nil] at hnodup
  · have hcovered := hdone.covered name
    rw [List.flatten_nil, List.append_nil] at hcovered
    exact hcovered.symm.trans mem_treeSet
  · obtain ⟨horder, hcyclic, ⟨first, hfirst, hspec⟩, hearlier⟩ := hdone.sound before batch after heq
    rw [hsteps] at hspec hearlier
    refine ⟨horder, hcyclic, ?_, fun x hx y => ?_, fun a ha b hab => ?_⟩
    · exact List.ne_nil_of_mem ((hspec first).mpr ⟨hfirst, .refl first⟩)
    · have hx := ((hspec x).mp hx).2
      rw [hspec]
      refine ⟨fun hy => hx.symm.trans hy.2, fun hxy => ⟨?_, hx.trans hxy⟩⟩
      -- what a package reaches is a package
      have hfirst := (hx.trans hxy).1
      rw [← hsteps] at hfirst
      refine mem_of_reflTransGen (S := (· ∈ report.names)) (fun a b _ hab => ?_) ‹_› hfirst
      exact (hnames b).mpr (hclosed a b hab)
    · exact (hearlier a ha b hab).imp_right List.mem_flatMap.mp
  · intro other hother hsame hdepends
    rw [analysisOrder_congr hunique hother hsame hdepends]
    exact hrun

/-- Two packages that depend on each other, and one that depends on them. -/
def cyclicReport : ReportFile where
  schemaVersion := 8
  releaseHistory := "main".toList
  mergeTarget := none
  packages := [("left", ["right"]), ("right", ["left"]), ("top", ["left", "top"])].map fun entry =>
    { name := entry.1.toList
      declaredVersion := "1.0.0".toList
      group := none
      status := .unchanged
      anchor := some ⟨"1.0.0".toList⟩
      changed := []
      dependencies := entry.2.map fun name => ⟨name.toList, "1.0.0".toList⟩
      publicOrigins := []
      dependents := [] }
  nonPublishablePackages := []
  groups := ∅

theorem analysisOrder_cyclicReport : ∃ batches, analysisOrder cyclicReport = some batches ∧
    ∀ before batch after, batches = before ++ batch :: after →
      Scheduled cyclicReport before batch := by
  obtain ⟨batches, hrun, -, -, hscheduled, -⟩ := analysisOrder_spec cyclicReport (by decide)
  exact ⟨batches, hrun, hscheduled⟩

end Folo.ReleasePlan
