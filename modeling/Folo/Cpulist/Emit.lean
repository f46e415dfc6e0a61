import Folo.Cpulist.Parse

/-!
# Writing a list of identifiers

`cpulist/emit.rs`. The items are grouped into runs of consecutive ones, each
as long as possible, and a run is written as one number, as two or as a
range; a panic is `none`. What is written is a documented list of exactly the
items (`documented_of_emit`). The end of a range is computed as what follows
it less one, which overflows for a range up to `u32::MAX`
(`exists_emit_iff`).
-/

namespace Folo.Cpulist

open Folo.Lib

/-- `NonZero<Item>`. -/
abbrev NonZero := { n : Item // n ≠ 0 }

def NonZero.checkedAdd (n : NonZero) (k : Item) : Option NonZero :=
  if h : n.val.toNat + k.toNat < UInt32.size then
    some ⟨UInt32.ofNat (n.val.toNat + k.toNat), fun h0 => n.property <| UInt32.toNat_inj.mp <| by
      have hsum := congrArg UInt32.toNat h0
      rw [UInt32.toNat_ofNat_of_lt' h] at hsum
      exact Nat.eq_zero_of_add_eq_zero_right hsum⟩
  else none

def checkedSub (a b : Item) : Option Item := if b ≤ a then some (a - b) else none

/-- The `fold_while` over what remains, with a group begun. -/
def extendGroup : Item × NonZero → List Item → Option (Item × NonZero)
  | group, [] => some group
  | (start, len), p :: rest => do
    let expectedNextP ← checkedAdd start len
    if expectedNextP = p then
      let newLen ← len.checkedAdd 1
      extendGroup (start, newLen) rest
    else
      some (start, len)

/-- The groups of the sorted items: the `while` loop. -/
def groups : List Item → Option (List (Item × NonZero))
  | [] => some []
  | first :: rest => do
    let group ← extendGroup (first, ⟨1, by decide⟩) rest
    let later ← groups ((first :: rest).drop group.2.val.toNat)
    some (group :: later)
  termination_by remaining => remaining.length
  decreasing_by
    have hpos : group.2.val.toNat ≠ 0 := fun h => group.2.property (UInt32.toNat_inj.mp h)
    rw [List.length_drop, List.length_cons]
    omega

/-- One round of the loop that writes. -/
def pushGroup (result : Text) (group : Item × NonZero) : Option Text :=
  let result := if result.isEmpty then result else result ++ [',']
  let start := group.1
  let len := group.2.val
  if len = 1 then
    some (result ++ display start)
  else if len = 2 then do
    let secondProcessorId ← checkedAdd start 1
    some (result ++ (display start ++ ',' :: display secondProcessorId))
  else do
    let lastProcessorId ← checkedSub (← checkedAdd start len) 1
    some (result ++ (display start ++ '-' :: display lastProcessorId))

def emit (items : List Item) : Option Text := do
  let groups ← groups (items.eraseDups.insertionSort (· ≤ ·))
  groups.foldlM pushGroup []

theorem checkedAdd_eq_some {a b c : Item} :
    checkedAdd a b = some c ↔ a.toNat + b.toNat = c.toNat := toItem_eq_some

theorem NonZero.checkedAdd_eq_some {n m : NonZero} {k : Item} :
    n.checkedAdd k = some m ↔ n.val.toNat + k.toNat = m.val.toNat := by
  unfold NonZero.checkedAdd
  split
  · rename_i hlt
    rw [Option.some.injEq, Subtype.ext_iff, ← UInt32.toNat_inj, UInt32.toNat_ofNat_of_lt' hlt]
  · rename_i hlt
    refine ⟨nofun, fun h => absurd ?_ hlt⟩
    rw [h]
    exact UInt32.toNat_lt m.val

theorem NonZero.checkedAdd_eq_none {n : NonZero} {k : Item} :
    n.checkedAdd k = none ↔ UInt32.size ≤ n.val.toNat + k.toNat := by
  unfold NonZero.checkedAdd
  split
  · rename_i hlt
    exact ⟨nofun, fun h => absurd hlt (Nat.not_lt.mpr h)⟩
  · rename_i hlt
    exact ⟨fun _ => Nat.not_lt.mp hlt, fun _ => rfl⟩

/-! ## Groups -/

/-- The number after the last one of the group. -/
def beyond (group : Item × NonZero) : Nat := group.1.toNat + group.2.val.toNat

def Covers (group : Item × NonZero) (i : Item) : Prop :=
  group.1 ≤ i ∧ i.toNat < beyond group

/-- A group takes what continues it, and what remains leaves a gap. -/
theorem extendGroup_spec {rest : List Item} {group result : Item × NonZero}
    (hsorted : rest.Pairwise (· < ·)) (hlow : ∀ i ∈ rest, beyond group ≤ i.toNat)
    (hfits : beyond group ≤ UInt32.size) (h : extendGroup group rest = some result) :
    result.1 = group.1 ∧ beyond result ≤ UInt32.size ∧
      ∃ taken, result.2.val.toNat = group.2.val.toNat + taken ∧
        (∀ i : Item, i ∈ rest ↔
          (beyond group ≤ i.toNat ∧ i.toNat < beyond result) ∨ i ∈ rest.drop taken) ∧
        ∀ i ∈ rest.drop taken, beyond result < i.toNat := by
  induction rest generalizing group with
  | nil =>
    obtain rfl := Option.some.inj h
    refine ⟨rfl, hfits, 0, rfl, fun i => ⟨nofun, fun hi => ?_⟩, nofun⟩
    rcases hi with hi | hi
    · omega
    · exact hi
  | cons p rest ih =>
    obtain ⟨start, len⟩ := group
    obtain ⟨hp, hrest⟩ := List.pairwise_cons.mp hsorted
    have hlowp := hlow p (List.mem_cons_self ..)
    unfold extendGroup at h
    obtain ⟨expected, hsum, hstep⟩ := Option.bind_eq_some_iff.mp h
    have hexpected : start.toNat + len.val.toNat = expected.toNat := checkedAdd_eq_some.mp hsum
    split at hstep
    · -- the item continues the group
      rename_i heq
      subst heq
      obtain ⟨newLen, hadd, hgrow⟩ := Option.bind_eq_some_iff.mp hstep
      have hnew : len.val.toNat + 1 = newLen.val.toNat := NonZero.checkedAdd_eq_some.mp hadd
      have hbeyond : beyond (start, newLen) = beyond (start, len) + 1 := by
        show start.toNat + newLen.val.toNat = start.toNat + len.val.toNat + 1
        omega
      have hlt := UInt32.toNat_lt expected
      have hin : beyond (start, len) = expected.toNat := hexpected
      have hlow' : ∀ i ∈ rest, beyond (start, newLen) ≤ i.toNat := by
        intro i hi
        have := UInt32.lt_iff_toNat_lt.mp (hp i hi)
        omega
      have hfits' : beyond (start, newLen) ≤ UInt32.size := by
        rw [hbeyond, hin]
        exact hlt
      obtain ⟨hstart, hend, taken, hlen, hmem, hgap⟩ := ih hrest hlow' hfits' hgrow
      have hstart : result.1 = start := hstart
      have hlen : result.2.val.toNat = newLen.val.toNat + taken := hlen
      have hlen' : result.2.val.toNat = len.val.toNat + (taken + 1) := by omega
      refine ⟨hstart, hend, taken + 1, hlen', fun i => ?_, hgap⟩
      rw [List.mem_cons, hmem i, List.drop_succ_cons, hbeyond]
      have hgrown : beyond (start, len) < beyond result := by
        unfold beyond
        rw [hstart, hlen']
        show start.toNat + len.val.toNat < _
        omega
      constructor
      · rintro (rfl | hi | hi)
        · exact .inl ⟨hin.le, hin ▸ hgrown⟩
        · exact .inl ⟨by omega, hi.2⟩
        · exact .inr hi
      · rintro (hi | hi)
        · by_cases heq : i.toNat = expected.toNat
          · exact .inl (UInt32.toNat_inj.mp heq)
          · exact .inr (.inl ⟨by omega, hi.2⟩)
        · exact .inr (.inr hi)
    · -- the item is beyond a gap
      rename_i hne
      obtain rfl := Option.some.inj hstep
      have hgap : beyond (start, len) < p.toNat := by
        refine Nat.lt_of_le_of_ne hlowp fun heq => hne ?_
        exact UInt32.toNat_inj.mp (hexpected.symm.trans heq)
      refine ⟨rfl, hfits, 0, rfl, fun i => ⟨.inr, fun hi => ?_⟩, fun i hi => ?_⟩
      · rcases hi with hi | hi
        · omega
        · exact hi
      · rcases List.mem_cons.mp hi with rfl | hi
        · exact hgap
        · exact Nat.lt_trans hgap (UInt32.lt_iff_toNat_lt.mp (hp i hi))

/-- A group grows too long only when it starts at zero and takes every other
item there is. -/
theorem mem_of_extendGroup_none {rest : List Item} {group : Item × NonZero}
    (hsorted : rest.Pairwise (· < ·)) (hlow : ∀ i ∈ rest, beyond group ≤ i.toNat)
    (h : extendGroup group rest = none) :
    group.1.toNat = 0 ∧ ∀ i : Item, beyond group ≤ i.toNat → i ∈ rest := by
  induction rest generalizing group with
  | nil => nomatch h
  | cons p rest ih =>
    obtain ⟨start, len⟩ := group
    obtain ⟨hp, hrest⟩ := List.pairwise_cons.mp hsorted
    have hlowp : start.toNat + len.val.toNat ≤ p.toNat := hlow p (List.mem_cons_self ..)
    have hlt := UInt32.toNat_lt p
    unfold extendGroup at h
    cases hexpected : checkedAdd start len with
    | none =>
      have hfit : checkedAdd start len = some (UInt32.ofNat (start.toNat + len.val.toNat)) :=
        checkedAdd_eq_some.mpr (UInt32.toNat_ofNat_of_lt' (Nat.lt_of_le_of_lt hlowp hlt)).symm
      rw [hexpected] at hfit
      nomatch hfit
    | some expected =>
      have hvalue : start.toNat + len.val.toNat = expected.toNat := checkedAdd_eq_some.mp hexpected
      rw [hexpected, Option.bind_eq_bind, Option.bind_some] at h
      split at h
      · rename_i heq
        subst heq
        have hbelow : ∀ i : Item, beyond (start, len) ≤ i.toNat →
            i = expected ∨ expected.toNat + 1 ≤ i.toNat := by
          intro i hi
          rcases Nat.eq_or_lt_of_le (hvalue ▸ hi : expected.toNat ≤ i.toNat) with heq | hlt
          · exact .inl (UInt32.toNat_inj.mp heq.symm)
          · exact .inr hlt
        cases hnew : len.checkedAdd 1 with
        | none =>
          have hsize : UInt32.size ≤ len.val.toNat + 1 := NonZero.checkedAdd_eq_none.mp hnew
          have hsize' : UInt32.size = 2 ^ 32 := rfl
          have hstart : start.toNat = 0 := by omega
          refine ⟨hstart, fun i hi => List.mem_cons.mpr ((hbelow i hi).imp_right fun hi => ?_)⟩
          have := UInt32.toNat_lt i
          omega
        | some newLen =>
          have hnew' : len.val.toNat + 1 = newLen.val.toNat := NonZero.checkedAdd_eq_some.mp hnew
          have hbeyond : beyond (start, newLen) = expected.toNat + 1 := by
            show start.toNat + newLen.val.toNat = _
            omega
          rw [hnew, Option.bind_eq_bind, Option.bind_some] at h
          obtain ⟨hzero, hall⟩ := ih hrest (fun i hi => by
            rw [hbeyond]
            exact UInt32.lt_iff_toNat_lt.mp (hp i hi)) h
          refine ⟨hzero, fun i hi => List.mem_cons.mpr ((hbelow i hi).imp_right fun hi => ?_)⟩
          exact hall i (hbeyond ▸ hi)
      · nomatch h

/-- What grouping the sorted items gives. -/
structure Grouped (items : List Item) (groups : List (Item × NonZero)) : Prop where
  fits : ∀ group ∈ groups, beyond group ≤ UInt32.size
  covers : ∀ i, i ∈ items ↔ ∃ group ∈ groups, Covers group i
  /-- consecutive items are never in two groups -/
  whole : ∀ x k, (∀ y, x ≤ y → y ≤ x + k → ∃ i ∈ items, i.toNat = y) →
    ∃ group ∈ groups, group.1.toNat ≤ x ∧ x + k < beyond group

theorem grouped_of_groups {items : List Item} {gs : List (Item × NonZero)}
    (hsorted : items.Pairwise (· < ·)) (h : groups items = some gs) : Grouped items gs := by
  induction hn : items.length using Nat.strong_induction_on generalizing items gs with
  | _ n ih =>
  cases items with
  | nil =>
    obtain rfl : [] = gs := Option.some.inj (by rw [groups] at h; exact h)
    refine ⟨nofun, fun i => ⟨nofun, fun ⟨_, hg, _⟩ => nomatch hg⟩, fun x k hall => ?_⟩
    obtain ⟨i, hi, -⟩ := hall x (Nat.le_refl x) (Nat.le_add_right x k)
    nomatch hi
  | cons first rest =>
    obtain ⟨hfirst, hrest⟩ := List.pairwise_cons.mp hsorted
    have hlow : ∀ i ∈ rest, beyond (first, ⟨1, by decide⟩) ≤ i.toNat := fun i hi =>
      UInt32.lt_iff_toNat_lt.mp (hfirst i hi)
    rw [groups] at h
    obtain ⟨group, hgroup, h⟩ := Option.bind_eq_some_iff.mp h
    obtain ⟨later, hlater, h⟩ := Option.bind_eq_some_iff.mp h
    obtain rfl := Option.some.inj h
    obtain ⟨hstart, hend, taken, hlen, hmem, hgap⟩ :=
      extendGroup_spec hrest hlow (UInt32.toNat_lt first) hgroup
    have hstart : group.1 = first := hstart
    have hlen : group.2.val.toNat = taken + 1 := by
      rw [hlen, Nat.add_comm]
      rfl
    have hone : beyond (first, ⟨1, by decide⟩) = first.toNat + 1 := rfl
    have hbeyond : beyond group = first.toNat + (taken + 1) := by
      unfold beyond
      rw [hstart, hlen]
    rw [hlen, List.drop_succ_cons] at hlater
    have hdrop : (rest.drop taken).Pairwise (· < ·) := hrest.sublist (List.drop_sublist _ _)
    obtain ⟨hfits, hcovers, hwhole⟩ := ih _ (by
      rw [← hn, List.length_cons, List.length_drop]
      omega) hdrop hlater rfl
    -- the items of the first group are those below its end
    have hbelow : ∀ i : Item, i ∈ first :: rest ↔
        (first.toNat ≤ i.toNat ∧ i.toNat < beyond group) ∨ i ∈ rest.drop taken := by
      intro i
      rw [List.mem_cons, hmem i, hone]
      constructor
      · rintro (rfl | hi | hi)
        · exact .inl ⟨Nat.le_refl _, by omega⟩
        · exact .inl ⟨by omega, hi.2⟩
        · exact .inr hi
      · rintro (hi | hi)
        · by_cases heq : i.toNat = first.toNat
          · exact .inl (UInt32.toNat_inj.mp heq)
          · exact .inr (.inl ⟨by omega, hi.2⟩)
        · exact .inr (.inr hi)
    refine ⟨List.forall_mem_cons.mpr ⟨hend, hfits⟩, fun i => ?_, fun x k hall => ?_⟩
    · rw [hbelow i, hcovers i, List.exists_mem_cons_iff]
      refine or_congr_left ?_
      unfold Covers
      rw [hstart, UInt32.le_iff_toNat_le]
    · obtain ⟨i, hi, hix⟩ := hall x (Nat.le_refl x) (Nat.le_add_right x k)
      rcases (hbelow i).mp hi with hin | hin
      · refine ⟨group, List.mem_cons_self .., by rw [hstart]; omega, ?_⟩
        -- otherwise the item in the gap would be there
        by_contra hout
        obtain ⟨j, hj, hjgap⟩ := hall (beyond group) (by omega) (by omega)
        rcases (hbelow j).mp hj with hj | hj
        · omega
        · have := hgap j hj
          omega
      · obtain ⟨g, hg, hrun⟩ := hwhole x k fun y hxy hyk => by
          obtain ⟨j, hj, rfl⟩ := hall y hxy hyk
          refine ⟨j, ?_, rfl⟩
          have := hgap i hin
          exact ((hbelow j).mp hj).resolve_left fun hj => by omega
        exact ⟨g, List.mem_cons_of_mem _ hg, hrun⟩

/-- Grouping fails only where the last items there can be are among the items. -/
theorem mem_of_groups_none {items : List Item} (hsorted : items.Pairwise (· < ·))
    (h : groups items = none) : ∀ i : Item, UInt32.size ≤ i.toNat + 3 → i ∈ items := by
  induction hn : items.length using Nat.strong_induction_on generalizing items with
  | _ n ih =>
  cases items with
  | nil =>
    rw [groups] at h
    nomatch h
  | cons first rest =>
    obtain ⟨hfirst, hrest⟩ := List.pairwise_cons.mp hsorted
    have hlow : ∀ i ∈ rest, beyond (first, ⟨1, by decide⟩) ≤ i.toNat := fun i hi =>
      UInt32.lt_iff_toNat_lt.mp (hfirst i hi)
    intro i hlast
    rw [groups] at h
    cases hgroup : extendGroup (first, ⟨1, by decide⟩) rest with
    | none =>
      obtain ⟨hzero, hall⟩ := mem_of_extendGroup_none hrest hlow hgroup
      have hzero : first.toNat = 0 := hzero
      refine List.mem_cons_of_mem _ (hall i ?_)
      have hsize : UInt32.size = 2 ^ 32 := rfl
      show first.toNat + 1 ≤ i.toNat
      omega
    | some group =>
      rw [hgroup, Option.bind_eq_bind, Option.bind_some] at h
      cases hlater : groups ((first :: rest).drop group.2.val.toNat) with
      | some later =>
        rw [hlater] at h
        nomatch h
      | none =>
        refine List.mem_of_mem_drop (ih _ ?_ (hsorted.sublist (List.drop_sublist _ _)) hlater rfl i
          hlast)
        have hne : group.2.val.toNat ≠ 0 := fun h0 => group.2.property (UInt32.toNat_inj.mp h0)
        rw [← hn, List.length_drop, List.length_cons]
        omega

/-! ## Text -/

/-- The end of the group can be computed. -/
def EndFits (group : Item × NonZero) : Prop :=
  group.2.val = 1 ∨ group.2.val = 2 ∨ beyond group < UInt32.size

/-- The parts a group is written as. -/
def partsOf (group : Item × NonZero) : List Text :=
  if group.2.val = 1 then [display group.1]
  else if group.2.val = 2 then [display group.1, display (group.1 + 1)]
  else [display group.1 ++ '-' :: display (group.1 + (group.2.val - 1))]

theorem number_display (item : Item) : Number (display item) item where
  nonempty := by
    have hpos := Nat.length_toDigits_pos (b := 10) (n := item.toNat)
    exact fun h => absurd hpos (by
      unfold display at h
      rw [h]
      exact Nat.lt_irrefl 0)
  digits _ hc := Nat.isDigit_of_mem_toDigits (by decide) (by decide) hc
  value := Nat.ofDigitChars_ten_toDigits

/-- The last item of a group. -/
theorem toNat_last {group : Item × NonZero} (hfits : beyond group ≤ UInt32.size) :
    (group.1 + (group.2.val - 1)).toNat = beyond group - 1 := by
  have hne : group.2.val.toNat ≠ 0 := fun h0 => group.2.property (UInt32.toNat_inj.mp h0)
  have hone : (1 : Item) ≤ group.2.val := UInt32.le_iff_toNat_le.mpr (Nat.pos_of_ne_zero hne)
  have hlen : (group.2.val - 1).toNat = group.2.val.toNat - 1 := UInt32.toNat_sub_of_le _ _ hone
  have hsize : UInt32.size = 2 ^ 32 := rfl
  unfold beyond at hfits ⊢
  rw [UInt32.toNat_add, hlen, Nat.mod_eq_of_lt (by omega)]
  omega

/-- A group is written as documented parts that denote its items. -/
theorem denotes_partsOf {group : Item × NonZero} (hfits : beyond group ≤ UInt32.size) :
    ∃ sets, List.Forall₂ (Denotes Number) (partsOf group) sets ∧
      ∀ i, Covers group i ↔ ∃ S ∈ sets, i ∈ S := by
  have hlast := toNat_last hfits
  have hne : group.2.val.toNat ≠ 0 := fun h0 => group.2.property (UInt32.toNat_inj.mp h0)
  have hend : beyond group = group.1.toNat + group.2.val.toNat := rfl
  unfold partsOf Covers
  simp only [UInt32.le_iff_toNat_le]
  split
  · rename_i hlen
    rw [hlen, UInt32.toNat_one] at hend
    refine ⟨[{group.1}], .cons (.single (number_display _)) .nil, fun i => ?_⟩
    simp only [List.mem_singleton, exists_eq_left, Set.mem_singleton_iff, ← UInt32.toNat_inj]
    omega
  split
  · rename_i hlen
    have htwo : group.2.val.toNat = 2 := congrArg UInt32.toNat hlen
    have hsecond : (group.1 + 1).toNat = group.1.toNat + 1 := by
      rw [hlen, show (2 : Item) - 1 = 1 from rfl] at hlast
      omega
    refine ⟨[{group.1}, {group.1 + 1}],
      .cons (.single (number_display _)) (.cons (.single (number_display _)) .nil), fun i => ?_⟩
    simp only [List.mem_cons, List.not_mem_nil, or_false, exists_eq_or_imp, exists_eq_left,
      Set.mem_singleton_iff, ← UInt32.toNat_inj, hsecond]
    omega
  · have hle : group.1 ≤ group.1 + (group.2.val - 1) := by
      rw [UInt32.le_iff_toNat_le, hlast]
      omega
    refine ⟨[{i | group.1 ≤ i ∧ i ≤ group.1 + (group.2.val - 1)}],
      .cons (.range (number_display _) (number_display _) hle) .nil, fun i => ?_⟩
    simp only [List.mem_singleton, exists_eq_left, Set.mem_ofPred_eq, UInt32.le_iff_toNat_le,
      hlast]
    omega

/-- What a round appends to. -/
theorem append_part {parts : List Text} (hparts : ∀ part ∈ parts, part ≠ []) (part : Text) :
    (if ([','].intercalate parts).isEmpty then [','].intercalate parts
      else [','].intercalate parts ++ [',']) ++ part = [','].intercalate (parts ++ [part]) := by
  cases parts with
  | nil => simp
  | cons head parts =>
    have hne : ([','].intercalate (head :: parts)).isEmpty = false := by
      refine List.isEmpty_eq_false_iff.mpr fun hnil => ?_
      obtain ⟨c, hc⟩ := List.exists_mem_of_ne_nil head (hparts head (List.mem_cons_self ..))
      have hmem : c ∈ [','].intercalate (head :: parts) :=
        mem_intercalate_of_mem (List.mem_cons_self ..) hc
      rw [hnil] at hmem
      nomatch hmem
    rw [hne, intercalate_concat (List.cons_ne_nil _ _)]
    rfl

theorem pushGroup_spec {parts : List Text} (hparts : ∀ part ∈ parts, part ≠ [])
    {group : Item × NonZero} (hfits : beyond group ≤ UInt32.size) {result : Text} :
    pushGroup ([','].intercalate parts) group = some result ↔
      EndFits group ∧ result = [','].intercalate (parts ++ partsOf group) := by
  have hlast := toNat_last hfits
  have hend : beyond group = group.1.toNat + group.2.val.toNat := rfl
  unfold pushGroup EndFits partsOf
  simp only
  split
  · rename_i hlen
    rw [append_part hparts, Option.some.injEq]
    exact ⟨fun h => ⟨.inl hlen, h.symm⟩, fun h => h.2.symm⟩
  split
  · rename_i hlen
    rw [hlen, show (2 : Item) - 1 = 1 from rfl] at hlast
    have hlen' : group.2.val.toNat = 2 := congrArg UInt32.toNat hlen
    have hsecond : checkedAdd group.1 1 = some (group.1 + 1) := by
      rw [checkedAdd_eq_some, UInt32.toNat_one]
      omega
    have hne : parts ++ [display group.1] ≠ [] := by simp
    have htwo : [','].intercalate (parts ++ [display group.1, display (group.1 + 1)]) =
        [','].intercalate (parts ++ [display group.1]) ++ ',' :: display (group.1 + 1) := by
      rw [List.append_cons, intercalate_concat hne, List.append_assoc]
      rfl
    rw [hsecond, Option.bind_eq_bind, Option.bind_some, Option.some.injEq, ← List.append_assoc,
      append_part hparts, htwo]
    exact ⟨fun h => ⟨.inr (.inl hlen), h.symm⟩, fun h => h.2.symm⟩
  · rename_i hone htwo
    cases hadd : checkedAdd group.1 group.2.val with
    | none =>
      refine ⟨nofun, fun h => ?_⟩
      have hlt := (h.1.resolve_left hone).resolve_left htwo
      have hsome := checkedAdd_eq_some.mpr (UInt32.toNat_ofNat_of_lt' hlt).symm
      rw [hadd] at hsome
      nomatch hsome
    | some next =>
      have hnext : group.1.toNat + group.2.val.toNat = next.toNat := checkedAdd_eq_some.mp hadd
      have hne : group.2.val.toNat ≠ 0 := fun h0 => group.2.property (UInt32.toNat_inj.mp h0)
      have hle : (1 : Item) ≤ next := by
        rw [UInt32.le_iff_toNat_le, UInt32.toNat_one]
        omega
      have hsub : next - 1 = group.1 + (group.2.val - 1) := by
        rw [← UInt32.toNat_inj, hlast, UInt32.toNat_sub_of_le _ _ hle, hend, hnext]
        rfl
      have hlt : beyond group < UInt32.size := by
        rw [hend, hnext]
        exact UInt32.toNat_lt next
      unfold checkedSub
      rw [Option.bind_eq_bind, Option.bind_some, if_pos hle, Option.bind_some,
        Option.some.injEq, append_part hparts, hsub]
      exact ⟨fun h => ⟨.inr (.inr hlt), h.symm⟩, fun h => h.2.symm⟩

theorem partsOf_ne_nil {group : Item × NonZero} : ∀ part ∈ partsOf group, part ≠ [] := by
  intro part hpart
  unfold partsOf at hpart
  split at hpart
  · rw [List.mem_singleton.mp hpart]
    exact (number_display _).nonempty
  split at hpart
  · simp only [List.mem_cons, List.not_mem_nil, or_false] at hpart
    rcases hpart with rfl | rfl
    · exact (number_display _).nonempty
    · exact (number_display _).nonempty
  · rw [List.mem_singleton.mp hpart]
    exact List.append_ne_nil_of_right_ne_nil _ (List.cons_ne_nil _ _)

/-- The loop succeeds where every end can be computed, and joins the parts. -/
theorem foldlM_pushGroup {gs : List (Item × NonZero)} (hfits : ∀ g ∈ gs, beyond g ≤ UInt32.size)
    (parts : List Text) (hparts : ∀ part ∈ parts, part ≠ []) {text : Text} :
    gs.foldlM pushGroup ([','].intercalate parts) = some text ↔
      (∀ g ∈ gs, EndFits g) ∧ text = [','].intercalate (parts ++ gs.flatMap partsOf) := by
  induction gs generalizing parts with
  | nil =>
    rw [List.foldlM_nil, List.flatMap_nil, List.append_nil]
    exact ⟨fun h => ⟨nofun, (Option.some.inj h).symm⟩, fun h => congrArg some h.2.symm⟩
  | cons g gs ih =>
    obtain ⟨hg, hgs⟩ := List.forall_mem_cons.mp hfits
    have hparts' : ∀ part ∈ parts ++ partsOf g, part ≠ [] := fun part hpart =>
      (List.mem_append.mp hpart).elim (hparts part) (partsOf_ne_nil part)
    rw [List.foldlM_cons, Option.bind_eq_bind, Option.bind_eq_some_iff, List.forall_mem_cons,
      List.flatMap_cons, ← List.append_assoc]
    constructor
    · rintro ⟨result, hpush, hrest⟩
      obtain ⟨hend, rfl⟩ := (pushGroup_spec hparts hg).mp hpush
      obtain ⟨hends, htext⟩ := (ih hgs _ hparts').mp hrest
      exact ⟨⟨hend, hends⟩, htext⟩
    · rintro ⟨⟨hend, hends⟩, htext⟩
      exact ⟨_, (pushGroup_spec hparts hg).mpr ⟨hend, rfl⟩, (ih hgs _ hparts').mpr ⟨hends, htext⟩⟩

theorem nodup_eraseDups (items : List Item) : items.eraseDups.Nodup := by
  induction hn : items.length using Nat.strong_induction_on generalizing items with
  | _ n ih =>
  cases items with
  | nil => exact .nil
  | cons first rest =>
    rw [List.eraseDups_cons, List.nodup_cons, List.mem_eraseDups, List.mem_filter]
    refine ⟨fun h => by simp at h, ih _ ?_ _ rfl⟩
    rw [← hn]
    exact Nat.lt_succ_of_le (List.length_filter_le _ _)

/-- The items as they are grouped. -/
theorem strict_sorted (items : List Item) :
    (items.eraseDups.insertionSort (· ≤ ·)).Pairwise (· < ·) := by
  have hle := List.pairwise_insertionSort (· ≤ ·) items.eraseDups
  have hne : (items.eraseDups.insertionSort (· ≤ ·)).Nodup :=
    (List.perm_insertionSort _ _).nodup_iff.mpr (nodup_eraseDups items)
  exact (hle.and hne).imp fun h => UInt32.lt_of_le_of_ne h.1 h.2

theorem mem_sorted {items : List Item} {i : Item} :
    i ∈ items.eraseDups.insertionSort (· ≤ ·) ↔ i ∈ items := by
  rw [List.mem_insertionSort, List.mem_eraseDups]

theorem emit_eq_some {items : List Item} {text : Text} : emit items = some text ↔
    ∃ gs, groups (items.eraseDups.insertionSort (· ≤ ·)) = some gs ∧
      (∀ g ∈ gs, EndFits g) ∧ text = [','].intercalate (gs.flatMap partsOf) := by
  unfold emit
  rw [Option.bind_eq_bind, Option.bind_eq_some_iff]
  refine exists_congr fun gs => and_congr_right fun hgs => ?_
  exact foldlM_pushGroup (grouped_of_groups (strict_sorted items) hgs).fits [] nofun

theorem denotes_groups {gs : List (Item × NonZero)} (hfits : ∀ g ∈ gs, beyond g ≤ UInt32.size) :
    ∃ sets, List.Forall₂ (Denotes Number) (gs.flatMap partsOf) sets ∧
      ∀ i, (∃ g ∈ gs, Covers g i) ↔ ∃ S ∈ sets, i ∈ S := by
  induction gs with
  | nil =>
    refine ⟨[], .nil, fun i => ⟨?_, ?_⟩⟩
    · rintro ⟨_, hg, -⟩
      nomatch hg
    · rintro ⟨_, hS, -⟩
      nomatch hS
  | cons g gs ih =>
    obtain ⟨hg, hgs⟩ := List.forall_mem_cons.mp hfits
    obtain ⟨sets, hsets, hcovers⟩ := denotes_partsOf hg
    obtain ⟨later, hlater, hrest⟩ := ih hgs
    refine ⟨sets ++ later, List.rel_append hsets hlater, fun i => ?_⟩
    rw [List.exists_mem_cons_iff, hcovers i, hrest i]
    simp only [List.mem_append, or_and_right, exists_or]

/-- What is written is a documented list of the items. -/
theorem documented_of_emit {items : List Item} {text : Text} (h : emit items = some text) :
    ∃ S, Documented text S ∧ ∀ i, i ∈ items ↔ i ∈ S := by
  obtain ⟨gs, hgs, -, rfl⟩ := emit_eq_some.mp h
  have hgrouped := grouped_of_groups (strict_sorted items) hgs
  obtain ⟨sets, hsets, hcovers⟩ := denotes_groups hgrouped.fits
  have hitems : ∀ i, i ∈ items ↔ ∃ S ∈ sets, i ∈ S := fun i => by
    rw [← hcovers i, ← hgrouped.covers i, mem_sorted]
  by_cases hnil : gs.flatMap partsOf = []
  · rw [hnil] at hsets ⊢
    obtain rfl := List.forall₂_nil_left_iff.mp hsets
    refine ⟨∅, .empty, fun i => (hitems i).trans ⟨?_, nofun⟩⟩
    rintro ⟨_, hS, -⟩
    nomatch hS
  · exact ⟨_, .items hnil hsets, hitems⟩

/-- Only the three last items there are, together, cannot be written. -/
theorem exists_emit_iff (items : List Item) : (∃ text, emit items = some text) ↔
    ¬∀ i : Item, UInt32.size ≤ i.toNat + 3 → i ∈ items := by
  have hsize : UInt32.size = 2 ^ 32 := rfl
  have hsorted := strict_sorted items
  constructor
  · rintro ⟨text, h⟩ hall
    obtain ⟨gs, hgs, hends, -⟩ := emit_eq_some.mp h
    have hgrouped := grouped_of_groups hsorted hgs
    obtain ⟨g, hg, hstart, hend⟩ := hgrouped.whole (UInt32.size - 3) 2 fun y hlow hhigh => by
      have hy : (UInt32.ofNat y).toNat = y := UInt32.toNat_ofNat_of_lt' (by omega)
      exact ⟨UInt32.ofNat y, mem_sorted.mpr (hall _ (by omega)), hy⟩
    have hbeyond : beyond g = g.1.toNat + g.2.val.toNat := rfl
    rcases hends g hg with hlen | hlen | hlt
    · have hlen : g.2.val.toNat = 1 := congrArg UInt32.toNat hlen
      omega
    · have hlen : g.2.val.toNat = 2 := congrArg UInt32.toNat hlen
      omega
    · omega
  · intro hnot
    cases hgs : groups (items.eraseDups.insertionSort (· ≤ ·)) with
    | none => exact absurd (fun i hi => mem_sorted.mp (mem_of_groups_none hsorted hgs i hi)) hnot
    | some gs =>
      have hgrouped := grouped_of_groups hsorted hgs
      refine ⟨_, emit_eq_some.mpr ⟨gs, hgs, fun g hg => ?_, rfl⟩⟩
      by_contra hend
      unfold EndFits at hend
      rw [not_or, not_or] at hend
      obtain ⟨hone, htwo, hlt⟩ := hend
      have hbeyond : beyond g = g.1.toNat + g.2.val.toNat := rfl
      have hzero : g.2.val.toNat ≠ 0 := fun h0 => g.2.property (UInt32.toNat_inj.mp h0)
      have hone : g.2.val.toNat ≠ 1 := fun h => hone (UInt32.toNat_inj.mp h)
      have htwo : g.2.val.toNat ≠ 2 := fun h => htwo (UInt32.toNat_inj.mp h)
      have hfits := hgrouped.fits g hg
      refine hnot fun i hi => mem_sorted.mp ((hgrouped.covers i).mpr ⟨g, hg, ?_, ?_⟩)
      · rw [UInt32.le_iff_toNat_le]
        omega
      · have := UInt32.toNat_lt i
        omega

theorem three_last_iff (items : List Item) :
    (∀ i : Item, UInt32.size ≤ i.toNat + 3 → i ∈ items) ↔
      4294967293 ∈ items ∧ 4294967294 ∈ items ∧ 4294967295 ∈ items := by
  constructor
  · intro h
    exact ⟨h _ (by decide), h _ (by decide), h _ (by decide)⟩
  · rintro ⟨h₁, h₂, h₃⟩ i hi
    have hsize : UInt32.size = 2 ^ 32 := rfl
    have hlt := UInt32.toNat_lt i
    have hcases : i.toNat = 4294967293 ∨ i.toNat = 4294967294 ∨ i.toNat = 4294967295 := by omega
    rcases hcases with h | h | h
    · obtain rfl : i = 4294967293 := UInt32.toNat_inj.mp h
      exact h₁
    · obtain rfl : i = 4294967294 := UInt32.toNat_inj.mp h
      exact h₂
    · obtain rfl : i = 4294967295 := UInt32.toNat_inj.mp h
      exact h₃

/-- The items come back from their text in strict order. -/
def RoundTrips (items : List Item) : Prop :=
  ∃ text result, emit items = some text ∧ parse text = .ok result ∧
    result.Pairwise (· < ·) ∧ ∀ i, i ∈ result ↔ i ∈ items

/-- The items come back, unless the three last ones there are are all among
them. -/
theorem roundTrips_iff (items : List Item) : RoundTrips items ↔
    ¬(4294967293 ∈ items ∧ 4294967294 ∈ items ∧ 4294967295 ∈ items) := by
  rw [← three_last_iff, ← exists_emit_iff]
  constructor
  · rintro ⟨text, _, h, -⟩
    exact ⟨text, h⟩
  · rintro ⟨text, h⟩
    obtain ⟨S, hdoc, hS⟩ := documented_of_emit h
    obtain ⟨result, hparse, hstrict, hmem⟩ := parse_of_documented hdoc
    exact ⟨text, result, h, hparse, hstrict, fun i => (hmem i).trans (hS i).symm⟩

/-- A range up to the last item there is cannot be written. -/
theorem not_roundTrips_last : ¬RoundTrips [4294967293, 4294967294, 4294967295] := by
  rintro ⟨text, _, h, -⟩
  exact (exists_emit_iff _).mp ⟨text, h⟩ ((three_last_iff _).mpr ⟨by decide, by decide, by decide⟩)

end Folo.Cpulist
