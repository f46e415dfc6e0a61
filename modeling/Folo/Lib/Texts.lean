import Mathlib.Data.List.TakeWhile

/-!
# Texts

What Rust's `str` does, on lists of characters.
-/

namespace Folo.Lib

instance lawfulBEqText : LawfulBEq (List Char) := inferInstance

/-- `char::is_whitespace`. -/
def isWhitespace (c : Char) : Bool :=
  let n := c.toNat
  (9 ≤ n && n ≤ 13) || (0x2000 ≤ n && n ≤ 0x200A) ||
    [0x20, 0x85, 0xA0, 0x1680, 0x2028, 0x2029, 0x202F, 0x205F, 0x3000].contains n

/-- `str::trim`. -/
def trim (text : List Char) : List Char :=
  ((text.dropWhile isWhitespace).reverse.dropWhile isWhitespace).reverse

/-- Nothing is trimmed where nothing is white. -/
theorem trim_eq_self {text : List Char} (h : ∀ c ∈ text, isWhitespace c = false) :
    trim text = text := by
  have hdrop : ∀ t : List Char, (∀ c ∈ t, isWhitespace c = false) →
      t.dropWhile isWhitespace = t := fun t ht =>
    List.dropWhile_eq_self_iff.mpr fun hpos hwhite => by
      rw [ht _ (List.getElem_mem hpos)] at hwhite
      nomatch hwhite
  unfold trim
  rw [hdrop text h, hdrop _ fun c hc => h c (List.mem_reverse.mp hc), List.reverse_reverse]

theorem isWhitespace_eq_false {c : Char} (hlow : 33 ≤ c.toNat) (hhigh : c.toNat ≤ 126) :
    isWhitespace c = false := by
  unfold isWhitespace
  have hnot :
      c.toNat ∉ [0x20, 0x85, 0xA0, 0x1680, 0x2028, 0x2029, 0x202F, 0x205F, 0x3000] := by
    simp only [List.mem_cons, List.not_mem_nil, or_false]
    omega
  simp only [Bool.or_eq_false_iff, Bool.and_eq_false_iff, decide_eq_false_iff_not]
  refine ⟨⟨by omega, by omega⟩, ?_⟩
  rw [List.contains_eq_mem]
  exact decide_eq_false hnot

variable {α : Type}

/-- What is joined has the elements of its parts and of the separator. -/
theorem mem_intercalate {separator : List α} {parts : List (List α)} {a : α}
    (h : a ∈ separator.intercalate parts) : a ∈ separator ∨ ∃ part ∈ parts, a ∈ part := by
  induction parts with
  | nil => nomatch h
  | cons part parts ih =>
    cases parts with
    | nil =>
      rw [List.intercalate_singleton] at h
      exact .inr ⟨part, List.mem_cons_self .., h⟩
    | cons next parts =>
      rw [List.intercalate_cons_cons, List.append_assoc, List.mem_append, List.mem_append] at h
      rcases h with h | h | h
      · exact .inr ⟨part, List.mem_cons_self .., h⟩
      · exact .inl h
      · refine (ih h).imp_right ?_
        rintro ⟨q, hq, ha⟩
        exact ⟨q, List.mem_cons_of_mem _ hq, ha⟩

theorem mem_intercalate_of_mem {separator : List α} {parts : List (List α)} {part : List α} {a : α}
    (hpart : part ∈ parts) (ha : a ∈ part) : a ∈ separator.intercalate parts := by
  induction parts with
  | nil => nomatch hpart
  | cons head parts ih =>
    cases parts with
    | nil =>
      rw [List.intercalate_singleton, ← List.mem_singleton.mp hpart]
      exact ha
    | cons next parts =>
      rw [List.intercalate_cons_cons, List.append_assoc, List.mem_append, List.mem_append]
      rcases List.mem_cons.mp hpart with rfl | hpart
      · exact .inl ha
      · exact .inr (.inr (ih hpart))

theorem intercalate_concat {separator : List α} {parts : List (List α)} (h : parts ≠ [])
    (part : List α) : separator.intercalate (parts ++ [part]) =
      separator.intercalate parts ++ separator ++ part := by
  induction parts with
  | nil => exact absurd rfl h
  | cons head parts ih =>
    cases parts with
    | nil => simp
    | cons next parts =>
      rw [List.cons_append, List.cons_append, List.intercalate_cons_cons,
        List.intercalate_cons_cons, ← List.cons_append, ih (List.cons_ne_nil _ _)]
      simp only [List.append_assoc]

variable [DecidableEq α]

/-- `str::split_once`. -/
def splitOnce (separator : α) : List α → Option (List α × List α)
  | [] => none
  | c :: rest =>
    if c = separator then some ([], rest)
    else (splitOnce separator rest).map fun parts => (c :: parts.1, parts.2)

theorem splitOnce_eq_none {separator : α} {text : List α} :
    splitOnce separator text = none ↔ separator ∉ text := by
  induction text with
  | nil => exact ⟨fun _ => List.not_mem_nil, fun _ => rfl⟩
  | cons c rest ih =>
    unfold splitOnce
    split
    · rename_i hc
      exact ⟨nofun, fun h => absurd (hc ▸ List.mem_cons_self ..) h⟩
    · rename_i hc
      rw [Option.map_eq_none_iff, ih, List.mem_cons, not_or]
      exact ⟨fun h => ⟨fun heq => hc heq.symm, h⟩, fun h => h.2⟩

/-- The text is parted at its first separator. -/
theorem splitOnce_eq_some {separator : α} {text before after : List α} :
    splitOnce separator text = some (before, after) ↔
      text = before ++ separator :: after ∧ separator ∉ before := by
  induction text generalizing before with
  | nil => exact ⟨nofun, fun h => absurd h.1 (by simp)⟩
  | cons c rest ih =>
    unfold splitOnce
    split
    · rename_i hc
      subst hc
      constructor
      · intro h
        obtain ⟨rfl, rfl⟩ := Prod.mk.inj (Option.some.inj h)
        exact ⟨rfl, List.not_mem_nil⟩
      · rintro ⟨heq, hnot⟩
        cases before with
        | nil => rw [(List.cons.inj heq).2]
        | cons b before => exact absurd (List.mem_cons.mpr (.inl (List.cons.inj heq).1)) hnot
    · rename_i hc
      rw [Option.map_eq_some_iff]
      constructor
      · rintro ⟨⟨first, last⟩, hparts, hmk⟩
        obtain ⟨rfl, rfl⟩ := Prod.mk.inj hmk
        obtain ⟨rfl, hnot⟩ := ih.mp hparts
        refine ⟨rfl, fun hmem => ?_⟩
        rcases List.mem_cons.mp hmem with h | h
        · exact hc h.symm
        · exact hnot h
      · rintro ⟨heq, hnot⟩
        cases before with
        | nil => exact absurd (List.cons.inj heq).1 hc
        | cons b before =>
          obtain ⟨rfl, hrest⟩ := List.cons.inj heq
          have hnot' : separator ∉ before := fun h => hnot (List.mem_cons_of_mem _ h)
          exact ⟨(before, after), ih.mpr ⟨hrest, hnot'⟩, rfl⟩

/-- `str::rsplit_once`. -/
def rsplitOnce (separator : α) (text : List α) : Option (List α × List α) :=
  (splitOnce separator text.reverse).map fun parts => (parts.2.reverse, parts.1.reverse)

/-- The text is parted at its last separator. -/
theorem rsplitOnce_eq_some {separator : α} {text before after : List α} :
    rsplitOnce separator text = some (before, after) ↔
      text = before ++ separator :: after ∧ separator ∉ after := by
  unfold rsplitOnce
  rw [Option.map_eq_some_iff]
  constructor
  · rintro ⟨⟨last, first⟩, hparts, hmk⟩
    obtain ⟨rfl, rfl⟩ := Prod.mk.inj hmk
    obtain ⟨hreverse, hnot⟩ := splitOnce_eq_some.mp hparts
    refine ⟨?_, by rwa [List.mem_reverse]⟩
    rw [← List.reverse_reverse text, hreverse]
    simp
  · rintro ⟨rfl, hnot⟩
    refine ⟨(after.reverse, before.reverse), splitOnce_eq_some.mpr ⟨by simp, ?_⟩, by simp⟩
    rwa [List.mem_reverse]

/-- No part holds the separator. -/
theorem not_mem_of_mem_splitOn {separator : α} {text part : List α}
    (h : part ∈ text.splitOn separator) : separator ∉ part := by
  induction text generalizing part with
  | nil =>
    rw [List.splitOn_nil, List.mem_singleton] at h
    rw [h]
    exact List.not_mem_nil
  | cons c text ih =>
    rw [List.splitOn_cons_eq_if_modifyHead] at h
    split at h
    next hc =>
      rcases List.mem_cons.mp h with rfl | h
      · exact List.not_mem_nil
      · exact ih h
    next hc =>
      cases hparts : text.splitOn separator with
      | nil => exact absurd hparts (List.splitOn_ne_nil separator text)
      | cons first rest =>
        rw [hparts, List.modifyHead_cons] at h
        rcases List.mem_cons.mp h with rfl | h
        · refine List.not_mem_cons_of_ne_of_not_mem (fun heq => hc ?_) ?_
          · rw [heq, beq_self_eq_true]
          · exact ih (hparts ▸ List.mem_cons_self ..)
        · exact ih (hparts ▸ List.mem_cons_of_mem _ h)

/-- Each part with the separator after it, and then the rest. -/
def ended (separator : α) (parts : List (List α)) (rest : List α) : List α :=
  parts.foldr (fun part tail => part ++ separator :: tail) rest

omit [DecidableEq α] in
theorem ended_append (separator : α) (parts : List (List α)) (rest : List α) :
    ended separator parts rest = ended separator parts [] ++ rest := by
  induction parts with
  | nil => rfl
  | cons part parts ih =>
    show part ++ separator :: ended separator parts rest =
      part ++ separator :: ended separator parts [] ++ rest
    rw [ih, List.append_assoc, List.cons_append]

/-- A part that a separator ends is found again. -/
theorem append_separator_inj {separator : α} {x y after after' : List α} (hx : separator ∉ x)
    (hy : separator ∉ y) :
    x ++ separator :: after = y ++ separator :: after' ↔ x = y ∧ after = after' := by
  constructor
  · intro heq
    have hsplit := (splitOnce_eq_some.mpr ⟨rfl, hx⟩).symm.trans
      (splitOnce_eq_some.mpr ⟨heq, hy⟩)
    exact Prod.mk.inj (Option.some.inj hsplit)
  · rintro ⟨rfl, rfl⟩
    rfl

theorem splitOn_ended {separator : α} {parts : List (List α)} {rest : List α}
    (hparts : ∀ part ∈ parts, separator ∉ part) (hrest : separator ∉ rest) :
    (ended separator parts rest).splitOn separator = parts ++ [rest] := by
  induction parts with
  | nil => exact List.splitOn_eq_singleton hrest
  | cons part parts ih =>
    show (part ++ separator :: ended separator parts rest).splitOn separator = _
    rw [List.splitOn_append_cons_self_of_not_mem (hparts part (List.mem_cons_self ..)),
      ih fun p hp => hparts p (List.mem_cons_of_mem part hp)]
    rfl

/-- Ended parts begin a text if and only if they are its first parts. -/
theorem ended_prefix_iff {separator : α} {xs ys : List (List α)} {rest : List α}
    (hxs : ∀ x ∈ xs, separator ∉ x) (hys : ∀ y ∈ ys, separator ∉ y) (hrest : separator ∉ rest) :
    ended separator xs [] <+: ended separator ys rest ↔ xs <+: ys := by
  induction xs generalizing ys with
  | nil => exact iff_of_true (List.nil_prefix ..) (List.nil_prefix ..)
  | cons x xs ih =>
    have hx := hxs x (List.mem_cons_self ..)
    have hxs := fun x' h => hxs x' (List.mem_cons_of_mem x h)
    cases ys with
    | nil =>
      refine iff_of_false ?_ fun h => nomatch List.prefix_nil.mp h
      intro h
      refine hrest (h.subset ?_)
      exact List.mem_append_right _ (List.mem_cons_self ..)
    | cons y ys =>
      have hy := hys y (List.mem_cons_self ..)
      have hys := fun y' h => hys y' (List.mem_cons_of_mem y h)
      rw [List.cons_prefix_cons, ← ih hxs hys]
      show x ++ separator :: ended separator xs [] <+: y ++ separator :: ended separator ys rest ↔ _
      constructor
      · rintro ⟨tail, htail⟩
        rw [List.append_assoc, List.cons_append] at htail
        obtain ⟨heq, hafter⟩ := (append_separator_inj hx hy).mp htail
        exact ⟨heq, tail, hafter⟩
      · rintro ⟨rfl, tail, htail⟩
        refine ⟨tail, ?_⟩
        rw [List.append_assoc, List.cons_append, htail]

end Folo.Lib
