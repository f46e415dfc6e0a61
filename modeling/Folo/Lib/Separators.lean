import Mathlib.Data.List.Infix

/-!
# The last part of a text

What `text.rsplit(separator).next()` of Rust gives: the text after the
rightmost separator, or the whole of it. `EndsIn` says the same without a
search: nothing that is read further right is a separator.
-/

namespace Folo.Lib

section

variable {α : Type} {separator text part part' : List α}

/-- The text is the part itself, or ends in a separator and the part. -/
def EndsIn (separator text part : List α) : Prop :=
  (text = part ∧ ¬ separator <:+: text) ∨
    ∃ outer, text = outer ++ separator ++ part ∧ ¬ separator <:+: separator.tail ++ part

/-- A separator within a text begins at some place of it. -/
theorem exists_drop_of_infix (h : separator <:+: text) :
    ∃ i, i ≤ text.length ∧ separator <+: text.drop i := by
  obtain ⟨before, after, htext⟩ := h
  refine ⟨before.length, ?_, after, ?_⟩
  · rw [← htext, List.length_append, List.length_append]
    omega
  · rw [← htext, List.append_assoc, List.drop_left]

theorem drop_succ_eq {outer : List α} (hne : separator ≠ []) (h : text = outer ++ separator ++ part) :
    text.drop (outer.length + 1) = separator.tail ++ part := by
  rw [h, List.append_assoc, ← List.drop_drop, List.drop_left, List.drop_one,
    List.tail_append_of_ne_nil hne]

/-- A separator further right than one that is followed by the part. -/
theorem infix_of_later {outer outer' : List α} (hne : separator ≠ [])
    (h : text = outer ++ separator ++ part) (h' : text = outer' ++ separator ++ part')
    (hlt : outer.length < outer'.length) : separator <:+: separator.tail ++ part := by
  have hlater : text.drop outer'.length = separator ++ part' := by
    rw [h', List.append_assoc, List.drop_left]
  have hsuffix : text.drop outer'.length <:+ text.drop (outer.length + 1) :=
    List.drop_suffix_drop_left text hlt
  rw [← drop_succ_eq hne h]
  exact (hlater ▸ List.prefix_append ..).isInfix.trans hsuffix.isInfix

/-- A text ends in one part only. -/
theorem EndsIn.unique (hne : separator ≠ []) (h : EndsIn separator text part)
    (h' : EndsIn separator text part') : part = part' := by
  rcases h with ⟨rfl, hnone⟩ | ⟨outer, heq, hlast⟩
  · rcases h' with ⟨hsame, -⟩ | ⟨outer', heq', -⟩
    · exact hsame
    · exact absurd ⟨outer', part', heq'.symm⟩ hnone
  · rcases h' with ⟨-, hnone⟩ | ⟨outer', heq', hlast'⟩
    · exact absurd ⟨outer, part, heq.symm⟩ hnone
    · rcases Nat.lt_trichotomy outer.length outer'.length with hlt | hlen | hlt
      · exact absurd (infix_of_later hne heq heq' hlt) hlast
      · rw [heq, List.append_assoc, List.append_assoc] at heq'
        exact List.append_cancel_left (List.append_inj heq' hlen).2
      · exact absurd (infix_of_later hne heq' heq hlt) hlast'

end

variable {α : Type} [DecidableEq α]

/-- What is after the rightmost separator. -/
def lastPart (separator text : List α) : List α :=
  match (List.range (text.length + 1)).reverse.find? fun i => separator.isPrefixOf (text.drop i) with
  | some i => text.drop (i + separator.length)
  | none => text

variable {separator text part : List α}

theorem endsIn_lastPart (hne : separator ≠ []) : EndsIn separator text (lastPart separator text) := by
  unfold lastPart
  cases hfind : (List.range (text.length + 1)).reverse.find? fun i =>
      separator.isPrefixOf (text.drop i) with
  | none =>
    refine Or.inl ⟨rfl, fun hinfix => ?_⟩
    obtain ⟨i, hi, hbegins⟩ := exists_drop_of_infix hinfix
    have hmem : i ∈ (List.range (text.length + 1)).reverse :=
      List.mem_reverse.mpr (List.mem_range.mpr (by omega))
    exact List.find?_eq_none.mp hfind i hmem (List.isPrefixOf_iff_prefix.mpr hbegins)
  | some i =>
    obtain ⟨hfound, before, after, hsplit, hskipped⟩ := List.find?_eq_some_iff_append.mp hfind
    obtain ⟨rest, hrest⟩ := List.isPrefixOf_iff_prefix.mp hfound
    have hpart : text.drop (i + separator.length) = rest := by
      rw [← List.drop_drop, ← hrest, List.drop_left]
    have hsplitText : text = text.take i ++ separator ++ rest := by
      rw [List.append_assoc, hrest, List.take_append_drop]
    have hi : i < text.length + 1 := by
      have hmem : i ∈ (List.range (text.length + 1)).reverse := by
        rw [hsplit]
        exact List.mem_append_right _ (List.mem_cons_self ..)
      exact List.mem_range.mp (List.mem_reverse.mp hmem)
    have hlen : (text.take i).length = i := by
      rw [List.length_take]
      omega
    show EndsIn separator text (text.drop (i + separator.length))
    rw [hpart]
    refine Or.inr ⟨text.take i, hsplitText, fun hinfix => ?_⟩
    -- a separator further right would have been found first
    obtain ⟨k, hk, hlater⟩ := exists_drop_of_infix hinfix
    rw [← drop_succ_eq hne hsplitText, hlen, List.drop_drop] at hlater
    rw [← drop_succ_eq hne hsplitText, hlen, List.length_drop] at hk
    have hmem : i + 1 + k ∈ (List.range (text.length + 1)).reverse := by
      refine List.mem_reverse.mpr (List.mem_range.mpr ?_)
      by_contra hnot
      rw [List.drop_of_length_le (by omega)] at hlater
      exact hne (List.prefix_nil.mp hlater)
    have hdescending : (List.range (text.length + 1)).reverse.Pairwise (· > ·) :=
      List.pairwise_reverse.mpr List.pairwise_lt_range
    rw [hsplit] at hmem hdescending
    rw [List.pairwise_append, List.pairwise_cons] at hdescending
    rcases List.mem_append.mp hmem with hmem | hmem
    · have hnot := hskipped _ hmem
      rw [List.isPrefixOf_iff_prefix.mpr hlater] at hnot
      exact absurd hnot (by simp)
    · rcases List.mem_cons.mp hmem with heq | hmem
      · omega
      · have hgt := hdescending.2.1.1 _ hmem
        omega

theorem lastPart_eq_iff (hne : separator ≠ []) :
    lastPart separator text = part ↔ EndsIn separator text part := by
  constructor
  · intro h
    exact h ▸ endsIn_lastPart hne
  · intro h
    exact (endsIn_lastPart hne).unique hne h

end Folo.Lib
