import Mathlib.Data.List.Perm.Basic
import Folo.ManyCpus.PinStatus

/-!
# The lookups behind the answers

What the map of a thread has for an instance, and what an instance has for a
processor id.
-/

namespace Folo.ManyCpus

namespace PinStateMap

variable {m : PinStateMap} {id other : HardwareId} {state : ThreadState}

def keys (m : PinStateMap) : List HardwareId :=
  m.entries.map Prod.fst

theorem get_eq_some (hkeys : m.keys.Nodup) : m.get id = some state ↔ (id, state) ∈ m.entries := by
  obtain ⟨entries⟩ := m
  show (entries.findSome? fun e => if e.1 = id then some e.2 else none) = some state ↔ _ ∈ entries
  replace hkeys : (entries.map Prod.fst).Nodup := hkeys
  induction entries with
  | nil => exact ⟨nofun, fun hin => absurd hin List.not_mem_nil⟩
  | cons e entries ih =>
    rw [List.map_cons, List.nodup_cons] at hkeys
    rw [List.findSome?_cons, List.mem_cons]
    by_cases he : e.1 = id
    · rw [if_pos he]
      constructor
      · intro hs
        exact .inl (Prod.ext he.symm (Option.some.inj hs).symm)
      · rintro (heq | hin)
        · exact congrArg some (congrArg Prod.snd heq).symm
        · exact absurd (List.mem_map_of_mem hin) (he ▸ hkeys.1)
    · rw [if_neg he]
      exact (ih hkeys.2).trans ⟨.inr, fun h => h.resolve_left fun heq =>
        he (congrArg Prod.fst heq).symm⟩

theorem get_eq_none (hnot : id ∉ m.keys) : m.get id = none := by
  refine List.findSome?_eq_none_iff.mpr fun e he => if_neg fun heq => hnot ?_
  exact heq ▸ List.mem_map_of_mem he

theorem get_setFirst (entries : List (HardwareId × ThreadState)) :
    (PinStateMap.mk (setFirst id state entries)).get other =
      if id = other then some state else (PinStateMap.mk entries).get other := by
  show List.findSome? _ _ = _
  induction entries with
  | nil =>
    rw [setFirst, List.findSome?_cons]
    by_cases ho : id = other
    · rw [if_pos ho, if_pos ho]
    · rw [if_neg ho, if_neg ho]
      rfl
  | cons e entries ih =>
    rw [setFirst]
    by_cases he : e.1 = id
    · rw [if_pos he, List.findSome?_cons]
      by_cases ho : id = other
      · rw [if_pos (he.trans ho), if_pos ho]
      · rw [if_neg fun h => ho (he.symm.trans h), if_neg ho, get, List.findSome?_cons,
          if_neg fun h => ho (he.symm.trans h)]
    · rw [if_neg he, List.findSome?_cons]
      by_cases ho : e.1 = other
      · rw [if_pos ho, if_neg fun h => he (ho.trans h.symm), get, List.findSome?_cons, if_pos ho]
      · rw [if_neg ho, get, List.findSome?_cons, if_neg ho]
        exact ih

theorem get_set : (m.set id state).get other = if id = other then some state else m.get other :=
  get_setFirst m.entries

theorem keys_setFirst (entries : List (HardwareId × ThreadState)) :
    (setFirst id state entries).map Prod.fst =
      if id ∈ entries.map Prod.fst then entries.map Prod.fst
      else entries.map Prod.fst ++ [id] := by
  induction entries with
  | nil => rfl
  | cons e entries ih =>
    rw [setFirst]
    by_cases he : e.1 = id
    · rw [if_pos he, if_pos (by rw [List.map_cons, he]; exact List.mem_cons_self ..)]
      rfl
    · rw [if_neg he, List.map_cons, ih, List.map_cons]
      by_cases hin : id ∈ entries.map Prod.fst
      · rw [if_pos hin, if_pos (List.mem_cons_of_mem _ hin)]
      · rw [if_neg hin, if_neg fun h => (List.mem_cons.mp h).elim (Ne.symm he) hin]
        rfl

theorem nodup_set (hkeys : m.keys.Nodup) : (m.set id state).keys.Nodup := by
  rw [keys, set, keys_setFirst]
  split
  · exact hkeys
  · next hnew =>
    exact List.nodup_append.mpr ⟨hkeys, List.nodup_singleton _, fun a ha b hb heq =>
      hnew (List.mem_singleton.mp hb ▸ heq ▸ ha)⟩

theorem mem_keys_set (h : other ∈ (m.set id state).keys) : other = id ∨ other ∈ m.keys := by
  rw [keys, set, keys_setFirst] at h
  split at h
  · exact .inr h
  · exact (List.mem_append.mp h).symm.imp_left List.mem_singleton.mp

/-- Removing by a swap removes what was asked for. -/
theorem swapRemove_perm {α : Type} {xs : List α} {i : Nat} (hi : i < xs.length) :
    (swapRemove xs i).Perm (xs.eraseIdx i) := by
  rcases List.eq_nil_or_concat xs with rfl | ⟨front, last, rfl⟩
  · exact absurd hi (Nat.not_lt_zero i)
  · rw [List.concat_eq_append] at hi ⊢
    rw [List.length_append, List.length_singleton] at hi
    rw [swapRemove, List.getLast?_concat]
    simp only [List.length_append, List.length_singleton]
    split
    · next hend =>
      rw [List.dropLast_concat, List.eraseIdx_append_of_length_le (by omega),
        show i - front.length = 0 by omega]
      exact .of_eq (List.append_nil _).symm
    · next hmid =>
      have hlt : i < front.length := by omega
      rw [List.set_append_left _ _ hlt, List.dropLast_concat,
        List.eraseIdx_append_of_lt_length hlt]
      exact (List.set_perm_cons_eraseIdx hlt last).trans (List.perm_append_singleton ..).symm

theorem remove_spec (id : HardwareId) (hkeys : m.keys.Nodup) :
    (m.remove id).keys.Nodup ∧
      ∀ e, e ∈ (m.remove id).entries ↔ e ∈ m.entries ∧ e.1 ≠ id := by
  unfold remove
  split
  · next i hfind =>
    obtain ⟨hi, hat, -⟩ := List.findIdx?_eq_some_iff_getElem.mp hfind
    have hperm := swapRemove_perm hi
    have herase : (m.entries[i] :: m.entries.eraseIdx i).Perm m.entries :=
      List.getElem_cons_eraseIdx_perm hi
    have hnodup := (herase.map Prod.fst).nodup_iff.mpr hkeys
    rw [List.map_cons, List.nodup_cons] at hnodup
    have hid : m.entries[i].1 = id := of_decide_eq_true hat
    refine ⟨((hperm.map Prod.fst).nodup_iff.mpr hnodup.2), fun e => ?_⟩
    rw [hperm.mem_iff, ← herase.mem_iff, List.mem_cons]
    constructor
    · intro hin
      exact ⟨.inr hin, fun heq => hnodup.1 (hid ▸ heq ▸ List.mem_map_of_mem hin)⟩
    · rintro ⟨rfl | hin, hne⟩
      · exact absurd hid hne
      · exact hin
  · next hfind =>
    have hnone := List.findIdx?_eq_none_iff.mp hfind
    exact ⟨hkeys, fun e => ⟨fun hin => ⟨hin, of_decide_eq_false (hnone e hin)⟩, And.left⟩⟩

theorem get_remove_ne (hkeys : m.keys.Nodup) (hne : other ≠ id) :
    (m.remove id).get other = m.get other := by
  obtain ⟨hnodup, hmem⟩ := remove_spec id hkeys
  refine Option.ext fun state => ?_
  rw [get_eq_some hnodup, get_eq_some hkeys, hmem]
  exact ⟨And.left, fun hin => ⟨hin, hne⟩⟩

theorem mem_keys_remove (hkeys : m.keys.Nodup) (h : other ∈ (m.remove id).keys) :
    other ∈ m.keys := by
  obtain ⟨e, he, rfl⟩ := List.mem_map.mp h
  exact List.mem_map_of_mem (((remove_spec _ hkeys).2 e).mp he).1

end PinStateMap

namespace SystemHardware

variable {hw : SystemHardware} {p : Processor} {i : ProcessorId}

/-- Filling a slice by id. -/
theorem getElem?_foldl_set (ps : List Processor) (hids : (ps.map Processor.id).Nodup)
    (slice : List (Option Processor)) (hlt : ∀ p ∈ ps, p.id < slice.length) :
    (ps.foldl (fun slice p => slice.set p.id (some p)) slice)[i]? = some (some p) ↔
      p ∈ ps ∧ p.id = i ∨ i ∉ ps.map Processor.id ∧ slice[i]? = some (some p) := by
  induction ps generalizing slice with
  | nil => exact ⟨fun h => .inr ⟨List.not_mem_nil, h⟩, fun h => h.elim (fun h => nomatch h.1)
      And.right⟩
  | cons q ps ih =>
    rw [List.map_cons, List.nodup_cons] at hids
    have hq := hlt q (List.mem_cons_self ..)
    rw [List.foldl_cons, ih hids.2 _ fun p hp => by
      rw [List.length_set]
      exact hlt p (List.mem_cons_of_mem _ hp)]
    rw [List.map_cons, List.mem_cons, List.mem_cons, List.getElem?_set, not_or]
    constructor
    · rintro (⟨hin, heq⟩ | ⟨hnot, hat⟩)
      · exact .inl ⟨.inr hin, heq⟩
      · by_cases hi : q.id = i
        · rw [if_pos hi, if_pos (hi ▸ hq)] at hat
          obtain rfl : q = p := Option.some.inj (Option.some.inj hat)
          exact .inl ⟨.inl rfl, hi⟩
        · rw [if_neg hi] at hat
          exact .inr ⟨⟨Ne.symm hi, hnot⟩, hat⟩
    · rintro (⟨rfl | hin, heq⟩ | ⟨⟨hne, hnot⟩, hat⟩)
      · refine .inr ⟨heq ▸ hids.1, ?_⟩
        rw [if_pos heq, if_pos (heq ▸ hq)]
      · exact .inl ⟨hin, heq⟩
      · refine .inr ⟨hnot, ?_⟩
        rw [if_neg (Ne.symm hne)]
        exact hat

theorem nodup_ids (hw : SystemHardware) : (hw.processors.map Processor.id).Nodup := by
  rw [processors, List.map_map]
  exact hw.platform.nodup

theorem getElem?_allProcessorsSlice :
    hw.allProcessorsSlice[i]? = some (some p) ↔ p ∈ hw.processors ∧ p.id = i := by
  rw [allProcessorsSlice, getElem?_foldl_set _ hw.nodup_ids]
  · refine or_iff_left fun ⟨_, hat⟩ => ?_
    exact nomatch (List.eq_of_mem_replicate (List.mem_of_getElem? hat))
  · intro p hp
    obtain ⟨inner, hin, rfl⟩ := List.mem_map.mp hp
    rw [List.length_replicate]
    exact Nat.lt_succ_of_le (hw.platform.le_max inner hin)

theorem mem_knownProcessors :
    p ∈ hw.allProcessorsSlice.filterMap (fun p => p) ↔ p ∈ hw.processors := by
  rw [List.mem_filterMap]
  constructor
  · rintro ⟨_, hin, rfl⟩
    obtain ⟨i, hi⟩ := List.mem_iff_getElem?.mp hin
    exact (getElem?_allProcessorsSlice.mp hi).1
  · intro hp
    exact ⟨some p, List.mem_of_getElem? (getElem?_allProcessorsSlice.mpr ⟨hp, rfl⟩), rfl⟩

theorem getProcessor_of_mem (hp : p ∈ hw.processors) : hw.getProcessor p.id = p := by
  rw [getProcessor, getElem?_allProcessorsSlice.mpr ⟨hp, rfl⟩]

theorem getProcessor_mem (hw : SystemHardware) (i : ProcessorId) :
    hw.getProcessor i ∈ hw.processors := by
  unfold getProcessor
  split
  · next p hat => exact (getElem?_allProcessorsSlice.mp hat).1
  · cases hfind : hw.allProcessorsSlice.findSome? fun p => p with
    | none => exact List.mem_map_of_mem (List.mem_cons_self ..)
    | some p =>
      obtain ⟨q, hin, heq⟩ := List.exists_of_findSome?_eq_some hfind
      exact mem_knownProcessors.mp (List.mem_filterMap.mpr ⟨q, hin, heq⟩)

end SystemHardware

end Folo.ManyCpus
