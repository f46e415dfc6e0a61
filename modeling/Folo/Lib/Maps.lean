import Std.Data.ExtTreeMap
import Mathlib.Data.List.Nodup
import Mathlib.Order.Compare

/-!
# Maps filled entry by entry

A map is its contents, so that two maps with the same entries are equal. What
a map made with a hash does not determine is the order in which its entries
come when it is walked: that is an `Iteration`, any order at all. A loop over
the entries that touches, for each, only the entry of the same key gives a
map that does not depend on the order (`Iteration.getElem?_foldl`).
-/

namespace Folo.Lib

/-- Keys in a linear order compare equal when they are equal, however their
equality is decided. -/
instance lawfulEqOrdOfLinearOrder {κ : Type} [LinearOrder κ] : Std.LawfulEqOrd κ where
  eq_of_compare h := compare_eq_iff_eq.mp h

open Std

variable {κ β γ : Type} [Ord κ] [TransOrd κ] [LawfulEqOrd κ]

/-- The entry of `k`, or `fresh` in its place, goes through `f`. -/
def upsert (m : ExtTreeMap κ β) (k : κ) (fresh : β) (f : β → β) : ExtTreeMap κ β :=
  m.insert k (f (m[k]?.getD fresh))

theorem getElem?_insert [DecidableEq κ] (m : ExtTreeMap κ β) (k a : κ) (v : β) :
    (m.insert k v)[a]? = if k = a then some v else m[a]? := by
  rw [ExtTreeMap.getElem?_insert]
  by_cases hk : k = a
  · rw [if_pos hk, if_pos (LawfulEqOrd.compare_eq_iff_eq.mpr hk)]
  · rw [if_neg hk, if_neg fun h => hk (LawfulEqOrd.compare_eq_iff_eq.mp h)]

theorem getElem?_erase [DecidableEq κ] (m : ExtTreeMap κ β) (k a : κ) :
    (m.erase k)[a]? = if k = a then none else m[a]? := by
  rw [ExtTreeMap.getElem?_erase]
  by_cases hk : k = a
  · rw [if_pos hk, if_pos (LawfulEqOrd.compare_eq_iff_eq.mpr hk)]
  · rw [if_neg hk, if_neg fun h => hk (LawfulEqOrd.compare_eq_iff_eq.mp h)]

theorem getElem?_upsert [DecidableEq κ] (m : ExtTreeMap κ β) (k a : κ) (fresh : β) (f : β → β) :
    (upsert m k fresh f)[a]? = if k = a then some (f (m[k]?.getD fresh)) else m[a]? :=
  getElem?_insert m k a _

/-- One value under several keys. -/
theorem getElem?_foldl_insert_const [DecidableEq κ] (keys : List κ) (v : β) (m : ExtTreeMap κ β)
    (a : κ) : (keys.foldl (fun m k => m.insert k v) m)[a]? =
      if a ∈ keys then some v else m[a]? := by
  induction keys generalizing m with
  | nil => rfl
  | cons k keys ih =>
    rw [List.foldl_cons, ih, getElem?_insert]
    by_cases hp : a ∈ keys
    · rw [if_pos hp, if_pos (List.mem_cons_of_mem _ hp)]
    · rw [if_neg hp]
      by_cases heq : k = a
      · rw [if_pos heq, if_pos (List.mem_cons.mpr (.inl heq.symm))]
      · have hnot : a ∉ k :: keys := fun h =>
          (List.mem_cons.mp h).elim (fun h => heq h.symm) hp
        rw [if_neg heq, if_neg hnot]

/-- Of what is entered under one key the last stays. -/
theorem getElem?_foldl_insert_key [DecidableEq κ] (key : β → κ) (xs : List β)
    (m : ExtTreeMap κ β) (a : κ) : (xs.foldl (fun m x => m.insert (key x) x) m)[a]? =
      (xs.reverse.find? fun x => key x = a).or m[a]? := by
  induction xs generalizing m with
  | nil => rfl
  | cons x xs ih =>
    rw [List.foldl_cons, ih, getElem?_insert, List.reverse_cons, List.find?_append,
      Option.or_assoc]
    congr 1
    rw [List.find?_singleton]
    by_cases hx : key x = a
    · rw [if_pos hx, if_pos (decide_eq_true hx)]
      rfl
    · rw [if_neg hx, if_neg (by simpa using hx)]
      rfl

/-- An order in which the entries of a map come when it is walked. -/
structure Iteration (κ β : Type) [Ord κ] [TransOrd κ] where
  entries : ExtTreeMap κ β → List (κ × β)
  perm : ∀ m, (entries m).Perm m.toList

namespace Iteration

/-- The order of the keys. -/
def sorted : Iteration κ β where
  entries m := m.toList
  perm _ := List.Perm.refl _

theorem mem_entries (it : Iteration κ β) {m : ExtTreeMap κ β} {k : κ} {v : β} :
    (k, v) ∈ it.entries m ↔ m[k]? = some v := by
  rw [(it.perm m).mem_iff, ExtTreeMap.mem_toList_iff_getElem?_eq_some]

theorem nodup_keys (it : Iteration κ β) (m : ExtTreeMap κ β) :
    ((it.entries m).map Prod.fst).Nodup := by
  rw [((it.perm m).map Prod.fst).nodup_iff, List.Nodup, List.pairwise_map]
  refine List.Pairwise.imp (fun h heq => h ?_) ExtTreeMap.distinct_keys_toList
  exact LawfulEqOrd.compare_eq_iff_eq.mpr heq

theorem nodup_entries (it : Iteration κ β) (m : ExtTreeMap κ β) : (it.entries m).Nodup :=
  (it.nodup_keys m).of_map Prod.fst

end Iteration

/-- A new entry is one more entry. -/
theorem toList_insert_perm [DecidableEq κ] {m : ExtTreeMap κ β} {k : κ} (v : β)
    (hnew : m[k]? = none) : (m.insert k v).toList.Perm ((k, v) :: m.toList) := by
  have hmem : ∀ (m : ExtTreeMap κ β) e, e ∈ m.toList ↔ m[e.1]? = some e.2 :=
    fun m e => (Iteration.sorted (κ := κ)).mem_entries
  have hnodup : (m.insert k v).toList.Nodup := Iteration.sorted.nodup_entries _
  refine (List.perm_ext_iff_of_nodup hnodup ?_).mpr fun e => ?_
  · refine List.nodup_cons.mpr ⟨fun hin => ?_, Iteration.sorted.nodup_entries m⟩
    exact nomatch hnew.symm.trans ((hmem m _).mp hin)
  · obtain ⟨a, w⟩ := e
    rw [hmem, List.mem_cons, hmem, getElem?_insert]
    by_cases hk : k = a
    · subst hk
      rw [if_pos rfl, hnew, Option.some.injEq, Prod.mk.injEq, or_iff_left nofun]
      exact ⟨fun h => ⟨rfl, h.symm⟩, fun h => h.2.symm⟩
    · rw [if_neg hk, or_iff_right fun h => hk (Prod.mk.inj h).1.symm]

omit [LawfulEqOrd κ] in
/-- What a loop over pairs with different keys leaves at a key. -/
theorem getElem?_foldl_pairs [DecidableEq κ] (step : ExtTreeMap κ γ → κ × β → ExtTreeMap κ γ)
    (value : κ → β → Option γ → γ)
    (hstep : ∀ m k v a, (step m (k, v))[a]? = if k = a then some (value k v m[k]?) else m[a]?)
    (pairs : List (κ × β)) (hkeys : (pairs.map Prod.fst).Nodup) (m : ExtTreeMap κ γ) (a : κ) :
    (∀ v, (a, v) ∈ pairs → (pairs.foldl step m)[a]? = some (value a v m[a]?)) ∧
      ((∀ v, (a, v) ∉ pairs) → (pairs.foldl step m)[a]? = m[a]?) := by
  induction pairs generalizing m with
  | nil => exact ⟨fun v hv => absurd hv List.not_mem_nil, fun _ => rfl⟩
  | cons pair pairs ih =>
    obtain ⟨k, w⟩ := pair
    rw [List.map_cons, List.nodup_cons] at hkeys
    obtain ⟨hk, hkeys⟩ := hkeys
    obtain ⟨hin, hout⟩ := ih hkeys (step m (k, w))
    rw [List.foldl_cons]
    constructor
    · intro v hv
      rcases List.mem_cons.mp hv with heq | hv
      · -- the pair that comes first is the only one with its key
        obtain ⟨rfl, rfl⟩ := Prod.mk.inj heq
        rw [hout fun v hv => hk (List.mem_map.mpr ⟨_, hv, rfl⟩), hstep, if_pos rfl]
      · have hne : k ≠ a := fun h => hk (List.mem_map.mpr ⟨_, hv, h.symm⟩)
        rw [hin v hv, hstep, if_neg hne]
    · intro hnone
      have hne : k ≠ a := fun h => hnone w (List.mem_cons.mpr (.inl (by rw [h])))
      rw [hout fun v hv => hnone v (List.mem_cons_of_mem _ hv), hstep, if_neg hne]

/-- A loop that enters a value for each of distinct keys, or none, and may fail. -/
theorem getElem?_foldlM_insert [DecidableEq κ] {α : Type} {key : α → κ}
    {value : α → Option (Option β)} {xs : List α} (hkeys : (xs.map key).Nodup)
    {before after : ExtTreeMap κ β}
    (h : xs.foldlM (fun m x => (value x).map fun v => v.elim m fun v => m.insert (key x) v)
      before = some after) :
    (∀ x ∈ xs, ∃ v, value x = some v ∧ after[key x]? = v.or before[key x]?) ∧
      ∀ k, (∀ x ∈ xs, key x ≠ k) → after[k]? = before[k]? := by
  induction xs generalizing before with
  | nil =>
    obtain rfl := Option.some.inj h
    exact ⟨nofun, fun k _ => rfl⟩
  | cons x xs ih =>
    rw [List.foldlM_cons] at h
    obtain ⟨next, hnext, h⟩ := Option.bind_eq_some_iff.mp h
    obtain ⟨v, hv, rfl⟩ := Option.map_eq_some_iff.mp hnext
    rw [List.map_cons, List.nodup_cons] at hkeys
    obtain ⟨hin, hout⟩ := ih hkeys.2 h
    have hnew : ∀ k, key x ≠ k →
        (v.elim before fun v => before.insert (key x) v)[k]? = before[k]? := by
      intro k hk
      cases v with
      | none => rfl
      | some v => exact (getElem?_insert ..).trans (if_neg hk)
    have hother : ∀ y ∈ xs, key x ≠ key y := fun y hy heq =>
      hkeys.1 (List.mem_map.mpr ⟨y, hy, heq.symm⟩)
    refine ⟨List.forall_mem_cons.mpr ⟨⟨v, hv, ?_⟩, fun y hy => ?_⟩, fun k hk => ?_⟩
    · rw [hout _ fun y hy heq => hother y hy heq.symm]
      cases v with
      | none => rfl
      | some v => exact (getElem?_insert ..).trans (if_pos rfl)
    · obtain ⟨w, hw, hget⟩ := hin y hy
      exact ⟨w, hw, by rw [hget, hnew _ (hother y hy)]⟩
    · obtain ⟨hx, hxs⟩ := List.forall_mem_cons.mp hk
      rw [hout k hxs, hnew k hx]

/-- What a loop over the entries of a map leaves at a key, in any order. -/
theorem Iteration.getElem?_foldl [DecidableEq κ] (it : Iteration κ β)
    (step : ExtTreeMap κ γ → κ × β → ExtTreeMap κ γ) (value : κ → β → Option γ → γ)
    (hstep : ∀ m k v a, (step m (k, v))[a]? = if k = a then some (value k v m[k]?) else m[a]?)
    (walked : ExtTreeMap κ β) (m : ExtTreeMap κ γ) (a : κ) :
    ((it.entries walked).foldl step m)[a]? =
      walked[a]?.elim m[a]? fun v => some (value a v m[a]?) := by
  obtain ⟨hin, hout⟩ := getElem?_foldl_pairs step value hstep _ (it.nodup_keys walked) m a
  cases hw : walked[a]? with
  | none =>
    refine hout fun v hv => ?_
    rw [it.mem_entries, hw] at hv
    nomatch hv
  | some v => exact hin v (it.mem_entries.mpr hw)

end Folo.Lib
