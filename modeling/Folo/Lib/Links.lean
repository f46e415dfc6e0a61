import Mathlib.Data.List.Basic
import Mathlib.Data.List.Nodup
import Mathlib.Logic.Function.Basic

/-!
# Doubly linked lists in a memory of link cells

`Links α` is what the list operations of an intrusive doubly linked list
read and write: a head, a tail, and a `next` and `prev` link for every
address. `Links.Holds k l` says that the cells reached through them form
exactly the duplicate-free list `l`. It is stated pointwise: wherever `l`
splits as `xs ++ a :: ys`, the links of `a` are the first of `ys` and the
last of `xs`. Both operations below change at most two cells, so every other
split is preserved by inspection and no list segment predicate is needed.

* `pushBack` links a new cell behind the tail (`Holds.pushBack`);
* `splice` removes a cell given the values of its two links, wherever it
  stands (`Holds.splice`): head, middle and tail are one lemma.
-/

namespace Folo.Lib

/-- The link fields of a memory, with the two ends of the list. -/
structure Links (α : Type*) where
  head : Option α
  tail : Option α
  next : α → Option α
  prev : α → Option α

namespace Links

variable {α : Type*}

/-- The linked cells are exactly `l`, in order, each once. -/
structure Holds (k : Links α) (l : List α) : Prop where
  nodup : l.Nodup
  head : k.head = l.head?
  tail : k.tail = l.getLast?
  cell : ∀ xs a ys, l = xs ++ a :: ys → k.next a = ys.head? ∧ k.prev a = xs.getLast?

/-! ## What the links of a held list say -/

theorem Holds.nil_iff {k : Links α} {l : List α} (h : k.Holds l) : k.head = none ↔ l = [] := by
  rw [h.head, List.head?_eq_none_iff]

theorem Holds.tail_mem {k : Links α} {l : List α} (h : k.Holds l) {a : α}
    (ha : k.tail = some a) : a ∈ l := by
  rw [h.tail] at ha
  exact List.mem_of_getLast? ha

/-- The head is the one cell without a predecessor. -/
theorem Holds.prev_eq_none_iff {k : Links α} {l : List α} (h : k.Holds l) {a : α}
    (ha : a ∈ l) : k.prev a = none ↔ k.head = some a := by
  obtain ⟨xs, ys, rfl⟩ := List.append_of_mem ha
  rw [(h.cell xs a ys rfl).2, h.head]
  cases xs with
  | nil => simp
  | cons x xs =>
    have hne : x ≠ a := by
      intro he
      have hnd := h.nodup
      rw [he, List.cons_append, List.nodup_cons] at hnd
      exact hnd.1 (List.mem_append_right _ (List.mem_cons_self ..))
    simp [hne]

/-- The tail is the one cell without a successor. -/
theorem Holds.next_eq_none_iff {k : Links α} {l : List α} (h : k.Holds l) {a : α}
    (ha : a ∈ l) : k.next a = none ↔ k.tail = some a := by
  obtain ⟨xs, ys, rfl⟩ := List.append_of_mem ha
  rw [(h.cell xs a ys rfl).1, h.tail]
  cases ys with
  | nil => simp
  | cons y ys =>
    have hne : (y :: ys).getLast? ≠ some a := by
      intro he
      have hmem : a ∈ y :: ys := List.mem_of_getLast? he
      have hnd := (List.nodup_append.mp h.nodup).2.1
      exact (List.nodup_cons.mp hnd).1 hmem
    rw [List.getLast?_append_of_ne_nil _ (by simp), List.getLast?_cons_cons]
    simp [hne]

/-- `next` and `prev` are mutually inverse on the linked cells. -/
theorem Holds.next_eq_some_iff {k : Links α} {l : List α} (h : k.Holds l) {a b : α}
    (ha : a ∈ l) (hb : b ∈ l) : k.next a = some b ↔ k.prev b = some a := by
  constructor
  · intro hn
    obtain ⟨xs, ys, rfl⟩ := List.append_of_mem ha
    rw [(h.cell xs a ys rfl).1] at hn
    obtain ⟨zs, rfl⟩ := List.head?_eq_some_iff.mp hn
    rw [(h.cell (xs ++ [a]) b zs (by simp)).2]
    simp
  · intro hp
    obtain ⟨xs, ys, rfl⟩ := List.append_of_mem hb
    rw [(h.cell xs b ys rfl).2] at hp
    obtain ⟨zs, rfl⟩ := List.getLast?_eq_some_iff.mp hp
    rw [(h.cell zs a (b :: ys) (by simp)).1]
    simp

/-- Only the links of the listed cells matter. -/
theorem Holds.congr {k k' : Links α} {l : List α} (h : k.Holds l) (hh : k'.head = k.head)
    (ht : k'.tail = k.tail) (hn : ∀ a ∈ l, k'.next a = k.next a)
    (hp : ∀ a ∈ l, k'.prev a = k.prev a) : k'.Holds l := by
  refine ⟨h.nodup, hh.trans h.head, ht.trans h.tail, fun xs a ys hl => ?_⟩
  have ha : a ∈ l := by rw [hl]; simp
  rw [hn a ha, hp a ha]
  exact h.cell xs a ys hl

theorem holds_nil {k : Links α} (hh : k.head = none) (ht : k.tail = none) : k.Holds [] := by
  refine ⟨List.nodup_nil, hh, ht, fun xs a ys hl => ?_⟩
  exact absurd hl (by simp)

variable [DecidableEq α]

/-! ## Linking behind the tail -/

/-- Link `a` as the new last cell. -/
def pushBack (k : Links α) (a : α) : Links α where
  head := match k.tail with
    | none => some a
    | some _ => k.head
  tail := some a
  next := match k.tail with
    | none => Function.update k.next a none
    | some q => Function.update (Function.update k.next a none) q (some a)
  prev := Function.update k.prev a k.tail

theorem Holds.pushBack {k : Links α} {l : List α} (h : k.Holds l) {a : α} (ha : a ∉ l) :
    (k.pushBack a).Holds (l ++ [a]) := by
  have hprev : ∀ b, (k.pushBack a).prev b = if b = a then k.tail else k.prev b := by
    intro b
    simp only [Links.pushBack, Function.update_apply]
  have hnext : ∀ b, (k.pushBack a).next b =
      if k.tail = some b then some a else if b = a then none else k.next b := by
    intro b
    unfold Links.pushBack
    cases ht : k.tail with
    | none => simp [Function.update_apply]
    | some q =>
      by_cases hq : q = b
      · simp [hq]
      · simp [Function.update_apply, hq, Ne.symm hq]
  refine ⟨?_, ?_, by simp [Links.pushBack], ?_⟩
  · rw [List.nodup_append]
    exact ⟨h.nodup, List.nodup_singleton a, by
      intro x hx y hy
      rw [List.mem_singleton.mp hy]
      exact fun he => ha (he ▸ hx)⟩
  · cases l with
    | nil => simp [Links.pushBack, h.tail]
    | cons x l =>
      have ht : k.tail ≠ none := by simp [h.tail]
      obtain ⟨q, hq⟩ := Option.ne_none_iff_exists'.mp ht
      simp [Links.pushBack, hq, h.head]
  · intro xs b ys hl
    -- the split is either inside `l` or at the new last cell
    rcases List.eq_nil_or_concat ys with rfl | ⟨ys', c, rfl⟩
    · obtain ⟨hxs, hb⟩ := List.append_inj' hl rfl
      obtain rfl : a = b := by simpa using hb
      have hta : k.tail ≠ some a := fun ht => ha (h.tail_mem ht)
      rw [hnext, hprev, if_neg hta, if_pos rfl, if_pos rfl, h.tail, hxs]
      exact ⟨rfl, rfl⟩
    · have hl' : l ++ [a] = (xs ++ b :: ys') ++ [c] := by simpa using hl
      obtain ⟨hll, hac⟩ := List.append_inj' hl' rfl
      obtain rfl : a = c := by simpa using hac
      have hbl : b ∈ l := by rw [hll]; simp
      have hba : b ≠ a := fun he => ha (he ▸ hbl)
      obtain ⟨hn, hp⟩ := h.cell xs b ys' hll
      rw [hnext, hprev, if_neg hba, if_neg hba, hp, hn]
      refine ⟨?_, rfl⟩
      have htb : k.tail = some b ↔ ys' = [] := by
        rw [← h.next_eq_none_iff hbl, hn, List.head?_eq_none_iff]
      cases ys' with
      | nil => rw [if_pos (htb.mpr rfl)]; rfl
      | cons y ys' => rw [if_neg (fun e => by simpa using htb.mp e)]; rfl

/-! ## Removing a cell -/

/-- Splice out a cell whose links were `p` and `n`. -/
def splice (k : Links α) (p n : Option α) : Links α where
  head := match p with
    | none => n
    | some _ => k.head
  tail := match n with
    | none => p
    | some _ => k.tail
  next := match p with
    | none => k.next
    | some q => Function.update k.next q n
  prev := match n with
    | none => k.prev
    | some q => Function.update k.prev q p

theorem Holds.splice {k : Links α} {xs ys : List α} {a : α} (h : k.Holds (xs ++ a :: ys)) :
    (k.splice (k.prev a) (k.next a)).Holds (xs ++ ys) := by
  obtain ⟨hn, hp⟩ := h.cell xs a ys rfl
  have hnd : (a :: (xs ++ ys)).Nodup := (List.perm_middle.nodup_iff).mp h.nodup
  have hnd' : (xs ++ ys).Nodup := (List.nodup_cons.mp hnd).2
  have hnext : ∀ b, (k.splice xs.getLast? ys.head?).next b =
      if xs.getLast? = some b then ys.head? else k.next b := by
    intro b
    unfold Links.splice
    cases hx : xs.getLast? with
    | none => simp
    | some q => simp [Function.update_apply, eq_comm]
  have hprev : ∀ b, (k.splice xs.getLast? ys.head?).prev b =
      if ys.head? = some b then xs.getLast? else k.prev b := by
    intro b
    unfold Links.splice
    cases hy : ys.head? with
    | none => simp
    | some q => simp [Function.update_apply, eq_comm]
  rw [hn, hp]
  refine ⟨hnd', ?_, ?_, ?_⟩
  · cases xs with
    | nil => simp [Links.splice]
    | cons x xs =>
      obtain ⟨q, hq⟩ : ∃ q, (x :: xs).getLast? = some q := Option.ne_none_iff_exists'.mp (by simp)
      simp [Links.splice, hq, h.head]
  · cases ys with
    | nil => simp [Links.splice]
    | cons y ys =>
      simp only [Links.splice, List.head?_cons, h.tail]
      rw [List.getLast?_append_of_ne_nil _ (by simp), List.getLast?_cons_cons,
        List.getLast?_append_of_ne_nil _ (by simp)]
  · intro us b vs hl
    rw [hnext, hprev]
    rcases List.append_eq_append_iff.mp hl with ⟨ws, hus, hys⟩ | ⟨ws, hxs, hbvs⟩
    · -- `b` stands in `ys`
      subst hus
      obtain ⟨hn', hp'⟩ := h.cell (xs ++ a :: ws) b vs (by simp [hys])
      have hbx : xs.getLast? ≠ some b := by
        intro he
        have hb : b ∈ xs := List.mem_of_getLast? he
        rw [hl] at hnd'
        have := (List.nodup_append.mp hnd').2.2 b (List.mem_append_left _ hb) b
          (List.mem_cons_self ..)
        exact this rfl
      rw [if_neg hbx, hn', hys]
      refine ⟨rfl, ?_⟩
      cases ws with
      | nil => simp
      | cons w ws =>
        have hwb : w ≠ b := by
          intro he
          rw [hl, he] at hnd'
          have := (List.nodup_append.mp hnd').2.2 b (by simp) b (List.mem_cons_self ..)
          exact this rfl
        rw [List.cons_append, List.head?_cons, if_neg (by simpa using hwb), hp']
        rw [List.getLast?_append_of_ne_nil _ (by simp), List.getLast?_cons_cons,
          List.getLast?_append_of_ne_nil _ (by simp)]
    · -- `b` stands in `xs`, unless `xs` ended before it
      cases ws with
      | nil =>
        simp only [List.append_nil, List.nil_append] at hxs hbvs
        subst hxs
        obtain ⟨hn', hp'⟩ := h.cell (xs ++ [a]) b vs (by simp [hbvs])
        have hbx : xs.getLast? ≠ some b := by
          intro he
          have hb : b ∈ xs := List.mem_of_getLast? he
          rw [hl] at hnd'
          exact (List.nodup_append.mp hnd').2.2 b hb b (List.mem_cons_self ..) rfl
        rw [if_neg hbx, hn', ← hbvs]
        simp
      | cons w ws =>
        obtain ⟨rfl, hvs⟩ : b = w ∧ vs = ws ++ ys := by simpa using hbvs
        subst hxs
        obtain ⟨hn', hp'⟩ := h.cell us b (ws ++ a :: ys) (by simp)
        have hby : ys.head? ≠ some b := by
          intro he
          have hb : b ∈ ys := List.mem_of_head? he
          exact (List.nodup_append.mp hnd').2.2 b (by simp) b hb rfl
        rw [if_neg hby, hp', hn', hvs]
        refine ⟨?_, rfl⟩
        cases ws with
        | nil => simp
        | cons w ws =>
          have hwb : (us ++ b :: w :: ws).getLast? ≠ some b := by
            intro he
            rw [List.getLast?_append_of_ne_nil _ (by simp), List.getLast?_cons_cons] at he
            have hb : b ∈ w :: ws := List.mem_of_getLast? he
            have hnd'' := (List.nodup_append.mp (List.nodup_append.mp hnd').1).2.1
            exact (List.nodup_cons.mp hnd'').1 hb
          rw [if_neg hwb]
          simp

end Links

end Folo.Lib
