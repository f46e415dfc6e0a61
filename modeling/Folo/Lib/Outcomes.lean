import Mathlib.Data.List.Forall2

/-!
# Computations that may fail

What a computation that succeeded went through: what a sequence and a map
returned, their parts returned, and a traversal succeeded on every element.
-/

namespace Folo.Lib

section Except

universe u v

variable {ε : Type u} {α β : Type v} {x : Except ε α} {b : β}

theorem bind_eq_ok {f : α → Except ε β} : x >>= f = .ok b ↔ ∃ a, x = .ok a ∧ f a = .ok b := by
  cases x with
  | error e => exact ⟨nofun, nofun⟩
  | ok a => exact ⟨fun h => ⟨a, rfl, h⟩, fun ⟨_, ha, h⟩ => Except.ok.inj ha ▸ h⟩

theorem map_eq_ok {f : α → β} : x.map f = .ok b ↔ ∃ a, x = .ok a ∧ f a = b := by
  cases x with
  | error e => exact ⟨nofun, nofun⟩
  | ok a =>
    exact ⟨fun h => ⟨a, rfl, Except.ok.inj h⟩,
      fun ⟨_, ha, h⟩ => congrArg Except.ok (Except.ok.inj ha ▸ h)⟩

theorem toOption_bind {f : α → Except ε β} :
    (x >>= f).toOption = x.toOption.bind fun a => (f a).toOption := by
  cases x with
  | error e => rfl
  | ok a => rfl

theorem toOption_eq_some {a : α} : x.toOption = some a ↔ x = .ok a := by
  cases x with
  | error e => exact ⟨nofun, nofun⟩
  | ok a' => exact ⟨fun h => congrArg _ (Option.some.inj h), fun h => congrArg _ (Except.ok.inj h)⟩

end Except

variable {ε α β : Type}

/-- A fold whose failures are told apart no more. -/
theorem toOption_foldlM {f : β → α → Except ε β} {xs : List α} {b : β} :
    (xs.foldlM f b).toOption = xs.foldlM (fun b a => (f b a).toOption) b := by
  induction xs generalizing b with
  | nil => rfl
  | cons x xs ih =>
    rw [List.foldlM_cons, List.foldlM_cons, toOption_bind]
    exact congrArg _ (funext fun b' => ih)

/-- Every element succeeded. -/
theorem forall₂_of_mapM_eq_ok {f : α → Except ε β} {xs : List α} {ys : List β}
    (h : xs.mapM f = .ok ys) : List.Forall₂ (fun x y => f x = .ok y) xs ys := by
  induction xs generalizing ys with
  | nil =>
    obtain rfl := Except.ok.inj h
    exact .nil
  | cons x xs ih =>
    rw [List.mapM_cons] at h
    obtain ⟨y, hy, h⟩ := bind_eq_ok.mp h
    obtain ⟨rest, hrest, h⟩ := bind_eq_ok.mp h
    obtain rfl := Except.ok.inj h
    exact .cons hy (ih hrest)

/-- Elements that all succeed. -/
theorem mapM_eq_ok_of_forall₂ {f : α → Except ε β} {xs : List α} {ys : List β}
    (h : List.Forall₂ (fun x y => f x = .ok y) xs ys) : xs.mapM f = .ok ys := by
  induction h with
  | nil => rfl
  | cons hxy _ ih =>
    rw [List.mapM_cons, hxy, ih]
    rfl

/-- Elements that each have an image have a list of them. -/
theorem exists_forall₂ {R : α → β → Prop} {xs : List α} (h : ∀ x ∈ xs, ∃ y, R x y) :
    ∃ ys, List.Forall₂ R xs ys := by
  induction xs with
  | nil => exact ⟨[], .nil⟩
  | cons x xs ih =>
    obtain ⟨⟨y, hy⟩, hrest⟩ := List.forall_mem_cons.mp h
    obtain ⟨ys, hys⟩ := ih hrest
    exact ⟨y :: ys, .cons hy hys⟩

theorem exists_image_of_forall₂ {R : α → β → Prop} {xs : List α} {ys : List β}
    (h : List.Forall₂ R xs ys) : ∀ x ∈ xs, ∃ y ∈ ys, R x y := by
  induction h with
  | nil => exact fun _ hx => nomatch hx
  | cons hxy _ ih =>
    intro x hx
    rcases List.mem_cons.mp hx with rfl | hx
    · exact ⟨_, List.mem_cons_self .., hxy⟩
    · obtain ⟨y, hy, hr⟩ := ih x hx
      exact ⟨y, List.mem_cons_of_mem _ hy, hr⟩

/-- Every element has a result among the results. -/
theorem exists_result_of_mapM_eq_ok {f : α → Except ε β} {xs : List α} {ys : List β}
    (h : xs.mapM f = .ok ys) : ∀ x ∈ xs, ∃ y ∈ ys, f x = .ok y :=
  exists_image_of_forall₂ (forall₂_of_mapM_eq_ok h)

theorem forall₂_and {R S : α → β → Prop} {xs : List α} {ys : List β} (h : List.Forall₂ R xs ys)
    (h' : List.Forall₂ S xs ys) : List.Forall₂ (fun x y => R x y ∧ S x y) xs ys := by
  induction h with
  | nil => exact .nil
  | cons hxy _ ih =>
    cases h' with
    | cons hxy' hrest' => exact .cons ⟨hxy, hxy'⟩ (ih hrest')

/-- What holds of each pair whose first part is in the list. -/
theorem forall₂_imp_mem {R S : α → β → Prop} {xs : List α} {ys : List β}
    (h : List.Forall₂ R xs ys) (himp : ∀ x ∈ xs, ∀ y, R x y → S x y) : List.Forall₂ S xs ys :=
  ((List.forall₂_and_left xs ys).mpr ⟨fun _ => id, h⟩).imp fun x y hxy => himp x hxy.1 y hxy.2

theorem exists_getElem?_of_forall₂ {R : α → β → Prop} {xs : List α} {ys : List β}
    (h : List.Forall₂ R xs ys) {i : Nat} {y : β} (hy : ys[i]? = some y) :
    ∃ x, xs[i]? = some x ∧ R x y := by
  induction h generalizing i with
  | nil => nomatch hy
  | @cons x y' xs ys hxy _ ih =>
    cases i with
    | zero => exact ⟨x, rfl, Option.some.inj hy ▸ hxy⟩
    | succ i => exact ih hy

/-- Every result is that of an element. -/
theorem exists_source_of_mapM_eq_ok {f : α → Except ε β} {xs : List α} {ys : List β}
    (h : xs.mapM f = .ok ys) : ∀ y ∈ ys, ∃ x ∈ xs, f x = .ok y :=
  exists_image_of_forall₂ (forall₂_of_mapM_eq_ok h).flip

/-- A loop that succeeds did for every element. -/
theorem forM_eq_ok {f : α → Except ε Unit} {xs : List α} (h : xs.forM f = .ok ()) :
    ∀ x ∈ xs, f x = .ok () := by
  induction xs with
  | nil => nofun
  | cons x xs ih =>
    obtain ⟨_, hx, h⟩ := bind_eq_ok.mp (show (f x >>= fun _ => xs.forM f) = .ok () from h)
    exact List.forall_mem_cons.mpr ⟨hx, ih h⟩

theorem forM_eq_ok_iff {f : α → Except ε Unit} {xs : List α} :
    xs.forM f = .ok () ↔ ∀ x ∈ xs, f x = .ok () := by
  refine ⟨forM_eq_ok, fun h => ?_⟩
  induction xs with
  | nil => rfl
  | cons x xs ih =>
    obtain ⟨hx, hxs⟩ := List.forall_mem_cons.mp h
    exact bind_eq_ok.mpr ⟨(), hx, ih hxs⟩

theorem bind_ne_error {f : α → Except ε β} {e : ε} (hx : x ≠ .error e)
    (hf : ∀ a, x = .ok a → f a ≠ .error e) : x >>= f ≠ .error e := by
  cases x with
  | error e' => exact fun h => hx (congrArg _ (Except.error.inj h))
  | ok a => exact hf a rfl

/-- A loop fails as one of its rounds does. -/
theorem forM_ne_error {f : α → Except ε Unit} {xs : List α} {e : ε}
    (h : ∀ x ∈ xs, f x ≠ .error e) : xs.forM f ≠ .error e := by
  induction xs with
  | nil => nofun
  | cons x xs ih =>
    obtain ⟨hx, hxs⟩ := List.forall_mem_cons.mp h
    exact bind_ne_error hx fun _ _ => ih hxs

theorem forall₂_of_mapM_eq_some {f : α → Option β} {xs : List α} {ys : List β}
    (h : xs.mapM f = some ys) : List.Forall₂ (fun x y => f x = some y) xs ys := by
  induction xs generalizing ys with
  | nil =>
    obtain rfl := Option.some.inj h
    exact .nil
  | cons x xs ih =>
    rw [List.mapM_cons] at h
    obtain ⟨y, hy, h⟩ := Option.bind_eq_some_iff.mp h
    obtain ⟨rest, hrest, h⟩ := Option.bind_eq_some_iff.mp h
    obtain rfl := Option.some.inj h
    exact .cons hy (ih hrest)

theorem exists_source_of_mapM_eq_some {f : α → Option β} {xs : List α} {ys : List β}
    (h : xs.mapM f = some ys) : ∀ y ∈ ys, ∃ x ∈ xs, f x = some y :=
  exists_image_of_forall₂ (forall₂_of_mapM_eq_some h).flip

theorem mapM_eq_some_filterMap {f : α → Option β} {xs : List α} (h : ∀ x ∈ xs, ∃ y, f x = some y) :
    xs.mapM f = some (xs.filterMap f) := by
  induction xs with
  | nil => rfl
  | cons x xs ih =>
    obtain ⟨⟨y, hy⟩, hxs⟩ := List.forall_mem_cons.mp h
    rw [List.mapM_cons, hy, ih hxs, List.filterMap_cons, hy]
    rfl

/-- **The rule of a loop over a list**: the invariant is about what has been gone
over, and no step fails that it holds before. -/
theorem exists_foldlM_of_step {f : β → α → Option β} {l : List α} {I : List α → β → Prop} {b : β}
    (hstep : ∀ done x rest b, l = done ++ x :: rest → I done b →
      ∃ b', f b x = some b' ∧ I (done ++ [x]) b') (h : I [] b) :
    ∃ b', l.foldlM f b = some b' ∧ I l b' := by
  have hgo : ∀ rest done b, l = done ++ rest → I done b →
      ∃ b', rest.foldlM f b = some b' ∧ I l b' := by
    intro rest
    induction rest with
    | nil =>
      intro done b hl hb
      rw [List.append_nil] at hl
      exact ⟨b, rfl, hl ▸ hb⟩
    | cons x rest ih =>
      intro done b hl hb
      obtain ⟨next, hnext, hinv⟩ := hstep done x rest b hl hb
      obtain ⟨b', hb', hinv'⟩ := ih (done ++ [x]) next (by rw [hl, List.append_assoc]; rfl) hinv
      exact ⟨b', by rw [List.foldlM_cons, hnext]; exact hb', hinv'⟩
  exact hgo l [] b rfl h

/-- The same rule where the failures are told apart. -/
theorem exists_foldlM_ok_of_step {f : β → α → Except ε β} {l : List α}
    {I : List α → β → Prop} {b : β}
    (hstep : ∀ done x rest b, l = done ++ x :: rest → I done b →
      ∃ b', f b x = .ok b' ∧ I (done ++ [x]) b') (h : I [] b) :
    ∃ b', l.foldlM f b = .ok b' ∧ I l b' := by
  have hsteps : ∀ done x rest b, l = done ++ x :: rest → I done b →
      ∃ b', (f b x).toOption = some b' ∧ I (done ++ [x]) b' := by
    intro done x rest b hl hb
    obtain ⟨next, hnext, hinv⟩ := hstep done x rest b hl hb
    exact ⟨next, toOption_eq_some.mpr hnext, hinv⟩
  obtain ⟨b', hb', hinv⟩ := exists_foldlM_of_step hsteps h
  exact ⟨b', toOption_eq_some.mp (toOption_foldlM.trans hb'), hinv⟩

/-- What every step over the list preserves, the fold does. -/
theorem foldlM_invariant_mem {I : β → Prop} {f : β → α → Except ε β} {xs : List α}
    (hstep : ∀ b, ∀ a ∈ xs, ∀ b', I b → f b a = .ok b' → I b') {b result : β} (h : I b)
    (hok : xs.foldlM f b = .ok result) : I result := by
  induction xs generalizing b with
  | nil =>
    obtain rfl := Except.ok.inj hok
    exact h
  | cons x xs ih =>
    rw [List.foldlM_cons] at hok
    obtain ⟨b', hb', hok⟩ := bind_eq_ok.mp hok
    refine ih (fun b a ha => hstep b a (List.mem_cons_of_mem _ ha)) ?_ hok
    exact hstep b x (List.mem_cons_self ..) b' h hb'

/-- What every step that succeeds preserves, a fold that succeeds does. -/
theorem foldlM_invariant {I : β → Prop} {f : β → α → Except ε β}
    (hstep : ∀ b a b', I b → f b a = .ok b' → I b') {xs : List α} {b result : β} (h : I b)
    (hok : xs.foldlM f b = .ok result) : I result :=
  foldlM_invariant_mem (fun b a _ b' => hstep b a b') h hok

/-- The rule for what a fold that succeeds has gone over. -/
theorem foldlM_processed {I : List α → β → Prop} {f : β → α → Except ε β}
    (hstep : ∀ done a b b', I done b → f b a = .ok b' → I (done ++ [a]) b') {xs : List α}
    {b result : β} (h : I [] b) (hok : xs.foldlM f b = .ok result) : I xs result := by
  have hgo : ∀ rest done b, I done b → rest.foldlM f b = .ok result → I (done ++ rest) result := by
    intro rest
    induction rest with
    | nil =>
      intro done b hb hok
      obtain rfl := Except.ok.inj hok
      rwa [List.append_nil]
    | cons a rest ih =>
      intro done b hb hok
      rw [List.foldlM_cons] at hok
      obtain ⟨next, hnext, hok⟩ := bind_eq_ok.mp hok
      have hall := ih (done ++ [a]) next (hstep done a b next hb hnext) hok
      rwa [List.append_assoc] at hall
  exact hgo xs [] b h hok

end Folo.Lib
