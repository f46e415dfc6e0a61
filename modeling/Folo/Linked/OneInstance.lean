import Folo.Linked.InstancePerThread

/-!
# One instance per thread, in every run

What a thread relies on is about its own instances (`Fits`): it holds no
others, each is counted once for every `Rc` and once for the map, and all its
`Ref`s are of its entry. No step of another thread touches any of that
(`Alike`), so the rule for threads gives it for every run
(`fits_of_reachable`).
-/

namespace Folo.Linked

open Folo.Lib Std

/-! ## What a thread holds -/

section Held

variable {T : Type}

/-- The instances that a call holds an `Rc` of. -/
def Frame.held : Frame T → List (Instance T)
  | .entering own => [own]
  | .discarding own kept => [own, kept]
  | .discarded inner | .acquired inner | .counting inner | .clearing inner | .releasing inner =>
    [inner]
  | _ => []

/-- The instances that a thread holds an `Rc` of, one for each. -/
def Local.held (l : Local T) : List (Instance T) := l.refs ++ l.frames.flatMap Frame.held

/-- What a call relies on when it goes on. -/
def Frame.Asserts (entry : Option (Instance T)) (count : Instance T → Nat) : Frame T → Prop
  | .entering own => entry ≠ some own
  | .discarding own kept => own ≠ kept ∧ entry = some kept
  | .discarded inner | .acquired inner | .counting inner => entry = some inner
  | .clearing inner => entry = some inner ∧ count inner = 2
  | .releasing inner => entry = some inner → 3 ≤ count inner
  | .destroyingLocked => False
  | _ => True

/-- What a call relies on when code of the object returns to it. -/
theorem Frame.asserts_of_callback {f : Frame T} {entry : Option (Instance T)}
    {count : Instance T → Nat} (hf : f.isCallback = true) :
    f.Asserts entry count ↔ ∀ i ∈ f.held, entry = some i := by
  cases f <;> first | exact absurd hf Bool.false_ne_true | simp [Frame.Asserts, Frame.held]

theorem mem_held_of_mem_refs {l : Local T} {i : Instance T} (hi : i ∈ l.refs) : i ∈ l.held :=
  List.mem_append_left _ hi

end Held

variable {T : Type} [Ord T] [TransOrd T]

/-! ## One thread -/

/-- Nothing that concerns the thread has changed. -/
structure Alike (t : T) (s s' : Family T) : Prop where
  entry : s'.threadSpecific[t]? = s.threadSpecific[t]?
  constructed : s'.constructed t = s.constructed t
  count : ∀ i, i.thread = t → s'.strongCount i = s.strongCount i
  destroyed : ∀ i, (t, i) ∈ s'.destroyed ↔ (t, i) ∈ s.destroyed

theorem Alike.refl (t : T) (s : Family T) : Alike t s s :=
  ⟨rfl, rfl, fun _ _ => rfl, fun _ => Iff.rfl⟩

variable {t u : T} {l l' : Local T} {s s' : Family T} {i : Instance T}

/-! ## What a step of a thread does -/

/-- A thread notes a destructor of an instance of its own that has not run. -/
inductive Notes (t : T) (s s' : Family T) : Prop where
  | same (h : s'.destroyed = s.destroyed)
  | one (i : Instance T) (h : s'.destroyed = (t, i) :: s.destroyed) (hown : i.thread = t)
      (hnew : (t, i) ∉ s.destroyed)

/-- Each destructor has run once, on the thread of its instance. -/
structure Family.Noted (s : Family T) : Prop where
  own : ∀ p ∈ s.destroyed, p.2.thread = p.1
  nodup : s.destroyed.Nodup

theorem Notes.noted (h : Notes t s s') (hs : s.Noted) : s'.Noted := by
  cases h with
  | same heq => exact ⟨heq ▸ hs.own, heq ▸ hs.nodup⟩
  | one i heq hown hnew =>
    exact ⟨heq ▸ List.forall_mem_cons.mpr ⟨hown, hs.own⟩,
      heq ▸ List.nodup_cons.mpr ⟨hnew, hs.nodup⟩⟩

variable [DecidableEq T]

/-- What holds of a thread: it holds instances of its own only, their counts
are what it holds and its entry, and its `Ref`s are all of its entry. -/
structure Fits (t : T) (l : Local T) (s : Family T) : Prop where
  own : ∀ i ∈ l.held, i.thread = t ∧ i.serial < s.constructed t
  entry : ∀ i, s.threadSpecific[t]? = some i → i ∈ l.held
  count : ∀ i, i.thread = t → s.strongCount i =
    l.held.count i + if s.threadSpecific[t]? = some i then 1 else 0
  refs : ∀ i ∈ l.refs, s.threadSpecific[t]? = some i
  top : ∀ f ∈ l.frames.head?, f.Asserts s.threadSpecific[t]? s.strongCount
  below : ∀ f ∈ l.frames.tail, f.isCallback = true ∧ ∀ i ∈ f.held, s.threadSpecific[t]? = some i
  destroyed : ∀ i, i.thread = t →
    ((t, i) ∈ s.destroyed ↔ i.serial < s.constructed t ∧ s.strongCount i = 0)

/-- What other threads do to instances of theirs leaves it. -/
theorem Fits.alike (h : Fits t l s) (hs : Alike t s s') : Fits t l s' := by
  have htop : ∀ f ∈ l.frames.head?, f.Asserts s'.threadSpecific[t]? s'.strongCount := by
    intro f hf
    have hasserts := h.top f hf
    rw [hs.entry]
    have hheld : ∀ i ∈ f.held, s'.strongCount i = s.strongCount i := by
      intro i hi
      have hmem : i ∈ l.held := List.mem_append_right _
        (List.mem_flatMap.mpr ⟨f, List.mem_of_mem_head? hf, hi⟩)
      exact hs.count i (h.own i hmem).1
    cases f with
    | clearing inner =>
      exact ⟨hasserts.1, (hheld inner (List.mem_singleton_self _)).trans hasserts.2⟩
    | releasing inner =>
      exact fun hentry => (hasserts hentry).trans_eq (hheld inner (List.mem_singleton_self _)).symm
    | _ => exact hasserts
  refine ⟨fun i hi => ?_, fun i hi => ?_, fun i hi => ?_, fun i hi => ?_, htop, fun f hf => ?_,
    fun i hi => ?_⟩
  · rw [hs.constructed]
    exact h.own i hi
  · exact h.entry i (hs.entry ▸ hi)
  · rw [hs.count i hi, hs.entry]
    exact h.count i hi
  · rw [hs.entry]
    exact h.refs i hi
  · rw [hs.entry]
    exact h.below f hf
  · rw [hs.destroyed, hs.constructed, hs.count i hi]
    exact h.destroyed i hi

/-! ## Moves of one thread -/

/-- The calls below the last one, and the `Ref`s, are of the entry. -/
theorem Fits.eq_entry_of_mem (h : Fits t l s) {frames : List (Frame T)} {f : Frame T}
    (hframes : l.frames = f :: frames) {i : Instance T}
    (hi : i ∈ l.refs ++ frames.flatMap Frame.held) : s.threadSpecific[t]? = some i := by
  rcases List.mem_append.mp hi with hi | hi
  · exact h.refs i hi
  · obtain ⟨g, hg, hig⟩ := List.mem_flatMap.mp hi
    refine (h.below g ?_).2 i hig
    rw [hframes]
    exact hg

/-- A move that holds what was held. -/
theorem Fits.move {m : Local T} (h : Fits t l s) (hheld : m.held.Perm l.held)
    (hrefs : ∀ i ∈ m.refs, s.threadSpecific[t]? = some i)
    (htop : ∀ f ∈ m.frames.head?, f.Asserts s.threadSpecific[t]? s.strongCount)
    (hbelow : ∀ f ∈ m.frames.tail, f.isCallback = true ∧
      ∀ i ∈ f.held, s.threadSpecific[t]? = some i) : Fits t m s where
  own i hi := h.own i (hheld.mem_iff.mp hi)
  entry i hi := hheld.mem_iff.mpr (h.entry i hi)
  count i hi := by
    rw [hheld.count_eq]
    exact h.count i hi
  refs := hrefs
  top := htop
  below := hbelow
  destroyed := h.destroyed

theorem Family.cloneInstance_threadSpecific (s : Family T) (i : Instance T) :
    (s.cloneInstance i).threadSpecific = s.threadSpecific := rfl

/-- One more `Rc` of the entry. -/
theorem Fits.gain {m : Local T} (h : Fits t l s) (hentry : s.threadSpecific[t]? = some i)
    (hheld : m.held.Perm (i :: l.held))
    (hrefs : ∀ i ∈ m.refs, s.threadSpecific[t]? = some i)
    (htop : ∀ f ∈ m.frames.head?, f.Asserts s.threadSpecific[t]? (s.cloneInstance i).strongCount)
    (hbelow : ∀ f ∈ m.frames.tail, f.isCallback = true ∧
      ∀ i ∈ f.held, s.threadSpecific[t]? = some i) : Fits t m (s.cloneInstance i) := by
  have hmem := h.entry i hentry
  refine ⟨fun j hj => ?_, fun j hj => ?_, fun j hj => ?_, hrefs, htop, hbelow, fun j hj => ?_⟩
  · rcases List.mem_cons.mp (hheld.mem_iff.mp hj) with rfl | hj
    · exact h.own _ hmem
    · exact h.own j hj
  · exact hheld.mem_iff.mpr (List.mem_cons_of_mem _ (h.entry j hj))
  · have hcount := h.count j hj
    rw [hheld.count_eq, List.count_cons, Family.cloneInstance_threadSpecific]
    by_cases hji : i = j
    · subst hji
      simp only [Family.cloneInstance, Function.update_self, beq_self_eq_true, if_true]
      omega
    · have hne : (i == j) = false := beq_eq_false_iff_ne.mpr hji
      simp only [Family.cloneInstance, Function.update_of_ne (Ne.symm hji), hne,
        Bool.false_eq_true, if_false]
      omega
  · have hiff := h.destroyed j hj
    by_cases hji : j = i
    · subst hji
      have hpos : 0 < s.strongCount j := by
        rw [h.count j hj]
        have := List.count_pos_iff.mpr hmem
        omega
      simp only [Family.cloneInstance, Function.update_self]
      rw [hiff]
      omega
    · simp only [Family.cloneInstance, Function.update_of_ne hji]
      exact hiff

/-- What dropping an `Rc` leaves. -/
theorem Family.dropInstance_eq (s : Family T) (t : T) (i : Instance T) :
    s.dropInstance t i =
      ({ s with
          strongCount := Function.update s.strongCount i (s.strongCount i - 1)
          destroyed := if s.strongCount i - 1 = 0 then (t, i) :: s.destroyed else s.destroyed },
        decide (s.strongCount i - 1 = 0)) := by
  unfold Family.dropInstance
  dsimp only
  split
  next hzero => rw [decide_eq_true hzero]
  next hpos => rw [decide_eq_false hpos]

/-- An `Rc` is dropped that is not the last one of an entry. -/
theorem Fits.lose (h : Fits t l s) (hheld : l.held.Perm (i :: l'.held))
    (hentry : s.threadSpecific[t]? = some i → i ∈ l'.held)
    (hrefs : ∀ i ∈ l'.refs, s.threadSpecific[t]? = some i)
    (htop : ∀ f ∈ l'.frames.head?,
      f.Asserts s.threadSpecific[t]? (s.dropInstance t i).1.strongCount)
    (hbelow : ∀ f ∈ l'.frames.tail, f.isCallback = true ∧
      ∀ i ∈ f.held, s.threadSpecific[t]? = some i) : Fits t l' (s.dropInstance t i).1 := by
  have hmem : i ∈ l.held := hheld.mem_iff.mpr (List.mem_cons_self ..)
  have hown := h.own i hmem
  have hcount := h.count i hown.1
  rw [hheld.count_eq, List.count_cons_self] at hcount
  rw [Family.dropInstance_eq] at htop ⊢
  refine ⟨fun j hj => ?_, fun j hj => ?_, fun j hj => ?_, hrefs, htop, hbelow, fun j hj => ?_⟩
  · exact h.own j (hheld.mem_iff.mpr (List.mem_cons_of_mem _ hj))
  · by_cases hji : j = i
    · subst hji
      exact hentry hj
    · exact (List.mem_cons.mp (hheld.mem_iff.mp (h.entry j hj))).resolve_left hji
  · dsimp only
    by_cases hji : j = i
    · subst hji
      rw [Function.update_self]
      omega
    · rw [Function.update_of_ne hji, h.count j hj, hheld.count_eq,
        List.count_cons_of_ne (Ne.symm hji)]
  · dsimp only
    have hiff := h.destroyed j hj
    by_cases hji : j = i
    · subst hji
      rw [Function.update_self]
      split
      next hzero => exact ⟨fun _ => ⟨hown.2, hzero⟩, fun _ => List.mem_cons_self ..⟩
      next hpos =>
        rw [hiff]
        omega
    · rw [Function.update_of_ne hji]
      split
      · rw [List.mem_cons, or_iff_right fun heq => hji (Prod.mk.inj heq).2]
        exact hiff
      · exact hiff

/-! ## Steps of one thread -/

/-- What a step of a thread leaves: what holds of it, what concerns the other
threads, and what it notes. -/
structure Steps (t : T) (l' : Local T) (s s' : Family T) : Prop where
  fits : Fits t l' s'
  alike : ∀ u, u ≠ t → Alike u s s'
  notes : Notes t s s'

/-- Counts of handles and references concern no thread. -/
theorem Steps.counts (h : Steps t l' s s') (references handles borrows : Nat) :
    Steps t l' s { s' with references, handles, borrows } where
  fits := ⟨h.fits.own, h.fits.entry, h.fits.count, h.fits.refs, h.fits.top, h.fits.below,
    h.fits.destroyed⟩
  alike u hu :=
    ⟨(h.alike u hu).entry, (h.alike u hu).constructed, (h.alike u hu).count,
      (h.alike u hu).destroyed⟩
  notes := by
    cases h.notes with
    | same h => exact .same h
    | one i h hown hnew => exact .one i h hown hnew

theorem Fits.steps (h : Fits t l' s) : Steps t l' s s :=
  ⟨h, fun u _ => .refl u s, .same rfl⟩

theorem Fits.steps_gain (h : Fits t l' (s.cloneInstance i)) (hi : i.thread = t) :
    Steps t l' s (s.cloneInstance i) where
  fits := h
  alike u hu :=
    ⟨rfl, rfl, fun j hj => Function.update_of_ne (fun heq => hu (by rw [← hj, heq, hi])) ..,
      fun _ => Iff.rfl⟩
  notes := .same rfl

theorem Fits.steps_lose (h : Fits t l s) (hfits : Fits t l' (s.dropInstance t i).1)
    (hi : i ∈ l.held) : Steps t l' s (s.dropInstance t i).1 := by
  have hown := (h.own i hi).1
  have hcount := h.count i hown
  have hpos := List.count_pos_iff.mpr hi
  refine ⟨hfits, fun u hu => ?_, ?_⟩
  · rw [Family.dropInstance_eq]
    refine ⟨rfl, rfl, fun j hj => ?_, fun j => ?_⟩
    · exact Function.update_of_ne (fun heq => hu (by rw [← hj, heq, hown])) ..
    · dsimp only
      split
      · rw [List.mem_cons, or_iff_right fun heq => hu (Prod.mk.inj heq).1]
      · exact Iff.rfl
  · rw [Family.dropInstance_eq]
    by_cases hzero : s.strongCount i - 1 = 0
    · refine .one i (if_pos hzero) hown fun hmem => ?_
      have := ((h.destroyed i hown).mp hmem).2
      omega
    · exact .same (if_neg hzero)

/-- A thread that may start a call runs no code of its own. -/
theorem Fits.below_frames (h : Fits t l s) (hfree : l.isFree = true) :
    ∀ f ∈ l.frames, f.isCallback = true ∧ ∀ i ∈ f.held, s.threadSpecific[t]? = some i := by
  intro f hf
  cases hframes : l.frames with
  | nil =>
    rw [hframes] at hf
    cases hf
  | cons g frames =>
    rw [hframes] at hf
    rcases List.mem_cons.mp hf with rfl | hf
    · have hcallback : f.isCallback = true := by
        unfold Local.isFree at hfree
        rwa [hframes] at hfree
      refine ⟨hcallback, (Frame.asserts_of_callback hcallback).mp (h.top f ?_)⟩
      rw [hframes]
      rfl
    · refine h.below f ?_
      rw [hframes]
      exact hf

/-- The instance that a thread constructs is none that it holds. -/
theorem Fits.steps_construct {refs : List (Instance T)} {frames : List (Frame T)}
    (h : Fits t ⟨refs, .constructing :: frames⟩ s) :
    Steps t ⟨refs, .entering (s.construct t).2 :: frames⟩ s (s.construct t).1 := by
  obtain ⟨own, hown⟩ : ∃ own, own = (s.construct t).2 := ⟨_, rfl⟩
  have hthread : own.thread = t := by rw [hown]; rfl
  have hserial : own.serial = s.constructed t := by rw [hown]; rfl
  have hnew : own ∉ (⟨refs, .constructing :: frames⟩ : Local T).held := fun hmem => by
    have := (h.own own hmem).2
    omega
  have hentry : s.threadSpecific[t]? ≠ some own := fun hentry => hnew (h.entry own hentry)
  have hcount : ∀ i, (s.construct t).1.strongCount i = if i = own then 1 else s.strongCount i := by
    intro i
    rw [hown]
    exact Function.update_apply ..
  have hconstructed : (s.construct t).1.constructed t = s.constructed t + 1 :=
    Function.update_self ..
  have hheld : (⟨refs, .entering own :: frames⟩ : Local T).held.Perm
      (own :: (⟨refs, .constructing :: frames⟩ : Local T).held) := List.perm_middle
  rw [← hown]
  refine ⟨⟨fun i hi => ?_, fun i hi => ?_, fun i hi => ?_, h.refs, ?_, h.below, fun i hi => ?_⟩,
    fun u hu => ⟨rfl, Function.update_of_ne hu .., fun i hi => ?_, fun _ => Iff.rfl⟩, .same rfl⟩
  · rw [hconstructed]
    rcases List.mem_cons.mp (hheld.mem_iff.mp hi) with rfl | hi
    · exact ⟨hthread, by omega⟩
    · exact ⟨(h.own i hi).1, Nat.lt_succ_of_lt (h.own i hi).2⟩
  · exact hheld.mem_iff.mpr (List.mem_cons_of_mem _ (h.entry i hi))
  · rw [hcount, hheld.count_eq]
    by_cases hio : i = own
    · subst hio
      rw [if_pos rfl, List.count_cons_self, List.count_eq_zero.mpr hnew]
      exact (if_neg hentry).symm ▸ rfl
    · rw [if_neg hio, List.count_cons_of_ne (Ne.symm hio)]
      exact h.count i hi
  · rintro f ⟨⟩
    exact hentry
  · have hiff := h.destroyed i hi
    rw [hcount, hconstructed]
    by_cases hio : i = own
    · subst hio
      rw [if_pos rfl]
      refine ⟨fun hmem => ?_, fun hzero => absurd hzero.2 Nat.one_ne_zero⟩
      have := (hiff.mp hmem).1
      omega
    · have hne : i.serial ≠ s.constructed t := by
        intro heq
        obtain ⟨thread, serial⟩ := i
        obtain ⟨thread', serial'⟩ := own
        dsimp only at hthread hserial hi heq
        exact hio (by rw [hi, heq, hthread, hserial])
      rw [if_neg hio]
      change (t, i) ∈ s.destroyed ↔ _
      rw [hiff]
      omega
  · rw [hcount, if_neg fun heq => hu (by rw [← hi, heq, hthread])]

/-- The calls a thread makes. -/
theorem Fits.call (h : Fits t l s) (hfree : l.isFree = true) {op : Op T}
    (hcall : call t l op s = some (s', l')) : Steps t l' s s' := by
  have hframes := h.below_frames hfree
  have htop : ∀ f ∈ l.frames.head?, f.Asserts s.threadSpecific[t]? s.strongCount := h.top
  cases op with
  | acquire =>
    simp only [Linked.call] at hcall
    split at hcall
    next =>
      cases hcall
      refine Steps.counts (Fits.steps (h.move (m := { l with frames := .lookingUp :: l.frames })
        (List.Perm.refl _) h.refs ?_ hframes)) s.references s.handles (s.borrows + 1)
      rintro f ⟨⟩
      trivial
    next => cases hcall
  | cloneRef inner =>
    simp only [Linked.call] at hcall
    split at hcall
    next hmem =>
      cases hcall
      have hentry := h.refs inner hmem
      refine Steps.counts (Fits.steps_gain (h.gain (m := { l with refs := inner :: l.refs }) hentry
        (List.Perm.refl _) ?_ ?_ h.below) (h.own inner (mem_held_of_mem_refs hmem)).1)
        (s.references + 1) s.handles s.borrows
      · exact List.forall_mem_cons.mpr ⟨hentry, h.refs⟩
      · intro f hf
        have hcallback := hframes f (List.mem_of_mem_head? hf)
        exact (Frame.asserts_of_callback hcallback.1).mpr hcallback.2
    next => cases hcall
  | dropRef inner =>
    simp only [Linked.call] at hcall
    split at hcall
    next hmem =>
      cases hcall
      refine Fits.steps (h.move ?_ (fun i hi => h.refs i (List.mem_of_mem_erase hi)) ?_ hframes)
      · exact List.perm_middle.trans ((List.perm_cons_erase hmem).symm.append_right _)
      · rintro f ⟨⟩
        exact h.refs inner hmem
    next => cases hcall
  | clone =>
    simp only [Linked.call] at hcall
    split at hcall
    next =>
      cases hcall
      exact Steps.counts h.steps (s.references + 1) (s.handles + 1) s.borrows
    next => cases hcall
  | drop =>
    simp only [Linked.call] at hcall
    split at hcall
    next =>
      cases hcall
      refine Steps.counts (Fits.steps (h.move
        (m := { l with frames := .countingFamily :: l.frames })
        (List.Perm.refl _) h.refs ?_ hframes)) s.references (s.handles - 1) s.borrows
      rintro f ⟨⟩
      trivial
    next => cases hcall
  | returned =>
    obtain ⟨refs, _ | ⟨f, frames⟩⟩ := l
    · cases hcall
    · cases f with
      | constructing =>
        cases hcall
        exact h.steps_construct
      | discarded kept =>
        cases hcall
        refine Fits.steps (h.move (List.Perm.refl _) h.refs ?_ h.below)
        rintro f ⟨⟩
        exact htop (.discarded kept) rfl
      | destroying =>
        cases hcall
        refine Fits.steps (h.move (List.Perm.refl _) h.refs ?_ h.below)
        rintro f ⟨⟩
        trivial
      | _ => cases hcall
  | panicked =>
    obtain ⟨refs, _ | ⟨f, frames⟩⟩ := l
    · cases hcall
    · cases f with
      | constructing =>
        cases hcall
        refine Steps.counts (Fits.steps (h.move (m := ⟨refs, frames⟩) (List.Perm.refl _) h.refs ?_
          fun f hf => h.below f (List.mem_of_mem_tail hf))) s.references s.handles (s.borrows - 1)
        intro f hf
        have hcallback := h.below f (List.mem_of_mem_head? hf)
        exact (Frame.asserts_of_callback hcallback.1).mpr hcallback.2
      | _ => cases hcall

/-! ## Instances that live -/

/-- The instance has been constructed and its destructor has not run. -/
def Family.Lives (s : Family T) (i : Instance T) : Prop :=
  i.serial < s.constructed i.thread ∧ (i.thread, i) ∉ s.destroyed

theorem Fits.lives_iff (h : Fits t l s) (hi : i.thread = t) :
    s.Lives i ↔ i ∈ l.held ∨ s.threadSpecific[t]? = some i := by
  have hiff := h.destroyed i hi
  have hcount := h.count i hi
  have hmem := List.count_pos_iff (a := i) (l := l.held)
  unfold Family.Lives
  rw [hi, hiff]
  constructor
  · rintro ⟨hserial, hlives⟩
    by_cases hentry : s.threadSpecific[t]? = some i
    · exact .inr hentry
    · rw [if_neg hentry] at hcount
      exact .inl (hmem.mp (by omega))
  · intro hheld
    have hin : i ∈ l.held := hheld.elim id (h.entry i)
    refine ⟨(h.own i hin).2, fun hdead => ?_⟩
    have := hmem.mpr hin
    omega

/-! ## Steps that use the map -/

variable [LawfulEqOrd T]

/-- The thread's entry is the instance that it has constructed. -/
theorem Fits.steps_enter {own : Instance T} {refs : List (Instance T)} {frames : List (Frame T)}
    (h : Fits t ⟨refs, .entering own :: frames⟩ s) (hnone : s.threadSpecific[t]? = none) :
    Steps t ⟨refs, .acquired own :: frames⟩ s
      { s.cloneInstance own with threadSpecific := s.threadSpecific.insert t own } := by
  have hmem : own ∈ (⟨refs, .entering own :: frames⟩ : Local T).held :=
    List.mem_append_right _ (List.mem_cons_self ..)
  have hown := h.own own hmem
  have hself : (s.threadSpecific.insert t own)[t]? = some own :=
    (getElem?_insert ..).trans (if_pos rfl)
  have hvacuous : ∀ {i : Instance T}, s.threadSpecific[t]? = some i →
      (s.threadSpecific.insert t own)[t]? = some i := by
    intro i hi
    rw [hnone] at hi
    cases hi
  refine ⟨⟨h.own, fun i hi => ?_, fun i hi => ?_, fun i hi => hvacuous (h.refs i hi), ?_,
    fun f hf => ⟨(h.below f hf).1, fun i hi => hvacuous ((h.below f hf).2 i hi)⟩,
    fun i hi => ?_⟩, fun u hu => ⟨?_, rfl, fun i hi => ?_, fun _ => Iff.rfl⟩, .same rfl⟩
  · dsimp only at hi
    rw [hself] at hi
    cases hi
    exact hmem
  · have hcount := h.count i hi
    rw [hnone, if_neg (fun heq => by cases heq)] at hcount
    change Function.update s.strongCount own _ i = List.count i (refs ++ own :: _) + _
    change _ = List.count i (refs ++ own :: _) + 0 at hcount
    dsimp only
    rw [hself]
    by_cases hio : i = own
    · subst hio
      rw [Function.update_self, hcount, if_pos rfl]
    · rw [Function.update_of_ne hio, hcount, if_neg fun heq => hio (Option.some.inj heq).symm]
  · rintro f ⟨⟩
    exact hself
  · have hiff := h.destroyed i hi
    have hcount := h.count i hi
    change (t, i) ∈ s.destroyed ↔ i.serial < s.constructed t ∧
      Function.update s.strongCount own _ i = 0
    by_cases hio : i = own
    · subst hio
      have hpos := List.count_pos_iff.mpr hmem
      rw [Function.update_self, hiff]
      omega
    · rw [Function.update_of_ne hio]
      exact hiff
  · exact (getElem?_insert ..).trans (if_neg (Ne.symm hu))
  · exact Function.update_of_ne (fun heq => hu (by rw [← hi, heq, hown.1])) ..

/-- The entry goes away, and what its last `Ref` holds stays. -/
theorem Fits.steps_clear {inner : Instance T} {refs : List (Instance T)} {frames : List (Frame T)}
    (h : Fits t ⟨refs, .clearing inner :: frames⟩ s) :
    Steps t ⟨refs, .releasing inner :: frames⟩ s
      { s with
        threadSpecific := s.threadSpecific.erase t
        strongCount := Function.update s.strongCount inner 1 } := by
  obtain ⟨hentry, htwo⟩ : s.threadSpecific[t]? = some inner ∧ s.strongCount inner = 2 :=
    h.top _ rfl
  have hmem : inner ∈ (⟨refs, .clearing inner :: frames⟩ : Local T).held :=
    List.mem_append_right _ (List.mem_cons_self ..)
  have hown := h.own inner hmem
  have hself : (s.threadSpecific.erase t)[t]? = none := (getElem?_erase ..).trans (if_pos rfl)
  have hone : (⟨refs, .clearing inner :: frames⟩ : Local T).held.count inner = 1 := by
    have hcount := h.count inner hown.1
    rw [if_pos hentry] at hcount
    omega
  -- everything else would be of the entry
  have hrest : ∀ i, i ∉ refs ++ frames.flatMap Frame.held := by
    intro i hi
    obtain rfl : inner = i := Option.some.inj
      (hentry.symm.trans (h.eq_entry_of_mem (f := .clearing inner) rfl hi))
    have hpos := List.count_pos_iff.mpr hi
    have hperm : (⟨refs, .clearing inner :: frames⟩ : Local T).held.Perm
        (inner :: (refs ++ frames.flatMap Frame.held)) := List.perm_middle
    rw [hperm.count_eq, List.count_cons_self] at hone
    omega
  refine ⟨⟨h.own, fun i hi => ?_, fun i hi => ?_, fun i hi => ?_, ?_, fun f hf => ?_,
    fun i hi => ?_⟩, fun u hu => ⟨?_, rfl, fun i hi => ?_, fun _ => Iff.rfl⟩, .same rfl⟩
  · dsimp only at hi
    rw [hself] at hi
    cases hi
  · have hcount := h.count i hi
    change Function.update s.strongCount inner 1 i =
      (⟨refs, .clearing inner :: frames⟩ : Local T).held.count i + _
    dsimp only
    rw [hself, if_neg (fun heq => by cases heq)]
    by_cases hii : i = inner
    · rw [hii, Function.update_self, hone]
    · rw [Function.update_of_ne hii, hcount, hentry,
        if_neg fun heq => hii (Option.some.inj heq).symm]
  · exact absurd (List.mem_append_left _ hi) (hrest i)
  · rintro f ⟨⟩ hcontra
    dsimp only at hcontra
    rw [hself] at hcontra
    cases hcontra
  · exact ⟨(h.below f hf).1, fun i hi => absurd
      (List.mem_append_right _ (List.mem_flatMap.mpr ⟨f, hf, hi⟩)) (hrest i)⟩
  · have hiff := h.destroyed i hi
    change (t, i) ∈ s.destroyed ↔ i.serial < s.constructed t ∧
      Function.update s.strongCount inner 1 i = 0
    by_cases hii : i = inner
    · subst hii
      rw [Function.update_self, hiff]
      omega
    · rw [Function.update_of_ne hii]
      exact hiff
  · exact (getElem?_erase ..).trans (if_neg (Ne.symm hu))
  · exact Function.update_of_ne (fun heq => hu (by rw [← hi, heq, hown.1])) ..

/-- The steps a call takes. -/
theorem Fits.step {refs : List (Instance T)} {frame : Frame T} {frames : List (Frame T)}
    (h : Fits t ⟨refs, frame :: frames⟩ s) (hstep : step t refs frame frames s = some (s', l')) :
    Steps t l' s s' := by
  have htop : frame.Asserts s.threadSpecific[t]? s.strongCount := h.top frame rfl
  have hof : ∀ i ∈ refs ++ frames.flatMap Frame.held, s.threadSpecific[t]? = some i :=
    fun i hi => h.eq_entry_of_mem (f := frame) rfl hi
  -- a call that has ended leaves its thread to the code below it
  have hended : ∀ f ∈ frames.head?, f.Asserts s.threadSpecific[t]? s.strongCount := by
    intro f hf
    have hcallback := h.below f (List.mem_of_mem_head? hf)
    exact (Frame.asserts_of_callback hcallback.1).mpr hcallback.2
  -- a call that goes on holding what it held
  have hmove : ∀ {f : Frame T}, f.held = frame.held →
      f.Asserts s.threadSpecific[t]? s.strongCount → Steps t ⟨refs, f :: frames⟩ s s := by
    intro f hheld hasserts
    refine Fits.steps (h.move (List.Perm.of_eq ?_) h.refs ?_ h.below)
    · simp only [Local.held, List.flatMap_cons, hheld]
    · rintro f ⟨⟩
      exact hasserts
  cases frame with
  | lookingUp =>
    simp only [Linked.step] at hstep
    split at hstep
    next inner hentry =>
      cases hstep
      refine Fits.steps_gain (h.gain hentry List.perm_middle h.refs ?_ h.below)
        (h.own inner (h.entry inner hentry)).1
      rintro f ⟨⟩
      exact hentry
    next =>
      cases hstep
      exact hmove rfl trivial
  | entering own =>
    have hown := h.own own (List.mem_append_right _ (List.mem_cons_self ..))
    simp only [Linked.step] at hstep
    split at hstep
    next kept hentry =>
      cases hstep
      refine Fits.steps_gain (h.gain hentry ?_ h.refs ?_ h.below)
        (h.own kept (h.entry kept hentry)).1
      · simp only [Local.held, List.flatMap_cons, Frame.held, List.cons_append, List.nil_append]
        exact List.perm_middle.trans ((List.perm_middle.cons own).trans
          ((List.Perm.swap ..).trans (List.perm_middle.symm.cons kept)))
      · rintro f ⟨⟩
        exact ⟨fun heq => htop (heq ▸ hentry), hentry⟩
    next hnone =>
      cases hstep
      exact h.steps_enter hnone
  | discarding own kept =>
    obtain ⟨hne, hentry⟩ := htop
    have hfits : ∀ f : Frame T, f = .discarded kept ∨ f = .acquired kept →
        Fits t ⟨refs, f :: frames⟩ (s.dropInstance t own).1 := by
      intro f hf
      have hheld : f.held = [kept] := by rcases hf with rfl | rfl <;> rfl
      refine h.lose ?_ (fun heq => ?_) h.refs ?_ h.below
      · simp only [Local.held, List.flatMap_cons, hheld]
        exact List.perm_middle
      · rw [hentry] at heq
        exact absurd (Option.some.inj heq).symm hne
      · rintro g ⟨⟩
        rcases hf with rfl | rfl <;> exact hentry
    simp only [Linked.step] at hstep
    cases hstep
    refine h.steps_lose (hfits _ ?_) (List.mem_append_right _ (List.mem_cons_self ..))
    split
    · exact .inl rfl
    · exact .inr rfl
  | acquired inner =>
    cases hstep
    refine Steps.counts (Fits.steps (h.move (m := ⟨inner :: refs, frames⟩) ?_ ?_ hended ?_))
      (s.references + 1) s.handles (s.borrows - 1)
    · exact List.perm_middle.symm
    · exact List.forall_mem_cons.mpr ⟨htop, h.refs⟩
    · exact fun f hf => h.below f (List.mem_of_mem_tail hf)
  | counting inner =>
    simp only [Linked.step] at hstep
    cases hstep
    have hinner : inner ∈ (⟨refs, .counting inner :: frames⟩ : Local T).held :=
      List.mem_append_right _ (List.mem_cons_self ..)
    have hcount := h.count inner (h.own inner hinner).1
    rw [if_pos (show s.threadSpecific[t]? = some inner from htop)] at hcount
    have hpos := List.count_pos_iff.mpr hinner
    split
    next hne => exact hmove rfl fun _ => by omega
    next heq => exact hmove rfl ⟨htop, Decidable.not_not.mp heq⟩
  | clearing inner =>
    obtain ⟨hentry, htwo⟩ := htop
    simp only [Linked.step, hentry, Family.dropInstance_eq, htwo] at hstep
    cases hstep
    exact h.steps_clear
  | releasing inner =>
    have hinner : inner ∈ (⟨refs, .releasing inner :: frames⟩ : Local T).held :=
      List.mem_append_right _ (List.mem_cons_self ..)
    have hperm : (⟨refs, .releasing inner :: frames⟩ : Local T).held.Perm
        (inner :: (refs ++ frames.flatMap Frame.held)) := List.perm_middle
    have hfits : ∀ f : Frame T, f = .destroying ∨ f = .countingFamily →
        Fits t ⟨refs, f :: frames⟩ (s.dropInstance t inner).1 := by
      intro f hf
      have hheld : f.held = [] := by rcases hf with rfl | rfl <;> rfl
      have hheld' : (⟨refs, f :: frames⟩ : Local T).held = refs ++ frames.flatMap Frame.held := by
        simp only [Local.held, List.flatMap_cons, hheld, List.nil_append]
      refine h.lose (hheld' ▸ hperm) (fun hentry => ?_) h.refs ?_ h.below
      · have hcount := h.count inner (h.own inner hinner).1
        have hthree := htop hentry
        rw [if_pos hentry, hperm.count_eq, List.count_cons_self] at hcount
        rw [hheld']
        exact List.count_pos_iff.mp (by omega)
      · rintro g ⟨⟩
        rcases hf with rfl | rfl <;> trivial
    simp only [Linked.step] at hstep
    cases hstep
    refine h.steps_lose (hfits _ ?_) hinner
    split
    · exact .inl rfl
    · exact .inr rfl
  | countingFamily =>
    simp only [Linked.step] at hstep
    cases hstep
    split <;> exact hmove rfl trivial
  | asserting =>
    simp only [Linked.step] at hstep
    cases hstep
    split <;> exact hmove rfl trivial
  | releasingFamily =>
    cases hstep
    exact Steps.counts (Fits.steps (h.move (m := ⟨refs, frames⟩) (List.Perm.refl _) h.refs hended
      fun f hf => h.below f (List.mem_of_mem_tail hf))) (s.references - 1) s.handles s.borrows
  | _ => cases hstep

/-! ## Every run -/

theorem Fits.act (h : Fits t l s) {a : Act (Op T)} (hact : act t l a s = some (s', l')) :
    Steps t l' s s' := by
  unfold Linked.act at hact
  cases a with
  | call op =>
    dsimp only at hact
    split at hact
    next hfree => exact h.call hfree hact
    next => cases hact
  | step =>
    obtain ⟨refs, _ | ⟨frame, frames⟩⟩ := l
    · cases hact
    · exact h.step hact

theorem fits_of_reachable {σ : Threads (Family T) (Local T) T}
    (h : (instancePerThread T).Reachable σ) :
    σ.shared.Noted ∧ ∀ t, Fits t (σ.pc t) σ.shared := by
  refine threads_invariant (L := Fits) ⟨nofun, List.nodup_nil⟩ (fun t => ?_) ?_ h
  · refine ⟨nofun, fun i hi => ?_, fun i _ => ?_, nofun, nofun, nofun, fun i _ => ?_⟩
    · cases hi
    · rfl
    · exact ⟨nofun, fun hlt => absurd hlt.1 (Nat.not_lt_zero _)⟩
  · intro σ t a s' l' hs hfits _ hact
    have hstep := (hfits t).act hact
    exact ⟨hstep.notes.noted hs, hstep.fits, fun u hu => (hfits u).alike (hstep.alike u hu)⟩

/-! ## What the users of a family rely on -/

/-- The `Ref`s of a thread are of one instance, its entry. A thread that is in
no call has an entry exactly while it has a `Ref`, counted once and once for
each `Ref`, and no other instance that it has constructed lives. -/
theorem one_instance_per_thread {σ : Threads (Family T) (Local T) T}
    (h : (instancePerThread T).Reachable σ) (t : T) :
    (∀ i ∈ (σ.pc t).refs, σ.shared.threadSpecific[t]? = some i) ∧
      ((σ.pc t).frames = [] →
        (σ.shared.threadSpecific[t]? = none ↔ (σ.pc t).refs = []) ∧
          ∀ i, i.thread = t → (σ.shared.Lives i ↔ σ.shared.threadSpecific[t]? = some i) ∧
            (σ.shared.threadSpecific[t]? = some i →
              σ.shared.strongCount i = (σ.pc t).refs.length + 1)) := by
  have hfits := (fits_of_reachable h).2 t
  refine ⟨hfits.refs, fun hframes => ⟨⟨fun hnone => ?_, fun hrefs => ?_⟩, fun i hi => ⟨?_, ?_⟩⟩⟩
  · refine List.eq_nil_iff_forall_not_mem.mpr fun i hi => ?_
    rw [hfits.refs i hi] at hnone
    cases hnone
  · refine Option.eq_none_iff_forall_ne_some.mpr fun i hi => ?_
    have hmem := hfits.entry i hi
    rw [Local.held, hrefs, hframes] at hmem
    cases hmem
  · rw [hfits.lives_iff hi, Local.held, hframes, List.flatMap_nil, List.append_nil]
    exact or_iff_right_of_imp (hfits.refs i)
  · intro hentry
    have hall : ∀ j ∈ (σ.pc t).refs, i = j :=
      fun j hj => Option.some.inj (hentry.symm.trans (hfits.refs j hj))
    rw [hfits.count i hi, if_pos hentry, Local.held, hframes, List.flatMap_nil, List.append_nil,
      List.count_eq_length.mpr hall]

/-- The constructor of the first thread's instance acquires, so that what it
returns is not kept. A second thread has an instance of its own. -/
theorem one_instance_per_thread_reentrant :
    ∃ σ, (instancePerThread Nat).run
        [(0, .call .acquire), (0, .step), (0, .call .acquire), (0, .step), (0, .call .returned),
          (0, .step), (0, .step), (1, .call .acquire), (0, .call .returned), (1, .step),
          (0, .step), (1, .call .returned), (0, .step), (1, .step), (0, .call .returned),
          (1, .step), (0, .step)] = some σ ∧
      (σ.pc 0).refs = [⟨0, 0⟩, ⟨0, 0⟩] ∧ (σ.pc 1).refs = [⟨1, 0⟩] ∧
      σ.shared.destroyed = [(0, ⟨0, 1⟩)] ∧
      (σ.shared.Lives ⟨0, 0⟩ ↔ σ.shared.threadSpecific[0]? = some ⟨0, 0⟩) ∧
      (σ.shared.threadSpecific[0]? = some ⟨0, 0⟩ → σ.shared.strongCount ⟨0, 0⟩ = 3) := by
  obtain ⟨σ, hrun, hframes, hrefs, hrefs', hdestroyed⟩ : ∃ σ, (instancePerThread Nat).run
        [(0, .call .acquire), (0, .step), (0, .call .acquire), (0, .step), (0, .call .returned),
          (0, .step), (0, .step), (1, .call .acquire), (0, .call .returned), (1, .step),
          (0, .step), (1, .call .returned), (0, .step), (1, .step), (0, .call .returned),
          (1, .step), (0, .step)] = some σ ∧
      (σ.pc 0).frames = [] ∧ (σ.pc 0).refs = [⟨0, 0⟩, ⟨0, 0⟩] ∧ (σ.pc 1).refs = [⟨1, 0⟩] ∧
      σ.shared.destroyed = [(0, ⟨0, 1⟩)] :=
    ⟨_, rfl, by decide⟩
  obtain ⟨hlives, hcount⟩ :=
    ((one_instance_per_thread (Machine.reachable_of_run hrun) 0).2 hframes).2 ⟨0, 0⟩ rfl
  rw [hrefs] at hcount
  exact ⟨σ, hrun, hrefs, hrefs', hdestroyed, hlives, hcount⟩

/-- A thread holds only instances of its own, and they live. A destructor runs
once, on the thread that constructed the instance, and never under the lock. -/
theorem destroyed_on_own_thread {σ : Threads (Family T) (Local T) T}
    (h : (instancePerThread T).Reachable σ) :
    (∀ t, (∀ i ∈ (σ.pc t).held, i.thread = t ∧ σ.shared.Lives i) ∧
        (∀ i, σ.shared.threadSpecific[t]? = some i → i ∈ (σ.pc t).held) ∧
        .destroyingLocked ∉ (σ.pc t).frames) ∧
      (∀ p ∈ σ.shared.destroyed, p.2.thread = p.1) ∧ σ.shared.destroyed.Nodup := by
  obtain ⟨hnoted, hfits⟩ := fits_of_reachable h
  refine ⟨fun t => ⟨fun i hi => ?_, (hfits t).entry, fun hlocked => ?_⟩,
    hnoted.own, hnoted.nodup⟩
  · have hown := ((hfits t).own i hi).1
    exact ⟨hown, ((hfits t).lives_iff hown).mpr (.inl hi)⟩
  · cases hframes : (σ.pc t).frames with
    | nil =>
      rw [hframes] at hlocked
      cases hlocked
    | cons f frames =>
      rw [hframes] at hlocked
      rcases List.mem_cons.mp hlocked with rfl | hlocked
      · exact (hfits t).top .destroyingLocked (by rw [hframes]; rfl)
      · exact absurd ((hfits t).below .destroyingLocked (by rw [hframes]; exact hlocked)).1
          Bool.false_ne_true

/-- The destructor of the instance acquires a new one, whose destructor runs
when the `InstancePerThread` is gone. -/
theorem destroyed_on_own_thread_reacquired :
    ∃ σ, (instancePerThread Nat).run
        [(0, .call .acquire), (0, .step), (0, .call .returned), (0, .step), (0, .step),
          (0, .call (.dropRef ⟨0, 0⟩)), (0, .step), (0, .step), (0, .step),
          (0, .call .acquire), (0, .step), (0, .call .returned), (0, .step), (0, .step),
          (0, .call .returned), (0, .step), (0, .step),
          (0, .call .drop), (0, .step), (0, .step),
          (0, .call (.dropRef ⟨0, 1⟩)), (0, .step), (0, .step), (0, .step),
          (0, .call .returned), (0, .step), (0, .step), (0, .step)] = some σ ∧
      σ.shared.references = 0 ∧ σ.shared.destroyed = [(0, ⟨0, 1⟩), (0, ⟨0, 0⟩)] ∧
      .destroyingLocked ∉ (σ.pc 0).frames ∧ σ.shared.destroyed.Nodup := by
  obtain ⟨σ, hrun, hreferences, hdestroyed⟩ : ∃ σ, (instancePerThread Nat).run
        [(0, .call .acquire), (0, .step), (0, .call .returned), (0, .step), (0, .step),
          (0, .call (.dropRef ⟨0, 0⟩)), (0, .step), (0, .step), (0, .step),
          (0, .call .acquire), (0, .step), (0, .call .returned), (0, .step), (0, .step),
          (0, .call .returned), (0, .step), (0, .step),
          (0, .call .drop), (0, .step), (0, .step),
          (0, .call (.dropRef ⟨0, 1⟩)), (0, .step), (0, .step), (0, .step),
          (0, .call .returned), (0, .step), (0, .step), (0, .step)] = some σ ∧
      σ.shared.references = 0 ∧ σ.shared.destroyed = [(0, ⟨0, 1⟩), (0, ⟨0, 0⟩)] :=
    ⟨_, rfl, by decide⟩
  have h := destroyed_on_own_thread (Machine.reachable_of_run hrun)
  exact ⟨σ, hrun, hreferences, hdestroyed, (h.1 0).2.2, h.2.2⟩

end Folo.Linked
