import Folo.Lib.Machine
import Folo.InfinityPool.PoolInv

/-!
# Whole runs of a pool

A run is any sequence of calls whose handles are valid when they are used:
the state keeps, next to the pool, the live handles with the objects they
were given for. Initializers may panic, objects may have any layout, and
`reserve` may ask for more than there is; destructors do not panic. A run
ends where the allocation of a slab fails.

`Sync` ties the two together: the objects in the pool are exactly those of the
live handles. With the invariant of the pool it is preserved by every call
(`sync_next`), and the statement about every reachable state follows.
-/

namespace Folo.InfinityPool

open Folo.Lib

variable {α : Type}

/-- The calls. -/
inductive Op (α : Type)
  | insert (layoutT : Layout) (value : α)
  | insertWith (layoutT : Layout) (f : Option α)
  | remove (handle : RawPooled)
  | removeUnpin (handle : RawPooled)
  | reserve (additional : Nat)
  | shrinkToFit

/-- What a call returns. -/
inductive Answer (α : Type)
  | unit
  | handle (handle : RawPooled)
  | object (value : α)
deriving DecidableEq

/-- The pool, and the live handles with their objects. -/
structure PoolState (α : Type) where
  pool : RawOpaquePool α
  live : List (RawPooled × α)

namespace Op

/-- The call itself. -/
def run (p : RawOpaquePool α) : Op α → Except Panic (Answer α) × RawOpaquePool α
  | insert layoutT value => (p.insert layoutT value).map (Except.map .handle) id
  | insertWith layoutT f => (p.insertWith layoutT f).map (Except.map .handle) id
  | remove handle => (p.remove (fun _ => false) handle).map (Except.map fun _ => .unit) id
  | removeUnpin handle => (p.removeUnpin handle).map (Except.map .object) id
  | reserve additional => (p.reserve additional).map (Except.map fun _ => .unit) id
  | shrinkToFit => p.shrinkToFit.map (Except.map fun _ => .unit) id

/-- The handle a call uses has to be live. -/
def Valid (live : List (RawPooled × α)) : Op α → Prop
  | remove handle | removeUnpin handle => handle ∈ live.map Prod.fst
  | _ => True

instance (live : List (RawPooled × α)) (op : Op α) : Decidable (op.Valid live) := by
  cases op <;> unfold Valid <;> infer_instance

/-- The live handles after a call that returned `answer`. -/
def live (live : List (RawPooled × α)) : Op α → Answer α → List (RawPooled × α)
  | insert _ value, .handle h => (h, value) :: live
  | insertWith _ (some value), .handle h => (h, value) :: live
  | remove handle, _ | removeUnpin handle, _ => live.filter fun entry => entry.1 ≠ handle
  | _, _ => live

end Op

/-- A pool and the calls made on it. -/
def rawOpaquePool (α : Type) (slabLayout : SlabLayout) : Machine (PoolState α) (Op α) where
  init := ⟨RawOpaquePool.newInner slabLayout, []⟩
  next s op :=
    if op.Valid s.live then
      match op.run s.pool with
      | (.ok answer, p) => some ⟨p, op.live s.live answer⟩
      -- Running out of memory is not recoverable; other panics are unwound.
      | (.error .allocation, _) => none
      | (.error _, p) => some ⟨p, s.live⟩
    else none

/-- The panics that are part of the documented behaviour of the calls. -/
def Panic.Documented : Panic → Prop
  | .layoutMismatch | .capacityOverflow | .allocation | .initializer => True
  | _ => False

/-- The pool is in order and holds exactly the objects of the live handles. -/
structure Sync (s : PoolState α) : Prop where
  inv : s.pool.Inv
  live : ∀ handle v, (handle, v) ∈ s.live ↔ s.pool.object? handle = some v
  distinct : (s.live.map Prod.fst).Nodup

namespace Sync

theorem of_effect {s : PoolState α} (h : Sync s) {p : RawOpaquePool α}
    (he : s.pool.Effect p s.pool.object?) : Sync ⟨p, s.live⟩ :=
  ⟨he.inv, fun handle v => by rw [he.objects]; exact h.live handle v, h.distinct⟩

/-- A handle to a vacant slot is new. -/
theorem not_live {s : PoolState α} (h : Sync s) {handle : RawPooled}
    (hv : s.pool.object? handle = none) : handle ∉ s.live.map Prod.fst := by
  intro hmem
  obtain ⟨⟨_, v⟩, hentry, rfl⟩ := List.mem_map.mp hmem
  rw [(h.live _ v).mp hentry] at hv
  cases hv

theorem insert {s : PoolState α} (h : Sync s) {p : RawOpaquePool α} {handle : RawPooled} {v : α}
    (hv : s.pool.object? handle = none)
    (he : s.pool.Effect p (Function.update s.pool.object? handle (some v))) :
    Sync ⟨p, (handle, v) :: s.live⟩ := by
  have hnew := h.not_live hv
  refine ⟨he.inv, fun k w => ?_, List.nodup_cons.mpr ⟨hnew, h.distinct⟩⟩
  rw [he.objects, List.mem_cons, h.live]
  by_cases hk : k = handle
  · subst hk
    rw [Function.update_self, hv]
    simp [eq_comm]
  · rw [Function.update_of_ne hk]
    simp [hk]

theorem remove {s : PoolState α} (h : Sync s) {p : RawOpaquePool α} {handle : RawPooled}
    (he : s.pool.Effect p (Function.update s.pool.object? handle none)) :
    Sync ⟨p, s.live.filter fun entry => entry.1 ≠ handle⟩ := by
  refine ⟨he.inv, fun k w => ?_, h.distinct.sublist (List.filter_sublist.map _)⟩
  rw [he.objects, List.mem_filter, h.live]
  by_cases hk : k = handle
  · subst hk
    simp
  · rw [Function.update_of_ne hk]
    simp [hk]

/-- A live handle has its object in the pool. -/
theorem valid {s : PoolState α} (h : Sync s) {handle : RawPooled}
    (hh : handle ∈ s.live.map Prod.fst) : ∃ v, s.pool.object? handle = some v := by
  obtain ⟨⟨_, v⟩, hentry, rfl⟩ := List.mem_map.mp hh
  exact ⟨v, (h.live _ v).mp hentry⟩

/-- What an insertion comes to, in either form. -/
theorem inserted {s : PoolState α} (h : Sync s) (f : Option α) :
    (s.pool.insertWithUnchecked s.pool.objectLayout f).1 = .error .allocation ∨
      ((s.pool.insertWithUnchecked s.pool.objectLayout f).1 = .error .initializer ∧
        Sync ⟨(s.pool.insertWithUnchecked s.pool.objectLayout f).2, s.live⟩) ∨
      ∃ handle v, f = some v ∧
        (s.pool.insertWithUnchecked s.pool.objectLayout f).1 = .ok handle ∧
        handle ∉ s.live.map Prod.fst ∧
        Sync ⟨(s.pool.insertWithUnchecked s.pool.objectLayout f).2, (handle, v) :: s.live⟩ := by
  rcases h.inv.insertWithUnchecked f with herr | ⟨herr, he⟩ | ⟨handle, v, hf, hok, hv, he⟩
  · exact Or.inl herr
  · exact Or.inr (Or.inl ⟨herr, h.of_effect he⟩)
  · exact Or.inr (Or.inr ⟨handle, v, hf, hok, h.not_live hv, h.insert hv he⟩)

/-- One call: what it returns keeps the two in step, a handle it returns is
new, and what it panics with is documented. -/
structure Called (s : PoolState α) (op : Op α) : Prop where
  ok : ∀ answer p, op.run s.pool = (.ok answer, p) → Sync ⟨p, op.live s.live answer⟩
  fresh : ∀ handle p, op.run s.pool = (.ok (.handle handle), p) →
    handle ∉ s.live.map Prod.fst
  error : ∀ why p, op.run s.pool = (.error why, p) →
    why.Documented ∧ (why = .allocation ∨ Sync ⟨p, s.live⟩)

/-- A call that panicked. -/
theorem called_error {s : PoolState α} {op : Op α} {why : Panic} {p : RawOpaquePool α}
    (hr : op.run s.pool = (.error why, p)) (hdoc : why.Documented)
    (hsync : why = .allocation ∨ Sync ⟨p, s.live⟩) : Called s op := by
  refine ⟨fun _ _ heq => ?_, fun _ _ heq => ?_, fun _ _ heq => ?_⟩ <;> rw [hr] at heq <;>
    cases heq
  exact ⟨hdoc, hsync⟩

/-- A call that returned, and no handle. -/
theorem called_ok {s : PoolState α} {op : Op α} {answer : Answer α} {p : RawOpaquePool α}
    (hr : op.run s.pool = (.ok answer, p)) (hans : ∀ handle, answer ≠ .handle handle)
    (hsync : Sync ⟨p, op.live s.live answer⟩) : Called s op := by
  refine ⟨fun _ _ heq => ?_, fun _ _ heq => ?_, fun _ _ heq => ?_⟩ <;> rw [hr] at heq <;>
    cases heq
  · exact hsync
  · exact absurd rfl (hans _)

/-- An insertion of either form. -/
theorem called_insert {s : PoolState α} (h : Sync s) {op : Op α} {layoutT : Layout}
    {f : Option α}
    (hrun : op.run s.pool = (s.pool.insertWith layoutT f).map (Except.map .handle) id)
    (hlive : ∀ v handle, f = some v → op.live s.live (.handle handle) = (handle, v) :: s.live) :
    Called s op := by
  rw [RawOpaquePool.insertWith] at hrun
  by_cases hl : layoutT ≠ s.pool.objectLayout
  · rw [if_pos hl] at hrun
    exact called_error hrun trivial (Or.inr h)
  · rw [if_neg hl, not_not.mp hl] at hrun
    have hins := h.inserted f
    generalize s.pool.insertWithUnchecked s.pool.objectLayout f = res at hrun hins
    obtain ⟨out, q⟩ := res
    rcases hins with herr | ⟨herr, hsync⟩ | ⟨handle, v, hf, hok, hnew, hsync⟩
    · obtain rfl : out = .error .allocation := herr
      exact called_error hrun trivial (Or.inl rfl)
    · obtain rfl : out = .error .initializer := herr
      exact called_error hrun trivial (Or.inr hsync)
    · obtain rfl : out = .ok handle := hok
      have hr : op.run s.pool = (.ok (.handle handle), q) := hrun
      refine ⟨fun answer p heq => ?_, fun k p heq => ?_, fun why p heq => ?_⟩ <;>
        rw [hr] at heq <;> cases heq
      · rw [hlive v handle hf]
        exact hsync
      · exact hnew

/-- Every valid call. -/
theorem called {s : PoolState α} (h : Sync s) {op : Op α} (hv : op.Valid s.live) :
    Called s op := by
  cases op with
  | insert layoutT value =>
    exact called_insert h (f := some value) rfl fun v handle hf => by
      rw [← Option.some.inj hf]
      rfl
  | insertWith layoutT f =>
    exact called_insert h rfl fun v handle hf => by
      rw [hf]
      rfl
  | remove handle =>
    obtain ⟨v, hobj⟩ := h.valid hv
    obtain ⟨hok, he⟩ : (s.pool.remove (fun _ => false) handle).1 = .ok () ∧
        RawOpaquePool.Effect s.pool (s.pool.remove (fun _ => false) handle).2
          (Function.update s.pool.object? handle none) := h.inv.remove hobj rfl
    have hrun : Op.run s.pool (.remove handle) =
        (.ok .unit, (s.pool.remove (fun _ => false) handle).2) :=
      Prod.ext (congrArg (Except.map fun _ => Answer.unit) hok) rfl
    exact called_ok hrun (by simp) (h.remove he)
  | removeUnpin handle =>
    obtain ⟨v, hobj⟩ := h.valid hv
    obtain ⟨hok, he⟩ := h.inv.removeUnpin hobj
    have hrun : Op.run s.pool (.removeUnpin handle) =
        (.ok (.object v), (s.pool.removeUnpin handle).2) :=
      Prod.ext (congrArg (Except.map Answer.object) hok) rfl
    exact called_ok hrun (by simp) (h.remove he)
  | reserve additional =>
    have hres := h.inv.reserve additional
    have hrun : Op.run s.pool (.reserve additional) =
      (s.pool.reserve additional).map (Except.map fun _ => .unit) id := rfl
    generalize s.pool.reserve additional = res at hres hrun
    obtain ⟨out, q⟩ := res
    rcases hres with herr | ⟨hok | herr, he⟩
    · obtain rfl : out = .error .allocation := herr
      exact called_error hrun trivial (Or.inl rfl)
    · obtain rfl : out = .ok () := hok
      exact called_ok hrun (by simp) (h.of_effect he)
    · obtain rfl : out = .error .capacityOverflow := herr
      exact called_error hrun trivial (Or.inr (h.of_effect he))
  | shrinkToFit =>
    obtain ⟨hok, he⟩ := h.inv.shrinkToFit
    have hrun : Op.run s.pool .shrinkToFit = (.ok .unit, s.pool.shrinkToFit.2) :=
      Prod.ext (congrArg (Except.map fun _ => Answer.unit) hok) rfl
    exact called_ok hrun (by simp) (h.of_effect he)

/-- The step lemma. -/
theorem next {s s' : PoolState α} {slabLayout : SlabLayout} (h : Sync s) {op : Op α}
    (hn : (rawOpaquePool α slabLayout).next s op = some s') : Sync s' := by
  simp only [rawOpaquePool] at hn
  split at hn
  next hv =>
    have hcalled := h.called hv
    split at hn
    next answer p hr =>
      rw [← Option.some.inj hn]
      exact hcalled.ok answer p hr
    next => cases hn
    next why p hwhy hr =>
      rw [← Option.some.inj hn]
      refine (hcalled.error why p hr).2.resolve_left ?_
      rintro rfl
      exact hwhy rfl
  next => cases hn

/-- In every reachable state the objects of the pool are those of the live
handles. -/
theorem reachable {slabLayout : SlabLayout} {s : PoolState α}
    (h : (rawOpaquePool α slabLayout).Reachable s) : Sync s :=
  h.invariant (I := Sync) (show Sync ⟨RawOpaquePool.newInner slabLayout, []⟩ from
    { inv := RawOpaquePool.inv_newInner slabLayout
      live := fun handle v => by
        simp [RawOpaquePool.newInner, RawOpaquePool.object?]
      distinct := List.nodup_nil })
    fun _ _ _ _ hs _ hn => hs.next hn

end Sync

/-- What holds of a pool between two calls. -/
structure PoolInvariant (s : PoolState α) : Prop where
  /-- The length is the sum of the counts, and they count the occupied slots. -/
  length : s.pool.len = (s.pool.slabs.map Slab.len).sum
  count : ∀ slab ∈ s.pool.slabs, slab.len = slab.slots.countP SlotMeta.isOccupied
  /-- The tracker reports exactly the slabs that are not full as vacant. -/
  tracked : s.pool.vacancyTracker.hasVacancy.len = s.pool.slabs.length
  vacant : ∀ i slab, s.pool.slabs[i]? = some slab →
    (s.pool.vacancyTracker.hasVacancy.bit i = true ↔ slab.isFull = false)
  /-- The next vacancy is the first of these. -/
  next_some : ∀ i, s.pool.vacancyTracker.nextVacancy = some i ↔
    IsLeast {i : Nat | ∃ slab : Slab α, s.pool.slabs[i]? = some slab ∧ slab.isFull = false} i
  next_none : s.pool.vacancyTracker.nextVacancy = none ↔
    ∀ slab ∈ s.pool.slabs, slab.isFull = true
  /-- Every live handle has its own object in its own slot. -/
  live : ∀ handle v, (handle, v) ∈ s.live → s.pool.object? handle = some v
  distinct : (s.live.map Prod.fst).Nodup
  /-- The next insertion goes into a slab with room and a slot not in use. -/
  insert_room : ∀ i p, s.pool.indexOfSlabToInsertInto = (.ok i, p) →
    ∃ slab, p.slabs[i]? = some slab ∧ slab.isFull = false
  insert_fresh : ∀ op : Op α, op.Valid s.live → ∀ handle p,
    op.run s.pool = (.ok (.handle handle), p) → handle ∉ s.live.map Prod.fst
  /-- No call runs into an assertion or leaves the bounds of a slab. -/
  documented : ∀ op : Op α, op.Valid s.live → ∀ why p,
    op.run s.pool = (.error why, p) → why.Documented

/-- A cached vacancy is the first slab that is not full. -/
theorem isNext_some {slabs : List (Slab α)} {i : Nat} :
    VacancyTracker.IsNext (vacancies slabs) (some i) ↔
      IsLeast {i : Nat | ∃ slab : Slab α, slabs[i]? = some slab ∧ slab.isFull = false} i := by
  have hget : ∀ j : Nat, (vacancies slabs)[j]? = some true ↔
      ∃ slab : Slab α, slabs[j]? = some slab ∧ slab.isFull = false := by
    intro j
    simp [vacancies, List.getElem?_map, Option.map_eq_some_iff]
  simp only [VacancyTracker.IsNext, ne_eq, hget, IsLeast, lowerBounds, Set.mem_ofPred_eq]
  refine and_congr_right fun _ => ⟨fun h j hj => ?_, fun h j hji hj => ?_⟩
  · by_contra hlt
    exact h j (by omega) hj
  · have hle := h hj
    omega

theorem isNext_none {slabs : List (Slab α)} :
    VacancyTracker.IsNext (vacancies slabs) none ↔ ∀ slab ∈ slabs, slab.isFull = true := by
  simp only [VacancyTracker.IsNext, vacancies, List.getElem?_map, ne_eq, Option.map_eq_some_iff,
    not_exists, not_and, Bool.not_eq_true', Bool.not_eq_false]
  constructor
  · intro h slab hs
    obtain ⟨i, hi⟩ := List.mem_iff_getElem?.mp hs
    exact h i slab hi
  · exact fun h i slab hi => h slab (List.mem_of_getElem? hi)

/-- The cache is determined by the vacancies. -/
theorem isNext_unique {vacant : List Bool} {a b : Option Nat}
    (ha : VacancyTracker.IsNext vacant a) (hb : VacancyTracker.IsNext vacant b) : a = b := by
  cases a with
  | none =>
    cases b with
    | none => rfl
    | some i => exact absurd hb.1 (ha i)
  | some i =>
    cases b with
    | none => exact absurd ha.1 (hb i)
    | some j =>
      rcases Nat.lt_trichotomy i j with hij | rfl | hij
      · exact absurd ha.1 (hb.2 i hij)
      · rfl
      · exact absurd hb.1 (ha.2 j hij)

/-- **Whole-run invariant of `RawOpaquePool`.** -/
theorem pool_invariant {α : Type} {slabLayout : SlabLayout} {s : PoolState α}
    (h : (rawOpaquePool α slabLayout).Reachable s) : PoolInvariant s := by
  have hs := Sync.reachable h
  have ht := hs.inv.tracks
  have hlen : (vacancies s.pool.slabs).length = s.pool.slabs.length := List.length_map _
  refine
    { length := hs.inv.length
      count := fun slab hslab => (hs.inv.slab slab hslab).count
      tracked := ht.len.trans hlen
      vacant := fun i slab hi => ?_
      next_some := fun i => ⟨fun hn => ?_, fun hleast => ?_⟩
      next_none := ⟨fun hn => ?_, fun hfull => ?_⟩
      live := fun handle v hmem => (hs.live handle v).mp hmem
      distinct := hs.distinct
      insert_room := fun i p hi => ?_
      insert_fresh := fun op hv handle p hr => (hs.called hv).fresh handle p hr
      documented := fun op hv why p hr => ((hs.called hv).error why p hr).1 }
  · rw [ht.bit i _ (RawOpaquePool.vacancies_getElem? hi), Bool.not_eq_true']
  · exact isNext_some.mp (hn ▸ ht.next)
  · exact isNext_unique ht.next (isNext_some.mpr hleast)
  · exact isNext_none.mp (hn ▸ ht.next)
  · exact isNext_unique ht.next (isNext_none.mpr hfull)
  · rcases hs.inv.indexOfSlabToInsertInto with herr | ⟨j, slab, hj, hslab, hfull, -⟩
    · rw [hi] at herr
      cases herr
    · rw [hi] at hj hslab
      obtain rfl : i = j := Except.ok.inj hj
      exact ⟨slab, hslab, hfull⟩

/-- Slabs of two slots: the first fills up, a panicking initializer leaves the
second behind empty, and shrinking and growing again keep what is live. -/
theorem pool_invariant_regrown :
    ∃ s, (rawOpaquePool Nat ⟨⟨8, 8⟩, 16, 2, by decide, by decide⟩).run
        [.insert ⟨8, 8⟩ 10, .insert ⟨8, 8⟩ 11, .insertWith ⟨8, 8⟩ none, .shrinkToFit,
          .reserve 3, .insertWith ⟨8, 8⟩ (some 12), .remove ⟨0, 1⟩, .removeUnpin ⟨1, 0⟩,
          .insert ⟨8, 8⟩ 13, .shrinkToFit] = some s ∧
      s.live = [(⟨0, 1⟩, 13), (⟨0, 0⟩, 10)] ∧ s.pool.len = 2 ∧ s.pool.slabs.length = 1 ∧
      PoolInvariant s := by
  obtain ⟨s, hrun, hlive, hlen, hslabs⟩ :
      ∃ s, (rawOpaquePool Nat ⟨⟨8, 8⟩, 16, 2, by decide, by decide⟩).run
        [.insert ⟨8, 8⟩ 10, .insert ⟨8, 8⟩ 11, .insertWith ⟨8, 8⟩ none, .shrinkToFit,
          .reserve 3, .insertWith ⟨8, 8⟩ (some 12), .remove ⟨0, 1⟩, .removeUnpin ⟨1, 0⟩,
          .insert ⟨8, 8⟩ 13, .shrinkToFit] = some s ∧
      s.live = [(⟨0, 1⟩, 13), (⟨0, 0⟩, 10)] ∧ s.pool.len = 2 ∧ s.pool.slabs.length = 1 :=
    ⟨_, rfl, by decide, by decide, by decide⟩
  exact ⟨s, hrun, hlive, hlen, hslabs, pool_invariant (Machine.reachable_of_run hrun)⟩

end Folo.InfinityPool
