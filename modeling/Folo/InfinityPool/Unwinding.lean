import Folo.InfinityPool.Iteration
import Folo.InfinityPool.PoolRuns
import Folo.InfinityPool.SlabRuns

/-!
# A pool whose objects panic when they are dropped

Runs as before, but a destructor may panic. The slab has let go of the object
by then, but `remove` of the pool is unwound before it updates the length and
the tracker. So with each such removal the length goes one further beyond the
number of objects, and what relies on it no longer works: an iterator yields
all objects and then looks for one more.

`Tally n` is what remains of the invariant: the slabs are in order, and the
length is `n` too high. All calls keep it, whatever the tracker says, and so a
call may run into an assertion here.
-/

namespace Folo.InfinityPool

open Folo.Lib

variable {α : Type}

/-- The call itself, with destructors that panic. -/
def Op.unwinding (dropPanics : α → Bool) (p : RawOpaquePool α) :
    Op α → Except Panic (Answer α) × RawOpaquePool α
  | .remove handle => (p.remove dropPanics handle).map (Except.map fun _ => .unit) id
  | op => op.run p

/-- A pool and the calls made on it; `dropPanics` says which objects have a
destructor that panics. -/
def unwindingPool (slabLayout : SlabLayout) (dropPanics : α → Bool) :
    Machine (PoolState α) (Op α) where
  init := ⟨RawOpaquePool.newInner slabLayout, []⟩
  next s op :=
    if op.Valid s.live then
      match op.unwinding dropPanics s.pool with
      | (.ok answer, p) => some ⟨p, op.live s.live answer⟩
      | (.error .allocation, _) => none
      -- The call has used its handle up.
      | (.error _, p) => some ⟨p, op.live s.live .unit⟩
    else none

/-- The number of removals that a destructor has unwound. -/
def unwound (dropPanics : α → Bool) : Machine.Monitor (PoolState α) (Op α) Nat where
  start := 0
  update n s op _ :=
    match (op.unwinding dropPanics s.pool).1 with
    | .error .destructor => n + 1
    | _ => n

namespace RawOpaquePool

/-- The slabs are in order, and the length is `n` above the number of objects,
as a `usize`. -/
structure Tally (n : Nat) (p : RawOpaquePool α) : Prop where
  frame : p.Frame
  length : p.length = ((p.slabs.map Slab.len).sum + n) % usizeSize

variable {n : Nat} {p p' : RawOpaquePool α}

theorem tally_new (layout : SlabLayout) : (newInner layout : RawOpaquePool α).Tally 0 :=
  ⟨(inv_newInner layout).frame, rfl⟩

theorem Tally.lt (h : p.Tally n) : p.len < usizeSize := by
  rw [len, h.length]
  exact Nat.mod_lt _ (by decide)

/-- The length is right exactly if it has wrapped all the way round. -/
theorem Tally.len_eq_iff (h : p.Tally n) : p.len = (p.slabs.map Slab.len).sum ↔ usizeSize ∣ n := by
  have hlt := lt_of_le_of_lt h.frame.sum_le h.frame.capacity_lt
  rw [len, h.length]
  simp only [usizeSize] at hlt ⊢
  omega

/-! ## Calls that move no object -/

/-- Slabs may have been added or dropped, but the length stands. -/
structure Unmoved (p p' : RawOpaquePool α) : Prop where
  slabs : Rearranged p p'
  length : p'.length = p.length

theorem Frame.unmoved_of_slabs (h : p.Frame) (hlayout : p'.slabLayout = p.slabLayout)
    (hslabs : p'.slabs = p.slabs) (hlength : p'.length = p.length) : Unmoved p p' := by
  refine ⟨⟨⟨?_, ?_, ?_⟩, hlayout, by rw [hslabs], ?_⟩, hlength⟩
  · rw [hslabs, hlayout]
    exact h.layout
  · rw [hslabs]
    exact h.slab
  · rw [hslabs, hlayout]
    exact h.memory
  · funext handle
    rw [object?, object?, hslabs]

theorem Unmoved.trans {p'' : RawOpaquePool α} (h : Unmoved p p') (h' : Unmoved p' p'') :
    Unmoved p p'' :=
  ⟨⟨h'.slabs.frame, h'.slabs.layout.trans h.slabs.layout, h'.slabs.sum.trans h.slabs.sum,
    h'.slabs.objects.trans h.slabs.objects⟩, h'.length.trans h.length⟩

theorem Unmoved.tally (h : Unmoved p p') (ht : p.Tally n) : p'.Tally n :=
  ⟨h.slabs.frame, by rw [h.length, ht.length, h.slabs.sum]⟩

/-- A call that moves no object, unless memory runs out, and drops none. -/
def Steady {β : Type} (p : RawOpaquePool α) (res : Except Panic β × RawOpaquePool α) : Prop :=
  res.1 = .error .allocation ∨ (res.1 ≠ .error .destructor ∧ Unmoved p res.2)

theorem Frame.steady_self {β : Type} (h : p.Frame) {out : Except Panic β}
    (hout : out ≠ .error .destructor) : Steady p (out, p) :=
  Or.inr ⟨hout, h.unmoved_of_slabs rfl rfl rfl⟩

theorem Steady.of_unmoved {β : Type} {res : Except Panic β × RawOpaquePool α} (h : Unmoved p p')
    (hres : Steady p' res) : Steady p res := by
  rcases hres with herr | ⟨hne, hres⟩
  · exact Or.inl herr
  · exact Or.inr ⟨hne, h.trans hres⟩

theorem Frame.updateSlabCount (h : p.Frame) : Steady p p.updateSlabCount := by
  rw [RawOpaquePool.updateSlabCount]
  cases p.vacancyTracker.updateSlabCount p.slabs.length with
  | none => exact h.steady_self (by simp)
  | some tracker => exact Or.inr ⟨by simp, h.unmoved_of_slabs rfl rfl rfl⟩

/-- Appending slabs and telling the tracker. -/
theorem Frame.extend (h : p.Frame) (k : Nat) :
    (extendSlabs k p).1 = .error .allocation ∨
      ∃ p', extendSlabs k p = (.ok (), p') ∧ Steady p p'.updateSlabCount := by
  rcases extendSlabs_eq k p with herr | ⟨heq, hm⟩
  · exact Or.inl herr
  · refine Or.inr ⟨_, heq, ?_⟩
    have hgrown : Unmoved p
        { p with slabs := p.slabs ++ List.replicate k (Slab.new p.slabLayout) } := by
      refine ⟨h.grow (k := k) ?_ rfl rfl, rfl⟩
      rcases Nat.eq_zero_or_pos k with rfl | hk
      · exact h.memory
      · exact hm hk
    exact hgrown.slabs.frame.updateSlabCount.of_unmoved hgrown

theorem Frame.reserve (h : p.Frame) (additional : Nat) : Steady p (p.reserve additional) := by
  rw [RawOpaquePool.reserve]
  cases checkedAdd p.len additional with
  | none => exact h.steady_self (by simp)
  | some requiredCapacity =>
    dsimp only
    split
    · exact h.steady_self (by simp)
    · generalize hk : divCeil requiredCapacity p.slabLayout.capacity - p.slabs.length = k
      rcases h.extend k with herr | ⟨q, heq, hq⟩
      · generalize extendSlabs k p = res at herr
        obtain ⟨out, q⟩ := res
        obtain rfl : out = .error .allocation := herr
        exact Or.inl rfl
      · rw [heq]
        exact hq

theorem Frame.shrinkToFit (h : p.Frame) : Steady p p.shrinkToFit := by
  rw [RawOpaquePool.shrinkToFit]
  split
  · exact h.steady_self (by simp)
  · have hshrunk : Unmoved p { p with slabs := p.slabs.take (shrunkLen p.slabs) } :=
      ⟨h.shrink rfl rfl, rfl⟩
    exact hshrunk.slabs.frame.updateSlabCount.of_unmoved hshrunk

theorem Frame.indexOfSlabToInsertInto (h : p.Frame) : Steady p p.indexOfSlabToInsertInto := by
  rw [RawOpaquePool.indexOfSlabToInsertInto]
  cases p.vacancyTracker.nextVacancy with
  | some index => exact h.steady_self (by simp)
  | none =>
    dsimp only
    rw [allocateSlabForInsert]
    split
    · exact h.steady_self (by simp)
    · rw [pushSlab]
      by_cases hm : (p.slabs.length + 1) * p.slabLayout.slotArraySize < usizeSize
      · rw [if_pos hm]
        have hgrown : Unmoved p { p with slabs := p.slabs ++ [Slab.new p.slabLayout] } :=
          ⟨h.grow (k := 1) hm rfl rfl, rfl⟩
        have hupd := hgrown.slabs.frame.updateSlabCount.of_unmoved hgrown
        dsimp only
        generalize RawOpaquePool.updateSlabCount _ = res at hupd ⊢
        obtain ⟨out, q⟩ := res
        rcases hupd with herr | ⟨hne, hupd⟩
        · obtain rfl : out = .error .allocation := herr
          exact Or.inl rfl
        · cases out with
          | error why => exact Or.inr ⟨fun heq => hne (by rw [Except.error.inj heq]), hupd⟩
          | ok _ => exact Or.inr ⟨by simp, hupd⟩
      · rw [if_neg hm]
        exact Or.inl rfl

/-! ## Calls that move one object -/

/-- One slab has another number of objects, and the length follows it or not. -/
theorem Tally.set {n' : Nat} (h : p.Tally n) {i : Nat} {slab slab' : Slab α}
    (hi : p.slabs[i]? = some slab) (hw : slab'.WellFormed) (hl : slab'.layout = slab.layout)
    (hlayout : p'.slabLayout = p.slabLayout) (hp : p'.slabs = p.slabs.set i slab')
    (hlen : ∀ sum sum', sum' + slab.len = sum + slab'.len → p.length = (sum + n) % usizeSize →
      p'.length = (sum' + n') % usizeSize) : p'.Tally n' := by
  refine ⟨h.frame.set hi hw hl hlayout hp, ?_⟩
  rw [hp]
  exact hlen _ _ (sum_len_set hi slab') h.length

/-- The tracker may assert, but slabs and length are what they are. -/
theorem updateSlabStatus_frame (p : RawOpaquePool α) (i : Nat) (v : Bool) :
    ((p.updateSlabStatus i v).1 = .ok () ∨
      (p.updateSlabStatus i v).1 = .error .trackerAssertion) ∧
    (p.updateSlabStatus i v).2.slabLayout = p.slabLayout ∧
    (p.updateSlabStatus i v).2.slabs = p.slabs ∧ (p.updateSlabStatus i v).2.length = p.length := by
  rw [updateSlabStatus]
  cases p.vacancyTracker.updateSlabStatus i v with
  | none => exact ⟨Or.inr rfl, rfl, rfl, rfl⟩
  | some tracker => exact ⟨Or.inl rfl, rfl, rfl, rfl⟩

/-- What an insertion or a removal comes to once it has got to its object. -/
structure Moved {β : Type} (n : Nat) (out : Except Panic β) (p' : RawOpaquePool α)
    (objects : RawPooled → Option α) : Prop where
  outcome : (∃ b, out = .ok b) ∨ out = .error .trackerAssertion
  tally : p'.Tally n
  objects : p'.object? = objects

theorem Tally.afterInsert (h : p.Tally n) {i m : Nat} {slab : Slab α}
    (hi : p.slabs[i]? = some slab)
    (hm : slab.slots[slab.nextFreeSlotIndex]? = some (.vacant m)) (v : α) :
    Moved n (p.afterInsert i (slab.occupy slab.nextFreeSlotIndex v m)).1
      (p.afterInsert i (slab.occupy slab.nextFreeSlotIndex v m)).2
      (Function.update p.object? ⟨i, slab.nextFreeSlotIndex⟩ (some v)) := by
  have hw := (h.frame.slab slab (List.mem_of_getElem? hi)).occupy hm v
  have hlt := (List.getElem?_eq_some_iff.mp hm).1
  have hmoved : ∀ q : RawOpaquePool α, q.slabLayout = p.slabLayout →
      q.slabs = p.slabs.set i (slab.occupy slab.nextFreeSlotIndex v m) →
      q.length = wrappingAdd p.length 1 → q.Tally n ∧
        q.object? = Function.update p.object? ⟨i, slab.nextFreeSlotIndex⟩ (some v) := by
    intro q hlayout hslabs hlength
    refine ⟨h.set hi hw rfl hlayout hslabs fun sum sum' hsum hp => ?_,
      object?_set hi hslabs (Slab.object?_occupy hlt v m)⟩
    simp only [Slab.len, Slab.occupy] at hsum
    rw [hlength, wrappingAdd, hp, show sum' = sum + 1 by omega, Nat.mod_add_mod]
    congr 1
    omega
  rw [RawOpaquePool.afterInsert]
  split
  · obtain ⟨hout, hlayout, hslabs, hlength⟩ := updateSlabStatus_frame
      { p with
        slabs := p.slabs.set i (slab.occupy slab.nextFreeSlotIndex v m)
        length := wrappingAdd p.length 1 } i false
    obtain ⟨htally, hobjects⟩ := hmoved _ hlayout hslabs hlength
    exact ⟨hout.imp_left fun hok => ⟨_, hok⟩, htally, hobjects⟩
  · obtain ⟨htally, hobjects⟩ := hmoved
      { p with
        slabs := p.slabs.set i (slab.occupy slab.nextFreeSlotIndex v m)
        length := wrappingAdd p.length 1 } rfl rfl rfl
    exact ⟨Or.inl ⟨_, rfl⟩, htally, hobjects⟩

theorem Tally.afterRemove (h : p.Tally n) {i j : Nat} {slab : Slab α} {v : α}
    (hi : p.slabs[i]? = some slab) (hj : slab.slots[j]? = some (.occupied v)) :
    Moved n (p.afterRemove i (slab.release j)).1 (p.afterRemove i (slab.release j)).2
      (Function.update p.object? ⟨i, j⟩ none) := by
  have hslab := h.frame.slab slab (List.mem_of_getElem? hi)
  have hw := hslab.release hj
  have hpos := hslab.count_pos hj
  have hlt := (List.getElem?_eq_some_iff.mp hj).1
  have hmoved : ∀ q : RawOpaquePool α, q.slabLayout = p.slabLayout →
      q.slabs = p.slabs.set i (slab.release j) → q.length = wrappingSub p.length 1 →
      q.Tally n ∧ q.object? = Function.update p.object? ⟨i, j⟩ none := by
    intro q hlayout hslabs hlength
    refine ⟨h.set hi hw rfl hlayout hslabs fun sum sum' hsum hp => ?_,
      object?_set hi hslabs (Slab.object?_release hlt)⟩
    simp only [Slab.len, Slab.release] at hsum
    rw [hlength, wrappingSub, hp, show sum = sum' + 1 by omega]
    simp only [usizeSize]
    omega
  rw [RawOpaquePool.afterRemove]
  split
  · obtain ⟨hout, hlayout, hslabs, hlength⟩ := updateSlabStatus_frame
      { p with
        slabs := p.slabs.set i (slab.release j)
        length := wrappingSub p.length 1 } i true
    obtain ⟨htally, hobjects⟩ := hmoved _ hlayout hslabs hlength
    exact ⟨hout.imp_left fun hok => ⟨_, hok⟩, htally, hobjects⟩
  · obtain ⟨htally, hobjects⟩ := hmoved
      { p with
        slabs := p.slabs.set i (slab.release j)
        length := wrappingSub p.length 1 } rfl rfl rfl
    exact ⟨Or.inl ⟨_, rfl⟩, htally, hobjects⟩

/-- An insertion stores nothing, or it stores its object in a vacant slot. -/
theorem Tally.insertWithUnchecked (h : p.Tally n) (layoutT : Layout) (f : Option α) :
    Steady p (p.insertWithUnchecked layoutT f) ∧
        (∀ handle, (p.insertWithUnchecked layoutT f).1 ≠ .ok handle) ∨
      ∃ handle v, f = some v ∧ p.object? handle = none ∧
        ((p.insertWithUnchecked layoutT f).1 = .ok handle ∨
          (p.insertWithUnchecked layoutT f).1 = .error .trackerAssertion) ∧
        (p.insertWithUnchecked layoutT f).2.Tally n ∧
        (p.insertWithUnchecked layoutT f).2.object? =
          Function.update p.object? handle (some v) := by
  rw [RawOpaquePool.insertWithUnchecked]
  have hindex := h.frame.indexOfSlabToInsertInto
  generalize p.indexOfSlabToInsertInto = res at hindex ⊢
  obtain ⟨out, q⟩ := res
  cases out with
  | error why =>
    left
    dsimp only at hindex ⊢
    refine ⟨?_, by simp⟩
    rcases hindex with herr | ⟨hne, hq⟩
    · exact Or.inl (by rw [Except.error.inj herr])
    · exact Or.inr ⟨fun heq => hne (by rw [Except.error.inj heq]), hq⟩
  | ok i =>
    obtain ⟨-, hq⟩ := hindex.resolve_left (by simp)
    have htally := hq.tally h
    dsimp only
    cases hslab : q.slabs[i]? with
    | none => exact Or.inl ⟨Or.inr ⟨by simp, hq⟩, by simp⟩
    | some slab =>
      have hw := htally.frame.slab slab (List.mem_of_getElem? hslab)
      dsimp only
      rcases hw.insert_cases layoutT f with ⟨why, -, hwhy, heq⟩ | ⟨m, v, -, hm, hf, heq⟩
      · left
        rw [heq]
        dsimp only
        have hself : q.slabs.set i slab = q.slabs := by
          obtain ⟨hlt, hget⟩ := List.getElem?_eq_some_iff.mp hslab
          rw [← hget, List.set_getElem_self]
        rw [hself]
        exact ⟨Or.inr ⟨fun hd => hwhy (Except.error.inj hd), hq⟩, by simp⟩
      · right
        rw [heq]
        dsimp only
        have hafter := htally.afterInsert hslab hm v
        generalize q.afterInsert i _ = res at hafter ⊢
        obtain ⟨out, q'⟩ := res
        have hvacant : p.object? ⟨i, slab.nextFreeSlotIndex⟩ = none := by
          rw [← hq.slabs.objects, object?]
          simp [hslab, Slab.object?, hm]
        refine ⟨⟨i, slab.nextFreeSlotIndex⟩, v, hf, hvacant, ?_⟩
        have hobjects := hafter.objects
        rw [hq.slabs.objects] at hobjects
        rcases hafter.outcome with ⟨_, hok⟩ | hassert
        · dsimp only at hok
          rw [hok]
          exact ⟨Or.inl rfl, hafter.tally, hobjects⟩
        · dsimp only at hassert
          rw [hassert]
          exact ⟨Or.inr rfl, hafter.tally, hobjects⟩

end RawOpaquePool

open RawOpaquePool

/-! ## Whole runs -/

/-- The live handles have their objects in a pool whose length is `n` too high. -/
structure Held (n : Nat) (s : PoolState α) : Prop where
  tally : s.pool.Tally n
  live : ∀ handle v, (handle, v) ∈ s.live → s.pool.object? handle = some v

namespace Held

variable {n : Nat} {s : PoolState α} {dropPanics : α → Bool}

/-- What a call comes to. -/
inductive Outcome (n : Nat) (s : PoolState α) (op : Op α) :
    Except Panic (Answer α) × RawOpaquePool α → Prop
  | allocation {p} : Outcome n s op (.error .allocation, p)
  | destructor {p} (h : Held (n + 1) ⟨p, op.live s.live .unit⟩) :
    Outcome n s op (.error .destructor, p)
  | error {p why} (hwhy : why ≠ .destructor) (h : Held n ⟨p, op.live s.live .unit⟩) :
    Outcome n s op (.error why, p)
  | ok {p answer} (h : Held n ⟨p, op.live s.live answer⟩) : Outcome n s op (.ok answer, p)

/-- A call that moves no object. -/
theorem of_steady {β : Type} (h : Held n s) {op : Op α} {res : Except Panic β × RawOpaquePool α}
    (hres : Steady s.pool res) (f : β → Answer α) (hunit : op.live s.live .unit = s.live)
    (hf : ∀ b, res.1 = .ok b → op.live s.live (f b) = s.live) :
    Outcome n s op (res.map (Except.map f) id) := by
  obtain ⟨out, p⟩ := res
  rcases hres with herr | ⟨hne, hp⟩
  · obtain rfl : out = .error .allocation := herr
    exact .allocation
  · have hkept : Held n ⟨p, s.live⟩ :=
      ⟨hp.tally h.tally, fun handle v hmem => by
        rw [hp.slabs.objects]
        exact h.live handle v hmem⟩
    cases out with
    | error why =>
      refine .error (fun heq => hne (by rw [heq])) ?_
      rw [hunit]
      exact hkept
    | ok b =>
      refine .ok ?_
      rw [hf b rfl]
      exact hkept

/-- Taking the object of a handle out. -/
theorem remove (h : Held n s) {n' : Nat} {p : RawOpaquePool α} {handle : RawPooled}
    (htally : p.Tally n') (hobjects : p.object? = Function.update s.pool.object? handle none) :
    Held n' ⟨p, s.live.filter fun entry => entry.1 ≠ handle⟩ := by
  refine ⟨htally, fun k v hmem => ?_⟩
  obtain ⟨hmem, hne⟩ := List.mem_filter.mp hmem
  rw [hobjects, Function.update_of_ne (of_decide_eq_true hne)]
  exact h.live k v hmem

/-- An insertion of either form. -/
theorem insert (h : Held n s) {op : Op α} {layoutT : Layout} {f : Option α}
    (hrun : op.unwinding dropPanics s.pool =
      (s.pool.insertWith layoutT f).map (Except.map .handle) id)
    (hunit : op.live s.live .unit = s.live)
    (hlive : ∀ v handle, f = some v → op.live s.live (.handle handle) = (handle, v) :: s.live) :
    Outcome n s op (op.unwinding dropPanics s.pool) := by
  rw [hrun, RawOpaquePool.insertWith]
  split
  · exact h.of_steady (h.tally.frame.steady_self (by simp)) Answer.handle hunit (by simp)
  · rcases h.tally.insertWithUnchecked layoutT f with
      ⟨hsteady, hnone⟩ | ⟨handle, v, hf, hvacant, hout, htally, hobjects⟩
    · exact h.of_steady hsteady Answer.handle hunit fun b hb => absurd hb (hnone b)
    · generalize s.pool.insertWithUnchecked layoutT f = res at hout htally hobjects
      obtain ⟨out, p⟩ := res
      dsimp only at hout htally hobjects
      have hkept : ∀ k w, (k, w) ∈ s.live → p.object? k = some w := by
        intro k w hmem
        have hk := h.live k w hmem
        rw [hobjects, Function.update_of_ne]
        · exact hk
        · rintro rfl
          rw [hvacant] at hk
          cases hk
      rcases hout with rfl | rfl
      · refine .ok ⟨htally, fun k w hmem => ?_⟩
        rw [hlive v handle hf] at hmem
        rcases List.mem_cons.mp hmem with heq | hmem
        · obtain ⟨rfl, rfl⟩ := Prod.mk.inj heq
          show p.object? k = some w
          rw [hobjects, Function.update_self]
        · exact hkept k w hmem
      · refine .error (by simp) ⟨htally, fun k w hmem => ?_⟩
        rw [hunit] at hmem
        exact hkept k w hmem

/-- `remove` of an object whose destructor panics: the slot is vacant, but
neither length nor tracker follow. -/
theorem remove_unwinds (h : Held n s) {handle : RawPooled} {v : α}
    (hmem : (handle, v) ∈ s.live) (hv : dropPanics v = true) :
    ∃ slabs, s.pool.remove dropPanics handle =
        (.error .destructor, { s.pool with slabs := slabs }) ∧
      Tally (n + 1) { s.pool with slabs := slabs } ∧
      RawOpaquePool.object? { s.pool with slabs := slabs } =
        Function.update s.pool.object? handle none := by
  obtain ⟨slab, hslab, hslot⟩ := slot_of_object? (h.live handle v hmem)
  have hw := h.tally.frame.slab slab (List.mem_of_getElem? hslab)
  refine ⟨s.pool.slabs.set handle.slabIndex (slab.release handle.slabHandle), ?_,
    h.tally.set hslab (hw.release hslot) rfl rfl rfl fun sum sum' hsum hp => ?_,
    object?_set hslab rfl (Slab.object?_release (List.getElem?_eq_some_iff.mp hslot).1)⟩
  · rw [RawOpaquePool.remove, hslab]
    dsimp only
    rw [Slab.remove, hslot]
    simp only [hv, if_true]
  · have hpos := hw.count_pos hslot
    simp only [Slab.len, Slab.release] at hsum
    dsimp only
    rw [hp]
    congr 1
    omega

/-- Another object is dropped, and the length follows. -/
theorem remove_drops (h : Held n s) {handle : RawPooled} {v : α} (hmem : (handle, v) ∈ s.live)
    (hv : dropPanics v = false) :
    Moved n (s.pool.remove dropPanics handle).1 (s.pool.remove dropPanics handle).2
      (Function.update s.pool.object? handle none) := by
  obtain ⟨slab, hslab, hslot⟩ := slot_of_object? (h.live handle v hmem)
  rw [RawOpaquePool.remove, hslab]
  dsimp only
  rw [Slab.remove, hslot]
  simp only [hv, Bool.false_eq_true, if_false]
  exact h.tally.afterRemove hslab hslot

/-- The step lemma, one case for each call. -/
theorem outcome (h : Held n s) {op : Op α} (hv : op.Valid s.live) :
    Outcome n s op (op.unwinding dropPanics s.pool) := by
  cases op with
  | insert layoutT value =>
    exact h.insert (f := some value) rfl rfl fun v handle hf => by
      rw [← Option.some.inj hf]
      rfl
  | insertWith layoutT f =>
    refine h.insert rfl ?_ fun v handle hf => ?_
    · cases f <;> rfl
    · rw [hf]
      rfl
  | remove handle =>
    obtain ⟨⟨_, v⟩, hmem, rfl⟩ := List.mem_map.mp hv
    rw [Op.unwinding]
    cases hv : dropPanics v with
    | true =>
      obtain ⟨slabs, heq, htally, hobjects⟩ := h.remove_unwinds hmem hv
      rw [heq]
      exact .destructor (h.remove htally hobjects)
    | false =>
      have hmoved := h.remove_drops hmem hv
      generalize s.pool.remove dropPanics _ = res at hmoved ⊢
      obtain ⟨out, p⟩ := res
      have hkept := h.remove hmoved.tally hmoved.objects
      rcases hmoved.outcome with ⟨_, hok⟩ | hassert
      · obtain rfl : out = .ok _ := hok
        exact .ok hkept
      · obtain rfl : out = .error .trackerAssertion := hassert
        exact .error (by simp) hkept
  | removeUnpin handle =>
    obtain ⟨⟨_, v⟩, hmem, rfl⟩ := List.mem_map.mp hv
    obtain ⟨slab, hslab, hslot⟩ := slot_of_object? (h.live _ v hmem)
    have hafter := h.tally.afterRemove hslab hslot
    rw [Op.unwinding, Op.run, RawOpaquePool.removeUnpin, hslab]
    · dsimp only
      rw [Slab.removeUnpin, hslot]
      dsimp only
      generalize s.pool.afterRemove _ _ = res at hafter ⊢
      obtain ⟨out, p⟩ := res
      have hkept := h.remove hafter.tally hafter.objects
      rcases hafter.outcome with ⟨_, hok⟩ | hassert
      · obtain rfl : out = .ok _ := hok
        exact .ok hkept
      · obtain rfl : out = .error .trackerAssertion := hassert
        exact .error (by simp) hkept
    · simp
  | reserve additional =>
    exact h.of_steady (h.tally.frame.reserve additional) _ rfl fun _ _ => rfl
  | shrinkToFit =>
    exact h.of_steady h.tally.frame.shrinkToFit _ rfl fun _ _ => rfl

theorem next (h : Held n s) {slabLayout : SlabLayout} {op : Op α} {s' : PoolState α}
    (hn : (unwindingPool slabLayout dropPanics).next s op = some s') :
    Held ((unwound dropPanics).update n s op s') s' := by
  simp only [unwindingPool] at hn
  split at hn
  next hv =>
    have hout : Outcome n s op (op.unwinding dropPanics s.pool) := h.outcome hv
    simp only [unwound]
    generalize op.unwinding dropPanics s.pool = res at hn hout
    cases hout with
    | allocation => cases hn
    | destructor hheld =>
      rw [← Option.some.inj hn]
      exact hheld
    | @error p why hwhy hheld =>
      cases why with
      | allocation => cases hn
      | destructor => exact absurd rfl hwhy
      | _ =>
        rw [← Option.some.inj hn]
        exact hheld
    | ok hheld =>
      rw [← Option.some.inj hn]
      exact hheld
  next => cases hn

theorem reachable {slabLayout : SlabLayout} {q : PoolState α × Nat}
    (h : ((unwindingPool slabLayout dropPanics).observe (unwound dropPanics)).Reachable q) :
    Held q.2 q.1 := by
  refine h.invariant (I := fun q => Held q.2 q.1) ⟨tally_new slabLayout, by simp [unwindingPool,
    Machine.observe]⟩ ?_
  intro q op q' _ hinv _ hnext
  obtain ⟨hmoved, hcount⟩ := Machine.observe_next.mp hnext
  rw [hcount]
  exact hinv.next hmoved

end Held

/-- What is asked of a pool after a removal. -/
structure Intact (p : RawOpaquePool α) (handle : RawPooled) : Prop where
  /-- The length is the sum of the counts. -/
  length : p.len = (p.slabs.map Slab.len).sum
  /-- An iterator yields as many objects. -/
  iterated : RawOpaquePoolIterator.Exact p
  /-- The slot is vacant. -/
  vacant : p.object? handle = none
  /-- The tracker has the slab as vacant. -/
  tracked : p.vacancyTracker.hasVacancy.bit handle.slabIndex = true

/-- **An unwound removal leaves the length behind**: with all removals unwound
so far it is wrong, unless there are so many that it has wrapped, and the
tracker is as it was. -/
theorem intact_remove_iff {slabLayout : SlabLayout} {dropPanics : α → Bool}
    {q : PoolState α × Nat}
    (h : ((unwindingPool slabLayout dropPanics).observe (unwound dropPanics)).Reachable q)
    {handle : RawPooled} {v : α} (hmem : (handle, v) ∈ q.1.live) (hv : dropPanics v = true) :
    (q.1.pool.remove dropPanics handle).1 = .error .destructor ∧
      (Intact (q.1.pool.remove dropPanics handle).2 handle ↔
        usizeSize ∣ q.2 + 1 ∧
          q.1.pool.vacancyTracker.hasVacancy.bit handle.slabIndex = true) := by
  obtain ⟨slabs, heq, htally, hobjects⟩ := (Held.reachable h).remove_unwinds hmem hv
  rw [heq]
  refine ⟨rfl, fun hintact => ⟨htally.len_eq_iff.mp hintact.length, hintact.tracked⟩, ?_⟩
  rintro ⟨hdvd, hbit⟩
  have hlen := htally.len_eq_iff.mpr hdvd
  refine ⟨hlen, ?_, ?_, hbit⟩
  · rw [RawOpaquePoolIterator.exact_iff htally.frame htally.lt, htally.frame.length_occupied]
    exact hlen
  · rw [hobjects, Function.update_self]

/-- One object, whose destructor panics. -/
theorem intact_remove_iff_first :
    ∃ q, ((unwindingPool ⟨⟨8, 8⟩, 16, 2, by decide, by decide⟩ (fun v : Nat => v == 7)).observe
        (unwound fun v => v == 7)).run [.insert ⟨8, 8⟩ 7] = some q ∧
      (q.1.pool.remove (fun v => v == 7) ⟨0, 0⟩).1 = .error .destructor ∧
      (Intact (q.1.pool.remove (fun v => v == 7) ⟨0, 0⟩).2 ⟨0, 0⟩ ↔
        usizeSize ∣ q.2 + 1 ∧ q.1.pool.vacancyTracker.hasVacancy.bit 0 = true) := by
  have hrun : (((unwindingPool ⟨⟨8, 8⟩, 16, 2, by decide, by decide⟩
      (fun v : Nat => v == 7)).observe (unwound fun v => v == 7)).run
        [.insert ⟨8, 8⟩ 7]).map (fun q => q.1.live) = some [(⟨0, 0⟩, 7)] := by decide +kernel
  obtain ⟨q, hq, hlive⟩ := Option.map_eq_some_iff.mp hrun
  exact ⟨q, hq, intact_remove_iff (v := 7) (Machine.reachable_of_run hq) (by simp [hlive]) rfl⟩

/-- The length says that there is one object, and there is none. -/
theorem not_intact_remove :
    ∃ q, ((unwindingPool ⟨⟨8, 8⟩, 16, 2, by decide, by decide⟩ (fun v : Nat => v == 7)).observe
        (unwound fun v => v == 7)).run [.insert ⟨8, 8⟩ 7] = some q ∧
      q.1.live = [(⟨0, 0⟩, 7)] ∧
      (q.1.pool.remove (fun v => v == 7) ⟨0, 0⟩).1 = .error .destructor ∧
      (q.1.pool.remove (fun v => v == 7) ⟨0, 0⟩).2.len = 1 ∧
      ¬ Intact (q.1.pool.remove (fun v => v == 7) ⟨0, 0⟩).2 ⟨0, 0⟩ := by
  have hrun : (((unwindingPool ⟨⟨8, 8⟩, 16, 2, by decide, by decide⟩
      (fun v : Nat => v == 7)).observe (unwound fun v => v == 7)).run
        [.insert ⟨8, 8⟩ 7]).map (fun q => (q.1.live,
          (q.1.pool.remove (fun v => v == 7) ⟨0, 0⟩).1,
          (q.1.pool.remove (fun v => v == 7) ⟨0, 0⟩).2.len,
          ((q.1.pool.remove (fun v => v == 7) ⟨0, 0⟩).2.slabs.map Slab.len).sum)) =
      some ([(⟨0, 0⟩, 7)], .error .destructor, 1, 0) := by decide +kernel
  obtain ⟨q, hq, heq⟩ := Option.map_eq_some_iff.mp hrun
  simp only [Prod.mk.injEq] at heq
  obtain ⟨hlive, hout, hlen, hsum⟩ := heq
  refine ⟨q, hq, hlive, hout, hlen, fun hintact => ?_⟩
  have hlength := hintact.length
  rw [hlen, hsum] at hlength
  cases hlength

/-- **Iteration is exact from both ends** in every reachable state in which the
removals unwound so far have not left the length behind, and in no other. -/
theorem iteration_exact_iff {slabLayout : SlabLayout} {dropPanics : α → Bool}
    {q : PoolState α × Nat}
    (h : ((unwindingPool slabLayout dropPanics).observe (unwound dropPanics)).Reachable q) :
    (RawOpaquePoolIterator.Exact q.1.pool ↔ usizeSize ∣ q.2) ∧
      q.1.pool.occupied.Pairwise RawPooled.Before ∧
      ∀ handle, handle ∈ q.1.pool.occupied ↔ (q.1.pool.object? handle).isSome = true := by
  have htally := (Held.reachable h).tally
  refine ⟨?_, pairwise_handlesFrom 0 _, fun handle => mem_occupied⟩
  rw [RawOpaquePoolIterator.exact_iff htally.frame htally.lt, htally.frame.length_occupied]
  exact htally.len_eq_iff

/-- Two slabs, of which the first has a gap. -/
theorem iteration_exact_iff_regular :
    ∃ q, ((unwindingPool ⟨⟨8, 8⟩, 16, 2, by decide, by decide⟩ (fun v : Nat => v == 7)).observe
        (unwound fun v => v == 7)).run
        [.insert ⟨8, 8⟩ 1, .insert ⟨8, 8⟩ 2, .insert ⟨8, 8⟩ 7, .remove ⟨0, 0⟩] = some q ∧
      q.1.pool.occupied = [⟨0, 1⟩, ⟨1, 0⟩] ∧ RawOpaquePoolIterator.Exact q.1.pool := by
  have hrun : (((unwindingPool ⟨⟨8, 8⟩, 16, 2, by decide, by decide⟩
      (fun v : Nat => v == 7)).observe (unwound fun v => v == 7)).run
        [.insert ⟨8, 8⟩ 1, .insert ⟨8, 8⟩ 2, .insert ⟨8, 8⟩ 7, .remove ⟨0, 0⟩]).map
        (fun q => (q.2, q.1.pool.occupied)) = some (0, [⟨0, 1⟩, ⟨1, 0⟩]) := by decide +kernel
  obtain ⟨q, hq, heq⟩ := Option.map_eq_some_iff.mp hrun
  obtain ⟨hcount, hoccupied⟩ := Prod.mk.inj heq
  refine ⟨q, hq, hoccupied, (iteration_exact_iff (Machine.reachable_of_run hq)).1.mpr ?_⟩
  rw [hcount]
  exact dvd_zero _

/-- One of two objects is gone when an iterator asks for the second. -/
theorem not_iteration_exact :
    ∃ q, ((unwindingPool ⟨⟨8, 8⟩, 16, 2, by decide, by decide⟩ (fun v : Nat => v == 7)).observe
        (unwound fun v => v == 7)).run
        [.insert ⟨8, 8⟩ 1, .insert ⟨8, 8⟩ 7, .remove ⟨0, 1⟩] = some q ∧
      q.1.pool.occupied = [⟨0, 0⟩] ∧
      ((RawOpaquePoolIterator.new q.1.pool).next.bind fun first =>
        first.2.next.map fun second => (first.1, second.1)) =
          some (.ok (some ⟨0, 0⟩), .error .noSlab) := by
  have hrun : (((unwindingPool ⟨⟨8, 8⟩, 16, 2, by decide, by decide⟩
      (fun v : Nat => v == 7)).observe (unwound fun v => v == 7)).run
        [.insert ⟨8, 8⟩ 1, .insert ⟨8, 8⟩ 7, .remove ⟨0, 1⟩]).map
        (fun q => (q.1.pool.occupied, (RawOpaquePoolIterator.new q.1.pool).next.bind fun first =>
          first.2.next.map fun second => (first.1, second.1))) =
      some ([⟨0, 0⟩], some (.ok (some ⟨0, 0⟩), .error .noSlab)) := by decide +kernel
  obtain ⟨q, hq, heq⟩ := Option.map_eq_some_iff.mp hrun
  obtain ⟨hoccupied, hcalls⟩ := Prod.mk.inj heq
  exact ⟨q, hq, hoccupied, hcalls⟩

end Folo.InfinityPool
