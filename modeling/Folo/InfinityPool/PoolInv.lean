import Folo.InfinityPool.RawOpaquePool

/-!
# What the operations of a pool preserve

`Inv` is the invariant of the pool between two calls: its slabs are well
formed, the length is the sum of their counts, and the vacancy tracker
describes exactly which of them are not full. One lemma for each operation
says that the invariant stands, which of the panics can come out, and what
becomes of the objects in the pool, as a map from handles to objects.
-/

namespace Folo.InfinityPool

variable {α : Type}

/-- Whether each slab has a vacancy. -/
def vacancies (slabs : List (Slab α)) : List Bool := slabs.map fun slab => !slab.isFull

namespace RawOpaquePool

/-- The invariant between two calls. -/
structure Inv (p : RawOpaquePool α) : Prop where
  layout : ∀ slab ∈ p.slabs, slab.layout = p.slabLayout
  slab : ∀ slab ∈ p.slabs, slab.WellFormed
  memory : p.slabs.length * p.slabLayout.slotArraySize < usizeSize
  length : p.length = (p.slabs.map Slab.len).sum
  tracks : p.vacancyTracker.Tracks (vacancies p.slabs)

/-- What holds of the slabs of a pool by themselves. -/
structure Frame (p : RawOpaquePool α) : Prop where
  layout : ∀ slab ∈ p.slabs, slab.layout = p.slabLayout
  slab : ∀ slab ∈ p.slabs, slab.WellFormed
  memory : p.slabs.length * p.slabLayout.slotArraySize < usizeSize

theorem Inv.frame {p : RawOpaquePool α} (h : p.Inv) : p.Frame := ⟨h.layout, h.slab, h.memory⟩

theorem inv_newInner (layout : SlabLayout) : (newInner layout : RawOpaquePool α).Inv where
  layout _ h := absurd h List.not_mem_nil
  slab _ h := absurd h List.not_mem_nil
  memory := by simp [newInner]
  length := rfl
  tracks := VacancyTracker.tracks_new

/-! ## Counting -/

theorem vacancies_getElem? {slabs : List (Slab α)} {i : Nat} {slab : Slab α}
    (h : slabs[i]? = some slab) : (vacancies slabs)[i]? = some (!slab.isFull) := by
  rw [vacancies, List.getElem?_map, h, Option.map_some]

theorem vacancies_set (slabs : List (Slab α)) (i : Nat) (slab : Slab α) :
    vacancies (slabs.set i slab) = (vacancies slabs).set i (!slab.isFull) :=
  List.map_set ..

/-- Replacing one slab changes the sum of the counts by its own. -/
theorem sum_len_set {slabs : List (Slab α)} {i : Nat} {slab : Slab α} (h : slabs[i]? = some slab)
    (slab' : Slab α) : ((slabs.set i slab').map Slab.len).sum + slab.len =
      (slabs.map Slab.len).sum + slab'.len := by
  induction slabs generalizing i with
  | nil => simp at h
  | cons first rest ih =>
    cases i with
    | zero =>
      simp only [List.getElem?_cons_zero, Option.some.injEq] at h
      subst h
      simp only [List.set_cons_zero, List.map_cons, List.sum_cons]
      omega
    | succ i =>
      have hrest := ih (i := i) (by simpa using h)
      simp only [List.set_cons_succ, List.map_cons, List.sum_cons]
      omega

theorem Frame.count_le {p : RawOpaquePool α} (h : p.Frame) {slab : Slab α} (hs : slab ∈ p.slabs) :
    slab.len ≤ p.slabLayout.capacity := by
  rw [← h.layout slab hs]
  exact (h.slab slab hs).count_le

theorem Frame.sum_le {p : RawOpaquePool α} (h : p.Frame) :
    (p.slabs.map Slab.len).sum ≤ p.slabs.length * p.slabLayout.capacity := by
  have hle := List.sum_le_card_nsmul (p.slabs.map Slab.len) p.slabLayout.capacity (by
    intro n hn
    obtain ⟨slab, hs, rfl⟩ := List.mem_map.mp hn
    exact h.count_le hs)
  simpa using hle

/-- The slots of a pool fit into memory. -/
theorem Frame.capacity_lt {p : RawOpaquePool α} (h : p.Frame) :
    p.slabs.length * p.slabLayout.capacity < usizeSize := by
  refine lt_of_le_of_lt ?_ h.memory
  rw [SlabLayout.slotArraySize]
  exact Nat.mul_le_mul_left _ (Nat.le_mul_of_pos_right _ p.slabLayout.slotSize_pos)

theorem Inv.length_le {p : RawOpaquePool α} (h : p.Inv) :
    p.length ≤ p.slabs.length * p.slabLayout.capacity := by
  rw [h.length]
  exact h.frame.sum_le

/-- So `capacity` does not wrap. -/
theorem Inv.capacity_eq {p : RawOpaquePool α} (h : p.Inv) :
    p.capacity = p.slabs.length * p.slabLayout.capacity ∧
      p.slabs.length * p.slabLayout.capacity < usizeSize :=
  ⟨Nat.mod_eq_of_lt h.frame.capacity_lt, h.frame.capacity_lt⟩

/-- A pool whose slabs are all full is at its capacity. -/
theorem Inv.length_of_full {p : RawOpaquePool α} (h : p.Inv)
    (hfull : ∀ slab ∈ p.slabs, slab.isFull = true) :
    p.length = p.slabs.length * p.slabLayout.capacity := by
  rw [h.length, List.eq_replicate_of_mem (a := p.slabLayout.capacity)
    (l := p.slabs.map Slab.len) (by
      intro n hn
      obtain ⟨slab, hs, rfl⟩ := List.mem_map.mp hn
      rw [← h.layout slab hs]
      simpa [Slab.isFull, Slab.len] using hfull slab hs)]
  simp

/-! ## Replacing one slab -/

theorem object?_eq_some {p : RawOpaquePool α} {handle : RawPooled} {v : α} :
    p.object? handle = some v ↔ ∃ slab, p.slabs[handle.slabIndex]? = some slab ∧
      slab.object? handle.slabHandle = some v := by
  rw [object?, Option.bind_eq_some_iff]

/-- A slab whose slot `slot` has become `o` changes the pool there and nowhere
else. -/
theorem object?_set {p p' : RawOpaquePool α} {i : Nat} {slab slab' : Slab α}
    (hi : p.slabs[i]? = some slab) (hp : p'.slabs = p.slabs.set i slab') {slot : Nat}
    {o : Option α} (ho : ∀ j, slab'.object? j = if j = slot then o else slab.object? j) :
    p'.object? = Function.update p.object? ⟨i, slot⟩ o := by
  have hlt := (List.getElem?_eq_some_iff.mp hi).1
  funext handle
  obtain ⟨k, j⟩ := handle
  simp only [object?, hp, List.getElem?_set]
  by_cases hk : i = k
  · subst hk
    rw [if_pos rfl, if_pos hlt, Option.bind_some, ho]
    by_cases hj : j = slot
    · rw [if_pos hj, hj, Function.update_self]
    · rw [if_neg hj, Function.update_of_ne (by simp [hj])]
      simp [hi, object?]
  · rw [if_neg hk, Function.update_of_ne (by simp [Ne.symm hk])]
    rfl

/-- A slab may take the place of another of the same layout. -/
theorem Frame.set {p p' : RawOpaquePool α} (h : p.Frame) {i : Nat} {slab slab' : Slab α}
    (hi : p.slabs[i]? = some slab) (hw : slab'.WellFormed) (hl : slab'.layout = slab.layout)
    (hlayout : p'.slabLayout = p.slabLayout) (hp : p'.slabs = p.slabs.set i slab') :
    p'.Frame := by
  refine ⟨fun s hs => ?_, fun s hs => ?_, by rw [hp, hlayout, List.length_set]; exact h.memory⟩
  · rw [hlayout]
    rw [hp] at hs
    rcases List.mem_or_eq_of_mem_set hs with hs | rfl
    · exact h.layout s hs
    · rw [hl]
      exact h.layout slab (List.mem_of_getElem? hi)
  · rw [hp] at hs
    rcases List.mem_or_eq_of_mem_set hs with hs | rfl
    · exact h.slab s hs
    · exact hw

/-- A pool keeps the invariant when one slab takes another's place and length
and tracker follow. -/
theorem Inv.set {p : RawOpaquePool α} (h : p.Inv) {i : Nat} {slab slab' : Slab α}
    (hi : p.slabs[i]? = some slab) (hw : slab'.WellFormed) (hl : slab'.layout = slab.layout)
    {length : Nat} (hlen : length + slab.len = p.length + slab'.len) {tracker : VacancyTracker}
    (ht : tracker.Tracks ((vacancies p.slabs).set i (!slab'.isFull))) :
    Inv ⟨p.slabLayout, p.slabs.set i slab', length, tracker⟩ := by
  have hframe : Frame ⟨p.slabLayout, p.slabs.set i slab', length, tracker⟩ :=
    h.frame.set hi hw hl rfl rfl
  refine ⟨hframe.layout, hframe.slab, hframe.memory, ?_, ?_⟩
  · have hsum := sum_len_set hi slab'
    rw [h.length] at hlen
    dsimp only
    omega
  · dsimp only
    rw [vacancies_set]
    exact ht

/-- A status that stays the same needs no update. -/
theorem Inv.tracks_same {p : RawOpaquePool α} (h : p.Inv) {i : Nat} {slab : Slab α} {v : Bool}
    (hi : p.slabs[i]? = some slab) (hv : (!slab.isFull) = v) :
    p.vacancyTracker.Tracks ((vacancies p.slabs).set i v) := by
  have hself : (vacancies p.slabs).set i v = vacancies p.slabs := by
    obtain ⟨hlt, hget⟩ := List.getElem?_eq_some_iff.mp (vacancies_getElem? hi)
    rw [← hv, ← hget, List.set_getElem_self]
  rw [hself]
  exact h.tracks

/-! ## Growing and shrinking -/

/-- `p'` is a pool in good order with the objects `objects` in it. -/
structure Effect (p p' : RawOpaquePool α) (objects : RawPooled → Option α) : Prop where
  inv : p'.Inv
  layout : p'.slabLayout = p.slabLayout
  objects : p'.object? = objects

theorem Inv.effect_self {p : RawOpaquePool α} (h : p.Inv) : Effect p p p.object? := ⟨h, rfl, rfl⟩

theorem object?_new (layout : SlabLayout) (i : Nat) :
    (Slab.new layout : Slab α).object? i = none := by
  rw [Option.eq_none_iff_forall_ne_some]
  intro v hv
  rw [Slab.object?_eq_some] at hv
  simp [Slab.new, Option.map_eq_some_iff] at hv

/-- Empty slabs at the end hold no objects. -/
theorem object?_append_new {p p' : RawOpaquePool α} {k : Nat}
    (hp : p'.slabs = p.slabs ++ List.replicate k (Slab.new p.slabLayout)) :
    p'.object? = p.object? := by
  funext handle
  simp only [object?, hp]
  by_cases hlt : handle.slabIndex < p.slabs.length
  · rw [List.getElem?_append_left hlt]
  · rw [List.getElem?_append_right (by omega), List.getElem?_replicate,
      List.getElem?_eq_none (by omega : p.slabs.length ≤ handle.slabIndex)]
    split
    · exact object?_new p.slabLayout handle.slabHandle
    · rfl

theorem vacancies_new (layout : SlabLayout) (k : Nat) :
    vacancies (List.replicate k (Slab.new layout : Slab α)) = List.replicate k true := by
  rw [vacancies, List.map_replicate]
  have hne : (0 = layout.capacity) = False := eq_false layout.capacity_pos.ne
  simp [Slab.new, Slab.isFull, hne]

/-- Appending slabs is all that `extendSlabs` does, unless memory runs out. -/
theorem extendSlabs_eq (k : Nat) (p : RawOpaquePool α) :
    (extendSlabs k p).1 = .error .allocation ∨
      extendSlabs k p =
        (.ok (), { p with slabs := p.slabs ++ List.replicate k (Slab.new p.slabLayout) }) ∧
      (0 < k → (p.slabs.length + k) * p.slabLayout.slotArraySize < usizeSize) := by
  induction k generalizing p with
  | zero =>
    right
    simp [extendSlabs]
  | succ k ih =>
    rw [extendSlabs, pushSlab]
    by_cases hm : (p.slabs.length + 1) * p.slabLayout.slotArraySize < usizeSize
    · rw [if_pos hm]
      dsimp only
      rcases ih { p with slabs := p.slabs ++ [Slab.new p.slabLayout] } with herr | ⟨heq, hk⟩
      · exact Or.inl herr
      · right
        refine ⟨?_, fun _ => ?_⟩
        · rw [heq]
          simp [List.replicate_succ]
        · rcases Nat.eq_zero_or_pos k with rfl | hpos
          · exact hm
          · have hlt := hk hpos
            simp only [List.length_append, List.length_singleton] at hlt
            rwa [show p.slabs.length + (k + 1) = p.slabs.length + 1 + k by omega]
    · rw [if_neg hm]
      exact Or.inl rfl

/-- The slabs of `p'` are in order too and hold the same objects. -/
structure Rearranged (p p' : RawOpaquePool α) : Prop where
  frame : p'.Frame
  layout : p'.slabLayout = p.slabLayout
  sum : (p'.slabs.map Slab.len).sum = (p.slabs.map Slab.len).sum
  objects : p'.object? = p.object?

/-- New slabs at the end. -/
theorem Frame.grow {p p' : RawOpaquePool α} (h : p.Frame) {k : Nat}
    (hm : (p.slabs.length + k) * p.slabLayout.slotArraySize < usizeSize)
    (hlayout : p'.slabLayout = p.slabLayout)
    (hp : p'.slabs = p.slabs ++ List.replicate k (Slab.new p.slabLayout)) : Rearranged p p' := by
  refine ⟨⟨fun slab hs => ?_, fun slab hs => ?_, ?_⟩, hlayout, ?_, object?_append_new hp⟩
  · rw [hp] at hs
    rw [hlayout]
    rcases List.mem_append.mp hs with hs | hs
    · exact h.layout slab hs
    · rw [List.eq_of_mem_replicate hs]
      rfl
  · rw [hp] at hs
    rcases List.mem_append.mp hs with hs | hs
    · exact h.slab slab hs
    · rw [List.eq_of_mem_replicate hs]
      exact Slab.wellFormed_new p.slabLayout
  · rw [hp, hlayout]
    simpa using hm
  · have hzero : (Slab.new p.slabLayout : Slab α).len = 0 := rfl
    rw [hp, List.map_append, List.sum_append, List.map_replicate, hzero, List.sum_replicate,
      smul_zero, add_zero]

/-- The tracker takes the added slabs in. -/
theorem Inv.grow {p : RawOpaquePool α} (h : p.Inv) {k : Nat} (hk : 0 < k)
    (hm : (p.slabs.length + k) * p.slabLayout.slotArraySize < usizeSize) :
    ∃ tracker, updateSlabCount
        { p with slabs := p.slabs ++ List.replicate k (Slab.new p.slabLayout) } =
        (.ok (), ⟨p.slabLayout, p.slabs ++ List.replicate k (Slab.new p.slabLayout), p.length,
          tracker⟩) ∧
      Effect p ⟨p.slabLayout, p.slabs ++ List.replicate k (Slab.new p.slabLayout), p.length,
        tracker⟩ p.object? := by
  obtain ⟨tracker, heq, htracks⟩ := h.tracks.grow hk
  have hlen : (vacancies p.slabs).length + k =
      (p.slabs ++ List.replicate k (Slab.new p.slabLayout : Slab α)).length := by
    simp [vacancies]
  rw [hlen] at heq
  have hsame : Rearranged p ⟨p.slabLayout,
      p.slabs ++ List.replicate k (Slab.new p.slabLayout), p.length, tracker⟩ :=
    h.frame.grow hm rfl rfl
  refine ⟨tracker, by rw [updateSlabCount, heq], ⟨hsame.frame.layout, hsame.frame.slab,
    hsame.frame.memory, h.length.trans hsame.sum.symm, ?_⟩, rfl, hsame.objects⟩
  have happ : vacancies (p.slabs ++ List.replicate k (Slab.new p.slabLayout)) =
      vacancies p.slabs ++ List.replicate k true := by
    rw [← vacancies_new p.slabLayout k]
    exact List.map_append
  dsimp only
  rw [happ]
  exact htracks

/-- `reserve` adds empty slabs or panics without a change. -/
theorem Inv.reserve {p : RawOpaquePool α} (h : p.Inv) (additional : Nat) :
    (p.reserve additional).1 = .error .allocation ∨
      ((p.reserve additional).1 = .ok () ∨
        (p.reserve additional).1 = .error .capacityOverflow) ∧
      Effect p (p.reserve additional).2 p.object? := by
  rw [RawOpaquePool.reserve]
  cases hreq : checkedAdd p.len additional with
  | none => exact Or.inr ⟨Or.inr rfl, h.effect_self⟩
  | some requiredCapacity =>
    dsimp only
    by_cases hcap : requiredCapacity ≤ p.capacity
    · rw [if_pos hcap]
      exact Or.inr ⟨Or.inl rfl, h.effect_self⟩
    · rw [if_neg hcap]
      rw [h.capacity_eq.1] at hcap
      have hpos := p.slabLayout.capacity_pos
      have hmore : 0 < divCeil requiredCapacity p.slabLayout.capacity - p.slabs.length := by
        have hlt : p.slabs.length < divCeil requiredCapacity p.slabLayout.capacity := by
          rw [divCeil, ← Nat.succ_le_iff, Nat.le_div_iff_mul_le hpos, Nat.succ_mul]
          omega
        omega
      rcases extendSlabs_eq (divCeil requiredCapacity p.slabLayout.capacity - p.slabs.length) p
        with herr | ⟨heq, hm⟩
      · left
        split
        · rename_i hx
          rw [hx] at herr
          exact herr
        · rename_i hx
          rw [hx] at herr
          cases herr
      · obtain ⟨tracker, hupd, heff⟩ := h.grow hmore (hm hmore)
        right
        rw [heq]
        dsimp only
        rw [hupd]
        exact ⟨Or.inl rfl, heff⟩

/-- A new slab is only asked for when all others are full, and it is vacant. -/
theorem Inv.indexOfSlabToInsertInto {p : RawOpaquePool α} (h : p.Inv) :
    p.indexOfSlabToInsertInto.1 = .error .allocation ∨
      ∃ i slab, p.indexOfSlabToInsertInto.1 = .ok i ∧
        p.indexOfSlabToInsertInto.2.slabs[i]? = some slab ∧ slab.isFull = false ∧
        Effect p p.indexOfSlabToInsertInto.2 p.object? := by
  have hnext := h.tracks.next
  rw [RawOpaquePool.indexOfSlabToInsertInto]
  cases hn : p.vacancyTracker.nextVacancy with
  | some i =>
    rw [hn] at hnext
    obtain ⟨slab, hslab, hfull⟩ : ∃ slab, p.slabs[i]? = some slab ∧ (!slab.isFull) = true := by
      have hget := hnext.1
      rw [vacancies, List.getElem?_map] at hget
      exact Option.map_eq_some_iff.mp hget
    exact Or.inr ⟨i, slab, rfl, hslab, by simpa using hfull, h.effect_self⟩
  | none =>
    rw [hn] at hnext
    have hfull : ∀ slab ∈ p.slabs, slab.isFull = true := by
      intro slab hs
      obtain ⟨i, hi⟩ := List.mem_iff_getElem?.mp hs
      have hne := hnext i
      rw [vacancies_getElem? hi] at hne
      simpa using hne
    dsimp only
    rw [allocateSlabForInsert, if_neg (by
      rw [len, h.length_of_full hfull, h.capacity_eq.1]; exact fun hne => hne rfl), pushSlab]
    by_cases hm : (p.slabs.length + 1) * p.slabLayout.slotArraySize < usizeSize
    · rw [if_pos hm]
      obtain ⟨tracker, hupd, heff⟩ := h.grow Nat.one_pos hm
      right
      dsimp only
      rw [← List.replicate_one, hupd]
      refine ⟨_, Slab.new p.slabLayout, rfl, ?_, ?_, heff⟩
      · simp
      · simp [Slab.new, Slab.isFull, p.slabLayout.capacity_pos.ne]
    · rw [if_neg hm]
      exact Or.inl rfl

theorem shrunkLen_concat (slabs : List (Slab α)) (slab : Slab α) :
    shrunkLen (slabs ++ [slab]) = if slab.isEmpty then shrunkLen slabs else slabs.length + 1 := by
  rw [shrunkLen, List.zipIdx_append, List.reverse_append]
  simp only [List.zipIdx_singleton, List.reverse_singleton, List.singleton_append,
    List.findSome?_cons]
  cases slab.isEmpty with
  | true => rfl
  | false => simp

/-- The slabs behind the last one in use are empty. -/
theorem shrunkLen_spec (slabs : List (Slab α)) :
    shrunkLen slabs ≤ slabs.length ∧
      ∀ i slab, shrunkLen slabs ≤ i → slabs[i]? = some slab → slab.isEmpty = true := by
  induction slabs using List.reverseRecOn with
  | nil => simp [shrunkLen]
  | append_singleton slabs last ih =>
    rw [shrunkLen_concat, List.length_append, List.length_singleton]
    cases hlast : last.isEmpty with
    | false =>
      rw [if_neg (by simp)]
      refine ⟨le_rfl, fun i slab hi hget => ?_⟩
      have hlt := (List.getElem?_eq_some_iff.mp hget).1
      rw [List.length_append, List.length_singleton] at hlt
      omega
    | true =>
      rw [if_pos rfl]
      refine ⟨by omega, fun i slab hi hget => ?_⟩
      by_cases hlt : i < slabs.length
      · rw [List.getElem?_append_left hlt] at hget
        exact ih.2 i slab hi hget
      · rw [List.getElem?_append_right (by omega), List.getElem?_singleton] at hget
        split at hget
        · rw [← Option.some.inj hget]
          exact hlast
        · cases hget

/-- An empty slab has no objects and is not full. -/
theorem Frame.empty {p : RawOpaquePool α} (h : p.Frame) {i : Nat} {slab : Slab α}
    (hi : p.slabs[i]? = some slab) (he : slab.isEmpty = true) :
    slab.isFull = false ∧ ∀ j, slab.object? j = none := by
  have hmem := List.mem_of_getElem? hi
  have hzero : slab.count = 0 := by simpa [Slab.isEmpty] using he
  refine ⟨?_, fun j => ?_⟩
  · have hpos := slab.layout.capacity_pos
    simp [Slab.isFull, hzero, hpos.ne]
  · rw [Option.eq_none_iff_forall_ne_some]
    intro v hv
    have hcount := (h.slab slab hmem).count_pos (Slab.object?_eq_some.mp hv)
    omega

/-- The slabs that `shrink_to_fit` leaves. -/
theorem Frame.shrink {p p' : RawOpaquePool α} (h : p.Frame) (hlayout : p'.slabLayout = p.slabLayout)
    (hp : p'.slabs = p.slabs.take (shrunkLen p.slabs)) : Rearranged p p' := by
  obtain ⟨hle, hempty⟩ := shrunkLen_spec p.slabs
  set n := shrunkLen p.slabs
  refine ⟨⟨fun slab hs => ?_, fun slab hs => ?_, ?_⟩, hlayout, ?_, ?_⟩
  · rw [hp] at hs
    rw [hlayout]
    exact h.layout slab (List.mem_of_mem_take hs)
  · rw [hp] at hs
    exact h.slab slab (List.mem_of_mem_take hs)
  · rw [hp, hlayout, List.length_take]
    exact lt_of_le_of_lt (Nat.mul_le_mul_right _ (Nat.min_le_right _ _)) h.memory
  · -- The dropped slabs count nothing.
    have hdrop : ((p.slabs.drop n).map Slab.len).sum = 0 := by
      rw [List.sum_eq_zero_iff]
      intro c hc
      obtain ⟨slab, hs, rfl⟩ := List.mem_map.mp hc
      obtain ⟨i, hi⟩ := List.mem_iff_getElem?.mp hs
      rw [List.getElem?_drop] at hi
      simpa [Slab.isEmpty, Slab.len] using hempty _ slab (Nat.le_add_right n i) hi
    have hsplit := congrArg (fun l => (l.map Slab.len).sum) (List.take_append_drop n p.slabs)
    simp only [List.map_append, List.sum_append, hdrop, add_zero] at hsplit
    rw [hp]
    exact hsplit
  · funext handle
    simp only [object?, hp]
    by_cases hlt : handle.slabIndex < n
    · rw [List.getElem?_take_of_lt hlt]
    · rw [List.getElem?_eq_none (by rw [List.length_take]; omega), Option.bind_none]
      symm
      rw [Option.bind_eq_none_iff]
      intro slab hslab
      exact (h.empty hslab (hempty _ slab (by omega) hslab)).2 handle.slabHandle

/-- `shrink_to_fit` drops slabs that hold no object. -/
theorem Inv.shrinkToFit {p : RawOpaquePool α} (h : p.Inv) :
    p.shrinkToFit.1 = .ok () ∧ Effect p p.shrinkToFit.2 p.object? := by
  obtain ⟨hle, hempty⟩ := shrunkLen_spec p.slabs
  rw [RawOpaquePool.shrinkToFit]
  by_cases heq : shrunkLen p.slabs = p.slabs.length
  · rw [if_pos heq]
    exact ⟨rfl, h.effect_self⟩
  · rw [if_neg heq]
    have hlen : (vacancies p.slabs).length = p.slabs.length := List.length_map _
    obtain ⟨tracker, hupd, htracks⟩ := h.tracks.shrink (n := shrunkLen p.slabs) (by omega) (by
      intro i hi hget
      rw [vacancies, List.getElem?_map] at hget
      obtain ⟨slab, hslab, hfull⟩ := Option.map_eq_some_iff.mp hget
      rw [(h.frame.empty hslab (hempty i slab hi hslab)).1] at hfull
      cases hfull)
    have htake : (p.slabs.take (shrunkLen p.slabs)).length = shrunkLen p.slabs := by
      rw [List.length_take]
      omega
    have hsame : Rearranged p ⟨p.slabLayout, p.slabs.take (shrunkLen p.slabs), p.length, tracker⟩ :=
      h.frame.shrink rfl rfl
    rw [updateSlabCount]
    dsimp only
    rw [htake, hupd]
    refine ⟨rfl, ⟨hsame.frame.layout, hsame.frame.slab, hsame.frame.memory,
      h.length.trans hsame.sum.symm, ?_⟩, rfl, hsame.objects⟩
    have hmap : vacancies (p.slabs.take (shrunkLen p.slabs)) =
        (vacancies p.slabs).take (shrunkLen p.slabs) := List.map_take
    dsimp only
    rw [hmap]
    exact htracks

/-! ## Inserting and removing -/

/-- A status update that is due keeps the tracker in step. -/
theorem Inv.updateSlabStatus {p : RawOpaquePool α} (h : p.Inv) {i : Nat} {slab slab' : Slab α}
    (hi : p.slabs[i]? = some slab) (hw : slab'.WellFormed) (hl : slab'.layout = slab.layout)
    {length : Nat} (hlen : length + slab.len = p.length + slab'.len) {v : Bool}
    (hv : slab.isFull = v) (hv' : slab'.isFull = !v) :
    ∃ tracker, RawOpaquePool.updateSlabStatus
        ⟨p.slabLayout, p.slabs.set i slab', length, p.vacancyTracker⟩ i v =
        (.ok (), ⟨p.slabLayout, p.slabs.set i slab', length, tracker⟩) ∧
      Inv ⟨p.slabLayout, p.slabs.set i slab', length, tracker⟩ := by
  obtain ⟨tracker, hupd, htracks⟩ := h.tracks.set (i := i) (v := v) (by
    rw [vacancies_getElem? hi, hv])
  refine ⟨tracker, by rw [RawOpaquePool.updateSlabStatus, hupd], h.set hi hw hl hlen ?_⟩
  rw [hv', Bool.not_not]
  exact htracks

/-- The pool after a slab that was not full has stored `v`. -/
theorem Inv.afterInsert {p : RawOpaquePool α} (h : p.Inv) {i n : Nat} {slab : Slab α}
    (hi : p.slabs[i]? = some slab) (hfull : slab.isFull = false)
    (hn : slab.slots[slab.nextFreeSlotIndex]? = some (.vacant n)) (v : α) :
    (p.afterInsert i (slab.occupy slab.nextFreeSlotIndex v n)).1 = .ok () ∧
      Effect p (p.afterInsert i (slab.occupy slab.nextFreeSlotIndex v n)).2
        (Function.update p.object? ⟨i, slab.nextFreeSlotIndex⟩ (some v)) := by
  have hw := (h.slab slab (List.mem_of_getElem? hi)).occupy hn v
  have hlt := (List.getElem?_eq_some_iff.mp hn).1
  set slab' := slab.occupy slab.nextFreeSlotIndex v n
  have hlen : p.length + 1 + slab.len = p.length + slab'.len := by
    simp only [slab', Slab.len, Slab.occupy]
    omega
  -- The new length counts slots of the pool, so it does not wrap.
  have hwrap : ∀ tracker, Inv ⟨p.slabLayout, p.slabs.set i slab', p.length + 1, tracker⟩ →
      wrappingAdd p.length 1 = p.length + 1 := by
    intro tracker hinv
    exact Nat.mod_eq_of_lt (lt_of_le_of_lt hinv.length_le hinv.capacity_eq.2)
  have hobjects : ∀ q : RawOpaquePool α, q.slabs = p.slabs.set i slab' →
      q.object? = Function.update p.object? ⟨i, slab.nextFreeSlotIndex⟩ (some v) :=
    fun q hq => object?_set hi hq (Slab.object?_occupy hlt v n)
  rw [RawOpaquePool.afterInsert]
  cases hf : slab'.isFull with
  | true =>
    rw [if_pos rfl]
    obtain ⟨tracker, hupd, hinv⟩ := h.updateSlabStatus hi hw rfl hlen hfull hf
    rw [hwrap tracker hinv, hupd]
    exact ⟨rfl, hinv, rfl, hobjects _ rfl⟩
  | false =>
    rw [if_neg (by simp)]
    have hinv := h.set hi hw rfl hlen (h.tracks_same hi (by rw [hfull, hf]))
    rw [hwrap _ hinv]
    exact ⟨rfl, hinv, rfl, hobjects _ rfl⟩

/-- An insertion stores the object in a vacant slot, or it panics with the
initializer, and then the objects are as before. -/
theorem Inv.insertWithUnchecked {p : RawOpaquePool α} (h : p.Inv) (f : Option α) :
    (p.insertWithUnchecked p.objectLayout f).1 = .error .allocation ∨
      ((p.insertWithUnchecked p.objectLayout f).1 = .error .initializer ∧
        Effect p (p.insertWithUnchecked p.objectLayout f).2 p.object?) ∨
      ∃ handle v, f = some v ∧ (p.insertWithUnchecked p.objectLayout f).1 = .ok handle ∧
        p.object? handle = none ∧
        Effect p (p.insertWithUnchecked p.objectLayout f).2
          (Function.update p.object? handle (some v)) := by
  rw [RawOpaquePool.insertWithUnchecked]
  have hindex := h.indexOfSlabToInsertInto
  generalize p.indexOfSlabToInsertInto = res at hindex ⊢
  obtain ⟨out, q⟩ := res
  rcases hindex with herr | ⟨i, slab, hi, hslab, hfull, heff⟩
  · obtain rfl : out = .error .allocation := herr
    exact Or.inl rfl
  · obtain rfl : out = .ok i := hi
    dsimp only at hslab heff ⊢
    rw [hslab]
    have hmem := List.mem_of_getElem? hslab
    have hlayout : p.objectLayout = slab.layout.objectLayout := by
      rw [heff.inv.layout slab hmem, heff.layout, objectLayout]
    obtain ⟨n, hn, hpanic, hok⟩ := (heff.inv.slab slab hmem).insertWithUnchecked hfull
    right
    rw [hlayout]
    cases f with
    | none =>
      left
      dsimp only
      rw [hpanic]
      have hself : q.slabs.set i slab = q.slabs := by
        obtain ⟨hlt, hget⟩ := List.getElem?_eq_some_iff.mp hslab
        rw [← hget, List.set_getElem_self]
      dsimp only
      rw [hself]
      exact ⟨rfl, heff⟩
    | some v =>
      right
      dsimp only
      rw [hok v]
      obtain ⟨hafter, heff'⟩ := heff.inv.afterInsert hslab hfull hn v
      dsimp only
      generalize q.afterInsert i _ = res at hafter heff' ⊢
      obtain ⟨out, q'⟩ := res
      obtain rfl : out = .ok () := hafter
      refine ⟨⟨i, slab.nextFreeSlotIndex⟩, v, rfl, rfl, ?_, heff'.inv,
        heff'.layout.trans heff.layout, ?_⟩
      · rw [← heff.objects]
        simp [object?, hslab, Slab.object?, hn]
      · rw [← heff.objects]
        exact heff'.objects

/-- The pool after a slab has let go of the slot of an object. -/
theorem Inv.afterRemove {p : RawOpaquePool α} (h : p.Inv) {i j : Nat} {slab : Slab α} {v : α}
    (hi : p.slabs[i]? = some slab) (hj : slab.slots[j]? = some (.occupied v)) :
    (p.afterRemove i (slab.release j)).1 = .ok () ∧
      Effect p (p.afterRemove i (slab.release j)).2 (Function.update p.object? ⟨i, j⟩ none) := by
  have hmem := List.mem_of_getElem? hi
  have hslab := h.slab slab hmem
  have hw := hslab.release hj
  have hlt := (List.getElem?_eq_some_iff.mp hj).1
  have hpos := hslab.count_pos hj
  have hle := hslab.count_le
  have hsum := sum_len_set hi (slab.release j)
  have hcap : slab.layout.capacity = p.slabLayout.capacity := by rw [h.layout slab hmem]
  have hlength : slab.len ≤ p.length := by
    rw [h.length]
    exact List.le_sum_of_mem (List.mem_map_of_mem hmem)
  have hwrap : wrappingSub p.length 1 = p.length - 1 := by
    have hbound := lt_of_le_of_lt h.length_le h.capacity_eq.2
    simp only [Slab.len] at hlength
    rw [wrappingSub, show p.length + (usizeSize - 1) = p.length - 1 + usizeSize by omega,
      Nat.add_mod_right, Nat.mod_eq_of_lt (by omega)]
  set slab' := slab.release j with hslab'
  have hcount : slab'.count = slab.count - 1 := rfl
  have hlen : p.length - 1 + slab.len = p.length + slab'.len := by
    simp only [Slab.len] at hlength ⊢
    omega
  have hobjects : ∀ q : RawOpaquePool α, q.slabs = p.slabs.set i slab' →
      q.object? = Function.update p.object? ⟨i, j⟩ none :=
    fun q hq => object?_set hi hq (Slab.object?_release hlt)
  have hnotFull : slab'.isFull = false := by
    have hl : slab'.layout = slab.layout := rfl
    simp only [Slab.isFull, hl, decide_eq_false_iff_not]
    omega
  rw [RawOpaquePool.afterRemove, hwrap]
  dsimp only
  by_cases hc : slab'.len = p.slabLayout.capacity - 1
  · rw [if_pos hc]
    have hfull : slab.isFull = true := by
      simp only [Slab.len] at hc
      simp only [Slab.isFull, decide_eq_true_eq]
      omega
    obtain ⟨tracker, hupd, hinv⟩ := h.updateSlabStatus hi hw rfl hlen hfull hnotFull
    rw [hupd]
    exact ⟨rfl, hinv, rfl, hobjects _ rfl⟩
  · rw [if_neg hc]
    have hfull : slab.isFull = false := by
      simp only [Slab.len] at hc
      simp only [Slab.isFull, decide_eq_false_iff_not]
      omega
    exact ⟨rfl, h.set hi hw rfl hlen (h.tracks_same hi (by rw [hfull, hnotFull])), rfl,
      hobjects _ rfl⟩

/-- What a handle to an object in the pool says about slab and slot. -/
theorem slot_of_object? {p : RawOpaquePool α} {handle : RawPooled} {v : α}
    (hv : p.object? handle = some v) : ∃ slab, p.slabs[handle.slabIndex]? = some slab ∧
      slab.slots[handle.slabHandle]? = some (.occupied v) := by
  obtain ⟨slab, hslab, hobj⟩ := object?_eq_some.mp hv
  exact ⟨slab, hslab, Slab.object?_eq_some.mp hobj⟩

/-- `remove` takes the object of a valid handle out of the pool. -/
theorem Inv.remove {p : RawOpaquePool α} (h : p.Inv) {handle : RawPooled} {v : α}
    (hv : p.object? handle = some v) {dropPanics : α → Bool} (hd : dropPanics v = false) :
    (p.remove dropPanics handle).1 = .ok () ∧
      Effect p (p.remove dropPanics handle).2 (Function.update p.object? handle none) := by
  obtain ⟨slab, hslab, hslot⟩ := slot_of_object? hv
  rw [RawOpaquePool.remove, hslab]
  dsimp only
  rw [Slab.remove, hslot]
  simp only [hd, Bool.false_eq_true, if_false]
  exact h.afterRemove hslab hslot

/-- `remove_unpin` takes it out and returns it. -/
theorem Inv.removeUnpin {p : RawOpaquePool α} (h : p.Inv) {handle : RawPooled} {v : α}
    (hv : p.object? handle = some v) :
    (p.removeUnpin handle).1 = .ok v ∧
      Effect p (p.removeUnpin handle).2 (Function.update p.object? handle none) := by
  obtain ⟨slab, hslab, hslot⟩ := slot_of_object? hv
  rw [RawOpaquePool.removeUnpin, hslab]
  dsimp only
  rw [Slab.removeUnpin, hslot]
  dsimp only
  obtain ⟨hafter, heff⟩ := h.afterRemove hslab hslot
  generalize p.afterRemove handle.slabIndex _ = res at hafter heff ⊢
  obtain ⟨out, q⟩ := res
  obtain rfl : out = .ok () := hafter
  exact ⟨rfl, heff⟩

end RawOpaquePool

end Folo.InfinityPool
