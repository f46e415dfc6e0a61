import Mathlib.Data.Fintype.Basic
import Folo.Regional.Cached

/-!
# When a region holds the latest value

A reader loads the latest value before it enters its attempt and stores it
whatever was written since. If all its stores come in time, that is, while the
value is the latest one or while a writer has yet to clear the slot, then every
slot with another value has a writer that will clear it. When no call is in
progress there is no such writer.
-/

namespace Folo.Regional.RegionCached

open Folo.Lib

variable {regionCount : Nat} {α T : Type} [DecidableEq T]

/-- The thread has marked the slot and has not stored to it yet. -/
def Pc.Attempts (region : Fin regionCount) (signal : Nat) : Pc regionCount α → Prop
  | .clone r _ a => r = region ∧ a = signal
  | .storeReady r _ a => r = region ∧ a = signal
  | .cleanupStore r a => r = region ∧ a = signal
  | _ => False

/-- The thread has stored a new latest value and will clear the slot. -/
def Pc.StillClears (region : Fin regionCount) : Pc regionCount α → Prop
  | .invalidate index none => index ≤ region
  | .clear r none => r ≤ region
  | _ => False

/-- The next step of the thread stores the value in the slot. -/
def Pc.StoresValue (region : Fin regionCount) (value : GenerationValue α) :
    Pc regionCount α → Prop
  | .storeReady r v _ => r = region ∧ v = value
  | _ => False

/-- The thread is writing. -/
def Pc.Writes : Pc regionCount α → Prop
  | .fetchGeneration _ => True
  | .storeLatest _ => True
  | .invalidate _ none => True
  | .clear _ none => True
  | _ => False

/-- What a step does to a slot. -/
structure SlotStep (region : Fin regionCount) (s s' : GlobalState regionCount α)
    (pc pc' : Pc regionCount α) : Prop where
  marked : ∀ signal, s'.regionalStates.value region = some (.initializing signal) →
    pc'.Attempts region signal ∨
      s.regionalStates.value region = some (.initializing signal) ∧
        (pc.Attempts region signal → pc'.Attempts region signal)
  ready : ∀ value, s'.regionalStates.value region = some (.ready value) →
    (pc.StoresValue region value ∨ s.regionalStates.value region = some (.ready value)) ∧
      (s'.latestValue = s.latestValue ∨ pc'.StillClears region) ∧
      (pc.StillClears region → pc'.StillClears region)

section Step

variable {region : Fin regionCount} {s s' : GlobalState regionCount α} {pc pc' : Pc regionCount α}
  {a : Act (Op regionCount α)}

theorem SlotStep.keep (hvalue : s'.regionalStates.value = s.regionalStates.value)
    (hlatest : s'.latestValue = s.latestValue)
    (hattempts : ∀ signal, pc.Attempts region signal → pc'.Attempts region signal)
    (hclears : s.regionalStates.value region ≠ none →
      pc.StillClears region → pc'.StillClears region) :
    SlotStep region s s' pc pc' where
  marked _ h := .inr ⟨hvalue ▸ h, hattempts _⟩
  ready _ h := ⟨.inr (hvalue ▸ h), .inl hlatest,
    hclears (hvalue ▸ fun hnone => nomatch hnone.symm.trans h)⟩

/-- A slot that is emptied has nothing, and the others are left alone. -/
theorem SlotStep.empty {r : Fin regionCount}
    (hvalue : s'.regionalStates = s.regionalStates.store r none)
    (hlatest : s'.latestValue = s.latestValue)
    (hattempts : ∀ signal, r ≠ region → ¬ pc.Attempts region signal)
    (hclears : r ≠ region → pc.StillClears region → pc'.StillClears region) :
    SlotStep region s s' pc pc' := by
  by_cases hr : r = region
  · subst hr
    have hnone : s'.regionalStates.value r = none := by
      rw [hvalue, RegionalStates.value_store_self]
    exact ⟨fun _ h => (nomatch hnone.symm.trans h), fun _ h => (nomatch hnone.symm.trans h)⟩
  · have hsame : s'.regionalStates.value region = s.regionalStates.value region := by
      rw [hvalue, RegionalStates.value_store_of_ne (Ne.symm hr)]
    exact ⟨fun _ h => .inr ⟨hsame ▸ h, fun hat => absurd hat (hattempts _ hr)⟩,
      fun _ h => ⟨.inr (hsame ▸ h), .inl hlatest, hclears hr⟩⟩

theorem checkGeneration_cases (r : Fin regionCount) (value : GenerationValue α)
    (actual : UInt64) :
    checkGeneration r value actual = .tryWithValue r ∨
      checkGeneration r value actual = .invalidate 0 (some r) := by
  unfold checkGeneration
  split
  · exact .inl rfl
  · exact .inr rfl

/-- A writer that goes on to the next slot has no slot to clear before it. -/
theorem stillClears_invalidateRegions {states : RegionalStates regionCount (GenerationValue α)}
    {index : Nat} {reader : Option (Fin regionCount)}
    (hempty : ∀ r, states.located r = false → states.value r = none)
    (hvalue : states.value region ≠ none)
    (h : (Pc.invalidate index reader : Pc regionCount α).StillClears region) :
    (invalidateRegions states index reader).StillClears region := by
  cases reader with
  | some r => exact h.elim
  | none =>
    replace h : index ≤ region := h
    rw [invalidateRegions, dif_pos (Nat.lt_of_le_of_lt h region.isLt)]
    split
    · exact h
    · next hnot =>
      -- the slot that is left out has no value
      have hne : index ≠ region := by
        intro heq
        subst heq
        exact hvalue (hempty _ (Bool.eq_false_iff.mpr hnot))
      show index + 1 ≤ region
      omega

/-- What the program does to a slot, one action after the other. -/
theorem act_slot (region : Fin regionCount) (hempty : ∀ r, s.regionalStates.located r = false →
      s.regionalStates.value r = none)
    (h : act pc a s = some (s', pc')) : SlotStep region s s' pc pc' := by
  have hinj : ∀ {x : GlobalState regionCount α} {p : Pc regionCount α},
      some (x, p) = some (s', pc') → x = s' ∧ p = pc' :=
    fun heq => Prod.mk.inj (Option.some.inj heq)
  unfold act at h
  split at h
  case h_1 | h_2 | h_4 | h_5 | h_7 | h_8 | h_17 | h_18 =>
    obtain ⟨rfl, rfl⟩ := hinj h
    exact .keep rfl rfl nofun nofun
  case h_3 | h_10 =>
    split at h
    · obtain ⟨rfl, rfl⟩ := hinj h
      exact .keep rfl rfl nofun nofun
    · exact nomatch h
  case h_6 | h_9 =>
    split at h <;>
    · obtain ⟨rfl, rfl⟩ := hinj h
      exact .keep rfl rfl nofun nofun
  case h_11 r value =>
    -- the swap marks the slot for the thread
    split at h
    · obtain ⟨rfl, rfl⟩ := hinj h
      by_cases hr : r = region
      · subst hr
        have hmark := RegionalStates.value_enter_self s.regionalStates r
        refine ⟨fun signal hsignal => .inl ?_, fun _ hready => nomatch hmark.symm.trans hready⟩
        exact ⟨rfl, RegionalValue.initializing.inj (Option.some.inj (hmark.symm.trans hsignal))⟩
      · have hsame : (s.regionalStates.enter r).value region = s.regionalStates.value region :=
          RegionalStates.value_enter_of_ne (Ne.symm hr)
        exact ⟨fun _ h => .inr ⟨hsame ▸ h, nofun⟩, fun _ h => ⟨.inr (hsame ▸ h), .inl rfl, nofun⟩⟩
    · obtain ⟨rfl, rfl⟩ := hinj h
      exact .keep rfl rfl nofun nofun
  case h_12 | h_13 =>
    obtain ⟨rfl, rfl⟩ := hinj h
    exact .keep rfl rfl (fun _ hat => hat) nofun
  case h_14 r value signal =>
    obtain ⟨rfl, rfl⟩ := hinj h
    by_cases hr : r = region
    · subst hr
      have hstored := RegionalStates.value_store_self s.regionalStates r (some (.ready value))
      refine ⟨fun _ hmark => (nomatch hstored.symm.trans hmark),
        fun v hready => ⟨.inl ⟨rfl, ?_⟩, .inl rfl, nofun⟩⟩
      exact RegionalValue.ready.inj (Option.some.inj (hstored.symm.trans hready))
    · have hsame : (s.regionalStates.store r (some (.ready value))).value region =
          s.regionalStates.value region :=
        RegionalStates.value_store_of_ne (Ne.symm hr)
      exact ⟨fun _ h => .inr ⟨hsame ▸ h, fun hat => absurd hat.1 hr⟩,
        fun _ h => ⟨.inr (hsame ▸ h), .inl rfl, nofun⟩⟩
  case h_15 r value signal =>
    obtain ⟨rfl, rfl⟩ := hinj h
    exact .keep rfl rfl nofun nofun
  case h_16 r signal =>
    obtain ⟨rfl, rfl⟩ := hinj h
    exact .empty rfl rfl (fun _ hr hat => hr hat.1) nofun
  case h_19 value =>
    -- from here on the writer will clear every slot
    obtain ⟨rfl, rfl⟩ := hinj h
    exact ⟨fun _ h => .inr ⟨h, nofun⟩, fun _ h => ⟨.inr h, .inr (Nat.zero_le _), nofun⟩⟩
  case h_20 index reader =>
    obtain ⟨rfl, rfl⟩ := hinj h
    exact .keep rfl rfl nofun (stillClears_invalidateRegions hempty)
  case h_21 r reader =>
    obtain ⟨rfl, rfl⟩ := hinj h
    refine .empty rfl rfl nofun fun hr hclears => ?_
    cases reader with
    | some _ => exact hclears.elim
    | none =>
      replace hclears : r.val ≤ region.val := hclears
      show r.val + 1 ≤ region.val
      have hne := Fin.val_ne_of_ne hr
      omega
  case h_22 => exact nomatch h

/-! ## Located slots -/

/-- The slots that the thread is at have been located. -/
def Pc.Located (located : Fin regionCount → Bool) : Pc regionCount α → Prop
  | .tryWithValue r | .loadLatest r | .initializing r _ | .wait r _ _ | .compareAndSwap r _
  | .clone r _ _ | .storeReady r _ _ | .setSignal r _ _ | .cleanupStore r _ => located r = true
  | .invalidate _ reader | .clear _ reader => ∀ r ∈ reader, located r = true
  | _ => True

/-- A slot that nothing has come to has no value. -/
def LocatedSlots (s : GlobalState regionCount α) : Prop :=
  ∀ r, s.regionalStates.located r = false → s.regionalStates.value r = none

theorem Pc.Located.mono {located located' : Fin regionCount → Bool} {pc : Pc regionCount α}
    (hmono : ∀ r, located r = true → located' r = true) (h : pc.Located located) :
    pc.Located located' := by
  cases pc <;> first
    | exact trivial
    | exact hmono _ h
    | exact fun r hr => hmono r (h r hr)

theorem LocatedSlots.store_none (h : LocatedSlots s) (r : Fin regionCount) :
    LocatedSlots { s with regionalStates := s.regionalStates.store r none } := by
  intro q hq
  by_cases hqr : q = r
  · rw [hqr]
    exact RegionalStates.value_store_self ..
  · exact (RegionalStates.value_store_of_ne hqr).trans (h q hq)

theorem LocatedSlots.keep (h : LocatedSlots s)
    (hlocated : s'.regionalStates.located = s.regionalStates.located)
    (hvalue : ∀ r, s.regionalStates.located r = false →
      s'.regionalStates.value r = s.regionalStates.value r) : LocatedSlots s' := by
  intro r hr
  rw [hlocated] at hr
  rw [hvalue r hr]
  exact h r hr

theorem located_checkGeneration {located : Fin regionCount → Bool} {r : Fin regionCount}
    {value : GenerationValue α} {actual : UInt64} (h : located r = true) :
    (checkGeneration r value actual).Located located := by
  rcases checkGeneration_cases r value actual with heq | heq
  · rw [heq]
    exact h
  · rw [heq]
    intro r' hr'
    obtain rfl := Option.some.inj hr'
    exact h

theorem act_located (hslots : LocatedSlots s) (hpc : pc.Located s.regionalStates.located)
    (h : act pc a s = some (s', pc')) :
    LocatedSlots s' ∧ pc'.Located s'.regionalStates.located ∧
      ∀ r, s.regionalStates.located r = true → s'.regionalStates.located r = true := by
  have hinj : ∀ {x : GlobalState regionCount α} {p : Pc regionCount α},
      some (x, p) = some (s', pc') → x = s' ∧ p = pc' :=
    fun heq => Prod.mk.inj (Option.some.inj heq)
  unfold act at h
  split at h
  case h_1 | h_2 | h_4 | h_7 | h_17 | h_18 =>
    obtain ⟨rfl, rfl⟩ := hinj h
    exact ⟨hslots, trivial, fun _ hr => hr⟩
  case h_3 =>
    split at h
    · next hloc =>
      obtain ⟨rfl, rfl⟩ := hinj h
      exact ⟨hslots, hloc, fun _ hr => hr⟩
    · exact nomatch h
  case h_5 r read =>
    -- the slot is located from now on
    obtain ⟨rfl, rfl⟩ := hinj h
    have hself : Function.update s.regionalStates.located r true r = true :=
      Function.update_self ..
    have hmono : ∀ q, s.regionalStates.located q = true →
        Function.update s.regionalStates.located r true q = true := by
      intro q hq
      by_cases hqr : q = r
      · rw [hqr]
        exact hself
      · rw [Function.update_of_ne hqr]
        exact hq
    refine ⟨fun q hq => hslots q (Bool.eq_false_iff.mpr fun hloc => ?_), ?_, hmono⟩
    · exact Bool.false_ne_true (hq.symm.trans (hmono q hloc))
    · cases read with
      | true => exact hself
      | false => exact trivial
  case h_6 r =>
    split at h <;>
    · obtain ⟨rfl, rfl⟩ := hinj h
      first
        | exact ⟨hslots, trivial, fun _ hr => hr⟩
        | exact ⟨hslots, hpc, fun _ hr => hr⟩
  case h_8 | h_12 | h_13 =>
    obtain ⟨rfl, rfl⟩ := hinj h
    exact ⟨hslots, hpc, fun _ hr => hr⟩
  case h_9 r value =>
    split at h <;> obtain ⟨rfl, rfl⟩ := hinj h
    · exact ⟨hslots, hpc, fun _ hr => hr⟩
    · exact ⟨hslots, located_checkGeneration hpc, fun _ hr => hr⟩
    · exact ⟨hslots, hpc, fun _ hr => hr⟩
  case h_10 r value signal =>
    split at h
    · obtain ⟨rfl, rfl⟩ := hinj h
      exact ⟨hslots, hpc, fun _ hr => hr⟩
    · exact nomatch h
  case h_11 r value =>
    split at h <;> obtain ⟨rfl, rfl⟩ := hinj h
    · refine ⟨hslots.keep rfl fun q hq => ?_, hpc, fun _ hr => hr⟩
      refine RegionalStates.value_enter_of_ne fun hqr => ?_
      subst hqr
      exact Bool.false_ne_true (hq.symm.trans hpc)
    · exact ⟨hslots, hpc, fun _ hr => hr⟩
  case h_14 r value signal =>
    obtain ⟨rfl, rfl⟩ := hinj h
    refine ⟨hslots.keep rfl fun q hq => ?_, hpc, fun _ hr => hr⟩
    refine RegionalStates.value_store_of_ne fun hqr => ?_
    subst hqr
    exact Bool.false_ne_true (hq.symm.trans hpc)
  case h_15 r value signal =>
    obtain ⟨rfl, rfl⟩ := hinj h
    exact ⟨hslots, located_checkGeneration hpc, fun _ hr => hr⟩
  case h_16 r signal =>
    obtain ⟨rfl, rfl⟩ := hinj h
    exact ⟨hslots.store_none r, trivial, fun _ hr => hr⟩
  case h_19 value =>
    obtain ⟨rfl, rfl⟩ := hinj h
    exact ⟨hslots, nofun, fun _ hr => hr⟩
  case h_20 index reader =>
    obtain ⟨rfl, rfl⟩ := hinj h
    refine ⟨hslots, ?_, fun _ hr => hr⟩
    unfold invalidateRegions
    split
    · split
      · exact hpc
      · exact hpc
    · split
      · exact hpc _ rfl
      · exact trivial
  case h_21 r reader =>
    obtain ⟨rfl, rfl⟩ := hinj h
    exact ⟨hslots.store_none r, hpc, fun _ hr => hr⟩
  case h_22 => exact nomatch h

end Step

section Runs

variable {initialValue : α} {σ : Threads (GlobalState regionCount α) (Pc regionCount α) T}
  {ok : Threads (GlobalState regionCount α) (Pc regionCount α) T →
    T × Act (Op regionCount α) → Prop}

theorem locatedSlots_of_reach (h : Machine.Reach (regionCached regionCount T initialValue) ok σ) :
    LocatedSlots σ.shared := by
  refine (threads_invariant (I := LocatedSlots)
    (L := fun _ pc s => pc.Located s.regionalStates.located) ?_ ?_ ?_ h).1
  · intro r _
    rfl
  · intro t
    exact trivial
  · intro σ t a s' pc' hslots hpc _ hact
    obtain ⟨hslots', hpc', hmono⟩ := act_located hslots (hpc t) hact
    exact ⟨hslots', hpc', fun u _ => (hpc u).mono hmono⟩

/-! ## Marks and values -/

/-- A mark is that of a thread that is still at it. -/
def Marked (σ : Threads (GlobalState regionCount α) (Pc regionCount α) T) : Prop :=
  ∀ region signal, σ.shared.regionalStates.value region = some (.initializing signal) →
    ∃ t, (σ.pc t).Attempts region signal

/-- A value that is not the latest will be cleared by a writer. -/
def Fresh (σ : Threads (GlobalState regionCount α) (Pc regionCount α) T) : Prop :=
  ∀ region value, σ.shared.regionalStates.value region = some (.ready value) →
    value.value = σ.shared.latestValue.value ∨ ∃ t, (σ.pc t).StillClears region

/-- A reader stores a value in time: it is still the latest, or a writer has
yet to clear the slot. -/
def StoresInTime (σ : Threads (GlobalState regionCount α) (Pc regionCount α) T)
    (l : T × Act (Op regionCount α)) : Prop :=
  match σ.pc l.1 with
  | .storeReady region value _ =>
    value.value = σ.shared.latestValue.value ∨ ∃ t, (σ.pc t).StillClears region
  | _ => True

omit [DecidableEq T] in
theorem StoresInTime.of_storesValue {l : T × Act (Op regionCount α)} {region : Fin regionCount}
    {value : GenerationValue α} (h : StoresInTime σ l)
    (hstores : (σ.pc l.1).StoresValue region value) :
    value.value = σ.shared.latestValue.value ∨ ∃ t, (σ.pc t).StillClears region := by
  unfold StoresInTime at h
  generalize σ.pc l.1 = pc at h hstores
  cases pc with
  | storeReady r v signal =>
    obtain ⟨rfl, rfl⟩ := hstores
    exact h
  | _ => exact hstores.elim

theorem marked_of_reach (h : Machine.Reach (regionCached regionCount T initialValue) ok σ) :
    Marked σ := by
  refine h.invariant (I := Marked) ?_ ?_
  · intro _ _ hmark
    cases hmark
  · intro σ l σ' hreach hmarked _ hs region signal hmark
    obtain ⟨hact, hother⟩ := threads_next.mp hs
    have hslot := act_slot region (locatedSlots_of_reach hreach) hact
    rcases hslot.marked signal hmark with hown | ⟨hold, hkeep⟩
    · exact ⟨l.1, hown⟩
    · obtain ⟨u, hu⟩ := hmarked region signal hold
      by_cases hut : u = l.1
      · exact ⟨l.1, hkeep (hut ▸ hu)⟩
      · exact ⟨u, hother u hut ▸ hu⟩

theorem fresh_of_reach
    (h : Machine.Reach (regionCached regionCount T initialValue) StoresInTime σ) : Fresh σ := by
  refine h.invariant (I := Fresh) ?_ ?_
  · intro _ _ hready
    cases hready
  · intro σ l σ' hreach hfresh hok hs region value hready
    obtain ⟨hact, hother⟩ := threads_next.mp hs
    have hslot := act_slot region (locatedSlots_of_reach hreach) hact
    obtain ⟨hvalue, hlatest, hkeep⟩ := hslot.ready value hready
    rcases hlatest with hlatest | hclears
    · rw [hlatest]
      -- it was stored in time, or it was there and was fresh
      refine (hvalue.elim hok.of_storesValue (hfresh region value)).imp_right fun ⟨u, hu⟩ => ?_
      by_cases hut : u = l.1
      · exact ⟨l.1, hkeep (hut ▸ hu)⟩
      · exact ⟨u, hother u hut ▸ hu⟩
    · exact .inr ⟨l.1, hclears⟩

end Runs

/-! ## A thread's own writes -/

section OwnWrites

variable {region : Fin regionCount} {s s' : GlobalState regionCount α} {pc pc' : Pc regionCount α}
  {a : Act (Op regionCount α)}

theorem Pc.StillClears.writes (h : pc.StillClears region) : pc.Writes := by
  unfold Pc.StillClears at h
  split at h
  · exact trivial
  · exact trivial
  · exact h.elim

/-- The thread has begun to write and has not stored the latest value yet. -/
def Pc.Publishes : Pc regionCount α → Prop
  | .fetchGeneration _ => True
  | .storeLatest _ => True
  | _ => False

/-- What a step that begins no write does to the latest value, and what a
reader gets. -/
inductive WriteStep (s s' : GlobalState regionCount α) : Pc regionCount α → Pc regionCount α → Prop
  | fetch (value : α) (hlatest : s'.latestValue = s.latestValue) :
    WriteStep s s' (.fetchGeneration value) (.storeLatest ⟨s.nextGeneration, value⟩)
  | publish (value : GenerationValue α) (hlatest : s'.latestValue = value) :
    WriteStep s s' (.storeLatest value) (.invalidate 0 none)
  | read (r : Fin regionCount) (value : GenerationValue α)
    (hready : s.regionalStates.value r = some (.ready value))
    (hlatest : s'.latestValue = s.latestValue) :
    WriteStep s s' (.tryWithValue r) (.returned value.value)
  | other {pc pc' : Pc regionCount α} (hlatest : s'.latestValue = s.latestValue)
    (hwrites : pc'.Writes → pc.Writes) (hbefore : ¬ pc.Publishes) (hafter : ¬ pc'.Publishes)
    (hreturned : ∀ value, pc' ≠ .returned value) : WriteStep s s' pc pc'

theorem writeStep_checkGeneration (r : Fin regionCount) (value : GenerationValue α)
    (actual : UInt64) (hlatest : s'.latestValue = s.latestValue)
    (hbefore : ¬ pc.Publishes) :
    WriteStep s s' pc (checkGeneration r value actual) := by
  rcases checkGeneration_cases r value actual with heq | heq <;>
  · rw [heq]
    exact .other hlatest nofun hbefore nofun nofun

theorem act_write (h : act pc a s = some (s', pc')) (hcall : ∀ v, a ≠ .call (.setGlobal v)) :
    WriteStep s s' pc pc' := by
  have hinj : ∀ {x : GlobalState regionCount α} {p : Pc regionCount α},
      some (x, p) = some (s', pc') → x = s' ∧ p = pc' :=
    fun heq => Prod.mk.inj (Option.some.inj heq)
  unfold act at h
  split at h
  case h_1 | h_2 | h_7 | h_8 | h_12 | h_13 | h_14 | h_16 | h_17 =>
    obtain ⟨rfl, rfl⟩ := hinj h
    exact .other rfl nofun nofun nofun nofun
  case h_3 | h_10 =>
    split at h
    · obtain ⟨rfl, rfl⟩ := hinj h
      exact .other rfl nofun nofun nofun nofun
    · exact nomatch h
  case h_4 value => exact absurd rfl (hcall value)
  case h_5 r read =>
    obtain ⟨rfl, rfl⟩ := hinj h
    cases read <;> exact .other rfl nofun nofun nofun nofun
  case h_6 r =>
    split at h
    · next value hready =>
      obtain ⟨rfl, rfl⟩ := hinj h
      exact .read r value hready rfl
    · obtain ⟨rfl, rfl⟩ := hinj h
      exact .other rfl nofun nofun nofun nofun
  case h_9 r value =>
    split at h <;> obtain ⟨rfl, rfl⟩ := hinj h
    · exact .other rfl nofun nofun nofun nofun
    · exact writeStep_checkGeneration r value _ rfl nofun
    · exact .other rfl nofun nofun nofun nofun
  case h_11 r value =>
    split at h <;>
    · obtain ⟨rfl, rfl⟩ := hinj h
      exact .other rfl nofun nofun nofun nofun
  case h_15 r value signal =>
    obtain ⟨rfl, rfl⟩ := hinj h
    exact writeStep_checkGeneration r value _ rfl nofun
  case h_18 value =>
    obtain ⟨rfl, rfl⟩ := hinj h
    exact .fetch value rfl
  case h_19 value =>
    obtain ⟨rfl, rfl⟩ := hinj h
    exact .publish value rfl
  case h_20 index reader =>
    obtain ⟨rfl, rfl⟩ := hinj h
    unfold invalidateRegions
    cases reader with
    | none =>
      split
      · split <;> exact .other rfl (fun _ => trivial) nofun nofun nofun
      · exact .other rfl nofun nofun nofun nofun
    | some r =>
      split
      · split <;> exact .other rfl nofun nofun nofun nofun
      · exact .other rfl nofun nofun nofun nofun
  case h_21 r reader =>
    obtain ⟨rfl, rfl⟩ := hinj h
    cases reader with
    | none => exact .other rfl (fun _ => trivial) nofun nofun nofun
    | some r => exact .other rfl nofun nofun nofun nofun
  case h_22 => exact nomatch h

variable {σ σ' : Threads (GlobalState regionCount α) (Pc regionCount α) T} {t : T} {value : α}

/-- The thread has begun to write the value, or has stored it as the latest,
and nobody else writes. -/
structure WritesAlone (t : T) (value : α)
    (σ : Threads (GlobalState regionCount α) (Pc regionCount α) T) : Prop where
  others : ∀ u, u ≠ t → ¬ (σ.pc u).Writes
  own : σ.pc t = .fetchGeneration value ∨
    (∃ generation, σ.pc t = .storeLatest ⟨generation, value⟩) ∨
    σ.shared.latestValue.value = value ∧ ¬ (σ.pc t).Publishes
  returned : ∀ got, σ.pc t = .returned got → got = value

theorem WritesAlone.next {initialValue : α} {l : T × Act (Op regionCount α)} (hfresh : Fresh σ)
    (h : WritesAlone t value σ) (hcall : ∀ v, l.2 ≠ .call (.setGlobal v))
    (hs : (regionCached regionCount T initialValue).next σ l = some σ') :
    WritesAlone t value σ' := by
  obtain ⟨hact, hother⟩ := threads_next.mp hs
  have hwrite := act_write hact hcall
  by_cases hlt : l.1 = t
  · subst hlt
    have hothers : ∀ u, u ≠ l.1 → ¬ (σ'.pc u).Writes := fun u hu => hother u hu ▸ h.others u hu
    have hown := h.own
    generalize hpc : σ.pc l.1 = pc at hwrite hown
    generalize hpc' : σ'.pc l.1 = pc' at hwrite
    cases hwrite with
    | fetch v hlatest =>
      rcases hown with heq | ⟨_, heq⟩ | ⟨_, hnot⟩
      · obtain rfl := Pc.fetchGeneration.inj heq
        exact ⟨hothers, .inr (.inl ⟨_, hpc'⟩), fun _ hret => nomatch hpc'.symm.trans hret⟩
      · exact nomatch heq
      · exact absurd trivial hnot
    | publish v hlatest =>
      rcases hown with heq | ⟨_, heq⟩ | ⟨_, hnot⟩
      · exact nomatch heq
      · obtain rfl := Pc.storeLatest.inj heq
        exact ⟨hothers, .inr (.inr ⟨by rw [hlatest], hpc' ▸ nofun⟩),
          fun _ hret => nomatch hpc'.symm.trans hret⟩
      · exact absurd trivial hnot
    | read r v hready hlatest =>
      rcases hown with heq | ⟨_, heq⟩ | ⟨heq, _⟩
      · exact nomatch heq
      · exact nomatch heq
      · refine ⟨hothers, .inr (.inr ⟨hlatest ▸ heq, hpc' ▸ nofun⟩), fun got hret => ?_⟩
        obtain rfl := Pc.returned.inj (hpc'.symm.trans hret)
        refine ((hfresh r v hready).resolve_right fun ⟨u, hu⟩ => ?_).trans heq
        by_cases hut : u = l.1
        · rw [hut, hpc] at hu
          exact hu
        · exact h.others u hut hu.writes
    | other hlatest hwrites hbefore hafter hreturned =>
      rcases hown with heq | ⟨_, heq⟩ | ⟨heq, _⟩
      · exact absurd (heq ▸ trivial) hbefore
      · exact absurd (heq ▸ trivial) hbefore
      · exact ⟨hothers, .inr (.inr ⟨hlatest ▸ heq, hpc' ▸ hafter⟩),
          fun got hret => absurd (hpc'.symm.trans hret) (hreturned got)⟩
  · -- another thread does not write, and goes on not writing
    have hquiet := h.others l.1 hlt
    obtain ⟨hlatest, hwrites⟩ : σ'.shared.latestValue = σ.shared.latestValue ∧
        ¬ (σ'.pc l.1).Writes := by
      generalize hpc : σ.pc l.1 = pc at hwrite hquiet
      generalize hpc' : σ'.pc l.1 = pc' at hwrite
      cases hwrite with
      | fetch v => exact absurd trivial hquiet
      | publish v => exact absurd trivial hquiet
      | read r v hready hlatest => exact ⟨hlatest, nofun⟩
      | other hlatest hwrites => exact ⟨hlatest, fun hw => hquiet (hwrites hw)⟩
    have hsame := hother t (Ne.symm hlt)
    refine ⟨fun u hu => ?_, ?_, ?_⟩
    · by_cases hul : u = l.1
      · rw [hul]
        exact hwrites
      · rw [hother u hul]
        exact h.others u hu
    · rw [hsame, hlatest]
      exact h.own
    · rw [hsame]
      exact h.returned

/-- A step in time that begins no write. -/
def ReadsInTime (σ : Threads (GlobalState regionCount α) (Pc regionCount α) T)
    (l : T × Act (Op regionCount α)) : Prop :=
  StoresInTime σ l ∧ ∀ v, l.2 ≠ .call (.setGlobal v)

theorem act_setGlobal (h : act pc (.call (.setGlobal value)) s = some (s', pc')) :
    pc = .idle ∧ s' = s ∧ pc' = .fetchGeneration value := by
  cases pc with
  | idle =>
    obtain ⟨rfl, rfl⟩ := Prod.mk.inj (Option.some.inj h)
    exact ⟨rfl, rfl, rfl⟩
  | _ => exact nomatch h

/-- If every value is stored in time, then whenever no call is in progress each
region has no value or the latest one; and a thread that writes a value while
nobody else writes gets that value. -/
theorem no_persistent_staleness {initialValue : α}
    (h : Machine.Reach (regionCached regionCount T initialValue) StoresInTime σ) :
    ((∀ t, σ.pc t = .idle) → ∀ region, σ.shared.regionalStates.value region = none ∨
      ∃ value, σ.shared.regionalStates.value region = some (.ready value) ∧
        value.value = σ.shared.latestValue.value) ∧
    ∀ t value σ₁ σ₂ got, (∀ u, ¬ (σ.pc u).Writes) →
      (regionCached regionCount T initialValue).next σ (t, .call (.setGlobal value)) = some σ₁ →
      Machine.Reach ((regionCached regionCount T initialValue).startAt σ₁) ReadsInTime σ₂ →
      σ₂.pc t = .returned got → got = value := by
  constructor
  · intro hidle region
    cases hslot : σ.shared.regionalStates.value region with
    | none => exact .inl rfl
    | some held =>
      cases held with
      | initializing signal =>
        obtain ⟨t, ht⟩ := marked_of_reach h region signal hslot
        rw [hidle t] at ht
        exact ht.elim
      | ready value =>
        refine .inr ⟨value, rfl, (fresh_of_reach h region value hslot).resolve_right ?_⟩
        intro ⟨t, ht⟩
        rw [hidle t] at ht
        exact ht
  · intro t value σ₁ σ₂ got hquiet hcall hrun hgot
    obtain ⟨hact, hother⟩ := threads_next.mp hcall
    obtain ⟨hidle, -, hfetch⟩ := act_setGlobal hact
    have hreach : Machine.Reach (regionCached regionCount T initialValue) StoresInTime σ₁ := by
      refine h.step ?_ hcall
      rw [StoresInTime, hidle]
      exact trivial
    have halone : WritesAlone t value σ₁ :=
      ⟨fun u hu => hother u hu ▸ hquiet u, .inl hfetch,
        fun _ hret => nomatch hfetch.symm.trans hret⟩
    have hboth : WritesAlone t value σ₂ := by
      refine hrun.invariant (I := WritesAlone t value) halone ?_
      intro σ l σ' hr halone hok hs
      have hs' : (regionCached regionCount T initialValue).next σ l = some σ' := hs
      exact halone.next (fresh_of_reach (hreach.trans (fun _ _ hok => hok.1) hr)) hok.2 hs'
    exact hboth.returned got hgot

end OwnWrites

/-- A thread that reads the value of a region, where nobody else does. -/
def readAlone {T : Type} (t : T) (region : Fin regionCount) :
    List (T × Act (Op regionCount α)) :=
  [(t, .call (.withCached region false)), (t, .step), (t, .step), (t, .step), (t, .step),
    (t, .step), (t, .call (.cloned false)), (t, .step), (t, .step), (t, .step)]

instance (region : Fin regionCount) (pc : Pc regionCount α) :
    Decidable (pc.StillClears region) := by
  cases pc with
  | invalidate index reader => cases reader <;> unfold Pc.StillClears <;> infer_instance
  | clear r reader => cases reader <;> unfold Pc.StillClears <;> infer_instance
  | _ => exact .isFalse fun h => h

instance {T : Type} [Fintype T] [DecidableEq α]
    (σ : Threads (GlobalState regionCount α) (Pc regionCount α) T)
    (l : T × Act (Op regionCount α)) : Decidable (StoresInTime σ l) := by
  unfold StoresInTime
  cases σ.pc l.1 <;> infer_instance

instance {T : Type} [Fintype T] [DecidableEq α]
    (σ : Threads (GlobalState regionCount α) (Pc regionCount α) T)
    (l : T × Act (Op regionCount α)) : Decidable (ReadsInTime σ l) := by
  refine @instDecidableAnd _ _ inferInstance ?_
  cases l.2 with
  | step => exact .isTrue nofun
  | call op =>
    cases op with
    | setGlobal v => exact .isFalse fun h => h v rfl
    | _ => exact .isTrue nofun

/-- What a thread does to write a value when no region has been located. -/
def writeAlone {T : Type} (t : T) : List (T × Act (Op 1 Nat)) :=
  [(t, .step), (t, .step), (t, .step), (t, .step)]

theorem writeAlone_seen : ∃ σ₁ σ₂ got,
    (regionCached 1 (Fin 2) 0).next (regionCached 1 (Fin 2) 0).init
      (0, .call (.setGlobal 5)) = some σ₁ ∧
    (((regionCached 1 (Fin 2) 0).startAt σ₁).restrict ReadsInTime).run
      (writeAlone 0 ++ readAlone 0 0) = some σ₂ ∧
    σ₂.pc 0 = .returned got ∧ got = 5 := by
  obtain ⟨σ₁, σ₂, got, hcall, hrun, hgot⟩ : ∃ σ₁ σ₂ got,
      (regionCached 1 (Fin 2) 0).next (regionCached 1 (Fin 2) 0).init
        (0, .call (.setGlobal 5)) = some σ₁ ∧
      (((regionCached 1 (Fin 2) 0).startAt σ₁).restrict ReadsInTime).run
        (writeAlone 0 ++ readAlone 0 0) = some σ₂ ∧
      σ₂.pc 0 = .returned got :=
    ⟨_, _, _, rfl, rfl, rfl⟩
  refine ⟨σ₁, σ₂, got, hcall, hrun, hgot, ?_⟩
  exact (no_persistent_staleness Machine.Reach.init).2 0 5 σ₁ σ₂ got (fun _ h => h) hcall
    (Machine.reach_of_run_restrict hrun) hgot

/-- The first reader of a region is about to store the initial value when
another thread writes 1. -/
def staleRun : List (Fin 2 × Act (Op 1 Nat)) :=
  (readAlone 0 0).take 7 ++
    [(1, Act.call (Op.setGlobal 1)), (1, .step), (1, .step), (1, .step), (1, .step), (1, .step)] ++
    (readAlone 0 0).drop 7 ++ [(0, Act.step)]

/-- All calls are done, and the region has the initial value for good. -/
theorem staleRun_stale :
    (∃ σ, (regionCached 1 (Fin 2) 0).run staleRun = some σ ∧ (∀ t, σ.pc t = .idle) ∧
      σ.shared.regionalStates.value 0 = some (.ready ⟨0, 0⟩) ∧
      σ.shared.latestValue.value = 1) ∧
    ¬ ∀ σ, (regionCached 1 (Fin 2) 0).Reachable σ → (∀ t, σ.pc t = .idle) →
      ∀ region, σ.shared.regionalStates.value region = none ∨
        ∃ value, σ.shared.regionalStates.value region = some (.ready value) ∧
          value.value = σ.shared.latestValue.value := by
  have hstale : ∃ σ, (regionCached 1 (Fin 2) 0).run staleRun = some σ ∧
      (∀ t, σ.pc t = .idle) ∧ σ.shared.regionalStates.value 0 = some (.ready ⟨0, 0⟩) ∧
      σ.shared.latestValue.value = 1 :=
    ⟨_, rfl, by decide, rfl, rfl⟩
  refine ⟨hstale, fun h => ?_⟩
  obtain ⟨σ, hrun, hidle, hslot, hlatest⟩ := hstale
  rcases h σ (Machine.reachable_of_run hrun) hidle 0 with hnone | ⟨value, hready, heq⟩
  · exact nomatch hslot.symm.trans hnone
  · obtain rfl := RegionalValue.ready.inj (Option.some.inj (hslot.symm.trans hready))
    exact nomatch heq.trans hlatest

end Folo.Regional.RegionCached
