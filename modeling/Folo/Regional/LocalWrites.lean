import Mathlib.Data.Fintype.Basic
import Folo.Regional.Local

/-!
# When a write is kept

The last store of an attempt, of the value of the initializer or of nothing
after a panic, looks at nothing. As long as it finds the mark of its own
attempt, no write has come between, and a region that was written once has a
written value from then on.

Whoever waits for an attempt waits for a thread that is still at it.
-/

namespace Folo.Regional.RegionLocal

open Folo.Lib

variable {regionCount : Nat} {α T : Type}

/-! ## One step -/

/-- The thread is in a `set_local` to the region and has not stored yet. -/
def Pc.WritesTo (region : Fin regionCount) : Pc regionCount α → Prop
  | .locate r (.set _) => r = region
  | .set r _ => r = region
  | _ => False

/-- The thread is in the attempt with the signal, which it will set. -/
def Pc.Signals (signal : Nat) : Pc regionCount α → Prop
  | .initializer _ a => a = signal
  | .storeReady _ _ a => a = signal
  | .setSignal _ a => a = signal
  | .cleanupStore _ a => a = signal
  | .cleanupSet a => a = signal
  | _ => False

/-- What a step does to a slot. -/
inductive SlotStep (region : Fin regionCount) (s s' : RegionalStates regionCount α) :
    Pc regionCount α → Pc regionCount α → Prop
  | set (value : α) (hvalue : s'.value region = some (.ready value)) :
    SlotStep region s s' (.set region value) .idle
  | ready (value : α) (signal : Nat) (hvalue : s'.value region = some (.ready value)) :
    SlotStep region s s' (.storeReady region value signal) (.setSignal region signal)
  | cleanup (signal : Nat) (hvalue : s'.value region = none) :
    SlotStep region s s' (.cleanupStore region signal) (.cleanupSet signal)
  | enter (hempty : s.value region = none)
    (hvalue : s'.value region = some (.initializing s.nextSignal)) :
    SlotStep region s s' (.compareAndSwap region) (.initializer region s.nextSignal)
  | begin (value : α) (hvalue : s'.value region = s.value region) :
    SlotStep region s s' .idle (.locate region (.set value))
  | locate (value : α) (hvalue : s'.value region = s.value region) :
    SlotStep region s s' (.locate region (.set value)) (.set region value)
  | read (value : α) (hvalue : s'.value region = s.value region)
    (hready : s.value region = some (.ready value)) :
    SlotStep region s s' (.tryWithValue region) (.returned region value)
  /-- Nothing is done with the slot. -/
  | other {pc pc' : Pc regionCount α} (hvalue : s'.value region = s.value region)
    (hbefore : ¬ pc.WritesTo region) (hafter : ¬ pc'.WritesTo region)
    (hread : ∀ value, pc' ≠ .returned region value) : SlotStep region s s' pc pc'

section Step

variable {region : Fin regionCount} {s s' : RegionalStates regionCount α}
  {pc pc' : Pc regionCount α} {a : Act (Op regionCount α)}

theorem act_slot (region : Fin regionCount) (h : act pc a s = some (s', pc')) :
    SlotStep region s s' pc pc' := by
  have hinj : ∀ {x : RegionalStates regionCount α} {p : Pc regionCount α},
      some (x, p) = some (s', pc') → x = s' ∧ p = pc' :=
    fun heq => Prod.mk.inj (Option.some.inj heq)
  unfold act at h
  split at h
  case h_1 | h_2 | h_7 | h_11 | h_12 | h_14 | h_16 =>
    obtain ⟨rfl, rfl⟩ := hinj h
    exact .other rfl nofun nofun nofun
  case h_3 | h_9 =>
    split at h
    · obtain ⟨rfl, rfl⟩ := hinj h
      exact .other rfl nofun nofun nofun
    · exact nomatch h
  case h_4 r value =>
    obtain ⟨rfl, rfl⟩ := hinj h
    by_cases hr : r = region
    · subst hr
      exact .begin value rfl
    · exact .other rfl nofun hr nofun
  case h_5 r purpose =>
    obtain ⟨rfl, rfl⟩ := hinj h
    cases purpose with
    | acquire => exact .other rfl nofun nofun nofun
    | read => exact .other rfl nofun nofun nofun
    | set value =>
      by_cases hr : r = region
      · subst hr
        exact .locate value rfl
      · exact .other rfl hr hr nofun
  case h_6 r =>
    split at h
    · next value hready =>
      obtain ⟨rfl, rfl⟩ := hinj h
      by_cases hr : r = region
      · subst hr
        exact .read value rfl hready
      · exact .other rfl nofun nofun fun _ heq => hr (Pc.returned.inj heq).1
    · obtain ⟨rfl, rfl⟩ := hinj h
      exact .other rfl nofun nofun nofun
  case h_8 r =>
    split at h <;>
    · obtain ⟨rfl, rfl⟩ := hinj h
      exact .other rfl nofun nofun nofun
  case h_10 r =>
    split at h
    · next hempty =>
      obtain ⟨rfl, rfl⟩ := hinj h
      by_cases hr : r = region
      · subst hr
        exact .enter hempty (RegionalStates.value_enter_self ..)
      · exact .other (RegionalStates.value_enter_of_ne (Ne.symm hr)) nofun nofun nofun
    · obtain ⟨rfl, rfl⟩ := hinj h
      exact .other rfl nofun nofun nofun
  case h_13 r value signal =>
    obtain ⟨rfl, rfl⟩ := hinj h
    by_cases hr : r = region
    · subst hr
      exact .ready value signal (RegionalStates.value_store_self ..)
    · exact .other (RegionalStates.value_store_of_ne (Ne.symm hr)) nofun nofun nofun
  case h_15 r signal =>
    obtain ⟨rfl, rfl⟩ := hinj h
    by_cases hr : r = region
    · subst hr
      exact .cleanup signal (RegionalStates.value_store_self ..)
    · exact .other (RegionalStates.value_store_of_ne (Ne.symm hr)) nofun nofun nofun
  case h_17 r value =>
    obtain ⟨rfl, rfl⟩ := hinj h
    by_cases hr : r = region
    · subst hr
      exact .set value (RegionalStates.value_store_self ..)
    · exact .other (RegionalStates.value_store_of_ne (Ne.symm hr)) hr nofun nofun
  case h_18 => exact nomatch h

theorem act_begin {value : α} (h : act pc a s = some (s', .locate region (.set value)))
    (hpc : pc = .idle) : a = .call (.setLocal region value) := by
  subst hpc
  cases a with
  | step => exact nomatch h
  | call op =>
    cases op with
    | setLocal r v =>
      obtain ⟨rfl, hset⟩ := Pc.locate.inj (Prod.mk.inj (Option.some.inj h)).2
      obtain rfl := Purpose.set.inj hset
      rfl
    | withLocal r located =>
      cases located with
      | false => exact nomatch (Pc.locate.inj (Prod.mk.inj (Option.some.inj h)).2).2
      | true =>
        rw [act] at h
        split at h
        · exact nomatch (Prod.mk.inj (Option.some.inj h)).2
        · exact nomatch h
    | acquire r => exact nomatch (Pc.locate.inj (Prod.mk.inj (Option.some.inj h)).2).2
    | initialized value => exact nomatch h

end Step

section Runs

variable [DecidableEq T] {σ σ' : Threads (RegionalStates regionCount α) (Pc regionCount α) T}
  {values : Fin regionCount → List α} {region : Fin regionCount} {value : α} {t : T}

/-- The last store of an attempt finds the mark of the attempt. -/
def StoresOverMark (σ : Threads (RegionalStates regionCount α) (Pc regionCount α) T)
    (l : T × Act (Op regionCount α)) : Prop :=
  match σ.pc l.1 with
  | .storeReady r _ signal => σ.shared.value r = some (.initializing signal)
  | .cleanupStore r signal => σ.shared.value r = some (.initializing signal)
  | _ => True

/-! ## What was written stays -/

/-- A region that was written has a value that was written. -/
def KeepsWrites (p : Threads (RegionalStates regionCount α) (Pc regionCount α) T ×
    (Fin regionCount → List α)) : Prop :=
  ∀ region, p.2 region ≠ [] → ∃ value ∈ p.2 region,
    p.1.shared.value region = some (.ready value)

theorem record_of_ne {values : Fin regionCount → List α} {pc : Pc regionCount α}
    (hpc : ∀ value, pc ≠ .set region value) : pc.record values region = values region := by
  cases pc with
  | set r v =>
    have hr : region ≠ r := fun heq => hpc v (heq ▸ rfl)
    exact Function.update_of_ne hr ..
  | _ => rfl

theorem keepsWrites_of_reach {p : Threads (RegionalStates regionCount α) (Pc regionCount α) T ×
      (Fin regionCount → List α)}
    (h : Machine.Reach ((regionLocal regionCount α T).observe written)
      (fun p l => StoresOverMark p.1 l) p) : KeepsWrites p := by
  refine h.invariant (I := KeepsWrites) (fun r hne => absurd rfl hne) ?_
  intro p l p' _ hkeeps hok hs region
  obtain ⟨hnext, hwritten⟩ := Machine.observe_next.mp hs
  have hslot := act_slot region (threads_next.mp hnext).1
  replace hwritten : p'.2 = (p.1.pc l.1).record p.2 := hwritten
  rw [hwritten]
  have hsame : (∀ value, p.1.pc l.1 ≠ .set region value) →
      p'.1.shared.value region = p.1.shared.value region →
      (p.1.pc l.1).record p.2 region ≠ [] → ∃ value ∈ (p.1.pc l.1).record p.2 region,
        p'.1.shared.value region = some (.ready value) := by
    intro hpc hvalue hne
    rw [record_of_ne hpc] at hne ⊢
    rw [hvalue]
    exact hkeeps region hne
  rw [StoresOverMark] at hok
  generalize p.1.pc l.1 = pc at hok hslot hsame
  generalize p'.1.pc l.1 = pc' at hslot
  intro hne
  have hmarked : ∀ signal, p.1.shared.value region = some (.initializing signal) →
      (∀ value, pc ≠ .set region value) → False := by
    intro signal hmark hpc
    rw [record_of_ne hpc] at hne
    obtain ⟨_, _, hready⟩ := hkeeps region hne
    exact nomatch hmark.symm.trans hready
  cases hslot with
  | set value hvalue =>
    refine ⟨value, ?_, hvalue⟩
    rw [Pc.record, Function.update_self]
    exact List.mem_append_right _ (List.mem_singleton_self value)
  | ready value signal hvalue => exact (hmarked signal hok nofun).elim
  | cleanup signal hvalue => exact (hmarked signal hok nofun).elim
  | enter hempty hvalue =>
    obtain ⟨_, _, hready⟩ := hkeeps region hne
    exact nomatch hempty.symm.trans hready
  | begin value hvalue => exact hsame nofun hvalue hne
  | locate value hvalue => exact hsame nofun hvalue hne
  | read value hvalue => exact hsame nofun hvalue hne
  | other hvalue hbefore => exact hsame (fun v hpc => hbefore (hpc ▸ rfl)) hvalue hne

/-! ## A thread's own writes -/

/-- The thread has begun to write the value, or the region has it, and nobody
else writes to the region. -/
structure WritesAlone (t : T) (region : Fin regionCount) (value : α)
    (σ : Threads (RegionalStates regionCount α) (Pc regionCount α) T) : Prop where
  others : ∀ u, u ≠ t → ¬ (σ.pc u).WritesTo region
  own : σ.pc t = .locate region (.set value) ∨ σ.pc t = .set region value ∨
    σ.shared.value region = some (.ready value) ∧ ¬ (σ.pc t).WritesTo region
  returned : ∀ got, σ.pc t = .returned region got → got = value

theorem WritesAlone.next {l : T × Act (Op regionCount α)} (h : WritesAlone t region value σ)
    (hok : StoresOverMark σ l) (hcall : ∀ v, l.2 ≠ .call (.setLocal region v))
    (hs : (regionLocal regionCount α T).next σ l = some σ') : WritesAlone t region value σ' := by
  obtain ⟨hact, hother⟩ := threads_next.mp hs
  have hslot := act_slot region hact
  rw [StoresOverMark] at hok
  by_cases hlt : l.1 = t
  · subst hlt
    have hothers : ∀ u, u ≠ l.1 → ¬ (σ'.pc u).WritesTo region :=
      fun u hu => hother u hu ▸ h.others u hu
    have hown := h.own
    generalize hpc : σ.pc l.1 = pc at hok hslot hown hact
    generalize hpc' : σ'.pc l.1 = pc' at hslot hact
    cases hslot with
    | set v hvalue =>
      rcases hown with heq | heq | ⟨_, hnot⟩
      · exact nomatch heq
      · obtain rfl := (Pc.set.inj heq).2
        exact ⟨hothers, .inr (.inr ⟨hvalue, hpc' ▸ nofun⟩),
          fun _ hret => nomatch hpc'.symm.trans hret⟩
      · exact absurd rfl hnot
    | ready v signal hvalue =>
      rcases hown with heq | heq | ⟨hready, _⟩
      · exact nomatch heq
      · exact nomatch heq
      · exact nomatch hok.symm.trans hready
    | cleanup signal hvalue =>
      rcases hown with heq | heq | ⟨hready, _⟩
      · exact nomatch heq
      · exact nomatch heq
      · exact nomatch hok.symm.trans hready
    | enter hempty hvalue =>
      rcases hown with heq | heq | ⟨hready, _⟩
      · exact nomatch heq
      · exact nomatch heq
      · exact nomatch hempty.symm.trans hready
    | begin v hvalue => exact absurd (act_begin hact rfl) (hcall v)
    | locate v hvalue =>
      rcases hown with heq | heq | ⟨_, hnot⟩
      · obtain rfl := Purpose.set.inj (Pc.locate.inj heq).2
        exact ⟨hothers, .inr (.inl hpc'), fun _ hret => nomatch hpc'.symm.trans hret⟩
      · exact nomatch heq
      · exact absurd rfl hnot
    | read v hvalue hread =>
      rcases hown with heq | heq | ⟨hready, _⟩
      · exact nomatch heq
      · exact nomatch heq
      · refine ⟨hothers, .inr (.inr ⟨hvalue.trans hready, hpc' ▸ nofun⟩), fun got hret => ?_⟩
        obtain rfl := (Pc.returned.inj (hpc'.symm.trans hret)).2
        exact RegionalValue.ready.inj (Option.some.inj (hread.symm.trans hready))
    | other hvalue hbefore hafter hread =>
      rcases hown with heq | heq | ⟨hready, _⟩
      · exact absurd (heq ▸ rfl) hbefore
      · exact absurd (heq ▸ rfl) hbefore
      · exact ⟨hothers, .inr (.inr ⟨hvalue.trans hready, hpc' ▸ hafter⟩),
          fun got hret => absurd (hpc'.symm.trans hret) (hread got)⟩
  · -- another thread does not write to the region, and does not take the value away
    obtain ⟨hkept, hquiet⟩ : (σ.shared.value region = some (.ready value) →
        σ'.shared.value region = some (.ready value)) ∧ ¬ (σ'.pc l.1).WritesTo region := by
      have hquiet := h.others l.1 hlt
      generalize σ.pc l.1 = pc at hok hslot hquiet hact
      generalize σ'.pc l.1 = pc' at hslot hact
      cases hslot with
      | set v hvalue => exact absurd rfl hquiet
      | ready v signal hvalue => exact ⟨fun hready => (nomatch hok.symm.trans hready), nofun⟩
      | cleanup signal hvalue => exact ⟨fun hready => (nomatch hok.symm.trans hready), nofun⟩
      | enter hempty hvalue => exact ⟨fun hready => (nomatch hempty.symm.trans hready), nofun⟩
      | begin v hvalue => exact absurd (act_begin hact rfl) (hcall v)
      | locate v hvalue => exact absurd rfl hquiet
      | read v hvalue => exact ⟨hvalue.trans, nofun⟩
      | other hvalue hbefore hafter => exact ⟨hvalue.trans, hafter⟩
    have hsame := hother t (Ne.symm hlt)
    refine ⟨fun u hu => ?_, ?_, ?_⟩
    · by_cases hul : u = l.1
      · rw [hul]
        exact hquiet
      · rw [hother u hul]
        exact h.others u hu
    · rw [hsame]
      exact h.own.imp_right (Or.imp_right (And.imp_left hkept))
    · rw [hsame]
      exact h.returned

end Runs

/-! ## Who waits for what -/

section Signals

variable {s s' : RegionalStates regionCount α} {pc pc' : Pc regionCount α}
  {a : Act (Op regionCount α)}

/-- The signal that a thread waits for or is to set has been made. -/
def Pc.Knows (nextSignal : Nat) : Pc regionCount α → Prop
  | .wait _ signal | .initializer _ signal | .storeReady _ _ signal | .setSignal _ signal
  | .cleanupStore _ signal | .cleanupSet signal => signal < nextSignal
  | _ => True

theorem Pc.Knows.mono {n m : Nat} (hle : n ≤ m) (h : pc.Knows n) : pc.Knows m := by
  cases pc <;> first
    | exact trivial
    | exact Nat.lt_of_lt_of_le h hle

/-- The signals of the marks have been made. -/
def MarksKnown (s : RegionalStates regionCount α) : Prop :=
  ∀ region signal, s.value region = some (.initializing signal) → signal < s.nextSignal

/-- What a step does to the signals. -/
structure SignalStep (s s' : RegionalStates regionCount α) (pc pc' : Pc regionCount α) : Prop where
  marks : MarksKnown s'
  knows : pc'.Knows s'.nextSignal
  le : s.nextSignal ≤ s'.nextSignal
  /-- A signal that is not set has a thread that will set it, as before. -/
  unset : ∀ signal, signal < s'.nextSignal → s'.isSet signal = false → pc'.Signals signal ∨
    signal < s.nextSignal ∧ s.isSet signal = false ∧ (pc.Signals signal → pc'.Signals signal)

theorem SignalStep.keep (hmarks : MarksKnown s) (hknows : pc'.Knows s.nextSignal)
    (hsignals : ∀ signal, pc.Signals signal → pc'.Signals signal) : SignalStep s s pc pc' where
  marks := hmarks
  knows := hknows
  le := Nat.le_refl _
  unset _ hlt hset := .inr ⟨hlt, hset, hsignals _⟩

theorem SignalStep.store {region : Fin regionCount} {value : Option (RegionalValue α)}
    (hmarks : MarksKnown s) (hvalue : ∀ signal, value ≠ some (.initializing signal))
    (hknows : pc'.Knows s.nextSignal)
    (hsignals : ∀ signal, pc.Signals signal → pc'.Signals signal) :
    SignalStep s (s.store region value) pc pc' where
  marks := by
    intro r signal hmark
    by_cases hr : r = region
    · subst hr
      rw [RegionalStates.value_store_self] at hmark
      exact absurd hmark (hvalue signal)
    · rw [RegionalStates.value_store_of_ne hr] at hmark
      exact hmarks r signal hmark
  knows := hknows
  le := Nat.le_refl _
  unset _ hlt hset := .inr ⟨hlt, hset, hsignals _⟩

theorem SignalStep.set {signal : Nat} (hmarks : MarksKnown s) (hknows : pc'.Knows s.nextSignal)
    (hpc : ∀ other, pc.Signals other → other = signal) :
    SignalStep s (s.setSignal signal) pc pc' where
  marks := hmarks
  knows := hknows
  le := Nat.le_refl _
  unset other hlt hset := by
    have hne : other ≠ signal := by
      intro heq
      rw [heq] at hset
      exact Bool.false_ne_true (hset.symm.trans (Function.update_self ..))
    refine .inr ⟨hlt, ?_, fun hother => absurd (hpc other hother) hne⟩
    exact (Function.update_of_ne hne ..).symm.trans hset

/-- The swap makes a signal, which is that of the thread. -/
theorem SignalStep.enter {region : Fin regionCount} (hmarks : MarksKnown s) :
    SignalStep s (s.enter region) (.compareAndSwap region)
      (.initializer region s.nextSignal) where
  marks := by
    intro r signal hmark
    by_cases hr : r = region
    · subst hr
      rw [RegionalStates.value_enter_self] at hmark
      obtain rfl := RegionalValue.initializing.inj (Option.some.inj hmark)
      exact Nat.lt_succ_self _
    · rw [RegionalStates.value_enter_of_ne hr] at hmark
      exact Nat.lt_succ_of_lt (hmarks r signal hmark)
  knows := Nat.lt_succ_self _
  le := Nat.le_succ _
  unset signal hlt hset := by
    by_cases hnew : signal = s.nextSignal
    · exact .inl hnew.symm
    · refine .inr ⟨?_, (Function.update_of_ne hnew ..).symm.trans hset, nofun⟩
      replace hlt : signal < s.nextSignal + 1 := hlt
      omega

theorem act_signal (hmarks : MarksKnown s) (hknows : pc.Knows s.nextSignal)
    (h : act pc a s = some (s', pc')) : SignalStep s s' pc pc' := by
  have hinj : ∀ {x : RegionalStates regionCount α} {p : Pc regionCount α},
      some (x, p) = some (s', pc') → x = s' ∧ p = pc' :=
    fun heq => Prod.mk.inj (Option.some.inj heq)
  unfold act at h
  split at h
  case h_1 | h_2 | h_4 | h_7 =>
    obtain ⟨rfl, rfl⟩ := hinj h
    exact .keep hmarks trivial nofun
  case h_3 | h_9 =>
    split at h
    · obtain ⟨rfl, rfl⟩ := hinj h
      exact .keep hmarks trivial nofun
    · exact nomatch h
  case h_5 r purpose =>
    obtain ⟨rfl, rfl⟩ := hinj h
    exact ⟨hmarks, by cases purpose <;> exact trivial, Nat.le_refl _,
      fun _ hlt hset => .inr ⟨hlt, hset, nofun⟩⟩
  case h_6 r =>
    split at h <;>
    · obtain ⟨rfl, rfl⟩ := hinj h
      exact .keep hmarks trivial nofun
  case h_8 r =>
    split at h
    · next signal hmark =>
      obtain ⟨rfl, rfl⟩ := hinj h
      exact .keep hmarks (hmarks r signal hmark) nofun
    · obtain ⟨rfl, rfl⟩ := hinj h
      exact .keep hmarks trivial nofun
    · obtain ⟨rfl, rfl⟩ := hinj h
      exact .keep hmarks trivial nofun
  case h_10 r =>
    split at h
    · obtain ⟨rfl, rfl⟩ := hinj h
      exact .enter hmarks
    · obtain ⟨rfl, rfl⟩ := hinj h
      exact .keep hmarks trivial nofun
  case h_11 | h_12 =>
    obtain ⟨rfl, rfl⟩ := hinj h
    exact .keep hmarks hknows fun _ hsignal => hsignal
  case h_13 | h_15 =>
    obtain ⟨rfl, rfl⟩ := hinj h
    exact .store hmarks nofun hknows fun _ hsignal => hsignal
  case h_14 | h_16 =>
    obtain ⟨rfl, rfl⟩ := hinj h
    exact .set hmarks trivial fun _ hsignal => hsignal.symm
  case h_17 r value =>
    obtain ⟨rfl, rfl⟩ := hinj h
    exact .store hmarks nofun trivial nofun
  case h_18 => exact nomatch h

end Signals

section Runs

variable [DecidableEq T] {σ σ' : Threads (RegionalStates regionCount α) (Pc regionCount α) T}
  {ok : Threads (RegionalStates regionCount α) (Pc regionCount α) T →
    T × Act (Op regionCount α) → Prop}

theorem known_of_reach (h : Machine.Reach (regionLocal regionCount α T) ok σ) :
    MarksKnown σ.shared ∧ ∀ t, (σ.pc t).Knows σ.shared.nextSignal := by
  refine threads_invariant (I := MarksKnown) (L := fun _ pc s => pc.Knows s.nextSignal) ?_ ?_ ?_ h
  · intro region signal hmark
    cases hmark
  · intro t
    exact trivial
  · intro σ t a s' pc' hmarks hknows _ hact
    have hstep := act_signal hmarks (hknows t) hact
    exact ⟨hstep.marks, hstep.knows, fun u _ => (hknows u).mono hstep.le⟩

/-- A signal that has been made and is not set has a thread that will set
it. -/
theorem unset_of_reach (h : Machine.Reach (regionLocal regionCount α T) ok σ) :
    ∀ signal, signal < σ.shared.nextSignal → σ.shared.isSet signal = false →
      ∃ t, (σ.pc t).Signals signal := by
  refine h.invariant (I := fun σ => ∀ signal, signal < σ.shared.nextSignal →
    σ.shared.isSet signal = false → ∃ t, (σ.pc t).Signals signal) ?_ ?_
  · intro signal hlt
    exact absurd hlt (Nat.not_lt_zero signal)
  · intro σ l σ' hreach hsets _ hs signal hlt hset
    obtain ⟨hact, hother⟩ := threads_next.mp hs
    obtain ⟨hmarks, hknows⟩ := known_of_reach hreach
    rcases (act_signal hmarks (hknows l.1) hact).unset signal hlt hset with
      hown | ⟨hold, hunset, hkeep⟩
    · exact ⟨l.1, hown⟩
    · obtain ⟨u, hu⟩ := hsets signal hold hunset
      by_cases hul : u = l.1
      · exact ⟨l.1, hkeep (hul ▸ hu)⟩
      · exact ⟨u, hother u hul ▸ hu⟩

/-- A step over a mark that begins no write to the region. -/
def ReadsOverMark (region : Fin regionCount)
    (σ : Threads (RegionalStates regionCount α) (Pc regionCount α) T)
    (l : T × Act (Op regionCount α)) : Prop :=
  StoresOverMark σ l ∧ ∀ v, l.2 ≠ .call (.setLocal region v)

theorem act_setLocal {s s' : RegionalStates regionCount α} {pc pc' : Pc regionCount α}
    {region : Fin regionCount} {value : α}
    (h : act pc (.call (.setLocal region value)) s = some (s', pc')) :
    pc = .idle ∧ pc' = .locate region (.set value) := by
  cases pc with
  | idle =>
    obtain ⟨rfl, rfl⟩ := Prod.mk.inj (Option.some.inj h)
    exact ⟨rfl, rfl⟩
  | _ => exact nomatch h

/-- If the last store of every attempt finds the mark of the attempt, then a
region that was written has a written value, and so does whoever reads it from
then on; a thread gets what it has written while nobody else writes to the
region. Whoever waits for a signal that is not set waits for a thread that is
still in the attempt. -/
theorem no_lost_write {p : Threads (RegionalStates regionCount α) (Pc regionCount α) T ×
      (Fin regionCount → List α)}
    (h : Machine.Reach ((regionLocal regionCount α T).observe written)
      (fun p l => StoresOverMark p.1 l) p) :
    (∀ region, p.2 region ≠ [] → ∃ value ∈ p.2 region,
      p.1.shared.value region = some (.ready value)) ∧
    (∀ t region p', p.2 region ≠ [] → p.1.pc t = .tryWithValue region →
      ((regionLocal regionCount α T).observe written).next p (t, .step) = some p' →
      ∃ value ∈ p.2 region, p'.1.pc t = .returned region value) ∧
    (∀ t region value σ₁ σ₂ got, (∀ u, ¬ (p.1.pc u).WritesTo region) →
      (regionLocal regionCount α T).next p.1 (t, .call (.setLocal region value)) = some σ₁ →
      Machine.Reach ((regionLocal regionCount α T).startAt σ₁) (ReadsOverMark region) σ₂ →
      σ₂.pc t = .returned region got → got = value) ∧
    ∀ t region signal, p.1.pc t = .wait region signal → p.1.shared.isSet signal = false →
      ∃ u, (p.1.pc u).Signals signal := by
  have hplain := Machine.observe_fst h
  refine ⟨keepsWrites_of_reach h, ?_, ?_, ?_⟩
  · intro t region p' hne hpc hs
    obtain ⟨value, hin, hready⟩ := keepsWrites_of_reach h region hne
    have hact := (threads_next.mp (Machine.observe_next.mp hs).1).1
    replace hact : act (p.1.pc t) .step p.1.shared = _ := hact
    rw [hpc, act, hready] at hact
    exact ⟨value, hin, (Prod.mk.inj (Option.some.inj hact)).2.symm⟩
  · intro t region value σ₁ σ₂ got hquiet hcall hrun hgot
    obtain ⟨hact, hother⟩ := threads_next.mp hcall
    have hlocate := (act_setLocal hact).2
    have halone : WritesAlone t region value σ₁ :=
      ⟨fun u hu => hother u hu ▸ hquiet u, .inl hlocate,
        fun _ hret => nomatch hlocate.symm.trans hret⟩
    have hboth : WritesAlone t region value σ₂ := by
      refine hrun.invariant (I := WritesAlone t region value) halone ?_
      intro σ l σ' _ halone hok hs
      have hs' : (regionLocal regionCount α T).next σ l = some σ' := hs
      exact halone.next hok.1 hok.2 hs'
    exact hboth.returned got hgot
  · intro t region signal hpc hset
    have hknows := (known_of_reach hplain).2 t
    rw [hpc] at hknows
    exact unset_of_reach hplain signal hknows hset

end Runs

/-- The first reader of a region has called the initializer, which has
returned 7, when another thread writes 1. -/
def lostRun : List (Fin 2 × Act (Op 1 Nat)) :=
  [(0, .call (.withLocal 0 false)), (0, .step), (0, .step), (0, .step), (0, .step),
    (0, .call (.initialized (some 7))),
    (1, .call (.setLocal 0 1)), (1, .step), (1, .step),
    (0, .step), (0, .step),
    (1, .call (.withLocal 0 true)), (1, .step)]

/-- The writer gets 7. -/
theorem lostRun_lost :
    (∃ p, ((regionLocal 1 Nat (Fin 2)).observe written).run lostRun = some p ∧
      p.2 0 = [1] ∧ p.1.shared.value 0 = some (.ready 7) ∧ p.1.pc 1 = .returned 0 7) ∧
    ¬ ∀ p, ((regionLocal 1 Nat (Fin 2)).observe written).Reachable p →
      ∀ region, p.2 region ≠ [] → ∃ value ∈ p.2 region,
        p.1.shared.value region = some (.ready value) := by
  have hlost : ∃ p, ((regionLocal 1 Nat (Fin 2)).observe written).run lostRun = some p ∧
      p.2 0 = [1] ∧ p.1.shared.value 0 = some (.ready 7) ∧ p.1.pc 1 = .returned 0 7 :=
    ⟨_, rfl, rfl, rfl, rfl⟩
  refine ⟨hlost, fun h => ?_⟩
  obtain ⟨p, hrun, hwritten, hslot, -⟩ := hlost
  obtain ⟨value, hin, hready⟩ := h p (Machine.reachable_of_run hrun) 0 (hwritten ▸ nofun)
  rw [hwritten] at hin
  obtain rfl := List.mem_singleton.mp hin
  exact nomatch hslot.symm.trans hready

/-- A thread writes 1 and reads it. -/
def keptRun : List (Fin 2 × Act (Op 1 Nat)) :=
  [(0, .call (.setLocal 0 1)), (0, .step), (0, .step), (0, .call (.withLocal 0 true))]

instance {T : Type} (σ : Threads (RegionalStates regionCount Nat) (Pc regionCount Nat) T)
    (l : T × Act (Op regionCount Nat)) : Decidable (StoresOverMark σ l) := by
  unfold StoresOverMark
  cases σ.pc l.1 <;> infer_instance

theorem keptRun_kept : ∃ p,
    (((regionLocal 1 Nat (Fin 2)).observe written).restrict fun p l =>
      StoresOverMark p.1 l).run keptRun = some p ∧
    p.2 0 ≠ [] ∧ ∃ value ∈ p.2 0, p.1.shared.value 0 = some (.ready value) := by
  obtain ⟨p, hrun, hne⟩ : ∃ p, (((regionLocal 1 Nat (Fin 2)).observe written).restrict fun p l =>
      StoresOverMark p.1 l).run keptRun = some p ∧ p.2 0 ≠ [] :=
    ⟨_, rfl, nofun⟩
  exact ⟨p, hrun, hne, (no_lost_write (Machine.reach_of_run_restrict hrun)).1 0 hne⟩

end Folo.Regional.RegionLocal
