import Folo.ManyCpus.PinStates
import Folo.ManyCpus.Take

/-!
# When the answers are true

A pin is told faithfully when what is remembered of it determines the set: a
single processor, listed once, or the whole of one memory region with several
processors. Of any other set the answers say too much, or that there was no
pin.
-/

namespace Folo.ManyCpus

open Folo.Lib

/-! ## One instance -/

/-- All that an instance says of the thread, when the platform says
`current`. -/
structure Answers where
  threadProcessors : Option ProcessorSet
  currentProcessorId : ProcessorId
  currentMemoryRegionId : MemoryRegionId
  isThreadProcessorPinned : Bool
  isThreadMemoryRegionPinned : Bool

def SystemHardware.answers (hw : SystemHardware) (pins : PinStateMap) (current : ProcessorId) :
    Answers where
  threadProcessors := hw.threadProcessors pins
  currentProcessorId := hw.currentProcessorId pins current
  currentMemoryRegionId := hw.currentMemoryRegionId pins current
  isThreadProcessorPinned := hw.isThreadProcessorPinned pins
  isThreadMemoryRegionPinned := hw.isThreadMemoryRegionPinned pins

/-- The answers are about the set that was last pinned, and about the
processor on which the platform runs the thread. -/
structure Faithful (hw : SystemHardware) (pinned : Option (NonEmpty Processor))
    (current : ProcessorId) (answers : Answers) : Prop where
  unpinned : pinned = none → answers.threadProcessors = none
  threadProcessors : ∀ ps, pinned = some ps → ∃ set, answers.threadProcessors = some set ∧
    ∀ p, p ∈ set.processors.toList ↔ p ∈ ps.toList
  currentProcessor : answers.currentProcessorId = current
  currentRegion : ∀ p ∈ hw.processors, p.id = current →
    answers.currentMemoryRegionId = p.memoryRegionId
  processorPinned : answers.isThreadProcessorPinned = true ↔
    ∃ ps, pinned = some ps ∧ ∃ p, ∀ q ∈ ps.toList, q = p
  regionPinned : answers.isThreadMemoryRegionPinned = true ↔
    ∃ ps, pinned = some ps ∧ ∃ region, ∀ q ∈ ps.toList, q.memoryRegionId = region

/-- One processor, listed once, or all the processors of a region that has
more than one; of the instance itself in any case. -/
def Representable (hw : SystemHardware) (ps : NonEmpty Processor) : Prop :=
  (∀ p ∈ ps.toList, p ∈ hw.processors) ∧
    (ps.toList.length = 1 ∨
      (∃ p ∈ ps.toList, ∃ q ∈ ps.toList, p ≠ q) ∧
        ∃ region, ∀ p ∈ hw.processors, p ∈ ps.toList ↔ p.memoryRegionId = region)

/-- What is remembered of a set. -/
def summary (ps : NonEmpty Processor) : ThreadState :=
  if ps.toList.length = 1 then ⟨some ps.head.id, some ps.head.memoryRegionId⟩
  else if (ps.toList.map Processor.memoryRegionId).dedup.length = 1 then
    ⟨none, some ps.head.memoryRegionId⟩
  else ⟨none, none⟩

theorem pinCurrentThreadTo_eq (set : ProcessorSet) (pins : PinStateMap) :
    set.pinCurrentThreadTo pins =
      some (pins.set set.hardware.hardwareId (summary set.processors)) := by
  unfold ProcessorSet.pinCurrentThreadTo summary
  split
  · rfl
  · split <;> rfl

section Summary

variable {hw : SystemHardware} {ps : NonEmpty Processor} {pins : PinStateMap}
  {current : ProcessorId}

theorem head_mem (ps : NonEmpty Processor) : ps.head ∈ ps.toList :=
  List.mem_cons_self ..

/-- The three kinds of sets. -/
theorem summary_cases (ps : NonEmpty Processor) :
    (ps.toList = [ps.head] ∧ summary ps = ⟨some ps.head.id, some ps.head.memoryRegionId⟩) ∨
    (ps.toList.length ≠ 1 ∧ (∀ p ∈ ps.toList, p.memoryRegionId = ps.head.memoryRegionId) ∧
      summary ps = ⟨none, some ps.head.memoryRegionId⟩) ∨
    (ps.toList.length ≠ 1 ∧ (∃ p ∈ ps.toList, p.memoryRegionId ≠ ps.head.memoryRegionId) ∧
      summary ps = ⟨none, none⟩) := by
  by_cases hone : ps.toList.length = 1
  · refine .inl ⟨?_, if_pos hone⟩
    obtain ⟨p, hp⟩ := List.length_eq_one_iff.mp hone
    rw [NonEmpty.toList] at hp ⊢
    rw [(List.cons.inj hp).2]
  · by_cases hsame : ∀ p ∈ ps.toList, p.memoryRegionId = ps.head.memoryRegionId
    · refine .inr (.inl ⟨hone, hsame, ?_⟩)
      have hdedup : (ps.toList.map Processor.memoryRegionId).dedup = [ps.head.memoryRegionId] := by
        have hrep : ps.toList.map Processor.memoryRegionId =
            List.replicate ps.toList.length ps.head.memoryRegionId :=
          List.map_eq_replicate_iff.mpr hsame
        rw [hrep]
        exact List.replicate_dedup (Nat.succ_ne_zero _)
      rw [summary, if_neg hone, hdedup]
      rfl
    · refine .inr (.inr ⟨hone, ?_, ?_⟩)
      · by_contra hnone
        exact hsame fun p hp => by_contra fun hne => hnone ⟨p, hp, hne⟩
      · rw [summary, if_neg hone, if_neg fun hlen => hsame fun p hp => ?_]
        obtain ⟨region, hregion⟩ := List.length_eq_one_iff.mp hlen
        have hmem : ∀ q ∈ ps.toList, q.memoryRegionId = region := fun q hq =>
          List.mem_singleton.mp (hregion ▸ List.mem_dedup.mpr (List.mem_map_of_mem hq))
        rw [hmem p hp, hmem _ (head_mem ps)]

/-- An instance through which the thread was never pinned. -/
theorem faithful_unpinned (hget : pins.get hw.hardwareId = none) :
    Faithful hw none current (hw.answers pins current) := by
  have hproc : hw.getPinnedProcessorId pins = none := by
    rw [SystemHardware.getPinnedProcessorId, hget]
    rfl
  have hregion : hw.getPinnedMemoryRegionId pins = none := by
    rw [SystemHardware.getPinnedMemoryRegionId, hget]
    rfl
  refine ⟨fun _ => ?_, nofun, ?_, fun p hp hid => ?_, ?_, ?_⟩
  · show hw.threadProcessors pins = none
    rw [SystemHardware.threadProcessors, hproc, hregion]
  · show hw.currentProcessorId pins current = current
    rw [SystemHardware.currentProcessorId, hproc]
    rfl
  · show hw.currentMemoryRegionId pins current = p.memoryRegionId
    rw [SystemHardware.currentMemoryRegionId, hregion, ← hid,
      SystemHardware.getProcessor_of_mem hp]
    rfl
  · show hw.isThreadProcessorPinned pins = true ↔ _
    rw [SystemHardware.isThreadProcessorPinned, hproc]
    exact ⟨nofun, fun ⟨_, h, _⟩ => nomatch h⟩
  · show hw.isThreadMemoryRegionPinned pins = true ↔ _
    rw [SystemHardware.isThreadMemoryRegionPinned, hregion]
    exact ⟨nofun, fun ⟨_, h, _⟩ => nomatch h⟩

theorem eq_of_id {p q : Processor} (hp : p ∈ hw.processors) (hq : q ∈ hw.processors)
    (h : p.id = q.id) : p = q := by
  rw [← SystemHardware.getProcessor_of_mem hp, h, SystemHardware.getProcessor_of_mem hq]

/-- A single processor is told as it is, if it is one of the instance. -/
theorem faithful_single (hsingle : ps.toList = [ps.head])
    (hget : pins.get hw.hardwareId = some ⟨some ps.head.id, some ps.head.memoryRegionId⟩)
    (hcurrent : current ∈ ps.toList.map Processor.id) :
    Faithful hw (some ps) current (hw.answers pins current) ↔ Representable hw ps := by
  have hproc : hw.getPinnedProcessorId pins = some ps.head.id := by
    rw [SystemHardware.getPinnedProcessorId, hget]
    rfl
  have hregion : hw.getPinnedMemoryRegionId pins = some ps.head.memoryRegionId := by
    rw [SystemHardware.getPinnedMemoryRegionId, hget]
    rfl
  have hthread : hw.threadProcessors pins = some ⟨⟨hw.getProcessor ps.head.id, []⟩, hw⟩ := by
    rw [SystemHardware.threadProcessors, hproc]
  have hrun : current = ps.head.id := by
    rw [hsingle] at hcurrent
    exact List.mem_singleton.mp hcurrent
  constructor
  · intro h
    refine ⟨fun p hp => ?_, .inl (by rw [hsingle]; rfl)⟩
    obtain ⟨set, hset, hmem⟩ := h.threadProcessors ps rfl
    obtain rfl := Option.some.inj (hset.symm.trans hthread)
    rw [List.mem_singleton.mp ((hmem p).mpr hp)]
    exact hw.getProcessor_mem _
  · intro ⟨hown, _⟩
    have hhead := SystemHardware.getProcessor_of_mem (hown _ (head_mem ps))
    refine ⟨nofun, fun _ heq => ?_, ?_, fun p hp hid => ?_, ?_, ?_⟩
    · obtain rfl := Option.some.inj heq
      refine ⟨_, hthread, fun p => ?_⟩
      rw [hsingle, hhead]
      exact Iff.rfl
    · show hw.currentProcessorId pins current = current
      rw [SystemHardware.currentProcessorId, hproc, hrun]
      rfl
    · show hw.currentMemoryRegionId pins current = p.memoryRegionId
      rw [SystemHardware.currentMemoryRegionId, hregion,
        eq_of_id hp (hown _ (head_mem ps)) (hid.trans hrun)]
      rfl
    · show hw.isThreadProcessorPinned pins = true ↔ _
      rw [SystemHardware.isThreadProcessorPinned, hproc]
      refine ⟨fun _ => ⟨ps, rfl, ps.head, fun q hq => ?_⟩, fun _ => rfl⟩
      exact List.mem_singleton.mp (hsingle ▸ hq)
    · show hw.isThreadMemoryRegionPinned pins = true ↔ _
      rw [SystemHardware.isThreadMemoryRegionPinned, hregion]
      refine ⟨fun _ => ⟨ps, rfl, ps.head.memoryRegionId, fun q hq => ?_⟩, fun _ => rfl⟩
      have heq : q = ps.head := List.mem_singleton.mp (hsingle ▸ hq)
      rw [heq]

/-- Of several processors of one region the region is told, which is true if
they are different and are all that the region has. -/
theorem faithful_region (hlen : ps.toList.length ≠ 1)
    (hsame : ∀ p ∈ ps.toList, p.memoryRegionId = ps.head.memoryRegionId)
    (hget : pins.get hw.hardwareId = some ⟨none, some ps.head.memoryRegionId⟩)
    (hcurrent : current ∈ ps.toList.map Processor.id) :
    Faithful hw (some ps) current (hw.answers pins current) ↔ Representable hw ps := by
  have hproc : hw.getPinnedProcessorId pins = none := by
    rw [SystemHardware.getPinnedProcessorId, hget]
    rfl
  have hregion : hw.getPinnedMemoryRegionId pins = some ps.head.memoryRegionId := by
    rw [SystemHardware.getPinnedMemoryRegionId, hget]
    rfl
  have hthread : hw.threadProcessors pins =
      (NonEmpty.fromVec ((hw.allProcessorsSlice.filterMap fun p => p).filter fun p =>
        p.memoryRegionId = ps.head.memoryRegionId)).map fun processors => ⟨processors, hw⟩ := by
    rw [SystemHardware.threadProcessors, hproc, hregion]
  have hknown : ∀ p, p ∈ ((hw.allProcessorsSlice.filterMap fun p => p).filter fun p =>
      decide (p.memoryRegionId = ps.head.memoryRegionId)) ↔
      p ∈ hw.processors ∧ p.memoryRegionId = ps.head.memoryRegionId := fun p => by
    rw [List.mem_filter, SystemHardware.mem_knownProcessors, decide_eq_true_iff]
  have hpinned : hw.isThreadProcessorPinned pins = false := by
    rw [SystemHardware.isThreadProcessorPinned, hproc]
    rfl
  constructor
  · intro h
    obtain ⟨set, hset, hmem⟩ := h.threadProcessors ps rfl
    obtain ⟨processors, hfrom, rfl⟩ := Option.map_eq_some_iff.mp (hthread.symm.trans hset)
    have hiff : ∀ p, p ∈ ps.toList ↔
        p ∈ hw.processors ∧ p.memoryRegionId = ps.head.memoryRegionId := fun p => by
      rw [← hmem p, ← hknown p, NonEmpty.toList_of_fromVec hfrom]
    refine ⟨fun p hp => ((hiff p).mp hp).1, .inr ⟨?_, ps.head.memoryRegionId, fun p hp => ?_⟩⟩
    · -- it does not say that there is one processor
      by_contra hone
      refine Bool.false_ne_true (hpinned.symm.trans (h.processorPinned.mpr ?_))
      refine ⟨ps, rfl, ps.head, fun q hq => by_contra fun hne => hone ?_⟩
      exact ⟨q, hq, ps.head, head_mem ps, hne⟩
    · exact (hiff p).trans (and_iff_right hp)
  · intro ⟨hown, hkind⟩
    obtain ⟨⟨p, hp, q, hq, hne⟩, region, hall⟩ := hkind.resolve_left hlen
    have hhead : ps.head.memoryRegionId = region :=
      (hall _ (hown _ (head_mem ps))).mp (head_mem ps)
    have hiff : ∀ p, p ∈ ps.toList ↔
        p ∈ hw.processors ∧ p.memoryRegionId = ps.head.memoryRegionId := fun p =>
      ⟨fun hp => ⟨hown p hp, hsame p hp⟩, fun ⟨hp, heq⟩ => (hall p hp).mpr (heq.trans hhead)⟩
    refine ⟨nofun, fun _ heq => ?_, ?_, fun p hp hid => ?_, ?_, ?_⟩
    · obtain rfl := Option.some.inj heq
      obtain ⟨processors, hfrom⟩ := NonEmpty.exists_fromVec (List.ne_nil_of_mem
        ((hknown _).mpr ((hiff _).mp (head_mem ps))))
      refine ⟨⟨processors, hw⟩, hthread.trans (by rw [hfrom]; rfl), fun p => ?_⟩
      rw [NonEmpty.toList_of_fromVec hfrom, hknown, hiff]
    · show hw.currentProcessorId pins current = current
      rw [SystemHardware.currentProcessorId, hproc]
      rfl
    · show hw.currentMemoryRegionId pins current = p.memoryRegionId
      obtain ⟨r, hr, hrun⟩ := List.mem_map.mp hcurrent
      rw [SystemHardware.currentMemoryRegionId, hregion,
        eq_of_id hp (hown r hr) (hid.trans hrun.symm), hsame r hr]
      rfl
    · show hw.isThreadProcessorPinned pins = true ↔ _
      rw [hpinned]
      refine ⟨nofun, fun ⟨_, heq, r, hr⟩ => ?_⟩
      obtain rfl := Option.some.inj heq
      exact absurd ((hr p hp).trans (hr q hq).symm) hne
    · show hw.isThreadMemoryRegionPinned pins = true ↔ _
      rw [SystemHardware.isThreadMemoryRegionPinned, hregion]
      exact ⟨fun _ => ⟨ps, rfl, _, hsame⟩, fun _ => rfl⟩

/-- Of processors of several regions nothing is told. -/
theorem not_faithful_spread (current : ProcessorId) (hlen : ps.toList.length ≠ 1)
    (hspread : ∃ p ∈ ps.toList, p.memoryRegionId ≠ ps.head.memoryRegionId)
    (hget : pins.get hw.hardwareId = some ⟨none, none⟩) :
    ¬ Faithful hw (some ps) current (hw.answers pins current) ∧ ¬ Representable hw ps := by
  have hproc : hw.getPinnedProcessorId pins = none := by
    rw [SystemHardware.getPinnedProcessorId, hget]
    rfl
  have hregion : hw.getPinnedMemoryRegionId pins = none := by
    rw [SystemHardware.getPinnedMemoryRegionId, hget]
    rfl
  constructor
  · intro h
    obtain ⟨set, hset, -⟩ := h.threadProcessors ps rfl
    have hnone : hw.threadProcessors pins = none := by
      rw [SystemHardware.threadProcessors, hproc, hregion]
    exact nomatch hset.symm.trans hnone
  · intro ⟨hown, hkind⟩
    obtain ⟨p, hp, hne⟩ := hspread
    obtain ⟨-, region, hall⟩ := hkind.resolve_left hlen
    have hregion := fun q hq => (hall q (hown q hq)).mp hq
    exact hne ((hregion p hp).trans (hregion _ (head_mem ps)).symm)

/-- The answers after a pin are true exactly of the sets that the summary
determines. -/
theorem faithful_pinned_iff (hget : pins.get hw.hardwareId = some (summary ps))
    (hcurrent : current ∈ ps.toList.map Processor.id) :
    Faithful hw (some ps) current (hw.answers pins current) ↔ Representable hw ps := by
  rcases summary_cases ps with ⟨hsingle, hsum⟩ | ⟨hlen, hsame, hsum⟩ | ⟨hlen, hspread, hsum⟩
  · exact faithful_single hsingle (hsum ▸ hget) hcurrent
  · exact faithful_region hlen hsame (hsum ▸ hget) hcurrent
  · obtain ⟨hnot, hrep⟩ := not_faithful_spread current hlen hspread (hsum ▸ hget)
    exact iff_of_false hnot hrep

end Summary

/-! ## Runs -/

/-- What is remembered of an instance is its last pin. -/
structure Remembered (pins : PinStateMap) (id : HardwareId) (inst : Instance) : Prop where
  hardwareId : inst.hardware.hardwareId = id
  current : inst.MayRunOn inst.current
  pinned : pins.get id = inst.mask.map summary

/-- What holds of a thread at any time. -/
structure PinInv (s : PinnedThread) : Prop where
  keys : s.pinStates.keys.Nodup
  old : ∀ id ∈ s.pinStates.keys, id < s.nextHardwareId
  known : ∀ id inst, s.instances id = some inst →
    id < s.nextHardwareId ∧ Remembered s.pinStates id inst

theorem pinInv_start : PinInv .start :=
  ⟨List.nodup_nil, nofun, nofun⟩

/-- The instance that an operation is on. -/
def PinnedThread.Op.target (s : PinnedThread) : PinnedThread.Op → HardwareId
  | .create .. => s.nextHardwareId
  | .pin id .. => id
  | .reschedule id _ => id
  | .drop id => id

/-- What an operation leaves of the others. -/
structure OthersStay (s s' : PinnedThread) (id : HardwareId) : Prop where
  instances : ∀ other, other ≠ id → s'.instances other = s.instances other
  pins : ∀ other, other ≠ id → s'.pinStates.get other = s.pinStates.get other

section Step

variable {s s' : PinnedThread} {op : PinnedThread.Op} {id : HardwareId}

/-- Only the instance that an operation is on has to be looked at again. -/
theorem PinInv.of_target {target : Option Instance} (h : PinInv s)
    (hset : s'.instances = Function.update s.instances id target)
    (hpins : ∀ other, other ≠ id → s'.pinStates.get other = s.pinStates.get other)
    (hle : s.nextHardwareId ≤ s'.nextHardwareId) (hkeys : s'.pinStates.keys.Nodup)
    (hold : ∀ id ∈ s'.pinStates.keys, id < s'.nextHardwareId)
    (htarget : ∀ inst, target = some inst →
      id < s'.nextHardwareId ∧ Remembered s'.pinStates id inst) :
    PinInv s' ∧ OthersStay s s' id := by
  refine ⟨⟨hkeys, hold, fun other inst hinst => ?_⟩, fun other hne => ?_, hpins⟩
  · rw [hset] at hinst
    by_cases hid : other = id
    · subst hid
      rw [Function.update_self] at hinst
      exact htarget inst hinst
    · rw [Function.update_of_ne hid] at hinst
      obtain ⟨hlt, hsame⟩ := h.known other inst hinst
      refine ⟨Nat.lt_of_lt_of_le hlt hle, hsame.hardwareId, hsame.current, ?_⟩
      rw [hpins other hid]
      exact hsame.pinned
  · rw [hset, Function.update_of_ne hne]

theorem PinInv.next (h : PinInv s) (hs : s.next op = some s') :
    PinInv s' ∧ OthersStay s s' (op.target s) := by
  cases op with
  | create platform current =>
    rw [PinnedThread.next] at hs
    split at hs
    · next hmay =>
      obtain rfl := Option.some.inj hs
      refine h.of_target rfl (fun _ _ => rfl) (Nat.le_succ _) h.keys ?_ ?_
      · intro id hin
        exact Nat.lt_succ_of_lt (h.old id hin)
      · intro inst hinst
        obtain rfl := Option.some.inj hinst
        -- nothing was pinned through the new id
        exact ⟨Nat.lt_succ_self _, rfl, hmay, PinStateMap.get_eq_none fun hin =>
          Nat.lt_irrefl _ (h.old _ hin)⟩
    · exact nomatch hs
  | pin id processors current =>
    rw [PinnedThread.next] at hs
    split at hs
    · next inst hinst =>
      obtain ⟨hlt, hsame⟩ := h.known id inst hinst
      simp only [pinCurrentThreadTo_eq, hsame.hardwareId] at hs
      split at hs
      · next hmay =>
        obtain rfl := Option.some.inj hs
        refine h.of_target rfl ?_ (Nat.le_refl _) (PinStateMap.nodup_set h.keys) ?_ ?_
        · intro other hne
          exact PinStateMap.get_set.trans (if_neg (Ne.symm hne))
        · intro other hin
          exact (PinStateMap.mem_keys_set hin).elim (fun heq => heq ▸ hlt) (h.old other)
        · intro inst' hinst'
          obtain rfl := Option.some.inj hinst'
          exact ⟨hlt, hsame.hardwareId, hmay, PinStateMap.get_set.trans (if_pos rfl)⟩
      · exact nomatch hs
    · exact nomatch hs
  | reschedule id current =>
    rw [PinnedThread.next] at hs
    split at hs
    · next inst hinst =>
      obtain ⟨hlt, hsame⟩ := h.known id inst hinst
      split at hs
      · next hmay =>
        obtain rfl := Option.some.inj hs
        refine h.of_target rfl (fun _ _ => rfl) (Nat.le_refl _) h.keys h.old ?_
        intro inst' hinst'
        obtain rfl := Option.some.inj hinst'
        exact ⟨hlt, hsame.hardwareId, hmay, hsame.pinned⟩
      · exact nomatch hs
    · exact nomatch hs
  | drop id =>
    rw [PinnedThread.next] at hs
    split at hs
    · obtain rfl := Option.some.inj hs
      refine h.of_target rfl ?_ (Nat.le_refl _) (PinStateMap.remove_spec _ h.keys).1 ?_ nofun
      · intro other hne
        exact PinStateMap.get_remove_ne h.keys hne
      · intro other hin
        exact h.old other (PinStateMap.mem_keys_remove h.keys hin)
    · exact nomatch hs

theorem pinInv_of_reachable (h : pinnedThreads.Reachable s) : PinInv s :=
  h.invariant pinInv_start fun _ _ _ _ hinv _ hs => (hinv.next hs).1

/-- The answers read only what the thread remembers of the instance. -/
theorem answers_congr {hw : SystemHardware} {pins pins' : PinStateMap} {current : ProcessorId}
    (h : pins'.get hw.hardwareId = pins.get hw.hardwareId) :
    hw.answers pins' current = hw.answers pins current := by
  simp only [SystemHardware.answers, SystemHardware.threadProcessors,
    SystemHardware.currentProcessorId, SystemHardware.currentMemoryRegionId,
    SystemHardware.isThreadProcessorPinned, SystemHardware.isThreadMemoryRegionPinned,
    SystemHardware.getPinnedProcessorId, SystemHardware.getPinnedMemoryRegionId, h]

/-- At any time an instance tells the truth of the thread if and only if the
set that was last pinned through it can be represented, and what is done
through another instance does not change what it tells. -/
theorem answers_faithful_iff {inst : Instance} (h : pinnedThreads.Reachable s)
    (hinst : s.instances id = some inst) :
    (Faithful inst.hardware inst.mask inst.current
        (inst.hardware.answers s.pinStates inst.current) ↔
      ∀ ps, inst.mask = some ps → Representable inst.hardware ps) ∧
    ∀ op s', s.next op = some s' → op.target s ≠ id →
      s'.instances id = some inst ∧
        inst.hardware.answers s'.pinStates inst.current =
          inst.hardware.answers s.pinStates inst.current := by
  have hinv := pinInv_of_reachable h
  obtain ⟨-, hsame⟩ := hinv.known id inst hinst
  constructor
  · have hget := hsame.pinned
    have hcurrent := hsame.current
    rw [← hsame.hardwareId] at hget
    cases hmask : inst.mask with
    | none =>
      rw [hmask] at hget
      exact iff_of_true (faithful_unpinned hget) nofun
    | some ps =>
      rw [hmask] at hget
      rw [Instance.MayRunOn, hmask] at hcurrent
      rw [faithful_pinned_iff hget hcurrent]
      exact ⟨fun hrep _ heq => Option.some.inj heq ▸ hrep, fun hall => hall ps rfl⟩
  · intro op s' hs hne
    have hstay := (hinv.next hs).2
    refine ⟨(hstay.instances id (Ne.symm hne)).trans hinst, answers_congr ?_⟩
    rw [hsame.hardwareId]
    exact hstay.pins id (Ne.symm hne)

end Step

/-- A machine of two memory regions, and the thread pinned to both processors
of the first of them. -/
def pinToRegion : List PinnedThread.Op :=
  [.create twoRegions 0, .pin 0 ⟨⟨0, ⟨0, 0, .performance⟩⟩, [⟨0, ⟨1, 0, .performance⟩⟩]⟩ 1]

theorem pinToRegion_faithful : ∃ s inst,
    pinnedThreads.run pinToRegion = some s ∧ s.instances 0 = some inst ∧
      Faithful inst.hardware inst.mask inst.current
        (inst.hardware.answers s.pinStates inst.current) := by
  obtain ⟨s, inst, hrun, hinst, hrep⟩ : ∃ s inst, pinnedThreads.run pinToRegion = some s ∧
      s.instances 0 = some inst ∧
        ∀ ps, inst.mask = some ps → Representable inst.hardware ps := by
    refine ⟨_, _, rfl, rfl, fun ps hps => ?_⟩
    obtain rfl := Option.some.inj hps
    refine ⟨by decide, .inr ⟨by decide, 0, by decide⟩⟩
  have hreach := Machine.reachable_of_run hrun
  exact ⟨s, inst, hrun, hinst, (answers_faithful_iff hreach hinst).1.mpr hrep⟩

/-- The thread is pinned to a processor of each region. -/
def pinToBothRegions : List PinnedThread.Op :=
  [.create twoRegions 0, .pin 0 ⟨⟨0, ⟨0, 0, .performance⟩⟩, [⟨0, ⟨2, 1, .performance⟩⟩]⟩ 2]

/-- It is told as if it were not pinned. -/
theorem pinToBothRegions_told_as_unpinned :
    (∃ s inst, pinnedThreads.run pinToBothRegions = some s ∧ s.instances 0 = some inst ∧
      inst.mask.isSome ∧ inst.hardware.threadProcessors s.pinStates = none) ∧
    ¬ ∀ s id inst, pinnedThreads.Reachable s → s.instances id = some inst →
      Faithful inst.hardware inst.mask inst.current
        (inst.hardware.answers s.pinStates inst.current) := by
  have htold : ∃ s inst, pinnedThreads.run pinToBothRegions = some s ∧
      s.instances 0 = some inst ∧ inst.mask.isSome ∧
        inst.hardware.threadProcessors s.pinStates = none :=
    ⟨_, _, rfl, rfl, rfl, rfl⟩
  refine ⟨htold, fun h => ?_⟩
  obtain ⟨s, inst, hrun, hinst, hmask, hnone⟩ := htold
  obtain ⟨ps, hps⟩ := Option.isSome_iff_exists.mp hmask
  have hfaithful := h s 0 inst (Machine.reachable_of_run hrun) hinst
  obtain ⟨set, hset, -⟩ := hfaithful.threadProcessors ps hps
  exact nomatch hset.symm.trans hnone

end Folo.ManyCpus
