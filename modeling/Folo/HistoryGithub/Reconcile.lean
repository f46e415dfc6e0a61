import Folo.HistoryGithub.Model
import Folo.Lib.Separators
import Folo.Lib.Texts
import Mathlib.Data.List.MinMax

/-!
# Reconciling jobs and receipts

`workflow/reconcile.rs`. A platform has a job for each attempt of the run, and
a job that succeeded has left a receipt. Evidence that does not fit together is
refused; of evidence that does, the receipts of the latest attempts that
succeeded are selected, in the order of the platforms. An older success never
stands in for a newer failure.

`Consistent` says what fitting together is, without the order in which the
loops look at it.
-/

namespace Folo.HistoryGithub

open Folo.Lib

structure WorkflowJob where
  id : Nat
  runId : Nat
  runAttempt : Nat
  name : Text
  status : Text
  conclusion : Option Text
  deriving DecidableEq

/-- A decoded receipt, less its measurements. -/
structure Receipt where
  repository : Repository
  inst : Instance
  runId : Nat
  runAttempt : Nat
  head : CommitSha
  platform : Text
  deriving DecidableEq

inductive Execution where
  | success
  | failure
  | cancelled
  | skipped
  deriving DecidableEq

structure Selection where
  receiptIndices : List Nat
  complete : Bool
  deriving DecidableEq

inductive ReconcileError where
  | invalidCollectionJobs (reason : Text)
  | invalidCollectionPlatform
  | mismatchedReceipt (platform : Text)
  | duplicateReceipt (platform : Text)
  | noSuccessfulCollection
  deriving DecidableEq

def ReconcileError.display : ReconcileError → Text
  | .invalidCollectionJobs reason =>
    "Collection job evidence is inconsistent: ".toList ++ reason
  | .invalidCollectionPlatform =>
    "Collection platform must be a nonempty ASCII matrix identifier, not a path".toList
  | .mismatchedReceipt platform =>
    "Missing or mismatched collection receipt for platform '".toList ++ platform ++ "'".toList
  | .duplicateReceipt platform =>
    "Duplicate collection receipts for platform '".toList ++ platform ++
      "' in the same run attempt".toList
  | .noSuccessfulCollection =>
    "No expected platform completed collection successfully".toList

/-! ## Job names -/

def collectionJobPrefix (inst : Instance) : Text :=
  "cbh-collect".toList ++ ':' :: inst.asStr

/-- `str::strip_prefix`. -/
def stripFront (text front : Text) : Option Text :=
  if front.isPrefixOf text then some (text.drop front.length) else none

/-- The platform that the name of a collection job ends with. -/
def markedPlatform (marker name : Text) : Option Text :=
  stripFront (lastPart " / ".toList name) marker

/-! ## The loops -/

def validatePlatform (value : Text) : Except ReconcileError Unit :=
  if isPlatformIdentifier value then .ok () else .error .invalidCollectionPlatform

/-- The jobs by platform and attempt. -/
abbrev JobAttempts := List ((Text × Nat) × WorkflowJob)

/-- One job of `job_attempts`, with the identifiers of the jobs before. -/
def indexJob (runId : Nat) (marker : Text) (expected : List Text)
    (state : JobAttempts × List Nat) (job : WorkflowJob) :
    Except ReconcileError (JobAttempts × List Nat) :=
  let (attempts, ids) := state
  if job.runId ≠ runId ∨ job.id ∈ ids then
    .error (.invalidCollectionJobs "mismatched run or duplicate job ID".toList)
  else
    match markedPlatform marker job.name with
    | none => .ok (attempts, ids ++ [job.id])
    | some platform => do
      validatePlatform platform
      if platform ∉ expected then
        .error (.invalidCollectionJobs "unexpected collection platform".toList)
      else if (platform, job.runAttempt) ∈ attempts.map Prod.fst then
        .error (.invalidCollectionJobs "duplicate platform jobs in one attempt".toList)
      else .ok (attempts ++ [((platform, job.runAttempt), job)], ids ++ [job.id])

def jobAttempts (runId : Nat) (marker : Text) (expected : List Text) (jobs : List WorkflowJob) :
    Except ReconcileError JobAttempts :=
  (jobs.foldlM (indexJob runId marker expected) ([], [])).map Prod.fst

/-- The job of the largest attempt. -/
def latestJob (attempts : JobAttempts) (platform : Text) : Option WorkflowJob :=
  ((attempts.filter fun entry => entry.1.1 = platform).argmax fun entry => entry.1.2).map Prod.snd

def terminalExecution (job : WorkflowJob) : Except ReconcileError Execution :=
  if job.status ≠ "completed".toList then
    .error (.invalidCollectionJobs "latest collection job is not completed".toList)
  else
    match job.conclusion with
    | none => .error (.invalidCollectionJobs "latest collection conclusion is unknown".toList)
    | some conclusion =>
      if conclusion = "success".toList then .ok .success
      else if conclusion = "cancelled".toList then .ok .cancelled
      else if conclusion = "skipped".toList then .ok .skipped
      else if conclusion ∈ ["failure".toList, "neutral".toList, "timed_out".toList,
          "action_required".toList] then .ok .failure
      else .error (.invalidCollectionJobs "latest collection conclusion is unknown".toList)

/-- One receipt, of the run, the instance and the frozen head that are asked
for. -/
def indexReceipt (repository : Repository) (inst : Instance) (runId : Nat) (head : CommitSha)
    (expected : List Text) (attempts : JobAttempts) (byAttempt : List ((Text × Nat) × Nat))
    (entry : Receipt × Nat) : Except ReconcileError (List ((Text × Nat) × Nat)) :=
  let (receipt, index) := entry
  let key := (receipt.platform, receipt.runAttempt)
  if receipt.repository ≠ repository ∨ receipt.inst ≠ inst ∨ receipt.runId ≠ runId ∨
      receipt.head ≠ head ∨ receipt.platform ∉ expected ∨ key ∉ attempts.map Prod.fst then
    .error (.mismatchedReceipt receipt.platform)
  else if key ∈ byAttempt.map Prod.fst then .error (.duplicateReceipt receipt.platform)
  else .ok (byAttempt ++ [(key, index)])

/-- One expected platform. -/
def selectPlatform (attempts : JobAttempts) (byAttempt : List ((Text × Nat) × Nat))
    (receiptIndices : List Nat) (platform : Text) : Except ReconcileError (List Nat) :=
  match latestJob attempts platform with
  | none => .error (.invalidCollectionJobs "expected platform has no collection job".toList)
  | some job => do
    let execution ← terminalExecution job
    if execution ≠ .success then .ok receiptIndices
    else
      match byAttempt.find? fun entry => entry.1 = (platform, job.runAttempt) with
      | none => .error (.mismatchedReceipt platform)
      | some entry => .ok (receiptIndices ++ [entry.2])

def reconcile (repository : Repository) (inst : Instance) (runId : Nat) (head : CommitSha)
    (expected : PlatformSet) (jobs : List WorkflowJob) (receipts : List Receipt) :
    Except ReconcileError Selection := do
  let marker := collectionJobPrefix inst ++ [':']
  let attempts ← jobAttempts runId marker expected.platforms jobs
  let byAttempt ← receipts.zipIdx.foldlM
    (indexReceipt repository inst runId head expected.platforms attempts) []
  let receiptIndices ← expected.platforms.foldlM (selectPlatform attempts byAttempt) []
  if receiptIndices.isEmpty then .error .noSuccessfulCollection
  else .ok ⟨receiptIndices, receiptIndices.length = expected.platforms.length⟩

/-! ## Consistent evidence -/

/-- The job collects for the instance on the platform. -/
def Collects (inst : Instance) (job : WorkflowJob) (platform : Text) : Prop :=
  EndsIn " / ".toList job.name (collectionJobPrefix inst ++ ':' :: platform)

section Consistency

variable (inst : Instance) (jobs : List WorkflowJob)

/-- The job of the latest attempt on the platform. -/
def Latest (platform : Text) (job : WorkflowJob) : Prop :=
  job ∈ jobs ∧ Collects inst job platform ∧
    ∀ other ∈ jobs, Collects inst other platform → other.runAttempt ≤ job.runAttempt

def Succeeded (platform : Text) : Prop :=
  ∃ job, Latest inst jobs platform job ∧ job.conclusion = some "success".toList

def knownConclusions : List Text :=
  ["success", "cancelled", "skipped", "failure", "neutral", "timed_out", "action_required"].map
    String.toList

structure Consistent (repository : Repository) (runId : Nat) (head : CommitSha)
    (expected : List Text) (receipts : List Receipt) : Prop where
  runs : ∀ job ∈ jobs, job.runId = runId
  ids : (jobs.map WorkflowJob.id).Nodup
  platforms : ∀ job ∈ jobs, ∀ platform, Collects inst job platform → platform ∈ expected
  attempts : jobs.Pairwise fun a b => ∀ platform, Collects inst a platform →
    Collects inst b platform → a.runAttempt ≠ b.runAttempt
  matching : ∀ receipt ∈ receipts, receipt.repository = repository ∧ receipt.inst = inst ∧
    receipt.runId = runId ∧ receipt.head = head ∧ receipt.platform ∈ expected ∧
    ∃ job ∈ jobs, Collects inst job receipt.platform ∧ job.runAttempt = receipt.runAttempt
  distinct : receipts.Pairwise fun a b => a.platform = b.platform → a.runAttempt ≠ b.runAttempt
  finished : ∀ platform ∈ expected, ∃ job, Latest inst jobs platform job ∧
    job.status = "completed".toList ∧ (∃ conclusion ∈ knownConclusions,
      job.conclusion = some conclusion) ∧
    (job.conclusion = some "success".toList → ∃ receipt ∈ receipts,
      receipt.platform = platform ∧ receipt.runAttempt = job.runAttempt)
  successful : ∃ platform ∈ expected, Succeeded inst jobs platform

end Consistency

/-! ## The jobs -/

section Jobs

variable {inst : Instance} {runId : Nat} {expected : List Text} {jobs : List WorkflowJob}

theorem stripFront_eq_some {text front rest : Text} :
    stripFront text front = some rest ↔ text = front ++ rest := by
  unfold stripFront
  constructor
  · intro h
    split at h
    · next hbegins =>
      obtain ⟨rest', rfl⟩ := List.isPrefixOf_iff_prefix.mp hbegins
      rw [List.drop_left] at h
      exact congrArg (front ++ ·) (Option.some.inj h)
    · exact nomatch h
  · intro h
    rw [h, if_pos (List.isPrefixOf_iff_prefix.mpr (List.prefix_append ..)), List.drop_left]

theorem markedPlatform_eq_some {job : WorkflowJob} {platform : Text} :
    markedPlatform (collectionJobPrefix inst ++ [':']) job.name = some platform ↔
      Collects inst job platform := by
  rw [markedPlatform, stripFront_eq_some, Collects, ← lastPart_eq_iff (by decide),
    List.append_assoc]
  rfl

/-- What the job is in the index under. -/
def jobEntry (marker : Text) (job : WorkflowJob) : Option ((Text × Nat) × WorkflowJob) :=
  (markedPlatform marker job.name).map fun platform => ((platform, job.runAttempt), job)

theorem jobEntry_eq_some {job : WorkflowJob} {entry : (Text × Nat) × WorkflowJob} :
    jobEntry (collectionJobPrefix inst ++ [':']) job = some entry ↔
      Collects inst job entry.1.1 ∧ entry.1.2 = job.runAttempt ∧ entry.2 = job := by
  rw [jobEntry, Option.map_eq_some_iff]
  constructor
  · intro ⟨platform, hplatform, heq⟩
    subst heq
    exact ⟨markedPlatform_eq_some.mp hplatform, rfl, rfl⟩
  · intro ⟨hcollects, hattempt, hjob⟩
    exact ⟨entry.1.1, markedPlatform_eq_some.mpr hcollects,
      Prod.ext (Prod.ext rfl hattempt.symm) hjob.symm⟩

/-- What one job has to meet, and what it adds. -/
theorem indexJob_eq_ok {marker : Text} {state state' : JobAttempts × List Nat}
    {job : WorkflowJob} : indexJob runId marker expected state job = .ok state' ↔
      job.runId = runId ∧ job.id ∉ state.2 ∧
      (∀ platform, markedPlatform marker job.name = some platform →
        isPlatformIdentifier platform = true ∧ platform ∈ expected ∧
        (platform, job.runAttempt) ∉ state.1.map Prod.fst) ∧
      state' = (state.1 ++ (jobEntry marker job).toList, state.2 ++ [job.id]) := by
  obtain ⟨attempts, ids⟩ := state
  unfold indexJob
  simp only [jobEntry]
  by_cases hrun : job.runId ≠ runId ∨ job.id ∈ ids
  · rw [if_pos hrun]
    constructor
    · intro h
      exact nomatch h
    · intro ⟨hsame, hfresh, _⟩
      exact absurd hrun (not_or.mpr ⟨not_not_intro hsame, hfresh⟩)
  · obtain ⟨hsame, hfresh⟩ := not_or.mp hrun
    rw [not_not] at hsame
    rw [if_neg hrun]
    cases hmarked : markedPlatform marker job.name with
    | none =>
      simp only [Option.map_none, Option.toList_none, List.append_nil, Except.ok.injEq]
      constructor
      · intro h
        exact ⟨hsame, hfresh, fun _ h => (nomatch h), h.symm⟩
      · intro h
        exact h.2.2.2.symm
    | some platform =>
      show (validatePlatform platform >>= fun _ => _) = _ ↔ _
      unfold validatePlatform
      by_cases hvalid : isPlatformIdentifier platform = true
      · rw [if_pos hvalid]
        show (if _ then _ else if _ then _ else _) = _ ↔ _
        by_cases hexpected : platform ∉ expected
        · rw [if_pos hexpected]
          constructor
          · intro h
            exact nomatch h
          · intro h
            exact absurd (h.2.2.1 platform rfl).2.1 hexpected
        · rw [if_neg hexpected]
          rw [not_not] at hexpected
          by_cases hkey : (platform, job.runAttempt) ∈ attempts.map Prod.fst
          · rw [if_pos hkey]
            constructor
            · intro h
              exact nomatch h
            · intro h
              exact absurd hkey (h.2.2.1 platform rfl).2.2
          · rw [if_neg hkey, Except.ok.injEq]
            constructor
            · intro h
              refine ⟨hsame, hfresh, fun p hp => ?_, h.symm⟩
              obtain rfl := Option.some.inj hp
              exact ⟨hvalid, hexpected, hkey⟩
            · intro h
              exact h.2.2.2.symm
      · rw [if_neg hvalid]
        constructor
        · intro h
          exact nomatch h
        · intro h
          exact absurd (h.2.2.1 platform rfl).1 hvalid

/-- The loop over the jobs, whatever their order. -/
theorem foldlM_indexJob {marker : Text} {state : JobAttempts × List Nat} :
    jobs.foldlM (indexJob runId marker expected) ([], []) = .ok state ↔
      (∀ job ∈ jobs, job.runId = runId) ∧ (jobs.map WorkflowJob.id).Nodup ∧
      (∀ job ∈ jobs, ∀ platform, markedPlatform marker job.name = some platform →
        isPlatformIdentifier platform = true ∧ platform ∈ expected) ∧
      ((jobs.filterMap (jobEntry marker)).map Prod.fst).Nodup ∧
      state = (jobs.filterMap (jobEntry marker), jobs.map WorkflowJob.id) := by
  induction jobs using List.reverseRecOn generalizing state with
  | nil =>
    show Except.ok _ = _ ↔ _
    rw [Except.ok.injEq]
    exact ⟨fun h => ⟨nofun, List.nodup_nil, nofun, List.nodup_nil, h.symm⟩,
      fun h => h.2.2.2.2.symm⟩
  | append_singleton jobs job ih =>
    have hentry : [job].filterMap (jobEntry marker) = (jobEntry marker job).toList := by
      rw [List.filterMap_cons]
      cases jobEntry marker job with
      | none => rfl
      | some entry => rfl
    have hnodup : ∀ entries : JobAttempts,
        ((entries.map Prod.fst) ++ ((jobEntry marker job).toList).map Prod.fst).Nodup ↔
          (entries.map Prod.fst).Nodup ∧ ∀ platform, markedPlatform marker job.name =
            some platform → (platform, job.runAttempt) ∉ entries.map Prod.fst := by
      intro entries
      unfold jobEntry
      cases markedPlatform marker job.name with
      | none =>
        rw [Option.map_none, Option.toList_none, List.map_nil, List.append_nil]
        exact ⟨fun h => ⟨h, fun _ h => nomatch h⟩, fun h => h.1⟩
      | some platform =>
        rw [Option.map_some, Option.toList_some, List.map_singleton,
          ← List.concat_eq_append, List.nodup_concat]
        refine and_comm.trans (and_congr_right fun _ => ?_)
        constructor
        · intro h p hp
          exact Option.some.inj hp ▸ h
        · intro h
          exact h platform rfl
    have hfresh : (jobs.map WorkflowJob.id ++ [job.id]).Nodup ↔
        (jobs.map WorkflowJob.id).Nodup ∧ job.id ∉ jobs.map WorkflowJob.id := by
      rw [← List.concat_eq_append, List.nodup_concat]
      exact and_comm
    rw [List.foldlM_append, bind_eq_ok, List.filterMap_append, hentry, List.map_append,
      List.map_append, List.map_singleton, hnodup, hfresh]
    simp only [List.foldlM_cons, List.foldlM_nil, bind_pure, ih, indexJob_eq_ok,
      List.forall_mem_append, List.forall_mem_singleton]
    constructor
    · intro ⟨before, ⟨hruns, hids, hplatforms, hkeys, hbefore⟩, hrun, hid, hplatform, hstate⟩
      subst hbefore
      exact ⟨⟨hruns, hrun⟩, ⟨hids, hid⟩,
        ⟨hplatforms, fun p hp => ⟨(hplatform p hp).1, (hplatform p hp).2.1⟩⟩,
        ⟨hkeys, fun p hp => (hplatform p hp).2.2⟩, hstate⟩
    · intro ⟨⟨hruns, hrun⟩, ⟨hids, hid⟩, ⟨hplatforms, hplatform⟩, ⟨hkeys, hkey⟩, hstate⟩
      exact ⟨_, ⟨hruns, hids, hplatforms, hkeys, rfl⟩, hrun, hid,
        fun p hp => ⟨(hplatform p hp).1, (hplatform p hp).2, hkey p hp⟩, hstate⟩

/-- The index of the jobs, by their platforms and attempts. -/
def entriesOf (inst : Instance) (jobs : List WorkflowJob) : JobAttempts :=
  jobs.filterMap (jobEntry (collectionJobPrefix inst ++ [':']))

theorem mem_entriesOf {entry : (Text × Nat) × WorkflowJob} : entry ∈ entriesOf inst jobs ↔
    entry.2 ∈ jobs ∧ Collects inst entry.2 entry.1.1 ∧ entry.1.2 = entry.2.runAttempt := by
  rw [entriesOf, List.mem_filterMap]
  constructor
  · intro ⟨job, hjob, hentry⟩
    obtain ⟨hcollects, hattempt, rfl⟩ := jobEntry_eq_some.mp hentry
    exact ⟨hjob, hcollects, hattempt⟩
  · intro ⟨hjob, hcollects, hattempt⟩
    exact ⟨entry.2, hjob, jobEntry_eq_some.mpr ⟨hcollects, hattempt, rfl⟩⟩

theorem mem_keys {key : Text × Nat} : key ∈ (entriesOf inst jobs).map Prod.fst ↔
    ∃ job ∈ jobs, Collects inst job key.1 ∧ job.runAttempt = key.2 := by
  rw [List.mem_map]
  constructor
  · intro ⟨entry, hentry, hkey⟩
    obtain ⟨hjob, hcollects, hattempt⟩ := mem_entriesOf.mp hentry
    subst hkey
    exact ⟨entry.2, hjob, hcollects, hattempt.symm⟩
  · intro ⟨job, hjob, hcollects, hattempt⟩
    exact ⟨(key, job), mem_entriesOf.mpr ⟨hjob, hcollects, hattempt.symm⟩, rfl⟩

theorem nodup_keys_iff : ((entriesOf inst jobs).map Prod.fst).Nodup ↔
    jobs.Pairwise fun a b => ∀ platform, Collects inst a platform →
      Collects inst b platform → a.runAttempt ≠ b.runAttempt := by
  rw [List.Nodup, List.pairwise_map, entriesOf, List.pairwise_filterMap]
  have hrel : ∀ a b : WorkflowJob,
      (∀ x, jobEntry (collectionJobPrefix inst ++ [':']) a = some x →
        ∀ y, jobEntry (collectionJobPrefix inst ++ [':']) b = some y → x.1 ≠ y.1) ↔
      ∀ platform, Collects inst a platform → Collects inst b platform →
        a.runAttempt ≠ b.runAttempt := by
    intro a b
    constructor
    · intro h platform ha hb heq
      exact h ((platform, a.runAttempt), a) (jobEntry_eq_some.mpr ⟨ha, rfl, rfl⟩)
        ((platform, b.runAttempt), b) (jobEntry_eq_some.mpr ⟨hb, rfl, rfl⟩)
        (Prod.ext rfl heq)
    · intro h x hx y hy heq
      obtain ⟨hxc, hxa, -⟩ := jobEntry_eq_some.mp hx
      obtain ⟨hyc, hya, -⟩ := jobEntry_eq_some.mp hy
      refine h x.1.1 hxc (heq ▸ hyc) ?_
      rw [← hxa, ← hya, heq]
  exact ⟨fun h => h.imp fun hab => (hrel _ _).mp hab, fun h => h.imp fun hab => (hrel _ _).mpr hab⟩

/-- The range of the index ends in the latest attempt. -/
theorem latestJob_eq_some (hkeys : ((entriesOf inst jobs).map Prod.fst).Nodup) {platform : Text}
    {job : WorkflowJob} :
    latestJob (entriesOf inst jobs) platform = some job ↔ Latest inst jobs platform job := by
  have hmem : ∀ entry, entry ∈ (entriesOf inst jobs).filter (fun entry => entry.1.1 = platform) ↔
      entry.2 ∈ jobs ∧ Collects inst entry.2 platform ∧ entry.1 = (platform, entry.2.runAttempt) := by
    intro entry
    rw [List.mem_filter, mem_entriesOf, decide_eq_true_eq]
    constructor
    · intro ⟨⟨hjob, hcollects, hattempt⟩, hplatform⟩
      exact ⟨hjob, hplatform ▸ hcollects, Prod.ext hplatform hattempt⟩
    · intro ⟨hjob, hcollects, hkey⟩
      rw [hkey]
      exact ⟨⟨hjob, hcollects, rfl⟩, rfl⟩
  rw [latestJob, Option.map_eq_some_iff]
  constructor
  · intro ⟨entry, hmax, hjob⟩
    subst hjob
    obtain ⟨hjob, hcollects, hkey⟩ := (hmem entry).mp (List.argmax_mem hmax)
    refine ⟨hjob, hcollects, fun other hother hcollects' => ?_⟩
    have hle := List.le_of_mem_argmax
      ((hmem ((platform, other.runAttempt), other)).mpr ⟨hother, hcollects', rfl⟩) hmax
    rw [hkey] at hle
    exact hle
  · intro ⟨hjob, hcollects, hlatest⟩
    have hin := (hmem ((platform, job.runAttempt), job)).mpr ⟨hjob, hcollects, rfl⟩
    cases hmax : ((entriesOf inst jobs).filter fun entry => entry.1.1 = platform).argmax
        fun entry => entry.1.2 with
    | none =>
      rw [List.argmax_eq_none.mp hmax] at hin
      exact absurd hin List.not_mem_nil
    | some entry =>
      obtain ⟨hentry, hcollects', hkey⟩ := (hmem entry).mp (List.argmax_mem hmax)
      have hle := List.le_of_mem_argmax hin hmax
      have hge := hlatest entry.2 hentry hcollects'
      have hsame : entry = ((platform, job.runAttempt), job) := by
        refine List.inj_on_of_nodup_map hkeys
          (List.mem_of_mem_filter (List.argmax_mem hmax)) (List.mem_of_mem_filter hin) ?_
        rw [hkey] at hle ⊢
        exact Prod.ext rfl (Nat.le_antisymm hge hle)
      exact ⟨entry, rfl, congrArg Prod.snd hsame⟩

/-- The job has run to an end that is understood. -/
def Finished (job : WorkflowJob) : Prop :=
  job.status = "completed".toList ∧ ∃ conclusion ∈ knownConclusions,
    job.conclusion = some conclusion

theorem exists_terminalExecution {job : WorkflowJob} :
    (∃ execution, terminalExecution job = .ok execution) ↔ Finished job := by
  unfold terminalExecution Finished
  by_cases hstatus : job.status = "completed".toList
  · rw [if_neg (not_not_intro hstatus)]
    cases job.conclusion with
    | none => exact ⟨fun ⟨_, h⟩ => (nomatch h), fun ⟨_, _, _, h⟩ => (nomatch h)⟩
    | some conclusion =>
      simp only [Option.some.injEq, exists_eq_right', hstatus, true_and]
      have hknown : conclusion ∈ knownConclusions ↔ conclusion = "success".toList ∨
          conclusion = "cancelled".toList ∨ conclusion = "skipped".toList ∨
          conclusion ∈ ["failure".toList, "neutral".toList, "timed_out".toList,
            "action_required".toList] := by
        simp only [knownConclusions, List.map_cons, List.map_nil, List.mem_cons]
      rw [hknown]
      by_cases hsuccess : conclusion = "success".toList
      · rw [if_pos hsuccess]
        exact ⟨fun _ => Or.inl hsuccess, fun _ => ⟨_, rfl⟩⟩
      · rw [if_neg hsuccess]
        by_cases hcancelled : conclusion = "cancelled".toList
        · rw [if_pos hcancelled]
          exact ⟨fun _ => Or.inr (Or.inl hcancelled), fun _ => ⟨_, rfl⟩⟩
        · rw [if_neg hcancelled]
          by_cases hskipped : conclusion = "skipped".toList
          · rw [if_pos hskipped]
            exact ⟨fun _ => Or.inr (Or.inr (Or.inl hskipped)), fun _ => ⟨_, rfl⟩⟩
          · rw [if_neg hskipped]
            split
            · next hfailure =>
              exact ⟨fun _ => Or.inr (Or.inr (Or.inr hfailure)), fun _ => ⟨_, rfl⟩⟩
            · next hfailure =>
              constructor
              · intro ⟨_, h⟩
                exact nomatch h
              · intro h
                exact absurd h (not_or.mpr ⟨hsuccess, not_or.mpr ⟨hcancelled,
                  not_or.mpr ⟨hskipped, hfailure⟩⟩⟩)
  · rw [if_pos hstatus]
    exact ⟨fun ⟨_, h⟩ => (nomatch h), fun h => absurd h.1 hstatus⟩

/-- Of the conclusions, only one is a success. -/
theorem terminalExecution_eq_success {job : WorkflowJob} {execution : Execution}
    (h : terminalExecution job = .ok execution) :
    execution = .success ↔ job.conclusion = some "success".toList := by
  unfold terminalExecution at h
  split at h
  · exact nomatch h
  · cases hconclusion : job.conclusion with
    | none =>
      rw [hconclusion] at h
      exact nomatch h
    | some conclusion =>
      simp only [hconclusion] at h
      rw [Option.some.injEq]
      by_cases hsuccess : conclusion = "success".toList
      · rw [if_pos hsuccess] at h
        exact ⟨fun _ => hsuccess, fun _ => (Except.ok.inj h).symm⟩
      · rw [if_neg hsuccess] at h
        refine ⟨fun heq => ?_, fun heq => absurd heq hsuccess⟩
        subst heq
        split at h
        · exact nomatch h
        · split at h
          · exact nomatch h
          · split at h <;> exact nomatch h

end Jobs

/-! ## The receipts and the platforms -/

section Receipts

variable {repository : Repository} {inst : Instance} {runId : Nat} {head : CommitSha}
  {expected : List Text} {attempts : JobAttempts} {receipts : List Receipt}

def receiptKey (receipt : Receipt) : Text × Nat := (receipt.platform, receipt.runAttempt)

/-- The receipt is of what is asked for, and of a job. -/
def Matching (repository : Repository) (inst : Instance) (runId : Nat) (head : CommitSha)
    (expected : List Text) (attempts : JobAttempts) (receipt : Receipt) : Prop :=
  receipt.repository = repository ∧ receipt.inst = inst ∧ receipt.runId = runId ∧
    receipt.head = head ∧ receipt.platform ∈ expected ∧ receiptKey receipt ∈ attempts.map Prod.fst

theorem indexReceipt_eq_ok {byAttempt byAttempt' : List ((Text × Nat) × Nat)}
    {entry : Receipt × Nat} :
    indexReceipt repository inst runId head expected attempts byAttempt entry = .ok byAttempt' ↔
      Matching repository inst runId head expected attempts entry.1 ∧
      receiptKey entry.1 ∉ byAttempt.map Prod.fst ∧
      byAttempt' = byAttempt ++ [(receiptKey entry.1, entry.2)] := by
  obtain ⟨receipt, index⟩ := entry
  unfold indexReceipt Matching
  dsimp only
  split
  · next hmismatch =>
    constructor
    · intro h
      exact nomatch h
    · intro ⟨hmatching, _⟩
      simp only [receiptKey] at hmatching
      tauto
  · next hmatching =>
    have hmatching' : receipt.repository = repository ∧ receipt.inst = inst ∧
        receipt.runId = runId ∧ receipt.head = head ∧ receipt.platform ∈ expected ∧
        receiptKey receipt ∈ attempts.map Prod.fst := by
      simp only [receiptKey]
      tauto
    split
    · next hkey =>
      constructor
      · intro h
        exact nomatch h
      · intro h
        exact absurd hkey h.2.1
    · next hkey =>
      rw [Except.ok.injEq]
      exact ⟨fun h => ⟨hmatching', hkey, h.symm⟩, fun h => h.2.2.symm⟩

theorem foldlM_indexReceipt {entries : List (Receipt × Nat)}
    {byAttempt : List ((Text × Nat) × Nat)} :
    entries.foldlM (indexReceipt repository inst runId head expected attempts) [] = .ok byAttempt ↔
      (∀ entry ∈ entries, Matching repository inst runId head expected attempts entry.1) ∧
      (entries.map fun entry => receiptKey entry.1).Nodup ∧
      byAttempt = entries.map fun entry => (receiptKey entry.1, entry.2) := by
  induction entries using List.reverseRecOn generalizing byAttempt with
  | nil =>
    show Except.ok _ = _ ↔ _
    rw [Except.ok.injEq]
    exact ⟨fun h => ⟨nofun, List.nodup_nil, h.symm⟩, fun h => h.2.2.symm⟩
  | append_singleton entries entry ih =>
    have hkeys : ((entries.map fun entry => (receiptKey entry.1, entry.2)).map Prod.fst) =
        entries.map fun entry => receiptKey entry.1 := by
      rw [List.map_map]
      rfl
    have hfresh : ((entries.map fun entry => receiptKey entry.1) ++ [receiptKey entry.1]).Nodup ↔
        (entries.map fun entry => receiptKey entry.1).Nodup ∧
          receiptKey entry.1 ∉ entries.map fun entry => receiptKey entry.1 := by
      rw [← List.concat_eq_append, List.nodup_concat]
      exact and_comm
    rw [List.foldlM_append, bind_eq_ok, List.map_append, List.map_append, List.map_singleton,
      List.map_singleton, hfresh]
    simp only [List.foldlM_cons, List.foldlM_nil, bind_pure, ih, indexReceipt_eq_ok,
      List.forall_mem_append, List.forall_mem_singleton]
    constructor
    · intro ⟨before, ⟨hmatching, hnodup, hbefore⟩, hmatch, hkey, hafter⟩
      subst hbefore
      rw [hkeys] at hkey
      exact ⟨⟨hmatching, hmatch⟩, ⟨hnodup, hkey⟩, hafter⟩
    · intro ⟨⟨hmatching, hmatch⟩, ⟨hnodup, hkey⟩, hafter⟩
      rw [← hkeys] at hkey
      exact ⟨_, ⟨hmatching, hnodup, rfl⟩, hmatch, hkey, hafter⟩

/-- The receipts with their places. -/
def indexedReceipts (receipts : List Receipt) : List ((Text × Nat) × Nat) :=
  receipts.zipIdx.map fun entry => (receiptKey entry.1, entry.2)

theorem mem_indexedReceipts {key : Text × Nat} {index : Nat} :
    (key, index) ∈ indexedReceipts receipts ↔
      ∃ receipt, receipts[index]? = some receipt ∧ receiptKey receipt = key := by
  rw [indexedReceipts, List.mem_map]
  constructor
  · intro ⟨⟨receipt, place⟩, hentry, heq⟩
    obtain ⟨hkey, hplace⟩ := Prod.mk.inj heq
    subst hplace
    exact ⟨receipt, List.mem_zipIdx_iff_getElem?.mp hentry, hkey⟩
  · intro ⟨receipt, hreceipt, hkey⟩
    exact ⟨(receipt, index), List.mem_zipIdx_iff_getElem?.mpr hreceipt, Prod.ext hkey rfl⟩

/-- The place of the receipt that a platform is selected by, if its latest
attempt has succeeded. -/
def chosenIndex (attempts : JobAttempts) (byAttempt : List ((Text × Nat) × Nat))
    (platform : Text) : Option Nat :=
  (latestJob attempts platform).bind fun job =>
    if job.conclusion = some "success".toList then
      (byAttempt.find? fun entry => entry.1 = (platform, job.runAttempt)).map Prod.snd
    else none

theorem selectPlatform_eq_ok {byAttempt : List ((Text × Nat) × Nat)} {indices indices' : List Nat}
    {platform : Text} : selectPlatform attempts byAttempt indices platform = .ok indices' ↔
      (∃ job, latestJob attempts platform = some job ∧ Finished job ∧
        (job.conclusion = some "success".toList →
          (platform, job.runAttempt) ∈ byAttempt.map Prod.fst)) ∧
      indices' = indices ++ (chosenIndex attempts byAttempt platform).toList := by
  unfold selectPlatform chosenIndex
  cases hlatest : latestJob attempts platform with
  | none => exact ⟨fun h => (nomatch h), fun ⟨⟨_, h, _⟩, _⟩ => (nomatch h)⟩
  | some job =>
    simp only [Option.some.injEq, exists_eq_left', Option.bind_some]
    cases hterminal : terminalExecution job with
    | error e =>
      constructor
      · intro h
        exact nomatch h
      · intro ⟨⟨hfinished, _⟩, _⟩
        obtain ⟨execution, hok⟩ := exists_terminalExecution.mpr hfinished
        exact nomatch hterminal.symm.trans hok
    | ok execution =>
      have hfinished := exists_terminalExecution.mp ⟨execution, hterminal⟩
      have hsuccess := terminalExecution_eq_success hterminal
      show (if execution ≠ .success then _ else _) = _ ↔ _
      by_cases hexecution : execution = .success
      · have hconclusion := hsuccess.mp hexecution
        rw [if_neg (not_not_intro hexecution), if_pos hconclusion]
        cases hfind : byAttempt.find? fun entry => entry.1 = (platform, job.runAttempt) with
        | none =>
          constructor
          · intro h
            exact nomatch h
          · intro ⟨⟨_, hreceipt⟩, _⟩
            obtain ⟨entry, hentry, hkey⟩ := List.mem_map.mp (hreceipt hconclusion)
            exact absurd (decide_eq_true hkey) (List.find?_eq_none.mp hfind entry hentry)
        | some entry =>
          have hkey := List.find?_some hfind
          rw [decide_eq_true_eq] at hkey
          rw [Except.ok.injEq]
          constructor
          · intro h
            refine ⟨⟨hfinished, fun _ => ?_⟩, h.symm⟩
            exact List.mem_map.mpr ⟨entry, List.mem_of_find?_eq_some hfind, hkey⟩
          · intro h
            exact h.2.symm
      · have hconclusion := fun h => hexecution (hsuccess.mpr h)
        rw [if_pos hexecution, if_neg hconclusion, Except.ok.injEq, Option.toList_none,
          List.append_nil]
        exact ⟨fun h => ⟨⟨hfinished, fun h => absurd h hconclusion⟩, h.symm⟩, fun h => h.2.symm⟩

theorem foldlM_selectPlatform {byAttempt : List ((Text × Nat) × Nat)} {indices : List Nat} :
    expected.foldlM (selectPlatform attempts byAttempt) [] = .ok indices ↔
      (∀ platform ∈ expected, ∃ job, latestJob attempts platform = some job ∧ Finished job ∧
        (job.conclusion = some "success".toList →
          (platform, job.runAttempt) ∈ byAttempt.map Prod.fst)) ∧
      indices = expected.filterMap (chosenIndex attempts byAttempt) := by
  induction expected using List.reverseRecOn generalizing indices with
  | nil =>
    show Except.ok _ = _ ↔ _
    rw [Except.ok.injEq]
    exact ⟨fun h => ⟨nofun, h.symm⟩, fun h => h.2.symm⟩
  | append_singleton expected platform ih =>
    have hone : [platform].filterMap (chosenIndex attempts byAttempt) =
        (chosenIndex attempts byAttempt platform).toList := by
      rw [List.filterMap_cons]
      cases chosenIndex attempts byAttempt platform with
      | none => rfl
      | some index => rfl
    rw [List.foldlM_append, bind_eq_ok, List.filterMap_append, hone]
    simp only [List.foldlM_cons, List.foldlM_nil, bind_pure, ih, selectPlatform_eq_ok,
      List.forall_mem_append, List.forall_mem_singleton]
    constructor
    · intro ⟨before, ⟨hplatforms, hbefore⟩, hplatform, hafter⟩
      subst hbefore
      exact ⟨⟨hplatforms, hplatform⟩, hafter⟩
    · intro ⟨⟨hplatforms, hplatform⟩, hafter⟩
      exact ⟨_, ⟨hplatforms, rfl⟩, hplatform, hafter⟩

end Receipts

/-! ## The decision -/

section Decision

variable {repository : Repository} {inst : Instance} {runId : Nat} {head : CommitSha}
  {expected : PlatformSet} {jobs jobs' : List WorkflowJob} {receipts receipts' : List Receipt}

theorem map_receiptKey (receipts : List Receipt) :
    (receipts.zipIdx.map fun entry => receiptKey entry.1) = receipts.map receiptKey := by
  conv_rhs => rw [← List.zipIdx_map_fst 0 receipts]
  rw [List.map_map]
  rfl

theorem nodup_receiptKey_iff : (receipts.map receiptKey).Nodup ↔
    receipts.Pairwise fun a b => a.platform = b.platform → a.runAttempt ≠ b.runAttempt := by
  rw [List.Nodup, List.pairwise_map]
  have hrel : ∀ a b : Receipt, receiptKey a ≠ receiptKey b ↔
      (a.platform = b.platform → a.runAttempt ≠ b.runAttempt) := by
    intro a b
    rw [Ne, receiptKey, receiptKey, Prod.mk.injEq, not_and]
  exact ⟨fun h => h.imp fun hab => (hrel _ _).mp hab, fun h => h.imp fun hab => (hrel _ _).mpr hab⟩

theorem mem_indexedKeys {platform : Text} {attempt : Nat} :
    (platform, attempt) ∈ (indexedReceipts receipts).map Prod.fst ↔
      ∃ receipt ∈ receipts, receipt.platform = platform ∧ receipt.runAttempt = attempt := by
  rw [List.mem_map]
  constructor
  · intro ⟨⟨key, index⟩, hentry, hkey⟩
    obtain ⟨receipt, hreceipt, rfl⟩ := mem_indexedReceipts.mp hentry
    obtain ⟨hplatform, hattempt⟩ := Prod.mk.inj hkey
    exact ⟨receipt, List.mem_of_getElem? hreceipt, hplatform, hattempt⟩
  · intro ⟨receipt, hreceipt, hplatform, hattempt⟩
    obtain ⟨index, hindex⟩ := List.mem_iff_getElem?.mp hreceipt
    exact ⟨((platform, attempt), index),
      mem_indexedReceipts.mpr ⟨receipt, hindex, Prod.ext hplatform hattempt⟩, rfl⟩

theorem chosenIndex_eq_some (hkeys : ((entriesOf inst jobs).map Prod.fst).Nodup) {platform : Text}
    {index : Nat}
    (h : chosenIndex (entriesOf inst jobs) (indexedReceipts receipts) platform = some index) :
    ∃ job receipt, Latest inst jobs platform job ∧ job.conclusion = some "success".toList ∧
      receipts[index]? = some receipt ∧ receiptKey receipt = (platform, job.runAttempt) := by
  obtain ⟨job, hjob, h⟩ := Option.bind_eq_some_iff.mp h
  split at h
  · next hconclusion =>
    obtain ⟨⟨key, place⟩, hfind, hplace⟩ := Option.map_eq_some_iff.mp h
    have hkey := List.find?_some hfind
    rw [decide_eq_true_eq] at hkey
    subst hplace
    obtain ⟨receipt, hreceipt, hsame⟩ :=
      mem_indexedReceipts.mp (List.mem_of_find?_eq_some hfind)
    exact ⟨job, receipt, (latestJob_eq_some hkeys).mp hjob, hconclusion, hreceipt,
      hsame.trans hkey⟩
  · exact nomatch h

theorem exists_chosenIndex (hkeys : ((entriesOf inst jobs).map Prod.fst).Nodup) {platform : Text}
    {job : WorkflowJob} {receipt : Receipt} (hjob : Latest inst jobs platform job)
    (hconclusion : job.conclusion = some "success".toList) (hreceipt : receipt ∈ receipts)
    (hkey : receiptKey receipt = (platform, job.runAttempt)) :
    ∃ index, chosenIndex (entriesOf inst jobs) (indexedReceipts receipts) platform =
      some index := by
  unfold chosenIndex
  rw [(latestJob_eq_some hkeys).mpr hjob, Option.bind_some, if_pos hconclusion]
  cases hfind : (indexedReceipts receipts).find? fun entry =>
      entry.1 = (platform, job.runAttempt) with
  | some entry => exact ⟨entry.2, rfl⟩
  | none =>
    obtain ⟨index, hindex⟩ := List.mem_iff_getElem?.mp hreceipt
    have hentry := mem_indexedReceipts.mpr ⟨receipt, hindex, hkey⟩
    exact absurd (decide_eq_true rfl) (List.find?_eq_none.mp hfind _ hentry)

/-- Of consistent evidence, what has succeeded is chosen. -/
theorem Consistent.chosen (h : Consistent inst jobs repository runId head expected.platforms
    receipts) {platform : Text} (hplatform : platform ∈ expected.platforms) :
    (∃ index, chosenIndex (entriesOf inst jobs) (indexedReceipts receipts) platform =
      some index) ↔ Succeeded inst jobs platform := by
  have hkeys := nodup_keys_iff.mpr h.attempts
  constructor
  · intro ⟨index, hindex⟩
    obtain ⟨job, -, hjob, hconclusion, -⟩ := chosenIndex_eq_some hkeys hindex
    exact ⟨job, hjob, hconclusion⟩
  · intro ⟨job, hjob, hconclusion⟩
    obtain ⟨latest, hlatest, -, -, hreceipt⟩ := h.finished platform hplatform
    obtain rfl : job = latest := Option.some.inj
      (((latestJob_eq_some hkeys).mpr hjob).symm.trans ((latestJob_eq_some hkeys).mpr hlatest))
    obtain ⟨receipt, hmem, hsame, hattempt⟩ := hreceipt hconclusion
    exact exists_chosenIndex hkeys hjob hconclusion hmem (Prod.ext hsame hattempt)

/-- The selection of consistent evidence. -/
def latestSelection (inst : Instance) (jobs : List WorkflowJob) (expected : List Text)
    (receipts : List Receipt) : Selection :=
  let receiptIndices :=
    expected.filterMap (chosenIndex (entriesOf inst jobs) (indexedReceipts receipts))
  ⟨receiptIndices, receiptIndices.length = expected.length⟩

/-- What the loops have to meet, and what they give. -/
theorem reconcile_eq_ok {selection : Selection} :
    reconcile repository inst runId head expected jobs receipts = .ok selection ↔
      Consistent inst jobs repository runId head expected.platforms receipts ∧
      selection = latestSelection inst jobs expected.platforms receipts := by
  unfold reconcile jobAttempts
  simp only [bind_eq_ok, map_eq_ok]
  constructor
  · intro ⟨attempts, ⟨state, hjobs, hattempts⟩, byAttempt, hreceipts, indices, hindices, h⟩
    obtain ⟨hruns, hids, hplatforms, hkeys, hstate⟩ := foldlM_indexJob.mp hjobs
    obtain rfl : attempts = entriesOf inst jobs := by rw [← hattempts, hstate]; rfl
    obtain ⟨hmatching, hdistinct, hby⟩ := foldlM_indexReceipt.mp hreceipts
    obtain rfl : byAttempt = indexedReceipts receipts := hby
    obtain ⟨hfinished, rfl⟩ := foldlM_selectPlatform.mp hindices
    rw [map_receiptKey] at hdistinct
    split at h
    · exact nomatch h
    · next hsome =>
      refine ⟨?_, (Except.ok.inj h).symm⟩
      exact {
        runs := hruns
        ids := hids
        platforms := fun job hjob platform hcollects =>
          (hplatforms job hjob platform (markedPlatform_eq_some.mpr hcollects)).2
        attempts := nodup_keys_iff.mp hkeys
        matching := fun receipt hreceipt => by
          obtain ⟨index, hindex⟩ := List.mem_iff_getElem?.mp hreceipt
          obtain ⟨h₁, h₂, h₃, h₄, h₅, h₆⟩ :=
            hmatching (receipt, index) (List.mem_zipIdx_iff_getElem?.mpr hindex)
          exact ⟨h₁, h₂, h₃, h₄, h₅, mem_keys.mp h₆⟩
        distinct := nodup_receiptKey_iff.mp hdistinct
        finished := fun platform hplatform => by
          obtain ⟨job, hjob, ⟨hstatus, hknown⟩, hreceipt⟩ := hfinished platform hplatform
          exact ⟨job, (latestJob_eq_some hkeys).mp hjob, hstatus, hknown,
            fun hsuccess => mem_indexedKeys.mp (hreceipt hsuccess)⟩
        successful := by
          rw [Bool.not_eq_true, List.isEmpty_eq_false_iff] at hsome
          obtain ⟨index, hindex⟩ := List.exists_mem_of_ne_nil _ hsome
          obtain ⟨platform, hplatform, hchosen⟩ := List.mem_filterMap.mp hindex
          obtain ⟨job, -, hjob, hconclusion, -⟩ := chosenIndex_eq_some hkeys hchosen
          exact ⟨platform, hplatform, job, hjob, hconclusion⟩ }
  · intro ⟨hconsistent, hselection⟩
    have hkeys := nodup_keys_iff.mpr hconsistent.attempts
    have hindices := congrArg Selection.receiptIndices hselection
    refine ⟨entriesOf inst jobs, ⟨_, foldlM_indexJob.mpr ⟨hconsistent.runs, hconsistent.ids, ?_,
      hkeys, rfl⟩, rfl⟩, indexedReceipts receipts, foldlM_indexReceipt.mpr ⟨?_, ?_, rfl⟩,
      selection.receiptIndices, foldlM_selectPlatform.mpr ⟨?_, hindices⟩, ?_⟩
    · intro job hjob platform hmarked
      have hexpected :=
        hconsistent.platforms job hjob platform (markedPlatform_eq_some.mp hmarked)
      exact ⟨expected.identifiers platform hexpected, hexpected⟩
    · intro entry hentry
      obtain ⟨h₁, h₂, h₃, h₄, h₅, h₆⟩ := hconsistent.matching entry.1
        (List.mem_of_getElem? (List.mem_zipIdx_iff_getElem?.mp hentry))
      exact ⟨h₁, h₂, h₃, h₄, h₅, mem_keys.mpr h₆⟩
    · rw [map_receiptKey]
      exact nodup_receiptKey_iff.mpr hconsistent.distinct
    · intro platform hplatform
      obtain ⟨job, hjob, hstatus, hknown, hreceipt⟩ := hconsistent.finished platform hplatform
      exact ⟨job, (latestJob_eq_some hkeys).mpr hjob, ⟨hstatus, hknown⟩,
        fun hsuccess => mem_indexedKeys.mpr (hreceipt hsuccess)⟩
    · -- a platform that has succeeded is selected
      obtain ⟨platform, hplatform, hsucceeded⟩ := hconsistent.successful
      obtain ⟨index, hindex⟩ := (hconsistent.chosen hplatform).mpr hsucceeded
      have hsome : selection.receiptIndices.isEmpty = false := by
        rw [List.isEmpty_eq_false_iff, hindices]
        exact List.ne_nil_of_mem (List.mem_filterMap.mpr ⟨platform, hplatform, hindex⟩)
      rw [hsome, if_neg Bool.false_ne_true, hselection]
      rfl

/-- What is selected: in the order of the platforms, the receipt of each latest
attempt that has succeeded. -/
def Selects (inst : Instance) (jobs : List WorkflowJob) (expected : List Text)
    (receipts : List Receipt) (selection : Selection) : Prop :=
  (selection.complete = true ↔ ∀ platform ∈ expected, Succeeded inst jobs platform) ∧
    ∃ succeeded, succeeded.Sublist expected ∧
      (∀ platform, platform ∈ succeeded ↔
        platform ∈ expected ∧ Succeeded inst jobs platform) ∧
      List.Forall₂ (fun platform index => ∃ job receipt, Latest inst jobs platform job ∧
        receipts[index]? = some receipt ∧ receipt.platform = platform ∧
        receipt.runAttempt = job.runAttempt) succeeded selection.receiptIndices

theorem forall₂_filterMap {α β : Type} (f : α → Option β) (xs : List α) :
    List.Forall₂ (fun x y => f x = some y) (xs.filter fun x => (f x).isSome) (xs.filterMap f) := by
  induction xs with
  | nil => exact .nil
  | cons x xs ih =>
    cases hx : f x with
    | none => rwa [List.filter_cons_of_neg (by rw [hx]; exact Bool.false_ne_true),
        List.filterMap_cons_none hx]
    | some y =>
      rw [List.filter_cons_of_pos (by rw [hx]; rfl), List.filterMap_cons_some hx]
      exact .cons hx ih

theorem selects_of_eq_ok {selection : Selection}
    (h : reconcile repository inst runId head expected jobs receipts = .ok selection) :
    Selects inst jobs expected.platforms receipts selection := by
  obtain ⟨hconsistent, rfl⟩ := reconcile_eq_ok.mp h
  have hkeys := nodup_keys_iff.mpr hconsistent.attempts
  have hisSome : ∀ platform ∈ expected.platforms,
      ((chosenIndex (entriesOf inst jobs) (indexedReceipts receipts) platform).isSome = true ↔
        Succeeded inst jobs platform) := by
    intro platform hplatform
    rw [Option.isSome_iff_exists]
    exact hconsistent.chosen hplatform
  refine ⟨?_, expected.platforms.filter fun platform =>
    (chosenIndex (entriesOf inst jobs) (indexedReceipts receipts) platform).isSome,
    List.filter_sublist, ?_, ?_⟩
  · show decide _ = true ↔ _
    rw [decide_eq_true_eq, List.filterMap_length_eq_length]
    exact ⟨fun hall p hp => (hisSome p hp).mp (hall p hp),
      fun hall p hp => (hisSome p hp).mpr (hall p hp)⟩
  · intro platform
    rw [List.mem_filter]
    exact and_congr_right fun hplatform => hisSome platform hplatform
  · refine (forall₂_filterMap _ expected.platforms).imp fun platform index hchosen => ?_
    obtain ⟨job, receipt, hjob, -, hreceipt, hkey⟩ := chosenIndex_eq_some hkeys hchosen
    obtain ⟨hplatform, hattempt⟩ := Prod.mk.inj hkey
    exact ⟨job, receipt, hjob, hreceipt, hplatform, hattempt⟩

/-! ## Other orders -/

theorem latest_perm (hjobs : jobs'.Perm jobs) {platform : Text} {job : WorkflowJob} :
    Latest inst jobs' platform job ↔ Latest inst jobs platform job := by
  unfold Latest
  simp only [hjobs.mem_iff]

theorem succeeded_perm (hjobs : jobs'.Perm jobs) {platform : Text} :
    Succeeded inst jobs' platform ↔ Succeeded inst jobs platform := by
  unfold Succeeded
  simp only [latest_perm hjobs]

/-- Consistency does not depend on the order of the evidence. -/
theorem Consistent.perm (h : Consistent inst jobs repository runId head expected.platforms
    receipts) (hjobs : jobs'.Perm jobs) (hreceipts : receipts'.Perm receipts) :
    Consistent inst jobs' repository runId head expected.platforms receipts' where
  runs := fun job hjob => h.runs job (hjobs.mem_iff.mp hjob)
  ids := (hjobs.map WorkflowJob.id).nodup_iff.mpr h.ids
  platforms := fun job hjob => h.platforms job (hjobs.mem_iff.mp hjob)
  attempts := by
    refine (hjobs.pairwise_iff ?_).mpr h.attempts
    intro a b hab platform hb ha heq
    exact hab platform ha hb heq.symm
  matching := fun receipt hreceipt => by
    obtain ⟨h₁, h₂, h₃, h₄, h₅, job, hjob, h₆⟩ :=
      h.matching receipt (hreceipts.mem_iff.mp hreceipt)
    exact ⟨h₁, h₂, h₃, h₄, h₅, job, hjobs.mem_iff.mpr hjob, h₆⟩
  distinct := by
    refine (hreceipts.pairwise_iff ?_).mpr h.distinct
    intro a b hab hsame heq
    exact hab hsame.symm heq.symm
  finished := fun platform hplatform => by
    obtain ⟨job, hjob, hstatus, hknown, hreceipt⟩ := h.finished platform hplatform
    refine ⟨job, (latest_perm hjobs).mpr hjob, hstatus, hknown, fun hsuccess => ?_⟩
    obtain ⟨receipt, hmem, hsame⟩ := hreceipt hsuccess
    exact ⟨receipt, hreceipts.mem_iff.mpr hmem, hsame⟩
  successful := by
    obtain ⟨platform, hplatform, hsucceeded⟩ := h.successful
    exact ⟨platform, hplatform, (succeeded_perm hjobs).mpr hsucceeded⟩

/-- The same receipts are selected. -/
theorem Selects.perm {selection selection' : Selection}
    (hconsistent : Consistent inst jobs repository runId head expected.platforms receipts)
    (hjobs : jobs'.Perm jobs) (hreceipts : receipts'.Perm receipts)
    (h : Selects inst jobs expected.platforms receipts selection)
    (h' : Selects inst jobs' expected.platforms receipts' selection') :
    selection'.complete = selection.complete ∧
      selection'.receiptIndices.map (receipts'[·]?) =
        selection.receiptIndices.map (receipts[·]?) := by
  obtain ⟨hcomplete, succeeded, hsub, hmem, hreceipt⟩ := h
  obtain ⟨hcomplete', succeeded', hsub', hmem', hreceipt'⟩ := h'
  have hsame : succeeded' = succeeded := by
    refine eq_of_strict_of_mem (expected.ordered.sublist hsub') (expected.ordered.sublist hsub) ?_
    intro platform
    rw [hmem, hmem', succeeded_perm hjobs]
  subst hsame
  constructor
  · rw [Bool.eq_iff_iff, hcomplete, hcomplete']
    simp only [succeeded_perm hjobs]
  · have hboth : ∀ platforms (is is' : List Nat),
        List.Forall₂ (fun platform index => ∃ job receipt, Latest inst jobs platform job ∧
          receipts[index]? = some receipt ∧ receipt.platform = platform ∧
          receipt.runAttempt = job.runAttempt) platforms is →
        List.Forall₂ (fun platform index => ∃ job receipt, Latest inst jobs' platform job ∧
          receipts'[index]? = some receipt ∧ receipt.platform = platform ∧
          receipt.runAttempt = job.runAttempt) platforms is' →
        is'.map (receipts'[·]?) = is.map (receipts[·]?) := by
      intro platforms is is' hone htwo
      induction hone generalizing is' with
      | nil =>
        cases htwo
        rfl
      | cons hhead _ ih =>
        cases htwo with
        | cons hhead' htail' =>
          obtain ⟨job, receipt, hjob, hat, hplatform, hattempt⟩ := hhead
          obtain ⟨job', receipt', hjob', hat', hplatform', hattempt'⟩ := hhead'
          have hlatest := (latest_perm hjobs).mp hjob'
          have hle := hjob.2.2 job' hlatest.1 hlatest.2.1
          have hge := hlatest.2.2 job hjob.1 hjob.2.1
          have hkey : receiptKey receipt' = receiptKey receipt := by
            refine Prod.ext (hplatform'.trans hplatform.symm) ?_
            show receipt'.runAttempt = receipt.runAttempt
            omega
          have heq : receipt' = receipt :=
            List.inj_on_of_nodup_map (nodup_receiptKey_iff.mpr hconsistent.distinct)
              (hreceipts.mem_iff.mp (List.mem_of_getElem? hat')) (List.mem_of_getElem? hat) hkey
          rw [List.map_cons, List.map_cons, hat, hat', heq, ih _ htail']
    exact hboth _ _ _ hreceipt hreceipt'

/-- **Reconciliation.** It accepts the consistent evidence and no other, it
selects the receipts of the latest attempts that have succeeded, and in another
order of the evidence it selects the same receipts. -/
theorem reconcile_selects_latest (repository : Repository) (inst : Instance) (runId : Nat)
    (head : CommitSha) (expected : PlatformSet) (jobs : List WorkflowJob)
    (receipts : List Receipt) :
    ((∃ selection, reconcile repository inst runId head expected jobs receipts = .ok selection) ↔
      Consistent inst jobs repository runId head expected.platforms receipts) ∧
    ∀ selection, reconcile repository inst runId head expected jobs receipts = .ok selection →
      Selects inst jobs expected.platforms receipts selection ∧
      ∀ jobs' receipts', jobs'.Perm jobs → receipts'.Perm receipts →
        ∃ selection', reconcile repository inst runId head expected jobs' receipts' =
            .ok selection' ∧
          selection'.complete = selection.complete ∧
          selection'.receiptIndices.map (receipts'[·]?) =
            selection.receiptIndices.map (receipts[·]?) := by
  refine ⟨?_, ?_⟩
  · constructor
    · intro ⟨selection, h⟩
      exact (reconcile_eq_ok.mp h).1
    · intro h
      exact ⟨_, reconcile_eq_ok.mpr ⟨h, rfl⟩⟩
  · intro selection h
    refine ⟨selects_of_eq_ok h, fun jobs' receipts' hjobs hreceipts => ?_⟩
    have hconsistent := (reconcile_eq_ok.mp h).1
    have h' := reconcile_eq_ok.mpr ⟨hconsistent.perm hjobs hreceipts, rfl⟩
    exact ⟨_, h', (selects_of_eq_ok h).perm hconsistent hjobs hreceipts (selects_of_eq_ok h')⟩

end Decision

end Folo.HistoryGithub
