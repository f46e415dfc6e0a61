import Folo.BenchHistory.Load
import Folo.HistoryGithub.Model
import Std.Data.ExtTreeSet.Lemmas

/-!
# Backfill passes

`run_commits` of `commands/backfill/execution.rs` and the completion record of
`cbh_model/backfill.rs`. A pass leaves out the commits that are recorded and
replays the others, newest first, up to a limit and up to a failure. Every
commit of the range is accounted for (`runCommits_accounts`), and passes with
limits come to the end of the range (`passes_converge`) unless they overwrite.
-/

namespace Folo.BenchHistory

open Folo.Lib
open Folo.HistoryGithub (isAsciiHexdigit)
open Std (ExtTreeSet)

variable {ε : Type}

structure BackfillOptions where
  overwrite : Bool
  ignoreErrors : Bool
  /-- a `NonZeroUsize` -/
  maxCommits : Option { limit : Nat // 0 < limit }

inductive CommitOutcome (ε : Type)
  | stored (cases : Nat)
  | skippedExisting
  | skippedEmpty
  | benchFailed (error : ε)

/-- What Git and the benchmarks answer; an error is one of the infrastructure. -/
structure CommitRunner (ε : Type) where
  recordedCommits : Except ε (ExtTreeSet Text)
  resetTo : Text → Except ε Unit
  run : Text → Except ε (CommitOutcome ε)

structure BackfillReport (ε : Type) where
  stored : List (Text × Nat) := []
  skippedExisting : List Text := []
  skippedEmpty : List Text := []
  failures : List (Text × ε) := []
  stoppedFailure : Option Nat := none
  deferred : Nat := 0

inductive BackfillError (ε : Type)
  | infrastructure (e : ε)
  /-- each attempt consumes one distinct pending commit -/
  | overdrawn

/-! ## One pass -/

/-- The attempts, until one fails and errors are not ignored. -/
def attempts (options : BackfillOptions) (runner : CommitRunner ε) :
    List Text → BackfillReport ε → Except (BackfillError ε) (BackfillReport ε)
  | [], report => .ok report
  | commit :: rest, report => do
    (runner.resetTo commit).mapError .infrastructure
    if report.deferred = 0 then throw .overdrawn
    let report := { report with deferred := report.deferred - 1 }
    match ← (runner.run commit).mapError .infrastructure with
    | .stored cases =>
      attempts options runner rest { report with stored := report.stored ++ [(commit, cases)] }
    | .skippedExisting =>
      attempts options runner rest
        { report with skippedExisting := report.skippedExisting ++ [commit] }
    | .skippedEmpty =>
      attempts options runner rest { report with skippedEmpty := report.skippedEmpty ++ [commit] }
    | .benchFailed error =>
      let failed := { report with failures := report.failures ++ [(commit, error)] }
      if options.ignoreErrors then attempts options runner rest failed
      else return { failed with stoppedFailure := some report.failures.length }

/-- `commits` are the range, newest first. -/
def runCommits (options : BackfillOptions) (runner : CommitRunner ε) (commits : List Text) :
    Except (BackfillError ε) (BackfillReport ε) := do
  let recorded ← if options.overwrite then pure ∅
    else runner.recordedCommits.mapError .infrastructure
  let skipped := commits.filter recorded.contains
  let pending := commits.filter fun commit => !recorded.contains commit
  let limit := (options.maxCommits.map Subtype.val).getD pending.length
  attempts options runner (pending.take limit)
    { skippedExisting := skipped, deferred := pending.length }

/-! ## The completion record -/

inductive BackfillStop
  | rangeExhausted
  | commitLimit
  | benchmarkFailure
  deriving DecidableEq

def BackfillReport.stopReason (report : BackfillReport ε) : BackfillStop :=
  if report.stoppedFailure.isSome then .benchmarkFailure
  else if 0 < report.deferred then .commitLimit
  else .rangeExhausted

structure BackfillCounts where
  stored : Nat
  skipped : Nat
  empty : Nat
  failed : Nat
  deferred : Nat
  deriving DecidableEq

/-- `CompletionWire`, and `BackfillCompletion` once it was checked. -/
structure CompletionWire where
  version : Nat
  from_ : Text
  to_ : Text
  total : Nat
  counts : BackfillCounts
  stopReason : BackfillStop
  overwrite : Bool
  deriving DecidableEq

def completionVersion : Nat := 1

/-- A full id in hexadecimal, so that its bytes are its characters. -/
def fullCommit (value : Text) : Bool := value.length = 40 && value.all isAsciiHexdigit

/-- `usize::checked_add`. -/
def checkedAdd (a b : Nat) : Option Nat := if a + b ≤ usizeMax then some (a + b) else none

def BackfillCounts.total (counts : BackfillCounts) : Option Nat :=
  [counts.stored, counts.skipped, counts.empty, counts.failed, counts.deferred].foldlM
    checkedAdd 0

def CompletionWire.stopMatches (raw : CompletionWire) : Bool :=
  match raw.stopReason with
  | .rangeExhausted => raw.counts.deferred = 0
  | .commitLimit => 0 < raw.counts.deferred
  | .benchmarkFailure => 0 < raw.counts.failed

/-- `BackfillCompletion::try_from`. -/
def CompletionWire.check (raw : CompletionWire) : Option CompletionWire :=
  if raw.version ≠ completionVersion || !fullCommit raw.from_ || !fullCommit raw.to_ ||
      raw.total = 0 || raw.counts.total ≠ some raw.total || !raw.stopMatches then none
  else some raw

def BackfillReport.counts (report : BackfillReport ε) : BackfillCounts where
  stored := report.stored.length
  skipped := report.skippedExisting.length
  empty := report.skippedEmpty.length
  failed := report.failures.length
  deferred := report.deferred

/-- `CompletedBackfill::completion`; `none` is also where the range is empty, which
it is not. -/
def BackfillReport.completion (report : BackfillReport ε) (commits : List Text)
    (overwrite : Bool) : Option CompletionWire := do
  let from_ ← commits.getLast?
  let to_ ← commits.head?
  CompletionWire.check {
    version := completionVersion
    from_, to_
    total := commits.length
    counts := report.counts
    stopReason := report.stopReason
    overwrite }

/-! ## What one pass does -/

/-- The elements up to the first that meets the condition, this one included. -/
def throughFirst {α : Type} (p : α → Bool) : List α → List α
  | [] => []
  | x :: xs => if p x then [x] else x :: throughFirst p xs

/-- Every answer is there: what is recorded, and an outcome for each commit. -/
structure Answers (runner : CommitRunner ε) (recorded : ExtTreeSet Text)
    (outcome : Text → CommitOutcome ε) : Prop where
  recorded : runner.recordedCommits = .ok recorded
  resetTo : ∀ commit, runner.resetTo commit = .ok ()
  run : ∀ commit, runner.run commit = .ok (outcome commit)

/-- The lists of a report. -/
inductive Place
  | stored
  | existing
  | empty
  | failed
  deriving DecidableEq

def CommitOutcome.place : CommitOutcome ε → Place
  | .stored _ => .stored
  | .skippedExisting => .existing
  | .skippedEmpty => .empty
  | .benchFailed _ => .failed

def BackfillReport.at (report : BackfillReport ε) : Place → List Text
  | .stored => report.stored.map Prod.fst
  | .existing => report.skippedExisting
  | .empty => report.skippedEmpty
  | .failed => report.failures.map Prod.fst

/-- The commits that are attempted out of those that a limit allows. -/
def attempted (options : BackfillOptions) (outcome : Text → CommitOutcome ε) (allowed : List Text) :
    List Text :=
  if options.ignoreErrors then allowed
  else throughFirst (fun commit => (outcome commit).place = .failed) allowed

/-- A report after attempts: each is in the list of its outcome. -/
structure Extends (options : BackfillOptions) (outcome : Text → CommitOutcome ε)
    (report report' : BackfillReport ε) (tried : List Text) : Prop where
  places : ∀ place, report'.at place =
    report.at place ++ tried.filter fun commit => (outcome commit).place = place
  deferred : report'.deferred + tried.length = report.deferred
  stopped : report'.stoppedFailure.isSome = (report.stoppedFailure.isSome ||
    !options.ignoreErrors && tried.any fun commit => (outcome commit).place = .failed)

variable {options : BackfillOptions} {outcome : Text → CommitOutcome ε} {runner : CommitRunner ε}
  {recorded : ExtTreeSet Text}

theorem Extends.refl (report : BackfillReport ε) : Extends options outcome report report [] where
  places _ := (List.append_nil _).symm
  deferred := rfl
  stopped := by rw [List.any_nil, Bool.and_false, Bool.or_false]

theorem Extends.trans {report mid report' : BackfillReport ε} {tried later : List Text}
    (h : Extends options outcome report mid tried)
    (h' : Extends options outcome mid report' later) :
    Extends options outcome report report' (tried ++ later) where
  places place := by rw [h'.places, h.places, List.filter_append, List.append_assoc]
  deferred := by
    have hfirst := h.deferred
    have hsecond := h'.deferred
    rw [List.length_append]
    omega
  stopped := by
    rw [h'.stopped, h.stopped, List.any_append, Bool.and_or_distrib_left, Bool.or_assoc]

/-- One attempt. -/
theorem Extends.single {report report' : BackfillReport ε} {commit : Text}
    (hplaces : ∀ place, report'.at place =
      report.at place ++ if (outcome commit).place = place then [commit] else [])
    (hdeferred : report'.deferred + 1 = report.deferred)
    (hstopped : report'.stoppedFailure.isSome = (report.stoppedFailure.isSome ||
      !options.ignoreErrors && decide ((outcome commit).place = .failed))) :
    Extends options outcome report report' [commit] where
  places place := by
    rw [hplaces, List.filter_singleton]
    by_cases hplace : (outcome commit).place = place
    · rw [if_pos hplace, decide_eq_true hplace]
      rfl
    · rw [if_neg hplace, decide_eq_false hplace]
      rfl
  deferred := hdeferred
  stopped := by rw [hstopped, List.any_cons, List.any_nil, Bool.or_false]

theorem attempted_cons (commit : Text) (rest : List Text) :
    attempted options outcome (commit :: rest) =
      if options.ignoreErrors = false ∧ (outcome commit).place = .failed then [commit]
      else commit :: attempted options outcome rest := by
  unfold attempted
  cases options.ignoreErrors with
  | true => simp
  | false => simp [throughFirst]

/-- **The attempts**: none is overdrawn, and each ends up in the list of its
outcome. -/
theorem attempts_spec (options : BackfillOptions) (h : Answers runner recorded outcome)
    (allowed : List Text) (report : BackfillReport ε) (hdeferred : allowed.length ≤ report.deferred) :
    ∃ report', attempts options runner allowed report = .ok report' ∧
      Extends options outcome report report' (attempted options outcome allowed) := by
  induction allowed generalizing report with
  | nil =>
    refine ⟨report, rfl, ?_⟩
    have hnil : attempted options outcome [] = [] := by
      unfold attempted throughFirst
      exact ite_self _
    rw [hnil]
    exact .refl report
  | cons commit rest ih =>
    rw [List.length_cons] at hdeferred
    have hpositive : report.deferred ≠ 0 := by omega
    have hgo : ∀ mid, Extends options outcome report mid [commit] →
        ∃ report', attempts options runner rest mid = .ok report' ∧
          Extends options outcome report report' (commit :: attempted options outcome rest) := by
      intro mid hmid
      have hone := hmid.deferred
      rw [List.length_singleton] at hone
      obtain ⟨report', hok, hextends⟩ := ih mid (by omega)
      exact ⟨report', hok, hmid.trans hextends⟩
    have hone : report.deferred - 1 + 1 = report.deferred := by omega
    rw [attempts, h.resetTo, h.run, attempted_cons]
    simp only [Except.mapError, bind, Except.bind, if_neg hpositive, pure, Except.pure]
    cases hout : outcome commit with
    | stored cases =>
      rw [if_neg fun hstop => by cases hstop.2]
      refine hgo _ (.single (fun place => ?_) hone ?_)
      · cases place <;> simp [BackfillReport.at, CommitOutcome.place, hout]
      · simp [CommitOutcome.place, hout]
    | skippedExisting =>
      rw [if_neg fun hstop => by cases hstop.2]
      refine hgo _ (.single (fun place => ?_) hone ?_)
      · cases place <;> simp [BackfillReport.at, CommitOutcome.place, hout]
      · simp [CommitOutcome.place, hout]
    | skippedEmpty =>
      rw [if_neg fun hstop => by cases hstop.2]
      refine hgo _ (.single (fun place => ?_) hone ?_)
      · cases place <;> simp [BackfillReport.at, CommitOutcome.place, hout]
      · simp [CommitOutcome.place, hout]
    | benchFailed error =>
      cases hignore : options.ignoreErrors with
      | true =>
        rw [if_neg fun hstop => by cases hstop.1]
        refine hgo _ (.single (fun place => ?_) hone ?_)
        · cases place <;> simp [BackfillReport.at, CommitOutcome.place, hout]
        · simp [hignore]
      | false =>
        rw [if_pos ⟨rfl, rfl⟩]
        refine ⟨_, rfl, .single (fun place => ?_) hone ?_⟩
        · cases place <;> simp [BackfillReport.at, CommitOutcome.place, hout]
        · simp [CommitOutcome.place, hout, hignore]

/-! ## The accounts -/

/-- What a pass takes for recorded. -/
def known (options : BackfillOptions) (recorded : ExtTreeSet Text) : ExtTreeSet Text :=
  if options.overwrite then ∅ else recorded

def pendingOf (options : BackfillOptions) (recorded : ExtTreeSet Text) (commits : List Text) :
    List Text :=
  commits.filter fun commit => !(known options recorded).contains commit

def allowedOf (options : BackfillOptions) (pending : List Text) : List Text :=
  pending.take ((options.maxCommits.map Subtype.val).getD pending.length)

theorem runCommits_eq (h : Answers runner recorded outcome) (commits : List Text) :
    runCommits options runner commits =
      attempts options runner (allowedOf options (pendingOf options recorded commits))
        { skippedExisting := commits.filter (known options recorded).contains
          deferred := (pendingOf options recorded commits).length } := by
  unfold runCommits pendingOf known allowedOf
  cases options.overwrite with
  | true => rfl
  | false =>
    rw [h.recorded]
    rfl

theorem allowedOf_isPrefix (options : BackfillOptions) (pending : List Text) :
    allowedOf options pending <+: pending := List.take_prefix ..

theorem throughFirst_prefix {α : Type} (p : α → Bool) (xs : List α) : throughFirst p xs <+: xs := by
  induction xs with
  | nil => exact List.prefix_rfl
  | cons x xs ih =>
    rw [throughFirst]
    split
    · exact List.prefix_append [x] xs
    · exact List.cons_prefix_cons.mpr ⟨rfl, ih⟩

theorem attempted_isPrefix (options : BackfillOptions) (outcome : Text → CommitOutcome ε)
    (allowed : List Text) : attempted options outcome allowed <+: allowed := by
  unfold attempted
  split
  · exact List.prefix_rfl
  · exact throughFirst_prefix _ _

/-- The commits between the endpoints, newest first. -/
structure Range where
  commits : List Text
  nonempty : commits ≠ []
  distinct : commits.Nodup
  full : ∀ commit ∈ commits, fullCommit commit = true
  /-- the length is a `usize` -/
  fits : commits.length ≤ usizeMax

/-- The accounts of a pass that attempted `tried` and left `deferred`. -/
structure Accounts (options : BackfillOptions) (recorded : ExtTreeSet Text)
    (outcome : Text → CommitOutcome ε) (commits : List Text) (report : BackfillReport ε)
    (tried deferred : List Text) : Prop where
  pending : pendingOf options recorded commits = tried ++ deferred
  tries : tried = attempted options outcome (allowedOf options (pendingOf options recorded commits))
  places : ∀ place, report.at place =
    (if place = .existing then commits.filter (known options recorded).contains else []) ++
      tried.filter fun commit => (outcome commit).place = place
  deferred : report.deferred = deferred.length
  stopped : report.stoppedFailure.isSome =
    (!options.ignoreErrors && tried.any fun commit => (outcome commit).place = .failed)

theorem exists_accounts (options : BackfillOptions) (h : Answers runner recorded outcome)
    (commits : List Text) :
    ∃ report tried deferred, runCommits options runner commits = .ok report ∧
      Accounts options recorded outcome commits report tried deferred := by
  obtain ⟨deferred, hsplit⟩ := (attempted_isPrefix options outcome
    (allowedOf options (pendingOf options recorded commits))).trans
    (allowedOf_isPrefix options (pendingOf options recorded commits))
  obtain ⟨report, hok, hextends⟩ := attempts_spec options h
    (allowedOf options (pendingOf options recorded commits))
    { skippedExisting := commits.filter (known options recorded).contains
      deferred := (pendingOf options recorded commits).length }
    (allowedOf_isPrefix options _).length_le
  refine ⟨report, _, deferred, (runCommits_eq h commits).trans hok, hsplit.symm, rfl,
    fun place => ?_, ?_, ?_⟩
  · rw [hextends.places]
    cases place <;> rfl
  · have hlen := congrArg List.length hsplit
    have hcount := hextends.deferred
    rw [List.length_append] at hlen
    dsimp only at hcount
    omega
  · rw [hextends.stopped]
    rfl

/-- Every commit is in the list of its outcome. -/
theorem perm_places (outcome : Text → CommitOutcome ε) (tried : List Text) :
    ((tried.filter fun commit => (outcome commit).place = .stored) ++
      ((tried.filter fun commit => (outcome commit).place = .existing) ++
      ((tried.filter fun commit => (outcome commit).place = .empty) ++
      (tried.filter fun commit => (outcome commit).place = .failed)))).Perm tried := by
  induction tried with
  | nil => exact .refl _
  | cons commit tried ih =>
    rw [List.perm_iff_count] at ih ⊢
    intro a
    have ih := ih a
    simp only [List.count_append] at ih
    cases hplace : (outcome commit).place <;>
      simp [hplace, List.count_cons] <;> omega

namespace Accounts

variable {commits : List Text} {report : BackfillReport ε} {tried deferred : List Text}

theorem length_le (h : Accounts options recorded outcome commits report tried deferred)
    {limit : { limit : Nat // 0 < limit }} (hlimit : options.maxCommits = some limit) :
    tried.length ≤ limit := by
  rw [h.tries]
  refine (attempted_isPrefix options outcome _).length_le.trans ?_
  unfold allowedOf
  rw [hlimit, List.length_take]
  exact Nat.min_le_left ..

/-- **Every commit is accounted for** in one of the lists or among the deferred. -/
theorem perm (h : Accounts options recorded outcome commits report tried deferred) :
    (report.stored.map Prod.fst ++ (report.skippedExisting ++ (report.skippedEmpty ++
      (report.failures.map Prod.fst ++ deferred)))).Perm commits := by
  have hstored := h.places .stored
  have hexisting := h.places .existing
  have hempty := h.places .empty
  have hfailed := h.places .failed
  simp only [BackfillReport.at, reduceCtorEq, if_false, List.nil_append] at hstored hempty hfailed
  simp only [BackfillReport.at, if_true] at hexisting
  rw [hstored, hexisting, hempty, hfailed]
  have hrecorded := List.filter_append_perm (known options recorded).contains commits
  have hpending : (commits.filter fun commit => !(known options recorded).contains commit) =
      tried ++ deferred := h.pending
  rw [hpending] at hrecorded
  refine List.Perm.trans ?_ hrecorded
  have hplaces := perm_places outcome tried
  rw [List.perm_iff_count] at hplaces ⊢
  intro a
  have hplaces := hplaces a
  simp only [List.count_append] at hplaces ⊢
  omega

theorem length_eq (h : Accounts options recorded outcome commits report tried deferred) :
    report.stored.length + report.skippedExisting.length + report.skippedEmpty.length +
      report.failures.length + report.deferred = commits.length := by
  have hlen := h.perm.length_eq
  simp only [List.length_append, List.length_map] at hlen
  rw [h.deferred]
  omega

/-- A pass that was stopped has a failure. -/
theorem failed_of_stopped (h : Accounts options recorded outcome commits report tried deferred)
    (hstopped : report.stoppedFailure.isSome = true) : 0 < report.failures.length := by
  rw [h.stopped, Bool.and_eq_true, List.any_eq_true] at hstopped
  obtain ⟨-, commit, hcommit, hfailed⟩ := hstopped
  have hplaces : report.failures.map Prod.fst =
      [] ++ tried.filter fun commit => (outcome commit).place = .failed := h.places .failed
  have hin : commit ∈ report.failures.map Prod.fst := by
    rw [hplaces, List.nil_append]
    exact List.mem_filter.mpr ⟨hcommit, hfailed⟩
  rw [← List.length_map (f := Prod.fst)]
  exact List.length_pos_of_mem hin

end Accounts

theorem BackfillCounts.total_eq {counts : BackfillCounts} {total : Nat}
    (h : counts.stored + counts.skipped + counts.empty + counts.failed + counts.deferred = total)
    (hfits : total ≤ usizeMax) : counts.total = some total := by
  have hadd : ∀ a b, a + b ≤ usizeMax → checkedAdd a b = some (a + b) :=
    fun a b hle => if_pos hle
  unfold BackfillCounts.total
  simp only [List.foldlM_cons, List.foldlM_nil, pure, bind]
  rw [hadd _ _ (by omega), Option.bind_some, hadd _ _ (by omega), Option.bind_some,
    hadd _ _ (by omega), Option.bind_some, hadd _ _ (by omega), Option.bind_some,
    hadd _ _ (by omega), Option.bind_some, Nat.zero_add, h]

/-- **The completion record passes its own check.** -/
theorem Accounts.completion {range : Range} {report : BackfillReport ε} {tried deferred : List Text}
    (h : Accounts options recorded outcome range.commits report tried deferred) :
    ∃ completion, report.completion range.commits options.overwrite = some completion ∧
      completion.stopReason = report.stopReason ∧ completion.counts = report.counts := by
  obtain ⟨first, rest, hcommits⟩ := List.exists_cons_of_ne_nil range.nonempty
  obtain ⟨last, hlast⟩ : ∃ last, range.commits.getLast? = some last :=
    ⟨_, List.getLast?_eq_some_getLast range.nonempty⟩
  have hhead : range.commits.head? = some first := by rw [hcommits, List.head?_cons]
  have htotal : report.counts.total = some range.commits.length :=
    BackfillCounts.total_eq h.length_eq range.fits
  obtain ⟨raw, hraw⟩ : ∃ raw : CompletionWire, raw = {
      version := completionVersion, from_ := last, to_ := first, total := range.commits.length
      counts := report.counts, stopReason := report.stopReason, overwrite := options.overwrite } :=
    ⟨_, rfl⟩
  have hstop : raw.stopMatches = true := by
    rw [hraw]
    unfold CompletionWire.stopMatches BackfillReport.stopReason
    dsimp only
    cases hstopped : report.stoppedFailure.isSome with
    | true => exact decide_eq_true (h.failed_of_stopped hstopped)
    | false =>
      by_cases hdeferred : 0 < report.deferred
      · rw [if_neg Bool.false_ne_true, if_pos hdeferred]
        exact decide_eq_true hdeferred
      · rw [if_neg Bool.false_ne_true, if_neg hdeferred]
        exact decide_eq_true (Nat.eq_zero_of_not_pos hdeferred)
  refine ⟨raw, ?_, by rw [hraw], by rw [hraw]⟩
  unfold BackfillReport.completion
  rw [hhead, hlast]
  show CompletionWire.check _ = _
  rw [← hraw]
  refine if_neg ?_
  have hpositive : range.commits.length ≠ 0 := fun hzero =>
    range.nonempty (List.length_eq_zero_iff.mp hzero)
  have hnewest := range.full first (List.mem_of_head? hhead)
  have holdest := range.full last (List.mem_of_getLast? hlast)
  rw [hstop, hraw]
  simp [htotal, hpositive, hnewest, holdest]

/-! ## Passes -/

/-- An invocation: its options, and what happens to the commits that it attempts. -/
structure Pass (ε : Type) where
  options : BackfillOptions
  runner : CommitRunner ε

/-- Passes one after another: what one stored is recorded for the next. -/
def passes (commits : List Text) : List (Pass ε) → ExtTreeSet Text →
    Except (BackfillError ε) (List (BackfillReport ε))
  | [], _ => .ok []
  | pass :: later, recorded => do
    let runner := { pass.runner with recordedCommits := .ok recorded }
    let report ← runCommits pass.options runner commits
    let reports ← passes commits later (recorded.insertMany (report.stored.map Prod.fst))
    return report :: reports

/-- Recorded commits are left out, and every attempt stores a result. -/
structure Pass.Stores (pass : Pass ε) : Prop where
  keeps : pass.options.overwrite = false
  resetTo : ∀ commit, pass.runner.resetTo commit = .ok ()
  stores : ∀ commit, ∃ cases, pass.runner.run commit = .ok (.stored cases)

/-- One such pass replays the first of the pending commits, all that its limit allows. -/
theorem Pass.Stores.runCommits {pass : Pass ε} (h : pass.Stores) (recorded : ExtTreeSet Text)
    (commits : List Text) :
    ∃ report deferred,
      runCommits pass.options { pass.runner with recordedCommits := .ok recorded } commits =
        .ok report ∧
      (commits.filter fun commit => !recorded.contains commit) =
        report.stored.map Prod.fst ++ deferred ∧
      report.stored.map Prod.fst =
        allowedOf pass.options (commits.filter fun commit => !recorded.contains commit) ∧
      report.stopReason = if deferred = [] then .rangeExhausted else .commitLimit := by
  choose cases hcases using h.stores
  have hanswers : Answers { pass.runner with recordedCommits := .ok recorded } recorded
      fun commit => .stored (cases commit) := ⟨rfl, h.resetTo, hcases⟩
  obtain ⟨report, tried, deferred, hok, haccounts⟩ := exists_accounts pass.options hanswers
    commits
  have hknown : known pass.options recorded = recorded := by
    unfold known
    rw [h.keeps]
    rfl
  have hpending : pendingOf pass.options recorded commits =
      commits.filter fun commit => !recorded.contains commit := by rw [pendingOf, hknown]
  have hstored : report.stored.map Prod.fst = tried := by
    refine (haccounts.places .stored).trans ?_
    rw [if_neg (by intro h; cases h), List.nil_append]
    exact List.filter_eq_self.mpr fun commit _ => rfl
  have hnone : ∀ xs : List Text, throughFirst (fun _ => false) xs = xs := by
    intro xs
    induction xs with
    | nil => rfl
    | cons x xs ih => rw [throughFirst, if_neg Bool.false_ne_true, ih]
  have htries : tried = allowedOf pass.options (pendingOf pass.options recorded commits) := by
    rw [haccounts.tries]
    unfold attempted
    split
    · rfl
    · exact hnone _
  have hstopped : report.stoppedFailure.isSome = false := by
    rw [haccounts.stopped, Bool.and_eq_false_iff]
    refine .inr (List.any_eq_false.mpr fun commit _ => ?_)
    show ¬ decide (Place.stored = Place.failed) = true
    decide
  refine ⟨report, deferred, hok, ?_, ?_, ?_⟩
  · rw [hstored, ← hpending]
    exact haccounts.pending
  · rw [hstored, ← hpending]
    exact htries
  · unfold BackfillReport.stopReason
    rw [hstopped, if_neg Bool.false_ne_true, haccounts.deferred]
    by_cases hdeferred : deferred = []
    · rw [if_pos hdeferred, hdeferred]
      rfl
    · rw [if_neg hdeferred, if_pos (List.length_pos_of_ne_nil hdeferred)]

/-- A limit is positive, so that a pass attempts a commit where one is pending. -/
theorem allowedOf_ne_nil (options : BackfillOptions) {pending : List Text} (h : pending ≠ []) :
    allowedOf options pending ≠ [] := by
  have hlen : pending.length ≠ 0 := fun hzero => h (List.length_eq_zero_iff.mp hzero)
  unfold allowedOf
  rw [Ne, List.take_eq_nil_iff]
  rintro (hzero | hnil)
  · cases hlimit : options.maxCommits with
    | none => rw [hlimit] at hzero; exact hlen hzero
    | some limit =>
      rw [hlimit] at hzero
      exact absurd hzero (Nat.pos_iff_ne_zero.mp limit.2)
  · exact h hnil

/-- **Passes converge**: each takes up where the one before it stopped. -/
theorem passes_converge {commits : List Text} (hdistinct : commits.Nodup) {schedule : Nat → Pass ε}
    (h : ∀ i, (schedule i).Stores) (recorded : ExtTreeSet Text) :
    ∃ earlier last,
      passes commits ((List.range (earlier.length + 1)).map schedule) recorded =
        .ok (earlier ++ [last]) ∧
      (∀ report ∈ earlier, report.stopReason = .commitLimit) ∧
      last.stopReason = .rangeExhausted ∧
      ((earlier ++ [last]).flatMap fun report => report.stored.map Prod.fst) =
        commits.filter fun commit => !recorded.contains commit := by
  obtain ⟨size, hsize⟩ : ∃ size, (commits.filter fun commit => !recorded.contains commit).length =
    size := ⟨_, rfl⟩
  -- the commits that are pending get fewer with each pass
  induction size using Nat.strong_induction_on generalizing schedule recorded with
  | _ size ih =>
    obtain ⟨report, deferred, hok, hpending, hallowed, hstop⟩ := (h 0).runCommits recorded commits
    by_cases hdeferred : deferred = []
    · refine ⟨[], report, ?_, ?_, ?_, ?_⟩
      · show passes commits [schedule 0] recorded = _
        rw [passes, hok]
        rfl
      · intro _ hnil
        cases hnil
      · rw [hstop, if_pos hdeferred]
      · rw [List.nil_append, List.flatMap_singleton, hpending, hdeferred, List.append_nil]
    · have hnodup := hdistinct.filter fun commit => !recorded.contains commit
      have hlen := congrArg List.length hpending
      rw [hpending] at hnodup
      rw [List.length_append] at hlen
      -- what is left is pending for the next pass
      have hnext : (commits.filter fun commit =>
          !(recorded.insertMany (report.stored.map Prod.fst)).contains commit) = deferred := by
        have hboth : (commits.filter fun commit =>
            !(recorded.insertMany (report.stored.map Prod.fst)).contains commit) =
            (commits.filter fun commit => !recorded.contains commit).filter
              fun commit => !(report.stored.map Prod.fst).contains commit := by
          rw [List.filter_filter]
          refine List.filter_congr fun commit _ => ?_
          rw [ExtTreeSet.contains_insertMany_list, Bool.not_or, Bool.and_comm]
        rw [hboth, hpending, List.filter_append, List.filter_eq_nil_iff.mpr,
          List.nil_append, List.filter_eq_self.mpr]
        · intro commit hcommit
          rw [Bool.not_eq_true', ← Bool.not_eq_true, List.contains_iff_mem]
          exact fun hstored => (List.disjoint_of_nodup_append hnodup) hstored hcommit
        · intro commit hcommit
          rw [List.contains_iff_mem.mpr hcommit]
          exact Bool.false_ne_true
      have hpositive : (report.stored.map Prod.fst).length ≠ 0 := by
        intro hzero
        rw [List.length_eq_zero_iff, hallowed] at hzero
        refine allowedOf_ne_nil _ ?_ hzero
        rw [hpending]
        exact List.append_ne_nil_of_right_ne_nil _ hdeferred
      obtain ⟨earlier, last, hlater, hlimits, hlast, hreplays⟩ := ih deferred.length (by omega)
        (fun i => h (i + 1)) (recorded.insertMany (report.stored.map Prod.fst))
        (by rw [hnext])
      refine ⟨report :: earlier, last, ?_, ?_, hlast, ?_⟩
      · rw [List.length_cons, List.range_succ_eq_map, List.map_cons, List.map_map, passes, hok]
        show (passes commits _ _ >>= fun reports => _) = _
        have hshift : (schedule ∘ Nat.succ) = fun i => schedule (i + 1) := rfl
        rw [hshift, hlater]
        rfl
      · intro earlierReport hmem
        rcases List.mem_cons.mp hmem with rfl | hmem
        · rw [hstop, if_neg hdeferred]
        · exact hlimits earlierReport hmem
      · rw [List.cons_append, List.flatMap_cons, hreplays, hnext, hpending]

/-- **Backfill accounts for every commit**: a pass attempts the first of the pending commits,
each commit is in one of its lists or deferred, and its completion record passes its check.
Passes that leave out what is recorded replay each of the others once. -/
theorem backfill_accounts (range : Range) (recorded : ExtTreeSet Text) :
    (∀ (options : BackfillOptions) (runner : CommitRunner ε) (outcome : Text → CommitOutcome ε),
      Answers runner recorded outcome →
      ∃ report tried deferred, runCommits options runner range.commits = .ok report ∧
        Accounts options recorded outcome range.commits report tried deferred ∧
        (report.stored.map Prod.fst ++ (report.skippedExisting ++ (report.skippedEmpty ++
          (report.failures.map Prod.fst ++ deferred)))).Perm range.commits ∧
        (∀ limit, options.maxCommits = some limit → tried.length ≤ limit) ∧
        ∃ completion, report.completion range.commits options.overwrite = some completion ∧
          completion.stopReason = report.stopReason ∧ completion.counts = report.counts) ∧
    ∀ schedule : Nat → Pass ε, (∀ i, (schedule i).Stores) →
      ∃ earlier last,
        passes range.commits ((List.range (earlier.length + 1)).map schedule) recorded =
          .ok (earlier ++ [last]) ∧
        (∀ report ∈ earlier, report.stopReason = .commitLimit) ∧
        last.stopReason = .rangeExhausted ∧
        ((earlier ++ [last]).flatMap fun report => report.stored.map Prod.fst) =
          range.commits.filter fun commit => !recorded.contains commit := by
  refine ⟨fun options runner outcome hanswers => ?_,
    fun schedule hstores => passes_converge range.distinct hstores recorded⟩
  obtain ⟨report, tried, deferred, hok, haccounts⟩ := exists_accounts options hanswers
    range.commits
  exact ⟨report, tried, deferred, hok, haccounts, haccounts.perm,
    fun limit hlimit => haccounts.length_le hlimit, haccounts.completion⟩

def twoCommits : Range where
  commits := [List.replicate 40 'b', List.replicate 40 'a']
  nonempty := by decide
  distinct := by decide
  full := by decide
  fits := by decide

/-- One commit at a time, which stores a result. -/
def oneByOne : Pass Unit where
  options := { overwrite := false, ignoreErrors := false, maxCommits := some ⟨1, by decide⟩ }
  runner :=
    { recordedCommits := .ok ∅
      resetTo := fun _ => .ok ()
      run := fun _ => .ok (.stored 3) }

theorem backfill_two :
    (∃ report completion, runCommits oneByOne.options
        { oneByOne.runner with run := fun _ => .ok (.benchFailed ()) } twoCommits.commits =
          .ok report ∧
      report.completion twoCommits.commits false = some completion) ∧
    ∃ earlier last, passes twoCommits.commits
        ((List.range (earlier.length + 1)).map fun _ => oneByOne) ∅ = .ok (earlier ++ [last]) ∧
      last.stopReason = .rangeExhausted := by
  obtain ⟨haccounts, hconverge⟩ := backfill_accounts (ε := Unit) twoCommits ∅
  constructor
  · obtain ⟨report, -, -, hok, -, -, -, completion, hcompletion, -⟩ := haccounts oneByOne.options
      { oneByOne.runner with run := fun _ => .ok (.benchFailed ()) } (fun _ => .benchFailed ())
      ⟨rfl, fun _ => rfl, fun _ => rfl⟩
    exact ⟨report, completion, hok, hcompletion⟩
  · obtain ⟨earlier, last, hpasses, -, hlast, -⟩ := hconverge (fun _ => oneByOne)
      fun _ => ⟨rfl, fun _ => rfl, fun _ => ⟨3, rfl⟩⟩
    exact ⟨earlier, last, hpasses, hlast⟩

/-- A pass that overwrites starts at the newest commit again, so that a limit keeps it from
the older ones forever. -/
def overwriting : Pass ε where
  options := { overwrite := true, ignoreErrors := false, maxCommits := some ⟨1, by decide⟩ }
  runner :=
    { recordedCommits := .ok ∅
      resetTo := fun _ => .ok ()
      run := fun _ => .ok (.stored 0) }

theorem overwriting_never_exhausts : ∃ range : Range,
    range.commits = [List.replicate 40 'b', List.replicate 40 'a'] ∧
    (∀ commit, (overwriting (ε := Unit)).runner.resetTo commit = .ok () ∧
      overwriting (ε := Unit).runner.run commit = .ok (.stored 0)) ∧
    ∀ n, ∃ reports : List (BackfillReport Unit),
      passes range.commits (List.replicate n overwriting) ∅ = .ok reports ∧
      ∀ report ∈ reports, report.stopReason = .commitLimit ∧
        report.stored = [(List.replicate 40 'b', 0)] := by
  refine ⟨twoCommits, rfl, fun _ => ⟨rfl, rfl⟩, fun n => ?_⟩
  -- each pass gives the same report, whatever is recorded
  obtain ⟨report, hok, hstop, hstored⟩ : ∃ report : BackfillReport Unit,
      (∀ recorded, runCommits overwriting.options
        { overwriting.runner with recordedCommits := .ok recorded }
        [List.replicate 40 'b', List.replicate 40 'a'] = .ok report) ∧
      report.stopReason = .commitLimit ∧ report.stored = [(List.replicate 40 'b', 0)] :=
    ⟨_, fun _ => rfl, rfl, rfl⟩
  have hpasses : ∀ recorded, passes [List.replicate 40 'b', List.replicate 40 'a']
      (List.replicate n overwriting) recorded = .ok (List.replicate n report) := by
    induction n with
    | zero => exact fun _ => rfl
    | succ n ih =>
      intro recorded
      show passes _ (overwriting :: List.replicate n overwriting) recorded =
        .ok (report :: List.replicate n report)
      rw [passes, hok]
      show (passes _ _ _ >>= fun reports => _) = _
      rw [ih hok]
      rfl
  refine ⟨_, hpasses ∅, fun later hlater => ?_⟩
  rw [List.eq_of_mem_replicate hlater]
  exact ⟨hstop, hstored⟩

end Folo.BenchHistory
