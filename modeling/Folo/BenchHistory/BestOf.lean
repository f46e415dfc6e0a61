import Folo.BenchHistory.Comparability
import Folo.Lib.Least
import Folo.Lib.Maps
import Folo.Lib.Outcomes

/-!
# Best of several runs

`min_per_metric` of `cbh_model/aggregate.rs`. The results of a run are found
through a map that keeps the last result of a case, and a metric is the first
of its kind in a result, while the cases and metrics of the first run are
walked as they stand. Where a run repeats a case or a result repeats a kind the
two differ: `minPerMetric_bestOf_iff` says when that shows.
-/

namespace Folo.BenchHistory.BestOf

open Folo.Lib
open Std (ExtTreeMap)

variable {V : Type}

structure Metric (V : Type) where
  kind : MetricKind
  value : V
  stdDev : Option V
  intervalLow : Option V
  intervalHigh : Option V
  deriving DecidableEq

structure BenchmarkResult (V : Type) where
  id : BenchmarkId
  metrics : List (Metric V)
  deriving DecidableEq

structure Selection (V : Type) where
  id : BenchmarkId
  kind : MetricKind
  samples : List V
  chosenRun : Nat
  deriving DecidableEq

structure Combined (V : Type) where
  results : List (BenchmarkResult V)
  selections : List (Selection V)

/-- The run indices count from zero; they are shown from one. -/
inductive AggregateError
  | missingCase (id : BenchmarkId) (runIndex : Nat)
  | missingMetric (id : BenchmarkId) (kind : MetricKind) (runIndex : Nat)

/-- An error, or an `expect` that fails. -/
inductive Failure
  | aggregate (error : AggregateError)
  | panicked

abbrev RunIndex (V : Type) := ExtTreeMap BenchmarkId (BenchmarkResult V)

def indexRun (results : List (BenchmarkResult V)) : RunIndex V :=
  results.foldl (fun index result => index.insert result.id result) ∅

def findMetric (result : BenchmarkResult V) (kind : MetricKind) : Option (Metric V) :=
  result.metrics.find? fun metric => metric.kind = kind

/-- One round of `check_case_consistency`: run `runIndex` and its lookup. -/
def checkRunCases (reference : List (BenchmarkResult V)) (referenceLookup : RunIndex V)
    (run : List (BenchmarkResult V)) (lookup : RunIndex V) (runIndex : Nat) :
    Except Failure Unit := do
  reference.forM fun result =>
    if lookup.contains result.id then .ok ()
    else .error (.aggregate (.missingCase result.id runIndex))
  run.forM fun result =>
    if referenceLookup.contains result.id then .ok ()
    else .error (.aggregate (.missingCase result.id 0))

def checkCaseConsistency (reference : List (BenchmarkResult V))
    (rest : List (List (BenchmarkResult V))) (indexed : List (RunIndex V)) :
    Except Failure Unit :=
  match indexed with
  | [] => .ok ()
  | referenceLookup :: restLookups =>
    (rest.zip restLookups).zipIdx.forM fun ((run, lookup), offset) =>
      checkRunCases reference referenceLookup run lookup (offset + 1)

/-- One round of `check_metric_consistency`: a result of the first run in run
`runIndex`. -/
def checkResultMetrics (lookup : RunIndex V) (runIndex : Nat)
    (referenceResult : BenchmarkResult V) : Except Failure Unit :=
  match lookup[referenceResult.id]? with
  | none => .error .panicked
  | some result => do
    referenceResult.metrics.forM fun metric =>
      if (findMetric result metric.kind).isNone then
        .error (.aggregate (.missingMetric referenceResult.id metric.kind runIndex))
      else .ok ()
    result.metrics.forM fun metric =>
      if (findMetric referenceResult metric.kind).isNone then
        .error (.aggregate (.missingMetric referenceResult.id metric.kind 0))
      else .ok ()

def checkMetricConsistency (reference : List (BenchmarkResult V)) (indexed : List (RunIndex V)) :
    Except Failure Unit :=
  indexed.zipIdx.forM fun (lookup, runIndex) =>
    reference.forM (checkResultMetrics lookup runIndex)

/-- The least metric so far, where it is from, and all values so far. -/
structure Best (V : Type) where
  samples : List V
  winner : Option (Metric V)
  chosenRun : Nat

section Reduce

variable [LT V] [DecidableLT V]

/-- A metric takes the place of what it is strictly less than. -/
def Best.add (best : Best V) (metric : Metric V) (runIndex : Nat) : Best V :=
  let samples := best.samples ++ [metric.value]
  match best.winner with
  | some winner =>
    if metric.value < winner.value then ⟨samples, some metric, runIndex⟩
    else ⟨samples, some winner, best.chosenRun⟩
  | none => ⟨samples, some metric, runIndex⟩

/-- One round of the loop over the runs. -/
def addRun (id : BenchmarkId) (kind : MetricKind) (best : Best V) :
    RunIndex V × Nat → Except Failure (Best V)
  | (run, runIndex) =>
    match run[id]?.bind fun result => findMetric result kind with
    | none => .error .panicked
    | some metric => .ok (best.add metric runIndex)

def reduceMetric (indexed : List (RunIndex V)) (id : BenchmarkId) (kind : MetricKind) :
    Except Failure (Metric V × Selection V) := do
  let best ← indexed.zipIdx.foldlM (addRun id kind) ⟨[], none, 0⟩
  match best.winner with
  | none => .error .panicked
  | some winner =>
    .ok (winner, { id, kind, samples := best.samples, chosenRun := best.chosenRun })

/-- What is made of the metrics of the results of the first run. -/
def assemble (reference : List (BenchmarkResult V))
    (parts : List (List (Metric V × Selection V))) : Combined V where
  results := List.zipWith (fun result part => ⟨result.id, part.map Prod.fst⟩) reference parts
  selections := (parts.map (·.map Prod.snd)).flatten

def minPerMetric : List (List (BenchmarkResult V)) → Except Failure (Combined V)
  | [] => .ok { results := [], selections := [] }
  | reference :: rest => do
    let indexed := (reference :: rest).map indexRun
    checkCaseConsistency reference rest indexed
    checkMetricConsistency reference indexed
    let parts ← reference.mapM fun result =>
      result.metrics.mapM fun metric => reduceMetric indexed result.id metric.kind
    return assemble reference parts

end Reduce

/-! ## What the runs measure -/

/-- The result that the lookup of a run holds. -/
def lastOf (run : List (BenchmarkResult V)) (id : BenchmarkId) : Option (BenchmarkResult V) :=
  run.reverse.find? fun result => result.id = id

/-- The metric that is found in a run. -/
def found (run : List (BenchmarkResult V)) (id : BenchmarkId) (kind : MetricKind) :
    Option (Metric V) :=
  (lastOf run id).bind fun result => findMetric result kind

def Covers (run : List (BenchmarkResult V)) (id : BenchmarkId) : Prop :=
  ∃ result ∈ run, result.id = id

def Carries (result : BenchmarkResult V) (kind : MetricKind) : Prop :=
  ∃ metric ∈ result.metrics, metric.kind = kind

/-- Some result of the case carries the metric. -/
def Measures (run : List (BenchmarkResult V)) (id : BenchmarkId) (metric : Metric V) : Prop :=
  ∃ result ∈ run, result.id = id ∧ metric ∈ result.metrics

def HasKind (run : List (BenchmarkResult V)) (id : BenchmarkId) (kind : MetricKind) : Prop :=
  ∃ result ∈ run, result.id = id ∧ Carries result kind

theorem getElem?_indexRun (run : List (BenchmarkResult V)) (id : BenchmarkId) :
    (indexRun run)[id]? = lastOf run id := by
  unfold indexRun lastOf
  rw [getElem?_foldl_insert_key, ExtTreeMap.getElem?_empty, Option.or_none]

theorem lastOf_mem {run : List (BenchmarkResult V)} {id : BenchmarkId}
    {result : BenchmarkResult V} (h : lastOf run id = some result) :
    result ∈ run ∧ result.id = id := by
  have hid := List.find?_some h
  exact ⟨List.mem_reverse.mp (List.mem_of_find?_eq_some h), of_decide_eq_true hid⟩

theorem isSome_lastOf {run : List (BenchmarkResult V)} {id : BenchmarkId} :
    (lastOf run id).isSome ↔ Covers run id := by
  unfold lastOf Covers
  rw [List.find?_isSome]
  simp only [List.mem_reverse, decide_eq_true_eq]

theorem contains_indexRun {run : List (BenchmarkResult V)} {id : BenchmarkId} :
    (indexRun run).contains id ↔ Covers run id := by
  rw [ExtTreeMap.contains_eq_isSome_getElem?, getElem?_indexRun, isSome_lastOf]

theorem findMetric_mem {result : BenchmarkResult V} {kind : MetricKind} {metric : Metric V}
    (h : findMetric result kind = some metric) :
    metric ∈ result.metrics ∧ metric.kind = kind := by
  have hkind := List.find?_some h
  exact ⟨List.mem_of_find?_eq_some h, of_decide_eq_true hkind⟩

theorem isSome_findMetric {result : BenchmarkResult V} {kind : MetricKind} :
    (findMetric result kind).isSome ↔ Carries result kind := by
  unfold findMetric Carries
  rw [List.find?_isSome]
  simp only [decide_eq_true_eq]

theorem measures_of_found {run : List (BenchmarkResult V)} {id : BenchmarkId} {kind : MetricKind}
    {metric : Metric V} (h : found run id kind = some metric) :
    Measures run id metric ∧ metric.kind = kind := by
  obtain ⟨result, hlast, hmetric⟩ := Option.bind_eq_some_iff.mp h
  obtain ⟨hrun, hid⟩ := lastOf_mem hlast
  obtain ⟨hmem, hkind⟩ := findMetric_mem hmetric
  exact ⟨⟨result, hrun, hid, hmem⟩, hkind⟩

/-! ## The two checks -/

def CasesAgree (reference : List (BenchmarkResult V)) (rest : List (List (BenchmarkResult V))) :
    Prop :=
  ∀ run ∈ rest, ∀ id, Covers run id ↔ Covers reference id

/-- The kinds that are compared: those of each result of the first run with
those of the last result of its case in a run. -/
def LastAgree (reference : List (BenchmarkResult V)) (rest : List (List (BenchmarkResult V))) :
    Prop :=
  ∀ run ∈ reference :: rest, ∀ result ∈ reference, ∀ last, lastOf run result.id = some last →
    ∀ kind, Carries last kind ↔ Carries result kind

/-- A check in every round, whatever the round. -/
theorem forall_mem_zipIdx_fst {α : Type} {p : α → Prop} {xs : List α} :
    (∀ e ∈ xs.zipIdx, p e.1) ↔ ∀ x ∈ xs, p x := by
  rw [← List.forall_mem_map (f := Prod.fst), List.zipIdx_map_fst]

theorem checkRunCases_eq_ok {reference run : List (BenchmarkResult V)} {runIndex : Nat} :
    checkRunCases reference (indexRun reference) run (indexRun run) runIndex = .ok () ↔
      ∀ id, Covers run id ↔ Covers reference id := by
  have hcheck : ∀ (results other : List (BenchmarkResult V)) (index : Nat),
      (results.forM fun result => if (indexRun other).contains result.id then .ok ()
        else .error (.aggregate (.missingCase result.id index)) : Except Failure Unit) = .ok () ↔
      ∀ id, Covers results id → Covers other id := by
    intro results other index
    rw [forM_eq_ok_iff]
    constructor
    · rintro h id ⟨result, hmem, rfl⟩
      have hok := h result hmem
      split at hok
      next hcontains => exact contains_indexRun.mp hcontains
      next => nomatch hok
    · intro h result hmem
      rw [if_pos (contains_indexRun.mpr (h _ ⟨result, hmem, rfl⟩))]
  unfold checkRunCases
  rw [bind_eq_ok]
  constructor
  · rintro ⟨_, hforth, hback⟩ id
    exact ⟨(hcheck ..).mp hback id, (hcheck ..).mp hforth id⟩
  · intro h
    exact ⟨(), (hcheck ..).mpr fun id => (h id).mpr, (hcheck ..).mpr fun id => (h id).mp⟩

theorem checkCaseConsistency_eq_ok {reference : List (BenchmarkResult V)}
    {rest : List (List (BenchmarkResult V))} :
    checkCaseConsistency reference rest ((reference :: rest).map indexRun) = .ok () ↔
      CasesAgree reference rest := by
  unfold checkCaseConsistency
  rw [List.map_cons]
  dsimp only
  rw [forM_eq_ok_iff, ← List.map_prod_left_eq_zip]
  have hround : ∀ e ∈ (rest.map fun run => (run, indexRun run)).zipIdx,
      checkRunCases reference (indexRun reference) e.1.1 e.1.2 (e.2 + 1) = .ok () ↔
        ∀ id, Covers e.1.1 id ↔ Covers reference id := by
    intro e he
    obtain ⟨run, -, hrun⟩ := List.mem_map.mp (List.fst_mem_of_mem_zipIdx he)
    rw [← hrun]
    exact checkRunCases_eq_ok
  rw [forall₂_congr hround]
  unfold CasesAgree
  rw [forall_mem_zipIdx_fst (p := fun e : List (BenchmarkResult V) × RunIndex V =>
    ∀ id, Covers e.1 id ↔ Covers reference id), List.forall_mem_map]

/-- One result of the first run in a run that has its case. -/
theorem checkResultMetrics_eq_ok {run : List (BenchmarkResult V)} {runIndex : Nat}
    {result last : BenchmarkResult V} (hlast : lastOf run result.id = some last) :
    checkResultMetrics (indexRun run) runIndex result = .ok () ↔
      ∀ kind, Carries last kind ↔ Carries result kind := by
  have hcheck : ∀ (metrics : List (Metric V)) (other : BenchmarkResult V) (index : Nat),
      (metrics.forM fun metric => if (findMetric other metric.kind).isNone then
        .error (.aggregate (.missingMetric result.id metric.kind index))
        else .ok () : Except Failure Unit) = .ok () ↔
      ∀ metric ∈ metrics, Carries other metric.kind := by
    intro metrics other index
    rw [forM_eq_ok_iff]
    refine forall₂_congr fun metric _ => ?_
    rw [← isSome_findMetric]
    cases findMetric other metric.kind with
    | none => exact iff_of_false nofun nofun
    | some m => exact iff_of_true rfl rfl
  unfold checkResultMetrics
  rw [getElem?_indexRun, hlast]
  dsimp only
  rw [bind_eq_ok]
  constructor
  · rintro ⟨_, hforth, hback⟩ kind
    constructor
    · rintro ⟨metric, hmem, rfl⟩
      exact (hcheck ..).mp hback metric hmem
    · rintro ⟨metric, hmem, rfl⟩
      exact (hcheck ..).mp hforth metric hmem
  · intro h
    exact ⟨(), (hcheck ..).mpr fun metric hmem => (h _).mpr ⟨metric, hmem, rfl⟩,
      (hcheck ..).mpr fun metric hmem => (h _).mp ⟨metric, hmem, rfl⟩⟩

def KindsAgree (reference : List (BenchmarkResult V)) (rest : List (List (BenchmarkResult V))) :
    Prop :=
  ∀ run ∈ reference :: rest, ∀ id, Covers run id → Covers reference id →
    ∀ kind, HasKind run id kind ↔ HasKind reference id kind

section Checks

variable {reference run : List (BenchmarkResult V)} {rest : List (List (BenchmarkResult V))}
  {result : BenchmarkResult V}

theorem CasesAgree.exists_lastOf (h : CasesAgree reference rest) (hrun : run ∈ reference :: rest)
    (hresult : result ∈ reference) : ∃ last, lastOf run result.id = some last := by
  refine Option.isSome_iff_exists.mp (isSome_lastOf.mpr ?_)
  rcases List.mem_cons.mp hrun with rfl | hrest
  · exact ⟨result, hresult, rfl⟩
  · exact (h run hrest _).mpr ⟨result, hresult, rfl⟩

theorem checkMetricConsistency_eq_ok (h : CasesAgree reference rest) :
    checkMetricConsistency reference ((reference :: rest).map indexRun) = .ok () ↔
      LastAgree reference rest := by
  unfold checkMetricConsistency LastAgree
  rw [forM_eq_ok_iff]
  have hround : ∀ e ∈ ((reference :: rest).map indexRun).zipIdx,
      reference.forM (checkResultMetrics e.1 e.2) = .ok () ↔
        ∀ result ∈ reference, ∀ last, e.1[result.id]? = some last →
          ∀ kind, Carries last kind ↔ Carries result kind := by
    intro e he
    obtain ⟨run, hrun, hindex⟩ := List.mem_map.mp (List.fst_mem_of_mem_zipIdx he)
    rw [forM_eq_ok_iff, ← hindex]
    refine forall₂_congr fun result hresult => ?_
    obtain ⟨last, hlast⟩ := h.exists_lastOf hrun hresult
    rw [checkResultMetrics_eq_ok hlast, getElem?_indexRun, hlast]
    exact ⟨fun hkinds last' heq => Option.some.inj heq ▸ hkinds, fun hkinds => hkinds last rfl⟩
  rw [forall₂_congr hround, forall_mem_zipIdx_fst (p := fun lookup : RunIndex V =>
    ∀ result ∈ reference, ∀ last, lookup[result.id]? = some last →
      ∀ kind, Carries last kind ↔ Carries result kind), List.forall_mem_map]
  simp only [getElem?_indexRun]

theorem checkCaseConsistency_ne_panicked {indexed : List (RunIndex V)} :
    checkCaseConsistency reference rest indexed ≠ .error .panicked := by
  unfold checkCaseConsistency
  split
  next => nofun
  next =>
    refine forM_ne_error fun e _ => ?_
    refine bind_ne_error (forM_ne_error fun result _ => ?_) fun _ _ =>
      forM_ne_error fun result _ => ?_
    all_goals
      split
      · nofun
      · nofun

theorem checkMetricConsistency_ne_panicked (h : CasesAgree reference rest) :
    checkMetricConsistency reference ((reference :: rest).map indexRun) ≠ .error .panicked := by
  refine forM_ne_error fun e he => forM_ne_error fun result hresult => ?_
  obtain ⟨run, hrun, hindex⟩ := List.mem_map.mp (List.fst_mem_of_mem_zipIdx he)
  obtain ⟨last, hlast⟩ := h.exists_lastOf hrun hresult
  unfold checkResultMetrics
  rw [← hindex, getElem?_indexRun, hlast]
  refine bind_ne_error (forM_ne_error fun metric _ => ?_) fun _ _ =>
    forM_ne_error fun metric _ => ?_
  all_goals
    split
    · nofun
    · nofun

/-- Where the checks pass, every metric is found in every run. -/
theorem LastAgree.exists_found (hcases : CasesAgree reference rest)
    (hkinds : LastAgree reference rest) (hrun : run ∈ reference :: rest)
    (hresult : result ∈ reference) {metric : Metric V} (hmetric : metric ∈ result.metrics) :
    ∃ m, found run result.id metric.kind = some m := by
  obtain ⟨last, hlast⟩ := hcases.exists_lastOf hrun hresult
  have hcarries := (hkinds run hrun result hresult last hlast _).mpr ⟨metric, hmetric, rfl⟩
  obtain ⟨m, hm⟩ := Option.isSome_iff_exists.mp (isSome_findMetric.mpr hcarries)
  exact ⟨m, by unfold found; rw [hlast]; exact hm⟩

theorem HasKind.of_carries (hresult : result ∈ run) {kind : MetricKind} (h : Carries result kind) :
    HasKind run result.id kind :=
  ⟨result, hresult, rfl, h⟩

/-- What the last result of a case shows agrees. -/
theorem kindsAgree_of_shown (hlast : LastAgree reference rest)
    (hshown : ∀ run ∈ reference :: rest, ∀ id last kind, lastOf run id = some last →
      HasKind run id kind → Carries last kind)
    (hcases : CasesAgree reference rest) : KindsAgree reference rest := by
  have hself : reference ∈ reference :: rest := List.mem_cons_self ..
  intro run hrun id hcovers hcovered kind
  obtain ⟨result, hresult, rfl⟩ := hcovered
  obtain ⟨last, hlastOf⟩ := hcases.exists_lastOf hrun hresult
  obtain ⟨last₀, hlastOf₀⟩ := hcases.exists_lastOf hself hresult
  have hsame := hlast run hrun result hresult last hlastOf kind
  have hsame₀ := hlast reference hself result hresult last₀ hlastOf₀ kind
  constructor
  · intro hkind
    exact .of_carries hresult (hsame.mp (hshown run hrun _ last kind hlastOf hkind))
  · intro hkind
    have hcarries := hsame.mpr (hsame₀.mp (hshown reference hself _ last₀ kind hlastOf₀ hkind))
    obtain ⟨hmem, hid⟩ := lastOf_mem hlastOf
    exact hid ▸ .of_carries hmem hcarries

/-- Compared results that have all kinds of their cases agree as these do. -/
theorem lastAgree_of_complete (hkinds : KindsAgree reference rest)
    (hfirst : ∀ result ∈ reference, ∀ kind, HasKind reference result.id kind →
      Carries result kind)
    (hlast : ∀ run ∈ reference :: rest, ∀ id last kind, lastOf run id = some last →
      HasKind run id kind → Carries last kind) : LastAgree reference rest := by
  intro run hrun result hresult last hlastOf kind
  obtain ⟨hmem, hid⟩ := lastOf_mem hlastOf
  have hsame := hkinds run hrun result.id ⟨last, hmem, hid⟩ ⟨result, hresult, rfl⟩ kind
  constructor
  · intro hcarries
    exact hfirst result hresult kind (hsame.mp (hid ▸ .of_carries hmem hcarries))
  · intro hcarries
    exact hlast run hrun _ last kind hlastOf (hsame.mpr (.of_carries hresult hcarries))

/-- Where both the cases and kinds agree and what is compared does, every
compared result has all kinds of its case. -/
theorem complete_of_agree (hcases : CasesAgree reference rest)
    (hkinds : KindsAgree reference rest) (hlast : LastAgree reference rest) :
    (∀ result ∈ reference, ∀ kind, HasKind reference result.id kind → Carries result kind) ∧
    ∀ run ∈ reference :: rest, ∀ id last kind, lastOf run id = some last →
      HasKind run id kind → Carries last kind := by
  have hself : reference ∈ reference :: rest := List.mem_cons_self ..
  constructor
  · rintro result hresult kind ⟨other, hother, hid, hcarries⟩
    obtain ⟨last, hlastOf⟩ := hcases.exists_lastOf hself hresult
    have hsame := hlast reference hself other hother last (hid ▸ hlastOf) kind
    exact (hlast reference hself result hresult last hlastOf kind).mp (hsame.mpr hcarries)
  · intro run hrun id last kind hlastOf hkind
    have hcovers : Covers run id := isSome_lastOf.mp (Option.isSome_iff_exists.mpr ⟨_, hlastOf⟩)
    have hcovered : Covers reference id := by
      rcases List.mem_cons.mp hrun with rfl | hrest
      · exact hcovers
      · exact (hcases run hrest id).mp hcovers
    obtain ⟨other, hother, hid, hcarries⟩ := (hkinds run hrun id hcovers hcovered kind).mp hkind
    exact (hlast run hrun other hother last (hid ▸ hlastOf) kind).mpr hcarries

end Checks

/-! ## The reduction -/

/-- One pair for each metric of each result. -/
def Parted (reference : List (BenchmarkResult V)) (parts : List (List (Metric V × Selection V)))
    (P : BenchmarkId → MetricKind → Metric V × Selection V → Prop) : Prop :=
  List.Forall₂ (fun result part =>
    List.Forall₂ (fun metric pair => P result.id metric.kind pair) result.metrics part)
    reference parts

section Parts

variable {reference : List (BenchmarkResult V)}
  {parts parts' : List (List (Metric V × Selection V))}
  {P Q : BenchmarkId → MetricKind → Metric V × Selection V → Prop}

theorem Parted.imp (h : Parted reference parts P) (himp : ∀ result ∈ reference,
    ∀ metric ∈ result.metrics, ∀ pair, P result.id metric.kind pair →
      Q result.id metric.kind pair) : Parted reference parts Q :=
  forall₂_imp_mem h fun result hresult _ hpart =>
    forall₂_imp_mem hpart fun metric hmetric pair => himp result hresult metric hmetric pair

theorem Parted.exists_pair (h : Parted reference parts P) (h' : Parted reference parts Q)
    {result : BenchmarkResult V} (hresult : result ∈ reference) {metric : Metric V}
    (hmetric : metric ∈ result.metrics) :
    ∃ pair, P result.id metric.kind pair ∧ Q result.id metric.kind pair := by
  obtain ⟨part, -, hpart, hpart'⟩ := exists_image_of_forall₂ (forall₂_and h h') result hresult
  obtain ⟨pair, -, hpair⟩ := exists_image_of_forall₂ (forall₂_and hpart hpart') metric hmetric
  exact ⟨pair, hpair⟩

/-- The parts can be read off what is made of them. -/
theorem parts_unique (h : Parted reference parts P) (h' : Parted reference parts' Q)
    (heq : assemble reference parts = assemble reference parts') : parts = parts' := by
  unfold assemble at heq
  obtain ⟨hresults, hselections⟩ := Combined.mk.inj heq
  unfold Parted at h h'
  clear heq
  induction h generalizing parts' with
  | nil =>
    cases h'
    rfl
  | @cons result part reference parts hpart _ ih =>
    cases h' with
    | @cons _ part' _ parts' hpart' hrest' =>
      rw [List.zipWith_cons_cons, List.zipWith_cons_cons] at hresults
      obtain ⟨hresult, hresults⟩ := List.cons.inj hresults
      have hmetrics := (BenchmarkResult.mk.inj hresult).2
      rw [List.map_cons, List.map_cons, List.flatten_cons, List.flatten_cons] at hselections
      have hlen : (part.map Prod.snd).length = (part'.map Prod.snd).length := by
        rw [List.length_map, List.length_map, ← hpart.length_eq, ← hpart'.length_eq]
      obtain ⟨hselection, hselections⟩ := List.append_inj hselections hlen
      have hhead : part = part' := by
        rw [List.zip_of_prod hmetrics hselection]
        exact (List.zip_of_prod rfl rfl).symm
      rw [hhead, ih hrest' hresults hselections]

/-- A run comes back as it is when every metric is what it is found as. -/
theorem results_eq_iff {f : BenchmarkId → MetricKind → Option (Metric V)}
    (h : Parted reference parts fun id kind pair => f id kind = some pair.1) :
    (assemble reference parts).results = reference ↔ ∀ result ∈ reference,
      ∀ metric ∈ result.metrics, f result.id metric.kind = some metric := by
  have hpart : ∀ {id : BenchmarkId} {metrics : List (Metric V)}
      {part : List (Metric V × Selection V)},
      List.Forall₂ (fun metric pair => f id metric.kind = some pair.1) metrics part →
      (part.map Prod.fst = metrics ↔
        ∀ metric ∈ metrics, f id metric.kind = some metric) := by
    intro id metrics part hpart
    induction hpart with
    | nil => exact iff_of_true rfl nofun
    | @cons metric pair metrics part hmetric _ ih =>
      rw [List.map_cons, List.cons.injEq, ih, List.forall_mem_cons, hmetric, Option.some.injEq]
  unfold Parted at h
  unfold assemble
  dsimp only
  induction h with
  | nil => exact iff_of_true rfl nofun
  | @cons result part reference parts hhead _ ih =>
    obtain ⟨id, metrics⟩ := result
    rw [List.zipWith_cons_cons, List.cons.injEq, List.forall_mem_cons, BenchmarkResult.mk.injEq,
      eq_self_iff_true, true_and]
    exact and_congr (hpart hhead) ih

end Parts

section Reduction

variable [Preorder V] [DecidableLT V]

/-- The metrics of some runs, what is the first of the least, and the samples. -/
structure Best.Holds (best : Best V) (metrics : List (Metric V)) : Prop where
  samples : best.samples = metrics.map Metric.value
  winner : ∃ winner, best.winner = some winner ∧
    IsFirstLeast Metric.value metrics best.chosenRun winner

theorem Best.Holds.add (htotal : ∀ a b : V, a ≤ b ∨ b ≤ a) {best : Best V}
    {metrics : List (Metric V)} (h : best.Holds metrics) (metric : Metric V) :
    (best.add metric metrics.length).Holds (metrics ++ [metric]) := by
  obtain ⟨hsamples, winner, hwinner, hleast⟩ := h
  have hmap : best.samples ++ [metric.value] = (metrics ++ [metric]).map Metric.value := by
    rw [hsamples, List.map_append]
    rfl
  unfold Best.add
  rw [hwinner]
  dsimp only
  by_cases hlt : metric.value < winner.value
  · rw [if_pos hlt]
    exact ⟨hmap, metric, rfl, hleast.append_of_lt hlt⟩
  · rw [if_neg hlt]
    have hle : winner.value ≤ metric.value := by
      rcases htotal winner.value metric.value with hle | hge
      · exact hle
      · exact not_lt_iff_le_imp_ge.mp hlt hge
    exact ⟨hmap, winner, rfl, hleast.append_of_le hle⟩

theorem addRun_eq_ok {id : BenchmarkId} {kind : MetricKind} {run : List (BenchmarkResult V)}
    {metric : Metric V} (h : found run id kind = some metric) (best : Best V) (runIndex : Nat) :
    addRun id kind best (indexRun run, runIndex) = .ok (best.add metric runIndex) := by
  unfold found at h
  unfold addRun
  dsimp only
  rw [getElem?_indexRun, h]

theorem foldlM_addRun (htotal : ∀ a b : V, a ≤ b ∨ b ≤ a) {id : BenchmarkId} {kind : MetricKind}
    {runs : List (List (BenchmarkResult V))} {metrics : List (Metric V)}
    (h : List.Forall₂ (fun run metric => found run id kind = some metric) runs metrics)
    {best : Best V} {before : List (Metric V)} (hbest : best.Holds before) :
    ∃ after, ((runs.map indexRun).zipIdx before.length).foldlM (addRun id kind) best = .ok after ∧
      after.Holds (before ++ metrics) := by
  induction h generalizing best before with
  | nil => exact ⟨best, rfl, by rwa [List.append_nil]⟩
  | @cons run metric runs metrics hfound _ ih =>
    obtain ⟨after, hafter, hholds⟩ := ih (hbest.add htotal metric)
    refine ⟨after, ?_, ?_⟩
    · rw [List.map_cons, List.zipIdx_cons, List.foldlM_cons, addRun_eq_ok hfound]
      rw [List.length_append] at hafter
      exact hafter
    · rwa [List.append_assoc] at hholds

/-- What is made of a metric that every run has. -/
theorem reduceMetric_spec (htotal : ∀ a b : V, a ≤ b ∨ b ≤ a) {id : BenchmarkId}
    {kind : MetricKind} {reference : List (BenchmarkResult V)}
    {rest : List (List (BenchmarkResult V))} {metrics : List (Metric V)}
    (h : List.Forall₂ (fun run metric => found run id kind = some metric) (reference :: rest)
      metrics) :
    ∃ winner chosenRun, IsFirstLeast Metric.value metrics chosenRun winner ∧
      reduceMetric ((reference :: rest).map indexRun) id kind = .ok (winner,
        { id, kind, samples := metrics.map Metric.value, chosenRun }) := by
  cases h with
  | @cons _ metric _ metrics hfound hrest =>
    -- the first run wins while it is alone
    have hfirst : Best.Holds (⟨[metric.value], some metric, 0⟩ : Best V) [metric] :=
      ⟨rfl, metric, rfl, .singleton ..⟩
    obtain ⟨after, hafter, hsamples, winner, hwinner, hleast⟩ := foldlM_addRun htotal hrest hfirst
    refine ⟨winner, after.chosenRun, hleast, ?_⟩
    unfold reduceMetric
    rw [List.map_cons, List.zipIdx_cons, List.foldlM_cons, addRun_eq_ok hfound]
    have hloop : ((rest.map indexRun).zipIdx 1).foldlM (addRun id kind)
        (⟨[metric.value], some metric, 0⟩ : Best V) = .ok after := hafter
    show (((rest.map indexRun).zipIdx 1).foldlM (addRun id kind)
        (⟨[metric.value], some metric, 0⟩ : Best V) >>= _) = _
    rw [hloop]
    show (match after.winner with | none => _ | some winner => _) = _
    rw [hwinner, hsamples]
    rfl

/-- What the reduction finds: the first of the least of the metrics that are
found in the runs. -/
def FoundLeast (runs : List (List (BenchmarkResult V))) (id : BenchmarkId) (kind : MetricKind)
    (pair : Metric V × Selection V) : Prop :=
  ∃ metrics chosenRun,
    List.Forall₂ (fun run metric => found run id kind = some metric) runs metrics ∧
    IsFirstLeast Metric.value metrics chosenRun pair.1 ∧
    pair.2 = { id, kind, samples := metrics.map Metric.value, chosenRun }

theorem minPerMetric_spec (htotal : ∀ a b : V, a ≤ b ∨ b ≤ a)
    {reference : List (BenchmarkResult V)} {rest : List (List (BenchmarkResult V))}
    (hcases : CasesAgree reference rest) (hkinds : LastAgree reference rest) :
    ∃ parts, minPerMetric (reference :: rest) = .ok (assemble reference parts) ∧
      Parted reference parts (FoundLeast (reference :: rest)) := by
  have hmetric : ∀ result ∈ reference, ∀ metric ∈ result.metrics, ∃ pair,
      reduceMetric ((reference :: rest).map indexRun) result.id metric.kind = .ok pair ∧
        FoundLeast (reference :: rest) result.id metric.kind pair := by
    intro result hresult metric hmetric
    obtain ⟨metrics, hmetrics⟩ := exists_forall₂ fun run hrun =>
      LastAgree.exists_found hcases hkinds hrun hresult hmetric
    obtain ⟨winner, chosenRun, hleast, hok⟩ := reduceMetric_spec htotal hmetrics
    exact ⟨_, hok, metrics, chosenRun, hmetrics, hleast, rfl⟩
  have hresults : ∀ result ∈ reference, ∃ part, List.Forall₂ (fun metric pair =>
      reduceMetric ((reference :: rest).map indexRun) result.id metric.kind = .ok pair ∧
        FoundLeast (reference :: rest) result.id metric.kind pair) result.metrics part :=
    fun result hresult => exists_forall₂ (hmetric result hresult)
  obtain ⟨parts, hparts⟩ := exists_forall₂ hresults
  refine ⟨parts, ?_, hparts.imp fun _ _ h => h.imp fun _ _ h => h.2⟩
  have hmap : (reference.mapM fun result => result.metrics.mapM fun metric =>
      reduceMetric ((reference :: rest).map indexRun) result.id metric.kind) = .ok parts :=
    mapM_eq_ok_of_forall₂ (hparts.imp fun _ _ h =>
      mapM_eq_ok_of_forall₂ (h.imp fun _ _ h => h.1))
  unfold minPerMetric
  dsimp only
  rw [checkCaseConsistency_eq_ok.mpr hcases]
  show (checkMetricConsistency reference ((reference :: rest).map indexRun) >>= _) = _
  rw [(checkMetricConsistency_eq_ok hcases).mpr hkinds]
  show ((reference.mapM fun result => result.metrics.mapM fun metric =>
      reduceMetric ((reference :: rest).map indexRun) result.id metric.kind) >>= _) = _
  rw [hmap]
  rfl

/-- Where a check fails there is an error. -/
theorem exists_error_of_not_agree {reference : List (BenchmarkResult V)}
    {rest : List (List (BenchmarkResult V))}
    (h : ¬ (CasesAgree reference rest ∧ LastAgree reference rest)) :
    ∃ error, minPerMetric (reference :: rest) = .error (.aggregate error) := by
  unfold minPerMetric
  dsimp only
  cases hcheck : checkCaseConsistency reference rest ((reference :: rest).map indexRun) with
  | error failure =>
    cases failure with
    | aggregate error => exact ⟨error, rfl⟩
    | panicked => exact absurd hcheck checkCaseConsistency_ne_panicked
  | ok u =>
    have hcases := checkCaseConsistency_eq_ok.mp hcheck
    cases hmetrics : checkMetricConsistency reference ((reference :: rest).map indexRun) with
    | error failure =>
      cases failure with
      | aggregate error => exact ⟨error, rfl⟩
      | panicked => exact absurd hmetrics (checkMetricConsistency_ne_panicked hcases)
    | ok u => exact absurd ⟨hcases, (checkMetricConsistency_eq_ok hcases).mp hmetrics⟩ h

/-! ## Best of the runs -/

/-- A metric of the earliest run that attains the minimum of all that the runs
measure, with a sample of each run. -/
structure IsMinimum (runs : List (List (BenchmarkResult V))) (id : BenchmarkId)
    (kind : MetricKind) (pair : Metric V × Selection V) : Prop where
  named : pair.2.id = id ∧ pair.2.kind = kind ∧ pair.1.kind = kind
  chosen : ∃ run, runs[pair.2.chosenRun]? = some run ∧ Measures run id pair.1
  least : ∀ run ∈ runs, ∀ m, Measures run id m → m.kind = kind → pair.1.value ≤ m.value
  earliest : ∀ i run, runs[i]? = some run → i < pair.2.chosenRun →
    ∀ m, Measures run id m → m.kind = kind → pair.1.value < m.value
  samples : List.Forall₂ (fun run sample => ∃ m, Measures run id m ∧ m.kind = kind ∧
    m.value = sample) runs pair.2.samples
  sample : pair.2.samples[pair.2.chosenRun]? = some pair.1.value

/-- What the best of some runs is to be. -/
structure IsBestOf (reference : List (BenchmarkResult V)) (rest : List (List (BenchmarkResult V)))
    (outcome : Except Failure (Combined V)) : Prop where
  error : (∃ error, outcome = .error (.aggregate error)) ↔
    ¬ (CasesAgree reference rest ∧ KindsAgree reference rest)
  minimum : CasesAgree reference rest ∧ KindsAgree reference rest → ∃ parts,
    outcome = .ok (assemble reference parts) ∧
      Parted reference parts (IsMinimum (reference :: rest))
  single : rest = [] → ∃ combined, outcome = .ok combined ∧ combined.results = reference

/-- A metric of run `i` that is less than what is found there and before, and
no more than what is found later. -/
def Beats (runs : List (List (BenchmarkResult V))) (id : BenchmarkId) (i : Nat) (m : Metric V) :
    Prop :=
  ∀ j run f, runs[j]? = some run → found run id m.kind = some f →
    m.value ≤ f.value ∧ (j ≤ i → m.value < f.value)

/-- What a run repeats hides nothing. -/
structure Unambiguous (reference : List (BenchmarkResult V))
    (rest : List (List (BenchmarkResult V))) : Prop where
  /-- where the kinds that are compared agree, no kind is in an earlier result
  of a case and not in its last -/
  shown : CasesAgree reference rest → LastAgree reference rest → ∀ run ∈ reference :: rest,
    ∀ id last kind, lastOf run id = some last → HasKind run id kind → Carries last kind
  /-- where all kinds agree, the results that are compared have all of them -/
  complete : CasesAgree reference rest → KindsAgree reference rest →
    (∀ result ∈ reference, ∀ kind, HasKind reference result.id kind → Carries result kind) ∧
    ∀ run ∈ reference :: rest, ∀ id last kind, lastOf run id = some last →
      HasKind run id kind → Carries last kind
  /-- where the kinds that are compared agree, no metric beats those found -/
  unbeaten : CasesAgree reference rest → LastAgree reference rest → ∀ result ∈ reference,
    ∀ metric ∈ result.metrics, ∀ i run m, (reference :: rest)[i]? = some run →
      Measures run result.id m → m.kind = metric.kind → ¬ Beats (reference :: rest) result.id i m
  /-- the metrics of a single run are those found -/
  single : rest = [] → ∀ result ∈ reference, ∀ metric ∈ result.metrics,
    found reference result.id metric.kind = some metric

section Found

variable {runs : List (List (BenchmarkResult V))} {id : BenchmarkId} {kind : MetricKind}
  {pair : Metric V × Selection V}

/-- What is found is the minimum unless a metric that is not found beats it. -/
theorem FoundLeast.isMinimum (htotal : ∀ a b : V, a ≤ b ∨ b ≤ a)
    (h : FoundLeast runs id kind pair)
    (hbeats : ∀ i run m, runs[i]? = some run → Measures run id m → m.kind = kind →
      ¬ Beats runs id i m) : IsMinimum runs id kind pair := by
  obtain ⟨metrics, chosenRun, hfound, hleast, hselection⟩ := h
  obtain ⟨winner, selection⟩ := pair
  obtain rfl : selection = _ := hselection
  obtain ⟨run₀, hrun₀, hfound₀⟩ := exists_getElem?_of_forall₂ hfound hleast.place
  obtain ⟨hmeasures, hkind⟩ := measures_of_found hfound₀
  have hmetric : ∀ (j : Nat) (run : List (BenchmarkResult V)) (f : Metric V),
      runs[j]? = some run → found run id kind = some f → metrics[j]? = some f := by
    intro j run f hrun hf
    obtain ⟨f', hf', heq⟩ := exists_getElem?_of_forall₂ hfound.flip hrun
    exact Option.some.inj (heq.symm.trans hf) ▸ hf'
  refine ⟨⟨rfl, rfl, hkind⟩, ⟨run₀, hrun₀, hmeasures⟩, ?_, ?_, ?_, ?_⟩
  · intro run hrun m hm hmkind
    obtain ⟨i, hi⟩ := List.mem_iff_getElem?.mp hrun
    rcases htotal winner.value m.value with hle | hge
    · exact hle
    · by_contra hnot
      -- what is less than the winner is less than all that is found
      have hlt : m.value < winner.value := lt_of_le_not_ge hge hnot
      refine hbeats i run m hi hm hmkind fun j run' f hrun' hf => ?_
      have hless := lt_of_lt_of_le hlt (hleast.least j f (hmetric j run' f hrun' (hmkind ▸ hf)))
      exact ⟨le_of_lt hless, fun _ => hless⟩
  · intro i run hi hlt m hm hmkind
    by_contra hnot
    have hle : m.value ≤ winner.value := by
      rcases htotal winner.value m.value with hle | hge
      · exact not_lt_iff_le_imp_ge.mp hnot hle
      · exact hge
    refine hbeats i run m hi hm hmkind fun j run' f hrun' hf => ?_
    have hf' := hmetric j run' f hrun' (hmkind ▸ hf)
    exact ⟨hle.trans (hleast.least j f hf'), fun hj =>
      lt_of_le_of_lt hle (hleast.first j f hf' (Nat.lt_of_le_of_lt hj hlt))⟩
  · show List.Forall₂ _ runs (metrics.map Metric.value)
    rw [List.forall₂_map_right_iff]
    refine hfound.imp fun run m hm => ?_
    obtain ⟨hmeasures, hkind⟩ := measures_of_found hm
    exact ⟨m, hmeasures, hkind, rfl⟩
  · show (metrics.map Metric.value)[chosenRun]? = _
    rw [List.getElem?_map, hleast.place]
    rfl

omit [DecidableLT V] in
/-- Nothing beats a minimum that is found. -/
theorem IsMinimum.not_beats (h : FoundLeast runs id kind pair) (hmin : IsMinimum runs id kind pair)
    {i : Nat} {run : List (BenchmarkResult V)} {m : Metric V} (hrun : runs[i]? = some run)
    (hm : Measures run id m) (hkind : m.kind = kind) : ¬ Beats runs id i m := by
  intro hbeats
  obtain ⟨metrics, chosenRun, hfound, hleast, hselection⟩ := h
  obtain ⟨run₀, hrun₀, hfound₀⟩ := exists_getElem?_of_forall₂ hfound hleast.place
  obtain ⟨hle, hlt⟩ := hbeats chosenRun run₀ pair.1 hrun₀ (hkind ▸ hfound₀)
  rcases Nat.lt_or_ge i chosenRun with hi | hi
  · have hearlier := hmin.earliest i run hrun (by rw [hselection]; exact hi) m hm hkind
    exact absurd hle (not_le_of_gt hearlier)
  · have hleast' := hmin.least run (List.mem_of_getElem? hrun) m hm hkind
    exact absurd hleast' (not_le_of_gt (hlt hi))

omit [DecidableLT V] in
/-- In a single run it is what is found there. -/
theorem FoundLeast.of_single {run : List (BenchmarkResult V)} (h : FoundLeast [run] id kind pair) :
    found run id kind = some pair.1 := by
  obtain ⟨metrics, chosenRun, hfound, hleast, -⟩ := h
  obtain ⟨run', hrun', hfound'⟩ := exists_getElem?_of_forall₂ hfound hleast.place
  rwa [List.mem_singleton.mp (List.mem_of_getElem? hrun')] at hfound'

end Found

omit [DecidableLT V] in
/-- Runs that repeat no case, of results that repeat no kind, hide nothing. -/
theorem Unambiguous.of_nodup {reference : List (BenchmarkResult V)}
    {rest : List (List (BenchmarkResult V))}
    (hids : ∀ run ∈ reference :: rest, (run.map BenchmarkResult.id).Nodup)
    (hkinds : ∀ run ∈ reference :: rest, ∀ result ∈ run,
      (result.metrics.map Metric.kind).Nodup) : Unambiguous reference rest := by
  have hself : reference ∈ reference :: rest := List.mem_cons_self ..
  have hsame : ∀ run ∈ reference :: rest, ∀ result ∈ run, ∀ other ∈ run,
      result.id = other.id → result = other :=
    fun run hrun result hresult other hother heq =>
      List.inj_on_of_nodup_map (hids run hrun) hresult hother heq
  have hshown : ∀ run ∈ reference :: rest, ∀ id last kind, lastOf run id = some last →
      HasKind run id kind → Carries last kind := by
    rintro run hrun id last kind hlast ⟨result, hresult, rfl, hcarries⟩
    obtain ⟨hmem, hid⟩ := lastOf_mem hlast
    exact hsame run hrun last hmem result hresult hid ▸ hcarries
  have hfound : ∀ run ∈ reference :: rest, ∀ id m, Measures run id m →
      found run id m.kind = some m := by
    rintro run hrun id m ⟨result, hresult, rfl, hm⟩
    obtain ⟨last, hlast⟩ := Option.isSome_iff_exists.mp (isSome_lastOf.mpr ⟨result, hresult, rfl⟩)
    obtain ⟨hmem, hid⟩ := lastOf_mem hlast
    obtain rfl := hsame run hrun last hmem result hresult hid
    obtain ⟨m', hm'⟩ := Option.isSome_iff_exists.mp (isSome_findMetric.mpr ⟨m, hm, rfl⟩)
    obtain ⟨hmem', hkind⟩ := findMetric_mem hm'
    have heq := List.inj_on_of_nodup_map (hkinds run hrun last hresult) hmem' hm hkind
    unfold found
    rw [hlast]
    exact heq ▸ hm'
  refine ⟨fun _ _ => hshown, fun _ _ => ⟨?_, hshown⟩, ?_, ?_⟩
  · rintro result hresult kind ⟨other, hother, hid, hcarries⟩
    exact hsame reference hself other hother result hresult hid ▸ hcarries
  · intro _ _ result _ metric _ i run m hrun hm _ hbeats
    have hm' := hfound run (List.mem_of_getElem? hrun) result.id m hm
    exact lt_irrefl _ ((hbeats i run m hrun hm').2 (Nat.le_refl i))
  · intro _ result hresult metric hmetric
    exact hfound reference hself result.id metric ⟨result, hresult, rfl, hmetric⟩

/-- **What a run repeats is all that can go wrong**: the best of the runs is
found just when what the runs repeat hides nothing. -/
theorem minPerMetric_bestOf_iff (htotal : ∀ a b : V, a ≤ b ∨ b ≤ a)
    (reference : List (BenchmarkResult V)) (rest : List (List (BenchmarkResult V))) :
    IsBestOf reference rest (minPerMetric (reference :: rest)) ↔
      Unambiguous reference rest := by
  have hok : ∀ {combined}, minPerMetric (reference :: rest) = .ok combined →
      CasesAgree reference rest ∧ LastAgree reference rest := by
    intro combined h
    by_contra hnot
    obtain ⟨error, herror⟩ := exists_error_of_not_agree hnot
    exact nomatch h.symm.trans herror
  constructor
  · intro hbest
    have hagree : CasesAgree reference rest → (LastAgree reference rest ↔
        KindsAgree reference rest) := by
      intro hcases
      constructor
      · intro hlast
        obtain ⟨parts, hparts, -⟩ := minPerMetric_spec htotal hcases hlast
        by_contra hnot
        obtain ⟨error, herror⟩ := hbest.error.mpr fun h => hnot h.2
        exact nomatch hparts.symm.trans herror
      · intro hkinds
        obtain ⟨parts, hparts, -⟩ := hbest.minimum ⟨hcases, hkinds⟩
        exact (hok hparts).2
    refine ⟨fun hcases hlast => ?_, fun hcases hkinds => ?_, fun hcases hlast => ?_,
      fun hsingle => ?_⟩
    · exact (complete_of_agree hcases ((hagree hcases).mp hlast) hlast).2
    · exact complete_of_agree hcases hkinds ((hagree hcases).mpr hkinds)
    · intro result hresult metric hmetric i run m hrun hm hkind
      obtain ⟨parts, hparts, hfound⟩ := minPerMetric_spec htotal hcases hlast
      obtain ⟨parts', hparts', hminimum⟩ := hbest.minimum ⟨hcases, (hagree hcases).mp hlast⟩
      obtain rfl := parts_unique hfound hminimum (Except.ok.inj (hparts.symm.trans hparts'))
      obtain ⟨pair, hpair, hmin⟩ := hfound.exists_pair hminimum hresult hmetric
      exact hmin.not_beats hpair hrun hm hkind
    · subst hsingle
      obtain ⟨combined, hcombined, hresults⟩ := hbest.single rfl
      obtain ⟨hcases, hlast⟩ := hok hcombined
      obtain ⟨parts, hparts, hfound⟩ := minPerMetric_spec htotal hcases hlast
      obtain rfl := Except.ok.inj (hparts.symm.trans hcombined)
      exact (results_eq_iff (hfound.imp fun _ _ _ _ _ h => h.of_single)).mp hresults
  · intro h
    have hagree : CasesAgree reference rest → (LastAgree reference rest ↔
        KindsAgree reference rest) := by
      intro hcases
      refine ⟨fun hlast => kindsAgree_of_shown hlast (h.shown hcases hlast) hcases,
        fun hkinds => ?_⟩
      obtain ⟨hfirst, hlast⟩ := h.complete hcases hkinds
      exact lastAgree_of_complete hkinds hfirst hlast
    have hspec : CasesAgree reference rest ∧ KindsAgree reference rest → ∃ parts,
        minPerMetric (reference :: rest) = .ok (assemble reference parts) ∧
          Parted reference parts (FoundLeast (reference :: rest)) :=
      fun ⟨hcases, hkinds⟩ => minPerMetric_spec htotal hcases ((hagree hcases).mpr hkinds)
    refine ⟨⟨?_, fun hnot => ?_⟩, fun hboth => ?_, fun hsingle => ?_⟩
    · rintro ⟨error, herror⟩ hboth
      obtain ⟨parts, hparts, -⟩ := hspec hboth
      exact nomatch herror.symm.trans hparts
    · exact exists_error_of_not_agree fun hboth => hnot ⟨hboth.1, (hagree hboth.1).mp hboth.2⟩
    · obtain ⟨parts, hparts, hfound⟩ := hspec hboth
      have hunbeaten := h.unbeaten hboth.1 ((hagree hboth.1).mpr hboth.2)
      exact ⟨parts, hparts, hfound.imp fun result hresult metric hmetric _ hpair =>
        hpair.isMinimum htotal (hunbeaten result hresult metric hmetric)⟩
    · subst hsingle
      have hkinds : KindsAgree reference [] := by
        intro run hrun id _ _ kind
        rw [List.mem_singleton.mp hrun]
      obtain ⟨parts, hparts, hfound⟩ := hspec ⟨nofun, hkinds⟩
      exact ⟨_, hparts, (results_eq_iff (hfound.imp fun _ _ _ _ _ h => h.of_single)).mpr
        (h.single rfl)⟩

end Reduction

/-- A wall time of a case. -/
def wallTime (name : String) (value : Nat) : BenchmarkResult Nat where
  id := ⟨[name.toList], List.cons_ne_nil _ _⟩
  metrics := [⟨.wallTime, value, none, none, none⟩]

theorem minPerMetric_two_runs :
    IsBestOf [wallTime "a" 9, wallTime "b" 4] [[wallTime "b" 6, wallTime "a" 5]]
      (minPerMetric [[wallTime "a" 9, wallTime "b" 4], [wallTime "b" 6, wallTime "a" 5]]) :=
  (minPerMetric_bestOf_iff Nat.le_total _ _).mpr (.of_nodup (by decide) (by decide))

/-- A single run that repeats a case does not come back. -/
theorem minPerMetric_repeated_case :
    (∃ combined, minPerMetric [[wallTime "a" 1, wallTime "a" 2]] = .ok combined ∧
      combined.results = [wallTime "a" 2, wallTime "a" 2]) ∧
    ¬ IsBestOf [wallTime "a" 1, wallTime "a" 2] []
      (minPerMetric [[wallTime "a" 1, wallTime "a" 2]]) := by
  have hok : ∃ combined, minPerMetric [[wallTime "a" 1, wallTime "a" 2]] = .ok combined ∧
      combined.results = [wallTime "a" 2, wallTime "a" 2] := ⟨_, rfl, rfl⟩
  refine ⟨hok, fun h => ?_⟩
  obtain ⟨combined, hcombined, hresults⟩ := hok
  obtain ⟨combined', hcombined', hsame⟩ := h.single rfl
  obtain rfl := Except.ok.inj (hcombined.symm.trans hcombined')
  exact absurd (hresults.symm.trans hsame) (by decide)

end Folo.BenchHistory.BestOf
