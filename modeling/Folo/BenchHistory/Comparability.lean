import Folo.BenchHistory.Keys
import Mathlib.Data.Prod.Lex
import Mathlib.Data.List.Lex
import Mathlib.Data.Char

/-!
# What may be compared with what

`cbh_model/comparability.rs`, `benchmark_id.rs` and the kinds of `metric.rs`:
the discriminant set that the runs of a series share, the identity of a
benchmark, the kind of a metric, and what a storage key stands for. A text is
the list of its characters, and texts are ordered as lists.
-/

namespace Folo.BenchHistory

abbrev Text := List Char

inductive Engine
  | criterion
  | callgrind
  | allocTracker
  | allTheTime
  deriving DecidableEq

def Engine.asStr : Engine → Text
  | .criterion => "criterion".toList
  | .callgrind => "callgrind".toList
  | .allocTracker => "alloc_tracker".toList
  | .allTheTime => "all_the_time".toList

theorem Engine.asStr_injective : Function.Injective Engine.asStr := by
  intro a b h
  cases a <;> cases b <;> first | rfl | exact absurd h (by decide)

/-- Engines are ordered by their identifiers. -/
instance : LinearOrder Engine := LinearOrder.lift' Engine.asStr Engine.asStr_injective

structure DiscriminantSet where
  engine : Engine
  targetTriple : Text
  machineKey : Text
  deriving DecidableEq

/-- The fields in the order in which they are compared. -/
def DiscriminantSet.fields (s : DiscriminantSet) : Engine ×ₗ (Text ×ₗ Text) :=
  toLex (s.engine, toLex (s.targetTriple, s.machineKey))

theorem DiscriminantSet.fields_injective : Function.Injective DiscriminantSet.fields := by
  rintro ⟨e, t, m⟩ ⟨e', t', m'⟩ h
  obtain ⟨rfl, h⟩ := Prod.mk.inj (toLex.injective h)
  obtain ⟨rfl, rfl⟩ := Prod.mk.inj (toLex.injective h)
  rfl

instance : LinearOrder DiscriminantSet :=
  LinearOrder.lift' DiscriminantSet.fields DiscriminantSet.fields_injective

instance DiscriminantSet.transOrd : Std.TransOrd DiscriminantSet := inferInstance

/-- The segments of an identity, of which there is at least one. -/
structure BenchmarkId where
  segments : List Text
  nonempty : segments ≠ []
  deriving DecidableEq

theorem BenchmarkId.segments_injective : Function.Injective BenchmarkId.segments := by
  rintro ⟨xs, _⟩ ⟨ys, _⟩ rfl
  rfl

instance : LinearOrder BenchmarkId :=
  LinearOrder.lift' BenchmarkId.segments BenchmarkId.segments_injective

instance BenchmarkId.transOrd : Std.TransOrd BenchmarkId := inferInstance

def BenchmarkId.qualified (id : BenchmarkId) : Text :=
  List.intercalate ['/'] id.segments

/-- A prefix of a qualified identity, which is not empty. -/
structure BenchmarkIdPrefix where
  text : Text
  nonempty : text ≠ []

def BenchmarkId.matchingPrefix (id : BenchmarkId) (prefixes : List BenchmarkIdPrefix) :
    Option BenchmarkIdPrefix :=
  if prefixes.isEmpty then none
  else prefixes.find? fun p => p.text.isPrefixOf id.qualified

inductive MetricKind
  | wallTime
  | processorTime
  | instructionCount
  | conditionalBranches
  | indirectBranches
  | allocatedBytes
  | peakOutstandingBytes
  | allocationCount
  deriving DecidableEq

theorem MetricKind.ctorIdx_injective : Function.Injective MetricKind.ctorIdx := by
  intro a b h
  cases a <;> cases b <;> first | rfl | exact absurd h (by decide)

/-- Kinds are ordered as they are declared. -/
instance : LinearOrder MetricKind :=
  LinearOrder.lift' MetricKind.ctorIdx MetricKind.ctorIdx_injective

instance MetricKind.transOrd : Std.TransOrd MetricKind := inferInstance

/-- What the file segment of a key says that it is. -/
inductive ObjectKind
  | clean
  | dirty (observationUnix : Int)
  | bless (issuedUnix : Int)
  deriving DecidableEq

/-- What a storage key is taken apart into. -/
structure StorageKey where
  project : Text
  set : DiscriminantSet
  commit : Text
  kind : ObjectKind
  deriving DecidableEq

def StorageKey.isClean (key : StorageKey) : Bool :=
  match key.kind with
  | .clean => true
  | _ => false

def StorageKey.isDirty (key : StorageKey) : Bool :=
  match key.kind with
  | .dirty _ => true
  | _ => false

def StorageKey.isBless (key : StorageKey) : Bool :=
  match key.kind with
  | .bless _ => true
  | _ => false

end Folo.BenchHistory
