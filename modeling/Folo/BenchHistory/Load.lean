import Folo.BenchHistory.Series
import Mathlib.Algebra.Group.Nat.Defs

/-!
# Loading the stored runs

`RunIndex` and `fold_runs_chunked` of `cbh_analyze/load.rs`, with the
partition of `cbh_detect/parallel.rs`. The stored objects, ranked by their
storage keys, are cut into contiguous chunks, each chunk is folded by a worker
of its own, and the contributions of the workers are merged. What a fetch of a
stored object and the parser make of it is a parameter.

An object that is loaded has its commit on the analyzed history: the first
phase of the callers leaves out the others, and the source relies on it with
an `expect`.
-/

namespace Folo.BenchHistory

open Folo.Lib Std

variable {V ε : Type}

/-- The values of a `usize` end here. -/
def usizeMax : Nat := 2 ^ 64 - 1

/-- `usize::saturating_add`. -/
def saturatingAdd (a b : Nat) : Nat := min (a + b) usizeMax

/-- The first-parent positions of the commits that are analyzed. -/
structure CommitOrder where
  index : ExtTreeMap Text Nat
  injective : ∀ (a b : Text) (i : Nat), index[a]? = some i → index[b]? = some i → a = b

/-- Commits by their positions in a list; of two positions the later one counts. -/
def indexCommits (commits : List Text) : ExtTreeMap Text Nat :=
  commits.zipIdx.foldl (fun index one => index.insert one.1 one.2) ∅

theorem mem_of_foldl_insert (pairs : List (Text × Nat)) (index : ExtTreeMap Text Nat) (a : Text)
    (i : Nat) (h : (pairs.foldl (fun index one => index.insert one.1 one.2) index)[a]? = some i) :
    (a, i) ∈ pairs ∨ index[a]? = some i := by
  induction pairs generalizing index with
  | nil => exact .inr h
  | cons pair pairs ih =>
    rcases ih _ h with hmem | hin
    · exact .inl (List.mem_cons_of_mem _ hmem)
    · rw [getElem?_insert] at hin
      split at hin
      next heq =>
        obtain rfl := Option.some.inj hin
        exact .inl (List.mem_cons.mpr (.inl (by rw [← heq])))
      next => exact .inr hin

/-- An indexed commit stands where the index says. -/
theorem getElem?_of_indexCommits {commits : List Text} {a : Text} {i : Nat}
    (h : (indexCommits commits)[a]? = some i) : commits[i]? = some a := by
  rcases mem_of_foldl_insert _ _ _ _ h with hmem | hnone
  · exact List.mem_zipIdx_iff_getElem?.mp hmem
  · simp at hnone

/-- The positions of the selected commits. -/
def CommitOrder.ofCommits (commits : List Text) : CommitOrder where
  index := indexCommits commits
  injective _ _ _ ha hb :=
    Option.some.inj ((getElem?_of_indexCommits ha).symm.trans (getElem?_of_indexCommits hb))

/-- One commit's tally within a discriminant set. -/
@[ext]
structure CommitCounts where
  commit : Text
  clean : Nat
  dirty : Nat

abbrev ByCommit := ExtTreeMap Nat CommitCounts

@[ext]
structure RunIndex where
  total : Nat
  sets : ExtTreeMap DiscriminantSet ByCommit

namespace RunIndex

/-- `RunIndex::new`. -/
def empty : RunIndex where
  total := 0
  sets := ∅

/-- One more run in a tally. -/
def countRun (dirty : Bool) (entry : CommitCounts) : CommitCounts :=
  if dirty then { entry with dirty := saturatingAdd entry.dirty 1 }
  else { entry with clean := saturatingAdd entry.clean 1 }

def record (idx : RunIndex) (set : DiscriminantSet) (topoIndex : Nat) (commit : Text)
    (dirty : Bool) : RunIndex where
  total := saturatingAdd idx.total 1
  sets := upsert idx.sets set ∅ fun byCommit =>
    upsert byCommit topoIndex { commit := commit, clean := 0, dirty := 0 } (countRun dirty)

/-- `counts` on top of a tally. -/
def addCounts (counts entry : CommitCounts) : CommitCounts :=
  { entry with
    clean := saturatingAdd entry.clean counts.clean
    dirty := saturatingAdd entry.dirty counts.dirty }

def mergeCommit (dest : ByCommit) (other : Nat × CommitCounts) : ByCommit :=
  upsert dest other.1 { commit := other.2.commit, clean := 0, dirty := 0 } (addCounts other.2)

def mergeSet (sets : ExtTreeMap DiscriminantSet ByCommit) (other : DiscriminantSet × ByCommit) :
    ExtTreeMap DiscriminantSet ByCommit :=
  upsert sets other.1 ∅ fun dest => other.2.toList.foldl mergeCommit dest

def merge (idx other : RunIndex) : RunIndex where
  total := saturatingAdd idx.total other.total
  sets := other.sets.toList.foldl mergeSet idx.sets

end RunIndex

/-- A stored object with its rank in the order of the storage keys, its commit
on the analyzed history. -/
structure RankedObject (order : CommitOrder) where
  rank : Nat
  key : Text
  parsed : StorageKey
  topoIndex : Nat
  onHistory : order.index[parsed.commit]? = some topoIndex

/-- The largest value of a `u32`. -/
def ordinalMax : Nat := 2 ^ 32 - 1

def ordinalOf (rank : Nat) : Nat := min rank ordinalMax

/-- One worker's contribution, or the merged one. -/
structure WorkerFold (V : Type) where
  builder : SeriesBuilder V
  runIndex : RunIndex
  admitted : List (Text × Bool)

/-- What does not change during the load. -/
structure LoadContext (V ε : Type) where
  order : CommitOrder
  dirtyBaseException : ExtTreeMap Text Bool
  prefixes : List BenchmarkIdPrefix
  /-- the object of a key, fetched and parsed -/
  fetch : Text → Except ε (RunPoints V)

namespace LoadContext

variable (ctx : LoadContext V ε)

/-- Nothing folded yet. -/
def nothing : WorkerFold V where
  builder := .withPrefixes ctx.prefixes
  runIndex := .empty
  admitted := []

/-- One object, whose run is `run`, goes into a worker's contribution. -/
def foldRun (fold : WorkerFold V) (object : RankedObject ctx.order) (run : RunPoints V) :
    WorkerFold V :=
  let parsed := object.parsed
  let dirty := parsed.isDirty
  let isException := dirty && (ctx.dirtyBaseException[parsed.commit]?).getD false
  { runIndex := fold.runIndex.record parsed.set object.topoIndex parsed.commit dirty
    builder := fold.builder.push parsed.set object.topoIndex dirty (ordinalOf object.rank)
      parsed.commit run
    admitted := fold.admitted ++ [(object.key, isException)] }

/-- What a worker does with its chunk. -/
def foldChunk (chunk : List (RankedObject ctx.order)) : Except ε (WorkerFold V) :=
  chunk.foldlM (fun fold object => do
    let run ← ctx.fetch object.key
    pure (ctx.foldRun fold object run)) ctx.nothing

end LoadContext

def workerCount (len availableParallelism : Nat) : Nat := min availableParallelism len

/-- The divisor may be zero, and then the quotient and the remainder that the
source falls back to are zero too. -/
def balancedChunkSizes (len workers : Nat) : List Nat :=
  let base := (if workers = 0 then none else some (len / workers)).getD 0
  let remainder := (if workers = 0 then none else some (len % workers)).getD 0
  -- the saturating addition of the source is exact: a longer chunk is no longer than the list
  (List.range workers).map fun index => if index < remainder then base + 1 else base

/-- `items.by_ref().take(chunk_len)`, for one chunk after another. -/
def takeChunks {α : Type} : List Nat → List α → List (List α)
  | [], _ => []
  | size :: sizes, items => items.take size :: takeChunks sizes (items.drop size)

/-- The chunks that the workers get. -/
def chunksOf {α : Type} (items : List α) (availableParallelism : Nat) : List (List α) :=
  takeChunks (balancedChunkSizes items.length (workerCount items.length availableParallelism)) items

namespace WorkerFold

/-- `hash` is the order of the maps of the worker's builder. -/
def merge (combined : WorkerFold V) (worker : HashOrder V × WorkerFold V) : WorkerFold V where
  builder := combined.builder.merge worker.1 worker.2.builder
  runIndex := combined.runIndex.merge worker.2.runIndex
  admitted := combined.admitted ++ worker.2.admitted

end WorkerFold

namespace LoadContext

variable (ctx : LoadContext V ε)

/-- The contributions of the workers in the order in which they are merged. -/
def mergeFolds (workers : List (HashOrder V × WorkerFold V)) : WorkerFold V :=
  workers.foldl WorkerFold.merge ctx.nothing

/-- `hashOrders` are those of the workers' maps. -/
def foldRunsChunked (availableParallelism : Nat) (hashOrders : Nat → HashOrder V)
    (ranked : List (RankedObject ctx.order)) : Except ε (WorkerFold V) :=
  if ranked.length = 0 then .ok ctx.nothing
  else do
    let folds ← (chunksOf ranked availableParallelism).mapM ctx.foldChunk
    pure (ctx.mergeFolds (folds.mapIdx fun i fold => (hashOrders i, fold)))

end LoadContext

end Folo.BenchHistory
