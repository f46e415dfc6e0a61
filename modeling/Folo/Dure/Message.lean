import Mathlib.Data.List.Basic

/-!
# The messages of `dure`

`protocol.rs`, `session_id.rs` and the size of `pal/pseudoconsole`: what a
supervisor and its clients say to each other. A session id and a window size
carry the check of their constructor, so a message cannot hold one that the
constructor would have refused.
-/

namespace Folo.Dure

/-- `SessionId(NonZero<u32>)`. -/
structure SessionId where
  get : UInt32
  positive : get ≠ 0
  deriving DecidableEq

namespace SessionId

def fromU32 (id : UInt32) : Option SessionId :=
  if h : id ≠ 0 then some ⟨id, h⟩ else none

/-- `SessionId::MIN`. -/
def min : SessionId := ⟨1, by decide⟩

@[simp] theorem fromU32_get (id : SessionId) : fromU32 id.get = some id :=
  dif_pos id.positive

theorem get_of_fromU32 {n : UInt32} {id : SessionId} (h : fromU32 n = some id) : id.get = n := by
  unfold fromU32 at h
  split at h
  · exact (congrArg SessionId.get (Option.some.inj h)).symm
  · exact nomatch h

end SessionId

/-- `i16::MAX`, as a `u16`. -/
def maxDimension : UInt16 := 32767

/-- `WindowSize`: two `NonZero<u16>`, each checked against `MAX_DIMENSION`. -/
structure WindowSize where
  cols : UInt16
  rows : UInt16
  cols_pos : cols ≠ 0
  rows_pos : rows ≠ 0
  cols_le : ¬ maxDimension < cols
  rows_le : ¬ maxDimension < rows
  deriving DecidableEq

namespace WindowSize

def new (cols rows : UInt16) : Option WindowSize :=
  if hmax : maxDimension < cols ∨ maxDimension < rows then none
  else if hpos : cols ≠ 0 ∧ rows ≠ 0 then
    some ⟨cols, rows, hpos.1, hpos.2, fun h => hmax (.inl h), fun h => hmax (.inr h)⟩
  else none

@[simp] theorem new_self (size : WindowSize) : new size.cols size.rows = some size := by
  have hmax : ¬ (maxDimension < size.cols ∨ maxDimension < size.rows) :=
    fun h => h.elim size.cols_le size.rows_le
  rw [new, dif_neg hmax, dif_pos ⟨size.cols_pos, size.rows_pos⟩]

theorem of_new {cols rows : UInt16} {size : WindowSize} (h : new cols rows = some size) :
    size.cols = cols ∧ size.rows = rows := by
  unfold new at h
  split at h
  · exact nomatch h
  · split at h
    · have heq := Option.some.inj h
      subst heq
      exact ⟨rfl, rfl⟩
    · exact nomatch h

/-- A console of the usual size. -/
def default : WindowSize := ⟨80, 24, by decide, by decide, by decide, by decide⟩

end WindowSize

/-- Whether the session can outlive the client that started it. -/
inductive LauncherTie
  | confirmed
  | unknown
  | noneDetected
  deriving DecidableEq

/-- The step of the startup that a failure stopped at. -/
inductive StartupStep
  | lifetimeJob
  | pseudoconsole
  | app
  | listener
  | identity
  | sessionId
  | publishRecord
  deriving DecidableEq

/-- `Message`. -/
inductive Message
  | attach (size : WindowSize)
  | input (data : List UInt8)
  | resize (size : WindowSize)
  | attached (session_id : SessionId)
  | output (data : List UInt8)
  | displaced
  | appExited (status : Int32)
  | startupOk (session_id : SessionId) (launcher_tie : LauncherTie) (pipe_name : String)
  | startupErr (step : StartupStep)
  | startupCommit
  deriving DecidableEq

/-- `MAX_FRAME_LEN`: the longest payload a frame may declare. -/
def maxFrameLen : Nat := 1024 * 1024

/-- `MAX_OUTPUT_CHUNK_BYTES`: the kind byte counts too. -/
def maxOutputChunkBytes : Nat := maxFrameLen - 1

/-- `MAX_CLIENT_BACKLOG_BYTES`. -/
def maxClientBacklogBytes : Nat := 4 * 1024 * 1024

end Folo.Dure
