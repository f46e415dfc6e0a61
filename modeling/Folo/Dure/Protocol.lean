import Folo.Dure.Message
import Folo.Lib.Bytes
import Folo.Lib.Outcomes
import Mathlib.Algebra.Group.Nat.Defs

/-!
# The wire format

`encode_into` and `decode_body` of `protocol.rs`. A payload is the kind byte
and the body; a frame is the payload behind its length. Decoding a body is
the inverse of encoding it, in both directions (`decodeBody_iff`): what a
body decodes to, it is the encoding of.
-/

namespace Folo.Dure

open Folo.Lib

/-! ## The assigned bytes -/

@[match_pattern] abbrev kindAttach : UInt8 := 1
@[match_pattern] abbrev kindInput : UInt8 := 2
@[match_pattern] abbrev kindResize : UInt8 := 3
@[match_pattern] abbrev kindAttached : UInt8 := 4
@[match_pattern] abbrev kindOutput : UInt8 := 5
@[match_pattern] abbrev kindDisplaced : UInt8 := 6
@[match_pattern] abbrev kindAppExited : UInt8 := 7
@[match_pattern] abbrev kindStartupOk : UInt8 := 8
@[match_pattern] abbrev kindStartupErr : UInt8 := 9
@[match_pattern] abbrev kindStartupCommit : UInt8 := 10

/-- The bytes of a startup step. -/
def StartupStep.byte : StartupStep → UInt8
  | lifetimeJob => 1
  | pseudoconsole => 2
  | app => 3
  | listener => 4
  | identity => 5
  | sessionId => 6
  | publishRecord => 7

/-- The bytes of a launcher tie. -/
def LauncherTie.byte : LauncherTie → UInt8
  | noneDetected => 1
  | confirmed => 2
  | unknown => 3

/-! ## Encoding -/

/-- A size: columns, then rows. -/
def encodeSize (size : WindowSize) : List UInt8 :=
  leBytes 2 size.cols.toNat ++ leBytes 2 size.rows.toNat

/-- The bytes of a string. -/
def utf8 (s : String) : List UInt8 := s.toByteArray.data.toList

/-- What `encode_into` writes behind the length. -/
def encodePayload : Message → List UInt8
  | .attach size => kindAttach :: encodeSize size
  | .input data => kindInput :: data
  | .resize size => kindResize :: encodeSize size
  | .attached id => kindAttached :: leBytes 4 id.get.toNat
  | .output data => kindOutput :: data
  | .displaced => [kindDisplaced]
  | .appExited status => kindAppExited :: leBytes 4 status.toUInt32.toNat
  | .startupOk id tie pipeName =>
    kindStartupOk :: (leBytes 4 id.get.toNat ++ tie.byte :: utf8 pipeName)
  | .startupErr step => [kindStartupErr, step.byte]
  | .startupCommit => [kindStartupCommit]

/-- `encode_into`; `none` is its panic for a payload that no `u32` counts. -/
def encode (message : Message) : Option (List UInt8) :=
  let payload := encodePayload message
  if payload.length < 2 ^ 32 then some (leBytes 4 payload.length ++ payload) else none

/-! ## Decoding -/

/-- `DecodeError`. -/
inductive DecodeError
  | invalid
  deriving DecidableEq

/-- `split_at_checked`. -/
def splitAtChecked (n : Nat) (bytes : List UInt8) : Except DecodeError (List UInt8 × List UInt8) :=
  if n ≤ bytes.length then .ok (bytes.take n, bytes.drop n) else .error .invalid

def decodeSize (rest : List UInt8) : Except DecodeError WindowSize := do
  let (cols, rest) ← splitAtChecked 2 rest
  let (rows, rest) ← splitAtChecked 2 rest
  if rest ≠ [] then throw .invalid
  match WindowSize.new (UInt16.ofNat (ofLeBytes cols)) (UInt16.ofNat (ofLeBytes rows)) with
  | some size => .ok size
  | none => .error .invalid

def decodeU32 (rest : List UInt8) : Except DecodeError UInt32 := do
  let (bytes, rest) ← splitAtChecked 4 rest
  if rest ≠ [] then throw .invalid
  .ok (UInt32.ofNat (ofLeBytes bytes))

def decodeSessionId (rest : List UInt8) : Except DecodeError SessionId := do
  match SessionId.fromU32 (← decodeU32 rest) with
  | some id => .ok id
  | none => .error .invalid

def decodeI32 (rest : List UInt8) : Except DecodeError Int32 := do
  .ok (← decodeU32 rest).toInt32

def decodeTie (byte : UInt8) : Except DecodeError LauncherTie :=
  match byte with
  | 1 => .ok .noneDetected
  | 2 => .ok .confirmed
  | 3 => .ok .unknown
  | _ => .error .invalid

def decodeStep (byte : UInt8) : Except DecodeError StartupStep :=
  match byte with
  | 1 => .ok .lifetimeJob
  | 2 => .ok .pseudoconsole
  | 3 => .ok .app
  | 4 => .ok .listener
  | 5 => .ok .identity
  | 6 => .ok .sessionId
  | 7 => .ok .publishRecord
  | _ => .error .invalid

/-- `str::from_utf8`. -/
def fromUtf8 (bytes : List UInt8) : Except DecodeError String :=
  match String.fromUTF8? ⟨bytes.toArray⟩ with
  | some s => .ok s
  | none => .error .invalid

def decodeStartupOk (rest : List UInt8) : Except DecodeError Message := do
  let (idBytes, rest) ← splitAtChecked 4 rest
  match rest with
  | [] => .error .invalid
  | tie :: pipeName =>
    let tie ← decodeTie tie
    let pipeName ← fromUtf8 pipeName
    let id ← decodeSessionId idBytes
    .ok (.startupOk id tie pipeName)

/-- `decode_rest`. -/
def decodeRest (kind : UInt8) (rest : List UInt8) : Except DecodeError Message :=
  match kind with
  | kindAttach => (decodeSize rest).map .attach
  | kindResize => (decodeSize rest).map .resize
  | kindAttached => (decodeSessionId rest).map .attached
  | kindDisplaced => if rest = [] then .ok .displaced else .error .invalid
  | kindAppExited => (decodeI32 rest).map .appExited
  | kindStartupOk => decodeStartupOk rest
  | kindStartupErr =>
    match rest with
    | [step] => (decodeStep step).map .startupErr
    | _ => .error .invalid
  | kindStartupCommit => if rest = [] then .ok .startupCommit else .error .invalid
  | _ => .error .invalid

/-- `decode_body`. -/
def decodeBody (kind : UInt8) (body : List UInt8) : Except DecodeError Message :=
  match kind with
  | kindInput => .ok (.input body)
  | kindOutput => .ok (.output body)
  | _ => decodeRest kind body

/-- `payload_len_ok`. -/
def payloadLenOk (len : Nat) : Bool := 0 < len && len ≤ maxFrameLen

/-! ## Decoding is the inverse of encoding -/

theorem splitAtChecked_iff {n : Nat} {bytes front rest : List UInt8} :
    splitAtChecked n bytes = .ok (front, rest) ↔ front.length = n ∧ bytes = front ++ rest := by
  unfold splitAtChecked
  split
  · next hn =>
    simp only [Except.ok.injEq, Prod.mk.injEq]
    constructor
    · rintro ⟨rfl, rfl⟩
      exact ⟨List.length_take_of_le hn, (List.take_append_drop n bytes).symm⟩
    · rintro ⟨hlength, rfl⟩
      exact ⟨List.take_left' hlength, List.drop_left' hlength⟩
  · next hn =>
    refine ⟨nofun, fun ⟨hlength, hbytes⟩ => absurd ?_ hn⟩
    rw [hbytes, List.length_append]
    omega

/-- What is left is nothing. -/
theorem noRest_iff {α : Type} {rest : List UInt8} {x : Except DecodeError α} {a : α} :
    (do if rest ≠ [] then throw .invalid
        x : Except DecodeError α) = .ok a ↔ rest = [] ∧ x = .ok a := by
  by_cases hrest : rest = []
  · rw [if_neg (not_not.mpr hrest)]
    exact ⟨fun h => ⟨hrest, h⟩, fun h => h.2⟩
  · rw [if_pos hrest]
    exact ⟨nofun, fun h => absurd h.1 hrest⟩

/-- Four bytes and nothing else. -/
theorem decodeU32_iff {rest : List UInt8} {n : UInt32} :
    decodeU32 rest = .ok n ↔ rest = leBytes 4 n.toNat := by
  unfold decodeU32
  simp only [bind_eq_ok, Prod.exists, splitAtChecked_iff, noRest_iff, Except.ok.injEq]
  constructor
  · rintro ⟨front, tail, ⟨hlength, rfl⟩, rfl, rfl⟩
    have hfit : ofLeBytes front < 2 ^ 32 := ofLeBytes_lt_of_length hlength
    rw [List.append_nil, UInt32.toNat_ofNat_of_lt' hfit, ← hlength, leBytes_ofLeBytes]
  · rintro rfl
    refine ⟨_, [], ⟨leBytes_length 4 _, (List.append_nil _).symm⟩, rfl, ?_⟩
    have hfit : n.toNat < 256 ^ 4 := n.toNat_lt
    rw [ofLeBytes_leBytes hfit, UInt32.ofNat_toNat]

theorem decodeSize_iff {rest : List UInt8} {size : WindowSize} :
    decodeSize rest = .ok size ↔ rest = encodeSize size := by
  unfold decodeSize
  simp only [bind_eq_ok, Prod.exists, splitAtChecked_iff, noRest_iff]
  constructor
  · rintro ⟨cols, rest, ⟨hcols, rfl⟩, rows, tail, ⟨hrows, rfl⟩, rfl, hnew⟩
    split at hnew
    · next size' hsize =>
      obtain rfl := Except.ok.inj hnew
      obtain ⟨hc, hr⟩ := WindowSize.of_new hsize
      have hcfit : ofLeBytes cols < 2 ^ 16 := ofLeBytes_lt_of_length hcols
      have hrfit : ofLeBytes rows < 2 ^ 16 := ofLeBytes_lt_of_length hrows
      have hcbytes := leBytes_ofLeBytes cols
      have hrbytes := leBytes_ofLeBytes rows
      rw [hcols] at hcbytes
      rw [hrows] at hrbytes
      rw [encodeSize, hc, hr, UInt16.toNat_ofNat_of_lt' hcfit, UInt16.toNat_ofNat_of_lt' hrfit,
        hcbytes, hrbytes, List.append_nil]
    · exact nomatch hnew
  · rintro rfl
    refine ⟨_, _, ⟨leBytes_length 2 _, rfl⟩, _, [], ⟨leBytes_length 2 _, (List.append_nil _).symm⟩,
      rfl, ?_⟩
    have hc : size.cols.toNat < 256 ^ 2 := size.cols.toNat_lt
    have hr : size.rows.toNat < 256 ^ 2 := size.rows.toNat_lt
    rw [ofLeBytes_leBytes hc, ofLeBytes_leBytes hr, UInt16.ofNat_toNat, UInt16.ofNat_toNat,
      WindowSize.new_self]

theorem decodeSessionId_iff {rest : List UInt8} {id : SessionId} :
    decodeSessionId rest = .ok id ↔ rest = leBytes 4 id.get.toNat := by
  unfold decodeSessionId
  simp only [bind_eq_ok, decodeU32_iff]
  constructor
  · rintro ⟨n, rfl, hid⟩
    split at hid
    · next id' hfrom =>
      obtain rfl := Except.ok.inj hid
      rw [SessionId.get_of_fromU32 hfrom]
    · exact nomatch hid
  · rintro rfl
    refine ⟨id.get, rfl, ?_⟩
    rw [SessionId.fromU32_get]

theorem decodeI32_iff {rest : List UInt8} {status : Int32} :
    decodeI32 rest = .ok status ↔ rest = leBytes 4 status.toUInt32.toNat := by
  unfold decodeI32
  simp only [bind_eq_ok, decodeU32_iff, Except.ok.injEq]
  constructor
  · rintro ⟨n, rfl, rfl⟩
    rw [UInt32.toUInt32_toInt32]
  · rintro rfl
    exact ⟨_, rfl, Int32.toInt32_toUInt32 status⟩

theorem decodeTie_iff {byte : UInt8} {tie : LauncherTie} :
    decodeTie byte = .ok tie ↔ byte = tie.byte := by
  constructor
  · intro h
    unfold decodeTie at h
    split at h
    case h_4 => exact nomatch h
    all_goals exact Except.ok.inj h ▸ rfl
  · rintro rfl
    cases tie <;> rfl

theorem decodeStep_iff {byte : UInt8} {step : StartupStep} :
    decodeStep byte = .ok step ↔ byte = step.byte := by
  constructor
  · intro h
    unfold decodeStep at h
    split at h
    case h_8 => exact nomatch h
    all_goals exact Except.ok.inj h ▸ rfl
  · rintro rfl
    cases step <;> rfl

theorem fromUtf8_iff {bytes : List UInt8} {s : String} :
    fromUtf8 bytes = .ok s ↔ bytes = utf8 s := by
  unfold fromUtf8 String.fromUTF8?
  constructor
  · intro h
    split at h
    · next s' hs =>
      obtain rfl := Except.ok.inj h
      split at hs
      · obtain rfl := Option.some.inj hs
        rfl
      · exact nomatch hs
    · exact nomatch h
  · rintro rfl
    have hbytes : (⟨(utf8 s).toArray⟩ : ByteArray) = s.toByteArray := rfl
    rw [hbytes, dif_pos s.isValidUTF8]
    rfl

theorem decodeStartupOk_iff {rest : List UInt8} {message : Message} :
    decodeStartupOk rest = .ok message ↔ ∃ id tie pipeName,
      message = .startupOk id tie pipeName ∧
        rest = leBytes 4 id.get.toNat ++ tie.byte :: utf8 pipeName := by
  unfold decodeStartupOk
  simp only [bind_eq_ok, Prod.exists, splitAtChecked_iff]
  constructor
  · rintro ⟨front, tail, ⟨hlength, rfl⟩, htail⟩
    cases tail with
    | nil => exact nomatch htail
    | cons byte bytes =>
      simp only [bind_eq_ok, decodeTie_iff, fromUtf8_iff, decodeSessionId_iff,
        Except.ok.injEq] at htail
      obtain ⟨tie, rfl, pipeName, rfl, id, rfl, rfl⟩ := htail
      exact ⟨id, tie, pipeName, rfl, rfl⟩
  · rintro ⟨id, tie, pipeName, rfl, rfl⟩
    refine ⟨_, _, ⟨leBytes_length 4 _, rfl⟩, ?_⟩
    simp only [bind_eq_ok, decodeTie_iff, fromUtf8_iff, decodeSessionId_iff, Except.ok.injEq]
    exact ⟨tie, rfl, pipeName, rfl, id, rfl, rfl⟩

/-- **Decoding**: a kind and a body decode to the message whose payload they
are, and to no other. -/
theorem decodeBody_iff {kind : UInt8} {body : List UInt8} {message : Message} :
    decodeBody kind body = .ok message ↔ encodePayload message = kind :: body := by
  constructor
  · intro h
    unfold decodeBody at h
    split at h
    · exact Except.ok.inj h ▸ rfl
    · exact Except.ok.inj h ▸ rfl
    · unfold decodeRest at h
      split at h
      · obtain ⟨size, hsize, rfl⟩ := map_eq_ok.mp h
        rw [decodeSize_iff.mp hsize]
        rfl
      · obtain ⟨size, hsize, rfl⟩ := map_eq_ok.mp h
        rw [decodeSize_iff.mp hsize]
        rfl
      · obtain ⟨id, hid, rfl⟩ := map_eq_ok.mp h
        rw [decodeSessionId_iff.mp hid]
        rfl
      · split at h
        · next hempty => exact Except.ok.inj h ▸ hempty ▸ rfl
        · exact nomatch h
      · obtain ⟨status, hstatus, rfl⟩ := map_eq_ok.mp h
        rw [decodeI32_iff.mp hstatus]
        rfl
      · obtain ⟨id, tie, pipeName, rfl, rfl⟩ := decodeStartupOk_iff.mp h
        rfl
      · split at h
        · obtain ⟨step, hstep, rfl⟩ := map_eq_ok.mp h
          rw [decodeStep_iff.mp hstep]
          rfl
        · exact nomatch h
      · split at h
        · next hempty => exact Except.ok.inj h ▸ hempty ▸ rfl
        · exact nomatch h
      · exact nomatch h
  · intro h
    cases message
    all_goals
      obtain ⟨rfl, rfl⟩ := List.cons.inj h
    case input | output => rfl
    case attach size | resize size => exact map_eq_ok.mpr ⟨size, decodeSize_iff.mpr rfl, rfl⟩
    case attached id => exact map_eq_ok.mpr ⟨id, decodeSessionId_iff.mpr rfl, rfl⟩
    case displaced | startupCommit => rfl
    case appExited status => exact map_eq_ok.mpr ⟨status, decodeI32_iff.mpr rfl, rfl⟩
    case startupOk id tie pipeName =>
      exact decodeStartupOk_iff.mpr ⟨id, tie, pipeName, rfl, rfl⟩
    case startupErr step => exact map_eq_ok.mpr ⟨step, decodeStep_iff.mpr rfl, rfl⟩

end Folo.Dure
