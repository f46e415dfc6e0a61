import Folo.Dure.Protocol

/-!
# Reading frames

`read_frame` and `fill` of `framing/reader.rs`, over a reader that returns
what it has. A reader of a stream may stop after any number of bytes but
none (`ReadsStream`); what is read off it does not depend on where it stops: a
frame is taken off the front of the stream or the read fails
(`readFrame_spec`).
-/

namespace Folo.Dure

open Folo.Lib

/-- `PalErrorKind`. -/
inductive PalErrorKind
  | timeout
  | breakawayDenied
  | inspectFailed
  | notFound
  | disconnected
  | other
  deriving DecidableEq

/-- A reader: given its state and the room in the buffer, the bytes that it
put there. -/
abbrev Reader (ρ : Type) := ρ → Nat → Except PalErrorKind (List UInt8) × ρ

variable {ρ : Type} {read : Reader ρ}

/-- `fill`: read until `remaining` bytes are there. -/
def fill (read : Reader ρ) (remaining : Nat) (r : ρ) :
    Except PalErrorKind (List UInt8) × ρ :=
  if remaining = 0 then (.ok [], r)
  else
    match read r remaining with
    | (.error e, r) => (.error e, r)
    | (.ok bytes, r) =>
      if bytes.length = 0 then (.error .disconnected, r)
      -- A count past the end of the buffer.
      else if remaining < bytes.length then (.error .other, r)
      else
        match fill read (remaining - bytes.length) r with
        | (.error e, r) => (.error e, r)
        | (.ok more, r) => (.ok (bytes ++ more), r)
termination_by remaining

/-- `read_frame`: the length, the kind, the body. -/
def readFrame (read : Reader ρ) (r : ρ) : Except PalErrorKind Message × ρ :=
  match fill read 4 r with
  | (.error e, r) => (.error e, r)
  | (.ok header, r) =>
    let len := ofLeBytes header
    if payloadLenOk len = false then (.error .other, r)
    else
      match fill read 1 r with
      | (.error e, r) => (.error e, r)
      | (.ok kind, r) =>
        if len < 1 then (.error .other, r)
        else
          match fill read (len - 1) r with
          | (.error e, r) => (.error e, r)
          | (.ok body, r) => ((decodeBody (kind.headD 0) body).mapError fun _ => .other, r)

/-! ## Readers of a stream -/

/-- A reader of a stream: `rest` is what is left of it. While something is
left, a read takes some of it off the front, as much as it likes but at
least a byte; when nothing is left, it returns nothing or fails. -/
structure ReadsStream (read : Reader ρ) (rest : ρ → List UInt8) : Prop where
  some : ∀ r room, 0 < room → rest r ≠ [] → ∃ bytes r', read r room = (.ok bytes, r') ∧
    bytes ≠ [] ∧ bytes.length ≤ room ∧ rest r = bytes ++ rest r'
  none : ∀ r room, 0 < room → rest r = [] → (read r room).1 = .ok [] ∨
    ∃ e, (read r room).1 = .error e

namespace ReadsStream

variable {rest : ρ → List UInt8}

/-- What `fill` returns does not depend on where the reads stop. -/
theorem fill_enough (h : ReadsStream read rest) (n : Nat) (r : ρ) (hn : n ≤ (rest r).length) :
    ∃ r', fill read n r = (.ok ((rest r).take n), r') ∧ rest r' = (rest r).drop n := by
  induction n using Nat.strongRecOn generalizing r with
  | ind n ih =>
    unfold fill
    by_cases hzero : n = 0
    · rw [if_pos hzero, hzero]
      exact ⟨r, rfl, rfl⟩
    · rw [if_neg hzero]
      have hne : rest r ≠ [] := fun hnil => by
        rw [hnil] at hn
        exact hzero (Nat.le_zero.mp hn)
      obtain ⟨bytes, r₁, hread, hbytes, hroom, hrest⟩ :=
        h.some r n (Nat.pos_of_ne_zero hzero) hne
      have hpos := List.length_pos_iff.mpr hbytes
      have hlen : (rest r).length = bytes.length + (rest r₁).length := by
        rw [hrest, List.length_append]
      obtain ⟨r₂, hfill, hdrop⟩ := ih (n - bytes.length) (by omega) r₁ (by omega)
      rw [hread]
      simp only
      rw [if_neg (by omega), if_neg (by omega), hfill]
      refine ⟨r₂, ?_, ?_⟩
      · rw [hrest, List.take_append, List.take_of_length_le hroom]
      · rw [hdrop, hrest, List.drop_append, List.drop_of_length_le hroom, List.nil_append]

/-- A stream that ends too early is an error. -/
theorem fill_short (h : ReadsStream read rest) (n : Nat) (r : ρ) (hn : (rest r).length < n) :
    ∃ e, (fill read n r).1 = .error e := by
  induction n using Nat.strongRecOn generalizing r with
  | ind n ih =>
    unfold fill
    rw [if_neg (by omega)]
    by_cases hnil : rest r = []
    · obtain hend | ⟨e, hend⟩ := h.none r n (by omega) hnil
      · cases hread : read r n with
        | mk result r₁ =>
          rw [hread] at hend
          obtain rfl : result = .ok [] := hend
          exact ⟨.disconnected, rfl⟩
      · cases hread : read r n with
        | mk result r₁ =>
          rw [hread] at hend
          obtain rfl : result = .error e := hend
          exact ⟨e, rfl⟩
    · obtain ⟨bytes, r₁, hread, hbytes, hroom, hrest⟩ := h.some r n (by omega) hnil
      have hpos := List.length_pos_iff.mpr hbytes
      have hlen : (rest r).length = bytes.length + (rest r₁).length := by
        rw [hrest, List.length_append]
      obtain ⟨e, hfill⟩ := ih (n - bytes.length) (by omega) r₁ (by omega)
      rw [hread]
      simp only
      rw [if_neg (by omega), if_neg (by omega)]
      cases hmore : fill read (n - bytes.length) r₁ with
      | mk result r₂ =>
        rw [hmore] at hfill
        obtain rfl : result = .error e := hfill
        exact ⟨e, rfl⟩

/-- `fill` succeeds when enough is left, and then takes it off the front. -/
theorem fill_ok (h : ReadsStream read rest) {n : Nat} {r r' : ρ} {bytes : List UInt8}
    (hfill : fill read n r = (.ok bytes, r')) :
    bytes.length = n ∧ rest r = bytes ++ rest r' := by
  by_cases hn : n ≤ (rest r).length
  · obtain ⟨r₁, heq, hdrop⟩ := h.fill_enough n r hn
    obtain ⟨hbytes, rfl⟩ := Prod.mk.inj (hfill.symm.trans heq)
    obtain rfl := Except.ok.inj hbytes
    rw [hdrop]
    exact ⟨List.length_take_of_le hn, (List.take_append_drop n _).symm⟩
  · obtain ⟨e, he⟩ := h.fill_short n r (Nat.lt_of_not_le hn)
    rw [hfill] at he
    exact nomatch he

/-- `fill` of bytes that are there. -/
theorem fill_append (h : ReadsStream read rest) {r : ρ} {bytes tail : List UInt8}
    (hrest : rest r = bytes ++ tail) :
    ∃ r', fill read bytes.length r = (.ok bytes, r') ∧ rest r' = tail := by
  have hlen : bytes.length ≤ (rest r).length := by
    rw [hrest, List.length_append]
    omega
  obtain ⟨r', hfill, hdrop⟩ := h.fill_enough bytes.length r hlen
  rw [hrest, List.take_left' rfl] at hfill
  rw [hrest, List.drop_left' rfl] at hdrop
  exact ⟨r', hfill, hdrop⟩

end ReadsStream

/-! ## Frames -/

/-- A message that fits in a frame. -/
def Fits (message : Message) : Prop := (encodePayload message).length ≤ maxFrameLen

instance (message : Message) : Decidable (Fits message) := inferInstanceAs (Decidable (_ ≤ _))

/-- The frame of a message. -/
def frame (message : Message) : List UInt8 :=
  leBytes 4 (encodePayload message).length ++ encodePayload message

theorem encode_of_fits {message : Message} (h : Fits message) :
    encode message = some (frame message) := by
  have hmax : maxFrameLen < 2 ^ 32 := by decide
  exact if_pos (Nat.lt_of_le_of_lt h hmax)

/-- A payload is a kind byte and a body. -/
theorem encodePayload_ne_nil (message : Message) : encodePayload message ≠ [] := by
  cases message <;> exact nofun

section Frames

variable {rest : ρ → List UInt8}

/-- A frame at the front of the stream is read, and nothing after it. -/
theorem readFrame_frame (h : ReadsStream read rest) {message : Message} (hfits : Fits message)
    {r : ρ} {tail : List UInt8} (hrest : rest r = frame message ++ tail) :
    ∃ r', readFrame read r = (.ok message, r') ∧ rest r' = tail := by
  obtain ⟨kind, body, hpayload⟩ := List.exists_cons_of_ne_nil (encodePayload_ne_nil message)
  have hlen : (encodePayload message).length = body.length + 1 := by
    rw [hpayload, List.length_cons]
  have hfit : (encodePayload message).length < 256 ^ 4 :=
    Nat.lt_of_le_of_lt hfits (by decide)
  rw [frame, List.append_assoc] at hrest
  obtain ⟨r₁, hheader, hrest₁⟩ := h.fill_append hrest
  rw [leBytes_length] at hheader
  rw [hpayload, List.cons_append, ← List.singleton_append] at hrest₁
  obtain ⟨r₂, hkind, hrest₂⟩ := h.fill_append hrest₁
  obtain ⟨r₃, hbody, hrest₃⟩ := h.fill_append hrest₂
  refine ⟨r₃, ?_, hrest₃⟩
  have hok : payloadLenOk (encodePayload message).length = true := by
    unfold Fits at hfits
    simp only [payloadLenOk, hlen, Bool.and_eq_true, decide_eq_true_eq]
    omega
  unfold readFrame
  rw [hheader]
  simp only [ofLeBytes_leBytes hfit, hok, Bool.true_eq_false, if_false]
  rw [List.length_singleton] at hkind
  rw [hkind]
  simp only
  rw [if_neg (by omega), hlen, Nat.add_sub_cancel, hbody]
  simp only [List.headD_cons, decodeBody_iff.mpr hpayload]
  rfl

/-- What is read was the frame of a message that fits. -/
theorem frame_of_readFrame (h : ReadsStream read rest) {message : Message} {r r' : ρ}
    (hread : readFrame read r = (.ok message, r')) :
    Fits message ∧ rest r = frame message ++ rest r' := by
  unfold readFrame at hread
  split at hread
  · exact nomatch hread
  · next header r₁ hheader =>
    obtain ⟨hheaderLen, hrest⟩ := h.fill_ok hheader
    simp only at hread
    split at hread
    · exact nomatch hread
    · next hok =>
      split at hread
      · exact nomatch hread
      · next kind r₂ hkind =>
        obtain ⟨hkindLen, hrest₁⟩ := h.fill_ok hkind
        split at hread
        · exact nomatch hread
        · next hpos =>
          split at hread
          · exact nomatch hread
          · next body r₃ hbody =>
            obtain ⟨hbodyLen, hrest₂⟩ := h.fill_ok hbody
            obtain ⟨k, rfl⟩ := List.length_eq_one_iff.mp hkindLen
            simp only [Prod.mk.injEq] at hread
            obtain ⟨hdecode, rfl⟩ := hread
            have hpayload : encodePayload message = k :: body := by
              refine decodeBody_iff.mp ?_
              rw [List.headD_cons] at hdecode
              cases hd : decodeBody k body with
              | error e =>
                rw [hd] at hdecode
                exact nomatch hdecode
              | ok m =>
                rw [hd] at hdecode
                exact congrArg Except.ok (Except.ok.inj hdecode)
            have hlen : (encodePayload message).length = ofLeBytes header := by
              rw [hpayload, List.length_cons, hbodyLen]
              omega
            have hcap : ofLeBytes header ≤ maxFrameLen := by
              simp only [payloadLenOk, Bool.not_eq_false, Bool.and_eq_true,
                decide_eq_true_eq] at hok
              exact hok.2
            refine ⟨Nat.le_trans (Nat.le_of_eq hlen) hcap, ?_⟩
            have hheaderBytes := leBytes_ofLeBytes header
            rw [hheaderLen] at hheaderBytes
            rw [frame, hlen, hheaderBytes, hpayload, hrest, hrest₁, hrest₂]
            simp only [List.append_assoc, List.cons_append, List.nil_append]

/-- Frames, one after the other. -/
def readFrames (read : Reader ρ) : Nat → ρ → Except PalErrorKind (List Message) × ρ
  | 0, r => (.ok [], r)
  | n + 1, r =>
    match readFrame read r with
    | (.error e, r) => (.error e, r)
    | (.ok message, r) =>
      match readFrames read n r with
      | (.error e, r) => (.error e, r)
      | (.ok messages, r) => (.ok (message :: messages), r)

theorem readFrames_frames (h : ReadsStream read rest) {messages : List Message}
    (hfits : ∀ message ∈ messages, Fits message) {r : ρ} {tail : List UInt8}
    (hrest : rest r = messages.flatMap frame ++ tail) :
    ∃ r', readFrames read messages.length r = (.ok messages, r') ∧ rest r' = tail := by
  induction messages generalizing r with
  | nil => exact ⟨r, rfl, hrest⟩
  | cons message messages ih =>
    rw [List.flatMap_cons, List.append_assoc] at hrest
    obtain ⟨r₁, hread, hrest₁⟩ := readFrame_frame h (hfits message List.mem_cons_self) hrest
    obtain ⟨r₂, hreads, hrest₂⟩ := ih (fun m hm => hfits m (List.mem_cons_of_mem _ hm)) hrest₁
    refine ⟨r₂, ?_, hrest₂⟩
    rw [List.length_cons, readFrames, hread]
    simp only [hreads]

/-- What a reader of a stream makes of the wire format. -/
structure WireFormat (read : Reader ρ) (rest : ρ → List UInt8) : Prop where
  /-- A message that fits is encoded, and read back with exactly its bytes. -/
  roundTrip : ∀ message, Fits message → ∃ bytes, encode message = some bytes ∧
    ∀ r tail, rest r = bytes ++ tail →
      ∃ r', readFrame read r = (.ok message, r') ∧ rest r' = tail
  /-- So are messages in a row. -/
  sequence : ∀ messages : List Message, (∀ message ∈ messages, Fits message) →
    ∃ frames, messages.mapM encode = some frames ∧ ∀ r tail, rest r = frames.flatten ++ tail →
      ∃ r', readFrames read messages.length r = (.ok messages, r') ∧ rest r' = tail
  /-- The bytes of what is read are its encoding. -/
  sound : ∀ message r r', readFrame read r = (.ok message, r') → Fits message ∧
    ∃ bytes, encode message = some bytes ∧ rest r = bytes ++ rest r'
  /-- Everything else is an error. -/
  rejects : ∀ r, (∀ message bytes, Fits message → encode message = some bytes →
    ¬ bytes <+: rest r) → ∃ e, (readFrame read r).1 = .error e

theorem mapM_encode {messages : List Message} (hfits : ∀ message ∈ messages, Fits message) :
    messages.mapM encode = some (messages.map frame) := by
  induction messages with
  | nil => rfl
  | cons message messages ih =>
    rw [List.mapM_cons, encode_of_fits (hfits message List.mem_cons_self),
      ih fun m hm => hfits m (List.mem_cons_of_mem _ hm)]
    rfl

/-- **The wire format**, over every reader of a stream. -/
theorem readFrame_spec (h : ReadsStream read rest) : WireFormat read rest where
  roundTrip message hfits :=
    ⟨frame message, encode_of_fits hfits, fun _ _ hrest => readFrame_frame h hfits hrest⟩
  sequence messages hfits := by
    refine ⟨messages.map frame, mapM_encode hfits, fun r tail hrest => ?_⟩
    exact readFrames_frames h hfits (List.flatMap_def .. ▸ hrest)
  sound message r r' hread := by
    obtain ⟨hfits, hrest⟩ := frame_of_readFrame h hread
    exact ⟨hfits, frame message, encode_of_fits hfits, hrest⟩
  rejects r hnone := by
    cases hread : readFrame read r with
    | mk result r' =>
      cases result with
      | error e => exact ⟨e, rfl⟩
      | ok message =>
        obtain ⟨hfits, hrest⟩ := frame_of_readFrame h hread
        exact absurd ⟨rest r', hrest.symm⟩ (hnone message _ hfits (encode_of_fits hfits))

end Frames

/-! ## Every fragmentation -/

/-- The reader that stops after `size i` bytes of its `i`-th read, or one if
that is none, or at the end of the room or of the stream. -/
def trickle (size : Nat → Nat) : Reader (List UInt8 × Nat) := fun r room =>
  let n := min (max 1 (size r.2)) room
  (.ok (r.1.take n), r.1.drop n, r.2 + 1)

theorem trickle_reads (size : Nat → Nat) : ReadsStream (trickle size) Prod.fst where
  some r room hroom hne := by
    have hpos := List.length_pos_iff.mpr hne
    refine ⟨_, _, rfl, ?_, ?_, (List.take_append_drop _ _).symm⟩
    · refine List.length_pos_iff.mp ?_
      rw [List.length_take]
      omega
    · rw [List.length_take]
      omega
  none r room _ hnil := by
    left
    show Except.ok (r.1.take (min (max 1 (size r.2)) room)) = Except.ok []
    rw [hnil, List.take_nil]

theorem readFrame_spec_trickle : WireFormat (trickle fun i => i % 3) Prod.fst :=
  readFrame_spec (trickle_reads _)

end Folo.Dure
