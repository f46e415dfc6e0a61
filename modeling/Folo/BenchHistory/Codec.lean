import Folo.Lib.Bytes
import Folo.Lib.Coders
import Folo.Lib.Loops
import Folo.Lib.Outcomes
import Mathlib.Algebra.Group.Nat.Defs

/-!
# The codec of stored objects

`cbh_codec/codec.rs`: a gzip member is written and read around a raw DEFLATE
coder. The coders of `flate2` and its CRC-32 are parameters; a coder is reset
before every use, so that its earlier states do not matter. The body of a
member is found by its place, and what the coder leaves of it is not looked at:
what `decompress` accepts has a stream and its trailer, and maybe something
between them (`parts_of_decompress`, `decompress_of_parts`). All else is a
member (`decompress_exact_iff`), as is all that `compress` writes.
-/

namespace Folo.BenchHistory.Codec

open Folo.Lib

inductive ErrorKind
  | unexpectedEof
  | invalidData
  deriving DecidableEq

/-- What decoding fails with: an error, one with the coder's own cause, or an
`expect` that fails. -/
inductive DecodeError (ε : Type)
  | io (kind : ErrorKind) (message : String)
  | coder (cause : ε)
  | panicked

/-- `HEADER_LEN`. -/
def headerLen : Nat := 10

/-- `TRAILER_LEN`. -/
def trailerLen : Nat := 8

/-- `SCRATCH_CHUNK`. -/
def scratchChunk : Nat := 65536

/-- `GZIP_HEADER`. -/
def gzipHeader : List UInt8 := [0x1f, 0x8b, 0x08, 0x00, 0x00, 0x00, 0x00, 0x00, 0x00, 0xff]

/-- The length modulo 2³². -/
def plaintextIsize (plain : List UInt8) : Nat := plain.length % 2 ^ 32

/-- The eight bytes after the body. -/
def trailer (crc : List UInt8 → UInt32) (plain : List UInt8) : List UInt8 :=
  leBytes 4 (crc plain).toNat ++ leBytes 4 (plaintextIsize plain)

variable {σ τ ε : Type}

section Functions

variable (deflate : Coder σ ε) (inflate : Coder τ ε) (crc : List UInt8 → UInt32)

/-- One pass of `run_deflate`: the state, how much is consumed, and the output. -/
def deflatePass (input : List UInt8) :
    σ × Nat × List UInt8 → Option (List UInt8) ⊕ (σ × Nat × List UInt8)
  | (s, consumed, out) =>
    if input.length < consumed then .inl none
    else
      match deflate.code s (input.drop consumed) scratchChunk with
      | .error _ => .inl none
      | .ok t =>
        if scratchChunk < t.output.length then .inl none
        else if t.status = .streamEnd then .inl (some (out ++ t.output))
        else .inr (t.state, consumed + t.consumed, out ++ t.output)

/-- Nothing, where an `expect` fails or the passes do not suffice. -/
def runDeflate (passes : Nat) (input out : List UInt8) : Option (List UInt8) :=
  (whileLoop (deflatePass deflate input) passes (deflate.reset, 0, out)).join

def compress (passes : Nat) (plain : List UInt8) : Option (List UInt8) :=
  (runDeflate deflate passes plain gzipHeader).map (· ++ trailer crc plain)

def gzipBody (stored : List UInt8) : Except (DecodeError ε) (List UInt8) :=
  if stored.length < trailerLen then
    .error (.io .unexpectedEof "stored object is too short to be a gzip member")
  else
    match stored with
    | 0x1f :: 0x8b :: 0x08 :: 0x00 :: _ =>
      if stored.length - trailerLen < headerLen then
        .error (.io .unexpectedEof "stored object is too short to be a gzip member")
      else .ok ((stored.take (stored.length - trailerLen)).drop headerLen)
    | 0x1f :: 0x8b :: 0x08 :: _ =>
      .error (.io .invalidData "stored object sets unsupported gzip header flags")
    | 0x1f :: 0x8b :: _ =>
      .error (.io .invalidData "stored object uses an unsupported gzip compression method")
    | _ =>
      .error (.io .invalidData
        "stored object is not gzip (bad magic); it may be a legacy uncompressed object")

def verifyTrailer (stored plain : List UInt8) : Except (DecodeError ε) Unit :=
  if stored.length < trailerLen then .error .panicked
  else
    let tail := stored.drop (stored.length - trailerLen)
    if (crc plain).toNat ≠ ofLeBytes (tail.take 4) then
      .error (.io .invalidData "stored object failed its gzip CRC-32 check")
    else if plaintextIsize plain ≠ ofLeBytes (tail.drop 4) then
      .error (.io .invalidData "stored object length does not match its gzip ISIZE")
    else .ok ()

/-- One pass of `run_inflate`. -/
def inflatePass (body : List UInt8) :
    τ × Nat × List UInt8 → Except (DecodeError ε) (List UInt8) ⊕ (τ × Nat × List UInt8)
  | (s, consumed, out) =>
    if body.length < consumed then .inl (.error .panicked)
    else
      match inflate.code s (body.drop consumed) scratchChunk with
      | .error e => .inl (.error (.coder e))
      | .ok t =>
        if scratchChunk < t.output.length then .inl (.error .panicked)
        else if t.status = .streamEnd then .inl (.ok (out ++ t.output))
        else if t.output = [] then
          .inl (.error (.io .unexpectedEof
            "gzip body ended before the deflate stream was complete"))
        else .inr (t.state, consumed + t.consumed, out ++ t.output)

/-- Nothing, where the passes do not suffice. -/
def runInflate (passes : Nat) (body : List UInt8) :
    Option (Except (DecodeError ε) (List UInt8)) :=
  whileLoop (inflatePass inflate body) passes (inflate.reset, 0, [])

def decompress (passes : Nat) (stored : List UInt8) :
    Option (Except (DecodeError ε) (List UInt8)) :=
  match gzipBody stored with
  | .error e => some (.error e)
  | .ok body =>
    (runInflate inflate passes body).map fun result => do
      let plain ← result
      verifyTrailer crc stored plain
      pure plain

end Functions

variable {format : StreamFormat} {deflate : Coder σ ε} {inflate : Coder τ ε}
  {crc : List UInt8 → UInt32}

/-! ## Inflating -/

/-- A result says what the format says of the body. -/
def Inflated (format : StreamFormat) (body : List UInt8)
    (result : Except (DecodeError ε) (List UInt8)) : Prop :=
  ∀ plain, result = .ok plain ↔ ∃ rest, format.decode body = some (plain, rest)

theorem inflated_error {body : List UInt8} {e : DecodeError ε} (h : format.decode body = none) :
    Inflated format body (.error e) := by
  intro plain
  refine iff_of_false (fun heq => nomatch heq) ?_
  rintro ⟨rest, hrest⟩
  exact nomatch h.symm.trans hrest

/-- A pass ends as the format says, or goes on with more output. -/
theorem inflatePass_cases {body : List UInt8} (h : inflate.Decodes scratchChunk body format)
    {s : τ} {consumed : Nat} {out : List UInt8}
    (hle : consumed ≤ body.length)
    (hsession : inflate.Session scratchChunk body s consumed out) :
    (∃ result, inflatePass inflate body (s, consumed, out) = .inl result ∧
      Inflated format body result) ∨
    ∃ s' consumed' out', inflatePass inflate body (s, consumed, out) =
        .inr (s', consumed', out') ∧ consumed' ≤ body.length ∧
      inflate.Session scratchChunk body s' consumed' out' ∧ out.length < out'.length := by
  unfold inflatePass
  dsimp only
  rw [if_neg (Nat.not_lt.mpr hle)]
  cases hcode : inflate.code s (body.drop consumed) scratchChunk with
  | error e => exact .inl ⟨_, rfl, inflated_error (h.failed hsession hcode)⟩
  | ok t =>
    dsimp only
    rw [if_neg (Nat.not_lt.mpr (h.output hsession hcode))]
    by_cases hend : t.status = .streamEnd
    · rw [if_pos hend]
      refine .inl ⟨_, rfl, fun plain => ?_⟩
      rw [h.ended hsession hcode hend]
      constructor
      · intro heq
        exact ⟨_, by rw [Except.ok.inj heq]⟩
      · rintro ⟨rest, hrest⟩
        rw [(Prod.mk.inj (Option.some.inj hrest)).1]
    · rw [if_neg hend]
      by_cases hnil : t.output = []
      · rw [if_pos hnil]
        exact .inl ⟨_, rfl, inflated_error (h.starved hsession hcode hend hnil)⟩
      · rw [if_neg hnil]
        refine .inr ⟨_, _, _, rfl, h.consumed hsession hcode, .turn hsession hcode hend, ?_⟩
        have := List.length_pos_of_ne_nil hnil
        rw [List.length_append]
        omega

/-- A result is what the format says, and there is one after enough passes. -/
theorem runInflate_spec {body : List UInt8} (h : inflate.Decodes scratchChunk body format) :
    (∀ passes result, runInflate inflate passes body = some result →
      Inflated format body result) ∧
    ∃ passes result, runInflate inflate passes body = some result := by
  have hstart : inflate.Session scratchChunk body inflate.reset 0 [] := .start
  constructor
  · intro passes result hresult
    refine of_whileLoop (I := fun (s, consumed, out) => consumed ≤ body.length ∧
      inflate.Session scratchChunk body s consumed out) (s := (inflate.reset, 0, [])) ?_ ?_
      ⟨Nat.zero_le _, hstart⟩ hresult
    · rintro ⟨s, consumed, out⟩ b ⟨hle, hsession⟩ hb
      rcases inflatePass_cases h hle hsession with ⟨result, hpass, hresult⟩ | ⟨_, _, _, hpass, -⟩
      · exact Sum.inl.inj (hpass.symm.trans hb) ▸ hresult
      · exact nomatch hpass.symm.trans hb
    · rintro ⟨s, consumed, out⟩ next ⟨hle, hsession⟩ hnext
      rcases inflatePass_cases h hle hsession with
        ⟨result, hpass, -⟩ | ⟨_, _, _, hpass, hle', hsession', -⟩
      · exact nomatch hpass.symm.trans hnext
      · exact Sum.inr.inj (hpass.symm.trans hnext) ▸ ⟨hle', hsession'⟩
  · obtain ⟨bound, hbound⟩ := h.bounded
    have hround : ∀ s : τ × Nat × List UInt8,
        s.2.1 ≤ body.length ∧ inflate.Session scratchChunk body s.1 s.2.1 s.2.2 →
        (∃ result, inflatePass inflate body s = .inl result ∧ True) ∨
        ∃ next, inflatePass inflate body s = .inr next ∧
          (next.2.1 ≤ body.length ∧ inflate.Session scratchChunk body next.1 next.2.1 next.2.2) ∧
          bound - next.2.2.length < bound - s.2.2.length := by
      rintro ⟨s, consumed, out⟩ hs
      obtain ⟨hle, hsession⟩ : consumed ≤ body.length ∧
        inflate.Session scratchChunk body s consumed out := hs
      rcases inflatePass_cases h hle hsession with
        ⟨result, hpass, -⟩ | ⟨s', consumed', out', hpass, hle', hsession', hlt⟩
      · exact .inl ⟨result, hpass, trivial⟩
      · refine .inr ⟨_, hpass, ⟨hle', hsession'⟩, ?_⟩
        have hmost := hbound _ _ _ hsession'
        show bound - out'.length < bound - out.length
        omega
    obtain ⟨result, hresult, -⟩ := whileLoop_spec hround (n := bound + 1)
      (s := (inflate.reset, 0, [])) ⟨Nat.zero_le _, hstart⟩ (Nat.lt_succ_of_le (Nat.sub_le ..))
    exact ⟨bound + 1, result, hresult⟩

/-! ## Reading a member -/

/-- What an accepted object is made of: a header with no flags, a stream,
something after it, and the trailer of the plaintext. -/
structure Parts (format : StreamFormat) (crc : List UInt8 → UInt32) (stored plain : List UInt8)
    (header stream rest : List UInt8) : Prop where
  stored : stored = header ++ (stream ++ rest) ++ trailer crc plain
  header : ∃ unread, header = [0x1f, 0x8b, 0x08, 0x00] ++ unread ∧ unread.length = 6
  stream : format.IsStream stream plain

/-- A header with no flags, one complete stream, and the trailer: nothing else. -/
def IsMember (format : StreamFormat) (crc : List UInt8 → UInt32) (stored plain : List UInt8) :
    Prop :=
  ∃ header stream, Parts format crc stored plain header stream []

/-- Something lies between the stream and the trailer of its plaintext. -/
def Padded (format : StreamFormat) (crc : List UInt8 → UInt32) (stored : List UInt8) : Prop :=
  ∃ plain header stream rest, Parts format crc stored plain header stream rest ∧ rest ≠ []

theorem length_trailer (plain : List UInt8) : (trailer crc plain).length = trailerLen := by
  unfold trailer
  rw [List.length_append, leBytes_length, leBytes_length]
  rfl

theorem take_drop_drop (bytes : List UInt8) {start stop : Nat} (h : start ≤ stop) :
    bytes.take start ++ (bytes.take stop).drop start ++ bytes.drop stop = bytes := by
  have htake : bytes.take start = (bytes.take stop).take start := by
    rw [List.take_take, Nat.min_eq_left h]
  rw [htake, List.take_append_drop, List.take_append_drop]

/-- The body is what is between the first ten and the last eight bytes. -/
theorem gzipBody_eq_ok {stored body : List UInt8} :
    gzipBody (ε := ε) stored = .ok body ↔ ∃ unread tail, unread.length = 6 ∧
      tail.length = trailerLen ∧ stored = [0x1f, 0x8b, 0x08, 0x00] ++ unread ++ body ++ tail := by
  constructor
  · intro h
    unfold gzipBody at h
    split at h
    next => nomatch h
    next hlen =>
      have hlong : trailerLen ≤ stored.length := Nat.le_of_not_lt hlen
      split at h
      next _ more =>
        split at h
        next => nomatch h
        next hheader =>
          obtain rfl := Except.ok.inj h
          have hbody := Nat.le_of_not_lt hheader
          refine ⟨more.take 6, _, ?_, ?_, (take_drop_drop (_ :: _ :: _ :: _ :: more) hbody).symm⟩
          · rw [List.length_cons, List.length_cons, List.length_cons, List.length_cons,
              show trailerLen = 8 from rfl, show headerLen = 10 from rfl] at hbody
            rw [List.length_take]
            omega
          · rw [List.length_drop]
            omega
      all_goals nomatch h
  · rintro ⟨unread, tail, hunread, htail, rfl⟩
    have hfront : ([0x1f, 0x8b, 0x08, 0x00] ++ unread : List UInt8).length = headerLen := by
      rw [List.length_append, hunread]
      rfl
    have hlast : ([0x1f, 0x8b, 0x08, 0x00] ++ unread ++ body ++ tail : List UInt8).length -
        trailerLen = ([0x1f, 0x8b, 0x08, 0x00] ++ unread ++ body : List UInt8).length := by
      rw [List.length_append, htail, Nat.add_sub_cancel]
    have hshort : ¬ ([0x1f, 0x8b, 0x08, 0x00] ++ unread ++ body ++ tail : List UInt8).length <
        trailerLen := by
      rw [List.length_append, htail]
      omega
    have hheader : ¬ ([0x1f, 0x8b, 0x08, 0x00] ++ unread ++ body : List UInt8).length <
        headerLen := by
      rw [List.length_append, hfront]
      omega
    unfold gzipBody
    rw [if_neg hshort, hlast]
    show (if _ then _ else _) = _
    rw [if_neg hheader, List.take_left, ← hfront, List.drop_left]

/-- The check is that the last bytes are the trailer. -/
theorem verifyTrailer_eq_ok {front tail plain : List UInt8} (htail : tail.length = trailerLen) :
    verifyTrailer (ε := ε) crc (front ++ tail) plain = .ok () ↔ tail = trailer crc plain := by
  have hlast : (front ++ tail).length - trailerLen = front.length := by
    rw [List.length_append, htail, Nat.add_sub_cancel]
  have hshort : ¬ (front ++ tail).length < trailerLen := by
    rw [List.length_append]
    omega
  have hfour : (tail.take 4).length = 4 ∧ (tail.drop 4).length = 4 := by
    rw [List.length_take, List.length_drop, htail]
    exact ⟨rfl, rfl⟩
  have hcrc : (crc plain).toNat < 256 ^ 4 := UInt32.toNat_lt ..
  have hsize : plaintextIsize plain < 256 ^ 4 := Nat.mod_lt _ (by decide)
  unfold verifyTrailer trailer
  rw [if_neg hshort, hlast, List.drop_left]
  dsimp only
  constructor
  · intro h
    split at h
    next => nomatch h
    next hcrc' =>
      split at h
      next => nomatch h
      next hsize' =>
        rw [Decidable.not_not.mp hcrc', Decidable.not_not.mp hsize',
          leBytes_ofLeBytes_of_length hfour.1, leBytes_ofLeBytes_of_length hfour.2,
          List.take_append_drop]
  · intro h
    rw [h, List.take_left' (leBytes_length ..), List.drop_left' (leBytes_length ..),
      ofLeBytes_leBytes hcrc, ofLeBytes_leBytes hsize, if_neg (not_not.mpr rfl),
      if_neg (not_not.mpr rfl)]

theorem parts_of_decompress (h : ∀ body, inflate.Decodes scratchChunk body format) {passes : Nat}
    {stored plain : List UInt8}
    (hok : decompress inflate crc passes stored = some (.ok plain)) :
    ∃ header stream rest, Parts format crc stored plain header stream rest := by
  unfold decompress at hok
  cases hbody : gzipBody (ε := ε) stored with
  | error e =>
    rw [hbody] at hok
    nomatch hok
  | ok body =>
    rw [hbody] at hok
    obtain ⟨unread, tail, hunread, htail, rfl⟩ := gzipBody_eq_ok.mp hbody
    obtain ⟨result, hresult, hverify⟩ := Option.map_eq_some_iff.mp hok
    cases result with
    | error e => nomatch hverify
    | ok plain' =>
      have hverify : (verifyTrailer (ε := ε) crc _ plain' >>= fun _ => pure plain') =
        .ok plain := hverify
      obtain ⟨_, hcheck, hplain⟩ := bind_eq_ok.mp hverify
      obtain rfl := Except.ok.inj hplain
      have heq := (verifyTrailer_eq_ok htail).mp hcheck
      obtain ⟨rest, hdecode⟩ := ((runInflate_spec (h body)).1 _ _ hresult plain').mp rfl
      obtain ⟨stream, hstream, hself⟩ := StreamFormat.exists_stream hdecode
      exact ⟨_, stream, rest, by rw [hstream, heq], ⟨unread, rfl, hunread⟩, hself⟩

theorem decompress_of_parts (h : ∀ body, inflate.Decodes scratchChunk body format)
    {stored plain header stream rest : List UInt8}
    (hparts : Parts format crc stored plain header stream rest) :
    ∃ passes, ∀ n, passes ≤ n → decompress inflate crc n stored = some (.ok plain) := by
  obtain ⟨hstored, ⟨unread, hheader, hunread⟩, hself⟩ := hparts
  have hbody : gzipBody (ε := ε) stored = .ok (stream ++ rest) :=
    gzipBody_eq_ok.mpr ⟨unread, _, hunread, length_trailer plain, by rw [hstored, hheader]⟩
  obtain ⟨hinflated, passes, result, hresult⟩ := runInflate_spec (h (stream ++ rest))
  have hplain : result = .ok plain :=
    (hinflated passes result hresult plain).mpr ⟨rest, hself.append rest⟩
  refine ⟨passes, fun n hle => ?_⟩
  have hrun : runInflate inflate n (stream ++ rest) = some (.ok plain) :=
    hplain ▸ whileLoop_mono hresult hle
  have hcheck : verifyTrailer (ε := ε) crc stored plain = .ok () := by
    rw [hstored]
    exact (verifyTrailer_eq_ok (length_trailer plain)).mpr rfl
  unfold decompress
  rw [hbody]
  show (runInflate inflate n (stream ++ rest)).map _ = _
  rw [hrun, Option.map_some]
  show some (verifyTrailer (ε := ε) crc stored plain >>= fun _ => pure plain) = _
  rw [hcheck]
  rfl

/-! ## Writing a member -/

/-- A pass ends with the stream, or goes on with more output. -/
theorem deflatePass_cases {input front : List UInt8}
    (h : deflate.Encodes scratchChunk input format) {s : σ} {consumed : Nat} {out : List UInt8}
    (hle : consumed ≤ input.length)
    (hsession : deflate.Session scratchChunk input s consumed out) :
    (∃ stream, deflatePass deflate input (s, consumed, front ++ out) =
      .inl (some (front ++ stream)) ∧ format.IsStream stream input) ∨
    ∃ s' consumed' out', deflatePass deflate input (s, consumed, front ++ out) =
        .inr (s', consumed', front ++ out') ∧ consumed' ≤ input.length ∧
      deflate.Session scratchChunk input s' consumed' out' ∧ out.length < out'.length := by
  obtain ⟨t, hcode⟩ := h.succeeds hsession
  unfold deflatePass
  dsimp only
  rw [if_neg (Nat.not_lt.mpr hle), hcode]
  dsimp only
  rw [if_neg (Nat.not_lt.mpr (h.output hsession hcode)), List.append_assoc]
  by_cases hend : t.status = .streamEnd
  · rw [if_pos hend]
    exact .inl ⟨_, rfl, h.ended hsession hcode hend⟩
  · rw [if_neg hend]
    refine .inr ⟨_, _, _, rfl, h.consumed hsession hcode, .turn hsession hcode hend, ?_⟩
    have := List.length_pos_of_ne_nil (h.working hsession hcode hend)
    rw [List.length_append]
    omega

theorem runDeflate_spec {input : List UInt8} (h : deflate.Encodes scratchChunk input format)
    (front : List UInt8) :
    ∃ stream passes, format.IsStream stream input ∧ ∀ n, passes ≤ n →
      runDeflate deflate n input front = some (front ++ stream) := by
  obtain ⟨bound, hbound⟩ := h.bounded
  have hround : ∀ s : σ × Nat × List UInt8,
      (∃ out, s.2.2 = front ++ out ∧ s.2.1 ≤ input.length ∧
        deflate.Session scratchChunk input s.1 s.2.1 out) →
      (∃ result, deflatePass deflate input s = .inl result ∧
        ∃ stream, result = some (front ++ stream) ∧ format.IsStream stream input) ∨
      ∃ next, deflatePass deflate input s = .inr next ∧
        (∃ out, next.2.2 = front ++ out ∧ next.2.1 ≤ input.length ∧
          deflate.Session scratchChunk input next.1 next.2.1 out) ∧
        front.length + bound - next.2.2.length < front.length + bound - s.2.2.length := by
    rintro ⟨s, consumed, all⟩ ⟨out, hall, hle, hsession⟩
    obtain rfl : all = front ++ out := hall
    rcases deflatePass_cases h hle hsession with
      ⟨stream, hpass, hstream⟩ | ⟨s', consumed', out', hpass, hle', hsession', hlt⟩
    · exact .inl ⟨_, hpass, stream, rfl, hstream⟩
    · refine .inr ⟨_, hpass, ⟨out', rfl, hle', hsession'⟩, ?_⟩
      have hmost := hbound _ _ _ hsession'
      show front.length + bound - (front ++ out').length <
        front.length + bound - (front ++ out).length
      rw [List.length_append, List.length_append]
      omega
  obtain ⟨result, hresult, stream, hout, hstream⟩ := whileLoop_spec hround
    (n := front.length + bound + 1) (s := (deflate.reset, 0, front))
    ⟨[], (List.append_nil _).symm, Nat.zero_le _, .start⟩ (Nat.lt_succ_of_le (Nat.sub_le ..))
  refine ⟨stream, front.length + bound + 1, hstream, fun n hle => ?_⟩
  unfold runDeflate
  rw [whileLoop_mono hresult hle, hout]
  rfl

/-- What is written is a member. -/
theorem compress_spec (crc : List UInt8 → UInt32)
    (h : ∀ input, deflate.Encodes scratchChunk input format) (plain : List UInt8) :
    ∃ stored passes, IsMember format crc stored plain ∧
      ∀ n, passes ≤ n → compress deflate crc n plain = some stored := by
  obtain ⟨stream, passes, hstream, hrun⟩ := runDeflate_spec (h plain) gzipHeader
  refine ⟨gzipHeader ++ stream ++ trailer crc plain, passes, ⟨gzipHeader, stream, ?_⟩,
    fun n hle => ?_⟩
  · exact ⟨by rw [List.append_nil], ⟨gzipHeader.drop 4, rfl, rfl⟩, hstream⟩
  · unfold compress
    rw [hrun n hle]
    rfl

/-! ## What is accepted -/

/-- Where a member's stream ends is not a matter of its plaintext. -/
theorem rest_unique {stored plain header stream rest header' stream' rest' : List UInt8}
    (h : Parts format crc stored plain header stream rest)
    (h' : Parts format crc stored plain header' stream' rest') : rest = rest' := by
  obtain ⟨hstored, ⟨unread, rfl, hunread⟩, hself⟩ := h
  obtain ⟨hstored', ⟨unread', rfl, hunread'⟩, hself'⟩ := h'
  have hsame := hstored.symm.trans hstored'
  have hfront := List.append_cancel_right hsame
  have hlen : ([0x1f, 0x8b, 0x08, 0x00] ++ unread : List UInt8).length =
      ([0x1f, 0x8b, 0x08, 0x00] ++ unread' : List UInt8).length := by
    rw [List.length_append, List.length_append, hunread, hunread']
  have hbody := (List.append_inj hfront hlen).2
  have hdecode := hself.append rest
  rw [hbody, hself'.append rest'] at hdecode
  exact (Prod.mk.inj (Option.some.inj hdecode)).2.symm

/-- **Only padding is accepted wrongly**, and what is written reads back. -/
theorem decompress_exact_iff (hinflate : ∀ body, inflate.Decodes scratchChunk body format)
    (hdeflate : ∀ input, deflate.Encodes scratchChunk input format) :
    (∀ stored, (∀ passes plain, decompress inflate crc passes stored = some (.ok plain) →
        IsMember format crc stored plain) ↔ ¬ Padded format crc stored) ∧
    ∀ plain, ∃ stored passes, ∀ n, passes ≤ n → compress deflate crc n plain = some stored ∧
      decompress inflate crc n stored = some (.ok plain) := by
  refine ⟨fun stored => ⟨fun h => ?_, fun h passes plain hok => ?_⟩, fun plain => ?_⟩
  · rintro ⟨plain, header, stream, rest, hparts, hrest⟩
    obtain ⟨passes, hpasses⟩ := decompress_of_parts hinflate hparts
    obtain ⟨header', stream', hmember⟩ := h passes plain (hpasses passes (Nat.le_refl _))
    exact hrest (rest_unique hparts hmember)
  · obtain ⟨header, stream, rest, hparts⟩ := parts_of_decompress hinflate hok
    cases rest with
    | nil => exact ⟨header, stream, hparts⟩
    | cons b rest => exact absurd ⟨plain, header, stream, _, hparts, List.cons_ne_nil b rest⟩ h
  · obtain ⟨stored, written, ⟨header, stream, hparts⟩, hcompress⟩ :=
      compress_spec crc hdeflate plain
    obtain ⟨read, hread⟩ := decompress_of_parts hinflate hparts
    exact ⟨stored, max written read, fun n hle =>
      ⟨hcompress n (Nat.le_trans (Nat.le_max_left ..) hle),
        hread n (Nat.le_trans (Nat.le_max_right ..) hle)⟩⟩

/-! ## Stored blocks -/

/-- Blocks of one byte, and an empty last block in the fixed code. -/
def decodeBlocks : List UInt8 → Option (List UInt8 × List UInt8)
  | 0x03 :: 0x00 :: rest => some ([], rest)
  | 0x00 :: 0x01 :: 0x00 :: 0xfe :: 0xff :: b :: rest =>
    (decodeBlocks rest).map fun (plain, rest) => (b :: plain, rest)
  | _ => none

def encodeBlocks : List UInt8 → List UInt8
  | [] => [0x03, 0x00]
  | b :: plain => 0x00 :: 0x01 :: 0x00 :: 0xfe :: 0xff :: b :: encodeBlocks plain

theorem decodeBlocks_ends {bytes plain rest : List UInt8}
    (h : decodeBlocks bytes = some (plain, rest)) :
    ∃ stream, bytes = stream ++ rest ∧
      ∀ more, decodeBlocks (stream ++ more) = some (plain, more) := by
  induction bytes using decodeBlocks.induct generalizing plain with
  | case1 rest' =>
    obtain ⟨rfl, rfl⟩ := Prod.mk.inj (Option.some.inj h)
    exact ⟨[0x03, 0x00], rfl, fun more => rfl⟩
  | case2 b rest' ih =>
    obtain ⟨⟨plain', rest''⟩, hdecode, heq⟩ := Option.map_eq_some_iff.mp h
    obtain ⟨rfl, rfl⟩ := Prod.mk.inj heq
    obtain ⟨stream, rfl, hmore⟩ := ih hdecode
    refine ⟨0x00 :: 0x01 :: 0x00 :: 0xfe :: 0xff :: b :: stream, rfl, fun more => ?_⟩
    show (decodeBlocks (stream ++ more)).map _ = _
    rw [hmore more]
    rfl
  | case3 bytes h1 h2 =>
    rw [decodeBlocks.eq_3 _ h1 h2] at h
    nomatch h

/-- The streams of such blocks. -/
def storedBlocks : StreamFormat := ⟨decodeBlocks, decodeBlocks_ends⟩

theorem isStream_encodeBlocks (plain : List UInt8) :
    storedBlocks.IsStream (encodeBlocks plain) plain := by
  show decodeBlocks (encodeBlocks plain) = some (plain, [])
  induction plain with
  | nil => rfl
  | cons b plain ih =>
    show (decodeBlocks (encodeBlocks plain)).map _ = _
    rw [ih]
    rfl

def crcBit (crc : UInt32) : UInt32 :=
  if crc &&& 1 = 1 then (crc >>> 1) ^^^ 0xedb88320 else crc >>> 1

/-- CRC-32, a bit at a time. -/
def crc32 (bytes : List UInt8) : UInt32 :=
  (bytes.foldl (fun crc b => (List.range 8).foldl (fun c _ => crcBit c) (crc ^^^ b.toUInt32))
    (0xffffffff : UInt32)) ^^^ 0xffffffff

/-- The member of one byte. -/
def memberOfA : List UInt8 := gzipHeader ++ encodeBlocks [0x61] ++ trailer crc32 [0x61]

theorem decompress_exact_iff_blocks :
    ((∀ passes plain, decompress storedBlocks.decoder crc32 passes memberOfA =
        some (.ok plain) → IsMember storedBlocks crc32 memberOfA plain) ↔
      ¬ Padded storedBlocks crc32 memberOfA) ∧
    ∃ stored passes, ∀ n, passes ≤ n →
      compress (StreamFormat.encoder encodeBlocks) crc32 n [] = some stored ∧
      decompress storedBlocks.decoder crc32 n stored = some (.ok []) := by
  have hinflate : ∀ body, storedBlocks.decoder.Decodes scratchChunk body storedBlocks :=
    fun body => StreamFormat.decoder_decodes (by decide) body
  have hdeflate : ∀ input, (StreamFormat.encoder encodeBlocks).Encodes scratchChunk input
      storedBlocks :=
    fun input => StreamFormat.encoder_encodes (by decide) (isStream_encodeBlocks input)
  exact ⟨(decompress_exact_iff hinflate hdeflate).1 memberOfA,
    (decompress_exact_iff hinflate hdeflate).2 []⟩

/-- Two members one after the other read as one. -/
theorem decompress_two_members :
    (∀ body, storedBlocks.decoder.Decodes scratchChunk body storedBlocks) ∧
    decompress storedBlocks.decoder crc32 1 (memberOfA ++ memberOfA) = some (.ok [0x61]) ∧
    ¬ IsMember storedBlocks crc32 (memberOfA ++ memberOfA) [0x61] := by
  refine ⟨fun body => StreamFormat.decoder_decodes (by decide) body, rfl, ?_⟩
  rintro ⟨header, stream, hmember⟩
  have hparts : Parts storedBlocks crc32 (memberOfA ++ memberOfA) [0x61] gzipHeader
      (encodeBlocks [0x61]) (trailer crc32 [0x61] ++ gzipHeader ++ encodeBlocks [0x61]) :=
    ⟨rfl, ⟨gzipHeader.drop 4, rfl, rfl⟩, isStream_encodeBlocks _⟩
  exact nomatch rest_unique hparts hmember

end Folo.BenchHistory.Codec
