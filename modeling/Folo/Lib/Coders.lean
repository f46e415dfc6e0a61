import Mathlib.Data.List.Basic

/-!
# Coders of streams

A coder is called again and again with what is left of its input and a window
for its output, until it says that the stream ends. `Decodes` and `Encodes` are
what such coders promise of a format whose streams mark their own end, and
there are such coders for any format.
-/

namespace Folo.Lib

/-- A format of byte streams: what the bytes at the front stand for, and what
comes after the stream. -/
structure StreamFormat where
  decode : List UInt8 → Option (List UInt8 × List UInt8)
  /-- the stream marks its own end -/
  ends : ∀ {bytes plain rest}, decode bytes = some (plain, rest) →
    ∃ stream, bytes = stream ++ rest ∧ ∀ more, decode (stream ++ more) = some (plain, more)

/-- One stream and nothing else. -/
def StreamFormat.IsStream (format : StreamFormat) (stream plain : List UInt8) : Prop :=
  format.decode stream = some (plain, [])

theorem StreamFormat.IsStream.append {format : StreamFormat} {stream plain : List UInt8}
    (h : format.IsStream stream plain) (rest : List UInt8) :
    format.decode (stream ++ rest) = some (plain, rest) := by
  obtain ⟨stream', heq, hmore⟩ := format.ends h
  rw [heq, List.append_nil]
  exact hmore rest

theorem StreamFormat.exists_stream {format : StreamFormat} {bytes plain rest : List UInt8}
    (h : format.decode bytes = some (plain, rest)) :
    ∃ stream, bytes = stream ++ rest ∧ format.IsStream stream plain := by
  obtain ⟨stream, heq, hmore⟩ := format.ends h
  have hself := hmore []
  rw [List.append_nil] at hself
  exact ⟨stream, heq, hself⟩

inductive Status
  | ok
  | bufError
  | streamEnd
  deriving DecidableEq

/-- What one call did. -/
structure Turn (σ : Type) where
  state : σ
  consumed : Nat
  output : List UInt8
  status : Status

/-- A coder with its state; a call gets the rest of the input and a window. -/
structure Coder (σ ε : Type) where
  reset : σ
  code : σ → List UInt8 → Nat → Except ε (Turn σ)

variable {σ ε : Type}

namespace Coder

variable (coder : Coder σ ε) (window : Nat) (input : List UInt8)

/-- The states of a coder that is given the rest of an input until the stream
ends, with what it has read and written. -/
inductive Session : σ → Nat → List UInt8 → Prop
  | start : Session coder.reset 0 []
  | turn {s : σ} {consumed : Nat} {out : List UInt8} {t : Turn σ} :
    Session s consumed out → coder.code s (input.drop consumed) window = .ok t →
    t.status ≠ .streamEnd → Session t.state (consumed + t.consumed) (out ++ t.output)

/-- A call takes no more than there is, and writes no more than fits. -/
structure Within : Prop where
  consumed : ∀ {s consumed out t}, coder.Session window input s consumed out →
    coder.code s (input.drop consumed) window = .ok t → consumed + t.consumed ≤ input.length
  output : ∀ {s consumed out t}, coder.Session window input s consumed out →
    coder.code s (input.drop consumed) window = .ok t → t.output.length ≤ window
  /-- so many bytes stand for so many at most -/
  bounded : ∃ bound, ∀ s consumed out, coder.Session window input s consumed out →
    out.length ≤ bound

/-- What a decoder of the format promises. -/
structure Decodes (format : StreamFormat) : Prop extends coder.Within window input where
  ended : ∀ {s consumed out t}, coder.Session window input s consumed out →
    coder.code s (input.drop consumed) window = .ok t → t.status = .streamEnd →
    format.decode input = some (out ++ t.output, input.drop (consumed + t.consumed))
  /-- with room for output it stops for want of input only -/
  starved : ∀ {s consumed out t}, coder.Session window input s consumed out →
    coder.code s (input.drop consumed) window = .ok t → t.status ≠ .streamEnd →
    t.output = [] → format.decode input = none
  failed : ∀ {s consumed out e}, coder.Session window input s consumed out →
    coder.code s (input.drop consumed) window = .error e → format.decode input = none

/-- What an encoder of the format promises. -/
structure Encodes (format : StreamFormat) : Prop extends coder.Within window input where
  ended : ∀ {s consumed out t}, coder.Session window input s consumed out →
    coder.code s (input.drop consumed) window = .ok t → t.status = .streamEnd →
    format.IsStream (out ++ t.output) input
  working : ∀ {s consumed out t}, coder.Session window input s consumed out →
    coder.code s (input.drop consumed) window = .ok t → t.status ≠ .streamEnd → t.output ≠ []
  succeeds : ∀ {s consumed out}, coder.Session window input s consumed out →
    ∃ t, coder.code s (input.drop consumed) window = .ok t

end Coder

/-! ## A coder for any format -/

/-- Takes its whole input in the first call, and then writes what there is to
write. -/
def wholeCoder (ε : Type) (result : List UInt8 → Except ε (List UInt8 × Nat)) :
    Coder (Option (List UInt8)) ε where
  reset := none
  code
    | none, input, window => (result input).map fun (whole, consumed) =>
      { state := some (whole.drop window), consumed, output := whole.take window
        status := if whole.length ≤ window then .streamEnd else .ok }
    | some pending, _, window => .ok
      { state := some (pending.drop window), consumed := 0, output := pending.take window
        status := if pending.length ≤ window then .streamEnd else .ok }

section WholeCoder

variable {result : List UInt8 → Except ε (List UInt8 × Nat)} {window : Nat} {input : List UInt8}

/-- After the first call the rest of the result is pending, and never nothing. -/
theorem pending_of_session {s : Option (List UInt8)} {consumed : Nat} {out : List UInt8}
    (h : (wholeCoder ε result).Session window input s consumed out) :
    (s = none ∧ consumed = 0 ∧ out = []) ∨ ∃ pending whole, s = some pending ∧ pending ≠ [] ∧
      result input = .ok (whole, consumed) ∧ out ++ pending = whole := by
  induction h with
  | start => exact .inl ⟨rfl, rfl, rfl⟩
  | turn hsession hcode hstatus ih =>
    refine .inr ?_
    rcases ih with ⟨rfl, rfl, rfl⟩ | ⟨pending, whole, rfl, -, hresult, rfl⟩
    · rw [List.drop_zero] at hcode
      unfold wholeCoder at hcode
      dsimp only at hcode
      cases hresult : result input with
      | error e =>
        rw [hresult] at hcode
        nomatch hcode
      | ok pair =>
        rw [hresult] at hcode
        obtain rfl := Except.ok.inj hcode
        dsimp only at hstatus ⊢
        split at hstatus
        next => exact absurd rfl hstatus
        next hlen =>
          refine ⟨_, pair.1, rfl, ?_, ?_, List.take_append_drop ..⟩
          · rw [ne_eq, List.drop_eq_nil_iff]
            exact hlen
          · rw [Nat.zero_add]
    · obtain rfl := Except.ok.inj hcode
      dsimp only at hstatus ⊢
      split at hstatus
      next => exact absurd rfl hstatus
      next hlen =>
        refine ⟨_, _, rfl, ?_, hresult, ?_⟩
        · rw [ne_eq, List.drop_eq_nil_iff]
          exact hlen
        · rw [List.append_assoc, List.take_append_drop]

/-- What one call writes is the next part of the result. -/
structure Writes (whole out : List UInt8) (window : Nat) (t : Turn (Option (List UInt8))) :
    Prop where
  next : out ++ t.output <+: whole
  fits : t.output.length ≤ window
  last : t.status = .streamEnd → out ++ t.output = whole
  full : t.status ≠ .streamEnd → t.output.length = window

theorem writes_chunk {whole out pending : List UInt8} (h : out ++ pending = whole)
    (consumed : Nat) :
    Writes whole out window
      { state := some (pending.drop window), consumed, output := pending.take window
        status := if pending.length ≤ window then .streamEnd else .ok } := by
  refine ⟨?_, ?_, fun hlast => ?_, fun hstatus => ?_⟩
  · rw [← h]
    exact List.prefix_append_right_inj out |>.mpr (List.take_prefix ..)
  · exact List.length_take_le ..
  · dsimp only at hlast ⊢
    split at hlast
    next hlen => rw [List.take_of_length_le hlen, h]
    next => nomatch hlast
  · dsimp only at hstatus ⊢
    split at hstatus
    next => exact absurd rfl hstatus
    next hlen => rw [List.length_take, Nat.min_eq_left (Nat.le_of_not_le hlen)]

theorem writes_of_session {s : Option (List UInt8)} {consumed : Nat} {out : List UInt8}
    {t : Turn (Option (List UInt8))}
    (h : (wholeCoder ε result).Session window input s consumed out)
    (hcode : (wholeCoder ε result).code s (input.drop consumed) window = .ok t) :
    ∃ whole, result input = .ok (whole, consumed + t.consumed) ∧ Writes whole out window t := by
  rcases pending_of_session h with ⟨rfl, rfl, rfl⟩ | ⟨pending, whole, rfl, -, hresult, hwhole⟩
  · rw [List.drop_zero] at hcode
    unfold wholeCoder at hcode
    dsimp only at hcode
    cases hresult : result input with
    | error e =>
      rw [hresult] at hcode
      nomatch hcode
    | ok pair =>
      rw [hresult] at hcode
      obtain rfl := Except.ok.inj hcode
      refine ⟨pair.1, ?_, writes_chunk (List.nil_append _) _⟩
      rw [Nat.zero_add]
  · obtain rfl := Except.ok.inj hcode
    exact ⟨whole, hresult, writes_chunk hwhole _⟩

theorem exists_result_of_session {s : Option (List UInt8)} {consumed : Nat} {out : List UInt8}
    (h : (wholeCoder ε result).Session window input s consumed out) {e : ε}
    (hcode : (wholeCoder ε result).code s (input.drop consumed) window = .error e) :
    result input = .error e := by
  rcases pending_of_session h with ⟨rfl, rfl, rfl⟩ | ⟨pending, whole, rfl, -, hresult, hwhole⟩
  · rw [List.drop_zero] at hcode
    unfold wholeCoder at hcode
    dsimp only at hcode
    cases hresult : result input with
    | error e' =>
      rw [hresult] at hcode
      exact congrArg _ (Except.error.inj hcode)
    | ok pair =>
      rw [hresult] at hcode
      nomatch hcode
  · nomatch hcode

theorem within_wholeCoder
    (hresult : ∀ whole consumed, result input = .ok (whole, consumed) → consumed ≤ input.length) :
    (wholeCoder ε result).Within window input where
  consumed h hcode := by
    obtain ⟨whole, hwhole, -⟩ := writes_of_session h hcode
    exact hresult whole _ hwhole
  output h hcode := by
    obtain ⟨whole, -, hwrites⟩ := writes_of_session h hcode
    exact hwrites.fits
  bounded := by
    cases hwhole : result input with
    | error e =>
      refine ⟨0, fun s consumed out h => ?_⟩
      rcases pending_of_session h with ⟨-, -, rfl⟩ | ⟨pending, whole, -, -, hok, -⟩
      · exact Nat.le_refl 0
      · exact nomatch hwhole.symm.trans hok
    | ok pair =>
      refine ⟨pair.1.length, fun s consumed out h => ?_⟩
      rcases pending_of_session h with ⟨-, -, rfl⟩ | ⟨pending, whole, -, -, hok, hlen⟩
      · exact Nat.zero_le _
      · obtain rfl := Except.ok.inj (hwhole.symm.trans hok)
        rw [← hlen, List.length_append]
        exact Nat.le_add_right ..

end WholeCoder

namespace StreamFormat

variable (format : StreamFormat)

def decoder : Coder (Option (List UInt8)) Unit :=
  wholeCoder Unit fun input =>
    match format.decode input with
    | none => .error ()
    | some (plain, rest) => .ok (plain, input.length - rest.length)

def encoder (encode : List UInt8 → List UInt8) : Coder (Option (List UInt8)) Unit :=
  wholeCoder Unit fun input => .ok (encode input, input.length)

variable {format} {window : Nat}

theorem decoder_decodes (hwindow : 0 < window) (input : List UInt8) :
    format.decoder.Decodes window input format where
  toWithin := by
    refine within_wholeCoder fun whole consumed h => ?_
    split at h
    next => nomatch h
    next =>
      obtain ⟨-, rfl⟩ := Prod.mk.inj (Except.ok.inj h)
      exact Nat.sub_le ..
  ended {s consumed out t} h hcode hstatus := by
    obtain ⟨whole, hresult, hwrites⟩ := writes_of_session h hcode
    split at hresult
    next => nomatch hresult
    next plain rest hdecode =>
      obtain ⟨rfl, hconsumed⟩ := Prod.mk.inj (Except.ok.inj hresult)
      obtain ⟨stream, hinput, -⟩ := format.ends hdecode
      have hdrop : input.drop (consumed + t.consumed) = rest := by
        rw [← hconsumed, hinput, List.length_append, Nat.add_sub_cancel, List.drop_left]
      rw [hdecode, hwrites.last hstatus, hdrop]
  starved h hcode hstatus hnil := by
    obtain ⟨whole, -, hwrites⟩ := writes_of_session h hcode
    have hfull := hwrites.full hstatus
    rw [hnil, List.length_nil] at hfull
    omega
  failed h hcode := by
    have hresult := exists_result_of_session h hcode
    split at hresult
    next hdecode => exact hdecode
    next => nomatch hresult

theorem encoder_encodes {encode : List UInt8 → List UInt8} (hwindow : 0 < window)
    {input : List UInt8} (hencode : format.IsStream (encode input) input) :
    (encoder encode).Encodes window input format where
  toWithin := by
    refine within_wholeCoder fun whole consumed h => ?_
    obtain ⟨-, rfl⟩ := Prod.mk.inj (Except.ok.inj h)
    exact Nat.le_refl _
  ended h hcode hstatus := by
    obtain ⟨whole, hresult, hwrites⟩ := writes_of_session h hcode
    obtain ⟨rfl, -⟩ := Prod.mk.inj (Except.ok.inj hresult)
    rw [hwrites.last hstatus]
    exact hencode
  working h hcode hstatus hnil := by
    obtain ⟨whole, -, hwrites⟩ := writes_of_session h hcode
    have hfull := hwrites.full hstatus
    rw [hnil, List.length_nil] at hfull
    omega
  succeeds {s consumed out} h := by
    cases hcode : (encoder encode).code s (input.drop consumed) window with
    | error e => exact nomatch exists_result_of_session h hcode
    | ok t => exact ⟨t, rfl⟩

end StreamFormat

end Folo.Lib
