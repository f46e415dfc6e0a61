import Folo.Lib.Outcomes
import Folo.Lib.Sorting
import Folo.Lib.Texts
import Mathlib.Data.Set.Lattice

/-!
# Reading a list of identifiers

`cpulist/parse.rs`, with `u32::from_str`, on lists of characters; what
`sorted().dedup()` leaves is a `treeSet`.
-/

namespace Folo.Cpulist

open Folo.Lib

abbrev Text := List Char

abbrev Item := UInt32

/-- The item of a number that fits. -/
def toItem (n : Nat) : Option Item :=
  if n < UInt32.size then some (UInt32.ofNat n) else none

/-- `u32::checked_add`. -/
def checkedAdd (a b : Item) : Option Item := toItem (a.toNat + b.toNat)

/-- The kinds of `ParseIntError` an unsigned number can have. -/
inductive IntErrorKind where
  | empty
  | invalidDigit
  | posOverflow
  deriving DecidableEq, Repr

/-- One digit of `u32::from_str`. -/
def addDigit (acc : Item) (c : Char) : Except IntErrorKind Item :=
  if c.isDigit then
    match toItem (10 * acc.toNat + (c.toNat - '0'.toNat)) with
    | some next => .ok next
    | none => .error .posOverflow
  else .error .invalidDigit

/-- `u32::from_str`. -/
def parseItem (text : Text) : Except IntErrorKind Item :=
  match text with
  | [] => .error .empty
  | ['+'] => .error .invalidDigit
  | '+' :: digits => digits.foldlM addDigit 0
  | digits => digits.foldlM addDigit 0

structure Error where
  invalidValue : Text
  problem : String
  cause : Option IntErrorKind := none
  deriving DecidableEq

/-- `str::parse` with the caller's `map_err`. -/
def parseOr (problem : String) (text : Text) : Except Error Item :=
  (parseItem text).mapError fun inner => ⟨text, problem, some inner⟩

def display (item : Item) : Text := Nat.toDigits 10 item.toNat

/-- `(start..=end).step_by(stride)`. -/
def stepBy (rangeStart rangeEndInc stride : Item) : List Item :=
  (List.range ((rangeEndInc.toNat - rangeStart.toNat) / stride.toNat + 1)).map fun k =>
    UInt32.ofNat (rangeStart.toNat + k * stride.toNat)

def parseRange (rangeStart rangeEndInc : Text) : Except Error (List Item) := do
  let first ← parseOr "range start could not be parsed as an integer" rangeStart
  let (last, stride) ← match splitOnce ':' rangeEndInc with
    | some (rangeEndInc, stride) => do
      let last ← parseOr "range end could not be parsed as an integer" rangeEndInc
      let stride ← parseOr "range stride could not be parsed as an integer" stride
      pure (last, stride)
    | none => do
      let last ← parseOr "range end could not be parsed as an integer" rangeEndInc
      pure (last, 1)
  if stride = 0 then
    throw ⟨display stride, "range stride must not be zero", none⟩
  else if last < first then
    throw ⟨display first ++ '-' :: display last, "range start must be <= end", none⟩
  else
    pure (stepBy first last stride)

def parseSingle (singleItemPart : Text) : Except Error Item :=
  parseOr "part was not a range but could not be parsed as an integer either" singleItemPart

def parsePart (part : Text) : Except Error (List Item) :=
  if part.isEmpty then .ok []
  else match splitOnce '-' part with
    | some (rangeStart, rangeEndInc) => parseRange rangeStart rangeEndInc
    | none => (parseSingle part).map fun item => [item]

def parse (cpulist : Text) : Except Error (List Item) :=
  ((cpulist.splitOn ',').mapM parsePart).map fun ranges => treeSet ranges.flatten

/-! ## The documented lists

The documentation of `cpulist` says which texts are lists and what each
denotes: `Documented` is that grammar. The parser reads every text of it as
the set it denotes (`parse_of_documented`). It reads more texts than those, as
`u32::from_str` takes a sign and `parse_part` takes an empty part: what it
accepts is the grammar with these two liberties (`exists_parse_iff`). So the
documentation is kept except where a text takes one of them.
-/

/-- The decimal numbers and their values. -/
structure Number (text : Text) (n : Item) : Prop where
  nonempty : text ≠ []
  digits : ∀ c ∈ text, c.isDigit = true
  value : Nat.ofDigitChars 10 text 0 = n.toNat

/-- The numbers with the sign that `u32::from_str` takes. -/
def SignedNumber (text : Text) (n : Item) : Prop :=
  Number text n ∨ ∃ digits, text = '+' :: digits ∧ Number digits n

/-- The items of a list and the identifiers each denotes, for the texts that
count as numbers. -/
inductive Denotes (number : Text → Item → Prop) : Text → Set Item → Prop where
  | single {text n} : number text n → Denotes number text {n}
  | range {first last x y} : number first x → number last y → x ≤ y →
      Denotes number (first ++ '-' :: last) {i | x ≤ i ∧ i ≤ y}
  | strided {first last stride x y z} : number first x → number last y → number stride z →
      x ≤ y → z ≠ 0 →
      Denotes number (first ++ '-' :: (last ++ ':' :: stride))
        {i | i ≤ y ∧ ∃ k, i.toNat = x.toNat + k * z.toNat}

/-- The lists of the documentation and what each denotes. -/
inductive Documented : Text → Set Item → Prop where
  | empty : Documented [] ∅
  | items {parts sets} : parts ≠ [] → List.Forall₂ (Denotes Number) parts sets →
      Documented ([','].intercalate parts) {i | ∃ S ∈ sets, i ∈ S}

/-- The lists with a sign before any number and any number of empty parts. -/
def Lenient (text : Text) : Prop :=
  ∀ part ∈ text.splitOn ',', part = [] ∨ ∃ S, Denotes SignedNumber part S

/-! ## Numbers -/

theorem toItem_eq_some {n : Nat} {item : Item} : toItem n = some item ↔ n = item.toNat := by
  unfold toItem
  split
  · rename_i hlt
    rw [Option.some.injEq]
    constructor
    · intro h
      rw [← h, UInt32.toNat_ofNat_of_lt' hlt]
    · intro h
      rw [h, UInt32.ofNat_toNat]
  · rename_i hlt
    refine ⟨nofun, fun h => absurd ?_ hlt⟩
    rw [h]
    exact UInt32.toNat_lt item

theorem addDigit_eq_ok {acc next : Item} {c : Char} :
    addDigit acc c = .ok next ↔
      c.isDigit = true ∧ 10 * acc.toNat + (c.toNat - '0'.toNat) = next.toNat := by
  unfold addDigit
  split
  · rename_i hdigit
    rw [← toItem_eq_some]
    split
    · rename_i item hitem
      rw [hitem]
      exact ⟨fun h => ⟨hdigit, congrArg some (Except.ok.inj h)⟩,
        fun h => congrArg Except.ok (Option.some.inj h.2)⟩
    · rename_i hitem
      rw [hitem]
      exact ⟨nofun, fun h => nomatch h.2⟩
  · rename_i hdigit
    exact ⟨nofun, fun h => absurd h.1 hdigit⟩

/-- Further digits never lower a number. -/
theorem le_ofDigitChars (digits : Text) (n : Nat) : n ≤ Nat.ofDigitChars 10 digits n := by
  induction digits generalizing n with
  | nil => exact Nat.le_refl n
  | cons c rest ih =>
    rw [Nat.ofDigitChars_cons]
    exact Nat.le_trans (by omega) (ih _)

theorem addDigits_eq_ok {digits : Text} {acc n : Item} :
    digits.foldlM addDigit acc = .ok n ↔
      (∀ c ∈ digits, c.isDigit = true) ∧ Nat.ofDigitChars 10 digits acc.toNat = n.toNat := by
  induction digits generalizing acc with
  | nil =>
    constructor
    · intro h
      rw [Except.ok.inj h]
      exact ⟨nofun, rfl⟩
    · intro h
      rw [UInt32.toNat_inj.mp h.2]
      rfl
  | cons c rest ih =>
    rw [List.foldlM_cons, bind_eq_ok, Nat.ofDigitChars_cons]
    constructor
    · rintro ⟨next, hnext, hrest⟩
      obtain ⟨hdigit, hvalue⟩ := addDigit_eq_ok.mp hnext
      obtain ⟨hdigits, hsum⟩ := ih.mp hrest
      rw [hvalue]
      exact ⟨List.forall_mem_cons.mpr ⟨hdigit, hdigits⟩, hsum⟩
    · rintro ⟨hdigits, hsum⟩
      obtain ⟨hdigit, hdigits⟩ := List.forall_mem_cons.mp hdigits
      -- what fits in the end fits after every digit
      have hlt : 10 * acc.toNat + (c.toNat - '0'.toNat) < UInt32.size :=
        Nat.lt_of_le_of_lt (le_ofDigitChars rest _) (hsum ▸ UInt32.toNat_lt n)
      have hnext := UInt32.toNat_ofNat_of_lt' hlt
      exact ⟨_, addDigit_eq_ok.mpr ⟨hdigit, hnext.symm⟩, ih.mpr ⟨hdigits, by rw [hnext, hsum]⟩⟩

theorem number_iff {digits : Text} {n : Item} (h : digits ≠ []) :
    Number digits n ↔ digits.foldlM addDigit 0 = .ok n := by
  rw [addDigits_eq_ok]
  exact ⟨fun hn => ⟨hn.digits, hn.value⟩, fun hd => ⟨h, hd.1, hd.2⟩⟩

theorem Number.not_mem {text : Text} {n : Item} (h : Number text n) {c : Char}
    (hc : c.isDigit = false) : c ∉ text := by
  intro hmem
  rw [h.digits c hmem] at hc
  nomatch hc

/-- The parser of numbers takes the numbers, with their sign. -/
theorem parseItem_eq_ok {text : Text} {n : Item} :
    parseItem text = .ok n ↔ SignedNumber text n := by
  have hsigned : ∀ {digits : Text}, Number ('+' :: digits) n → False := fun h =>
    h.not_mem (c := '+') (by decide) (List.mem_cons_self ..)
  unfold parseItem SignedNumber
  split
  · refine ⟨nofun, fun h => ?_⟩
    rcases h with h | ⟨digits, heq, -⟩
    · exact absurd rfl h.nonempty
    · nomatch heq
  · refine ⟨nofun, fun h => ?_⟩
    rcases h with h | ⟨digits, heq, h⟩
    · exact (hsigned h).elim
    · exact absurd (List.cons.inj heq).2.symm h.nonempty
  · rename_i digits hne
    rw [← number_iff hne]
    constructor
    · exact fun h => .inr ⟨digits, rfl, h⟩
    · rintro (h | ⟨digits', heq, h⟩)
      · exact (hsigned h).elim
      · rwa [(List.cons.inj heq).2]
  · rename_i hempty _ hplus
    rw [← number_iff hempty]
    constructor
    · exact .inl
    · rintro (h | ⟨digits, heq, -⟩)
      · exact h
      · exact absurd heq (hplus digits)

theorem parseOr_eq_ok {problem : String} {text : Text} {n : Item} :
    parseOr problem text = .ok n ↔ SignedNumber text n := by
  rw [← parseItem_eq_ok]
  unfold parseOr
  cases parseItem text with
  | error _ => exact ⟨nofun, nofun⟩
  | ok _ => exact ⟨fun h => congrArg _ (Except.ok.inj h), fun h => congrArg _ (Except.ok.inj h)⟩

/-- No separator stands in a number. -/
theorem SignedNumber.not_mem {text : Text} {n : Item} (h : SignedNumber text n) {c : Char}
    (hc : c.isDigit = false) (hplus : c ≠ '+') : c ∉ text := by
  rcases h with h | ⟨digits, rfl, h⟩
  · exact h.not_mem hc
  · intro hmem
    rcases List.mem_cons.mp hmem with heq | hmem
    · exact hplus heq
    · exact h.not_mem hc hmem

theorem SignedNumber.ne_nil {text : Text} {n : Item} (h : SignedNumber text n) : text ≠ [] := by
  rcases h with h | ⟨digits, rfl, -⟩
  · exact h.nonempty
  · exact List.cons_ne_nil _ _

theorem SignedNumber.number {text : Text} {n : Item} (h : SignedNumber text n)
    (hplus : '+' ∉ text) : Number text n := by
  rcases h with h | ⟨digits, rfl, -⟩
  · exact h
  · exact absurd (List.mem_cons_self ..) hplus

/-! ## Parts -/

theorem mem_stepBy {first last stride i : Item} (hle : first ≤ last) (hstride : stride ≠ 0) :
    i ∈ stepBy first last stride ↔
      i ≤ last ∧ ∃ k, i.toNat = first.toNat + k * stride.toNat := by
  have hpos : 0 < stride.toNat :=
    Nat.pos_of_ne_zero fun h => hstride (UInt32.toNat_inj.mp h)
  have hfirst : first.toNat ≤ last.toNat := UInt32.le_iff_toNat_le.mp hle
  unfold stepBy
  rw [List.mem_map, UInt32.le_iff_toNat_le]
  constructor
  · rintro ⟨k, hk, rfl⟩
    have hk : k ≤ (last.toNat - first.toNat) / stride.toNat :=
      Nat.lt_succ_iff.mp (List.mem_range.mp hk)
    have hsteps : k * stride.toNat ≤ last.toNat - first.toNat := (Nat.le_div_iff_mul_le hpos).mp hk
    have hlt : first.toNat + k * stride.toNat < UInt32.size := by
      have hlast : last.toNat < UInt32.size := UInt32.toNat_lt last
      omega
    rw [UInt32.toNat_ofNat_of_lt' hlt]
    exact ⟨by omega, k, rfl⟩
  · rintro ⟨hi, k, hk⟩
    have hsteps : k ≤ (last.toNat - first.toNat) / stride.toNat :=
      (Nat.le_div_iff_mul_le hpos).mpr (by omega)
    refine ⟨k, List.mem_range.mpr (Nat.lt_succ_iff.mpr hsteps), ?_⟩
    rw [← hk, UInt32.ofNat_toNat]

/-- Without a stride every item of the range is there. -/
theorem mem_stepBy_one {first last i : Item} (hle : first ≤ last) :
    i ∈ stepBy first last 1 ↔ first ≤ i ∧ i ≤ last := by
  rw [mem_stepBy hle (by decide), UInt32.toNat_one]
  constructor
  · rintro ⟨hi, k, hk⟩
    exact ⟨UInt32.le_iff_toNat_le.mpr (by omega), hi⟩
  · rintro ⟨hfirst, hi⟩
    have hfirst := UInt32.le_iff_toNat_le.mp hfirst
    exact ⟨hi, i.toNat - first.toNat, by omega⟩

theorem parseRange_eq_ok {rangeStart rangeEndInc : Text} {items : List Item} :
    parseRange rangeStart rangeEndInc = .ok items ↔ ∃ x y z, SignedNumber rangeStart x ∧
      ((splitOnce ':' rangeEndInc = none ∧ SignedNumber rangeEndInc y ∧ z = 1) ∨
        ∃ last stride, splitOnce ':' rangeEndInc = some (last, stride) ∧
          SignedNumber last y ∧ SignedNumber stride z) ∧
      x ≤ y ∧ z ≠ 0 ∧ items = stepBy x y z := by
  have hbounds : ∀ x y z : Item,
      ((if z = 0 then throw ⟨display z, "range stride must not be zero", none⟩
        else if y < x then
          throw ⟨display x ++ '-' :: display y, "range start must be <= end", none⟩
        else pure (stepBy x y z) : Except Error (List Item)) = .ok items) ↔
      x ≤ y ∧ z ≠ 0 ∧ items = stepBy x y z := by
    intro x y z
    split
    · rename_i hz
      exact ⟨nofun, fun h => absurd hz h.2.1⟩
    · rename_i hz
      split
      · rename_i hlt
        exact ⟨nofun, fun h => absurd hlt (UInt32.not_lt.mpr h.1)⟩
      · rename_i hlt
        exact ⟨fun h => ⟨UInt32.not_lt.mp hlt, hz, (Except.ok.inj h).symm⟩,
          fun h => congrArg Except.ok h.2.2.symm⟩
  unfold parseRange
  rw [bind_eq_ok]
  simp only [parseOr_eq_ok]
  cases hsplit : splitOnce ':' rangeEndInc with
  | none =>
    simp only [bind_eq_ok, parseOr_eq_ok, hbounds]
    constructor
    · rintro ⟨x, hx, y, hy, _, hpair, hbounds⟩
      obtain rfl := Except.ok.inj hpair
      exact ⟨x, y, 1, hx, .inl ⟨trivial, hy, rfl⟩, hbounds⟩
    · rintro ⟨x, y, z, hx, ⟨-, hy, rfl⟩ | ⟨_, _, hsome, -⟩, hbounds⟩
      · exact ⟨x, hx, y, hy, (y, 1), rfl, hbounds⟩
      · nomatch hsome
  | some parts =>
    obtain ⟨last, stride⟩ := parts
    simp only [bind_eq_ok, parseOr_eq_ok, hbounds]
    constructor
    · rintro ⟨x, hx, y, hy, z, hz, _, hpair, hbounds⟩
      obtain rfl := Except.ok.inj hpair
      exact ⟨x, y, z, hx, .inr ⟨last, stride, rfl, hy, hz⟩, hbounds⟩
    · rintro ⟨x, y, z, hx, ⟨hnone, -⟩ | ⟨last', stride', hsome, hy, hz⟩, hbounds⟩
      · nomatch hnone
      · obtain ⟨rfl, rfl⟩ := Prod.mk.inj (Option.some.inj hsome)
        exact ⟨x, hx, y, hy, z, hz, (y, z), rfl, hbounds⟩

/-- A part that is read denotes what was read. -/
theorem denotes_of_parsePart {part : Text} {items : List Item} (h : parsePart part = .ok items) :
    (part = [] ∧ items = []) ∨ ∃ S, Denotes SignedNumber part S ∧ ∀ i, i ∈ items ↔ i ∈ S := by
  unfold parsePart at h
  split at h
  · rename_i hempty
    exact .inl ⟨List.isEmpty_iff.mp hempty, (Except.ok.inj h).symm⟩
  refine .inr ?_
  split at h
  · rename_i rangeStart rangeEndInc hsplit
    obtain ⟨rfl, -⟩ := splitOnce_eq_some.mp hsplit
    obtain ⟨x, y, z, hx, hend, hle, hz, rfl⟩ := parseRange_eq_ok.mp h
    rcases hend with ⟨-, hy, rfl⟩ | ⟨last, stride, hsplit, hy, hstride⟩
    · exact ⟨_, .range hx hy hle, fun i => mem_stepBy_one hle⟩
    · obtain ⟨rfl, -⟩ := splitOnce_eq_some.mp hsplit
      exact ⟨_, .strided hx hy hstride hle hz, fun i => mem_stepBy hle hz⟩
  · obtain ⟨item, hitem, rfl⟩ := map_eq_ok.mp h
    exact ⟨_, .single (parseOr_eq_ok.mp hitem), fun i => List.mem_singleton⟩

/-- Every part that denotes something is read. -/
theorem parsePart_of_denotes {part : Text} {S : Set Item} (h : Denotes SignedNumber part S) :
    ∃ items, parsePart part = .ok items ∧ ∀ i, i ∈ items ↔ i ∈ S := by
  unfold parsePart
  cases h with
  | @single _ n hn =>
    have hne : part.isEmpty = false := List.isEmpty_eq_false_iff.mpr hn.ne_nil
    have hdash : '-' ∉ part := hn.not_mem (by decide) (by decide)
    rw [hne, splitOnce_eq_none.mpr hdash]
    exact ⟨[n], map_eq_ok.mpr ⟨n, parseOr_eq_ok.mpr hn, rfl⟩, fun i => List.mem_singleton⟩
  | @range first last x y hx hy hle =>
    have hne : (first ++ '-' :: last).isEmpty = false := by simp
    have hdash : '-' ∉ first := hx.not_mem (by decide) (by decide)
    have hcolon : ':' ∉ last := hy.not_mem (by decide) (by decide)
    rw [hne, splitOnce_eq_some.mpr ⟨rfl, hdash⟩]
    refine ⟨_, parseRange_eq_ok.mpr ⟨x, y, 1, hx, .inl ⟨?_, hy, rfl⟩, hle, by decide, rfl⟩,
      fun i => mem_stepBy_one hle⟩
    exact splitOnce_eq_none.mpr hcolon
  | @strided first last stride x y z hx hy hstride hle hz =>
    have hne : (first ++ '-' :: (last ++ ':' :: stride)).isEmpty = false := by simp
    have hdash : '-' ∉ first := hx.not_mem (by decide) (by decide)
    have hcolon : ':' ∉ last := hy.not_mem (by decide) (by decide)
    rw [hne, splitOnce_eq_some.mpr ⟨rfl, hdash⟩]
    refine ⟨_, parseRange_eq_ok.mpr ⟨x, y, z, hx, .inr ⟨last, stride, ?_, hy, hstride⟩, hle, hz,
      rfl⟩, fun i => mem_stepBy hle hz⟩
    exact splitOnce_eq_some.mpr ⟨rfl, hcolon⟩

theorem Denotes.imp {number number' : Text → Item → Prop}
    (h : ∀ text n, number text n → number' text n) {part : Text} {S : Set Item}
    (hd : Denotes number part S) : Denotes number' part S := by
  cases hd with
  | single hn => exact .single (h _ _ hn)
  | range hx hy hle => exact .range (h _ _ hx) (h _ _ hy) hle
  | strided hx hy hz hle hpos => exact .strided (h _ _ hx) (h _ _ hy) (h _ _ hz) hle hpos

/-- A part has the characters of its numbers, a dash and a colon. -/
theorem Denotes.not_mem {number : Text → Item → Prop} {c : Char}
    (hnumber : ∀ text n, number text n → c ∉ text) (hdash : c ≠ '-') (hcolon : c ≠ ':')
    {part : Text} {S : Set Item} (hd : Denotes number part S) : c ∉ part := by
  cases hd with
  | single hn => exact hnumber _ _ hn
  | range hx hy _ =>
    simp only [List.mem_append, List.mem_cons, not_or]
    exact ⟨hnumber _ _ hx, hdash, hnumber _ _ hy⟩
  | strided hx hy hz _ _ =>
    simp only [List.mem_append, List.mem_cons, not_or]
    exact ⟨hnumber _ _ hx, hdash, hnumber _ _ hy, hcolon, hnumber _ _ hz⟩

theorem Denotes.ne_nil {part : Text} {S : Set Item} (h : Denotes Number part S) : part ≠ [] := by
  cases h with
  | single hn => exact hn.nonempty
  | range => exact List.append_ne_nil_of_right_ne_nil _ (List.cons_ne_nil _ _)
  | strided => exact List.append_ne_nil_of_right_ne_nil _ (List.cons_ne_nil _ _)

/-- Without a plus sign the liberty with numbers is not taken. -/
theorem Denotes.number {part : Text} {S : Set Item} (h : Denotes SignedNumber part S)
    (hplus : '+' ∉ part) : Denotes Number part S := by
  cases h with
  | single hn => exact .single (hn.number hplus)
  | range hx hy hle =>
    simp only [List.mem_append, List.mem_cons, not_or] at hplus
    exact .range (hx.number hplus.1) (hy.number hplus.2.2) hle
  | strided hx hy hz hle hpos =>
    simp only [List.mem_append, List.mem_cons, not_or] at hplus
    exact .strided (hx.number hplus.1) (hy.number hplus.2.2.1) (hz.number hplus.2.2.2.2) hle hpos

/-! ## Lists -/

/-- The parser succeeds on the lists with liberties and on no other text. -/
theorem exists_parse_iff {text : Text} : (∃ items, parse text = .ok items) ↔ Lenient text := by
  unfold parse Lenient
  constructor
  · rintro ⟨items, h⟩ part hpart
    obtain ⟨ranges, hranges, -⟩ := map_eq_ok.mp h
    obtain ⟨read, -, hread⟩ := exists_result_of_mapM_eq_ok hranges part hpart
    rcases denotes_of_parsePart hread with h | ⟨S, hS, -⟩
    · exact .inl h.1
    · exact .inr ⟨S, hS⟩
  · intro h
    have hread : ∀ part ∈ text.splitOn ',', ∃ read, parsePart part = .ok read := by
      intro part hpart
      rcases h part hpart with rfl | ⟨S, hS⟩
      · exact ⟨[], rfl⟩
      · obtain ⟨read, hread, -⟩ := parsePart_of_denotes hS
        exact ⟨read, hread⟩
    obtain ⟨ranges, hranges⟩ := exists_forall₂ hread
    exact ⟨_, map_eq_ok.mpr ⟨ranges, mapM_eq_ok_of_forall₂ hranges, rfl⟩⟩

theorem splitOn_of_parts {parts : List Text} {sets : List (Set Item)} (hne : parts ≠ [])
    (h : List.Forall₂ (Denotes Number) parts sets) :
    ([','].intercalate parts).splitOn ',' = parts := by
  refine List.splitOn_intercalate ',' (fun part hpart => ?_) hne
  obtain ⟨S, -, hS⟩ := exists_image_of_forall₂ h part hpart
  exact hS.not_mem (fun _ _ hn => hn.not_mem (by decide)) (by decide) (by decide)

/-- Every documented list is read as the set it denotes, in strict order. -/
theorem parse_of_documented {text : Text} {S : Set Item} (h : Documented text S) :
    ∃ items, parse text = .ok items ∧ items.Pairwise (· < ·) ∧ ∀ i, i ∈ items ↔ i ∈ S := by
  cases h with
  | empty => exact ⟨[], rfl, .nil, fun i => ⟨nofun, nofun⟩⟩
  | @items parts sets hne hparts =>
    have hread : ∃ ranges, parts.mapM parsePart = .ok ranges ∧
        List.Forall₂ (fun range S => ∀ i, i ∈ range ↔ i ∈ S) ranges sets := by
      clear hne
      induction hparts with
      | nil => exact ⟨[], rfl, .nil⟩
      | cons hpart _ ih =>
        obtain ⟨range, hrange, hmem⟩ := parsePart_of_denotes (hpart.imp fun _ _ hn => .inl hn)
        obtain ⟨ranges, hranges, hall⟩ := ih
        refine ⟨range :: ranges, ?_, .cons hmem hall⟩
        rw [List.mapM_cons, hrange, hranges]
        rfl
    obtain ⟨ranges, hranges, hall⟩ := hread
    refine ⟨treeSet ranges.flatten, ?_, strict_treeSet _, fun i => ?_⟩
    · unfold parse
      rw [splitOn_of_parts hne hparts, hranges]
      rfl
    · rw [mem_treeSet, List.mem_flatten]
      constructor
      · rintro ⟨range, hrange, hi⟩
        obtain ⟨S, hS, hmem⟩ := exists_image_of_forall₂ hall range hrange
        exact ⟨S, hS, (hmem i).mp hi⟩
      · rintro ⟨S, hS, hi⟩
        obtain ⟨range, hrange, hmem⟩ := exists_image_of_forall₂ hall.flip S hS
        exact ⟨range, hrange, (hmem i).mpr hi⟩

/-- A documented list has no plus sign, and no empty part unless it is empty. -/
theorem Documented.takes_no_liberty {text : Text} {S : Set Item} (h : Documented text S) :
    '+' ∉ text ∧ (text = [] ∨ [] ∉ text.splitOn ',') := by
  cases h with
  | empty => exact ⟨List.not_mem_nil, .inl rfl⟩
  | @items parts sets hne hparts =>
    have hpart : ∀ part ∈ parts, ∃ S, Denotes Number part S := fun part hmem =>
      let ⟨S, _, hS⟩ := exists_image_of_forall₂ hparts part hmem
      ⟨S, hS⟩
    rw [splitOn_of_parts hne hparts]
    refine ⟨fun hplus => ?_, .inr fun hempty => ?_⟩
    · rcases mem_intercalate hplus with hcomma | ⟨part, hmem, hplus⟩
      · exact absurd (List.mem_singleton.mp hcomma) (by decide)
      · obtain ⟨S, hS⟩ := hpart part hmem
        exact hS.not_mem (fun _ _ hn => hn.not_mem (by decide)) (by decide) (by decide) hplus
    · obtain ⟨S, hS⟩ := hpart [] hempty
      exact hS.ne_nil rfl

theorem documented_of_lenient {text : Text} (h : Lenient text) (hplus : '+' ∉ text)
    (hempty : text = [] ∨ [] ∉ text.splitOn ',') : ∃ S, Documented text S := by
  rcases hempty with rfl | hempty
  · exact ⟨∅, .empty⟩
  have hpart : ∀ part ∈ text.splitOn ',', ∃ S, Denotes Number part S := by
    intro part hmem
    rcases h part hmem with rfl | ⟨S, hS⟩
    · exact absurd hmem hempty
    · refine ⟨S, hS.number fun hin => hplus ?_⟩
      have hjoin : [','].intercalate (text.splitOn ',') = text := List.intercalate_splitOn ','
      rw [← hjoin]
      exact mem_intercalate_of_mem hmem hin
  obtain ⟨sets, hsets⟩ := exists_forall₂ hpart
  have hdoc := Documented.items (List.splitOn_ne_nil ',' text) hsets
  rw [List.intercalate_splitOn] at hdoc
  exact ⟨_, hdoc⟩

/-- The parser does with the text what the documentation says of it. -/
def KeepsGrammar (text : Text) : Prop :=
  ((∃ items, parse text = .ok items) ↔ ∃ S, Documented text S) ∧
    ∀ S, Documented text S → ∀ items, parse text = .ok items →
      items.Pairwise (· < ·) ∧ ∀ i, i ∈ items ↔ i ∈ S

/-- The documentation is kept unless the text is a list with a plus sign or
with an empty part. -/
theorem keepsGrammar_iff (text : Text) : KeepsGrammar text ↔
    ¬(Lenient text ∧ ('+' ∈ text ∨ (text ≠ [] ∧ [] ∈ text.splitOn ','))) := by
  constructor
  · rintro ⟨hiff, -⟩ ⟨hlenient, hliberty⟩
    obtain ⟨S, hS⟩ := hiff.mp (exists_parse_iff.mpr hlenient)
    obtain ⟨hplus, hempty⟩ := hS.takes_no_liberty
    rcases hliberty with h | ⟨hne, hmem⟩
    · exact hplus h
    · exact hempty.elim hne fun hnot => hnot hmem
  · intro h
    refine ⟨⟨fun hparse => ?_, fun ⟨S, hS⟩ => ?_⟩, fun S hS items hitems => ?_⟩
    · have hlenient := exists_parse_iff.mp hparse
      by_contra hnone
      refine h ⟨hlenient, ?_⟩
      by_contra hliberty
      rw [not_or] at hliberty
      refine hnone (documented_of_lenient hlenient hliberty.1 ?_)
      by_cases hnil : text = []
      · exact .inl hnil
      · exact .inr fun hmem => hliberty.2 ⟨hnil, hmem⟩
    · obtain ⟨items, hitems, -⟩ := parse_of_documented hS
      exact ⟨items, hitems⟩
    · obtain ⟨items', hitems', hspec⟩ := parse_of_documented hS
      rw [hitems] at hitems'
      rwa [Except.ok.inj hitems']

/-- A number with a sign is read. -/
theorem not_keepsGrammar_signed : ¬KeepsGrammar ['+', '1'] := by
  rintro ⟨hiff, -⟩
  obtain ⟨S, hS⟩ := hiff.mp ⟨[1], rfl⟩
  exact hS.takes_no_liberty.1 (List.mem_cons_self ..)

end Folo.Cpulist
