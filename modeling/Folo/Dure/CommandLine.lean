import Folo.Lib.Quoting

/-!
# Windows command lines

`pal/processes/command_line.rs` and the `quote_windows_arg` of `app_command.rs`:
the line that `CreateProcessW` is given, in UTF-16, and the text that is shown
for it. Counts of backslashes stay far below what saturates. What follows the
executable is split into the arguments again, whatever units they consist of,
and both ways to quote agree (`windowsCommandLine_splits`).
-/

namespace Folo.Dure.CommandLine

open Folo.Lib

/-! ## UTF-16 -/

def quote : UInt16 := 0x22
def backslash : UInt16 := 0x5C
def space : UInt16 := 0x20
def tab : UInt16 := 0x09
def newline : UInt16 := 0x0A
def carriageReturn : UInt16 := 0x0D

/-- The code units of a character. -/
def encodeChar (c : Char) : List UInt16 :=
  let v := c.val.toNat
  if v < 0x10000 then [UInt16.ofNat v]
  else
    [UInt16.ofNat (0xD800 + (v - 0x10000) / 0x400), UInt16.ofNat (0xDC00 + (v - 0x10000) % 0x400)]

/-- `encode_wide` of a text. -/
def encode (text : List Char) : List UInt16 := text.flatMap encodeChar

/-- How `CommandLineToArgvW` splits: at spaces and tabs. -/
def wideMarks : Marks UInt16 where
  quote := quote
  backslash := backslash
  separates unit := unit = space || unit = tab
  quote_ne := by decide
  not_separates_quote := by decide
  not_separates_backslash := by decide

def charMarks : Marks Char where
  quote := '"'
  backslash := '\\'
  separates c := c = ' ' || c = '\t'
  quote_ne := by decide
  not_separates_quote := by decide
  not_separates_backslash := by decide

/-! ## Quoting -/

def quoteWide (arg : List UInt16) : List UInt16 :=
  if arg.isEmpty then [quote, quote]
  else
    let needsQuotes := arg.any fun unit =>
      [space, tab, newline, carriageReturn, quote].contains unit
    if !needsQuotes then arg else quote :: wideMarks.quoteFrom 0 arg

/-- `quote_windows_arg`, which looks for what needs quotes among the bytes. -/
def quoteWindowsArg (arg : List Char) : List Char :=
  if arg.isEmpty then ['"', '"']
  else
    let needsQuotes := (arg.flatMap String.utf8EncodeChar).any fun byte =>
      [0x20, 0x09, 0x0A, 0x0D, 0x22].contains byte
    if !needsQuotes then arg else '"' :: charMarks.quoteFrom 0 arg

/-- The loop over the arguments. -/
def appendArgs (line : List UInt16) (args : List (List UInt16)) : List UInt16 :=
  args.foldl (fun line arg => line ++ space :: quoteWide arg) line

def windowsCommandLine (exe : List UInt16) (args : List (List Char)) : List UInt16 :=
  appendArgs (quoteWide exe) (args.map encode)

theorem reads_quoteWide (arg : List UInt16) : wideMarks.Reads (quoteWide arg) arg := by
  unfold quoteWide
  split
  next hempty =>
    rw [List.isEmpty_iff.mp hempty]
    exact Marks.reads_empty
  next hne =>
    dsimp only
    split
    next hplain =>
      refine Marks.reads_self (fun hnil => hne (List.isEmpty_iff.mpr hnil)) fun unit hunit => ?_
      rw [Bool.not_eq_true', List.any_eq_false] at hplain
      have hno := hplain unit hunit
      simp only [List.contains_eq_mem, List.mem_cons, List.not_mem_nil, or_false,
        decide_eq_true_eq, not_or] at hno
      refine ⟨hno.2.2.2.2, ?_⟩
      show (decide (unit = space) || decide (unit = tab)) = false
      rw [Bool.or_eq_false_iff]
      exact ⟨decide_eq_false hno.1, decide_eq_false hno.2.1⟩
    next => exact Marks.reads_quoted arg

theorem appendArgs_eq (line : List UInt16) (args : List (List UInt16)) :
    appendArgs line args = line ++ args.flatMap fun arg => space :: quoteWide arg := by
  unfold appendArgs
  induction args generalizing line with
  | nil => exact (List.append_nil _).symm
  | cons arg args ih => rw [List.foldl_cons, ih, List.flatMap_cons, List.append_assoc]

/-! ## Texts and their units -/

theorem val_lt (c : Char) : c.val.toNat < 0x110000 := by
  rcases c.valid with h | h
  · exact Nat.lt_trans h (by decide)
  · exact h.2

/-- An ASCII unit is that of its character, and part of no other one's. -/
theorem mem_encodeChar {c : Char} {unit : UInt16} (h : unit.toNat < 0x80) :
    unit ∈ encodeChar c ↔ c.val.toNat = unit.toNat := by
  have hc := val_lt c
  have hofNat : ∀ n, n < 0x10000 → (unit = UInt16.ofNat n ↔ unit.toNat = n) := by
    intro n hn
    rw [← UInt16.toNat_inj, UInt16.toNat_ofNat', Nat.mod_eq_of_lt hn]
  unfold encodeChar
  dsimp only
  split
  next hlow =>
    rw [List.mem_singleton, hofNat _ hlow]
    exact eq_comm
  next hhigh =>
    simp only [List.mem_cons, List.not_mem_nil, or_false]
    rw [hofNat _ (by omega), hofNat _ (by omega)]
    omega

theorem mem_utf8EncodeChar {c : Char} {byte : UInt8} (h : byte.toNat < 0x80) :
    byte ∈ String.utf8EncodeChar c ↔ c.val.toNat = byte.toNat := by
  have hc := val_lt c
  have hofNat : ∀ n, n < 0x100 → (byte = UInt8.ofNat n ↔ byte.toNat = n) := by
    intro n hn
    rw [← UInt8.toNat_inj, UInt8.toNat_ofNat', Nat.mod_eq_of_lt hn]
  unfold String.utf8EncodeChar
  dsimp only
  split_ifs
  · rw [List.mem_singleton, hofNat _ (by omega)]
    exact eq_comm
  all_goals
    simp only [List.mem_cons, List.not_mem_nil, or_false]
    repeat rw [hofNat _ (by omega)]
    omega

theorem encodeChar_ne_nil (c : Char) : encodeChar c ≠ [] := by
  unfold encodeChar
  dsimp only
  split <;> exact List.cons_ne_nil _ _

theorem encode_isEmpty (text : List Char) : (encode text).isEmpty = text.isEmpty := by
  cases text with
  | nil => rfl
  | cons c rest =>
    have hne : encode (c :: rest) ≠ [] := by
      unfold encode
      rw [List.flatMap_cons]
      exact List.append_ne_nil_of_left_ne_nil (encodeChar_ne_nil c) _
    rw [List.isEmpty_eq_false_iff.mpr hne]
    rfl

/-- The bytes of a text and its units need quotes together. -/
theorem needsQuotes_encode (text : List Char) :
    ((encode text).any fun unit => [space, tab, newline, carriageReturn, quote].contains unit) =
      (text.flatMap String.utf8EncodeChar).any fun byte =>
        [0x20, 0x09, 0x0A, 0x0D, 0x22].contains byte := by
  rw [Bool.eq_iff_iff]
  simp only [encode, List.any_flatMap, List.any_eq_true, List.contains_eq_mem, decide_eq_true_eq,
    List.mem_cons, List.not_mem_nil, or_false]
  refine exists_congr fun c => and_congr_right fun _ => ?_
  simp only [and_or_left, exists_or, exists_eq_right]
  rw [mem_encodeChar (by decide), mem_encodeChar (by decide), mem_encodeChar (by decide),
    mem_encodeChar (by decide), mem_encodeChar (by decide), mem_utf8EncodeChar (by decide),
    mem_utf8EncodeChar (by decide), mem_utf8EncodeChar (by decide),
    mem_utf8EncodeChar (by decide), mem_utf8EncodeChar (by decide)]
  rfl

/-- Both ways to quote give the same text. -/
theorem encode_quoteWindowsArg (arg : List Char) :
    encode (quoteWindowsArg arg) = quoteWide (encode arg) := by
  have hplain : ∀ c : Char, c ≠ charMarks.backslash → c ≠ charMarks.quote →
      encodeChar c ≠ [] ∧ ∀ u ∈ encodeChar c, u ≠ wideMarks.backslash ∧ u ≠ wideMarks.quote := by
    intro c hbackslash hquote
    refine ⟨encodeChar_ne_nil c, fun u hu => ⟨?_, ?_⟩⟩
    · rintro rfl
      exact hbackslash (Char.ext (UInt32.toNat.inj ((mem_encodeChar (by decide)).mp hu)))
    · rintro rfl
      exact hquote (Char.ext (UInt32.toNat.inj ((mem_encodeChar (by decide)).mp hu)))
  unfold quoteWindowsArg quoteWide
  rw [encode_isEmpty]
  dsimp only
  rw [needsQuotes_encode]
  split
  next => rfl
  next =>
    split
    next => rfl
    next =>
      show encodeChar '"' ++ (charMarks.quoteFrom 0 arg).flatMap encodeChar = _
      rw [Marks.quoteFrom_flatMap rfl rfl hplain]
      rfl

/-- **Quoting round-trips**: the line is the executable and then what splits
into the arguments, of any units, and what is shown is what is quoted. -/
theorem windowsCommandLine_splits (exe : List UInt16) (args : List (List Char))
    (wide : List (List UInt16)) :
    (∃ rest, windowsCommandLine exe args = quoteWide exe ++ rest ∧
      wideMarks.splitLine rest = args.map encode) ∧
    (∃ rest, appendArgs (quoteWide exe) wide = quoteWide exe ++ rest ∧
      wideMarks.splitLine rest = wide) ∧
    ∀ arg, encode (quoteWindowsArg arg) = quoteWide (encode arg) := by
  have hsplit : ∀ wide : List (List UInt16),
      wideMarks.splitLine (wide.flatMap fun arg => space :: quoteWide arg) = wide := by
    intro wide
    have hseparates : wideMarks.separates space = true := by decide
    exact (Marks.splitLine_flatMap hseparates fun arg _ => reads_quoteWide arg).trans
      (List.map_id wide)
  refine ⟨⟨_, appendArgs_eq _ _, hsplit _⟩, ⟨_, appendArgs_eq _ _, hsplit _⟩,
    encode_quoteWindowsArg⟩

end Folo.Dure.CommandLine
