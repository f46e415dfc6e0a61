import Folo.ReleasePlan.Diffs
import Mathlib.Algebra.GroupWithZero.Nat

/-!
# Applying a rendered diff

A reader of unified diffs, and what it does with the text of `fileDiff`: the
hunks read back as they were rendered (`readPatch_eq`), and they turn the old
lines into the new ones (`applyHunks_regions`), wherever the edit script kept
lines between them.
-/

namespace Folo.ReleasePlan

open Folo.Lib

/-! ## The reader -/

structure Hunk where
  oldStart : Nat
  newStart : Nat
  removed : List Text
  added : List Text
  deriving DecidableEq

structure HunkHeader where
  oldStart : Nat
  oldLen : Nat
  newStart : Nat
  newLen : Nat

/-- What follows an expected text. -/
def skip (expected text : Text) : Option Text :=
  if expected <+: text then some (text.drop expected.length) else none

/-- A number and what follows its digits. -/
def readNumber (text : Text) : Option (Nat × Text) :=
  match text.takeWhile Char.isDigit with
  | [] => none
  | digits => some (Nat.ofDigitChars 10 digits 0, text.dropWhile Char.isDigit)

def readHeader (line : Text) : Option HunkHeader := do
  let oldStart ← readNumber (← skip "@@ -".toList line)
  let oldLen ← readNumber (← skip [','] oldStart.2)
  let newStart ← readNumber (← skip " +".toList oldLen.2)
  let newLen ← readNumber (← skip [','] newStart.2)
  if newLen.2 = " @@\n".toList then some ⟨oldStart.1, oldLen.1, newStart.1, newLen.1⟩ else none

/-- A line of a side. The notice after it says that it has no terminator. -/
def readLine (marker : Char) : List Text → Option (Text × List Text)
  | [] => none
  | line :: lines =>
    match line with
    | [] => none
    | c :: line =>
      if c = marker then
        match lines with
        | [] => some (line, [])
        | next :: rest =>
          if next.head? = some '\\' then some (line.dropLast, rest) else some (line, next :: rest)
      else none

def readLines (marker : Char) : Nat → List Text → Option (List Text × List Text)
  | 0, lines => some ([], lines)
  | n + 1, lines => do
    let first ← readLine marker lines
    let others ← readLines marker n first.2
    some (first.1 :: others.1, others.2)

/-- The hunks, of which there are no more than lines. -/
def readHunks : Nat → List Text → Option (List Hunk)
  | _, [] => some []
  | 0, _ :: _ => none
  | fuel + 1, line :: lines => do
    let header ← readHeader line
    let removed ← readLines '-' header.oldLen lines
    let added ← readLines '+' header.newLen removed.2
    let hunks ← readHunks fuel added.2
    some (⟨header.oldStart, header.newStart, removed.1, added.1⟩ :: hunks)

/-- The lines after the label of the new side. -/
def hunkText (text : Text) : List Text :=
  ((splitInclusive text).dropWhile fun line => ¬ "+++ ".toList <+: line).tail

def readPatch (text : Text) : Option (List Hunk) :=
  readHunks (hunkText text).length (hunkText text)

/-- The zero-based line that a hunk starts at on a side: a start is the number
of its first line, or of the line before it when it has none. -/
def startIndex : Nat → Nat → Option Nat
  | start, 0 => some start
  | 0, _ + 1 => none
  | start + 1, _ + 1 => some start

/-- Applies hunks to the lines that are left, at a position of both sides. -/
def applyHunks : List Hunk → List Text → Nat → Nat → Option (List Text)
  | [], lines, _, _ => some lines
  | hunk :: hunks, lines, oldIndex, newIndex => do
    let oldStart ← startIndex hunk.oldStart hunk.removed.length
    let newStart ← startIndex hunk.newStart hunk.added.length
    let kept := oldStart - oldIndex
    if oldIndex ≤ oldStart ∧ kept ≤ lines.length ∧ newIndex + kept = newStart ∧
        hunk.removed <+: lines.drop kept then
      let after ← applyHunks hunks (lines.drop (kept + hunk.removed.length))
        (oldStart + hunk.removed.length) (newStart + hunk.added.length)
      some (lines.take kept ++ hunk.added ++ after)
    else none

/-- What a diff makes of a text. -/
def applyPatch (text old : Text) : Option Text := do
  let hunks ← readPatch text
  let lines ← applyHunks hunks (splitInclusive old) 0 0
  some lines.flatten

/-! ## The lines of a hunk -/

/-- The lines of a diff that are a line of a side. -/
def diffLines (marker : Char) (line : Text) : List Text :=
  if line.getLast? = some '\n' then [marker :: line] else [marker :: line ++ ['\n'], noNewline]

def headerLine (region : ChangedRegion) (removed added : Nat) : Text :=
  "@@ -".toList ++ number (hunkStart region.oldStart removed) ++ ',' :: number removed ++
    " +".toList ++ number (hunkStart region.newStart added) ++ ',' :: number added ++
    " @@\n".toList

def hunkLines (old new : List Text) (region : ChangedRegion) : List Text :=
  headerLine region (linesOf old region.oldStart region.oldEnd).length
      (linesOf new region.newStart region.newEnd).length ::
    (linesOf old region.oldStart region.oldEnd).flatMap (diffLines '-') ++
    (linesOf new region.newStart region.newEnd).flatMap (diffLines '+')

def hunkOf (old new : List Text) (region : ChangedRegion) : Hunk where
  oldStart := hunkStart region.oldStart (linesOf old region.oldStart region.oldEnd).length
  newStart := hunkStart region.newStart (linesOf new region.newStart region.newEnd).length
  removed := linesOf old region.oldStart region.oldEnd
  added := linesOf new region.newStart region.newEnd

theorem foldl_pushDiffLine (marker : Char) (lines : List Text) (out : Text) :
    lines.foldl (fun out line => pushDiffLine out marker line) out =
      out ++ (lines.flatMap (diffLines marker)).flatten := by
  induction lines generalizing out with
  | nil => exact (List.append_nil _).symm
  | cons line lines ih =>
    have hline : pushDiffLine out marker line = out ++ (diffLines marker line).flatten := by
      unfold pushDiffLine diffLines
      by_cases hterminated : line.getLast? = some '\n'
      · rw [if_pos hterminated, if_pos hterminated]
        simp
      · rw [if_neg hterminated, if_neg hterminated]
        simp
    rw [List.foldl_cons, ih, hline, List.flatMap_cons, List.flatten_append, List.append_assoc]

theorem renderRegion_eq (old new : List Text) (out : FileDiff) (region : ChangedRegion) :
    renderRegion old new out region =
      { text := out.text ++ (hunkLines old new region).flatten
        insertions := out.insertions + (hunkOf old new region).added.length
        deletions := out.deletions + (hunkOf old new region).removed.length } := by
  unfold renderRegion
  dsimp only
  rw [foldl_pushDiffLine, foldl_pushDiffLine]
  unfold hunkLines headerLine
  simp [hunkOf]

/-- The loop renders the hunks of all regions, and counts their lines. -/
theorem foldl_renderRegion (old new : List Text) (regions : List ChangedRegion) (out : FileDiff) :
    regions.foldl (renderRegion old new) out =
      { text := out.text ++ (regions.flatMap (hunkLines old new)).flatten
        insertions := out.insertions +
          (regions.map fun region => (hunkOf old new region).added.length).sum
        deletions := out.deletions +
          (regions.map fun region => (hunkOf old new region).removed.length).sum } := by
  induction regions generalizing out with
  | nil => simp
  | cons region regions ih =>
    rw [List.foldl_cons, ih, renderRegion_eq]
    simp [Nat.add_assoc]

/-! ## Reading back -/

theorem skip_append (expected text : Text) : skip expected (expected ++ text) = some text := by
  unfold skip
  rw [if_pos (List.prefix_append ..), List.drop_left]

/-- A number reads back in front of anything that is not a digit. -/
theorem readNumber_append (n : Nat) {c : Char} (hc : c.isDigit = false) (text : Text) :
    readNumber (number n ++ c :: text) = some (n, c :: text) := by
  have hdigits : ∀ d ∈ number n, d.isDigit = true := fun d hd =>
    Nat.isDigit_of_mem_toDigits (by omega) (by omega) hd
  unfold readNumber
  rw [List.takeWhile_append_of_pos hdigits, List.dropWhile_append_of_pos hdigits,
    List.takeWhile_cons_of_neg (by rw [hc]; exact Bool.false_ne_true),
    List.dropWhile_cons_of_neg (by rw [hc]; exact Bool.false_ne_true), List.append_nil]
  split
  next hnil => exact absurd hnil Nat.toDigits_ne_nil
  next => rw [number, Nat.ofDigitChars_ten_toDigits]

theorem readHeader_headerLine (region : ChangedRegion) (removed added : Nat) :
    readHeader (headerLine region removed added) =
      some ⟨hunkStart region.oldStart removed, removed, hunkStart region.newStart added, added⟩ := by
  unfold readHeader headerLine
  simp only [List.append_assoc, List.cons_append]
  rw [skip_append]
  simp only [Option.bind_eq_bind, Option.bind_some]
  rw [readNumber_append _ rfl]
  simp only [Option.bind_some]
  rw [show ∀ text : Text, skip [','] (',' :: text) = some text from skip_append [',']]
  simp only [Option.bind_some]
  rw [show ∀ text : Text, " +".toList ++ text = ' ' :: '+' :: text from fun _ => rfl]
  rw [readNumber_append _ rfl]
  simp only [Option.bind_some]
  rw [show ∀ text : Text, skip " +".toList (' ' :: '+' :: text) = some text from
    skip_append " +".toList]
  simp only [Option.bind_some]
  rw [readNumber_append _ rfl]
  simp only [Option.bind_some]
  rw [show ∀ text : Text, skip [','] (',' :: text) = some text from skip_append [',']]
  simp only [Option.bind_some]
  rw [show " @@\n".toList = ' ' :: "@@\n".toList from rfl, readNumber_append _ rfl]
  simp only [Option.bind_some, if_true]

/-- A line of a text with something in it. -/
def Line (line : Text) : Prop := FullLine line ∨ '\n' ∉ line

/-- What is left does not begin with a notice. -/
def NoNotice (lines : List Text) : Prop := ∀ line ∈ lines.head?, line.head? ≠ some '\\'

theorem readLine_diffLines {marker : Char} {line : Text} (hline : Line line) {rest : List Text}
    (hrest : NoNotice rest) :
    readLine marker (diffLines marker line ++ rest) = some (line, rest) := by
  unfold diffLines
  rcases hline with ⟨body, -, rfl⟩ | hnone
  · rw [if_pos (List.getLast?_concat ..), List.singleton_append]
    unfold readLine
    dsimp only
    rw [if_pos rfl]
    cases rest with
    | nil => rfl
    | cons next rest =>
      dsimp only
      rw [if_neg (hrest next rfl)]
  · rw [if_neg fun hlast => hnone (List.mem_of_getLast? hlast)]
    show readLine marker ((marker :: (line ++ ['\n'])) :: noNewline :: rest) = _
    unfold readLine
    dsimp only
    rw [if_pos rfl, if_pos (show noNewline.head? = some '\\' from rfl), List.dropLast_concat]

theorem noNotice_diffLines {marker : Char} (hmarker : marker ≠ '\\') {rest : List Text}
    (hrest : NoNotice rest) (lines : List Text) :
    NoNotice (lines.flatMap (diffLines marker) ++ rest) := by
  cases lines with
  | nil => exact hrest
  | cons line lines =>
    intro first hfirst
    rw [List.flatMap_cons, List.append_assoc] at hfirst
    unfold diffLines at hfirst
    split at hfirst
    next =>
      obtain rfl := Option.some.inj hfirst
      exact fun heq => hmarker (Option.some.inj heq)
    next =>
      obtain rfl := Option.some.inj hfirst
      exact fun heq => hmarker (Option.some.inj heq)

theorem readLines_diffLines {marker : Char} (hmarker : marker ≠ '\\') {lines rest : List Text}
    (hlines : ∀ line ∈ lines, Line line) (hrest : NoNotice rest) :
    readLines marker lines.length (lines.flatMap (diffLines marker) ++ rest) =
      some (lines, rest) := by
  induction lines with
  | nil => rfl
  | cons line lines ih =>
    obtain ⟨hline, hlines⟩ := List.forall_mem_cons.mp hlines
    rw [List.length_cons, List.flatMap_cons, List.append_assoc]
    unfold readLines
    rw [readLine_diffLines hline (noNotice_diffLines hmarker hrest lines)]
    simp only [Option.bind_eq_bind, Option.bind_some]
    rw [ih hlines]
    rfl

/-- The lines of a side are lines of its text. -/
theorem line_of_mem_linesOf {text : Text} {first last : Nat} {line : Text}
    (h : line ∈ linesOf (splitInclusive text) first last) : Line line := by
  unfold linesOf at h
  split at h
  next => exact line_of_mem_splitInclusive (List.mem_of_mem_drop (List.mem_of_mem_take h))
  next => nomatch h

theorem noNotice_hunks (old new : List Text) (regions : List ChangedRegion) :
    NoNotice (regions.flatMap (hunkLines old new)) := by
  cases regions with
  | nil => nofun
  | cons region regions =>
    intro line hline
    obtain rfl := Option.some.inj hline
    exact nofun

/-- The hunks read back as they were rendered. -/
theorem readHunks_hunkLines (old new : Text) (regions : List ChangedRegion) (fuel : Nat)
    (hfuel : (regions.flatMap (hunkLines (splitInclusive old) (splitInclusive new))).length ≤
      fuel) :
    readHunks fuel (regions.flatMap (hunkLines (splitInclusive old) (splitInclusive new))) =
      some (regions.map (hunkOf (splitInclusive old) (splitInclusive new))) := by
  induction regions generalizing fuel with
  | nil =>
    unfold readHunks
    rfl
  | cons region regions ih =>
    have hnext := noNotice_hunks (splitInclusive old) (splitInclusive new) regions
    rw [List.flatMap_cons] at hfuel ⊢
    have hlines : hunkLines (splitInclusive old) (splitInclusive new) region ++
        regions.flatMap (hunkLines (splitInclusive old) (splitInclusive new)) =
        headerLine region (linesOf (splitInclusive old) region.oldStart region.oldEnd).length
          (linesOf (splitInclusive new) region.newStart region.newEnd).length ::
          ((linesOf (splitInclusive old) region.oldStart region.oldEnd).flatMap (diffLines '-') ++
          ((linesOf (splitInclusive new) region.newStart region.newEnd).flatMap (diffLines '+') ++
          regions.flatMap (hunkLines (splitInclusive old) (splitInclusive new)))) := by
      unfold hunkLines
      simp only [List.cons_append, List.append_assoc]
    rw [hlines] at hfuel ⊢
    cases fuel with
    | zero => nomatch hfuel
    | succ fuel =>
      simp only [List.length_cons, List.length_append] at hfuel
      unfold readHunks
      rw [readHeader_headerLine]
      simp only [Option.bind_eq_bind, Option.bind_some]
      rw [readLines_diffLines (by decide) (fun line hline => line_of_mem_linesOf hline)
        (noNotice_diffLines (by decide) hnext _)]
      simp only [Option.bind_some]
      rw [readLines_diffLines (by decide) (fun line hline => line_of_mem_linesOf hline) hnext]
      simp only [Option.bind_some]
      rw [ih fuel (by omega)]
      rfl

/-! ## The lines of a diff -/

theorem not_newline_mem_number (n : Nat) : '\n' ∉ number n := fun h => by
  have hdigit := Nat.isDigit_of_mem_toDigits (by omega) (by omega) h
  exact absurd hdigit (by decide)

theorem fullLine_append {front line : Text} (hfront : '\n' ∉ front) (h : FullLine line) :
    FullLine (front ++ line) := by
  obtain ⟨body, hbody, rfl⟩ := h
  refine ⟨front ++ body, fun hin => ?_, (List.append_assoc ..).symm⟩
  exact (List.mem_append.mp hin).elim hfront hbody

theorem fullLine_cons {c : Char} (hc : c ≠ '\n') {line : Text} (h : FullLine line) :
    FullLine (c :: line) :=
  have hfront : '\n' ∉ [c] := fun hin => hc (List.mem_singleton.mp hin).symm
  fullLine_append hfront h

theorem fullLine_diffLines {marker : Char} (hmarker : marker ≠ '\n') {line : Text}
    (hline : Line line) : ∀ rendered ∈ diffLines marker line, FullLine rendered := by
  intro rendered h
  unfold diffLines at h
  rcases hline with hfull | hnone
  · have hlast : line.getLast? = some '\n' := by
      obtain ⟨body, -, rfl⟩ := hfull
      exact List.getLast?_concat ..
    rw [if_pos hlast] at h
    rw [List.mem_singleton.mp h]
    exact fullLine_cons hmarker hfull
  · rw [if_neg fun hlast => hnone (List.mem_of_getLast? hlast)] at h
    rcases List.mem_cons.mp h with rfl | h
    · exact fullLine_cons hmarker ⟨line, hnone, rfl⟩
    · rw [List.mem_singleton.mp h]
      exact ⟨noNewline.dropLast, by decide, rfl⟩

theorem fullLine_headerLine (region : ChangedRegion) (removed added : Nat) :
    FullLine (headerLine region removed added) := by
  unfold headerLine
  simp only [List.append_assoc, List.cons_append]
  refine fullLine_append (by decide) (fullLine_append (not_newline_mem_number _) ?_)
  refine fullLine_cons (by decide) (fullLine_append (not_newline_mem_number _) ?_)
  refine fullLine_append (by decide) (fullLine_append (not_newline_mem_number _) ?_)
  refine fullLine_cons (by decide) (fullLine_append (not_newline_mem_number _) ?_)
  exact ⟨" @@".toList, by decide, rfl⟩

theorem fullLine_hunkLines (old new : Text) (region : ChangedRegion) :
    ∀ line ∈ hunkLines (splitInclusive old) (splitInclusive new) region, FullLine line := by
  intro line h
  unfold hunkLines at h
  rcases List.mem_append.mp h with h | h
  · rcases List.mem_cons.mp h with rfl | h
    · exact fullLine_headerLine ..
    · obtain ⟨source, hsource, h⟩ := List.mem_flatMap.mp h
      exact fullLine_diffLines (by decide) (line_of_mem_linesOf hsource) line h
  · obtain ⟨source, hsource, h⟩ := List.mem_flatMap.mp h
    exact fullLine_diffLines (by decide) (line_of_mem_linesOf hsource) line h

/-- A label of a side. -/
theorem not_newline_mem_sideLabel (present : Bool) (side : Char) (path : Text) :
    '\n' ∉ sideLabel present side path := by
  unfold sideLabel
  split
  next => exact newline_not_mem_quotePath _
  next => decide

/-- The extended headers: full lines, none of them a label of the new side. -/
def Preamble (header : Text) : Prop :=
  ∃ lines : List Text, header = lines.flatten ∧
    ∀ line ∈ lines, FullLine line ∧ ¬ "+++ ".toList <+: line

theorem preamble_presenceHeader (path : Text) (mode : TreeMode) {change : Text}
    (hchange : change = "new".toList ∨ change = "deleted".toList) :
    Preamble (presenceHeader path change mode) := by
  refine ⟨["diff --git ".toList ++ quotePath ('a' :: '/' :: path) ++ ' ' ::
    quotePath ('b' :: '/' :: path) ++ ['\n'],
    change ++ " file mode ".toList ++ mode.text ++ ['\n']], ?_, fun line hline => ?_⟩
  · unfold presenceHeader
    simp
  · rcases List.mem_cons.mp hline with rfl | hline
    · refine ⟨⟨_, fun hin => ?_, rfl⟩, fun hprefix => ?_⟩
      · rcases List.mem_append.mp hin with hin | hin
        · rcases List.mem_append.mp hin with hin | hin
          · exact absurd hin (by decide)
          · exact newline_not_mem_quotePath _ hin
        · rcases List.mem_cons.mp hin with h | hin
          · nomatch h
          · exact newline_not_mem_quotePath _ hin
      · obtain ⟨rest, heq⟩ := hprefix
        nomatch (List.cons.inj heq).1
    · rw [List.mem_singleton.mp hline]
      rcases hchange with rfl | rfl
      · cases mode with
        | regular => exact ⟨⟨_, by decide, rfl⟩, by decide⟩
        | executable => exact ⟨⟨_, by decide, rfl⟩, by decide⟩
      · cases mode with
        | regular => exact ⟨⟨_, by decide, rfl⟩, by decide⟩
        | executable => exact ⟨⟨_, by decide, rfl⟩, by decide⟩

/-- The text of a diff with its labels: the hunks are what follows them. -/
theorem hunkText_eq {header : Text} (hheader : Preamble header) (path : Text)
    (oldPresent newPresent : Bool) {lines : List Text} (hlines : ∀ line ∈ lines, FullLine line) :
    hunkText (header ++ "--- ".toList ++ sideLabel oldPresent 'a' path ++ "\n+++ ".toList ++
      sideLabel newPresent 'b' path ++ '\n' :: lines.flatten) = lines := by
  obtain ⟨preamble, rfl, hpreamble⟩ := hheader
  have hold : FullLine ("--- ".toList ++ (sideLabel oldPresent 'a' path ++ ['\n'])) :=
    fullLine_append (by decide) ⟨_, not_newline_mem_sideLabel _ _ _, rfl⟩
  have hnew : FullLine ("+++ ".toList ++ (sideLabel newPresent 'b' path ++ ['\n'])) :=
    fullLine_append (by decide) ⟨_, not_newline_mem_sideLabel _ _ _, rfl⟩
  have htext : preamble.flatten ++ "--- ".toList ++ sideLabel oldPresent 'a' path ++
      "\n+++ ".toList ++ sideLabel newPresent 'b' path ++ '\n' :: lines.flatten =
      (preamble ++ ("--- ".toList ++ (sideLabel oldPresent 'a' path ++ ['\n'])) ::
        ("+++ ".toList ++ (sideLabel newPresent 'b' path ++ ['\n'])) :: lines).flatten := by
    simp
  have hall : ∀ line ∈ preamble ++ ("--- ".toList ++ (sideLabel oldPresent 'a' path ++ ['\n'])) ::
      ("+++ ".toList ++ (sideLabel newPresent 'b' path ++ ['\n'])) :: lines, FullLine line := by
    intro line hline
    rcases List.mem_append.mp hline with hline | hline
    · exact (hpreamble line hline).1
    · rcases List.mem_cons.mp hline with rfl | hline
      · exact hold
      · rcases List.mem_cons.mp hline with rfl | hline
        · exact hnew
        · exact hlines line hline
  have holdLabel : ¬ "+++ ".toList <+: "--- ".toList ++
      (sideLabel oldPresent 'a' path ++ ['\n']) := fun hprefix => by
    obtain ⟨rest, heq⟩ := hprefix
    nomatch (List.cons.inj heq).1
  have hnewLabel : "+++ ".toList <+: "+++ ".toList ++
      (sideLabel newPresent 'b' path ++ ['\n']) := List.prefix_append ..
  unfold hunkText
  rw [htext, splitInclusive_flatten hall,
    List.dropWhile_append_of_pos fun line hline => decide_eq_true (hpreamble line hline).2]
  rw [List.dropWhile_cons, if_pos (decide_eq_true holdLabel), List.dropWhile_cons]
  split
  next hnot => exact absurd hnewLabel (of_decide_eq_true hnot)
  next => rfl

/-! ## Applying the hunks -/

theorem linesOf_eq {lines : List Text} {first last : Nat} (hfirst : first ≤ last)
    (hlast : last ≤ lines.length) :
    linesOf lines first last = (lines.drop first).take (last - first) := by
  unfold linesOf
  rw [if_pos ⟨hfirst, hlast⟩]

theorem length_linesOf {lines : List Text} {first last : Nat} (hfirst : first ≤ last)
    (hlast : last ≤ lines.length) : (linesOf lines first last).length = last - first := by
  rw [linesOf_eq hfirst hlast, List.length_take, List.length_drop]
  omega

theorem startIndex_hunkStart (start len : Nat) :
    startIndex (hunkStart start len) len = some start := by
  unfold hunkStart
  cases len with
  | zero => rw [if_pos rfl]; rfl
  | succ len => rw [if_neg (by omega)]; rfl

/-- The lines up to a position, then the ones from it. -/
theorem take_append_drop_of_le (lines : List Text) {first last : Nat} (h : first ≤ last) :
    (lines.drop first).take (last - first) ++ lines.drop last = lines.drop first := by
  conv_rhs => rw [← List.take_append_drop (last - first) (lines.drop first)]
  rw [List.drop_drop, show first + (last - first) = last by omega]

variable {old new : List Text}

/-- A hunk puts the new lines of its region after what is kept before it. -/
theorem applyHunks_cons {p i₀ i q j₀ j : Nat} (hp : p ≤ i₀) (hi₀ : i₀ ≤ i) (hi : i ≤ old.length)
    (hj₀ : j₀ ≤ j) (hj : j ≤ new.length) (hkept : q + (i₀ - p) = j₀) {hunks : List Hunk}
    {after : List Text} (h : applyHunks hunks (old.drop i) i j = some after) :
    applyHunks (hunkOf old new ⟨i₀, i, j₀, j⟩ :: hunks) (old.drop p) p q =
      some ((old.drop p).take (i₀ - p) ++ (new.drop j₀).take (j - j₀) ++ after) := by
  have hremoved : (hunkOf old new ⟨i₀, i, j₀, j⟩).removed = (old.drop i₀).take (i - i₀) :=
    linesOf_eq hi₀ hi
  have hadded : (hunkOf old new ⟨i₀, i, j₀, j⟩).added = (new.drop j₀).take (j - j₀) :=
    linesOf_eq hj₀ hj
  have hremovedLength : (hunkOf old new ⟨i₀, i, j₀, j⟩).removed.length = i - i₀ :=
    length_linesOf hi₀ hi
  have haddedLength : (hunkOf old new ⟨i₀, i, j₀, j⟩).added.length = j - j₀ :=
    length_linesOf hj₀ hj
  have hold : startIndex (hunkOf old new ⟨i₀, i, j₀, j⟩).oldStart
      (hunkOf old new ⟨i₀, i, j₀, j⟩).removed.length = some i₀ := startIndex_hunkStart ..
  have hnew : startIndex (hunkOf old new ⟨i₀, i, j₀, j⟩).newStart
      (hunkOf old new ⟨i₀, i, j₀, j⟩).added.length = some j₀ := startIndex_hunkStart ..
  have hprefix : (hunkOf old new ⟨i₀, i, j₀, j⟩).removed <+: (old.drop p).drop (i₀ - p) := by
    rw [hremoved, List.drop_drop, show p + (i₀ - p) = i₀ by omega]
    exact List.take_prefix ..
  unfold applyHunks
  rw [hold, hnew]
  simp only [Option.bind_eq_bind, Option.bind_some]
  rw [if_pos ⟨hp, by rw [List.length_drop]; omega, hkept, hprefix⟩, hremovedLength, haddedLength,
    List.drop_drop, show p + (i₀ - p + (i - i₀)) = i by omega, show i₀ + (i - i₀) = i by omega,
    show j₀ + (j - j₀) = j by omega, h, hadded]
  rfl

/-- A region that ends here, in front of what applies from here. -/
theorem applyHunks_closed {i j : Nat} (hi : i ≤ old.length) (hj : j ≤ new.length)
    {regions : List ChangedRegion}
    (hafter : applyHunks (regions.map (hunkOf old new)) (old.drop i) i j = some (new.drop j))
    {p q i₀ j₀ : Nat} (hp : p ≤ i₀) (hi₀ : i₀ ≤ i) (hj₀ : j₀ ≤ j) (hkept : q + (i₀ - p) = j₀)
    (hsame : (old.drop p).take (i₀ - p) = (new.drop q).take (j₀ - q)) :
    applyHunks ((⟨i₀, i, j₀, j⟩ :: regions).map (hunkOf old new)) (old.drop p) p q =
      some (new.drop q) := by
  rw [List.map_cons, applyHunks_cons hp hi₀ hi hj₀ hj hkept hafter, hsame, List.append_assoc,
    take_append_drop_of_le new hj₀, take_append_drop_of_le new (by omega)]

theorem lt_length_of_drop {lines rest : List Text} {i : Nat} {line : Text}
    (h : lines.drop i = line :: rest) : i < lines.length := by
  by_contra hle
  rw [List.drop_eq_nil_of_le (Nat.le_of_not_lt hle)] at h
  nomatch h

/-- One more kept line. -/
theorem take_drop_succ {lines : List Text} {p i : Nat} (hp : p ≤ i) {line : Text}
    {rest : List Text} (h : lines.drop i = line :: rest) :
    (lines.drop p).take (i + 1 - p) = (lines.drop p).take (i - p) ++ [line] := by
  have hget : (lines.drop p)[i - p]? = some line := by
    rw [List.getElem?_drop, show p + (i - p) = i by omega]
    have hhead := congrArg List.head? h
    rw [List.head?_drop] at hhead
    exact hhead
  rw [show i + 1 - p = i - p + 1 by omega, List.take_add_one, hget]
  rfl

/-- The hunks of what is left of a script, from the lines that were kept before
it: up to the script's position, or up to the start of the open region. -/
theorem applyHunks_regionsFrom {script : List Edit} {xs ys : List Text}
    (h : Aligns script xs ys) (i j : Nat) (hx : old.drop i = xs) (hy : new.drop j = ys)
    (hi : i ≤ old.length) (hj : j ≤ new.length) :
    (∀ p q, p ≤ i → q + (i - p) = j → (old.drop p).take (i - p) = (new.drop q).take (j - q) →
      applyHunks ((regionsFrom script i j none).map (hunkOf old new)) (old.drop p) p q =
        some (new.drop q)) ∧
    ∀ p q i₀ j₀, p ≤ i₀ → i₀ ≤ i → j₀ ≤ j → q + (i₀ - p) = j₀ →
      (old.drop p).take (i₀ - p) = (new.drop q).take (j₀ - q) →
      applyHunks ((regionsFrom script i j (some (i₀, j₀))).map (hunkOf old new)) (old.drop p) p q =
        some (new.drop q) := by
  induction h generalizing i j with
  | nil =>
    have hiend := List.drop_eq_nil_iff.mp hx
    have hjend := List.drop_eq_nil_iff.mp hy
    have hnone : ∀ p q, p ≤ i → q + (i - p) = j →
        (old.drop p).take (i - p) = (new.drop q).take (j - q) →
        applyHunks (([] : List ChangedRegion).map (hunkOf old new)) (old.drop p) p q =
          some (new.drop q) := by
      intro p q hp hkept hsame
      rw [List.take_of_length_le (by rw [List.length_drop]; omega),
        List.take_of_length_le (by rw [List.length_drop]; omega)] at hsame
      rw [← hsame]
      rfl
    have hhere := hnone i j (Nat.le_refl _) (by omega) (by rw [Nat.sub_self, Nat.sub_self]; rfl)
    exact ⟨hnone, fun p q i₀ j₀ hp hi₀ hj₀ => applyHunks_closed hi hj hhere hp hi₀ hj₀⟩
  | @keep script xs ys x _ ih =>
    have hilt := lt_length_of_drop hx
    have hjlt := lt_length_of_drop hy
    obtain ⟨hlater, -⟩ := ih (i + 1) (j + 1) (by rw [← List.drop_drop, hx]; rfl)
      (by rw [← List.drop_drop, hy]; rfl) hilt hjlt
    have hnone : ∀ p q, p ≤ i → q + (i - p) = j →
        (old.drop p).take (i - p) = (new.drop q).take (j - q) →
        applyHunks ((regionsFrom script (i + 1) (j + 1) none).map (hunkOf old new)) (old.drop p) p q =
          some (new.drop q) := by
      intro p q hp hkept hsame
      refine hlater p q (by omega) (by omega) ?_
      rw [take_drop_succ hp hx, take_drop_succ (by omega) hy, hsame]
    have hhere := hnone i j (Nat.le_refl _) (by omega) (by rw [Nat.sub_self, Nat.sub_self]; rfl)
    exact ⟨hnone, fun p q i₀ j₀ hp hi₀ hj₀ => applyHunks_closed hi hj hhere hp hi₀ hj₀⟩
  | delete x _ ih =>
    have hilt := lt_length_of_drop hx
    obtain ⟨-, hopen⟩ := ih (i + 1) j (by rw [← List.drop_drop, hx]; rfl) hy hilt hj
    refine ⟨fun p q hp hkept => hopen p q i j hp (by omega) (Nat.le_refl _) hkept, ?_⟩
    intro p q i₀ j₀ hp hi₀ hj₀
    exact hopen p q i₀ j₀ hp (by omega) hj₀
  | insert y _ ih =>
    have hjlt := lt_length_of_drop hy
    obtain ⟨-, hopen⟩ := ih i (j + 1) hx (by rw [← List.drop_drop, hy]; rfl) hi hjlt
    refine ⟨fun p q hp hkept => hopen p q i j hp (Nat.le_refl _) (by omega) hkept, ?_⟩
    intro p q i₀ j₀ hp hi₀ hj₀
    exact hopen p q i₀ j₀ hp hi₀ (by omega)

theorem applyHunks_regions (old new : List Text) (maxDistance : Nat) :
    applyHunks ((changedRegions old new maxDistance).map (hunkOf old new)) old 0 0 = some new := by
  rw [changedRegions_eq]
  exact (applyHunks_regionsFrom (aligns_editScript old new maxDistance) 0 0 rfl rfl (Nat.zero_le _)
    (Nat.zero_le _)).1 0 0 (Nat.le_refl _) rfl rfl

/-! ## Counting lines -/

/-- The lines of the hunks that begin with a marker. -/
def markedLines (marker : Char) (text : Text) : Nat :=
  (hunkText text).countP fun line => line.head? == some marker

theorem countP_diffLines {marker other : Char} (hother : other ≠ '\\') (lines : List Text) :
    (lines.flatMap (diffLines marker)).countP (fun line => line.head? == some other) =
      if marker = other then lines.length else 0 := by
  have hline : ∀ line, (diffLines marker line).countP (fun line => line.head? == some other) =
      if marker = other then 1 else 0 := by
    intro line
    have hnotice : (noNewline.head? == some other) = false :=
      beq_eq_false_iff_ne.mpr fun heq => hother (Option.some.inj heq).symm
    unfold diffLines
    by_cases heq : marker = other
    · subst heq
      rw [if_pos rfl]
      split
      next => simp
      next => simp [hnotice]
    · have hmarker : (some marker == some other) = false :=
        beq_eq_false_iff_ne.mpr fun h => heq (Option.some.inj h)
      rw [if_neg heq]
      split
      next => simp [heq]
      next => simp [heq, hnotice]
  induction lines with
  | nil => split <;> rfl
  | cons line lines ih =>
    rw [List.flatMap_cons, List.countP_append, hline, ih]
    split
    next => rw [List.length_cons, Nat.add_comm]
    next => rfl

theorem countP_hunkLines {marker : Char} (hmarker : marker = '-' ∨ marker = '+')
    (old new : List Text) (region : ChangedRegion) :
    (hunkLines old new region).countP (fun line => line.head? == some marker) =
      if marker = '-' then (hunkOf old new region).removed.length
      else (hunkOf old new region).added.length := by
  have hheader : ∀ removed added,
      ((headerLine region removed added).head? == some marker) = false := by
    intro removed added
    have hhead : (headerLine region removed added).head? = some '@' := rfl
    rw [hhead]
    rcases hmarker with rfl | rfl
    · rfl
    · rfl
  unfold hunkLines
  rw [List.countP_append, List.countP_cons, hheader]
  rcases hmarker with rfl | rfl
  · rw [countP_diffLines (by decide), countP_diffLines (by decide)]
    simp [hunkOf]
  · rw [countP_diffLines (by decide), countP_diffLines (by decide)]
    simp [hunkOf]

theorem countP_hunks {marker : Char} (hmarker : marker = '-' ∨ marker = '+')
    (old new : List Text) (regions : List ChangedRegion) :
    (regions.flatMap (hunkLines old new)).countP (fun line => line.head? == some marker) =
      (regions.map fun region => if marker = '-' then (hunkOf old new region).removed.length
        else (hunkOf old new region).added.length).sum := by
  induction regions with
  | nil => rfl
  | cons region regions ih =>
    rw [List.flatMap_cons, List.countP_append, countP_hunkLines hmarker, ih, List.map_cons,
      List.sum_cons]

/-! ## The diff of a file -/

/-- A content that the unified format can describe, as a text: nothing when the
file is absent, and none when it is binary. -/
def textOf (version : Option FileVersion) : Option Text :=
  (decode (version.map (·.content))).filter fun text => !text.contains '\x00'

/-- What a rendered diff of two texts promises. -/
structure Describes (diff : FileDiff) (old new : Text) (same : Prop) : Prop where
  applies : applyPatch diff.text old = some new
  insertions : diff.insertions = markedLines '+' diff.text
  deletions : diff.deletions = markedLines '-' diff.text
  empty_iff : diff.text = [] ↔ same

theorem applyPatch_eq_some {text old : Text} {hunks : List Hunk} {lines : List Text}
    (hread : readPatch text = some hunks)
    (happly : applyHunks hunks (splitInclusive old) 0 0 = some lines) :
    applyPatch text old = some lines.flatten := by
  unfold applyPatch
  simp only [Option.bind_eq_bind, hread, Option.bind_some, happly]

theorem describes_unifiedDiff {header : Text} (hheader : Preamble header) (path old new : Text)
    (oldPresent newPresent : Bool) :
    Describes (unifiedDiff header path old oldPresent new newPresent) old new
      (old = new ∧ oldPresent = newPresent) := by
  have hlines : splitInclusive old = splitInclusive new ↔ old = new := by
    refine ⟨fun h => ?_, fun h => by rw [h]⟩
    rw [← flatten_splitInclusive old, h, flatten_splitInclusive]
  have hsame : changedRegions (splitInclusive old) (splitInclusive new) maxEditDistance = [] ↔
      splitInclusive old = splitInclusive new := changedRegions_eq_nil (by decide)
  have happly := applyHunks_regions (splitInclusive old) (splitInclusive new) maxEditDistance
  unfold unifiedDiff
  dsimp only
  rw [foldl_renderRegion]
  generalize changedRegions (splitInclusive old) (splitInclusive new) maxEditDistance = regions
    at hsame happly
  rw [hlines] at hsame
  split
  next hempty =>
    rw [Bool.and_eq_true, beq_iff_eq] at hempty
    have hregions : regions = [] := by
      cases regions with
      | nil => rfl
      | cons region regions => nomatch hempty.1
    obtain rfl := hsame.mp hregions
    refine ⟨?_, rfl, rfl, ⟨fun _ => ⟨rfl, hempty.2⟩, fun _ => rfl⟩⟩
    rw [applyPatch_eq_some (show readPatch [] = some [] from rfl) rfl, flatten_splitInclusive]
  next hnot =>
    have hfull : ∀ line ∈ regions.flatMap (hunkLines (splitInclusive old) (splitInclusive new)),
        FullLine line := by
      intro line hline
      obtain ⟨region, -, hline⟩ := List.mem_flatMap.mp hline
      exact fullLine_hunkLines old new region line hline
    have hhunks := hunkText_eq hheader path oldPresent newPresent hfull
    have hread : readPatch (header ++ "--- ".toList ++ sideLabel oldPresent 'a' path ++
        "\n+++ ".toList ++ sideLabel newPresent 'b' path ++ '\n' ::
        (regions.flatMap (hunkLines (splitInclusive old) (splitInclusive new))).flatten) =
        some (regions.map (hunkOf (splitInclusive old) (splitInclusive new))) := by
      unfold readPatch
      rw [hhunks]
      exact readHunks_hunkLines old new regions _ (Nat.le_refl _)
    refine ⟨?_, ?_, ?_, ?_⟩
    · rw [List.nil_append, applyPatch_eq_some hread happly, flatten_splitInclusive]
    · unfold markedLines
      rw [List.nil_append, hhunks, countP_hunks (.inr rfl)]
      exact Nat.zero_add _
    · unfold markedLines
      rw [List.nil_append, hhunks, countP_hunks (.inl rfl)]
      exact Nat.zero_add _
    · refine ⟨fun h => ?_, fun h => ?_⟩
      · rw [List.append_eq_nil_iff] at h
        nomatch h.2
      · refine absurd ?_ hnot
        rw [hsame.mpr h.1, h.2]
        exact Bool.and_eq_true_iff.mpr ⟨rfl, beq_self_eq_true _⟩

theorem fromUTF8?_eq_some {content : ByteArray} {text : String}
    (h : String.fromUTF8? content = some text) : text.toByteArray = content := by
  unfold String.fromUTF8? at h
  split at h
  next => rw [← Option.some.inj h]; rfl
  next => nomatch h

/-- Contents that decode to the same text are the same. -/
theorem content_eq_of_decode {a b : ByteArray} {text : Text} (ha : decode (some a) = some text)
    (hb : decode (some b) = some text) : a = b := by
  obtain ⟨s, hs, hstext⟩ := Option.map_eq_some_iff.mp ha
  obtain ⟨t, ht, httext⟩ := Option.map_eq_some_iff.mp hb
  have hsame : s = t := String.toList_injective (hstext.trans httext.symm)
  rw [← fromUTF8?_eq_some hs, ← fromUTF8?_eq_some ht, hsame]

/-- Texts and presence say whether the contents are the same. -/
theorem contents_eq_iff {old new : Option FileVersion} {oldText newText : Text}
    (hold : decode (old.map (·.content)) = some oldText)
    (hnew : decode (new.map (·.content)) = some newText) :
    (oldText = newText ∧ old.isSome = new.isSome) ↔
      old.map (·.content) = new.map (·.content) := by
  constructor
  · intro ⟨htext, hpresent⟩
    subst htext
    cases old with
    | none =>
      cases new with
      | none => rfl
      | some new => nomatch hpresent
    | some old =>
      cases new with
      | none => nomatch hpresent
      | some new => exact congrArg some (content_eq_of_decode hold hnew)
  · intro h
    rw [h] at hold
    refine ⟨Option.some.inj (hold.symm.trans hnew), ?_⟩
    have := congrArg Option.isSome h
    rwa [Option.isSome_map, Option.isSome_map] at this

theorem preamble_fileHeader (path : Text) (old new : Option FileVersion) :
    Preamble (fileHeader path old new) := by
  cases old with
  | none =>
    cases new with
    | none => exact ⟨[], rfl, nofun⟩
    | some new => exact preamble_presenceHeader path new.mode (.inl rfl)
  | some old =>
    cases new with
    | none => exact preamble_presenceHeader path old.mode (.inr rfl)
    | some new => exact ⟨[], rfl, nofun⟩

theorem textOf_eq_some {version : Option FileVersion} {text : Text} :
    textOf version = some text ↔
      decode (version.map (·.content)) = some text ∧ text.contains '\x00' = false := by
  unfold textOf
  rw [Option.filter_eq_some_iff, Bool.not_eq_true']

/-- A binary side is reported as such. -/
theorem fileDiff_binary (path : Text) {old new : Option FileVersion}
    (h : textOf old = none ∨ textOf new = none) :
    fileDiff path old new = binaryDiff (fileHeader path old new) path old.isSome new.isSome := by
  unfold fileDiff
  dsimp only
  split
  next oldText newText hold hnew =>
    rw [if_pos]
    rw [Bool.or_eq_true]
    refine h.imp (fun hnone => ?_) fun hnone => ?_
    · by_contra hnot
      rw [textOf_eq_some.mpr ⟨hold, Bool.eq_false_iff.mpr hnot⟩] at hnone
      nomatch hnone
    · by_contra hnot
      rw [textOf_eq_some.mpr ⟨hnew, Bool.eq_false_iff.mpr hnot⟩] at hnone
      nomatch hnone
  next => rfl
  next => rfl
  next => rfl

/-- Where both sides are text, the diff turns the old one into the new one, its
totals count its lines, and it is empty only for a file that stays what it is.
Where one is not, the diff is the notice that the file is binary. -/
theorem fileDiff_describes (path : Text) (old new : Option FileVersion) :
    (∀ oldText newText, textOf old = some oldText → textOf new = some newText →
      Describes (fileDiff path old new) oldText newText
        (old.map (·.content) = new.map (·.content))) ∧
    (textOf old = none ∨ textOf new = none → fileDiff path old new =
      binaryDiff (fileHeader path old new) path old.isSome new.isSome) := by
  refine ⟨fun oldText newText hold hnew => ?_, fileDiff_binary path⟩
  obtain ⟨hold, holdText⟩ := textOf_eq_some.mp hold
  obtain ⟨hnew, hnewText⟩ := textOf_eq_some.mp hnew
  have hdiff : fileDiff path old new =
      unifiedDiff (fileHeader path old new) path oldText old.isSome newText new.isSome := by
    unfold fileDiff
    rw [hold, hnew]
    dsimp only
    rw [holdText, hnewText]
    rfl
  have hdescribes := describes_unifiedDiff (preamble_fileHeader path old new) path oldText newText
    old.isSome new.isSome
  rw [← hdiff] at hdescribes
  exact { hdescribes with empty_iff := hdescribes.empty_iff.trans (contents_eq_iff hold hnew) }

/-- A file of these bytes. -/
def regularFile (text : String) : FileVersion := { content := text.toByteArray, mode := .regular }

theorem decode_regularFile (text : String) :
    decode ((some (regularFile text)).map (·.content)) = some text.toList := by
  show (String.fromUTF8? text.toByteArray).map (·.toList) = _
  unfold String.fromUTF8?
  rw [dif_pos text.isValidUTF8]
  rfl

/-- A line is replaced, and the terminator at the end goes away. -/
theorem fileDiff_replacesLast :
    applyPatch (fileDiff "src/lib.rs".toList (some (regularFile "a\nb\n"))
        (some (regularFile "a\nc"))).text "a\nb\n".toList = some "a\nc".toList :=
  ((fileDiff_describes "src/lib.rs".toList (some (regularFile "a\nb\n"))
    (some (regularFile "a\nc"))).1 _ _ (textOf_eq_some.mpr ⟨decode_regularFile _, by decide⟩)
    (textOf_eq_some.mpr ⟨decode_regularFile _, by decide⟩)).applies

/-- A content with a zero byte is text, but no hunk describes its change. -/
theorem fileDiff_zeroBytes :
    ¬ ∀ path old new oldText newText, decode (old.map (·.content)) = some oldText →
      decode (new.map (·.content)) = some newText →
      Describes (fileDiff path old new) oldText newText
        (old.map (·.content) = new.map (·.content)) := by
  intro h
  have hdescribes := h "data.bin".toList (some (regularFile "\x00"))
    (some (regularFile "\x00\x00")) _ _ (decode_regularFile _) (decode_regularFile _)
  have happlies := hdescribes.applies
  have hbinary : textOf (some (regularFile "\x00")) = none := by
    unfold textOf
    rw [decode_regularFile]
    rfl
  rw [fileDiff_binary _ (.inl hbinary)] at happlies
  exact absurd happlies (by decide)

end Folo.ReleasePlan
