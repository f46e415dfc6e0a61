import Folo.ReleasePlan.LineEdits

/-!
# Rendered diffs

`file_diff` of `crp_versioning/diff.rs`, with `quote_path` of `crp_diag/text.rs`:
one file's change as a unified diff without context lines, or as a notice that
the file is binary.
-/

namespace Folo.ReleasePlan

open Folo.Lib

/-! ## Lines -/

/-- `split_inclusive('\n')`: the lines with their terminators. -/
def splitInclusive : Text → List Text
  | [] => []
  | c :: text =>
    if c = '\n' then [c] :: splitInclusive text
    else match splitInclusive text with
      | [] => [[c]]
      | line :: lines => (c :: line) :: lines

theorem flatten_splitInclusive (text : Text) : (splitInclusive text).flatten = text := by
  induction text with
  | nil => rfl
  | cons c text ih =>
    unfold splitInclusive
    split
    next => rw [List.flatten_cons, ih, List.singleton_append]
    next =>
      split
      next heq =>
        rw [heq] at ih
        rw [← ih]
        rfl
      next line lines heq =>
        rw [heq] at ih
        rw [← ih]
        rfl

theorem splitInclusive_newline (text : Text) :
    splitInclusive ('\n' :: text) = ['\n'] :: splitInclusive text := rfl

/-- Another character belongs to the line that follows it. -/
theorem splitInclusive_cons {c : Char} (hc : c ≠ '\n') {text line : Text} {lines : List Text}
    (h : splitInclusive text = line :: lines) :
    splitInclusive (c :: text) = (c :: line) :: lines := by
  unfold splitInclusive
  rw [if_neg hc, h]

/-- A line that ends with its terminator, and has no other one. -/
def FullLine (line : Text) : Prop := ∃ body : Text, '\n' ∉ body ∧ line = body ++ ['\n']

theorem splitInclusive_append {line : Text} (h : FullLine line) (text : Text) :
    splitInclusive (line ++ text) = line :: splitInclusive text := by
  obtain ⟨body, hbody, rfl⟩ := h
  induction body with
  | nil => exact splitInclusive_newline text
  | cons c body ih =>
    obtain ⟨hc, hbody⟩ := not_or.mp (mt List.mem_cons.mpr hbody)
    exact splitInclusive_cons (fun heq => hc heq.symm) (ih hbody)

/-- A text of full lines has these lines. -/
theorem splitInclusive_flatten {lines : List Text} (h : ∀ line ∈ lines, FullLine line) :
    splitInclusive lines.flatten = lines := by
  induction lines with
  | nil => rfl
  | cons line lines ih =>
    obtain ⟨hline, hlines⟩ := List.forall_mem_cons.mp h
    rw [List.flatten_cons, splitInclusive_append hline, ih hlines]

/-- A line of a text: full, or without a terminator. -/
theorem line_of_mem_splitInclusive {text line : Text} (h : line ∈ splitInclusive text) :
    FullLine line ∨ '\n' ∉ line := by
  induction text generalizing line with
  | nil => nomatch h
  | cons c text ih =>
    unfold splitInclusive at h
    split at h
    next heq =>
      rcases List.mem_cons.mp h with rfl | h
      · exact .inl ⟨[], List.not_mem_nil, by rw [heq]; rfl⟩
      · exact ih h
    next hne =>
      split at h
      next =>
        obtain rfl := List.mem_singleton.mp h
        exact .inr fun hin => hne (List.mem_singleton.mp hin).symm
      next first lines heq =>
        rcases List.mem_cons.mp h with rfl | h
        · rcases ih (heq ▸ List.mem_cons_self ..) with ⟨body, hbody, rfl⟩ | hnone
          · refine .inl ⟨c :: body, fun hin => ?_, rfl⟩
            rcases List.mem_cons.mp hin with hc | hin
            · exact hne hc.symm
            · exact hbody hin
          · refine .inr fun hin => ?_
            rcases List.mem_cons.mp hin with hc | hin
            · exact hne hc.symm
            · exact hnone hin
        · exact ih (heq ▸ List.mem_cons_of_mem _ h)

/-! ## Paths -/

/-- `char::is_control`. -/
def isControl (c : Char) : Bool := c.toNat < 32 || (127 ≤ c.toNat && c.toNat < 160)

def needsQuoting (c : Char) : Bool := c == '"' || c == '\\' || isControl c

/-- A byte as three octal digits. -/
def octal (byte : UInt8) : Text :=
  [byte.toNat / 64 % 8, byte.toNat / 8 % 8, byte.toNat % 8].map Nat.digitChar

def quoteChar (c : Char) : Text :=
  if c = '"' then ['\\', '"']
  else if c = '\\' then ['\\', '\\']
  else if c = '\n' then ['\\', 'n']
  else if c = '\r' then ['\\', 'r']
  else if c = '\t' then ['\\', 't']
  else if isControl c then (String.utf8EncodeChar c).flatMap fun byte => '\\' :: octal byte
  else [c]

def quotePath (label : Text) : Text :=
  if label.any needsQuoting then '"' :: label.flatMap quoteChar ++ ['"'] else label

/-- A quoted path stays on its line. -/
theorem newline_not_mem_quotePath (label : Text) : '\n' ∉ quotePath label := by
  have hdigit : ∀ n, n < 8 → Nat.digitChar n ≠ '\n' := by decide
  have hchar : ∀ c, '\n' ∉ quoteChar c := by
    intro c hin
    unfold quoteChar at hin
    split at hin
    next => nomatch hin
    next =>
      split at hin
      next => nomatch hin
      next =>
        split at hin
        next => nomatch hin
        next hne =>
          split at hin
          next => nomatch hin
          next =>
            split at hin
            next => nomatch hin
            next =>
              split at hin
              next =>
                obtain ⟨byte, -, hin⟩ := List.mem_flatMap.mp hin
                rcases List.mem_cons.mp hin with h | hin
                · nomatch h
                · obtain ⟨n, hn, heq⟩ := List.mem_map.mp hin
                  refine hdigit n ?_ heq
                  simp only [List.mem_cons, List.not_mem_nil, or_false] at hn
                  omega
              next => exact hne (List.mem_singleton.mp hin).symm
  unfold quotePath
  split
  next =>
    intro hin
    rcases List.mem_append.mp hin with hin | hin
    · rcases List.mem_cons.mp hin with h | hin
      · nomatch h
      · obtain ⟨c, -, hin⟩ := List.mem_flatMap.mp hin
        exact hchar c hin
    · nomatch hin
  next hnone =>
    intro hin
    refine hnone (List.any_eq_true.mpr ⟨_, hin, ?_⟩)
    decide

/-! ## The rendering -/

/-- The modes that `tree_mode` of `crp_workspace/git.rs` knows. -/
inductive TreeMode
  | regular
  | executable
  deriving DecidableEq

def TreeMode.text : TreeMode → Text
  | .regular => "100644".toList
  | .executable => "100755".toList

structure FileVersion where
  content : ByteArray
  mode : TreeMode

structure FileDiff where
  text : Text
  insertions : Nat
  deletions : Nat

def hunkStart (zeroBased len : Nat) : Nat := if len = 0 then zeroBased else zeroBased + 1

def sideLabel (present : Bool) (side : Char) (path : Text) : Text :=
  if present then quotePath (side :: '/' :: path) else "/dev/null".toList

/-- The line after a line that has no terminator. -/
def noNewline : Text := "\\ No newline at end of file\n".toList

def pushDiffLine (out : Text) (marker : Char) (line : Text) : Text :=
  out ++ marker :: line ++ if line.getLast? = some '\n' then [] else '\n' :: noNewline

def presenceHeader (path change : Text) (mode : TreeMode) : Text :=
  "diff --git ".toList ++ quotePath ('a' :: '/' :: path) ++ ' ' :: quotePath ('b' :: '/' :: path) ++
    '\n' :: change ++ " file mode ".toList ++ mode.text ++ ['\n']

def number (n : Nat) : Text := Nat.toDigits 10 n

/-- `get` of a range. -/
def linesOf (lines : List Text) (first last : Nat) : List Text :=
  if first ≤ last ∧ last ≤ lines.length then (lines.drop first).take (last - first) else []

/-- One round of the loop of `unified_diff`, over what is rendered so far. -/
def renderRegion (old new : List Text) (out : FileDiff) (region : ChangedRegion) : FileDiff :=
  let oldRegion := linesOf old region.oldStart region.oldEnd
  let newRegion := linesOf new region.newStart region.newEnd
  let header := out.text ++ "@@ -".toList ++ number (hunkStart region.oldStart oldRegion.length) ++
    ',' :: number oldRegion.length ++ " +".toList ++
    number (hunkStart region.newStart newRegion.length) ++ ',' :: number newRegion.length ++
    " @@\n".toList
  let removed := oldRegion.foldl (fun out line => pushDiffLine out '-' line) header
  { text := newRegion.foldl (fun out line => pushDiffLine out '+' line) removed
    insertions := out.insertions + newRegion.length
    deletions := out.deletions + oldRegion.length }

def unifiedDiff (header path old : Text) (oldPresent : Bool) (new : Text) (newPresent : Bool) :
    FileDiff :=
  let oldLines := splitInclusive old
  let newLines := splitInclusive new
  let hunks := (changedRegions oldLines newLines maxEditDistance).foldl
    (renderRegion oldLines newLines) { text := [], insertions := 0, deletions := 0 }
  if hunks.text.isEmpty && oldPresent == newPresent then
    { text := [], insertions := 0, deletions := 0 }
  else
    { hunks with
      text := header ++ "--- ".toList ++ sideLabel oldPresent 'a' path ++ "\n+++ ".toList ++
        sideLabel newPresent 'b' path ++ '\n' :: hunks.text }

def binaryDiff (header path : Text) (oldPresent newPresent : Bool) : FileDiff where
  text := header ++ "Binary files ".toList ++ sideLabel oldPresent 'a' path ++ " and ".toList ++
    sideLabel newPresent 'b' path ++ " differ\n".toList
  insertions := 0
  deletions := 0

/-- `str::from_utf8` of a content, and of nothing where the file is absent. -/
def decode (content : Option ByteArray) : Option Text :=
  match content with
  | none => some []
  | some content => (String.fromUTF8? content).map (·.toList)

/-- The headers of `file_diff`. -/
def fileHeader (path : Text) : Option FileVersion → Option FileVersion → Text
  | none, some new => presenceHeader path "new".toList new.mode
  | some old, none => presenceHeader path "deleted".toList old.mode
  | none, none | some _, some _ => []

def fileDiff (path : Text) (old new : Option FileVersion) : FileDiff :=
  let header := fileHeader path old new
  match decode (old.map (·.content)), decode (new.map (·.content)) with
  | some oldText, some newText =>
    if oldText.contains '\x00' || newText.contains '\x00' then
      binaryDiff header path old.isSome new.isSome
    else unifiedDiff header path oldText old.isSome newText new.isSome
  | none, none | none, some _ | some _, none => binaryDiff header path old.isSome new.isSome

end Folo.ReleasePlan
