import Folo.BenchHistory.Comparability
import Mathlib.Algebra.Group.Int.Defs
import Mathlib.Algebra.Group.Nat.Defs

/-!
# Reading storage keys

`parse_key` of `cbh_model/comparability.rs` and `parse_scoped_blessing_key` of
`scoped_blessing.rs`. A key that is not of the right shape, down to its file
name, names nothing. Whether a number of nanoseconds is a `Timestamp` is the
business of the `jiff` crate, and a parameter.
-/

namespace Folo.BenchHistory

/-- `str::to_ascii_lowercase`. -/
def asciiLowercase (text : Text) : Text := text.map Char.toLower

/-- `str::eq_ignore_ascii_case`. -/
def eqIgnoreAsciiCase (a b : Text) : Bool := decide (asciiLowercase a = asciiLowercase b)

/-- `str::strip_prefix`. -/
def stripPrefix (text front : Text) : Option Text :=
  if front.isPrefixOf text then some (text.drop front.length) else none

/-- `str::strip_suffix`. -/
def stripSuffix (text back : Text) : Option Text :=
  if back.isSuffixOf text then some (text.take (text.length - back.length)) else none

/-- `str::parse` for a signed integer type with these bounds. -/
def parseInteger (low high : Int) (text : Text) : Option Int :=
  let (negative, digits) :=
    match text with
    | '+' :: rest => (false, rest)
    | '-' :: rest => (true, rest)
    | digits => (false, digits)
  if digits.isEmpty || !digits.all Char.isDigit then none
  else
    let magnitude : Nat := digits.foldl (fun n c => n * 10 + (c.toNat - '0'.toNat)) 0
    let value : Int := if negative then -magnitude else magnitude
    if low ≤ value ∧ value ≤ high then some value else none

def parseI64 : Text → Option Int := parseInteger (-2 ^ 63) (2 ^ 63 - 1)

def parseI128 : Text → Option Int := parseInteger (-2 ^ 127) (2 ^ 127 - 1)

/-- `Engine::ALL`. -/
def Engine.all : List Engine := [.callgrind, .criterion, .allocTracker, .allTheTime]

def Engine.fromName (name : Text) : Option Engine :=
  let lower := asciiLowercase name
  if lower = Engine.criterion.asStr then some .criterion
  else if lower = Engine.callgrind.asStr then some .callgrind
  else if lower = Engine.allocTracker.asStr then some .allocTracker
  else if lower = Engine.allTheTime.asStr then some .allTheTime
  else none

/-- The number between `front` and `.json` of a file name. -/
def fileNumber (parse : Text → Option Int) (front file : Text) : Option Int :=
  (stripPrefix file front).bind fun rest => (stripSuffix rest ".json".toList).bind parse

def ObjectKind.fromFileSegment (file : Text) : Option ObjectKind :=
  if file = "clean.json".toList then some .clean
  else
    -- a name of the first shape is not tried as one of the second
    match (stripPrefix file "dirty-".toList).bind (stripSuffix · ".json".toList) with
    | some seconds => (parseI64 seconds).map .dirty
    | none => (fileNumber parseI64 "bless-".toList file).map .bless

def parseKey (key : Key) : Option StorageKey :=
  match key.splitOn '/' with
  | [version, project, objects, engine, targetTriple, machineKey, commit, file] =>
    if version ≠ storageVersion ∨ objects ≠ objectsSegment then none
    else if (key.splitOn '/').any List.isEmpty then none
    else
      (Engine.fromName engine).bind fun engine =>
        (ObjectKind.fromFileSegment file).map fun kind =>
          { project, set := { engine, targetTriple, machineKey }, commit, kind }
  | _ => none

/-- The commit of a project-level blessing. -/
def parseScopedBlessingKey (fromNanosecond : Int → Option Int) (key : Key) : Option Text :=
  match key.splitOn '/' with
  | [version, project, objects, blessings, commit, file] =>
    if version ≠ storageVersion then none
    else if project.isEmpty ∨ objects ≠ objectsSegment ∨ blessings ≠ "blessings".toList then none
    else if commit.isEmpty then none
    else
      (fileNumber parseI128 "bless-".toList file).bind fun issued =>
        (fromNanosecond issued).map fun _ => commit
  | _ => none

end Folo.BenchHistory
