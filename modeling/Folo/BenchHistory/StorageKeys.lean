import Folo.BenchHistory.ObjectKeys
import Folo.Lib.Texts

/-!
# Building storage keys

The discriminant sets and the key constructors of `cbh_model/comparability.rs`.
A key is eight segments, of which the first seven end in a slash, and no segment
has a slash in it; so the prefix of a partition or of a commit directory begins
a key exactly when its segments are the key's first ones, and `parse_key` takes
apart what the constructors put together.
-/

namespace Folo.BenchHistory

open Folo.Lib

/-- What `i64` displays as. -/
def displayI64 (n : Int64) : Text :=
  if n.toInt < 0 then '-' :: Nat.toDigits 10 n.toInt.natAbs else Nat.toDigits 10 n.toInt.natAbs

namespace DiscriminantSet

/-- `DiscriminantSet::new`. -/
def new (engine : Engine) (targetTriple machineKey : Text) : DiscriminantSet where
  engine
  targetTriple := sanitizeSegment targetTriple
  machineKey := sanitizeSegment machineKey

variable (set : DiscriminantSet) (project commit : Text)

def partitionPrefix : Key :=
  underProject (sanitizeSegment project) (objectsSegment ++ '/' :: (set.engine.asStr ++
    '/' :: (set.targetTriple ++ '/' :: (set.machineKey ++ ['/']))))

def cleanKey : Key :=
  set.partitionPrefix project ++ (sanitizeSegment commit ++ "/clean.json".toList)

def dirtyKey (observationUnix : Int64) : Key :=
  set.partitionPrefix project ++ (sanitizeSegment commit ++
    ("/dirty-".toList ++ (displayI64 observationUnix ++ ".json".toList)))

def blessKey (issuedUnix : Int64) : Key :=
  set.partitionPrefix project ++ (sanitizeSegment commit ++
    ("/bless-".toList ++ (displayI64 issuedUnix ++ ".json".toList)))

def commitPrefix : Key :=
  set.partitionPrefix project ++ (sanitizeSegment commit ++ ['/'])

end DiscriminantSet

/-- An object of a commit directory, as it is named. -/
inductive CommitObject
  | clean
  | dirty (observationUnix : Int64)
  | bless (issuedUnix : Int64)

namespace CommitObject

def kind : CommitObject → ObjectKind
  | .clean => .clean
  | .dirty observationUnix => .dirty observationUnix.toInt
  | .bless issuedUnix => .bless issuedUnix.toInt

theorem kind_injective : Function.Injective kind := by
  intro a b h
  cases a <;> cases b <;> first
    | rfl
    | exact congrArg _ (Int64.toInt_inj.mp (ObjectKind.dirty.inj h))
    | exact congrArg _ (Int64.toInt_inj.mp (ObjectKind.bless.inj h))
    | nomatch h

def key (set : DiscriminantSet) (project commit : Text) : CommitObject → Key
  | .clean => set.cleanKey project commit
  | .dirty observationUnix => set.dirtyKey project commit observationUnix
  | .bless issuedUnix => set.blessKey project commit issuedUnix

/-- The last segment of the key. -/
def fileSegment : CommitObject → Text
  | .clean => "clean.json".toList
  | .dirty observationUnix => "dirty-".toList ++ (displayI64 observationUnix ++ ".json".toList)
  | .bless issuedUnix => "bless-".toList ++ (displayI64 issuedUnix ++ ".json".toList)

end CommitObject

/-! ## Numbers -/

theorem stripPrefix_append (front rest : Text) : stripPrefix (front ++ rest) front = some rest := by
  unfold stripPrefix
  rw [if_pos (List.isPrefixOf_iff_prefix.mpr (List.prefix_append ..)), List.drop_left]

theorem stripSuffix_append (rest back : Text) : stripSuffix (rest ++ back) back = some rest := by
  unfold stripSuffix
  rw [if_pos (List.isSuffixOf_iff_suffix.mpr (List.suffix_append ..)), List.length_append,
    Nat.add_sub_cancel, List.take_left]

/-- The digits of a number are read as the number. -/
theorem foldl_toDigits (n : Nat) :
    (Nat.toDigits 10 n).foldl (fun n c => n * 10 + (c.toNat - '0'.toNat)) 0 = n := by
  have hstep : (fun (n : Nat) (c : Char) => n * 10 + (c.toNat - '0'.toNat)) =
      fun n c => 10 * n + (c.toNat - '0'.toNat) := by
    funext n c
    rw [Nat.mul_comm]
  rw [hstep]
  exact Nat.ofDigitChars_ten_toDigits

theorem toDigits_eq_cons (n : Nat) :
    ∃ c rest, Nat.toDigits 10 n = c :: rest ∧ c.isDigit = true := by
  cases hdigits : Nat.toDigits 10 n with
  | nil => exact absurd hdigits Nat.toDigits_ne_nil
  | cons c rest =>
    have hmem : c ∈ Nat.toDigits 10 n := hdigits ▸ List.mem_cons_self ..
    exact ⟨c, rest, rfl, Nat.isDigit_of_mem_toDigits (by decide) (by decide) hmem⟩

theorem toDigits_all_isDigit (n : Nat) : (Nat.toDigits 10 n).all Char.isDigit = true :=
  List.all_eq_true.mpr fun _ hc => Nat.isDigit_of_mem_toDigits (by decide) (by decide) hc

theorem parseInteger_minus {low high : Int} (n : Nat) (hlow : low ≤ -(n : Int))
    (hhigh : -(n : Int) ≤ high) :
    parseInteger low high ('-' :: Nat.toDigits 10 n) = some (-(n : Int)) := by
  have hempty : (Nat.toDigits 10 n).isEmpty = false :=
    List.isEmpty_eq_false_iff.mpr Nat.toDigits_ne_nil
  unfold parseInteger
  split
  next negative digits heq =>
    split at heq
    next hsign => exact absurd (List.cons.inj hsign).1 (by decide)
    next hsign =>
      obtain ⟨-, rfl⟩ := List.cons.inj hsign
      obtain ⟨rfl, rfl⟩ := Prod.mk.inj heq
      dsimp only
      rw [hempty, toDigits_all_isDigit, foldl_toDigits, if_neg (by decide), if_pos rfl,
        if_pos ⟨hlow, hhigh⟩]
    next hsign => exact absurd rfl (hsign _)

theorem parseInteger_digits {low high : Int} (n : Nat) (hlow : low ≤ n) (hhigh : n ≤ high) :
    parseInteger low high (Nat.toDigits 10 n) = some (n : Int) := by
  have hempty : (Nat.toDigits 10 n).isEmpty = false :=
    List.isEmpty_eq_false_iff.mpr Nat.toDigits_ne_nil
  obtain ⟨c, rest, hcons, hdigit⟩ := toDigits_eq_cons n
  -- a digit is no sign
  have hplus : c ≠ '+' := fun h => by rw [h] at hdigit; nomatch hdigit
  have hminus : c ≠ '-' := fun h => by rw [h] at hdigit; nomatch hdigit
  have hall := toDigits_all_isDigit n
  have hfold := foldl_toDigits n
  rw [hcons] at hempty hall hfold ⊢
  unfold parseInteger
  split
  next negative digits heq =>
    split at heq
    next hsign => exact absurd (List.cons.inj hsign).1 hplus
    next hsign => exact absurd (List.cons.inj hsign).1 hminus
    next =>
      obtain ⟨rfl, rfl⟩ := Prod.mk.inj heq
      dsimp only
      rw [hempty, hall, hfold, if_neg (by decide), if_neg Bool.false_ne_true,
        if_pos ⟨hlow, hhigh⟩]

/-- What is displayed is read back. -/
theorem parseI64_displayI64 (n : Int64) : parseI64 (displayI64 n) = some n.toInt := by
  have hlow := n.le_toInt
  have hhigh := n.toInt_lt
  unfold parseI64 displayI64
  split
  next hneg =>
    rw [parseInteger_minus _ (by omega) (by omega)]
    congr 1
    omega
  next hpos =>
    rw [parseInteger_digits _ (by omega) (by omega)]
    congr 1
    omega

theorem slash_not_mem_displayI64 (n : Int64) : '/' ∉ displayI64 n := by
  have hdigits : ∀ n, '/' ∉ Nat.toDigits 10 n := by
    intro n hmem
    exact absurd (Nat.isDigit_of_mem_toDigits (by decide) (by decide) hmem) (by decide)
  unfold displayI64
  split
  next =>
    rw [List.mem_cons, not_or]
    exact ⟨by decide, hdigits _⟩
  next => exact hdigits _

/-! ## File names -/

theorem CommitObject.fromFileSegment_fileSegment (object : CommitObject) :
    ObjectKind.fromFileSegment object.fileSegment = some object.kind := by
  unfold ObjectKind.fromFileSegment
  cases object with
  | clean => rfl
  | dirty t =>
    have hne : (CommitObject.dirty t).fileSegment ≠ "clean.json".toList := by
      intro h
      exact absurd (List.cons.inj h).1 (by decide)
    rw [if_neg hne]
    unfold fileSegment
    rw [stripPrefix_append, Option.bind_some, stripSuffix_append]
    dsimp only
    rw [parseI64_displayI64]
    rfl
  | bless t =>
    have hne : (CommitObject.bless t).fileSegment ≠ "clean.json".toList := by
      intro h
      exact absurd (List.cons.inj h).1 (by decide)
    have hdirty : stripPrefix (CommitObject.bless t).fileSegment "dirty-".toList = none := rfl
    rw [if_neg hne, hdirty]
    dsimp only [Option.bind_none]
    unfold fileSegment fileNumber
    rw [stripPrefix_append, Option.bind_some, stripSuffix_append, Option.bind_some,
      parseI64_displayI64]
    rfl

theorem CommitObject.slash_not_mem_fileSegment (object : CommitObject) :
    '/' ∉ object.fileSegment := by
  cases object with
  | clean => decide
  | dirty t =>
    unfold fileSegment
    rw [List.mem_append, List.mem_append, not_or, not_or]
    exact ⟨by decide, slash_not_mem_displayI64 t, by decide⟩
  | bless t =>
    unfold fileSegment
    rw [List.mem_append, List.mem_append, not_or, not_or]
    exact ⟨by decide, slash_not_mem_displayI64 t, by decide⟩

/-! ## Segments -/

theorem sanitizeSegment_ne_nil (raw : Text) : sanitizeSegment raw ≠ [] := by
  unfold sanitizeSegment
  dsimp only
  split
  next => exact List.cons_ne_nil _ _
  next h =>
    intro hnil
    rw [hnil] at h
    exact h rfl

namespace DiscriminantSet

/-- The segments that a slash ends in every key of a partition. -/
def segments (set : DiscriminantSet) (project : Text) : List Text :=
  [storageVersion, sanitizeSegment project, objectsSegment, set.engine.asStr, set.targetTriple,
    set.machineKey]

theorem segments_inj {set set' : DiscriminantSet} {project project' : Text} :
    set.segments project = set'.segments project' ↔
      sanitizeSegment project = sanitizeSegment project' ∧ set = set' := by
  obtain ⟨e, t, m⟩ := set
  obtain ⟨e', t', m'⟩ := set'
  simp only [segments, List.cons.injEq, true_and, and_true, DiscriminantSet.mk.injEq,
    Engine.asStr_injective.eq_iff]

theorem partitionPrefix_eq (set : DiscriminantSet) (project : Text) :
    set.partitionPrefix project = ended '/' (set.segments project) [] := rfl

theorem commitPrefix_eq (set : DiscriminantSet) (project commit : Text) :
    set.commitPrefix project commit =
      ended '/' (set.segments project ++ [sanitizeSegment commit]) [] := by
  unfold commitPrefix partitionPrefix underProject
  simp only [List.append_assoc, List.cons_append, List.nil_append]
  rfl

theorem key_eq (set : DiscriminantSet) (project commit : Text) (object : CommitObject) :
    object.key set project commit =
      ended '/' (set.segments project ++ [sanitizeSegment commit]) object.fileSegment := by
  cases object with
  | clean =>
    show set.cleanKey project commit = _
    unfold cleanKey partitionPrefix underProject
    simp only [List.append_assoc, List.cons_append, List.nil_append]
    rfl
  | dirty t =>
    show set.dirtyKey project commit t = _
    unfold dirtyKey partitionPrefix underProject
    simp only [List.append_assoc, List.cons_append, List.nil_append]
    rfl
  | bless t =>
    show set.blessKey project commit t = _
    unfold blessKey partitionPrefix underProject
    simp only [List.append_assoc, List.cons_append, List.nil_append]
    rfl

/-- The segments of a set that `new` built are whole segments. -/
theorem slash_not_mem_segments (engine : Engine) (targetTriple machineKey project : Text) :
    ∀ segment ∈ (new engine targetTriple machineKey).segments project, '/' ∉ segment := by
  have hsanitized := slash_not_mem_sanitizeSegment
  have hengine : '/' ∉ engine.asStr := by cases engine <;> decide
  unfold segments new
  simp only [List.forall_mem_cons]
  exact ⟨by decide, hsanitized project, by decide, hengine, hsanitized targetTriple,
    hsanitized machineKey, nofun⟩

end DiscriminantSet

/-! ## Keys -/

theorem Engine.fromName_asStr (engine : Engine) : Engine.fromName engine.asStr = some engine := by
  cases engine <;> decide

section Keys

variable (engine : Engine) (targetTriple machineKey project commit : Text) (object : CommitObject)

theorem slash_not_mem_directory :
    ∀ segment ∈ (DiscriminantSet.new engine targetTriple machineKey).segments project ++
      [sanitizeSegment commit], '/' ∉ segment := by
  intro segment hmem
  rcases List.mem_append.mp hmem with hmem | hmem
  · exact DiscriminantSet.slash_not_mem_segments _ _ _ _ segment hmem
  · rw [List.mem_singleton.mp hmem]
    exact slash_not_mem_sanitizeSegment commit

/-- A key is taken apart into what it was built from. -/
theorem parseKey_key :
    parseKey (object.key (.new engine targetTriple machineKey) project commit) =
      some { project := sanitizeSegment project
             set := .new engine targetTriple machineKey
             commit := sanitizeSegment commit
             kind := object.kind } := by
  have hsplit : (object.key (.new engine targetTriple machineKey) project commit).splitOn '/' =
      [storageVersion, sanitizeSegment project, objectsSegment, engine.asStr,
        sanitizeSegment targetTriple, sanitizeSegment machineKey, sanitizeSegment commit,
        object.fileSegment] := by
    rw [DiscriminantSet.key_eq]
    exact splitOn_ended (slash_not_mem_directory _ _ _ _ _) object.slash_not_mem_fileSegment
  have hfile : object.fileSegment ≠ [] := by
    cases object <;> exact List.cons_ne_nil _ _
  have hengine : engine.asStr ≠ [] := by
    cases engine <;> exact List.cons_ne_nil _ _
  have hsegments : ([storageVersion, sanitizeSegment project, objectsSegment, engine.asStr,
      sanitizeSegment targetTriple, sanitizeSegment machineKey, sanitizeSegment commit,
      object.fileSegment].any List.isEmpty) = false := by
    simp only [List.any_cons, List.any_nil, List.isEmpty_eq_false_iff.mpr hfile,
      List.isEmpty_eq_false_iff.mpr hengine,
      List.isEmpty_eq_false_iff.mpr (sanitizeSegment_ne_nil _)]
    rfl
  unfold parseKey
  rw [hsplit]
  dsimp only
  rw [if_neg (by decide), hsegments, if_neg Bool.false_ne_true, engine.fromName_asStr,
    Option.bind_some, object.fromFileSegment_fileSegment]
  rfl

end Keys

/-- **Storage keys round-trip and partition**: a key is parsed as what it was
built from, and begins with the prefixes of its own partition and commit
directory and with no other; so different objects have different keys. -/
theorem storageKeys_partition (engine : Engine) (targetTriple machineKey project commit : Text)
    (object : CommitObject) :
    let set := DiscriminantSet.new engine targetTriple machineKey
    let key := object.key set project commit
    parseKey key = some { project := sanitizeSegment project, set,
                          commit := sanitizeSegment commit, kind := object.kind } ∧
    ∀ (engine' : Engine) (targetTriple' machineKey' project' commit' : Text),
      let set' := DiscriminantSet.new engine' targetTriple' machineKey'
      (set'.partitionPrefix project' <+: key ↔
        sanitizeSegment project' = sanitizeSegment project ∧ set' = set) ∧
      (set'.commitPrefix project' commit' <+: key ↔
        (sanitizeSegment project' = sanitizeSegment project ∧ set' = set) ∧
          sanitizeSegment commit' = sanitizeSegment commit) ∧
      ∀ object' : CommitObject, object'.key set' project' commit' = key →
        object' = object := by
  intro set key
  refine ⟨parseKey_key .., fun engine' targetTriple' machineKey' project' commit' => ?_⟩
  intro set'
  have hdirectory := slash_not_mem_directory engine targetTriple machineKey project commit
  have hfile := object.slash_not_mem_fileSegment
  refine ⟨?_, ?_, fun object' hkey => ?_⟩
  · show _ <+: object.key set project commit ↔ _
    rw [DiscriminantSet.partitionPrefix_eq, DiscriminantSet.key_eq,
      ended_prefix_iff (DiscriminantSet.slash_not_mem_segments _ _ _ _) hdirectory hfile,
      ← DiscriminantSet.segments_inj]
    constructor
    · rintro ⟨tail, htail⟩
      exact (List.append_inj htail rfl).1
    · intro heq
      rw [heq]
      exact List.prefix_append ..
  · show _ <+: object.key set project commit ↔ _
    rw [DiscriminantSet.commitPrefix_eq, DiscriminantSet.key_eq,
      ended_prefix_iff (slash_not_mem_directory _ _ _ _ _) hdirectory hfile,
      ← DiscriminantSet.segments_inj]
    constructor
    · intro hfront
      obtain ⟨hsegments, hcommit⟩ := List.append_inj (hfront.eq_of_length rfl) rfl
      exact ⟨hsegments, (List.cons.inj hcommit).1⟩
    · rintro ⟨hsegments, hcommit⟩
      rewrite [hsegments, hcommit]
      exact List.prefix_rfl
  · have hparsed := (parseKey_key engine' targetTriple' machineKey' project' commit' object').symm
    rw [hkey, parseKey_key] at hparsed
    exact CommitObject.kind_injective (congrArg StorageKey.kind (Option.some.inj hparsed))

end Folo.BenchHistory
