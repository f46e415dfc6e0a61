import Folo.Lib.Sorting
import Folo.Lib.Texts
import Folo.ReleasePlan.Versions
import Mathlib.Data.Char
import Mathlib.Data.List.DropRight
import Mathlib.Data.List.Infix
import Mathlib.Data.List.Lex

/-!
# Paths that Git records

The path helpers of `crp_workspace/manifest.rs` (`PathCase`), `git.rs` and
`crp_versioning/classify.rs`. The directories are not recorded: one is there
when a recorded path is below it, and its recorded spelling is the front of
such a path (`recordedDirectory_mem`), as its children are
(`directTrackedChildren_mem`).
-/

namespace Folo.ReleasePlan

open Folo.Lib

/-- How the filesystem that holds the workspace resolves path case, with
`char::to_lowercase` where it matters. -/
inductive PathCase
  | sensitive
  | insensitive (toLowercase : Char → List Char)

def manifestFileName : Text := "Cargo.toml".toList

/-- What is left without every leading `./`. -/
def stripDotSlashes : Text → Text
  | '.' :: '/' :: rest => stripDotSlashes rest
  | text => text

/-- `trim_end_matches('/')`. -/
def trimEndSlashes (text : Text) : Text := text.rdropWhile (· = '/')

/-- `trim_matches('/')`. -/
def trimSlashes (text : Text) : Text := trimEndSlashes (text.dropWhile (· = '/'))

/-- The text before one that it ends with. -/
def beforeSuffix (text suffix : Text) : Option Text :=
  if text.length < suffix.length then none else some (text.take (text.length - suffix.length))

namespace PathCase

variable (case : PathCase)

def samePath (left right : Text) : Bool :=
  match case with
  | .sensitive => left = right
  | .insensitive toLowercase => left.flatMap toLowercase = right.flatMap toLowercase

def recordedPath (paths : List Text) (requested : Text) : Option Text :=
  paths.find? fun path => case.samePath path requested

def isManifest (path : Text) : Bool :=
  (path.splitOn '/').getLast?.any fun name => case.samePath name manifestFileName

/-- One component of the directory. -/
def stripComponent (relative component : Text) : Option Text := do
  let (held, rest) ← splitOnce '/' relative
  if case.samePath held component then some rest else none

def relativize (full directory : Text) : Option Text :=
  let relative := stripDotSlashes full
  if directory = [] ∨ directory = ['.'] then some relative
  else ((trimEndSlashes directory).splitOn '/').foldlM case.stripComponent relative

end PathCase

/-- The separator of the host, as Git has it. -/
def toGitSeparators (relative : Text) (nativeSeparator : Char) : Text :=
  relative.map fun c => if c = nativeSeparator then '/' else c

def joinComponents (components : List Text) : Text := ['/'].intercalate components

def joinRelative (mainSeparator : Char) (base relative : Text) : Option Text :=
  let segments := if base = [] then [] else base.splitOn '/'
  (((toGitSeparators relative mainSeparator).splitOn '/').foldlM (fun segments segment =>
    if segment = [] ∨ segment = ['.'] then some segments
    else if segment = ['.', '.'] then
      if segments = [] then none else some segments.dropLast
    else some (segments ++ [segment])) segments).map joinComponents

def joinGitRel (front workspaceRel : Text) : Text :=
  joinComponents ((front.splitOn '/' ++ workspaceRel.splitOn '/').foldl (fun normalized component =>
    if component = [] ∨ component = ['.'] then normalized
    else if component = ['.', '.'] ∧ normalized.getLast?.any (· ≠ ['.', '.']) then
      normalized.dropLast
    else normalized ++ [component]) [])

def recordedDirectory (paths : List Text) (requested : Text) (case : PathCase) : Option Text :=
  paths.findSome? fun path => do
    let relative ← case.relativize path requested
    (beforeSuffix path relative).map trimEndSlashes

def nestedPackageDirs (paths : List Text) (dir : Text) (case : PathCase) : List Text :=
  (paths.filterMap fun path => do
    let (parent, _) ← rsplitOnce '/' path
    if case.isManifest path then some parent else none).filter
    fun parent => !case.samePath parent dir && (case.relativize parent dir).isSome

def isInsideAny (path : Text) (dirs : List Text) (case : PathCase) : Bool :=
  dirs.any fun dir => (case.relativize path dir).isSome

/-- The child of a directory that a path is or is below. -/
def childOf (directory : Text) (case : PathCase) (path : Text) : Option Text := do
  let relative ← case.relativize path directory
  let child ← (relative.splitOn '/').head?
  if child = [] then none
  else if relative = child then some path
  else (beforeSuffix path relative).map (· ++ child)

/-- In the order of the texts, each once. -/
def directTrackedChildren (paths : List Text) (directory : Text) (boundaryPaths : List Text)
    (case : PathCase) : List Text :=
  let nested := nestedPackageDirs boundaryPaths directory case
  treeSet ((paths.filter fun path => !isInsideAny path nested case).filterMap
    (childOf directory case))

def isPackageDirectory (mainSeparator : Char) (paths : List Text) (directory : Text)
    (case : PathCase) : Bool :=
  ((joinRelative mainSeparator directory manifestFileName).bind fun manifest =>
    case.recordedPath paths manifest).isSome

/-- Nothing where the child is not in the directory, which an `expect` excludes. -/
def archiveChild (archive child directory : Text) (case : PathCase) : Option Text :=
  (case.relativize child directory).map (joinGitRel archive)

/-! ## What is below a directory -/

theorem beforeSuffix_append (front suffix : Text) :
    beforeSuffix (front ++ suffix) suffix = some front := by
  have hlen : (front ++ suffix).length - suffix.length = front.length := by
    rw [List.length_append, Nat.add_sub_cancel]
  unfold beforeSuffix
  rw [if_neg (by rw [List.length_append]; omega), hlen, List.take_left]

theorem stripDotSlashes_eq_self {text : Text} (h : ¬ ['.', '/'] <+: text) :
    stripDotSlashes text = text := by
  unfold stripDotSlashes
  split
  next rest => exact absurd ⟨rest, rfl⟩ h
  next => rfl

theorem not_prefix_stripDotSlashes (text : Text) : ¬ ['.', '/'] <+: stripDotSlashes text := by
  induction text using stripDotSlashes.induct with
  | case1 rest ih => exact ih
  | case2 text hnot =>
    rw [stripDotSlashes.eq_2 text hnot]
    rintro ⟨rest, rfl⟩
    exact hnot rest rfl

theorem stripDotSlashes_append (full : Text) : ∃ front, full = front ++ stripDotSlashes full ∧
    ∀ rest, ¬ ['.', '/'] <+: rest → stripDotSlashes (front ++ rest) = rest := by
  induction full using stripDotSlashes.induct with
  | case1 rest ih =>
    obtain ⟨front, heq, hfront⟩ := ih
    exact ⟨'.' :: '/' :: front, congrArg (['.', '/'] ++ ·) heq, hfront⟩
  | case2 text hnot =>
    refine ⟨[], (stripDotSlashes.eq_2 text hnot).symm, fun rest hrest => ?_⟩
    exact stripDotSlashes_eq_self hrest

namespace PathCase

variable {case : PathCase}

/-- The components that are taken off, each the same as one of the directory. -/
theorem foldlM_stripComponent {components : List Text} {text relative : Text} :
    components.foldlM case.stripComponent text = some relative ↔ ∃ held,
      List.Forall₂ (fun h component => case.samePath h component = true ∧ '/' ∉ h)
        held components ∧ text = ended '/' held relative := by
  induction components generalizing text with
  | nil =>
    constructor
    · intro h
      exact ⟨[], .nil, Option.some.inj h⟩
    · rintro ⟨held, hheld, rfl⟩
      cases hheld
      rfl
  | cons component components ih =>
    rw [List.foldlM_cons]
    constructor
    · intro h
      obtain ⟨rest, hrest, h⟩ := Option.bind_eq_some_iff.mp h
      obtain ⟨⟨first, rest'⟩, hsplit, hsame⟩ := Option.bind_eq_some_iff.mp hrest
      obtain ⟨rfl, hnot⟩ := splitOnce_eq_some.mp hsplit
      dsimp only at hsame
      split at hsame
      next hpath =>
        obtain rfl := Option.some.inj hsame
        obtain ⟨held, hheld, rfl⟩ := ih.mp h
        exact ⟨first :: held, .cons ⟨hpath, hnot⟩ hheld, rfl⟩
      next => nomatch hsame
    · rintro ⟨held, hheld, rfl⟩
      cases hheld with
      | @cons first _ held _ hfirst hheld =>
        refine Option.bind_eq_some_iff.mpr ⟨ended '/' held relative, ?_, ih.mpr ⟨held, hheld, rfl⟩⟩
        refine Option.bind_eq_some_iff.mpr ⟨_, splitOnce_eq_some.mpr ⟨rfl, hfirst.2⟩, ?_⟩
        exact if_pos hfirst.1

/-- A path is what comes before its relative path, and then this; another name
in its place is relative to the same directory. -/
theorem relativize_eq_some {full directory relative : Text}
    (h : case.relativize full directory = some relative) :
    ∃ front, full = front ++ relative ∧
      ∀ rest, '/' ∉ rest → case.relativize (front ++ rest) directory = some rest := by
  unfold relativize at h ⊢
  obtain ⟨start, hstart, hstrip⟩ := stripDotSlashes_append full
  dsimp only at h ⊢
  by_cases hroot : directory = [] ∨ directory = ['.']
  · rw [if_pos hroot] at h
    rw [Option.some.inj h] at hstart
    refine ⟨start, hstart, fun rest hrest => ?_⟩
    rw [if_pos hroot, hstrip rest]
    intro hfront
    exact hrest (hfront.subset (List.mem_cons_of_mem _ (List.mem_cons_self ..)))
  · rw [if_neg hroot] at h
    obtain ⟨held, hheld, heq⟩ := foldlM_stripComponent.mp h
    have hended := ended_append '/' held
    refine ⟨start ++ ended '/' held [], ?_, fun rest _ => ?_⟩
    · rw [List.append_assoc, ← hended, ← heq]
      exact hstart
    · rw [if_neg hroot, List.append_assoc, ← hended, hstrip]
      · exact foldlM_stripComponent.mpr ⟨held, hheld, rfl⟩
      · cases held with
        | nil =>
          exact absurd (List.forall₂_nil_left_iff.mp hheld) (List.splitOn_ne_nil _ _)
        | cons first held =>
          obtain ⟨component, components, hfirst, -, -⟩ := List.forall₂_cons_left_iff.mp hheld
          rintro ⟨tail, htail⟩
          -- the first component would be a dot, and none is left at the front
          have hdot : ['.'] = first := (append_separator_inj (by decide) hfirst.2).mp
            (htail : ['.'] ++ '/' :: tail = first ++ '/' :: ended '/' held rest) |>.1
          refine not_prefix_stripDotSlashes full ⟨ended '/' held relative, ?_⟩
          rw [heq, ← hdot]
          rfl

end PathCase

/-- The fronts of the recorded paths: they, and the directories above them. -/
def fronts (paths : List Text) : List Text := paths.flatMap List.inits

theorem mem_fronts {paths : List Text} {front : Text} :
    front ∈ fronts paths ↔ ∃ path ∈ paths, front <+: path := by
  unfold fronts
  simp only [List.mem_flatMap, List.mem_inits]

theorem recordedPath_mem {case : PathCase} {paths : List Text} {requested path : Text}
    (h : case.recordedPath paths requested = some path) : path ∈ paths :=
  List.mem_of_find?_eq_some h

theorem recordedDirectory_mem {paths : List Text} {requested directory : Text} {case : PathCase}
    (h : recordedDirectory paths requested case = some directory) : directory ∈ fronts paths := by
  unfold recordedDirectory at h
  obtain ⟨path, hpath, h⟩ := List.exists_of_findSome?_eq_some h
  obtain ⟨relative, hrelative, h⟩ := Option.bind_eq_some_iff.mp h
  obtain ⟨front, rfl, -⟩ := PathCase.relativize_eq_some hrelative
  rw [beforeSuffix_append] at h
  obtain rfl := Option.some.inj h
  exact mem_fronts.mpr ⟨_, hpath, (List.rdropWhile_prefix _ _).trans (List.prefix_append ..)⟩

theorem slash_not_mem_of_head {text component : Text}
    (h : (text.splitOn '/').head? = some component) : '/' ∉ component :=
  not_mem_of_mem_splitOn (List.mem_of_head? h)

/-- The first component of a text begins it. -/
theorem head_splitOn_starts {text component : Text}
    (h : (text.splitOn '/').head? = some component) : component <+: text := by
  obtain ⟨rest, hrest⟩ := List.head?_eq_some_iff.mp h
  have htext : List.intercalate ['/'] (text.splitOn '/') = text := List.intercalate_splitOn '/'
  rw [hrest] at htext
  cases rest with
  | nil =>
    rw [List.intercalate_singleton] at htext
    exact htext ▸ List.prefix_refl _
  | cons next rest =>
    rw [List.intercalate_cons_cons, List.append_assoc] at htext
    exact htext ▸ List.prefix_append ..

/-- A child is the front of a recorded path, and in the directory. -/
theorem childOf_eq_some {directory path child : Text} {case : PathCase}
    (h : childOf directory case path = some child) :
    child <+: path ∧ ∃ name, case.relativize child directory = some name := by
  unfold childOf at h
  obtain ⟨relative, hrelative, h⟩ := Option.bind_eq_some_iff.mp h
  obtain ⟨component, hcomponent, h⟩ := Option.bind_eq_some_iff.mp h
  obtain ⟨front, rfl, hother⟩ := PathCase.relativize_eq_some hrelative
  split at h
  next => nomatch h
  next =>
    split at h
    next =>
      obtain rfl := Option.some.inj h
      exact ⟨List.prefix_refl _, relative, hrelative⟩
    next =>
      rw [beforeSuffix_append] at h
      obtain rfl := Option.some.inj h
      exact ⟨(List.prefix_append_right_inj front).mpr (head_splitOn_starts hcomponent),
        component, hother component (slash_not_mem_of_head hcomponent)⟩

theorem directTrackedChildren_mem {paths boundaryPaths : List Text} {directory child : Text}
    {case : PathCase} (h : child ∈ directTrackedChildren paths directory boundaryPaths case) :
    child ∈ fronts paths ∧ ∃ name, case.relativize child directory = some name := by
  obtain ⟨path, hpath, hchild⟩ := List.mem_filterMap.mp (mem_treeSet.mp h)
  obtain ⟨hfront, hname⟩ := childOf_eq_some hchild
  exact ⟨mem_fronts.mpr ⟨path, (List.mem_filter.mp hpath).1, hfront⟩, hname⟩

end Folo.ReleasePlan
