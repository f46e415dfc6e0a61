import Mathlib.Logic.Function.Basic

/-!
# Files and their names

A directory gives names to files. A file is an identity with content of its
own, so that an open handle (a `FileId`) goes on addressing the file it was
opened on, whatever the name has come to mean since. What opens and moves by
name and what writes and deletes by handle are different operations.

No file has two names and no name points at a file that does not exist yet:
`Files` carries both facts, so every operation keeps them.
-/

namespace Folo.Lib

/-- The identity of a file. -/
abbrev FileId := Nat

/-- A directory over names `N` of files with content `B`. -/
structure Files (N B : Type*) where
  names : N → Option FileId
  bytes : FileId → B
  next : FileId
  names_inj : ∀ {n m : N} {f : FileId}, names n = some f → names m = some f → n = m
  names_lt : ∀ {n : N} {f : FileId}, names n = some f → f < next

/-- Why a file could not be moved. -/
inductive MoveError
  | notFound
  | alreadyExists
  deriving DecidableEq

namespace Files

variable {N B : Type*}

/-- The directory without a file; `b` stands for content that is never read. -/
def empty (b : B) : Files N B where
  names _ := none
  bytes _ := b
  next := 0
  names_inj h := nomatch h
  names_lt h := nomatch h

/-- The file a name points at, with its content. -/
def entry (fs : Files N B) (n : N) : Option (FileId × B) :=
  (fs.names n).map fun f => (f, fs.bytes f)

/-- Read a whole file by name. -/
def readAt (fs : Files N B) (n : N) : Option B :=
  (fs.names n).map fs.bytes

/-- Write through a handle. -/
def write (fs : Files N B) (f : FileId) (b : B) : Files N B :=
  { fs with bytes := Function.update fs.bytes f b }

/-- Delete through a handle: the file loses its name, if it still has one. -/
def delete (fs : Files N B) (f : FileId) : Files N B where
  names n := if fs.names n = some f then none else fs.names n
  bytes := fs.bytes
  next := fs.next
  names_inj hn hm := by
    split at hn
    · cases hn
    · split at hm
      · cases hm
      · exact fs.names_inj hn hm
  names_lt hn := by
    split at hn
    · cases hn
    · exact fs.names_lt hn

/-! ## Reading, and operations through a handle -/

section

variable {fs : Files N B} {n m : N} {f g : FileId} {b : B}

theorem readAt_eq (fs : Files N B) (n : N) : fs.readAt n = (fs.entry n).map Prod.snd := by
  rw [readAt, entry, Option.map_map]
  rfl

theorem readAt_of_names (h : fs.names n = some f) : fs.readAt n = some (fs.bytes f) := by
  rw [readAt, h]
  rfl

theorem readAt_eq_some : fs.readAt n = some b ↔ ∃ f, fs.names n = some f ∧ fs.bytes f = b :=
  Option.map_eq_some_iff

/-- An entry is the name's file and that file's content. -/
theorem entry_congr {fs fs' : Files N B} (hn : fs'.names n = fs.names n)
    (hb : ∀ f, fs.names n = some f → fs'.bytes f = fs.bytes f) : fs'.entry n = fs.entry n := by
  rw [entry, entry, hn]
  cases h : fs.names n with
  | none => rfl
  | some f => rw [Option.map_some, Option.map_some, hb f h]

theorem names_of_entry_eq {fs fs' : Files N B} (h : fs'.entry n = fs.entry n) :
    fs'.names n = fs.names n := by
  have := congrArg (Option.map Prod.fst) h
  simpa only [entry, Option.map_map, Function.comp_def, Option.map_id'] using this

theorem readAt_of_entry_eq {fs fs' : Files N B} (h : fs'.entry n = fs.entry n) :
    fs'.readAt n = fs.readAt n := by
  rw [readAt_eq, readAt_eq, h]

@[simp] theorem write_names : (fs.write f b).names = fs.names := rfl
@[simp] theorem write_next : (fs.write f b).next = fs.next := rfl
@[simp] theorem write_bytes_self : (fs.write f b).bytes f = b := Function.update_self ..
@[simp] theorem write_bytes_of_ne (h : g ≠ f) : (fs.write f b).bytes g = fs.bytes g :=
  Function.update_of_ne h ..

/-- A write through a handle is seen under the file's own name only. -/
theorem write_entry_of_ne (h : fs.names n = some f) (hne : m ≠ n) :
    (fs.write f b).entry m = fs.entry m :=
  entry_congr rfl fun _ hg => write_bytes_of_ne fun hgf => hne (fs.names_inj (hgf ▸ hg) h)

theorem delete_names_eq (fs : Files N B) (f : FileId) (n : N) :
    (fs.delete f).names n = if fs.names n = some f then none else fs.names n := rfl

theorem delete_entry_of_ne (h : fs.names n ≠ some f) : (fs.delete f).entry n = fs.entry n :=
  entry_congr (if_neg h) fun _ _ => rfl

/-- What is there after a deletion was there before. -/
theorem entry_of_delete {e : FileId × B} (h : (fs.delete f).entry n = some e) :
    fs.entry n = some e := by
  by_cases hname : fs.names n = some f
  · rw [entry, delete_names_eq, if_pos hname] at h
    cases h
  · exact (delete_entry_of_ne hname).symm.trans h

end

/-! ## Operations by name -/

variable [DecidableEq N]

/-- Give a name to a new file; what had the name loses it. -/
def create (fs : Files N B) (n : N) (b : B) : Files N B where
  names := Function.update fs.names n (some fs.next)
  bytes := Function.update fs.bytes fs.next b
  next := fs.next + 1
  names_inj {x y f} hx hy := by
    by_cases hxn : x = n <;> by_cases hyn : y = n
    · rw [hxn, hyn]
    · rw [hxn, Function.update_self] at hx
      rw [Function.update_of_ne hyn] at hy
      exact absurd (fs.names_lt hy) (Option.some.inj hx ▸ Nat.lt_irrefl _)
    · rw [Function.update_of_ne hxn] at hx
      rw [hyn, Function.update_self] at hy
      exact absurd (fs.names_lt hx) (Option.some.inj hy ▸ Nat.lt_irrefl _)
    · rw [Function.update_of_ne hxn] at hx
      rw [Function.update_of_ne hyn] at hy
      exact fs.names_inj hx hy
  names_lt {x f} hx := by
    by_cases hxn : x = n
    · rw [hxn, Function.update_self] at hx
      exact Option.some.inj hx ▸ Nat.lt_succ_self _
    · rw [Function.update_of_ne hxn] at hx
      exact Nat.lt_succ_of_lt (fs.names_lt hx)

/-- Create a file that must not exist, and open it. -/
def createNew (fs : Files N B) (n : N) (b : B) : Option (Files N B × FileId) :=
  match fs.names n with
  | some _ => none
  | none => some (fs.create n b, fs.next)

/-- Open a file for writing from the start: truncated to `b` if it exists,
created if it does not. -/
def createTruncated (fs : Files N B) (n : N) (b : B) : Files N B × FileId :=
  match fs.names n with
  | some f => (fs.write f b, f)
  | none => (fs.create n b, fs.next)

/-- Remove a name. -/
def unlink (fs : Files N B) (n : N) : Files N B where
  names := Function.update fs.names n none
  bytes := fs.bytes
  next := fs.next
  names_inj {x y f} hx hy := by
    by_cases hxn : x = n
    · rw [hxn, Function.update_self] at hx
      cases hx
    · by_cases hyn : y = n
      · rw [hyn, Function.update_self] at hy
        cases hy
      · rw [Function.update_of_ne hxn] at hx
        rw [Function.update_of_ne hyn] at hy
        exact fs.names_inj hx hy
  names_lt {x f} hx := by
    by_cases hxn : x = n
    · rw [hxn, Function.update_self] at hx
      cases hx
    · rw [Function.update_of_ne hxn] at hx
      exact fs.names_lt hx

/-- Move the file that `src` points at to `dst`, which whatever had it loses. -/
def rename (fs : Files N B) (src dst : N) (f : FileId) (h : fs.names src = some f) :
    Files N B where
  names := Function.update (Function.update fs.names src none) dst (some f)
  bytes := fs.bytes
  next := fs.next
  names_inj {x y g} hx hy := by
    -- only `dst` points at `f` afterwards
    have hold : ∀ {z : N}, z ≠ dst →
        Function.update (Function.update fs.names src none) dst (some f) z = some g →
        fs.names z = some g ∧ g ≠ f := by
      intro z hz hzg
      rw [Function.update_of_ne hz] at hzg
      by_cases hzs : z = src
      · rw [hzs, Function.update_self] at hzg
        cases hzg
      · rw [Function.update_of_ne hzs] at hzg
        refine ⟨hzg, ?_⟩
        rintro rfl
        exact hzs (fs.names_inj hzg h)
    by_cases hxd : x = dst <;> by_cases hyd : y = dst
    · rw [hxd, hyd]
    · rw [hxd, Function.update_self] at hx
      exact absurd (Option.some.inj hx).symm (hold hyd hy).2
    · rw [hyd, Function.update_self] at hy
      exact absurd (Option.some.inj hy).symm (hold hxd hx).2
    · exact fs.names_inj (hold hxd hx).1 (hold hyd hy).1
  names_lt {x g} hx := by
    by_cases hxd : x = dst
    · rw [hxd, Function.update_self] at hx
      exact fs.names_lt (h.trans hx)
    · rw [Function.update_of_ne hxd] at hx
      by_cases hxs : x = src
      · rw [hxs, Function.update_self] at hx
        cases hx
      · rw [Function.update_of_ne hxs] at hx
        exact fs.names_lt hx

/-- Move a file to a name, taking the name from whatever had it. -/
def moveReplace (fs : Files N B) (src dst : N) : Except MoveError (Files N B) :=
  match h : fs.names src with
  | none => .error .notFound
  | some f => .ok (fs.rename src dst f h)

/-- Move a file to a name that nothing has. -/
def moveNoReplace (fs : Files N B) (src dst : N) : Except MoveError (Files N B) :=
  match fs.names dst with
  | none => fs.moveReplace src dst
  | some _ => if fs.names src = none then .error .notFound else .error .alreadyExists

section

variable {fs fs' : Files N B} {n m src dst : N} {f : FileId} {b : B}

@[simp] theorem create_names_self : (fs.create n b).names n = some fs.next :=
  Function.update_self ..
@[simp] theorem create_names_of_ne (h : m ≠ n) : (fs.create n b).names m = fs.names m :=
  Function.update_of_ne h ..
@[simp] theorem create_next : (fs.create n b).next = fs.next + 1 := rfl
theorem create_bytes_of_lt (h : f < fs.next) : (fs.create n b).bytes f = fs.bytes f :=
  Function.update_of_ne (Nat.ne_of_lt h) ..

theorem create_entry_of_ne (h : m ≠ n) : (fs.create n b).entry m = fs.entry m :=
  entry_congr (create_names_of_ne h) fun _ hf => create_bytes_of_lt (fs.names_lt hf)

@[simp] theorem unlink_names_self : (fs.unlink n).names n = none := Function.update_self ..
@[simp] theorem unlink_names_of_ne (h : m ≠ n) : (fs.unlink n).names m = fs.names m :=
  Function.update_of_ne h ..

theorem unlink_entry_of_ne (h : m ≠ n) : (fs.unlink n).entry m = fs.entry m :=
  entry_congr (unlink_names_of_ne h) fun _ _ => rfl

/-- What a move that replaces does, as one fact. -/
theorem moveReplace_cases (h : fs.moveReplace src dst = .ok fs') :
    ∃ f, fs.names src = some f ∧ fs'.bytes = fs.bytes ∧ fs'.next = fs.next ∧
      fs'.names = Function.update (Function.update fs.names src none) dst (some f) := by
  unfold moveReplace at h
  split at h
  · cases h
  next f hf =>
    obtain rfl := Except.ok.inj h
    exact ⟨f, hf, rfl, rfl, rfl⟩

theorem moveNoReplace_cases (h : fs.moveNoReplace src dst = .ok fs') :
    fs.names dst = none ∧ fs.moveReplace src dst = .ok fs' := by
  unfold moveNoReplace at h
  split at h
  next hd => exact ⟨hd, h⟩
  · split at h <;> cases h

theorem moveReplace_entry_of_ne (h : fs.moveReplace src dst = .ok fs') (hs : n ≠ src)
    (hd : n ≠ dst) : fs'.entry n = fs.entry n := by
  obtain ⟨f, -, hb, -, hn⟩ := moveReplace_cases h
  refine entry_congr ?_ fun _ _ => by rw [hb]
  rw [hn, Function.update_of_ne hd, Function.update_of_ne hs]

/-- The destination is the very file that was moved. -/
theorem moveReplace_entry_dst (h : fs.moveReplace src dst = .ok fs') :
    fs'.entry dst = fs.entry src := by
  obtain ⟨f, hf, hb, -, hn⟩ := moveReplace_cases h
  rw [entry, entry, hf, hn, Function.update_self, hb]

theorem moveReplace_names_src (h : fs.moveReplace src dst = .ok fs') (hne : src ≠ dst) :
    fs'.names src = none := by
  obtain ⟨f, -, -, -, hn⟩ := moveReplace_cases h
  rw [hn, Function.update_of_ne hne, Function.update_self]

end

end Files

end Folo.Lib
