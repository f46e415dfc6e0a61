import Mathlib.Data.List.TakeWhile

/-!
# Storage keys

`sanitize_segment` of `cbh_model` and the keys of `cbh_storage/keys.rs`. A
key is the list of its characters. A project's data lives under its objects
prefix and its invalidation marker beside it, so that no marker is among the
objects and no object belongs to two projects.
-/

namespace Folo.BenchHistory

abbrev Key := List Char

/-- `STORAGE_VERSION`. -/
def storageVersion : Key := ['v', '1']

/-- `OBJECTS_SEGMENT`. -/
def objectsSegment : Key := ['o', 'b', 'j', 'e', 'c', 't', 's']

/-- `CACHE_EPOCH_SEGMENT`. -/
def cacheEpochSegment : Key := ['_', 'c', 'a', 'c', 'h', 'e', '-', 'e', 'p', 'o', 'c', 'h']

/-- What a character of a segment becomes. -/
def sanitizeChar (c : Char) : Char :=
  if c.isAlphanum || c = '-' || c = '_' || c = '.' then c.toLower else '_'

def sanitizeSegment (raw : Key) : Key :=
  let mangled := raw.map sanitizeChar
  if mangled.isEmpty || mangled.all (· = '.') then ['_'] else mangled

/-- What `project`, already sanitized, is followed by. -/
def underProject (project rest : Key) : Key :=
  storageVersion ++ '/' :: (project ++ '/' :: rest)

def cacheEpochKey (project : Key) : Key :=
  underProject (sanitizeSegment project) cacheEpochSegment

def projectObjectsPrefix (project : Key) : Key :=
  underProject (sanitizeSegment project) (objectsSegment ++ ['/'])

theorem sanitizeChar_ne_slash (c : Char) : sanitizeChar c ≠ '/' := by
  unfold sanitizeChar
  split
  next h =>
    intro hc
    unfold Char.toLower at hc
    split at hc
    next hup =>
      -- a lower-case letter is beyond the slash
      have hval : c.val + ('a'.val - 'A'.val) = '/'.val := congrArg Char.val hc
      have hge : 'A'.val.toNat ≤ c.val.toNat := hup.1
      have hle : c.val.toNat ≤ 'Z'.val.toNat := hup.2
      have hnat := congrArg UInt32.toNat hval
      rw [UInt32.toNat_add, show ('a'.val - 'A'.val).toNat = 32 from rfl] at hnat
      rw [show 'A'.val.toNat = 65 from rfl] at hge
      rw [show 'Z'.val.toNat = 90 from rfl] at hle
      rw [show '/'.val.toNat = 47 from rfl] at hnat
      omega
    next =>
      subst hc
      exact absurd h (by decide)
  next => decide

theorem slash_not_mem_sanitizeSegment (raw : Key) : '/' ∉ sanitizeSegment raw := by
  unfold sanitizeSegment
  simp only
  split
  · decide
  · intro hmem
    obtain ⟨c, -, hc⟩ := List.mem_map.mp hmem
    exact sanitizeChar_ne_slash c hc

/-- A segment ends at the first slash. -/
theorem takeWhile_segment {segment rest : Key} (h : '/' ∉ segment) :
    (segment ++ '/' :: rest).takeWhile (· ≠ '/') = segment := by
  rw [List.takeWhile_append_of_pos fun c hc => ?_]
  · simp
  · simp only [ne_eq, decide_not, Bool.not_eq_eq_eq_not, Bool.not_true, decide_eq_false_iff_not]
    rintro rfl
    exact h hc

/-- The project of a key can be read off the key. -/
theorem project_eq_of_isPrefix {p q x y l : Key} (hp : '/' ∉ p) (hq : '/' ∉ q)
    (hx : underProject p x <+: l) (hy : underProject q y <+: l) : p = q := by
  obtain ⟨tx, rfl⟩ := hx
  obtain ⟨ty, hty⟩ := hy
  have hrest : p ++ '/' :: (x ++ tx) = q ++ '/' :: (y ++ ty) := by
    simpa [underProject, storageVersion] using hty.symm
  have htake := congrArg (List.takeWhile (· ≠ '/')) hrest
  rwa [takeWhile_segment hp, takeWhile_segment hq] at htake

/-- No marker is among a project's objects. -/
theorem marker_not_object (p q : Key) : ¬ projectObjectsPrefix p <+: cacheEpochKey q := by
  intro h
  have hpq : sanitizeSegment p = sanitizeSegment q :=
    project_eq_of_isPrefix (slash_not_mem_sanitizeSegment p) (slash_not_mem_sanitizeSegment q) h
      (List.prefix_refl _)
  unfold projectObjectsPrefix cacheEpochKey at h
  rw [hpq] at h
  obtain ⟨t, ht⟩ := h
  simp [underProject, objectsSegment, cacheEpochSegment] at ht

/-- An object of two projects makes them one. -/
theorem project_eq_of_object {p q k : Key} (hp : projectObjectsPrefix p <+: k)
    (hq : projectObjectsPrefix q <+: k) : sanitizeSegment p = sanitizeSegment q :=
  project_eq_of_isPrefix (slash_not_mem_sanitizeSegment p) (slash_not_mem_sanitizeSegment q) hp hq

/-- Two projects with one marker are one. -/
theorem project_eq_of_marker {p q : Key} (h : cacheEpochKey p = cacheEpochKey q) :
    sanitizeSegment p = sanitizeSegment q := by
  have hq : underProject (sanitizeSegment q) cacheEpochSegment <+: cacheEpochKey p := by
    rw [h]
    exact List.prefix_refl _
  exact project_eq_of_isPrefix (slash_not_mem_sanitizeSegment p) (slash_not_mem_sanitizeSegment q)
    (List.prefix_refl _) hq

end Folo.BenchHistory
