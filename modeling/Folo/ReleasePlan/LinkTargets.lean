import Folo.Lib.Outcomes
import Folo.ReleasePlan.GitPaths

/-!
# Targets of links

`resolve_symlink_target` of `crp_versioning/classify.rs`. The target is walked
on the components of the link's directory, which stand there as they are: what
comes out is made of names only if these are (`resolveSymlinkTarget_ok`).
-/

namespace Folo.ReleasePlan

open Folo.Lib

/-- What can go wrong when links are followed; `acquisition` is an error of
reading the tree. -/
inductive LinkError (ε : Type)
  | encoding (package path : Text)
  | absolute (package path target : Text)
  | nonPortable (package path target : Text)
  | escaping (package path target : Text)
  | cycle (package path target : Text)
  | missing (package path target : Text)
  | nonRegular (package path target : Text)
  | nonCanonical (package path target : Text)
  | acquisition (error : ε)
  | panicked

variable {ε : Type}

def symlinkTargetIsAbsolute (target : Text) : Bool :=
  match target with
  | '/' :: _ => true
  | drive :: ':' :: _ => drive.isAlpha
  | _ => false

def withinWorkspace (path workspaceDir : Text) (case : PathCase) : Bool :=
  let workspaceDir := trimSlashes workspaceDir
  workspaceDir.isEmpty || case.samePath path workspaceDir ||
    (case.relativize path workspaceDir).isSome

/-- The components of the directory that a link is in. -/
def parentComponents (linkPath : Text) : List Text :=
  (((rsplitOnce '/' linkPath).elim [] Prod.fst).splitOn '/').filter (· ≠ [])

/-- One component of the target, and whether one before it was a name. -/
def takeComponent (name releasedPath target : Text) :
    List Text × Bool → Text → Except (LinkError ε) (List Text × Bool)
  | (components, sawNamedComponent), component =>
    if component = [] ∨ component = ['.'] then .ok (components, sawNamedComponent)
    else if component = ['.', '.'] then
      if sawNamedComponent then .error (.nonCanonical name releasedPath target)
      else if components = [] then .error (.escaping name releasedPath target)
      else .ok (components.dropLast, sawNamedComponent)
    else .ok (components ++ [component], true)

def resolveSymlinkTarget (name releasedPath linkPath target workspaceDir : Text)
    (case : PathCase) : Except (LinkError ε) Text :=
  if '\\' ∈ target ∨ '\x00' ∈ target then .error (.nonPortable name releasedPath target)
  else if symlinkTargetIsAbsolute target then .error (.absolute name releasedPath target)
  else if target = ['.'] ∨ ['/'] <:+ target ∨ ['/', '.'] <:+ target then
    .error (.nonCanonical name releasedPath target)
  else do
    let (components, _) ← (target.splitOn '/').foldlM (takeComponent name releasedPath target)
      (parentComponents linkPath, false)
    let resolved := joinComponents components
    if withinWorkspace resolved workspaceDir case then .ok resolved
    else .error (.escaping name releasedPath target)

/-! ## Resolved paths are inside -/

/-- A component that is a name. -/
def Named (component : Text) : Prop :=
  component ≠ [] ∧ component ≠ ['.'] ∧ component ≠ ['.', '.'] ∧ '/' ∉ component

/-- The workspace directory or below it, up to case. -/
def Inside (path workspaceDir : Text) (case : PathCase) : Prop :=
  trimSlashes workspaceDir = [] ∨ trimSlashes workspaceDir = ['.'] ∨
    case.samePath path (trimSlashes workspaceDir) = true ∨
    ∃ above below, path = above ++ '/' :: below ∧
      case.samePath above (trimSlashes workspaceDir) = true

theorem takeComponent_named {name releasedPath target component : Text}
    {state state' : List Text × Bool} (hslash : '/' ∉ component)
    (h : ∀ c ∈ state.1, Named c)
    (hok : takeComponent (ε := ε) name releasedPath target state component = .ok state') :
    ∀ c ∈ state'.1, Named c := by
  obtain ⟨components, named⟩ := state
  unfold takeComponent at hok
  dsimp only at hok h
  split at hok
  next =>
    obtain rfl := Except.ok.inj hok
    exact h
  next hempty =>
    split at hok
    next =>
      split at hok
      next => nomatch hok
      next =>
        split at hok
        next => nomatch hok
        next =>
          obtain rfl := Except.ok.inj hok
          exact fun c hc => h c (List.mem_of_mem_dropLast hc)
    next hup =>
      obtain rfl := Except.ok.inj hok
      intro c hc
      rcases List.mem_append.mp hc with hc | hc
      · exact h c hc
      · rw [List.mem_singleton.mp hc]
        rw [not_or] at hempty
        exact ⟨hempty.1, hempty.2, hup, hslash⟩

/-- Names do not begin with a dot and a slash. -/
theorem stripDotSlashes_joinComponents {components : List Text} (h : ∀ c ∈ components, Named c) :
    stripDotSlashes (joinComponents components) = joinComponents components := by
  refine stripDotSlashes_eq_self ?_
  rintro ⟨tail, htail⟩
  cases components with
  | nil => nomatch htail
  | cons first rest =>
    obtain ⟨-, hdot, -, hslash⟩ := h first (List.mem_cons_self ..)
    unfold joinComponents at htail
    cases rest with
    | nil =>
      rw [List.intercalate_singleton] at htail
      exact hslash (htail ▸ List.mem_cons_of_mem _ (List.mem_cons_self ..))
    | cons next rest =>
      rw [List.intercalate_cons_cons, List.append_assoc] at htail
      have hdotless : '/' ∉ ['.'] := by decide
      have hfirst := (append_separator_inj hdotless hslash).mp
        (htail : ['.'] ++ '/' :: tail = first ++ '/' :: ['/'].intercalate (next :: rest))
      exact hdot hfirst.1.symm

theorem samePath_append {case : PathCase} {a b c d : Text} (h : case.samePath a b = true)
    (h' : case.samePath c d = true) : case.samePath (a ++ c) (b ++ d) = true := by
  cases case with
  | sensitive =>
    have h := of_decide_eq_true h
    have h' := of_decide_eq_true h'
    exact decide_eq_true (by rw [h, h'])
  | insensitive toLowercase =>
    have h := of_decide_eq_true h
    have h' := of_decide_eq_true h'
    exact decide_eq_true (by rw [List.flatMap_append, List.flatMap_append, h, h'])

theorem samePath_self (case : PathCase) (text : Text) : case.samePath text text = true := by
  cases case with
  | sensitive => exact decide_eq_true rfl
  | insensitive toLowercase => exact decide_eq_true rfl

/-- Components that are the same one by one are the same path. -/
theorem samePath_joinComponents {case : PathCase} {held components : List Text}
    (h : List.Forall₂ (fun a b => case.samePath a b = true) held components) :
    case.samePath (joinComponents held) (joinComponents components) = true := by
  unfold joinComponents
  induction h with
  | nil => exact samePath_self case []
  | @cons first component held components hfirst hrest ih =>
    cases hrest with
    | nil =>
      rw [List.intercalate_singleton, List.intercalate_singleton]
      exact hfirst
    | cons hnext hrest =>
      rw [List.intercalate_cons_cons, List.intercalate_cons_cons]
      exact samePath_append (samePath_append hfirst (samePath_self case _)) ih

theorem ended_eq_join {held : List Text} (hne : held ≠ []) (rest : Text) :
    ended '/' held rest = joinComponents held ++ '/' :: rest := by
  unfold joinComponents
  induction held with
  | nil => exact absurd rfl hne
  | cons first held ih =>
    show first ++ '/' :: ended '/' held rest = _
    cases held with
    | nil =>
      rw [List.intercalate_singleton]
      rfl
    | cons next held =>
      rw [ih (List.cons_ne_nil _ _), List.intercalate_cons_cons, List.append_assoc,
        List.append_assoc]
      rfl

theorem inside_of_withinWorkspace {workspaceDir : Text} {case : PathCase}
    {components : List Text} (hnamed : ∀ c ∈ components, Named c)
    (h : withinWorkspace (joinComponents components) workspaceDir case = true) :
    Inside (joinComponents components) workspaceDir case := by
  unfold withinWorkspace at h
  dsimp only at h
  rw [Bool.or_eq_true, Bool.or_eq_true, List.isEmpty_iff] at h
  rcases h with (hempty | hsame) | hbelow
  · exact .inl hempty
  · exact .inr (.inr (.inl hsame))
  · obtain ⟨relative, hrelative⟩ := Option.isSome_iff_exists.mp hbelow
    unfold PathCase.relativize at hrelative
    dsimp only at hrelative
    split at hrelative
    next hroot =>
      rcases hroot with hempty | hdot
      · exact .inl hempty
      · exact .inr (.inl hdot)
    next =>
      obtain ⟨held, hheld, heq⟩ := PathCase.foldlM_stripComponent.mp hrelative
      rw [stripDotSlashes_joinComponents hnamed] at heq
      have htrim : trimEndSlashes (trimSlashes workspaceDir) = trimSlashes workspaceDir :=
        List.rdropWhile_idempotent ..
      rw [htrim] at hheld
      have hne : held ≠ [] := by
        rintro rfl
        exact List.splitOn_ne_nil _ _ (List.forall₂_nil_left_iff.mp hheld)
      have hsame := samePath_joinComponents (hheld.imp fun _ _ hh => hh.1)
      unfold joinComponents at hsame
      rw [List.intercalate_splitOn] at hsame
      rw [heq, ended_eq_join hne]
      exact .inr (.inr (.inr ⟨_, relative, rfl, hsame⟩))

/-- **A resolved path is inside**, and made of names, if the link's own
directory is. -/
theorem resolveSymlinkTarget_ok {name releasedPath linkPath target workspaceDir resolved : Text}
    {case : PathCase}
    (h : resolveSymlinkTarget (ε := ε) name releasedPath linkPath target workspaceDir case =
      .ok resolved)
    (hlink : ∀ c ∈ parentComponents linkPath, c ≠ ['.'] ∧ c ≠ ['.', '.']) :
    ∃ components, resolved = joinComponents components ∧ (∀ c ∈ components, Named c) ∧
      Inside resolved workspaceDir case := by
  unfold resolveSymlinkTarget at h
  split at h
  next => nomatch h
  next =>
    split at h
    next => nomatch h
    next =>
      split at h
      next => nomatch h
      next =>
        obtain ⟨⟨components, sawNamed⟩, hwalk, h⟩ := bind_eq_ok.mp h
        have hstart : ∀ c ∈ parentComponents linkPath, Named c := by
          intro c hc
          obtain ⟨hdot, hup⟩ := hlink c hc
          obtain ⟨hmem, hne⟩ := List.mem_filter.mp hc
          exact ⟨of_decide_eq_true hne, hdot, hup, not_mem_of_mem_splitOn hmem⟩
        have hnamed : ∀ c ∈ components, Named c :=
          foldlM_invariant_mem (I := fun state => ∀ c ∈ state.1, Named c)
            (fun _ component hmem _ hstate hok =>
              takeComponent_named (not_mem_of_mem_splitOn hmem) hstate hok) hstart hwalk
        dsimp only at h
        split at h
        next hwithin =>
          obtain rfl := Except.ok.inj h
          exact ⟨components, rfl, hnamed, inside_of_withinWorkspace hnamed hwithin⟩
        next => nomatch h

end Folo.ReleasePlan
