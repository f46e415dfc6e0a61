import Mathlib.Data.List.Basic
import Folo.Lib.Outcomes
import Folo.Lib.Sorting

/-!
# Descents

A descent visits a node, and then one after the other the nodes that the visit
names, with the key of each node on the way kept: a key that comes again below
itself is an error. The nodes may be without number; where the keys are not,
a descent comes to an end (`descend_ne_exhausted`), and one that succeeds has
met no key below itself (`not_mem_of_walk`).
-/

namespace Folo.Lib

variable {α κ ω ε : Type}

/-- Why there is no result: the depth does not suffice, or an error. -/
inductive Halt (ε : Type)
  | exhausted
  | failed (error : ε)

/-- What a visit comes to: a change of the result, and maybe a key and the
nodes below. -/
inductive Visit (α κ ω : Type)
  | leaf (change : ω → ω)
  | enter (change : ω → ω) (key : κ) (children : List α)

section Descend

variable [DecidableEq κ] (visit : α → Except (Halt ε) (Visit α κ ω)) (cycle : α → κ → ε)

def descend : Nat → List κ → α → ω → Except (Halt ε) ω
  | 0, _, _, _ => .error .exhausted
  | depth + 1, active, node, out => do
    match ← visit node with
    | .leaf change => .ok (change out)
    | .enter change key children =>
      if key ∈ active then .error (.failed (cycle node key))
      else
        children.foldlM (fun out child => descend depth (key :: active) child out) (change out)

variable {visit cycle} {depth : Nat} {active : List κ} {node : α} {out : ω}
  {result : ω} {change : ω → ω} {key : κ} {children : List α}

theorem descend_error {halt : Halt ε} (h : visit node = .error halt) :
    descend visit cycle (depth + 1) active node out = .error halt := by
  rw [descend, h]
  rfl

theorem descend_leaf (h : visit node = .ok (.leaf change)) :
    descend visit cycle (depth + 1) active node out = .ok (change out) := by
  rw [descend, h]
  rfl

theorem descend_enter (h : visit node = .ok (.enter change key children)) :
    descend visit cycle (depth + 1) active node out =
      if key ∈ active then .error (.failed (cycle node key))
      else children.foldlM (fun out child => descend visit cycle depth (key :: active) child out)
        (change out) := by
  rw [descend, h]
  rfl

/-! ## A descent comes to an end -/

theorem foldlM_ne_error {step : ω → α → Except (Halt ε) ω} {halt : Halt ε} {nodes : List α}
    (h : ∀ out, ∀ node ∈ nodes, step out node ≠ .error halt) :
    nodes.foldlM step out ≠ .error halt := by
  induction nodes generalizing out with
  | nil => nofun
  | cons node nodes ih =>
    rw [List.foldlM_cons]
    exact bind_ne_error (h out node (List.mem_cons_self ..)) fun out' _ =>
      ih fun out node hnode => h out node (List.mem_cons_of_mem _ hnode)

/-- **The depth suffices** where it is more than the keys that are not on the
way yet. -/
theorem descend_ne_exhausted {P : α → Prop} {keys : List κ}
    (hvisit : ∀ node, P node → visit node ≠ .error .exhausted)
    (henter : ∀ node change key children, P node → visit node = .ok (.enter change key children) →
      key ∈ keys ∧ ∀ child ∈ children, P child) :
    ∀ (depth : Nat) (active : List κ) (node : α) (out : ω), P node →
      (keys.filter fun key => !active.contains key).length < depth →
      descend visit cycle depth active node out ≠ .error .exhausted := by
  intro depth
  induction depth with
  | zero => intro active node out _ hlt; exact absurd hlt (Nat.not_lt_zero _)
  | succ depth ih =>
    intro active node out hnode hlt
    cases hv : visit node with
    | error halt =>
      rw [descend_error hv]
      intro heq
      rw [Except.error.inj heq] at hv
      exact hvisit node hnode hv
    | ok v =>
      cases v with
      | leaf change =>
        rw [descend_leaf hv]
        nofun
      | enter change key children =>
        obtain ⟨hkey, hchildren⟩ := henter node change key children hnode hv
        rw [descend_enter hv]
        split
        next => nofun
        next hnot =>
          refine foldlM_ne_error fun out child hchild => ih _ child out (hchildren child hchild) ?_
          have hfewer := filter_notMem_lt hkey hnot
          omega

/-- A visit and a depth that give a result go on to give it. -/
theorem descend_mono {visit' : α → Except (Halt ε) (Visit α κ ω)}
    (hvisit : ∀ node, visit node ≠ .error .exhausted → visit' node = visit node)
    {depth depth' : Nat} (hle : depth ≤ depth') {active : List κ} {node : α} {out : ω}
    (h : descend visit cycle depth active node out ≠ .error .exhausted) :
    descend visit' cycle depth' active node out = descend visit cycle depth active node out := by
  induction depth generalizing depth' active node out with
  | zero => exact absurd rfl h
  | succ depth ih =>
    obtain ⟨depth', rfl⟩ : ∃ k, depth' = k + 1 := ⟨depth' - 1, by omega⟩
    have hle := Nat.le_of_succ_le_succ hle
    cases hv : visit node with
    | error halt =>
      have hv' : visit' node = visit node := by
        refine hvisit node fun heq => h ?_
        rw [descend_error heq]
      rw [descend_error hv, descend_error (hv'.trans hv)]
    | ok v =>
      have hv' : visit' node = .ok v := by
        rw [hvisit node (by rw [hv]; nofun), hv]
      cases v with
      | leaf change => rw [descend_leaf hv, descend_leaf hv']
      | enter change key children =>
        rw [descend_enter hv] at h ⊢
        rw [descend_enter hv']
        by_cases hmem : key ∈ active
        · rw [if_pos hmem, if_pos hmem]
        · rw [if_neg hmem] at h ⊢
          rw [if_neg hmem]
          generalize change out = start at h ⊢
          clear hv hv'
          induction children generalizing start with
          | nil => rfl
          | cons child children ihc =>
            rw [List.foldlM_cons] at h ⊢
            rw [List.foldlM_cons]
            have hfirst : descend visit cycle depth (key :: active) child start ≠
                .error .exhausted := by
              intro heq
              rw [heq] at h
              exact h rfl
            rw [ih hle hfirst]
            cases hres : descend visit cycle depth (key :: active) child start with
            | error halt => rfl
            | ok next =>
              rw [hres] at h
              exact ihc next h

/-! ## What a descent that succeeds has met -/

/-- A way down by the visits, with the keys on it. -/
inductive Walk (enters : α → κ → List α → Prop) : α → List κ → α → Prop
  | here (node : α) : Walk enters node [] node
  | down {node child last : α} {key : κ} {children : List α} {keys : List κ} :
    enters node key children → child ∈ children → Walk enters child keys last →
    Walk enters node (key :: keys) last

theorem ok_of_foldlM {step : ω → α → Except (Halt ε) ω} {nodes : List α} {out result : ω}
    (h : nodes.foldlM step out = .ok result) :
    ∀ node ∈ nodes, ∃ before after, step before node = .ok after := by
  induction nodes generalizing out with
  | nil => nofun
  | cons node nodes ih =>
    rw [List.foldlM_cons] at h
    obtain ⟨next, hnext, h⟩ := bind_eq_ok.mp h
    exact List.forall_mem_cons.mpr ⟨⟨out, next, hnext⟩, ih h⟩

/-- **No error below**: where a descent succeeds, so do all below it. -/
theorem ok_of_walk {enters : α → κ → List α → Prop}
    (henters : ∀ node key children, enters node key children → ∀ v, visit node = .ok v →
      ∃ change, v = .enter change key children)
    {node last : α} {keys : List κ} (hwalk : Walk enters node keys last)
    {depth : Nat} {active : List κ} {out result : ω}
    (h : descend visit cycle depth active node out = .ok result) :
    ∃ depth out result, descend visit cycle depth (keys.reverse ++ active) last out =
      .ok result := by
  induction hwalk generalizing depth active out result with
  | here node => exact ⟨depth, out, result, h⟩
  | @down node child last key children keys henter hchild _ ih =>
    cases depth with
    | zero => nomatch h
    | succ depth =>
      cases hv : visit node with
      | error halt => exact nomatch (descend_error hv).symm.trans h
      | ok v =>
        obtain ⟨change, rfl⟩ := henters node key children henter v hv
        rw [descend_enter hv] at h
        split at h
        next => nomatch h
        next =>
          obtain ⟨before, after, hafter⟩ := ok_of_foldlM h child hchild
          obtain ⟨depth, out, result, hresult⟩ := ih hafter
          rw [List.reverse_cons, List.append_assoc]
          exact ⟨depth, out, result, hresult⟩

/-- A visit on the way succeeds. -/
theorem visit_ok_of_descend (h : descend visit cycle depth active node out = .ok result) :
    ∃ v, visit node = .ok v := by
  cases depth with
  | zero => nomatch h
  | succ depth =>
    cases hv : visit node with
    | error halt => exact nomatch (descend_error hv).symm.trans h
    | ok v => exact ⟨v, rfl⟩

/-- **No key below itself**: none is entered that is on the way. -/
theorem not_mem_of_walk {enters : α → κ → List α → Prop}
    (henters : ∀ node key children, enters node key children → ∀ v, visit node = .ok v →
      ∃ change, v = .enter change key children)
    {node last : α} {keys : List κ} (hwalk : Walk enters node keys last)
    {depth : Nat} {active : List κ} {out result : ω}
    (h : descend visit cycle depth active node out = .ok result) {key : κ} {children : List α}
    (henter : enters last key children) : key ∉ keys := by
  intro hmem
  obtain ⟨depth', out', result', hlast⟩ := ok_of_walk henters hwalk h
  obtain ⟨v, hv⟩ := visit_ok_of_descend hlast
  obtain ⟨change, rfl⟩ := henters last key children henter v hv
  cases depth' with
  | zero => nomatch hlast
  | succ depth' =>
    rw [descend_enter hv, if_pos (List.mem_append_left _ (List.mem_reverse.mpr hmem))] at hlast
    nomatch hlast

end Descend

/-! ## Visits that take rounds of their own -/

section Rounds

variable [DecidableEq κ] {visit : Nat → α → Except (Halt ε) (Visit α κ ω)} {cycle : α → κ → ε}

/-- Visits keep the result they give once. -/
def Settles (visit : Nat → α → Except (Halt ε) (Visit α κ ω)) : Prop :=
  ∀ n m node, n ≤ m → visit n node ≠ .error .exhausted → visit m node = visit n node

/-- A visit enters, after rounds enough. -/
def Enters (visit : Nat → α → Except (Halt ε) (Visit α κ ω)) (node : α) (key : κ)
    (children : List α) : Prop :=
  ∃ n change, visit n node = .ok (.enter change key children)

omit [DecidableEq κ] in
theorem Settles.enters (h : Settles visit) {node : α} {key : κ} {children : List α}
    (henter : Enters visit node key children) {n : Nat} {v : Visit α κ ω}
    (hv : visit n node = .ok v) : ∃ change, v = .enter change key children := by
  obtain ⟨m, change, hm⟩ := henter
  have hn := h n (max n m) node (Nat.le_max_left ..) (by rw [hv]; nofun)
  have hm' := h m (max n m) node (Nat.le_max_right ..) (by rw [hm]; nofun)
  exact ⟨change, Except.ok.inj ((hv.symm.trans (hn.symm.trans hm')).trans hm)⟩

/-- **A descent comes to an end**, after rounds enough. -/
theorem Settles.exists_result (h : Settles visit) (cycle : α → κ → ε) {P : α → Prop}
    {keys : List κ} {rounds : Nat}
    (hrounds : ∀ node, P node → visit rounds node ≠ .error .exhausted)
    (henter : ∀ n node change key children, P node →
      visit n node = .ok (.enter change key children) → key ∈ keys ∧ ∀ child ∈ children, P child)
    {root : α} (hroot : P root) (out : ω) :
    ∃ fuel result, result ≠ .error .exhausted ∧
      ∀ n, fuel ≤ n → descend (visit n) cycle n [] root out = result := by
  have hend : descend (visit rounds) cycle (keys.length + 1) [] root out ≠ .error .exhausted :=
    descend_ne_exhausted hrounds (henter rounds) (keys.length + 1) [] root out hroot
      (Nat.lt_succ_of_le (List.length_filter_le ..))
  refine ⟨max rounds (keys.length + 1), _, hend, fun n hn => ?_⟩
  exact descend_mono (fun node => h rounds n node (Nat.le_trans (Nat.le_max_left ..) hn))
    (Nat.le_trans (Nat.le_max_right ..) hn) hend

/-- A way down to a node that cannot be visited, or that enters what is already
on the way. -/
def Stuck (visit : Nat → α → Except (Halt ε) (Visit α κ ω)) (root : α) : Prop :=
  ∃ keys last, Walk (Enters visit) root keys last ∧
    ((∀ n v, visit n last ≠ .ok v) ∨ ∃ key children, Enters visit last key children ∧ key ∈ keys)

/-- **No descent gets through**. -/
theorem Settles.ne_ok_of_stuck (h : Settles visit) {root : α} (hstuck : Stuck visit root) {n : Nat}
    {out result : ω} : descend (visit n) cycle n [] root out ≠ .ok result := by
  obtain ⟨keys, last, hwalk, hlast⟩ := hstuck
  have henters : ∀ node key children, Enters visit node key children → ∀ v,
      visit n node = .ok v → ∃ change, v = .enter change key children :=
    fun node key children henter v hv => h.enters henter hv
  intro hok
  rcases hlast with hnever | ⟨key, children, henter, hmem⟩
  · obtain ⟨depth, before, after, hdescend⟩ := ok_of_walk henters hwalk hok
    obtain ⟨v, hv⟩ := visit_ok_of_descend hdescend
    exact hnever n v hv
  · exact not_mem_of_walk henters hwalk hok henter hmem

/-- **A descent ends**, and where it cannot get through, with an error. -/
theorem Settles.ends (h : Settles visit) (cycle : α → κ → ε) {P : α → Prop} {keys : List κ}
    {rounds : Nat} (hrounds : ∀ node, P node → visit rounds node ≠ .error .exhausted)
    (henter : ∀ n node change key children, P node →
      visit n node = .ok (.enter change key children) → key ∈ keys ∧ ∀ child ∈ children, P child)
    (root : α) (hroot : P root) (out : ω) :
    ∃ fuel result, result ≠ .error .exhausted ∧
      (∀ n, fuel ≤ n → descend (visit n) cycle n [] root out = result) ∧
      (Stuck visit root → ∃ e, result = .error (.failed e)) := by
  obtain ⟨fuel, result, hne, hresult⟩ := h.exists_result cycle hrounds henter hroot out
  refine ⟨fuel, result, hne, hresult, fun hstuck => ?_⟩
  cases result with
  | ok out' => exact absurd (hresult fuel (Nat.le_refl _)) (h.ne_ok_of_stuck hstuck)
  | error halt =>
    cases halt with
    | exhausted => exact absurd rfl hne
    | failed e => exact ⟨e, rfl⟩

end Rounds

end Folo.Lib
