import Mathlib.Data.List.Induction

/-!
# Quoting arguments

A line of arguments in which quotes keep separators in an argument, and
backslashes count only before a quote: two for each one that is meant, and one
more for a quote that is meant. What `quoteFrom` writes after an opening quote
is read back as the argument (`Marks.reads_quoted`), and arguments that are
separated are read one by one (`Marks.splitLine_flatMap`).
-/

namespace Folo.Lib

/-- What has a meaning in a line. -/
structure Marks (α : Type) where
  quote : α
  backslash : α
  separates : α → Bool
  quote_ne : quote ≠ backslash
  not_separates_quote : separates quote = false
  not_separates_backslash : separates backslash = false

/-- A line that is being read: the arguments before, the one that has begun,
without the backslashes that it ends in so far, and whether a quote is open. -/
structure LineReader (α : Type) where
  done : List (List α)
  current : Option (List α)
  backslashes : Nat
  quoted : Bool

namespace Marks

variable {α : Type} (m : Marks α)

/-- The argument that has begun, if one has, is whole. -/
def endArgument (r : LineReader α) : LineReader α where
  done := r.done ++
    (r.current.map fun text => text ++ List.replicate r.backslashes m.backslash).toList
  current := none
  backslashes := 0
  quoted := r.quoted

variable [DecidableEq α]

def read (r : LineReader α) (c : α) : LineReader α :=
  if c = m.backslash then
    { r with current := some (r.current.getD []), backslashes := r.backslashes + 1 }
  else if c = m.quote then
    let text := r.current.getD [] ++ List.replicate (r.backslashes / 2) m.backslash
    -- after an even number it is a delimiter, after an odd one it is meant
    if r.backslashes % 2 = 0 then
      { r with current := some text, backslashes := 0, quoted := !r.quoted }
    else { r with current := some (text ++ [m.quote]), backslashes := 0 }
  else if m.separates c && !r.quoted then m.endArgument r
  else
    { r with
      current := some (r.current.getD [] ++ List.replicate r.backslashes m.backslash ++ [c])
      backslashes := 0 }

/-- The arguments of a line. -/
def splitLine (line : List α) : List (List α) :=
  (m.endArgument
    (line.foldl m.read { done := [], current := none, backslashes := 0, quoted := false })).done

/-- What is written of a text and the closing quote, with so many backslashes
held back. -/
def quoteFrom : Nat → List α → List α
  | backslashes, [] => List.replicate (backslashes * 2) m.backslash ++ [m.quote]
  | backslashes, c :: rest =>
    if c = m.backslash then quoteFrom (backslashes + 1) rest
    else if c = m.quote then
      List.replicate (backslashes * 2 + 1) m.backslash ++ m.quote :: quoteFrom 0 rest
    else List.replicate backslashes m.backslash ++ c :: quoteFrom 0 rest

variable {m}

/-! ## Reading -/

theorem read_backslashes (n k : Nat) (done : List (List α)) (text : List α) (quoted : Bool) :
    (List.replicate n m.backslash).foldl m.read
        { done, current := some text, backslashes := k, quoted } =
      { done, current := some text, backslashes := k + n, quoted } := by
  induction n generalizing k with
  | zero => rfl
  | succ n ih =>
    have hread : m.read { done, current := some text, backslashes := k, quoted } m.backslash =
        { done, current := some text, backslashes := k + 1, quoted } := by
      unfold read
      rw [if_pos rfl]
      rfl
    rw [List.replicate_succ, List.foldl_cons, hread, ih]
    congr 1
    omega

theorem read_delimiter (done : List (List α)) (current : Option (List α)) (quoted : Bool) :
    m.read { done, current, backslashes := 0, quoted } m.quote =
      { done, current := some (current.getD []), backslashes := 0, quoted := !quoted } := by
  unfold read
  rw [if_neg m.quote_ne, if_pos rfl]
  simp

/-- A text that reads as an argument, between separators. -/
def Reads (m : Marks α) (text arg : List α) : Prop :=
  ∀ done, ∃ current backslashes,
    text.foldl m.read { done, current := none, backslashes := 0, quoted := false } =
      { done, current := some current, backslashes, quoted := false } ∧
    current ++ List.replicate backslashes m.backslash = arg

/-- An argument that needs no quotes reads as itself. -/
theorem reads_self {arg : List α} (hne : arg ≠ [])
    (hplain : ∀ c ∈ arg, c ≠ m.quote ∧ m.separates c = false) : m.Reads arg arg := by
  intro done
  induction arg using List.reverseRecOn with
  | nil => exact absurd rfl hne
  | append_singleton front c ih =>
    obtain ⟨hquote, hseparates⟩ := hplain c (List.mem_append_right _ (List.mem_singleton_self c))
    -- the reader before the last character, which may be the first one
    obtain ⟨current, backslashes, hfront, htext⟩ : ∃ current backslashes,
        front.foldl m.read { done, current := none, backslashes := 0, quoted := false } =
          { done, current, backslashes, quoted := false } ∧
        current.getD [] ++ List.replicate backslashes m.backslash = front := by
      by_cases hnil : front = []
      · subst hnil
        exact ⟨none, 0, rfl, rfl⟩
      · obtain ⟨current, backslashes, hfront, htext⟩ :=
          ih hnil fun d hd => hplain d (List.mem_append_left _ hd)
        exact ⟨some current, backslashes, hfront, htext⟩
    rw [List.foldl_append, hfront, List.foldl_cons, List.foldl_nil]
    unfold read
    by_cases hbackslash : c = m.backslash
    · refine ⟨current.getD [], backslashes + 1, if_pos hbackslash, ?_⟩
      rw [List.replicate_succ', ← List.append_assoc, htext, hbackslash]
    · refine ⟨front ++ [c], 0, ?_, List.append_nil _⟩
      rw [if_neg hbackslash, if_neg hquote, hseparates, Bool.false_and, if_neg Bool.false_ne_true,
        htext]

theorem reads_empty : m.Reads [m.quote, m.quote] [] := by
  intro done
  refine ⟨[], 0, ?_, rfl⟩
  rw [List.foldl_cons, List.foldl_cons, List.foldl_nil, read_delimiter, read_delimiter]
  rfl

/-- What is written after an opening quote is read as the text, the backslashes
that were held back first. -/
theorem read_quoteFrom (done : List (List α)) (backslashes : Nat) (current rest : List α) :
    (m.quoteFrom backslashes rest).foldl m.read
        { done, current := some current, backslashes := 0, quoted := true } =
      { done
        current := some (current ++ List.replicate backslashes m.backslash ++ rest)
        backslashes := 0
        quoted := false } := by
  induction rest generalizing backslashes current with
  | nil =>
    unfold quoteFrom
    rw [List.foldl_append, read_backslashes, List.foldl_cons, List.foldl_nil]
    unfold read
    rw [if_neg m.quote_ne, if_pos rfl]
    simp
  | cons c rest ih =>
    unfold quoteFrom
    split
    next hbackslash =>
      rw [ih, hbackslash, List.replicate_succ']
      simp
    next hbackslash =>
      split
      next hquote =>
        rw [List.foldl_append, read_backslashes, List.foldl_cons]
        have hread : m.read { done
                              current := some current
                              backslashes := 0 + (backslashes * 2 + 1)
                              quoted := true } m.quote =
            { done
              current := some (current ++ List.replicate backslashes m.backslash ++ [m.quote])
              backslashes := 0
              quoted := true } := by
          have hhalf : (0 + (backslashes * 2 + 1)) / 2 = backslashes := by omega
          have hodd : (0 + (backslashes * 2 + 1)) % 2 ≠ 0 := by omega
          unfold read
          rw [if_neg m.quote_ne, if_pos rfl]
          dsimp only
          rw [if_neg hodd, hhalf, Option.getD_some]
        rw [hread, ih, hquote]
        simp
      next hquote =>
        rw [List.foldl_append, read_backslashes, List.foldl_cons]
        have hread : m.read { done
                              current := some current
                              backslashes := 0 + backslashes
                              quoted := true } c =
            { done
              current := some (current ++ List.replicate backslashes m.backslash ++ [c])
              backslashes := 0
              quoted := true } := by
          unfold read
          rw [if_neg hbackslash, if_neg hquote]
          simp
        rw [hread, ih]
        simp

theorem reads_quoted (arg : List α) : m.Reads (m.quote :: m.quoteFrom 0 arg) arg := by
  intro done
  refine ⟨arg, 0, ?_, List.append_nil _⟩
  rw [List.foldl_cons, read_delimiter]
  show (m.quoteFrom 0 arg).foldl m.read
    { done, current := some [], backslashes := 0, quoted := true } = _
  rw [read_quoteFrom]
  rfl

/-! ## Splitting -/

theorem read_separator {separator : α} (h : m.separates separator = true) {r : LineReader α}
    (hr : r.quoted = false) : m.read r separator = m.endArgument r := by
  have hbackslash : separator ≠ m.backslash := by
    rintro rfl
    exact Bool.false_ne_true (m.not_separates_backslash.symm.trans h)
  have hquote : separator ≠ m.quote := by
    rintro rfl
    exact Bool.false_ne_true (m.not_separates_quote.symm.trans h)
  unfold read
  rw [if_neg hbackslash, if_neg hquote, h, hr]
  rfl

/-- Texts with a separator before each are read as their arguments. -/
theorem splitLine_flatMap {β : Type} {separator : α} (hseparator : m.separates separator = true)
    {text arg : β → List α} {items : List β} (h : ∀ item ∈ items, m.Reads (text item) (arg item)) :
    m.splitLine (items.flatMap fun item => separator :: text item) = items.map arg := by
  have hrun : ∀ r : LineReader α, r.quoted = false →
      (m.endArgument ((items.flatMap fun item => separator :: text item).foldl m.read r)).done =
        (m.endArgument r).done ++ items.map arg := by
    induction items with
    | nil => exact fun r _ => (List.append_nil _).symm
    | cons item items ih =>
      intro r hr
      obtain ⟨current, backslashes, hread, htext⟩ :=
        h item (List.mem_cons_self ..) (m.endArgument r).done
      have hrest := ih (fun i hi => h i (List.mem_cons_of_mem _ hi))
      have hend : m.endArgument r =
          { done := (m.endArgument r).done
            current := none
            backslashes := 0
            quoted := false } := by
        unfold endArgument
        rw [hr]
      rw [List.flatMap_cons, List.cons_append, List.foldl_cons, List.foldl_append,
        read_separator hseparator hr, hend, hread, hrest _ rfl, List.map_cons, ← htext]
      show (_ ++ [_]) ++ _ = _
      rw [List.append_assoc]
      rfl
  exact hrun _ rfl

/-! ## Encoding -/

theorem quoteFrom_append (backslashes : Nat) {units rest : List α} (hne : units ≠ [])
    (hplain : ∀ u ∈ units, u ≠ m.backslash ∧ u ≠ m.quote) :
    m.quoteFrom backslashes (units ++ rest) =
      List.replicate backslashes m.backslash ++ (units ++ m.quoteFrom 0 rest) := by
  induction units generalizing backslashes with
  | nil => exact absurd rfl hne
  | cons u units ih =>
    obtain ⟨hbackslash, hquote⟩ := hplain u (List.mem_cons_self ..)
    rw [List.cons_append, quoteFrom, if_neg hbackslash, if_neg hquote]
    by_cases hnil : units = []
    · subst hnil
      rfl
    · rw [ih 0 hnil fun v hv => hplain v (List.mem_cons_of_mem _ hv)]
      rfl

/-- Quoting goes through an encoding that leaves the marks alone. -/
theorem quoteFrom_flatMap {β : Type} [DecidableEq β] {n : Marks β} {encode : α → List β}
    (hbackslash : encode m.backslash = [n.backslash]) (hquote : encode m.quote = [n.quote])
    (hplain : ∀ c, c ≠ m.backslash → c ≠ m.quote →
      encode c ≠ [] ∧ ∀ u ∈ encode c, u ≠ n.backslash ∧ u ≠ n.quote)
    (backslashes : Nat) (text : List α) :
    (m.quoteFrom backslashes text).flatMap encode =
      n.quoteFrom backslashes (text.flatMap encode) := by
  have hreplicate : ∀ k, (List.replicate k m.backslash).flatMap encode =
      List.replicate k n.backslash := by
    intro k
    induction k with
    | zero => rfl
    | succ k ih =>
      rw [List.replicate_succ, List.flatMap_cons, hbackslash, ih]
      rfl
  induction text generalizing backslashes with
  | nil =>
    rw [quoteFrom, List.flatMap_append, hreplicate, List.flatMap_singleton, hquote]
    rfl
  | cons c rest ih =>
    rw [quoteFrom, List.flatMap_cons]
    split
    next heq =>
      rw [ih, heq, hbackslash, List.singleton_append, quoteFrom, if_pos rfl]
    next hne =>
      split
      next heq =>
        rw [List.flatMap_append, hreplicate, List.flatMap_cons, ih, heq, hquote,
          List.singleton_append, List.singleton_append, quoteFrom, if_neg n.quote_ne, if_pos rfl]
      next hne' =>
        obtain ⟨hnil, hunits⟩ := hplain c hne hne'
        rw [List.flatMap_append, hreplicate, List.flatMap_cons, ih, quoteFrom_append _ hnil hunits]

end Marks

end Folo.Lib
