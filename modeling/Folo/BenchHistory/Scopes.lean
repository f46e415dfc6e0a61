import Folo.BenchHistory.ObjectKeys
import Folo.Lib.Sorting

/-!
# Which sets are selected

The discriminant filters of `cbh_detect/discriminant.rs`, their resolution
from the command line (`cbh_analyze/discriminants.rs`) and the scopes of
`cbh_model/blessing_scope.rs`. A scope that another one contains accepts no
set that the other does not (`BlessingScope.matches_of_contains`), and the
scope of a query accepts what the query does.
-/

namespace Folo.BenchHistory

/-- The filter of one discriminant; explicit values are never empty. -/
inductive DiscriminantFilter
  | all
  | auto (value : Text)
  | explicit (first : Text) (rest : List Text)
  deriving DecidableEq

def DiscriminantFilter.passes (filter : DiscriminantFilter) (actual : Text) : Bool :=
  match filter with
  | .all => true
  | .auto value => eqIgnoreAsciiCase value actual
  | .explicit first rest => (first :: rest).any fun value => eqIgnoreAsciiCase value actual

structure DiscriminantSetQuery where
  engine : DiscriminantFilter
  targetTriple : DiscriminantFilter
  machineKey : DiscriminantFilter
  deriving DecidableEq

def DiscriminantSetQuery.accepts (query : DiscriminantSetQuery) (set : DiscriminantSet) : Bool :=
  query.engine.passes set.engine.asStr && query.targetTriple.passes set.targetTriple &&
    query.machineKey.passes set.machineKey

/-- The current machine's values. -/
structure AutoDiscriminants where
  triple : Text
  machineKey : Text

def resolveDiscriminant (values : List Text) (auto : Option Text) : DiscriminantFilter :=
  if values.any fun value => eqIgnoreAsciiCase value "all".toList then .all
  else
    match values with
    | first :: rest => .explicit first rest
    | [] => auto.elim .all .auto

/-- The engine selector that names no engine, if one does not. -/
def unknownEngine (engine : DiscriminantFilter) : Option Text :=
  match engine with
  | .explicit first rest => (first :: rest).find? fun name => (Engine.fromName name).isNone
  | _ => none

/-- Each empty axis is unrestricted. -/
structure BlessingScope where
  engine : List Text
  targetTriple : List Text
  machineKey : List Text
  deriving DecidableEq

def BlessingScope.fields (s : BlessingScope) : List Text ×ₗ (List Text ×ₗ List Text) :=
  toLex (s.engine, toLex (s.targetTriple, s.machineKey))

theorem BlessingScope.fields_injective : Function.Injective BlessingScope.fields := by
  rintro ⟨e, t, m⟩ ⟨e', t', m'⟩ h
  obtain ⟨rfl, h⟩ := Prod.mk.inj (toLex.injective h)
  obtain ⟨rfl, rfl⟩ := Prod.mk.inj (toLex.injective h)
  rfl

instance : LinearOrder BlessingScope :=
  LinearOrder.lift' BlessingScope.fields BlessingScope.fields_injective

def axisMatches (values : List Text) (actual : Text) : Bool :=
  values.isEmpty || values.any fun value => eqIgnoreAsciiCase value actual

def axesIntersect (left right : List Text) : Bool :=
  right.isEmpty || left.isEmpty || right.any fun value => axisMatches left value

def axisContains (outer inner : List Text) : Bool :=
  outer.isEmpty || (!inner.isEmpty && inner.all fun value => axisMatches outer value)

namespace BlessingScope

def accepts (scope : BlessingScope) (set : DiscriminantSet) : Bool :=
  axisMatches scope.engine set.engine.asStr && axisMatches scope.targetTriple set.targetTriple &&
    axisMatches scope.machineKey set.machineKey

def intersects (scope other : BlessingScope) : Bool :=
  axesIntersect scope.engine other.engine &&
    axesIntersect scope.targetTriple other.targetTriple &&
    axesIntersect scope.machineKey other.machineKey

def contains (scope other : BlessingScope) : Bool :=
  axisContains scope.engine other.engine &&
    axisContains scope.targetTriple other.targetTriple &&
    axisContains scope.machineKey other.machineKey

/-- `BlessingScope::from`. -/
def ofSet (set : DiscriminantSet) : BlessingScope where
  engine := [set.engine.asStr]
  targetTriple := [set.targetTriple]
  machineKey := [set.machineKey]

/-- What an axis is displayed as. -/
def axisLabel (axis : List Text) : Text :=
  if axis.isEmpty then "all".toList else List.intercalate ['|'] axis

/-- `to_string`. -/
def display (scope : BlessingScope) : Text :=
  List.intercalate ['/'] [axisLabel scope.engine, axisLabel scope.targetTriple,
    axisLabel scope.machineKey]

end BlessingScope

/-- The values of a filter in lower case, sorted and without repetitions. -/
def scopeValues (filter : DiscriminantFilter) : List Text :=
  let values :=
    match filter with
    | .all => []
    | .auto value => [asciiLowercase value]
    | .explicit first rest => (first :: rest).map asciiLowercase
  (values.insertionSort (· ≤ ·)).destutter (· ≠ ·)

def blessingScope (query : DiscriminantSetQuery) : BlessingScope where
  engine := scopeValues query.engine
  targetTriple := scopeValues query.targetTriple
  machineKey := scopeValues query.machineKey

/-! ## What scopes accept -/

theorem toLower_toLower (c : Char) : c.toLower.toLower = c.toLower := by
  have hfix : ∀ d : Char, ¬ (d.val ≥ 'A'.val ∧ d.val ≤ 'Z'.val) → d.toLower = d := fun d hd =>
    dif_neg hd
  by_cases hc : c.val ≥ 'A'.val ∧ c.val ≤ 'Z'.val
  · refine hfix _ fun hlow => ?_
    -- what was a capital letter is beyond the capital letters
    have hval : c.toLower.val = c.val + ('a'.val - 'A'.val) := by
      unfold Char.toLower
      rw [dif_pos hc]
    have hup : c.toLower.val.toNat ≤ 90 := hlow.2
    have hge : 65 ≤ c.val.toNat := hc.1
    have hle : c.val.toNat ≤ 90 := hc.2
    have hnat := congrArg UInt32.toNat hval
    rw [UInt32.toNat_add, show ('a'.val - 'A'.val).toNat = 32 from rfl] at hnat
    omega
  · rw [hfix c hc, hfix c hc]

theorem asciiLowercase_idem (text : Text) :
    asciiLowercase (asciiLowercase text) = asciiLowercase text := by
  unfold asciiLowercase
  rw [List.map_map]
  exact List.map_congr_left fun c _ => toLower_toLower c

theorem eqIgnoreAsciiCase_iff {a b : Text} :
    eqIgnoreAsciiCase a b = true ↔ asciiLowercase a = asciiLowercase b :=
  decide_eq_true_iff

theorem axisMatches_iff {values : List Text} {actual : Text} :
    axisMatches values actual = true ↔
      values = [] ∨ ∃ value ∈ values, asciiLowercase value = asciiLowercase actual := by
  simp only [axisMatches, Bool.or_eq_true, List.isEmpty_iff, List.any_eq_true,
    eqIgnoreAsciiCase_iff]

theorem axisMatches_of_axisContains {outer inner : List Text} (h : axisContains outer inner = true)
    {actual : Text} (hin : axisMatches inner actual = true) : axisMatches outer actual = true := by
  simp only [axisContains, Bool.or_eq_true, Bool.and_eq_true, List.isEmpty_iff,
    Bool.not_eq_true', List.all_eq_true] at h
  rw [axisMatches_iff] at hin ⊢
  rcases h with hempty | ⟨hne, hall⟩
  · exact .inl hempty
  · rcases hin with rfl | ⟨value, hmem, heq⟩
    · nomatch hne
    · refine (axisMatches_iff.mp (hall value hmem)).imp_right ?_
      rintro ⟨v, hv, hveq⟩
      exact ⟨v, hv, hveq.trans heq⟩

/-- A contained scope accepts nothing more. -/
theorem BlessingScope.accepts_of_contains {scope other : BlessingScope}
    (h : scope.contains other = true) {set : DiscriminantSet} (hset : other.accepts set = true) :
    scope.accepts set = true := by
  simp only [contains, accepts, Bool.and_eq_true] at h hset ⊢
  obtain ⟨⟨he, ht⟩, hm⟩ := h
  obtain ⟨⟨hse, hst⟩, hsm⟩ := hset
  exact ⟨⟨axisMatches_of_axisContains he hse, axisMatches_of_axisContains ht hst⟩,
    axisMatches_of_axisContains hm hsm⟩

/-- The scope's values are those of the filter in lower case. -/
theorem axisMatches_scopeValues (filter : DiscriminantFilter) (actual : Text) :
    axisMatches (scopeValues filter) actual = filter.passes actual := by
  have hvalues : ∀ values : List Text, ∀ value,
      value ∈ ((values.map asciiLowercase).insertionSort (· ≤ ·)).destutter (· ≠ ·) ↔
        ∃ v ∈ values, asciiLowercase v = value := fun values value => by
    rw [Lib.mem_destutter_ne, List.mem_insertionSort, List.mem_map]
  have hany : ∀ first rest,
      axisMatches (((first :: rest).map asciiLowercase).insertionSort (· ≤ ·) |>.destutter (· ≠ ·))
        actual = (first :: rest).any fun value => eqIgnoreAsciiCase value actual := by
    intro first rest
    rw [Bool.eq_iff_iff, axisMatches_iff, List.any_eq_true]
    constructor
    · rintro (hempty | ⟨value, hmem, heq⟩)
      · have hfirst := (hvalues (first :: rest) _).mpr ⟨first, List.mem_cons_self .., rfl⟩
        rw [hempty] at hfirst
        nomatch hfirst
      · obtain ⟨v, hv, rfl⟩ := (hvalues _ _).mp hmem
        rw [asciiLowercase_idem] at heq
        exact ⟨v, hv, eqIgnoreAsciiCase_iff.mpr heq⟩
    · rintro ⟨v, hv, heq⟩
      refine .inr ⟨asciiLowercase v, (hvalues _ _).mpr ⟨v, hv, rfl⟩, ?_⟩
      rw [asciiLowercase_idem]
      exact eqIgnoreAsciiCase_iff.mp heq
  cases filter with
  | all => rfl
  | auto value => exact (hany value []).trans (Bool.or_false _)
  | explicit first rest => exact hany first rest

/-- The scope of a query accepts the sets that the query accepts. -/
theorem accepts_blessingScope (query : DiscriminantSetQuery) (set : DiscriminantSet) :
    (blessingScope query).accepts set = query.accepts set := by
  unfold BlessingScope.accepts blessingScope DiscriminantSetQuery.accepts
  dsimp only
  rw [axisMatches_scopeValues, axisMatches_scopeValues, axisMatches_scopeValues]

end Folo.BenchHistory
