import Folo.BenchHistory.Scopes

/-!
# What the relations of scopes mean

An axis accepts texts, and a scope the triples of them that its axes accept.
Containment and intersection are computed from the values of the axes, and are
those of the sets that are accepted (`BlessingScope.contains_iff`,
`BlessingScope.intersects_iff`).
-/

namespace Folo.BenchHistory

open Folo.Lib

/-! ## One axis -/

theorem axisMatches_self {values : List Text} {value : Text} (h : value ∈ values) :
    axisMatches values value = true :=
  axisMatches_iff.mpr (.inr ⟨value, h, rfl⟩)

/-- Every axis accepts something. -/
theorem exists_axisMatches (values : List Text) : ∃ actual, axisMatches values actual = true := by
  cases values with
  | nil => exact ⟨[], rfl⟩
  | cons first rest => exact ⟨first, axisMatches_self (List.mem_cons_self ..)⟩

/-- An axis with values does not accept everything: no value is as long as all
of them together and one more character. -/
theorem exists_not_axisMatches {values : List Text} (h : values ≠ []) :
    ∃ actual, axisMatches values actual = false := by
  refine ⟨List.replicate (values.flatten.length + 1) 'a', Bool.eq_false_iff.mpr fun hmatch => ?_⟩
  rcases axisMatches_iff.mp hmatch with hnil | ⟨value, hmem, heq⟩
  · exact h hnil
  · have hlen := congrArg List.length heq
    have hle := (List.sublist_flatten_of_mem hmem).length_le
    unfold asciiLowercase at hlen
    rw [List.length_map, List.length_map, List.length_replicate] at hlen
    omega

/-- An axis contains another one if and only if it accepts what that accepts. -/
theorem axisContains_iff {outer inner : List Text} : axisContains outer inner = true ↔
    ∀ actual, axisMatches inner actual = true → axisMatches outer actual = true := by
  refine ⟨fun h actual => axisMatches_of_axisContains h, fun h => ?_⟩
  unfold axisContains
  rw [Bool.or_eq_true, Bool.and_eq_true, List.isEmpty_iff, Bool.not_eq_true',
    List.isEmpty_eq_false_iff, List.all_eq_true]
  by_cases houter : outer = []
  · exact .inl houter
  · refine .inr ⟨?_, fun value hmem => h value (axisMatches_self hmem)⟩
    rintro rfl
    obtain ⟨actual, hactual⟩ := exists_not_axisMatches houter
    exact Bool.false_ne_true (hactual.symm.trans (h actual rfl))

/-- Two axes intersect if and only if both accept something. -/
theorem axesIntersect_iff {left right : List Text} : axesIntersect left right = true ↔
    ∃ actual, axisMatches left actual = true ∧ axisMatches right actual = true := by
  unfold axesIntersect
  rw [Bool.or_eq_true, Bool.or_eq_true, List.isEmpty_iff, List.isEmpty_iff, List.any_eq_true]
  constructor
  · rintro ((rfl | rfl) | ⟨value, hmem, hmatch⟩)
    · obtain ⟨actual, hactual⟩ := exists_axisMatches left
      exact ⟨actual, hactual, rfl⟩
    · obtain ⟨actual, hactual⟩ := exists_axisMatches right
      exact ⟨actual, rfl, hactual⟩
    · exact ⟨value, hmatch, axisMatches_self hmem⟩
  · rintro ⟨actual, hleft, hright⟩
    rcases axisMatches_iff.mp hright with hempty | ⟨value, hmem, heq⟩
    · exact .inl (.inl hempty)
    · refine .inr ⟨value, hmem, axisMatches_iff.mpr ?_⟩
      refine (axisMatches_iff.mp hleft).imp_right ?_
      rintro ⟨v, hv, hveq⟩
      exact ⟨v, hv, hveq.trans heq.symm⟩

/-! ## Scopes -/

/-- A partition of any texts, also such that name no engine. -/
structure Partition where
  engine : Text
  targetTriple : Text
  machineKey : Text

def DiscriminantSet.partition (set : DiscriminantSet) : Partition where
  engine := set.engine.asStr
  targetTriple := set.targetTriple
  machineKey := set.machineKey

namespace BlessingScope

/-- `matches`, of the texts of a partition. -/
def admits (scope : BlessingScope) (partition : Partition) : Bool :=
  axisMatches scope.engine partition.engine &&
    axisMatches scope.targetTriple partition.targetTriple &&
    axisMatches scope.machineKey partition.machineKey

theorem admits_partition (scope : BlessingScope) (set : DiscriminantSet) :
    scope.admits set.partition = scope.accepts set := rfl

theorem admits_iff {scope : BlessingScope} {partition : Partition} :
    scope.admits partition = true ↔ axisMatches scope.engine partition.engine = true ∧
      axisMatches scope.targetTriple partition.targetTriple = true ∧
      axisMatches scope.machineKey partition.machineKey = true := by
  unfold admits
  rw [Bool.and_eq_true, Bool.and_eq_true, and_assoc]

theorem exists_admits (scope : BlessingScope) : ∃ partition, scope.admits partition = true := by
  obtain ⟨e, he⟩ := exists_axisMatches scope.engine
  obtain ⟨t, ht⟩ := exists_axisMatches scope.targetTriple
  obtain ⟨m, hm⟩ := exists_axisMatches scope.machineKey
  exact ⟨⟨e, t, m⟩, admits_iff.mpr ⟨he, ht, hm⟩⟩

/-- A scope contains another one if and only if it admits all that the other
admits. -/
theorem contains_iff {scope other : BlessingScope} : scope.contains other = true ↔
    ∀ partition, other.admits partition = true → scope.admits partition = true := by
  unfold contains
  rw [Bool.and_eq_true, Bool.and_eq_true, axisContains_iff, axisContains_iff, axisContains_iff]
  constructor
  · rintro ⟨⟨he, ht⟩, hm⟩ partition hpartition
    obtain ⟨hpe, hpt, hpm⟩ := admits_iff.mp hpartition
    exact admits_iff.mpr ⟨he _ hpe, ht _ hpt, hm _ hpm⟩
  · intro h
    -- what refutes one axis is completed by what the other axes accept
    obtain ⟨⟨e, t, m⟩, hpartition⟩ := other.exists_admits
    obtain ⟨he, ht, hm⟩ := admits_iff.mp hpartition
    refine ⟨⟨fun actual hactual => ?_, fun actual hactual => ?_⟩, fun actual hactual => ?_⟩
    · exact (admits_iff.mp (h ⟨actual, t, m⟩ (admits_iff.mpr ⟨hactual, ht, hm⟩))).1
    · exact (admits_iff.mp (h ⟨e, actual, m⟩ (admits_iff.mpr ⟨he, hactual, hm⟩))).2.1
    · exact (admits_iff.mp (h ⟨e, t, actual⟩ (admits_iff.mpr ⟨he, ht, hactual⟩))).2.2

/-- Two scopes intersect if and only if both admit a partition. -/
theorem intersects_iff {scope other : BlessingScope} : scope.intersects other = true ↔
    ∃ partition, scope.admits partition = true ∧ other.admits partition = true := by
  unfold intersects
  rw [Bool.and_eq_true, Bool.and_eq_true, axesIntersect_iff, axesIntersect_iff, axesIntersect_iff]
  constructor
  · rintro ⟨⟨⟨e, he, he'⟩, t, ht, ht'⟩, m, hm, hm'⟩
    exact ⟨⟨e, t, m⟩, admits_iff.mpr ⟨he, ht, hm⟩, admits_iff.mpr ⟨he', ht', hm'⟩⟩
  · rintro ⟨partition, hscope, hother⟩
    obtain ⟨he, ht, hm⟩ := admits_iff.mp hscope
    obtain ⟨he', ht', hm'⟩ := admits_iff.mp hother
    exact ⟨⟨⟨_, he, he'⟩, _, ht, ht'⟩, _, hm, hm'⟩

theorem axisMatches_singleton {value actual : Text} :
    axisMatches [value] actual = true ↔ asciiLowercase value = asciiLowercase actual := by
  rw [axisMatches_iff]
  constructor
  · rintro (hnil | ⟨v, hv, heq⟩)
    · nomatch hnil
    · exact List.mem_singleton.mp hv ▸ heq
  · exact fun heq => .inr ⟨value, List.mem_singleton_self .., heq⟩

/-- The scope of a set admits what differs from the set in case only. -/
theorem admits_ofSet {set : DiscriminantSet} {partition : Partition} :
    (ofSet set).admits partition = true ↔
      asciiLowercase set.engine.asStr = asciiLowercase partition.engine ∧
      asciiLowercase set.targetTriple = asciiLowercase partition.targetTriple ∧
      asciiLowercase set.machineKey = asciiLowercase partition.machineKey := by
  rw [admits_iff]
  unfold ofSet
  rw [axisMatches_singleton, axisMatches_singleton, axisMatches_singleton]

/-- The case of a partition does not matter. -/
theorem admits_congr {scope : BlessingScope} {partition other : Partition}
    (he : asciiLowercase partition.engine = asciiLowercase other.engine)
    (ht : asciiLowercase partition.targetTriple = asciiLowercase other.targetTriple)
    (hm : asciiLowercase partition.machineKey = asciiLowercase other.machineKey) :
    scope.admits partition = scope.admits other := by
  rw [Bool.eq_iff_iff, admits_iff, admits_iff]
  simp only [axisMatches_iff, he, ht, hm]

theorem admits_of_ofSet {scope : BlessingScope} {set : DiscriminantSet} {partition : Partition}
    (h : (ofSet set).admits partition = true) : scope.admits partition = scope.accepts set := by
  obtain ⟨he, ht, hm⟩ := admits_ofSet.mp h
  rw [← admits_partition]
  exact admits_congr he.symm ht.symm hm.symm

theorem admits_ofSet_self (set : DiscriminantSet) : (ofSet set).admits set.partition = true :=
  admits_ofSet.mpr ⟨rfl, rfl, rfl⟩

theorem contains_ofSet (scope : BlessingScope) (set : DiscriminantSet) :
    scope.contains (ofSet set) = scope.accepts set := by
  rw [Bool.eq_iff_iff, contains_iff]
  constructor
  · exact fun h => h _ (admits_ofSet_self set)
  · exact fun h partition hpartition => (admits_of_ofSet hpartition).trans h

theorem intersects_ofSet (scope : BlessingScope) (set : DiscriminantSet) :
    scope.intersects (ofSet set) = scope.accepts set := by
  rw [Bool.eq_iff_iff, intersects_iff]
  constructor
  · rintro ⟨partition, hscope, hset⟩
    exact (admits_of_ofSet hset).symm.trans hscope
  · exact fun h => ⟨set.partition, h, admits_ofSet_self set⟩

theorem intersects_comm (scope other : BlessingScope) :
    scope.intersects other = other.intersects scope := by
  rw [Bool.eq_iff_iff, intersects_iff, intersects_iff]
  exact exists_congr fun _ => and_comm

end BlessingScope

/-! ## The scope of a query -/

/-- The values that a filter names, none for all. -/
def DiscriminantFilter.values : DiscriminantFilter → List Text
  | .all => []
  | .auto value => [value]
  | .explicit first rest => first :: rest

/-- The filters name the same values, up to their case. -/
def DiscriminantFilter.SameValues (filter other : DiscriminantFilter) : Prop :=
  ∀ value, value ∈ filter.values.map asciiLowercase ↔ value ∈ other.values.map asciiLowercase

def DiscriminantSetQuery.SameValues (query other : DiscriminantSetQuery) : Prop :=
  query.engine.SameValues other.engine ∧ query.targetTriple.SameValues other.targetTriple ∧
    query.machineKey.SameValues other.machineKey

theorem scopeValues_eq (filter : DiscriminantFilter) :
    scopeValues filter = treeSet (filter.values.map asciiLowercase) := by
  cases filter <;> rfl

/-- Neither order nor case nor repetition of the values shows in the scope. -/
theorem scopeValues_eq_iff {filter other : DiscriminantFilter} :
    scopeValues filter = scopeValues other ↔ filter.SameValues other := by
  rw [scopeValues_eq, scopeValues_eq]
  constructor
  · intro h value
    rw [← mem_treeSet, h, mem_treeSet]
  · exact treeSet_congr

theorem blessingScope_eq_iff {query other : DiscriminantSetQuery} :
    blessingScope query = blessingScope other ↔ query.SameValues other := by
  unfold blessingScope
  rw [BlessingScope.mk.injEq, scopeValues_eq_iff, scopeValues_eq_iff, scopeValues_eq_iff]
  rfl

/-- What the relations of scopes promise. -/
structure RelationsMean (a b c : BlessingScope) (set : DiscriminantSet) : Prop where
  accepts : a.contains b = true → b.accepts set = true → a.accepts set = true
  symmetric : a.intersects b = b.intersects a
  meets : a.accepts set = true → b.accepts set = true → a.intersects b = true
  containsSet : a.contains (.ofSet set) = a.accepts set
  intersectsSet : (BlessingScope.ofSet set).intersects a = a.accepts set
  refl : a.contains a = true
  trans : a.contains b = true → b.contains c = true → a.contains c = true
  /-- exact over any texts: what is not contained is refuted by a partition -/
  containsExact : a.contains b = false ↔
    ∃ partition, b.admits partition = true ∧ a.admits partition = false
  intersectsExact : a.intersects b = false ↔
    ∀ partition, ¬ (a.admits partition = true ∧ b.admits partition = true)

/-- **The relations of scopes mean what they say**, and the scope of a query
shows of its filters only which values they name. -/
theorem blessing_scope_relations (a b c : BlessingScope) (set : DiscriminantSet)
    (query other : DiscriminantSetQuery) :
    RelationsMean a b c set ∧
      (blessingScope query = blessingScope other ↔ query.SameValues other) := by
  refine ⟨?_, blessingScope_eq_iff⟩
  refine
    { accepts := fun h => BlessingScope.accepts_of_contains h
      symmetric := BlessingScope.intersects_comm a b
      meets := fun ha hb => BlessingScope.intersects_iff.mpr ⟨set.partition, ha, hb⟩
      containsSet := BlessingScope.contains_ofSet a set
      intersectsSet := ?_
      refl := BlessingScope.contains_iff.mpr fun _ h => h
      trans := fun hab hbc => ?_
      containsExact := ?_
      intersectsExact := ?_ }
  · rw [BlessingScope.intersects_comm]
    exact BlessingScope.intersects_ofSet a set
  · rw [BlessingScope.contains_iff] at hab hbc ⊢
    intro partition hpartition
    exact hab partition (hbc partition hpartition)
  · rw [← Bool.not_eq_true, BlessingScope.contains_iff]
    simp only [not_forall, exists_prop, Bool.not_eq_true]
  · rw [← Bool.not_eq_true, BlessingScope.intersects_iff]
    exact not_exists

end Folo.BenchHistory
