import Mathlib.Logic.Relation
import Mathlib.Data.List.Nodup
import Mathlib.Data.List.Chain

/-!
# Commit graphs

Commits with their parents, the first of which is the one that a branch goes
on from. A merge-base is a best common ancestor: there may be more than one,
and none of them is an ancestor of another common ancestor. The ancestors of a
commit on a first-parent line are a beginning of the line
(`FirstParentLine.ancestor`), so that a merge-base on the line is where they
end.
-/

namespace Folo.Lib

open Relation

/-- Every commit with its parents; no commit comes before itself. -/
structure CommitGraph (C : Type) where
  parents : C → List C
  acyclic : ∀ c, ¬ TransGen (fun a b => a ∈ parents b) c c

namespace CommitGraph

variable {C : Type} {g : CommitGraph C}

/-- `a` is `b` or comes before it. -/
def Ancestor (g : CommitGraph C) : C → C → Prop := ReflTransGen fun a b => a ∈ g.parents b

theorem Ancestor.refl (c : C) : g.Ancestor c c := ReflTransGen.refl

theorem Ancestor.trans {a b c : C} (hab : g.Ancestor a b) (hbc : g.Ancestor b c) :
    g.Ancestor a c :=
  ReflTransGen.trans hab hbc

theorem Ancestor.antisymm {a b : C} (hab : g.Ancestor a b) (hba : g.Ancestor b a) : a = b := by
  rcases reflTransGen_iff_eq_or_transGen.mp hab with heq | hlt
  · exact heq.symm
  · exact absurd (hlt.trans_left hba) (g.acyclic a)

/-- `m` is a common ancestor of `a` and `b` that no other improves on. -/
structure IsMergeBase (g : CommitGraph C) (a b m : C) : Prop where
  left : g.Ancestor m a
  right : g.Ancestor m b
  best : ∀ c, g.Ancestor c a → g.Ancestor c b → g.Ancestor m c → c = m

/-- The merge-base of a commit with one that it comes before is itself. -/
theorem IsMergeBase.eq_left {a b m : C} (h : g.IsMergeBase a b m) (hab : g.Ancestor a b) :
    m = a :=
  (h.best a (Ancestor.refl a) hab h.left).symm

theorem IsMergeBase.of_ancestor {a b : C} (hab : g.Ancestor a b) : g.IsMergeBase a b a where
  left := .refl a
  right := hab
  best _ hca _ hac := hca.antisymm hac

/-- The commit before `b` on its line is `a`. -/
def FirstParent (g : CommitGraph C) (a b : C) : Prop := (g.parents b).head? = some a

theorem FirstParent.mem {a b : C} (h : g.FirstParent a b) : a ∈ g.parents b :=
  List.mem_of_mem_head? h

/-- `c` is on the first-parent line of `tip`. -/
def OnLine (g : CommitGraph C) (c tip : C) : Prop := ReflTransGen g.FirstParent c tip

/-- The whole line of `tip`, the oldest commit first. -/
structure FirstParentLine (g : CommitGraph C) (tip : C) (trunk : List C) : Prop where
  chain : trunk.IsChain g.FirstParent
  last : ∀ c, trunk.getLast? = some c → c = tip
  complete : ∀ c, g.OnLine c tip → c ∈ trunk

namespace FirstParentLine

variable {tip : C} {trunk : List C}

/-- The steps from one commit of a chain to a later one. -/
theorem transGen_of_chain {R : C → C → Prop} {trunk : List C} (hchain : trunk.IsChain R) {i j : Nat}
    (hij : i < j) {a b : C} (ha : trunk[i]? = some a) (hb : trunk[j]? = some b) :
    TransGen R a b := by
  have hpair : trunk.Pairwise (TransGen R) :=
    (hchain.imp fun _ _ h => TransGen.single h).pairwise
  obtain ⟨hi, rfl⟩ := List.getElem?_eq_some_iff.mp ha
  obtain ⟨hj, rfl⟩ := List.getElem?_eq_some_iff.mp hb
  exact List.pairwise_iff_getElem.mp hpair i j hi hj hij

theorem ancestor (h : g.FirstParentLine tip trunk) {i j : Nat} (hij : i ≤ j) {a b : C}
    (ha : trunk[i]? = some a) (hb : trunk[j]? = some b) : g.Ancestor a b := by
  rcases hij.eq_or_lt with rfl | hlt
  · obtain rfl := Option.some.inj (ha.symm.trans hb)
    exact Ancestor.refl a
  · exact (TransGen.mono (fun _ _ h => FirstParent.mem h) _ _
      (transGen_of_chain h.chain hlt ha hb)).to_reflTransGen

/-- A commit has one place on a line. -/
theorem nodup (h : g.FirstParentLine tip trunk) : trunk.Nodup := by
  refine List.nodup_iff_getElem?_ne_getElem?.mpr fun i j hij hj heq => ?_
  obtain ⟨c, hc⟩ : ∃ c, trunk[j]? = some c := ⟨_, List.getElem?_eq_getElem hj⟩
  refine g.acyclic c ?_
  exact TransGen.mono (fun _ _ h => FirstParent.mem h) _ _
    (transGen_of_chain h.chain hij (heq.trans hc) hc)

theorem onLine (h : g.FirstParentLine tip trunk) {c : C} (hc : c ∈ trunk) : g.OnLine c tip := by
  obtain ⟨i, hi⟩ := List.mem_iff_getElem?.mp hc
  have hlt : i < trunk.length := (List.getElem?_eq_some_iff.mp hi).1
  obtain ⟨last, hlast⟩ : ∃ last, trunk[trunk.length - 1]? = some last :=
    ⟨_, List.getElem?_eq_getElem (by omega)⟩
  obtain rfl : last = tip := h.last last (by rw [List.getLast?_eq_getElem?, hlast])
  rcases (Nat.le_sub_one_of_lt hlt).eq_or_lt with rfl | hbefore
  · obtain rfl := Option.some.inj (hi.symm.trans hlast)
    exact ReflTransGen.refl
  · exact (transGen_of_chain h.chain hbefore hi hlast).to_reflTransGen

end FirstParentLine

end CommitGraph

end Folo.Lib
