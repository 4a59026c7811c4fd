import Mathlib.Algebra.GroupWithZero.Nat
import Mathlib.Algebra.Order.BigOperators.Group.List
import Mathlib.Algebra.Order.Group.Nat
import ShaderEffect.Proofs.Rewrite

/-!
# Changes that add weight

The weight of an expression is the number of its nodes, in which a float literal counts twice. Where
every change of a node adds weight, no later change can bring back what an earlier one changed: such
a change is faithful (`Expr.Faithful.of_grows`).
-/

namespace ShaderEffect

open List

namespace Expr

variable {e : Expr}

def isFloat : Expr → Bool
  | .float _ => true
  | _ => false

theorem isFloat_withChildren (e : Expr) (xs : List Expr) :
    (e.withChildren xs).isFloat = e.isFloat := by
  unfold withChildren
  split <;> rfl

/-- What a node counts by itself: a float literal counts twice. -/
def ownWeight (e : Expr) : Nat :=
  if e.isFloat then 2 else 1

/-- The number of nodes of an expression, in which a float literal counts twice. -/
def weight (e : Expr) : Nat :=
  (e.subexprs.map ownWeight).sum

theorem weight_eq (e : Expr) : e.weight = e.ownWeight + (e.children.map weight).sum := by
  rw [weight, subexprs_eq_cons, map_cons, sum_cons, map_flatMap, flatMap_def,
    sum_flatten, map_map]
  rfl

theorem weight_withChildren {xs : List Expr} (h : xs.length = e.children.length) :
    (e.withChildren xs).weight = e.ownWeight + (xs.map weight).sum := by
  rw [weight_eq, children_withChildren h, ownWeight, isFloat_withChildren, ownWeight]

def Grows (e e' : Expr) : Prop :=
  e' = e ∨ e.weight < e'.weight

theorem Grows.le {e' : Expr} (h : Grows e e') : e.weight ≤ e'.weight := by
  rcases h with rfl | h <;> omega

theorem eq_or_weight_lt {es es' : List Expr} (h : List.Forall₂ Grows es es') :
    es' = es ∨ (es.map weight).sum < (es'.map weight).sum := by
  induction h with
  | nil => exact .inl rfl
  | cons he _ ih =>
    simp only [map_cons, sum_cons]
    have hle := he.le
    rcases ih with rfl | ih
    · rcases he with rfl | he
      · exact .inl rfl
      · exact .inr (by omega)
    · exact .inr (by omega)

theorem grows_withChildren {es : List Expr} (h : List.Forall₂ Grows e.children es) :
    Grows e (e.withChildren es) := by
  rcases eq_or_weight_lt h with rfl | hlt
  · exact .inl (withChildren_children e)
  · refine .inr ?_
    rw [weight_withChildren h.length_eq.symm, weight_eq e]
    omega

theorem Grows.trans {x y z : Expr} (hxy : Grows x y) (hyz : Grows y z) : Grows x z := by
  rcases hyz with rfl | hyz
  · exact hxy
  · exact .inr (Nat.lt_of_le_of_lt hxy.le hyz)

theorem grows_mapNodes {g : Expr → Expr} (hg : ∀ e, Grows e (g e)) (e : Expr) :
    Grows e (e.mapNodes g) := by
  induction e using byChildren with
  | node e ih =>
    rw [mapNodes_eq]
    refine (grows_withChildren ?_).trans (hg _)
    exact forall₂_map_right_iff.mpr (forall₂_same.mpr ih)

theorem Grows.eq_of_eq {x y z : Expr} (hxy : Grows x y) (hyz : Grows y z) (h : z = x) :
    y = x := by
  subst h
  rcases hxy with hxy | hxy
  · exact hxy
  · have := hyz.le
    omega

theorem Faithful.of_grows {g : Expr → Expr} (hg : ∀ e, Grows e (g e)) : Faithful g := by
  intro e heq c hc
  have hchildren := forall₂_map_self (grows_mapNodes hg) e.children
  rw [mapNodes_eq] at heq
  have hsame : e.withChildren (e.children.map (mapNodes g)) = e :=
    (grows_withChildren hchildren).eq_of_eq (hg _) heq
  have h := congrArg children hsame
  rw [children_withChildren (length_map ..)] at h
  exact map_eq_self_iff.mp h c hc

end Expr

end ShaderEffect
