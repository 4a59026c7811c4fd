import ShaderEffect.Proofs.Lowering.ControlFlow
import ShaderEffect.Proofs.Weight

/-!
# Side effects that stay where they are

A side effect moves out of its expression if it is evaluated for certain and its target can be read
again (`Movable`). An expression without such an effect `Rests`: nothing moves out of it. Every move
makes what is left of an expression lighter, so an expression that is left as it was rests, and what
moved out of an expression is not the expression itself. `Reduced` carries these facts through the
recursion, and `exists_drained` states them of a statement.
-/

namespace ShaderEffect.Lowering

open Expr List

variable {n : Nat} {t : Stmt} {e : Expr} {env : Env}

/-! ## Effects that move -/

/-- The operands that are evaluated for certain: all but the second one of `&&` and `||`. -/
def certainOperands (e : Expr) : List Expr :=
  if isShortCircuit e then e.children.take 1 else e.children

/-- No side effect moves out of the expression. -/
inductive Rests (env : Env) : Expr → Prop
  | node {e : Expr} : ¬ Movable env e → (∀ c ∈ certainOperands e, Rests env c) → Rests env e

theorem rests_iff : Rests env e ↔ ¬ Movable env e ∧ ∀ c ∈ certainOperands e, Rests env c :=
  ⟨fun ⟨he, hc⟩ => ⟨he, hc⟩, fun ⟨he, hc⟩ => .node he hc⟩

/-! ## Weights of what is left and of what moves -/

/-- A statement that moves out of expressions of the given weight: an effect that is not heavier, or
the declaration of a lighter old value. -/
inductive MovedOut (bound : Nat) : Stmt → Prop
  | effect {x : Expr} : x.isEffect = true → x.weight ≤ bound → MovedOut bound (.expr x)
  | old {d : VarDecl} {x : Expr} : d.init = some x → x.weight < bound → MovedOut bound (.decl [d])

theorem MovedOut.mono {m : Nat} (h : MovedOut m t) (hle : m ≤ n) : MovedOut n t := by
  cases h with
  | effect he hw => exact .effect he (hw.trans hle)
  | old hd hw => exact .old hd (hw.trans_le hle)

theorem weight_pos (e : Expr) : 0 < e.weight := by
  rw [weight_eq, ownWeight]
  split <;> omega

theorem weight_le_sum {es : List Expr} (h : e ∈ es) : e.weight ≤ (es.map weight).sum :=
  single_le_sum (fun _ _ => Nat.zero_le _) _ (mem_map_of_mem h)

theorem sum_children_lt_weight (e : Expr) : (e.children.map weight).sum < e.weight := by
  rw [weight_eq e, ownWeight]
  split <;> omega

theorem weight_lt_of_mem_children {c : Expr} (h : c ∈ e.children) : c.weight < e.weight :=
  (weight_le_sum h).trans_lt (sum_children_lt_weight e)

def isComma : Expr → Bool
  | .comma _ => true
  | _ => false

/-- The weight of a statement that is a comma. -/
def commaWeight : Stmt → Nat
  | .expr e => if isComma e then e.weight else 0
  | _ => 0

theorem commaWeight_of_not_comma (h : isComma e = false) : commaWeight (.expr e) = 0 := by
  rw [commaWeight, h]
  rfl

theorem isComma_withChildren (e : Expr) (xs : List Expr) :
    isComma (e.withChildren xs) = isComma e := by
  unfold withChildren
  split <;> rfl

theorem isComma_of_effect (h : e.isEffect = true) : isComma e = false := by
  cases e with
  | comma => cases h
  | _ => rfl

theorem isComma_of_pureTarget (h : e.isPureTarget = true) : isComma e = false := by
  cases e with
  | comma => cases h
  | _ => rfl

/-- What is left of an expression is a comma only if it was one. -/
def KeepsComma (x e : Expr) : Prop :=
  isComma e = false → isComma x = false

theorem commaWeight_le {x : Expr} (hle : x.weight ≤ e.weight) (hcomma : KeepsComma x e) :
    commaWeight (.expr x) ≤ commaWeight (.expr e) := by
  cases h : isComma e with
  | true =>
    grind [commaWeight]
  | false =>
    rw [commaWeight_of_not_comma (hcomma h)]
    exact Nat.zero_le _

/-- What is known when side effects have moved out of the expressions `before`: what is left of each
is the same or lighter, and all is as before exactly if the expressions rest. -/
structure Reduced (env : Env) (before left : List Expr) (moved : List Stmt) : Prop where
  shrinks : List.Forall₂ Grows left before
  commas : List.Forall₂ KeepsComma left before
  bounded : ∀ t ∈ moved, MovedOut (before.map weight).sum t
  rests : left = before → moved = [] ∧ ∀ e ∈ before, Rests env e
  stays : (∀ e ∈ before, Rests env e) → left = before ∧ moved = []

namespace Reduced

variable {env : Env}
variable {ms : List Stmt} {ls : List Expr}

theorem nil : Reduced env [] [] [] :=
  ⟨.nil, .nil, forall_mem_nil _, fun _ => ⟨rfl, forall_mem_nil _⟩, fun _ => ⟨rfl, rfl⟩⟩

theorem append {es es' ls' : List Expr} {ms' : List Stmt} (h : Reduced env es ls ms)
    (h' : Reduced env es' ls' ms') : Reduced env (es ++ es') (ls ++ ls') (ms ++ ms') where
  shrinks := rel_append h.shrinks h'.shrinks
  commas := rel_append h.commas h'.commas
  bounded := by
    rw [map_append, sum_append]
    exact forall_mem_append.mpr ⟨fun t ht => (h.bounded t ht).mono (Nat.le_add_right ..),
      fun t ht => (h'.bounded t ht).mono (Nat.le_add_left ..)⟩
  rests := fun heq => by
    obtain ⟨hleft, hright⟩ := append_inj heq h.shrinks.length_eq
    obtain ⟨rfl, hes⟩ := h.rests hleft
    obtain ⟨rfl, hes'⟩ := h'.rests hright
    exact ⟨rfl, forall_mem_append.mpr ⟨hes, hes'⟩⟩
  stays := fun hes => by
    rw [forall_mem_append] at hes
    obtain ⟨rfl, rfl⟩ := h.stays hes.1
    obtain ⟨rfl, rfl⟩ := h'.stays hes.2
    exact ⟨rfl, rfl⟩

section

variable (h : Reduced env e.children ls ms)
include h

theorem grows_node : Grows (e.withChildren ls) e := by
  have hchildren := children_withChildren h.shrinks.length_eq
  have hgrows : Grows (e.withChildren ls) ((e.withChildren ls).withChildren e.children) :=
    grows_withChildren (by rw [hchildren]; exact h.shrinks)
  rwa [withChildren_withChildren h.shrinks.length_eq] at hgrows

theorem operands :
    (∀ t ∈ ms, MovedOut e.weight t) ∧
      (e.withChildren ls = e → ms = [] ∧ ∀ c ∈ e.children, Rests env c) := by
  refine ⟨fun t ht => (h.bounded t ht).mono (sum_children_lt_weight e).le, fun heq => h.rests ?_⟩
  exact (children_withChildren h.shrinks.length_eq).symm.trans (congrArg children heq)

theorem node {x : Expr} {ts : List Stmt} {a b : State} (hop : isShortCircuit e = false)
    (hm : MovesTo env (e.withChildren ls) a x ts b) : Reduced env [e] [x] (ms ++ ts) := by
  have hcertain : certainOperands e = e.children := by
    rw [certainOperands, hop]
    rfl
  have hle := h.grows_node.le
  have hstays : Rests env e → e.withChildren ls = e ∧ ms = [] ∧ ¬ Movable env e := by
    rw [rests_iff, hcertain]
    rintro ⟨he, hc⟩
    obtain ⟨rfl, rfl⟩ := h.stays hc
    exact ⟨withChildren_children e, rfl, he⟩
  have hweight : ([e].map weight).sum = e.weight := by simp
  obtain ⟨hmoved, hrests⟩ := h.operands
  have hunmoved : ¬ Movable env (e.withChildren ls) →
      Reduced env [e] [e.withChildren ls] (ms ++ []) := fun hnot => by
    rw [append_nil]
    refine ⟨.cons h.grows_node .nil, .cons (fun h => (isComma_withChildren e ls).trans h) .nil,
      by rwa [hweight], fun heq => ?_, fun he => ?_⟩
    · have hself : e.withChildren ls = e := (cons.inj heq).1
      obtain ⟨rfl, hc⟩ := hrests hself
      rw [hself] at hnot
      exact ⟨rfl, forall_mem_singleton.mpr (.node hnot (hcertain ▸ hc))⟩
    grind
  -- what is left is lighter than the node, so the node has not stayed
  have hlight : ∀ {x : Expr} {ts : List Stmt}, Movable env (e.withChildren ls) →
      x.weight < e.weight → isComma x = false → (∀ t ∈ ts, MovedOut e.weight t) →
      Reduced env [e] [x] (ms ++ ts) := fun hmovable hx hcomma hts => by
    refine ⟨.cons (.inr hx) .nil, .cons (fun _ => hcomma) .nil, ?_, fun heq => ?_, fun he => ?_⟩
    · rw [hweight]
      exact forall_mem_append.mpr ⟨hmoved, hts⟩
    · rw [(cons.inj heq).1] at hx
      exact absurd hx (Nat.lt_irrefl _)
    grind
  have heffect : Movable env (e.withChildren ls) → MovedOut e.weight (.expr (e.withChildren ls)) :=
    fun hmovable => .effect hmovable.isEffect hle
  cases hm with
  | stays he => exact hunmoved fun hmovable => by rw [hmovable.isEffect] at he; cases he
  | reported _ hnot => exact hunmoved hnot
  | target hmovable hx hpure =>
    exact hlight hmovable ((weight_lt_of_mem_children hx).trans_le hle) (isComma_of_pureTarget hpure)
      (forall_mem_singleton.mpr (heffect hmovable))
  | @old x _ _ name hmovable hx hd =>
    have hlt := (weight_lt_of_mem_children hx).trans_le hle
    have hname : (Expr.ident name).weight < e.weight := by
      have hpos := weight_pos x
      have hone : (Expr.ident name).weight = 1 := rfl
      omega
    exact hlight hmovable hname rfl
      (forall_mem_cons.mpr ⟨.old hd hlt, forall_mem_singleton.mpr (heffect hmovable)⟩)

end

theorem extraction (env : Env) : Extraction env fun es ls ms _ _ => Reduced env es ls ms where
  nil := fun _ => .nil
  append := .append
  node := fun hop _ h hm => h.node hop hm
  shortCircuit := fun {op l l' r _ _ _} hop hl => by
    have hcertain : certainOperands (.binary op l r) = [l] := by
      rw [certainOperands, hop]
      rfl
    refine ⟨.cons ?_ .nil, .cons (fun _ => rfl) .nil, fun t ht => (hl.bounded t ht).mono ?_,
      fun heq => ?_, fun he => ?_⟩
    · exact grows_withChildren (e := .binary op _ r) (.cons (forall₂_cons.mp hl.shrinks).1
        (.cons (.inl rfl) .nil))
    · have := weight_lt_of_mem_children (e := .binary op l r) (c := l) mem_cons_self
      simpa using this.le
    · obtain ⟨-, hsame, -⟩ := Expr.binary.inj (cons.inj heq).1
      obtain ⟨hmoved, hrests⟩ := hl.rests (congrArg (fun x => [x]) hsame)
      exact ⟨hmoved, forall_mem_singleton.mpr (.node id (hcertain ▸ hrests))⟩
    · obtain ⟨-, hc⟩ := rests_iff.mp (forall_mem_singleton.mp he)
      rw [hcertain] at hc
      obtain ⟨hsame, hmoved⟩ := hl.stays hc
      exact ⟨congrArg (fun x => [Expr.binary op x r]) (cons.inj hsame).1, hmoved⟩

end Reduced

theorem reduced_extract (env : Env) (e : Expr) :
    ∀ a, Reduced env [e] [(extract env e a).1.1] (extract env e a).1.2 :=
  (Reduced.extraction env).extract e

theorem MovedOut.commaWeight_eq (h : MovedOut n t) : commaWeight t = 0 := by
  cases h with
  | effect hx => exact commaWeight_of_not_comma (isComma_of_effect hx)
  | old => rfl

theorem MovedOut.substmts (h : MovedOut n t) : t.substmts = [t] := by
  cases h <;> rfl

/-! ## Statements -/

/-- What is known about a statement `s` that has become `s'` after the statements that moved out of
it. -/
structure Drained (env : Env) (s : Stmt) (moved : List Stmt) (s' : Stmt) : Prop where
  children : s'.children = s.children
  block : ∀ body, s' = .block body → s = .block body
  comma : commaWeight s' ≤ commaWeight s
  bounded : ∀ t ∈ moved, MovedOut ((sources s).map weight).sum t
  rests : s' = s → moved = [] ∧ ∀ e ∈ sources s, Rests env e
  stays : (∀ e ∈ sources s, Rests env e) → s' = s ∧ moved = []

namespace Drained

variable {env : Env} {s s' : Stmt} {moved : List Stmt}

theorem of_reduced {left : List Expr} (h : Reduced env (sources s) left moved)
    (hs : s' = s ↔ left = sources s) (hchildren : s'.children = s.children)
    (hblock : ∀ body, s' ≠ .block body) (hcomma : commaWeight s' ≤ commaWeight s) :
    Drained env s moved s' where
  children := hchildren
  block := fun body heq => absurd heq (hblock body)
  comma := hcomma
  bounded := h.bounded
  rests := fun heq => h.rests (hs.mp heq)
  stays := fun he => (h.stays he).imp_left hs.mpr

theorem unmoved (h : isKept s = true) : Drained env s [] s := by
  have hsources : sources s = [] := by
    cases s with
    | ret value =>
      cases value with
      | none => rfl
      | some => cases h
    | expr | ifElse | switch | decl => cases h
    | _ => rfl
  refine ⟨rfl, fun _ => id, Nat.le_refl _, forall_mem_nil _, fun _ => ⟨rfl, ?_⟩,
    fun _ => ⟨rfl, rfl⟩⟩
  rw [hsources]
  exact forall_mem_nil _

theorem not_mem (h : Drained env s moved s') : s ∉ moved := by
  intro hmem
  have hmoved := h.bounded s hmem
  cases hmoved with
  | @effect x hx hw =>
    grind [sources, sum_children_lt_weight]
  | @old d x hd hw =>
    grind [sources, Stmt.operands, Stmt.exprs]

theorem rests_of_mem (h : Drained env s moved s') (hmem : s ∈ moved ++ [s']) :
    ∀ e ∈ sources s, Rests env e := by
  rcases mem_append.mp hmem with hmem | hmem
  · exact absurd hmem h.not_mem
  · exact (h.rests (mem_singleton.mp hmem).symm).2

end Drained

theorem HoistsTo.drained {s : Stmt} {out : List Stmt} {a b : State}
    (h : HoistsTo (fun es ls ms _ _ => Reduced env es ls ms) a s out b) :
    ∃ moved s', out = moved ++ [s'] ∧ Drained env s moved s' := by
  cases h with
  | @effect e ls ms _ he hlen h =>
    have hsources : sources (.expr e) = e.children := by rw [sources, if_pos he]
    refine ⟨_, _, rfl, .of_reduced (hsources ▸ h) ?_ rfl (by rintro _ ⟨⟩) ?_⟩
    · grind [withChildren_children, children_withChildren]
    · rw [commaWeight_of_not_comma ((isComma_withChildren e ls).trans (isComma_of_effect he))]
      exact Nat.zero_le _
  | @value e x ms _ he h =>
    have hsources : sources (.expr e) = [e] := by rw [sources, he]; rfl
    refine ⟨_, _, rfl, .of_reduced (hsources ▸ h) ?_ rfl (by rintro _ ⟨⟩)
      (commaWeight_le (forall₂_cons.mp h.shrinks).1.le (forall₂_cons.mp h.commas).1)⟩
    rw [hsources, Stmt.expr.injEq, cons.injEq, and_iff_left rfl]
  | operands hs h =>
    cases hs with
    | ret | ifElse | switch =>
      refine ⟨_, _, rfl, .of_reduced h ?_ rfl (by rintro _ ⟨⟩) (Nat.le_refl _)⟩
      simp [sources, Stmt.operands, Stmt.exprs]
    | decl heq =>
      exact ⟨_, _, rfl, .of_reduced h ⟨fun hs => by rw [Stmt.decl.inj hs]; rfl,
        fun hs => congrArg Stmt.decl (heq hs)⟩ rfl (by rintro _ ⟨⟩) (Nat.le_refl _)⟩
  | kept hs => exact ⟨[], _, rfl, .unmoved hs⟩

/-- **What moves out of a statement is never the statement itself, and nothing moves exactly if its
sources rest.** -/
theorem exists_drained (env : Env) (s : Stmt) (a : State) :
    ∃ moved s', (hoist env s a).1 = moved ++ [s'] ∧ Drained env s moved s' :=
  ((Reduced.extraction env).hoist s a).drained

end ShaderEffect.Lowering
