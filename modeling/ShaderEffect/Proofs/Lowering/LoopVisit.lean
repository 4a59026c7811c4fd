import ShaderEffect.Proofs.Lowering.ControlFlow
import ShaderEffect.Proofs.Visit

/-!
# The loops that the lowering of control flow meets

The walk of the pass visits every statement when its parts have been walked. `flowRun` is the pass
with the list of its visits. The expressions of a statement come to its visit as they were, so **every
`do` and every `for` loop of the program is visited with the condition and the step that it has in the
program** (`exists_visit_of_loop`), and the first part of a header is still a declaration or an
expression if it was one (`plainHeader_of_visit`).
-/

namespace ShaderEffect.Lowering

open Walker List Stmt

variable {s s' : Stmt}
variable (st : Setting)

def flowWalker : Walker State := { stmt := lowerStmt }

def flowRun (st : Setting) (p : Program) (b : State) : Program × State × List (Visit State) :=
  flowWalker.recorded.walk (st.envFor p) p (b, [])

theorem lowerControlFlow_eq (p : Program) (b : State) :
    lowerControlFlow st p b = ((flowRun st p b).1, (flowRun st p b).2.1) :=
  walk_recorded flowWalker (st.envFor p) p (b, [])

/-- Two loops with the same condition and the same step. -/
inductive SameHeader : Stmt → Stmt → Prop
  | doWhile {body body' : Stmt} {cond : Expr} :
      SameHeader (.doWhile body cond) (.doWhile body' cond)
  | forLoop {start start' : Option Stmt} {cond step : Option Expr} {body body' : Stmt} :
      SameHeader (.forLoop start cond step body) (.forLoop start' cond step body')

/-- A header as the grammar has it: its first part is a declaration or an expression. -/
def PlainHeader : Stmt → Prop
  | .forLoop start _ _ _ => ∀ s ∈ start, IsStep s
  | _ => True

/-! ## Expressions stay -/

/-- An expression stays as it is, and so does the state. -/
def Unchanged {σ : Type} (_ : Env) (e : Expr) (a : σ) (e' : Expr) (b : σ) : Prop :=
  e' = e ∧ b = a

section Parts

variable {σ : Type} {env : Env} {a b : σ}

theorem unchanged_steps {es es' : List Expr} (h : Steps (Somewhere Unchanged) es a es' b) :
    es' = es ∧ b = a := by
  induction h with
  | nil => exact ⟨rfl, rfl⟩
  | cons he _ ih =>
    obtain ⟨-, rfl, rfl⟩ := he
    obtain ⟨rfl, rfl⟩ := ih
    exact ⟨rfl, rfl⟩

theorem unchanged_option {o o' : Option Expr}
    (h : ExprsTo Unchanged env o.toList a o'.toList b) : o' = o ∧ b = a := by
  obtain ⟨heq, hb⟩ := unchanged_steps h.steps
  refine ⟨?_, hb⟩
  cases o <;> cases o' <;> simp_all

variable {w : Walker σ}

theorem unchanged_expr (hw : ∀ env e a, w.expr env e a = (e, a)) (env : Env) (e : Expr) (a : σ)
    (es : List Expr) (b : σ) (h : ExprsTo Unchanged env e.children a es b) :
    Unchanged env e a (w.expr env (e.withChildren es) b).1 (w.expr env (e.withChildren es) b).2 := by
  obtain ⟨rfl, rfl⟩ := unchanged_steps h.steps
  rw [hw]
  exact ⟨Expr.withChildren_children e, rfl⟩

theorem unchanged_globals (hw : ∀ env d a, w.global env d a = (d, a)) {ds ds' : List VarDecl}
    (h : GlobalsTo w Unchanged env ds a ds' b) : ds' = ds ∧ b = a := by
  induction h with
  | nil => exact ⟨rfl, rfl⟩
  | cons hd _ ih =>
    obtain ⟨rfl, rfl⟩ := unchanged_option hd
    rw [hw] at ih
    obtain ⟨rfl, rfl⟩ := ih
    rw [hw]
    exact ⟨rfl, rfl⟩

end Parts

/-! ## Loops are visited -/

/-- What the visits tell about statements that have been walked: their loops are among them, and no
header is but as the grammar has it, unless one of the statements has such a header. -/
structure Seen (ss : List Stmt) (a b : State × List (Visit State)) : Prop where
  grows : a.2 ⊆ b.2
  loops : ∀ s ∈ ss, SameHeader s s → ∃ v ∈ b.2, SameHeader s v.stmt
  plain : (∀ s ∈ ss, PlainHeader s) → ∀ v ∈ b.2, v ∈ a.2 ∨ PlainHeader v.stmt

namespace Seen

variable {ss ts : List Stmt} {a b c : State × List (Visit State)}

theorem nil (a : State × List (Visit State)) : Seen [] a a :=
  ⟨List.Subset.refl _, forall_mem_nil _, fun _ _ hv => .inl hv⟩

theorem append (h : Seen ss a b) (h' : Seen ts b c) : Seen (ss ++ ts) a c where
  grows := List.Subset.trans h.grows h'.grows
  loops := forall_mem_append.mpr
    ⟨fun s hs hloop => (h.loops s hs hloop).imp fun _ hv => ⟨h'.grows hv.1, hv.2⟩, h'.loops⟩
  plain := fun hplain v hv => by
    rw [forall_mem_append] at hplain
    rcases h'.plain hplain.2 v hv with hv | hv
    · exact h.plain hplain.1 v hv
    · exact .inr hv

theorem visit {st : State} (h : Seen ss a b) (hloop : SameHeader s s → SameHeader s s')
    (hplain : PlainHeader s → PlainHeader s') :
    Seen (s :: ss) a (st, b.2 ++ [⟨s', b.1⟩]) where
  grows := List.Subset.trans h.grows (subset_append_left ..)
  loops := forall_mem_cons.mpr
    ⟨fun hs => ⟨_, mem_append_right _ mem_cons_self, hloop hs⟩, fun t ht hs =>
      (h.loops t ht hs).imp fun _ hv => ⟨mem_append_left _ hv.1, hv.2⟩⟩
  plain := fun hall => by
    rw [forall_mem_cons] at hall
    exact forall_mem_append.mpr
      ⟨h.plain hall.2, forall_mem_singleton.mpr (.inr (hplain hall.1))⟩

end Seen

/-- What a walked statement leaves: its loops have been visited, and a declaration or an expression
becomes such statements. -/
def SeenStmt (_ : Env) (s : Stmt) (a : State × List (Visit State)) (out : List Stmt)
    (b : State × List (Visit State)) : Prop :=
  Seen s.substmts a b ∧ (IsStep s → ∀ t ∈ out, IsStep t)

section Walked

variable {env : Env} {a b : State × List (Visit State)}
variable {before : List Stmt}

theorem seen_steps {ss : List Stmt} {outs : List (List Stmt)}
    (h : Steps (Somewhere SeenStmt) ss a outs b) : Seen (ss.flatMap substmts) a b := by
  induction h with
  | nil a => exact .nil a
  | cons hs _ ih => exact hs.anywhere.1.append ih

variable (h : NodeTo Unchanged SeenStmt env s a s' before b)
include h

theorem seen_children : Seen (s.children.flatMap Stmt.substmts) a b := by
  obtain ⟨outs, c, hchildren, hoperands, -⟩ := h.parts
  obtain ⟨-, rfl⟩ := unchanged_steps hoperands
  exact seen_steps hchildren

theorem sameHeader_node (hs : SameHeader s s) : SameHeader s s' := by
  cases hs with
  | doWhile =>
    cases h with
    | doWhile _ hc =>
      obtain ⟨rfl, -⟩ := hc
      exact .doWhile
  | forLoop =>
    cases h with
    | forLoop _ _ hc hstep =>
      obtain ⟨rfl, -⟩ := unchanged_option hc
      obtain ⟨rfl, -⟩ := unchanged_option hstep
      exact .forLoop

theorem plainHeader_node (hs : PlainHeader s) : PlainHeader s' := by
  cases h with
  | forLoop hst =>
    intro t ht
    cases hst with
    | none => cases ht
    | some hstart => exact hstart.2 (hs _ rfl) t (mem_of_getLast? ht)
  | _ => exact trivial

theorem isStep_node (hs : IsStep s) : IsStep s' ∧ before = [] := by
  rcases hs with ⟨ds, rfl⟩ | ⟨e, rfl⟩
  · cases h with
    | decl hds => exact ⟨.inl ⟨_, rfl⟩, rfl⟩
  · cases h with
    | expr he => exact ⟨.inr ⟨_, rfl⟩, rfl⟩

end Walked

/-! ## Declarations and expressions stay what they are -/

theorem HoistsTo.isStep {a b : State} {out : List Stmt} (h : HoistsTo Extracted a s out b)
    (hs : IsStep s) : ∀ t ∈ out, IsStep t := by
  cases h with
  | effect _ _ h | value _ h =>
    exact forall_mem_append.mpr ⟨h.isStep, forall_mem_singleton.mpr (.inr ⟨_, rfl⟩)⟩
  | operands hcast h =>
    cases hcast with
    | decl => exact forall_mem_append.mpr ⟨h.isStep, forall_mem_singleton.mpr (.inl ⟨_, rfl⟩)⟩
    | _ => rcases hs with ⟨_, hs⟩ | ⟨_, hs⟩ <;> cases hs
  | kept => exact forall_mem_singleton.mpr hs

theorem isStep_lowerStmt (env : Env) (h : IsStep s) (a : State) :
    ∀ t ∈ (lowerStmt env s a).1, IsStep t := by
  have hshape : ∀ t ∈ (shape s a).1, IsStep t := by
    rcases h with ⟨ds, rfl⟩ | ⟨e, rfl⟩
    · exact forall_mem_singleton.mpr (.inl ⟨ds, rfl⟩)
    · rw [shape_expr]
      exact isStep_stepStmts e
  intro t ht
  obtain ⟨u, hu, b, ht⟩ := mem_hoistAll ht
  exact ((Extracted.extraction env).hoist u b).isStep (hshape u hu) t ht

/-! ## The visits of a program -/

theorem establishes_seen : flowWalker.recorded.Establishes Unchanged SeenStmt where
  expr := unchanged_expr fun _ _ _ => rfl
  stmt := fun env s a s' before b h => by
    refine ⟨?_, fun hs => ?_⟩
    · rw [substmts_eq_cons]
      exact (seen_children h).visit (sameHeader_node h) (plainHeader_node h)
    · obtain ⟨hs', rfl⟩ := isStep_node h hs
      exact isStep_lowerStmt env hs' b.1

theorem seen_items {env : Env} {is js : List Item} {a b : State × List (Visit State)}
    (h : ItemsTo flowWalker.recorded Unchanged SeenStmt env is a js b) :
    Seen (is.flatMap Item.substmts) a b := by
  induction h with
  | nil a => exact .nil a
  | cons hi _ ih =>
    rw [flatMap_cons]
    cases hi with
    | struct => exact ih
    | globals hds =>
      obtain ⟨-, rfl⟩ := unchanged_globals (fun _ _ _ => rfl) hds
      exact ih
    | function _ henter hbody =>
      obtain ⟨rfl, rfl⟩ := Prod.mk.inj henter
      obtain ⟨outs, hsteps, -⟩ := hbody.steps
      rw [Item.substmts, substmtsAll_eq_flatMap]
      exact (seen_steps hsteps).append ih

theorem seen_flowRun (p : Program) (b : State) :
    Seen (p.items.flatMap Item.substmts) (b, []) (flowRun st p b).2 :=
  seen_items (establishes_seen.onItems (st.envFor p) p.items (b, []))

/-- **Every loop of a program is visited with its condition and its step.** -/
theorem exists_visit_of_loop {p : Program} (b : State) (hs : s ∈ p.items.flatMap Item.substmts)
    (hloop : SameHeader s s) : ∃ v ∈ (flowRun st p b).2.2, SameHeader s v.stmt :=
  (seen_flowRun st p b).loops s hs hloop

theorem plainHeader_of_visit {p : Program} (b : State)
    (hp : ∀ s ∈ p.items.flatMap Item.substmts, PlainHeader s) :
    ∀ v ∈ (flowRun st p b).2.2, PlainHeader v.stmt :=
  fun v hv => ((seen_flowRun st p b).plain hp v hv).resolve_left not_mem_nil

end ShaderEffect.Lowering
