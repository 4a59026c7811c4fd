import ShaderEffect.Proofs.Walk

/-!
# Where the expressions of a walked program come from

`Program.evaluated` lists the expressions that a program evaluates: all but those of case labels.
A walker `Traces` them if it conveys the property `Q` to what it leaves. **Then every expression of
the walked program has the property** (`Traces.evaluated_walk`).
-/

namespace ShaderEffect

open List

namespace Stmt

/-- The expressions that a statement and the statements inside it evaluate. -/
def evaluated (s : Stmt) : List Expr :=
  s.substmts.flatMap operands

theorem evaluated_eq (s : Stmt) : s.evaluated = s.operands ++ s.children.flatMap evaluated := by
  unfold evaluated
  rw [substmts_eq_cons, flatMap_cons, flatMap_assoc]

theorem forall_mem_evaluated {Q : Expr → Prop} {s : Stmt} :
    (∀ e ∈ s.evaluated, Q e) ↔
      (∀ e ∈ s.operands, Q e) ∧ ∀ c ∈ s.children, ∀ e ∈ c.evaluated, Q e := by
  rw [evaluated_eq, forall_mem_append, forall_mem_flatMap]

@[simp] theorem evaluated_block (ss : List Stmt) :
    (Stmt.block ss).evaluated = ss.flatMap evaluated :=
  evaluated_eq (.block ss)

@[simp] theorem evaluated_expr (e : Expr) : (Stmt.expr e).evaluated = [e] :=
  evaluated_eq (.expr e)

@[simp] theorem evaluated_ret (o : Option Expr) : (Stmt.ret o).evaluated = o.toList :=
  (evaluated_eq (.ret o)).trans (append_nil _)

@[simp] theorem evaluated_decl (ds : List VarDecl) :
    (Stmt.decl ds).evaluated = ds.flatMap fun d => d.init.toList :=
  ((evaluated_eq (.decl ds)).trans (append_nil _)).trans
    (filterMap_eq_flatMap_toList VarDecl.init ds)

/-- The expressions of a changed statement, where the change of a statement itself brings no others
with it. -/
theorem evaluated_mapTree {P Q : Expr → Prop} {f : Expr → Expr} {g : Stmt → Stmt}
    (hf : ∀ e, P e → Q (f e)) (hg : ∀ s, (∀ e ∈ s.evaluated, Q e) → ∀ e ∈ (g s).evaluated, Q e)
    (s : Stmt) : (∀ e ∈ s.evaluated, P e) → ∀ e ∈ (s.mapTree f g).evaluated, Q e := by
  induction s using byChildren with
  | node s ih =>
    intro hs
    obtain ⟨hop, hch⟩ := forall_mem_evaluated.mp hs
    rw [mapTree_eq]
    refine hg _ (forall_mem_evaluated.mpr ⟨?_, ?_⟩)
    · rw [operands_mapExprs, operands_mapChildren]
      exact forall_mem_map.mpr fun e he => hf e (hop e he)
    · rw [children_mapExprs, children_mapChildren]
      exact forall_mem_map.mpr fun c hc => ih c hc (hch c hc)

end Stmt

namespace Item

def evaluated : Item → List Expr
  | .struct _ => []
  | .globals ds => ds.flatMap fun d => d.init.toList
  | .function f => f.body.flatMap Stmt.evaluated

end Item

namespace Program

/-- The expressions that a program evaluates. -/
def evaluated (p : Program) : List Expr :=
  p.items.flatMap Item.evaluated

end Program

namespace Walker

variable {σ : Type}

/-- The walker leaves expressions with the property `Q`. -/
abbrev Traces (w : Walker σ) (before after : σ → Prop) (whole part : Expr → Prop)
    (F : Expr → Expr → Prop) (Q : Expr → Prop) : Prop :=
  w.Conveys before after whole part F (fun s => ∀ e ∈ s.evaluated, whole e) Q
    fun s => ∀ e ∈ s.evaluated, Q e

theorem ofBlocks_evaluated (Q : Expr → Prop) : OfBlocks fun s => ∀ e ∈ s.evaluated, Q e := by
  intro ss
  dsimp only
  rw [Stmt.evaluated_block, forall_mem_flatMap]

namespace Traces

variable {w : Walker σ} {before after : σ → Prop} {whole part : Expr → Prop}
  {F : Expr → Expr → Prop} {Q : Expr → Prop} {a : σ}

theorem holds_iff {i : Item} :
    Holds Q (fun s => ∀ e ∈ s.evaluated, Q e) i ↔ ∀ e ∈ i.evaluated, Q e := by
  cases i with
  | struct => exact iff_of_true trivial (forall_mem_nil _)
  | globals | function => exact forall_mem_flatMap.symm

/-- **Every expression that a walk leaves has the property.** -/
theorem evaluated_walk (h : w.Traces before after whole part F Q) (env : Env) {p : Program}
    (ha : before a) (hp : ∀ e ∈ p.evaluated, whole e) :
    before (w.walk env p a).2 ∧ (after (w.walk env p a).2 →
      after a ∧ ∀ e ∈ (w.walk env p a).1.evaluated, Q e) := by
  obtain ⟨hb, h1⟩ := h.walk env ha fun i hi => holds_iff.mpr (forall_mem_flatMap.mp hp i hi)
  exact ⟨hb, fun hafter => ⟨(h1 hafter).1,
    forall_mem_flatMap.mpr fun j hj => holds_iff.mp ((h1 hafter).2 j hj)⟩⟩

end Traces

end Walker

end ShaderEffect
