import ShaderEffect.Proofs.Walk

/-!
# What a walk keeps away

A walker that at no node leaves an unwanted kind of expression or statement leaves none in the whole
program (`Clears.avoids_walk`). The kinds that it counts on being absent (`inExpr`, `inStmt`) may be
fewer than those it removes (`outExpr`, `outStmt`): a pass that keeps a kind away has the same on
both sides, a pass that removes it has no demand.

Case labels are not visited. A walker whose nodes keep them keeps all of them
(`KeepsLabels.hasLabel_walk`).
-/

namespace ShaderEffect

open List

variable {β α : Type} {xs : List α} {ss : List Stmt} {ys : List β}

namespace Item

/-- No statement of the item, and no expression that it evaluates, is of an unwanted kind. -/
def Avoids (badExpr : Expr → Bool) (badStmt : Stmt → Bool) : Item → Prop
  | .struct _ => True
  | .globals ds => ∀ d ∈ ds, ∀ e ∈ d.init.toList, e.Avoids badExpr
  | .function f => ∀ s ∈ f.body, s.Avoids badExpr badStmt

end Item

namespace Program

/-- No statement of the program, and no expression that it evaluates, is of an unwanted kind. -/
def Avoids (badExpr : Expr → Bool) (badStmt : Stmt → Bool) (p : Program) : Prop :=
  ∀ i ∈ p.items, i.Avoids badExpr badStmt

end Program

namespace Walker

variable {σ : Type}

/-- The walker leaves no node of the kinds `outExpr` and `outStmt` where it meets none of the kinds
`inExpr` and `inStmt`, as long as its state satisfies `I`. -/
structure Clears (w : Walker σ) (I : σ → Prop) (inExpr outExpr : Expr → Bool)
    (inStmt outStmt : Stmt → Bool) : Prop where
  expr : ∀ env e a, I a → inExpr e = false → (∀ c ∈ e.children, c.Avoids outExpr) →
    (w.expr env e a).1.Avoids outExpr ∧ I (w.expr env e a).2
  stmt : ∀ env s a, I a → inStmt s = false → (∀ e ∈ s.operands, e.Avoids outExpr) →
    (∀ c ∈ s.children, c.Avoids outExpr outStmt) →
    (∀ t ∈ (w.stmt env s a).1, t.Avoids outExpr outStmt) ∧ I (w.stmt env s a).2
  global : ∀ env d a, I a → (∀ e ∈ d.init.toList, e.Avoids outExpr) →
    (∀ e ∈ (w.global env d a).1.init.toList, e.Avoids outExpr) ∧ I (w.global env d a).2
  enter : ∀ env f a, I a → (∀ s ∈ f.body, s.Avoids inExpr inStmt) →
    (∀ s ∈ (w.enter env f a).1.body, s.Avoids inExpr inStmt) ∧ I (w.enter env f a).2
  leave : ∀ env f a, I a → (w.leave env f a).1.body = f.body ∧ I (w.leave env f a).2
  /-- Whether an expression is of a kind does not depend on its operands. -/
  exprKind : ∀ e xs, inExpr (e.withChildren xs) = inExpr e
  /-- Whether a statement is of a kind does not depend on its parts. -/
  stmtKind : ∀ E R env s a s' before b, NodeTo (σ := σ) E R env s a s' before b →
    inStmt s' = inStmt s
  /-- Blocks are wanted. -/
  block : ∀ ss, outStmt (.block ss) = false

namespace Clears

variable {w : Walker σ} {I : σ → Prop} {inExpr outExpr : Expr → Bool} {inStmt outStmt : Stmt → Bool}
  {a : σ}

theorem conveys (h : w.Clears I inExpr outExpr inStmt outStmt) :
    w.Conveys I (fun _ => True) (Expr.Avoids inExpr) (Expr.Avoids inExpr)
      (fun _ e' => e'.Avoids outExpr) (Stmt.Avoids inExpr inStmt) (Expr.Avoids outExpr)
      (Stmt.Avoids outExpr outStmt) where
  expr := fun env e es a he ha hes => by
    have hch : ∀ c ∈ (e.withChildren es).children, c.Avoids outExpr := fun c hc => by
      rw [Expr.children_withChildren (hes trivial).length_eq.symm] at hc
      obtain ⟨_, -, hc⟩ := exists_of_forall₂_right (hes trivial) hc
      exact hc
    obtain ⟨hout, hb⟩ := h.expr env _ a ha
      ((h.exprKind e es).trans (Expr.avoids_iff.mp he).1) hch
    exact ⟨hb, fun _ => ⟨trivial, hout⟩⟩
  stmt := fun E R env s a s' first b hn hs hb hparts => by
    obtain ⟨hout, hc⟩ := h.stmt env s' b hb
      ((h.stmtKind _ _ _ _ _ _ _ _ hn).trans (Stmt.avoids_iff.mp hs).1) (hparts trivial).1
      (hparts trivial).2
    exact ⟨hc, fun _ => ⟨trivial, hout⟩⟩
  global := fun env d a ha hd => by
    obtain ⟨hout, hb⟩ := h.global env d a ha (hd trivial)
    exact ⟨hb, fun _ => ⟨trivial, hout⟩⟩
  enter := fun env f a ha hf =>
    ⟨(h.enter env f a ha hf).2, fun _ => trivial, (h.enter env f a ha hf).1⟩
  leave := fun env f a ha =>
    ⟨(h.leave env f a ha).2, fun _ => trivial, fun hs => (h.leave env f a ha).1 ▸ hs⟩
  parts := fun _ hs => (Stmt.avoids_iff.mp hs).2
  part_of_whole := fun _ => id
  part_of_child := fun _ c he => (Expr.avoids_iff.mp he).2 c
  holds := fun _ _ _ => id
  block := fun ss => by
    rw [Stmt.avoids_iff]
    exact ⟨fun hs => hs.2.2, fun hs => ⟨h.block ss, forall_mem_nil _, hs⟩⟩

theorem holds_iff {badExpr : Expr → Bool} {badStmt : Stmt → Bool} {i : Item} :
    Holds (Expr.Avoids badExpr) (Stmt.Avoids badExpr badStmt) i ↔ i.Avoids badExpr badStmt := by
  cases i <;> exact Iff.rfl

/-- **A walker that leaves no unwanted node leaves none in the program.** -/
theorem avoids_walk (h : w.Clears I inExpr outExpr inStmt outStmt) (env : Env) {p : Program}
    (ha : I a) (hp : p.Avoids inExpr inStmt) :
    (w.walk env p a).1.Avoids outExpr outStmt ∧ I (w.walk env p a).2 := by
  obtain ⟨hb, hout⟩ := h.conveys.walk env ha fun i hi => holds_iff.mpr (hp i hi)
  exact ⟨fun j hj => holds_iff.mp ((hout trivial).2 j hj), hb⟩

end Clears

/-! ## Case labels -/

/-- The walker keeps the case labels that hold a node of the given kind, as long as its state
satisfies `I`. -/
structure KeepsLabels (w : Walker σ) (I : σ → Prop) (kind : Expr → Bool) : Prop where
  expr : ∀ env e a, I a → I (w.expr env e a).2
  stmt : ∀ env s a, I a →
    (w.stmt env s a).1.any (Stmt.hasLabel kind) = s.hasLabel kind ∧ I (w.stmt env s a).2
  global : ∀ env d a, I a → I (w.global env d a).2
  enter : ∀ env f a, I a →
    (w.enter env f a).1.body.any (Stmt.hasLabel kind) = f.body.any (Stmt.hasLabel kind) ∧
      I (w.enter env f a).2
  leave : ∀ env f a, I a → (w.leave env f a).1.body = f.body ∧ I (w.leave env f a).2

end Walker

namespace Stmt

variable (kind : Expr → Bool)

@[simp] theorem hasLabel_block (ss : List Stmt) :
    (Stmt.block ss).hasLabel kind = ss.any (hasLabel kind) := by
  rw [hasLabel_eq]; rfl

end Stmt

namespace Item

/-- Some case label of the item holds a node of the given kind. -/
def hasLabel (kind : Expr → Bool) : Item → Bool
  | .function f => f.body.any (Stmt.hasLabel kind)
  | _ => false

end Item

namespace Program

/-- Some case label of the program holds a node of the given kind. -/
def hasLabel (kind : Expr → Bool) (p : Program) : Bool :=
  p.items.any (Item.hasLabel kind)

end Program

namespace Walker

variable {σ : Type} {I : σ → Prop} {kind : Expr → Bool}

theorem any_eq_of_forall_iff {m : Stmt → Bool} {ts : List Stmt}
    (h : (∀ s ∈ ss, m s = false) ↔ ∀ t ∈ ts, m t = false) : ss.any m = ts.any m := by
  grind

theorem any_of_forall₂ {m : α → Bool} {m' : β → Bool}
    (h : List.Forall₂ (fun x y => m' y = m x) xs ys) : ys.any m' = xs.any m := by
  induction h with
  | nil => rfl
  | cons hy _ ih => rw [any_cons, any_cons, hy, ih]

namespace KeepsLabels

variable {w : Walker σ} {env : Env} {a b : σ}

/-- A step that keeps whether something has a label. -/
abbrev Step {α β : Type} (I : σ → Prop) (m : α → Bool) (m' : β → Bool) : α → σ → β → σ → Prop :=
  Threads I (fun _ => True) (fun _ => True) fun x y => m' y = m x

/-- The state goes on to satisfy `I`. -/
abbrev OnExpr (I : σ → Prop) (_ : Env) : Expr → σ → Expr → σ → Prop :=
  Step I (fun _ => true) fun _ => true

/-- The labels of a statement are those of the statements that it becomes. -/
abbrev OnStmt (I : σ → Prop) (kind : Expr → Bool) (_ : Env) : Stmt → σ → List Stmt → σ → Prop :=
  Step I (Stmt.hasLabel kind) (List.any · (Stmt.hasLabel kind))

theorem Step.any {T : α → σ → β → σ → Prop} {m : α → Bool} {m' : β → Bool}
    (hT : ∀ {x a y b}, T x a y b → Step I m m' x a y b) (h : Steps T xs a ys b) (ha : I a) :
    ys.any m' = xs.any m ∧ I b := by
  obtain ⟨hb, hm⟩ := h.threads hT (fun _ _ => trivial) ha
  exact ⟨any_of_forall₂ (hm trivial).2, hb⟩

theorem onStmts {outs : List (List Stmt)} (h : Steps (Somewhere (OnStmt I kind)) ss a outs b)
    (ha : I a) : outs.flatten.any (Stmt.hasLabel kind) = ss.any (Stmt.hasLabel kind) ∧ I b := by
  rw [any_flatten]
  exact Step.any Somewhere.anywhere h ha

theorem ofBlocks_hasLabel : OfBlocks fun s => s.hasLabel kind = false := by
  grind [Stmt.hasLabel_block]

theorem establishes (h : w.KeepsLabels I kind) : w.Establishes (OnExpr I) (OnStmt I kind) where
  expr := by
    intro env e a es b hes _ ha
    obtain ⟨-, hb⟩ := Step.any Somewhere.anywhere hes.steps ha
    exact ⟨h.expr env _ b hb, fun _ => ⟨trivial, rfl⟩⟩
  stmt := by
    intro env s a s' before c hn _ ha
    obtain ⟨outs, b, hchildren, hoperands, hjoin⟩ := hn.parts
    obtain ⟨houts, hb⟩ := onStmts hchildren ha
    obtain ⟨-, hc⟩ := Step.any Somewhere.anywhere hoperands hb
    obtain ⟨hout, hd⟩ := h.stmt env s' c hc
    refine ⟨hd, fun _ => ⟨trivial, ?_⟩⟩
    have hparts := any_eq_of_forall_iff (hjoin (fun s => s.hasLabel kind = false) ofBlocks_hasLabel)
    rw [houts, any_append] at hparts
    dsimp only
    rw [any_eq_of_forall_iff (ofBlocks_hasLabel.finish before _), any_append, hout,
      Stmt.hasLabel_eq, hn.labelValues_eq, Stmt.hasLabel_eq kind s, ← hparts]
    exact Bool.or_left_comm ..

theorem onItem (h : w.KeepsLabels I kind) {i j : Item}
    (hi : ItemTo w (OnExpr I) (OnStmt I kind) env i a j b) :
    Step I (Item.hasLabel kind) (Item.hasLabel kind) i a j b := by
  intro _ ha
  cases hi with
  | struct => exact ⟨ha, fun _ => ⟨trivial, rfl⟩⟩
  | globals hds =>
    refine ⟨hds.steps.keeps (fun {d c d' c'} hd hc => ?_) ha, fun _ => ⟨trivial, rfl⟩⟩
    obtain ⟨init, b, hinit, hglobal⟩ := hd
    obtain ⟨-, hb⟩ := Step.any Somewhere.anywhere hinit.steps hc
    have hc' := h.global env { d with init := init } b hb
    rw [hglobal] at hc'
    exact hc'
  | @function f g inner body _ b c _ henter hbody =>
    obtain ⟨h1, hb⟩ := h.enter inner f a ha
    rw [henter] at h1 hb
    obtain ⟨outs, hsteps, rfl⟩ := hbody.steps
    obtain ⟨h2, hc⟩ := onStmts hsteps hb
    obtain ⟨h3, hd⟩ := h.leave inner { g with body := outs.flatten } c hc
    grind [Item.hasLabel]

/-- **A walker that keeps the labels of each statement keeps those of the program.** -/
theorem hasLabel_walk (h : w.KeepsLabels I kind) (env : Env) (p : Program) (ha : I a) :
    (w.walk env p a).1.hasLabel kind = p.hasLabel kind ∧ I (w.walk env p a).2 :=
  Step.any h.onItem (h.establishes.onItems env p.items a).steps ha

end KeepsLabels

end Walker

end ShaderEffect
