import ShaderEffect.Lowering.Pipeline
import ShaderEffect.Proofs.Lowering.Avoid

/-!
# Trees that the passes have been through

`Plain` expressions hold no conditional expression, and `Lowered` statements neither one outside
their case labels nor a `do` loop. A walker whose nodes stay plain and lowered keeps a program so
(`clears_lowered`).

Most steps of a pass leave the assignments alone that were set aside for the entry point: `Yields`
says so, together with a property of the outcome, and is closed under sequencing.
-/

namespace ShaderEffect.Lowering

open Walker List Stmt

/-! ## Trees without conditional expressions and `do` loops -/

/-- No conditional expression stands in the expression. -/
abbrev Plain (e : Expr) : Prop :=
  e.Avoids isConditional

/-- No `do` loop stands in the statement, and no conditional expression outside its case labels. -/
abbrev Lowered (s : Stmt) : Prop :=
  s.Avoids isConditional isDoWhile

section Plain

variable {e x y z : Expr} {xs : List Expr}

attribute [local simp] isConditional Expr.children

@[simp] theorem plain_ident (name : String) : Plain (.ident name) :=
  Expr.avoids_iff.mpr ⟨rfl, forall_mem_nil _⟩

@[simp] theorem plain_unary {op : UnaryOp} : Plain (.unary op x) ↔ Plain x := by
  simp [Expr.avoids_iff (e := .unary op x)]

@[simp] theorem plain_binary {op : BinOp} : Plain (.binary op x y) ↔ Plain x ∧ Plain y := by
  simp [Expr.avoids_iff (e := .binary op x y)]

@[simp] theorem plain_assign {op : Option BinOp} :
    Plain (.assign op x y) ↔ Plain x ∧ Plain y := by
  simp [Expr.avoids_iff (e := .assign op x y)]

@[simp] theorem plain_call {name : String} : Plain (.call name xs) ↔ ∀ x ∈ xs, Plain x := by
  simp [Expr.avoids_iff (e := .call name xs)]

@[simp] theorem plain_construct {type : ShaderType} :
    Plain (.construct type xs) ↔ ∀ x ∈ xs, Plain x := by
  simp [Expr.avoids_iff (e := .construct type xs)]

@[simp] theorem plain_field {name : String} : Plain (.field x name) ↔ Plain x := by
  simp [Expr.avoids_iff (e := .field x name)]

@[simp] theorem plain_comma : Plain (.comma xs) ↔ ∀ x ∈ xs, Plain x := by
  simp [Expr.avoids_iff (e := .comma xs)]

@[simp] theorem plain_deref : Plain (.deref x) ↔ Plain x := by
  simp [Expr.avoids_iff (e := .deref x)]

@[simp] theorem plain_addrOf : Plain (.addrOf x) ↔ Plain x := by
  simp [Expr.avoids_iff (e := .addrOf x)]

theorem plain_of_children (he : isConditional e = false) (h : ∀ c ∈ e.children, Plain c) : Plain e :=
  Expr.avoids_iff.mpr ⟨he, h⟩

theorem isConditional_withChildren (e : Expr) (xs : List Expr) :
    isConditional (e.withChildren xs) = isConditional e := by
  unfold Expr.withChildren
  split <;> rfl

end Plain

section Lowered

variable {c : Expr} {s t : Stmt} {ss body continuing : List Stmt} {f : Option Stmt} {o step : Option Expr}
  {cs : List Case}

attribute [local simp] isDoWhile operands exprs children

theorem mem_operands_decl {ds : List VarDecl} {e : Expr} :
    e ∈ (Stmt.decl ds).operands ↔ ∃ d ∈ ds, e ∈ d.init.toList := by
  simp

@[simp] theorem lowered_decl {ds : List VarDecl} :
    Lowered (.decl ds) ↔ ∀ d ∈ ds, ∀ e ∈ d.init.toList, Plain e := by
  grind [avoids_iff, mem_operands_decl, isDoWhile, children]

@[simp] theorem lowered_expr : Lowered (.expr c) ↔ Plain c := by
  rw [Lowered, avoids_iff]
  simp

@[simp] theorem lowered_ret : Lowered (.ret o) ↔ ∀ e ∈ o.toList, Plain e := by
  rw [Lowered, avoids_iff]
  simp

theorem lowered_of_parts (hs : isDoWhile s = false) (hop : ∀ e ∈ s.operands, Plain e)
    (hch : ∀ c ∈ s.children, Lowered c) : Lowered s :=
  avoids_iff.mpr ⟨hs, hop, hch⟩

end Lowered

/-- A statement without statements inside and without labels: a declaration or an expression. -/
def IsStep (s : Stmt) : Prop :=
  (∃ ds, s = .decl ds) ∨ ∃ e, s = .expr e

theorem IsStep.hasLabel {s : Stmt} (h : IsStep s) (kind : Expr → Bool) : s.hasLabel kind = false := by
  rcases h with ⟨ds, rfl⟩ | ⟨e, rfl⟩ <;> rfl

theorem any_hasLabel_steps {ss : List Stmt} (h : ∀ s ∈ ss, IsStep s) (kind : Expr → Bool) :
    ss.any (Stmt.hasLabel kind) = false :=
  any_eq_false.mpr fun s hs => by rw [(h s hs).hasLabel]; exact Bool.false_ne_true

/-! ## Walkers that keep a program lowered -/

theorem isDoWhile_of_nodeTo {σ : Type} {E : Env → Expr → σ → Expr → σ → Prop}
    {R : Env → Stmt → σ → List Stmt → σ → Prop} {env : Env} {s s' : Stmt} {before : List Stmt}
    {a b : σ} (h : NodeTo E R env s a s' before b) : isDoWhile s' = isDoWhile s := by
  cases h <;> rfl

/-- A walker that leaves no conditional expression where it meets none, and no `do` loop where it
meets none, clears both from a program that has neither. -/
theorem clears_lowered {σ : Type} {w : Walker σ} {I : σ → Prop}
    (expr : ∀ env e a, I a → Plain e → Plain (w.expr env e a).1 ∧ I (w.expr env e a).2)
    (stmt : ∀ env s a, I a → Lowered s →
      (∀ t ∈ (w.stmt env s a).1, Lowered t) ∧ I (w.stmt env s a).2)
    (global : ∀ env d a, I a → (∀ e ∈ d.init.toList, Plain e) →
      (∀ e ∈ (w.global env d a).1.init.toList, Plain e) ∧ I (w.global env d a).2)
    (enter : ∀ env f a, I a → (∀ s ∈ f.body, Lowered s) →
      (∀ s ∈ (w.enter env f a).1.body, Lowered s) ∧ I (w.enter env f a).2)
    (leave : ∀ env f a, I a → (w.leave env f a).1.body = f.body ∧ I (w.leave env f a).2) :
    w.Clears I isConditional isConditional isDoWhile isDoWhile where
  expr := fun env e a ha he hch => expr env e a ha (plain_of_children he hch)
  stmt := fun env s a ha hs hop hch => stmt env s a ha (lowered_of_parts hs hop hch)
  global := global
  enter := enter
  leave := leave
  exprKind := isConditional_withChildren
  stmtKind := fun _ _ _ _ _ _ _ _ => isDoWhile_of_nodeTo
  block := fun _ => rfl

/-! ## Steps that defer nothing -/

/-- What most steps keep: nothing is deferred, and no temporary is forgotten. -/
structure State.Since (b a : State) : Prop where
  deferred : b.deferred = a.deferred
  temps : a.temps <+: b.temps

namespace State.Since

variable {a b c : State}

theorem of_eq (hdeferred : b.deferred = a.deferred) (htemps : b.temps = a.temps) : b.Since a :=
  ⟨hdeferred, htemps ▸ prefix_rfl⟩

theorem refl (a : State) : a.Since a :=
  .of_eq rfl rfl

theorem trans (h : c.Since b) (h' : b.Since a) : c.Since a :=
  ⟨h.deferred.trans h'.deferred, h'.temps.trans h.temps⟩

theorem temp (kind : TempKind) (a : State) : (temp kind a).2.Since a :=
  ⟨rfl, prefix_append _ _⟩

end State.Since

/-- Every outcome of the step has the property, nothing is deferred and no temporary forgotten. -/
def Yields {α : Type} (m : LowerM α) (P : α → Prop) : Prop :=
  ∀ s, P (m s).1 ∧ (m s).2.Since s

namespace Yields

variable {α β : Type} {P : α → Prop} {Q : β → Prop}
variable {m : LowerM α}

theorem pure {x : α} (h : P x) : Yields (Pure.pure x) P :=
  fun s => ⟨h, .refl s⟩

theorem bind {f : α → LowerM β} (hm : Yields m P) (hf : ∀ x, P x → Yields (f x) Q) :
    Yields (m >>= f) Q := fun s => by
  obtain ⟨hx, hs⟩ := hm s
  obtain ⟨hy, hs'⟩ := hf _ hx (m s).2
  exact ⟨hy, hs'.trans hs⟩

theorem get : Yields get fun _ => True :=
  fun s => ⟨trivial, .refl s⟩

theorem modify {f : State → State} (h : ∀ s, (f s).Since s) :
    Yields (modify f) fun _ => True :=
  fun s => ⟨trivial, h s⟩

theorem note (n : LoweringNotice) : Yields (note n) fun _ => True :=
  modify fun _ => .of_eq rfl rfl

theorem temp (kind : TempKind) : Yields (temp kind) fun _ => True :=
  fun s => ⟨trivial, .temp kind s⟩

theorem reference (name : String) : Yields (reference name) fun _ => True :=
  modify fun s => by split <;> exact .of_eq rfl rfl

theorem after_note {n : LoweringNotice} (h : Yields m P) : Yields (do Lowering.note n; m) P :=
  bind (note n) fun _ _ => h

theorem when_note {c : Prop} [Decidable c] {n : LoweringNotice} (h : Yields m P) :
    Yields (if c then do Lowering.note n; m else m) P := by
  split
  · exact after_note h
  · exact h

end Yields

/-- The deferred assignments are single steps without conditional expressions. -/
def DeferredLowered (s : State) : Prop :=
  ∀ t ∈ s.deferred, IsStep t ∧ Lowered t

theorem DeferredLowered.since {s s' : State} (h : DeferredLowered s) (hs : s'.Since s) :
    DeferredLowered s' :=
  fun t ht => h t (hs.deferred ▸ ht)

theorem keepsLabels_of_expr {f : Env → Expr → LowerM Expr}
    (hf : ∀ env e, Yields (f env e) fun _ => True) (kind : Expr → Bool) :
    ({ expr := f } : Walker State).KeepsLabels DeferredLowered kind where
  expr := fun env e a ha => ha.since (hf env e a).2
  stmt := fun _ _ _ ha => ⟨Bool.or_false _, ha⟩
  global := fun _ _ _ ha => ha
  enter := fun _ _ _ ha => ⟨rfl, ha⟩
  leave := fun _ _ _ ha => ⟨rfl, ha⟩

theorem clears_of_expr {f : Env → Expr → LowerM Expr}
    (hf : ∀ env e, Yields (f env e) fun x => Plain e → Plain x) :
    ({ expr := f } : Walker State).Clears (fun _ => True) isConditional isConditional isDoWhile
      isDoWhile :=
  clears_lowered (fun env e a _ he => ⟨(hf env e a).1 he, trivial⟩)
    (fun _ _ _ _ hs => ⟨forall_mem_singleton.mpr hs, trivial⟩)
    (fun _ _ _ _ hd => ⟨hd, trivial⟩) (fun _ _ _ _ hf => ⟨hf, trivial⟩)
    (fun _ _ _ _ => ⟨rfl, trivial⟩)

end ShaderEffect.Lowering
