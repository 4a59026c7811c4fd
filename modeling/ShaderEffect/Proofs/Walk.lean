import ShaderEffect.Lowering.Walk
import ShaderEffect.Proofs.Tree

/-!
# Induction over walks

A walker visits a tree from the leaves up, so a fact about a whole walk follows from a fact about
each node, given that its parts have been walked. `Establishes.onExpr`, `Establishes.onStmt` and
`Establishes.onItems` are these inductions. The facts are relations between what is walked, the state
before, the outcome and the state after, in a given environment; `ExprsTo`, `StmtsTo` and their kin
lift them to the parts of a node in the order in which the walk visits them, and `NodeTo` says how the
node is put together again from its walked parts. Where the environment does not matter, the parts of
a node are one chain of `Steps` (`NodeTo.parts`).
-/

namespace ShaderEffect.Walker

open List

variable {σ : Type}
variable {α : Type} {es es' : List Expr} {ds' ds : List VarDecl} {env : Env} {b a : σ}

theorem run_pure (x : α) (a : σ) : (pure x : StateM σ α) a = (x, a) := rfl

theorem run_bind {β : Type} (x : StateM σ α) (f : α → StateM σ β) (a : σ) :
    (x >>= f) a = f (x a).1 (x a).2 := rfl

/-! ## Parts of a node -/

section Parts

variable (E : Env → Expr → σ → Expr → σ → Prop) (R : Env → Stmt → σ → List Stmt → σ → Prop)

inductive ExprsTo (env : Env) : List Expr → σ → List Expr → σ → Prop
  | nil (a : σ) : ExprsTo env [] a [] a
  | cons {e e' : Expr} {es es' : List Expr} {a b c : σ} :
      E env e a e' b → ExprsTo env es b es' c → ExprsTo env (e :: es) a (e' :: es') c

/-- The initial values of declared variables, in order. -/
inductive DeclsTo (env : Env) : List VarDecl → σ → List VarDecl → σ → Prop
  | nil (a : σ) : DeclsTo env [] a [] a
  | cons {d : VarDecl} {init : Option Expr} {ds ds' : List VarDecl} {a b c : σ} :
      ExprsTo E env d.init.toList a init.toList b → DeclsTo env ds b ds' c →
      DeclsTo env (d :: ds) a ({ d with init := init } :: ds') c

/-- Statements in order, where each sees what those before it declare. -/
inductive StmtsTo : Env → List Stmt → σ → List Stmt → σ → Prop
  | nil (env : Env) (a : σ) : StmtsTo env [] a [] a
  | cons {env : Env} {s : Stmt} {ss out others : List Stmt} {a b c : σ} :
      R env s a out b → StmtsTo (env.declareStmts out) ss b others c →
      StmtsTo env (s :: ss) a (out ++ others) c

inductive OptTo (env : Env) : Option Stmt → σ → Option (List Stmt) → σ → Prop
  | none (a : σ) : OptTo env none a none a
  | some {s : Stmt} {out : List Stmt} {a b : σ} :
      R env s a out b → OptTo env (some s) a (some out) b

/-- The branches of a `switch`, each with a scope of its own. -/
inductive CasesTo (env : Env) : List Case → σ → List Case → σ → Prop
  | nil (a : σ) : CasesTo env [] a [] a
  | cons {labels : List CaseLabel} {body body' : List Stmt} {cs cs' : List Case} {a b c : σ} :
      StmtsTo R env.push body a body' b → CasesTo env cs b cs' c →
      CasesTo env (.mk labels body :: cs) a (.mk labels body' :: cs') c

/-- A statement put together again from its walked parts, and the statements that have to come
before it. -/
inductive NodeTo (env : Env) : Stmt → σ → Stmt → List Stmt → σ → Prop
  | block {body body' : List Stmt} {a b : σ} :
      StmtsTo R env.push body a body' b → NodeTo env (.block body) a (.block body') [] b
  | ifElse {cond cond' : Expr} {t : Stmt} {f : Option Stmt} {t' : List Stmt}
      {f' : Option (List Stmt)} {a b c d : σ} :
      R env t a t' b → OptTo R env f b f' c → E env cond c cond' d →
      NodeTo env (.ifElse cond t f) a (.ifElse cond' (.ofList t') (f'.map .ofList)) [] d
  | forLoop {start : Option Stmt} {first : Option (List Stmt)} {cond cond' step step' : Option Expr}
      {body : Stmt} {body' : List Stmt} {a b c d e : σ} :
      OptTo R env.push start a first b →
      R (env.push.declareStmts (first.getD [])) body b body' c →
      ExprsTo E (env.push.declareStmts (first.getD [])) cond.toList c cond'.toList d →
      ExprsTo E (env.push.declareStmts (first.getD [])) step.toList d step'.toList e →
      NodeTo env (.forLoop start cond step body) a
        (.forLoop (first.getD []).getLast? cond' step' (.ofList body')) (first.getD []).dropLast e
  | whileLoop {cond cond' : Expr} {body : Stmt} {body' : List Stmt} {a b c : σ} :
      R env body a body' b → E env cond b cond' c →
      NodeTo env (.whileLoop cond body) a (.whileLoop cond' (.ofList body')) [] c
  | doWhile {cond cond' : Expr} {body : Stmt} {body' : List Stmt} {a b c : σ} :
      R env body a body' b → E env cond b cond' c →
      NodeTo env (.doWhile body cond) a (.doWhile (.ofList body') cond') [] c
  | loop {body body' continuing continuing' : List Stmt} {breakIf breakIf' : Option Expr}
      {a b c d : σ} :
      StmtsTo R env.push body a body' b →
      StmtsTo R (env.push.declareStmts body') continuing b continuing' c →
      ExprsTo E ((env.push.declareStmts body').declareStmts continuing') breakIf.toList c
        breakIf'.toList d →
      NodeTo env (.loop body continuing breakIf) a (.loop body' continuing' breakIf') [] d
  | switch {selector selector' : Expr} {cases cases' : List Case} {a b c : σ} :
      CasesTo R env cases a cases' b → E env selector b selector' c →
      NodeTo env (.switch selector cases) a (.switch selector' cases') [] c
  | decl {ds ds' : List VarDecl} {a b : σ} :
      DeclsTo E env ds a ds' b → NodeTo env (.decl ds) a (.decl ds') [] b
  | expr {e e' : Expr} {a b : σ} : E env e a e' b → NodeTo env (.expr e) a (.expr e') [] b
  | ret {value value' : Option Expr} {a b : σ} :
      ExprsTo E env value.toList a value'.toList b →
      NodeTo env (.ret value) a (.ret value') [] b
  | breakOut (a : σ) : NodeTo env .breakOut a .breakOut [] a
  | continueOn (a : σ) : NodeTo env .continueOn a .continueOn [] a
  | discard (a : σ) : NodeTo env .discard a .discard [] a
  | empty (a : σ) : NodeTo env .empty a .empty [] a

end Parts

/-- What the walk leaves of a statement: what the walker makes of it, in a block with the statements
that have to come before. -/
def finish (before out : List Stmt) : List Stmt :=
  if before.isEmpty then out else [.block (before ++ out)]

/-- What the walker does at a node is related as `E` and `R` say, once the parts of the node are. -/
structure Establishes (w : Walker σ) (E : Env → Expr → σ → Expr → σ → Prop)
    (R : Env → Stmt → σ → List Stmt → σ → Prop) : Prop where
  expr : ∀ env e a es b, ExprsTo E env e.children a es b →
    E env e a (w.expr env (e.withChildren es) b).1 (w.expr env (e.withChildren es) b).2
  stmt : ∀ env s a s' before b, NodeTo E R env s a s' before b →
    R env s a (finish before (w.stmt env s' b).1) (w.stmt env s' b).2

/-! ## Expressions -/

variable {w : Walker σ} {E : Env → Expr → σ → Expr → σ → Prop}
  {R : Env → Stmt → σ → List Stmt → σ → Prop}

theorem walkExpr_eq (w : Walker σ) (env : Env) (e : Expr) (a : σ) :
    w.walkExpr env e a =
      w.expr env (e.withChildren (w.walkExprs env e.children a).1)
        (w.walkExprs env e.children a).2 := by
  cases e <;> simp only [walkExpr, walkExprs, Expr.children] <;> rfl

theorem walkExprs_cons (w : Walker σ) (env : Env) (e : Expr) (es : List Expr) (a : σ) :
    w.walkExprs env (e :: es) a =
      ((w.walkExpr env e a).1 :: (w.walkExprs env es (w.walkExpr env e a).2).1,
        (w.walkExprs env es (w.walkExpr env e a).2).2) := by
  rw [walkExprs]; rfl

theorem walkExprs_to : ∀ {es : List Expr},
    (∀ e ∈ es, ∀ a, E env e a (w.walkExpr env e a).1 (w.walkExpr env e a).2) →
      ∀ a, ExprsTo E env es a (w.walkExprs env es a).1 (w.walkExprs env es a).2
  | [], _, a => by rw [walkExprs]; exact .nil a
  | e :: es, h, a => by
    rw [walkExprs_cons]
    exact .cons (h e mem_cons_self a)
      (walkExprs_to (fun e he => h e (mem_cons_of_mem _ he)) _)

/-- **Induction over the walk of an expression**: what holds of each node when it holds of its
operands holds of the whole expression. -/
theorem Establishes.onExpr (h : w.Establishes E R) (env : Env) (e : Expr) :
    ∀ a, E env e a (w.walkExpr env e a).1 (w.walkExpr env e a).2 := by
  induction e using Expr.byChildren with
  | node e ih =>
    intro a
    rw [walkExpr_eq]
    exact h.expr env e a _ _ (walkExprs_to ih a)

theorem ExprsTo.length_eq (h : ExprsTo E env es a es' b) : es'.length = es.length := by
  induction h with
  | nil => rfl
  | cons _ _ ih => rw [length_cons, length_cons, ih]

theorem ExprsTo.append {fs fs' : List Expr} {c : σ} (h : ExprsTo E env es a es' b)
    (h' : ExprsTo E env fs b fs' c) : ExprsTo E env (es ++ fs) a (es' ++ fs') c := by
  induction h with
  | nil => exact h'
  | cons he _ ih => exact .cons he (ih h')

theorem DeclsTo.exprsTo (h : DeclsTo E env ds a ds' b) :
    ExprsTo E env (ds.filterMap VarDecl.init) a (ds'.filterMap VarDecl.init) b := by
  induction h with
  | nil => exact .nil _
  | @cons d init _ _ _ _ _ hd _ ih =>
    have hcons : ∀ (d : VarDecl) (ds : List VarDecl),
        (d :: ds).filterMap VarDecl.init = d.init.toList ++ ds.filterMap VarDecl.init := fun d ds => by
      cases h : d.init <;> simp [h]
    rw [hcons, hcons]
    exact hd.append ih

theorem DeclsTo.map_name (h : DeclsTo E env ds a ds' b) :
    ds'.map VarDecl.name = ds.map VarDecl.name := by
  induction h with
  | nil => rfl
  | cons _ _ ih => exact congrArg (_ :: ·) ih

section

variable (hE : ∀ e a, E env e a (w.walkExpr env e a).1 (w.walkExpr env e a).2)
include hE

theorem walkOptExpr_to (o : Option Expr) (a : σ) :
    ExprsTo E env o.toList a (w.walkOptExpr env o a).1.toList (w.walkOptExpr env o a).2 := by
  cases o with
  | none => exact .nil a
  | some e => exact .cons (hE e a) (.nil _)

theorem walkDecls_to :
    ∀ (ds : List VarDecl) (a : σ),
      DeclsTo E env ds a (w.walkDecls env ds a).1 (w.walkDecls env ds a).2
  | [], a => .nil a
  | d :: ds, a => .cons (walkOptExpr_to hE d.init a) (walkDecls_to ds _)

end

/-! ## Statements -/

theorem walkStmts_cons (w : Walker σ) (env : Env) (s : Stmt) (ss : List Stmt) (a : σ) :
    w.walkStmts env (s :: ss) a =
      ((w.walkStmt env s a).1 ++
          (w.walkStmts (env.declareStmts (w.walkStmt env s a).1) ss (w.walkStmt env s a).2).1,
        (w.walkStmts (env.declareStmts (w.walkStmt env s a).1) ss (w.walkStmt env s a).2).2) := by
  rw [walkStmts]; rfl

theorem walkStmt_forLoop (w : Walker σ) (env : Env) (start : Option Stmt) (cond step : Option Expr)
    (body : Stmt) (a : σ) :
    w.walkStmt env (.forLoop start cond step body) a =
      let first := w.walkOpt env.push start a
      let inner := env.push.declareStmts (first.1.getD [])
      let body := w.walkStmt inner body first.2
      let cond := w.walkOptExpr inner cond body.2
      let step := w.walkOptExpr inner step cond.2
      let out := w.stmt env (.forLoop (first.1.getD []).getLast? cond.1 step.1 (.ofList body.1)) step.2
      (finish (first.1.getD []).dropLast out.1, out.2) := by
  rw [walkStmt]
  simp only [run_bind, finish]
  split <;> rfl

namespace Establishes

variable (h : w.Establishes E R)
include h

mutual

/-- **Induction over the walk of a statement**: what holds of each statement when it holds of its
parts holds of the whole statement. -/
theorem onStmt :
    ∀ (s : Stmt) (env : Env) (a : σ), R env s a (w.walkStmt env s a).1 (w.walkStmt env s a).2
  | .block body, env, a => by
    rw [walkStmt]
    exact h.stmt env _ a _ [] _ (.block (onStmts body env.push a))
  | .ifElse cond t f, env, a => by
    rw [walkStmt]
    exact h.stmt env _ a _ [] _ (.ifElse (onStmt t env a) (onOpt f env _) (h.onExpr env cond _))
  | .forLoop start cond step body, env, a => by
    rw [walkStmt_forLoop]
    exact h.stmt env _ a _ _ _ (.forLoop (onOpt start env.push a) (onStmt body _ _)
      (walkOptExpr_to (h.onExpr _) cond _) (walkOptExpr_to (h.onExpr _) step _))
  | .whileLoop cond body, env, a => by
    rw [walkStmt]
    exact h.stmt env _ a _ [] _ (.whileLoop (onStmt body env a) (h.onExpr env cond _))
  | .doWhile body cond, env, a => by
    rw [walkStmt]
    exact h.stmt env _ a _ [] _ (.doWhile (onStmt body env a) (h.onExpr env cond _))
  | .loop body continuing breakIf, env, a => by
    rw [walkStmt]
    exact h.stmt env _ a _ [] _ (.loop (onStmts body env.push a)
      (onStmts continuing _ _) (walkOptExpr_to (h.onExpr _) breakIf _))
  | .switch selector cases, env, a => by
    rw [walkStmt]
    exact h.stmt env _ a _ [] _ (.switch (onCases cases env a) (h.onExpr env selector _))
  | .decl ds, env, a => by
    rw [walkStmt]
    exact h.stmt env _ a _ [] _ (.decl (walkDecls_to (h.onExpr env) ds a))
  | .expr e, env, a => by
    rw [walkStmt]
    exact h.stmt env _ a _ [] _ (.expr (h.onExpr env e a))
  | .ret value, env, a => by
    rw [walkStmt]
    exact h.stmt env _ a _ [] _ (.ret (walkOptExpr_to (h.onExpr env) value a))
  | .breakOut, env, a => by
    rw [walkStmt]
    exact h.stmt env _ a _ [] _ (.breakOut a)
  | .continueOn, env, a => by
    rw [walkStmt]
    exact h.stmt env _ a _ [] _ (.continueOn a)
  | .discard, env, a => by
    rw [walkStmt]
    exact h.stmt env _ a _ [] _ (.discard a)
  | .empty, env, a => by
    rw [walkStmt]
    exact h.stmt env _ a _ [] _ (.empty a)

theorem onStmts :
    ∀ (ss : List Stmt) (env : Env) (a : σ),
      StmtsTo R env ss a (w.walkStmts env ss a).1 (w.walkStmts env ss a).2
  | [], env, a => by
    rw [walkStmts]
    exact .nil env a
  | s :: ss, env, a => by
    rw [walkStmts_cons]
    exact .cons (onStmt s env a) (onStmts ss _ _)

theorem onOpt :
    ∀ (o : Option Stmt) (env : Env) (a : σ),
      OptTo R env o a (w.walkOpt env o a).1 (w.walkOpt env o a).2
  | none, env, a => by
    rw [walkOpt]
    exact .none a
  | some s, env, a => by
    rw [walkOpt]
    exact .some (onStmt s env a)

theorem onCases :
    ∀ (cs : List Case) (env : Env) (a : σ),
      CasesTo R env cs a (w.walkCases env cs a).1 (w.walkCases env cs a).2
  | [], env, a => by
    rw [walkCases]
    exact .nil a
  | .mk labels body :: cs, env, a => by
    rw [walkCases]
    exact .cons (onStmts body env.push a) (onCases cs env _)

end

end Establishes

/-! ## Walks as chains of steps -/

/-- Things in order, where the state goes on from each to the next. -/
inductive Steps {α β : Type} (T : α → σ → β → σ → Prop) : List α → σ → List β → σ → Prop
  | nil (a : σ) : Steps T [] a [] a
  | cons {x : α} {y : β} {xs : List α} {ys : List β} {a b c : σ} :
      T x a y b → Steps T xs b ys c → Steps T (x :: xs) a (y :: ys) c

def Somewhere {α β : Type} (T : Env → α → σ → β → σ → Prop) (x : α) (a : σ) (y : β) (b : σ) : Prop :=
  ∃ env, T env x a y b

theorem Somewhere.anywhere {β : Type} {T : α → σ → β → σ → Prop} {x : α} {y : β}
    (h : Somewhere (fun _ => T) x a y b) : T x a y b :=
  h.elim fun _ hT => hT

/-- A step from `x` to `y`. It keeps `before`, which may be counted on at its start, and gives `P` if
the state at its end satisfies `after`, which then the state at its start does too. -/
def Threads {α β : Type} (before after : σ → Prop) (dom : α → Prop) (P : α → β → Prop) (x : α) (a : σ)
    (y : β) (b : σ) : Prop :=
  dom x → before a → before b ∧ (after b → after a ∧ P x y)

namespace Steps

variable {α β : Type} {T : α → σ → β → σ → Prop} {xs xs' : List α} {ys ys' : List β} {a b c : σ}

theorem append (h : Steps T xs a ys b) (h' : Steps T xs' b ys' c) :
    Steps T (xs ++ xs') a (ys ++ ys') c := by
  induction h with
  | nil => exact h'
  | cons hx _ ih => exact .cons hx (ih h')

theorem keeps {I : σ → Prop} (hT : ∀ {x a y b}, T x a y b → I a → I b) (h : Steps T xs a ys b)
    (ha : I a) : I b := by
  induction h with
  | nil => exact ha
  | cons hx _ ih => exact ih (hT hx ha)

/-- **What each step does, a chain of steps does.** -/
theorem threads {before A : σ → Prop} {D : α → Prop} {P : α → β → Prop}
    (hT : ∀ {x a y b}, T x a y b → Threads before A D P x a y b) (h : Steps T xs a ys b) :
    Threads before A (fun xs => ∀ x ∈ xs, D x) (List.Forall₂ P) xs a ys b := by
  intro hdom ha
  induction h with
  | nil => exact ⟨ha, fun hafter => ⟨hafter, .nil⟩⟩
  | cons hx _ ih =>
    rw [forall_mem_cons] at hdom
    obtain ⟨hb, hhead⟩ := hT hx hdom.1 ha
    obtain ⟨hc, htail⟩ := ih hdom.2 hb
    refine ⟨hc, fun hafter => ?_⟩
    obtain ⟨hafter, hothers⟩ := htail hafter
    obtain ⟨hafter, hfirst⟩ := hhead hafter
    exact ⟨hafter, .cons hfirst hothers⟩

end Steps

section Chains

variable {env : Env} {a b : σ}
variable {cs cs' : List Case}

theorem ExprsTo.steps (h : ExprsTo E env es a es' b) : Steps (Somewhere E) es a es' b := by
  induction h with
  | nil => exact .nil _
  | cons he _ ih => exact .cons ⟨_, he⟩ ih

theorem StmtsTo.steps {ss out : List Stmt} (h : StmtsTo R env ss a out b) :
    ∃ outs, Steps (Somewhere R) ss a outs b ∧ out = outs.flatten := by
  induction h with
  | nil => exact ⟨[], .nil _, rfl⟩
  | cons hs _ ih =>
    obtain ⟨outs, hsteps, rfl⟩ := ih
    exact ⟨_ :: outs, .cons ⟨_, hs⟩ hsteps, rfl⟩

theorem OptTo.steps {o : Option Stmt} {out : Option (List Stmt)} (h : OptTo R env o a out b) :
    Steps (Somewhere R) o.toList a out.toList b := by
  cases h with
  | none => exact .nil _
  | some hs => exact .cons ⟨_, hs⟩ (.nil _)

theorem CasesTo.steps (h : CasesTo R env cs a cs' b) :
    ∃ outs, Steps (Somewhere R) (cs.flatMap Case.body) a outs b ∧
      cs'.flatMap Case.body = outs.flatten := by
  induction h with
  | nil => exact ⟨[], .nil _, rfl⟩
  | cons hbody _ ih =>
    obtain ⟨outs, hsteps, rfl⟩ := hbody.steps
    obtain ⟨others, hothers, heq⟩ := ih
    refine ⟨outs ++ others, hsteps.append hothers, ?_⟩
    rw [flatMap_cons, heq, flatten_append]
    rfl

theorem CasesTo.map_labels (h : CasesTo R env cs a cs' b) :
    cs'.map Case.labels = cs.map Case.labels := by
  induction h with
  | nil => rfl
  | cons _ _ ih => exact congrArg (_ :: ·) ih

theorem labelValues_congr (selector selector' : Expr)
    (h : cs'.map Case.labels = cs.map Case.labels) :
    (Stmt.switch selector' cs').labelValues = (Stmt.switch selector cs).labelValues := by
  have key : ∀ cs : List Case, (cs.flatMap fun c => c.labels.filterMap CaseLabel.value?) =
      (cs.map Case.labels).flatMap fun ls => ls.filterMap CaseLabel.value? := by
    intro cs
    rw [flatMap_map]
  show (cs'.flatMap fun c => _) = cs.flatMap fun c => _
  rw [key, key, h]

theorem NodeTo.labelValues_eq {s s' : Stmt} {before : List Stmt}
    (h : NodeTo E R env s a s' before b) : s'.labelValues = s.labelValues := by
  cases h with
  | switch hcases => exact labelValues_congr _ _ hcases.map_labels
  | _ => rfl

/-- A property that a block has exactly if all its statements do. -/
abbrev OfBlocks (Q : Stmt → Prop) : Prop :=
  ∀ ss, Q (.block ss) ↔ ∀ t ∈ ss, Q t

theorem OfBlocks.ofList {Q : Stmt → Prop} (hQ : OfBlocks Q) (ss : List Stmt) :
    Q (.ofList ss) ↔ ∀ t ∈ ss, Q t := by
  unfold Stmt.ofList
  split
  · exact forall_mem_singleton.symm
  · exact hQ _

theorem OfBlocks.finish {Q : Stmt → Prop} (hQ : OfBlocks Q) (before out : List Stmt) :
    (∀ t ∈ finish before out, Q t) ↔ ∀ t ∈ before ++ out, Q t := by
  grind [Walker.finish]

/-- **The parts of a node are walked in one chain**: the statements inside it, and then the
expressions that it evaluates itself. What has become of the statements is what the node holds
afterwards, with what comes before it. -/
theorem NodeTo.parts {s s' : Stmt} {before : List Stmt} (h : NodeTo E R env s a s' before b) :
    ∃ outs c, Steps (Somewhere R) s.children a outs c ∧
      Steps (Somewhere E) s.operands c s'.operands b ∧
      ∀ Q, OfBlocks Q → ((∀ t ∈ before ++ s'.children, Q t) ↔ ∀ t ∈ outs.flatten, Q t) := by
  cases h with
  | block hbody =>
    obtain ⟨outs, hsteps, rfl⟩ := hbody.steps
    exact ⟨outs, _, hsteps, .nil _, fun _ _ => Iff.rfl⟩
  | @ifElse _ _ _ _ t' f' _ _ _ _ ht hf hc =>
    refine ⟨t' :: f'.toList, _, .cons ⟨_, ht⟩ hf.steps, .cons ⟨_, hc⟩ (.nil _), fun Q hQ => ?_⟩
    cases f' <;> simp [Stmt.children, hQ.ofList, or_imp, forall_and]
  | @forLoop _ first _ _ _ _ _ body' _ _ _ _ _ hst hbody hc hstep =>
    refine ⟨first.toList ++ [body'], _, hst.steps.append (.cons ⟨_, hbody⟩ (.nil _)),
      hc.steps.append hstep.steps, fun Q hQ => ?_⟩
    have hfirst : (first.getD []).dropLast ++ (first.getD []).getLast?.toList =
        first.toList.flatten := by
      cases first with
      | none => rfl
      | some out => rcases eq_nil_or_concat out with rfl | ⟨init, last, rfl⟩ <;> simp
    rw [Stmt.children, ← append_assoc, hfirst, flatten_append, forall_mem_append,
      forall_mem_append, forall_mem_singleton, hQ.ofList, flatten_singleton]
  | whileLoop hbody hc | doWhile hbody hc =>
    refine ⟨[_], _, .cons ⟨_, hbody⟩ (.nil _), .cons ⟨_, hc⟩ (.nil _), fun Q hQ => ?_⟩
    rw [flatten_singleton]
    exact forall_mem_singleton.trans (hQ.ofList _)
  | loop hbody hcont hbreak =>
    obtain ⟨outs, hsteps, rfl⟩ := hbody.steps
    obtain ⟨others, hothers, rfl⟩ := hcont.steps
    refine ⟨outs ++ others, _, hsteps.append hothers, hbreak.steps, fun _ _ => ?_⟩
    rw [flatten_append]
    exact Iff.rfl
  | switch hcases hsel =>
    obtain ⟨outs, hsteps, heq⟩ := hcases.steps
    refine ⟨outs, _, hsteps, .cons ⟨_, hsel⟩ (.nil _), fun _ _ => ?_⟩
    rw [← heq]
    exact Iff.rfl
  | decl hds => exact ⟨[], _, .nil _, hds.exprsTo.steps, fun _ _ => Iff.rfl⟩
  | expr he => exact ⟨[], _, .nil _, .cons ⟨_, he⟩ (.nil _), fun _ _ => Iff.rfl⟩
  | ret hvalue => exact ⟨[], _, .nil _, hvalue.steps, fun _ _ => Iff.rfl⟩
  | breakOut | continueOn | discard | empty => exact ⟨[], _, .nil _, .nil _, fun _ _ => Iff.rfl⟩

end Chains

/-! ## Programs -/

section Items

variable (w : Walker σ) (E : Env → Expr → σ → Expr → σ → Prop)
  (R : Env → Stmt → σ → List Stmt → σ → Prop) (env : Env)

inductive GlobalsTo : List VarDecl → σ → List VarDecl → σ → Prop
  | nil (a : σ) : GlobalsTo [] a [] a
  | cons {d : VarDecl} {init : Option Expr} {ds ds' : List VarDecl} {a b c : σ} :
      ExprsTo E env d.init.toList a init.toList b →
      GlobalsTo ds (w.global env { d with init := init } b).2 ds' c →
      GlobalsTo (d :: ds) a ((w.global env { d with init := init } b).1 :: ds') c

inductive ItemTo : Item → σ → Item → σ → Prop
  | struct (d : StructDef) (a : σ) : ItemTo (.struct d) a (.struct d) a
  | globals {ds ds' : List VarDecl} {a b : σ} :
      GlobalsTo w E env ds a ds' b → ItemTo (.globals ds) a (.globals ds') b
  | function {f g : Function} {inner : Env} {body : List Stmt} {a b c : σ} :
      inner = env.push.declareParams f.params → w.enter inner f a = (g, b) →
      StmtsTo R inner.push g.body b body c →
      ItemTo (.function f) a (.function (w.leave inner { g with body := body } c).1)
        (w.leave inner { g with body := body } c).2

inductive ItemsTo : List Item → σ → List Item → σ → Prop
  | nil (a : σ) : ItemsTo [] a [] a
  | cons {i j : Item} {is js : List Item} {a b c : σ} :
      ItemTo w E R env i a j b → ItemsTo is b js c → ItemsTo (i :: is) a (j :: js) c

end Items

/-- A global variable, with its initial value walked first. -/
def GlobalTo (w : Walker σ) (E : Env → Expr → σ → Expr → σ → Prop) (env : Env) (d : VarDecl) (a : σ)
    (d' : VarDecl) (c : σ) : Prop :=
  ∃ init b, ExprsTo E env d.init.toList a init.toList b ∧
    w.global env { d with init := init } b = (d', c)

theorem GlobalsTo.steps (h : GlobalsTo w E env ds a ds' b) :
    Steps (GlobalTo w E env) ds a ds' b := by
  induction h with
  | nil => exact .nil _
  | cons hd _ ih => exact .cons ⟨_, _, hd, rfl⟩ ih

theorem ItemsTo.steps {is js : List Item} (h : ItemsTo w E R env is a js b) :
    Steps (ItemTo w E R env) is a js b := by
  induction h with
  | nil => exact .nil _
  | cons hi _ ih => exact .cons hi ih

namespace Establishes

theorem onGlobals (h : w.Establishes E R) (env : Env) :
    ∀ (ds : List VarDecl) (a : σ),
      GlobalsTo w E env ds a (w.walkGlobals env ds a).1 (w.walkGlobals env ds a).2
  | [], a => .nil a
  | d :: ds, a => .cons (walkOptExpr_to (h.onExpr env) d.init a) (onGlobals h env ds _)

theorem onFunction (h : w.Establishes E R) (env : Env) (f : Function) (a : σ) :
    ItemTo w E R env (.function f) a (.function (w.walkFunction env f a).1)
      (w.walkFunction env f a).2 :=
  .function rfl rfl (h.onStmts _ _ _)

/-- **Induction over the walk of a program.** -/
theorem onItems (h : w.Establishes E R) (env : Env) :
    ∀ (is : List Item) (a : σ),
      ItemsTo w E R env is a (w.walkItems env is a).1 (w.walkItems env is a).2
  | [], a => .nil a
  | .struct d :: is, a => .cons (.struct d a) (onItems h env is a)
  | .globals ds :: is, a => .cons (.globals (h.onGlobals env ds a)) (onItems h env is _)
  | .function f :: is, a => .cons (h.onFunction env f a) (onItems h env is _)

end Establishes

/-! ## What a walk conveys -/

/-- The initial values of an item have the one property, and its statements the other. -/
def Holds (X : Expr → Prop) (Y : Stmt → Prop) : Item → Prop
  | .struct _ => True
  | .globals ds => ∀ d ∈ ds, ∀ e ∈ d.init.toList, X e
  | .function f => ∀ s ∈ f.body, Y s

/-- Of expressions with `whole` and statements with `dom` the walker makes expressions with `X` and
statements with `Y`. A node with `part` goes with what it becomes as `F` says. `before` is what the
walker may count on and has to keep, and `after` what the state at the end tells about all states on
the way. -/
structure Conveys (w : Walker σ) (before after : σ → Prop) (whole part : Expr → Prop)
    (F : Expr → Expr → Prop) (dom : Stmt → Prop) (X : Expr → Prop) (Y : Stmt → Prop) : Prop where
  expr : ∀ env e es a, part e → before a → (after a → List.Forall₂ F e.children es) →
    before (w.expr env (e.withChildren es) a).2 ∧
      (after (w.expr env (e.withChildren es) a).2 →
        after a ∧ F e (w.expr env (e.withChildren es) a).1)
  stmt : ∀ E R env s a s' first b, NodeTo (σ := σ) E R env s a s' first b → dom s → before b →
    (after b → (∀ e ∈ s'.operands, X e) ∧ ∀ c ∈ s'.children, Y c) →
    before (w.stmt env s' b).2 ∧
      (after (w.stmt env s' b).2 → after b ∧ ∀ t ∈ (w.stmt env s' b).1, Y t)
  global : ∀ env d a, before a → (after a → ∀ e ∈ d.init.toList, X e) →
    before (w.global env d a).2 ∧
      (after (w.global env d a).2 → after a ∧ ∀ e ∈ (w.global env d a).1.init.toList, X e)
  enter : ∀ env f a, before a → (∀ s ∈ f.body, dom s) →
    before (w.enter env f a).2 ∧ (after (w.enter env f a).2 → after a) ∧
      ∀ s ∈ (w.enter env f a).1.body, dom s
  leave : ∀ env f a, before a →
    before (w.leave env f a).2 ∧ (after (w.leave env f a).2 → after a) ∧
      ((∀ s ∈ f.body, Y s) → ∀ s ∈ (w.leave env f a).1.body, Y s)
  /-- The parts of a statement may be walked too. -/
  parts : ∀ s, dom s → (∀ e ∈ s.operands, whole e) ∧ ∀ c ∈ s.children, dom c
  /-- An expression as a whole is a part of itself. -/
  part_of_whole : ∀ e, whole e → part e
  /-- The operands of a part are parts. -/
  part_of_child : ∀ e c, part e → c ∈ e.children → part c
  /-- What becomes of an expression as a whole has the property. -/
  holds : ∀ e e', whole e → F e e' → X e'
  block : OfBlocks Y

namespace Conveys

variable {before after : σ → Prop} {whole part : Expr → Prop} {F : Expr → Expr → Prop}
  {dom : Stmt → Prop} {X : Expr → Prop} {Y : Stmt → Prop}

abbrev OnExpr (before after : σ → Prop) (part : Expr → Prop) (F : Expr → Expr → Prop) (_ : Env) :
    Expr → σ → Expr → σ → Prop :=
  Threads before after part F

abbrev OnStmt (before after : σ → Prop) (dom Y : Stmt → Prop) (_ : Env) :
    Stmt → σ → List Stmt → σ → Prop :=
  Threads before after dom fun _ out => ∀ t ∈ out, Y t

theorem onAll {α β : Type} {T : α → σ → β → σ → Prop} {dom : α → Prop} {P : β → Prop} {xs : List α}
    {ys : List β} (hT : ∀ {x a y b}, T x a y b → Threads before after dom (fun _ => P) x a y b)
    (h : Steps T xs a ys b) : Threads before after (fun xs => ∀ x ∈ xs, dom x)
      (fun _ ys => ∀ y ∈ ys, P y) xs a ys b := by
  intro hdom ha
  obtain ⟨hb, h1⟩ := h.threads hT hdom ha
  refine ⟨hb, fun hafter => ⟨(h1 hafter).1, fun y hy => ?_⟩⟩
  obtain ⟨x, -, hP⟩ := exists_of_forall₂_right (h1 hafter).2 hy
  exact hP

theorem onWholes (h : w.Conveys before after whole part F dom X Y)
    (hes : Steps (Somewhere (OnExpr before after part F)) es a es' b) :
    Threads before after (fun es => ∀ e ∈ es, whole e) (fun _ es' => ∀ e ∈ es', X e) es a es' b := by
  refine onAll (fun hx hwhole ha => ?_) hes
  obtain ⟨hb, h1⟩ := hx.anywhere (h.part_of_whole _ hwhole) ha
  exact ⟨hb, fun hafter => ⟨(h1 hafter).1, h.holds _ _ hwhole (h1 hafter).2⟩⟩

theorem onStmts {ss : List Stmt} {outs : List (List Stmt)}
    (hss : Steps (Somewhere (OnStmt before after dom Y)) ss a outs b) (hdom : ∀ s ∈ ss, dom s)
    (ha : before a) : before b ∧ (after b → after a ∧ ∀ t ∈ outs.flatten, Y t) := by
  obtain ⟨hb, h1⟩ := onAll Somewhere.anywhere hss hdom ha
  exact ⟨hb, fun hafter => ⟨(h1 hafter).1, forall_mem_flatten.mpr (h1 hafter).2⟩⟩

variable (h : w.Conveys before after whole part F dom X Y)
include h

theorem establishes :
    w.Establishes (OnExpr before after part F) (OnStmt before after dom Y) where
  expr := by
    intro env e a es b hes he ha
    obtain ⟨hb, h1⟩ := hes.steps.threads Somewhere.anywhere (fun c => h.part_of_child e c he) ha
    obtain ⟨hc, h2⟩ := h.expr env e es b he hb fun hafter => (h1 hafter).2
    exact ⟨hc, fun hafter => ⟨(h1 (h2 hafter).1).1, (h2 hafter).2⟩⟩
  stmt := by
    intro env s a s' first c hs hdom ha
    obtain ⟨hop, hch⟩ := h.parts s hdom
    obtain ⟨outs, b, hchildren, hoperands, hjoin⟩ := hs.parts
    obtain ⟨hb, h1⟩ := onStmts hchildren hch ha
    obtain ⟨hc, h2⟩ := h.onWholes hoperands hop hb
    have hparts : after c → after a ∧ (∀ e ∈ s'.operands, X e) ∧ ∀ t ∈ first ++ s'.children, Y t :=
      fun hafter => ⟨(h1 (h2 hafter).1).1, (h2 hafter).2,
        (hjoin _ h.block).mpr (h1 (h2 hafter).1).2⟩
    obtain ⟨hd, h3⟩ := h.stmt _ _ env s a s' first c hs hdom hc fun hafter =>
      ⟨(hparts hafter).2.1, (forall_mem_append.mp (hparts hafter).2.2).2⟩
    refine ⟨hd, fun hafter => ?_⟩
    obtain ⟨hafter, hout⟩ := h3 hafter
    obtain ⟨hafter, -, hfirst⟩ := hparts hafter
    refine ⟨hafter, (h.block.finish _ _).mpr (forall_mem_append.mpr ⟨?_, hout⟩)⟩
    exact (forall_mem_append.mp hfirst).1

theorem onItem {i j : Item}
    (hi : ItemTo w (OnExpr before after part F) (OnStmt before after dom Y) env i a j b) :
    Threads before after (Holds whole dom) (fun _ => Holds X Y) i a j b := by
  intro hwhole ha
  cases hi with
  | struct => exact ⟨ha, fun hafter => ⟨hafter, trivial⟩⟩
  | globals hds =>
    refine onAll (fun {d a d' b} hd hwhole ha => ?_) hds.steps hwhole ha
    obtain ⟨init, c, hinit, hglobal⟩ := hd
    obtain ⟨hc, h1⟩ := h.onWholes hinit.steps hwhole ha
    obtain ⟨hb, h2⟩ := h.global env { d with init := init } c hc fun hafter => (h1 hafter).2
    grind
  | @function f g inner body _ b c hinner henter hbody =>
    obtain ⟨hb, h1, hdom⟩ := h.enter inner f a ha hwhole
    rw [henter] at hb h1 hdom
    obtain ⟨outs, hsteps, rfl⟩ := hbody.steps
    obtain ⟨hc, h2⟩ := onStmts hsteps hdom hb
    obtain ⟨hd, h3, hkept⟩ := h.leave inner { g with body := outs.flatten } c hc
    exact ⟨hd, fun hafter => ⟨h1 (h2 (h3 hafter)).1, hkept (h2 (h3 hafter)).2⟩⟩

/-- **What a walker conveys at each node, it conveys in a whole walk.** -/
theorem walk (env : Env) {p : Program} (ha : before a) (hp : ∀ i ∈ p.items, Holds whole dom i) :
    before (w.walk env p a).2 ∧ (after (w.walk env p a).2 →
      after a ∧ ∀ j ∈ (w.walk env p a).1.items, Holds X Y j) :=
  onAll h.onItem (h.establishes.onItems env p.items a).steps hp ha

end Conveys

/-- What a walker keeps of each function, whatever becomes of its body. -/
theorem map_functions_walk (h : Function → α) (hbody : ∀ f body, h { f with body := body } = h f)
    (henter : ∀ env f a, h (w.enter env f a).1 = h f)
    (hleave : ∀ env f a, h (w.leave env f a).1 = h f) (env : Env) (p : Program) (a : σ) :
    (w.walk env p a).1.functions.map h = p.functions.map h := by
  have hwalk : w.Establishes (fun _ _ _ _ _ => True) (fun _ _ _ _ _ => True) :=
    ⟨fun _ _ _ _ _ _ => trivial, fun _ _ _ _ _ _ _ => trivial⟩
  have hitems : ∀ {is js a b}, ItemsTo w (fun _ _ _ _ _ => True) (fun _ _ _ _ _ => True) env
      is a js b → (js.filterMap Item.function?).map h = (is.filterMap Item.function?).map h := by
    intro is js a b hto
    induction hto with
    | nil => rfl
    | cons hi _ ih =>
      cases hi with
      | struct | globals => exact ih
      | @function f g inner body _ _ _ _ hg _ =>
        refine congrArg₂ cons ?_ ih
        rw [hleave, hbody, ← henter inner f _, hg]
  exact hitems (hwalk.onItems env p.items a)

end ShaderEffect.Walker
