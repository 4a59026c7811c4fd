import ShaderEffect.Proofs.Rewrite

/-!
# Walks side by side

A walker that does at every node that a walk meets what another does on a part of its state does so
in a whole walk (`Mirrors.walk`). The two may walk in different environments, as long as these stay
related, and it is enough that they do the same at the nodes of the program.

A walker looks at each statement of a program once, when the parts of the statement have been walked.
`Walker.recorded` keeps a list of these visits beside the state of the walker, and `Walker.surveyed`
also keeps what is declared at each of them. **The lists change nothing in what the walk does**
(`walk_recorded`, `walk_surveyed`). **What every step of the walker keeps holds of the state at every
visit** (`Preserves.visits`).
-/

namespace ShaderEffect.Walker

open List Stmt

variable {σ τ : Type}

/-! ## Steps on a part of the state -/

/-- The second step does on a part of the state what the first does. -/
def Reflects {α : Type} (part : τ → σ) (m' : StateM τ α) (m : StateM σ α) : Prop :=
  ∀ a, m (part a) = ((m' a).1, part (m' a).2)

namespace Reflects

variable {α β : Type} {part : τ → σ}

theorem pure (x : α) : Reflects part (pure x) (pure x) :=
  fun _ => rfl

theorem bind {m' : StateM τ α} {m : StateM σ α} {f' : α → StateM τ β} {f : α → StateM σ β}
    (h : Reflects part m' m) (hf : ∀ a, Reflects part (f' (m' a).1) (f (m' a).1)) :
    Reflects part (m' >>= f') (m >>= f) := by
  intro a
  rw [run_bind, run_bind, h a]
  exact hf a _

end Reflects

/-- The nodes of the expressions that a statement holds itself satisfy `X`. -/
def NodesAt (X : Env → Expr → Prop) (result : ShaderType) (q : Env × Stmt) : Prop :=
  ∀ u ∈ q.2.sites result q.1, u.role ≠ .label → u.expr.All (X u.env)

/-- The walker does on a part of the state of the other what that does, at nodes that satisfy `X` and
in environments that are related to the one in which the node stands in the program. -/
structure Mirrors (w' : Walker τ) (w : Walker σ) (part : τ → σ) (ρ : Env → Env → Env → Prop)
    (X : Env → Expr → Prop) : Prop where
  push : ∀ {z x y}, ρ z x y → ρ z.push x.push y.push
  params : ∀ {z x y} (ps : List Param), ρ z x y →
    ρ (z.declareParams ps) (x.declareParams ps) (y.declareParams ps)
  after : ∀ {z x y} (s : Stmt) (a : τ), ρ z x y →
    ρ (z.declareStmt s) (x.declareStmts (w'.walkStmt x s a).1) (y.declareStmts (w'.walkStmt x s a).1)
  expr : ∀ {z x y} (e : Expr) (a : τ), ρ z x y → X z e →
    Reflects part (w'.expr x (e.withChildren (w'.walkExprs x e.children a).1))
      (w.expr y (e.withChildren (w'.walkExprs x e.children a).1))
  stmt : ∀ {z x y} (s : Stmt), ρ z x y → Reflects part (w'.stmt x s) (w.stmt y s)
  global : ∀ {z x y} (d : VarDecl), ρ z x y → Reflects part (w'.global x d) (w.global y d)
  enter : ∀ {z x y} (f : Function), ρ z x y → Reflects part (w'.enter x f) (w.enter y f)
  body : ∀ {z} (x : Env) (f : Function) (a : τ),
    (∀ q ∈ Stmt.placesAll z f.body, NodesAt X f.returns q) →
      ∀ q ∈ Stmt.placesAll z (w'.enter x f a).1.body, NodesAt X f.returns q
  leave : ∀ {z x y} (f : Function), ρ z x y → Reflects part (w'.leave x f) (w.leave y f)

namespace Mirrors

variable {w' : Walker τ} {w : Walker σ} {part : τ → σ} {ρ : Env → Env → Env → Prop}
  {X : Env → Expr → Prop} {z x y : Env} {result : ShaderType}

theorem afterOpt (h : w'.Mirrors w part ρ X) (o : Option Stmt) (a : τ) (hxy : ρ z x y) :
    ρ (z.declareStmts o.toList) (x.declareStmts ((w'.walkOpt x o a).1.getD []))
      (y.declareStmts ((w'.walkOpt x o a).1.getD [])) := by
  cases o with
  | none => rwa [walkOpt]
  | some s =>
    rw [walkOpt]
    exact h.after s a hxy

theorem afterStmts (h : w'.Mirrors w part ρ X) : ∀ (ss : List Stmt) (a : τ) {z x y : Env}, ρ z x y →
    ρ (z.declareStmts ss) (x.declareStmts (w'.walkStmts x ss a).1)
      (y.declareStmts (w'.walkStmts x ss a).1)
  | [], _, _, _, _, hxy => by rwa [walkStmts]
  | s :: ss, a, _, _, _, hxy => by
    rw [walkStmts_cons, Env.declareStmts_append, Env.declareStmts_append]
    exact afterStmts h ss _ (h.after s a hxy)

theorem walkExprs_of : ∀ {es : List Expr},
    (∀ e ∈ es, Reflects part (w'.walkExpr x e) (w.walkExpr y e)) →
      Reflects part (w'.walkExprs x es) (w.walkExprs y es)
  | [], _ => by
    rw [walkExprs, walkExprs]
    exact .pure _
  | e :: es, hes => by
    rw [forall_mem_cons] at hes
    rw [walkExprs, walkExprs]
    exact hes.1.bind fun _ => (walkExprs_of hes.2).bind fun _ => .pure _

variable (h : w'.Mirrors w part ρ X)
include h

theorem walkExpr (hxy : ρ z x y) {e : Expr} (he : e.All (X z)) :
    Reflects part (w'.walkExpr x e) (w.walkExpr y e) := by
  induction e using Expr.byChildren with
  | node e ih =>
    obtain ⟨hnode, hchildren⟩ := Expr.all_iff.mp he
    intro a
    rw [walkExpr_eq, walkExpr_eq, walkExprs_of (fun c hc => ih c hc (hchildren c hc)) a]
    exact h.expr e a hxy hnode _

theorem walkOptExpr (hxy : ρ z x y) {o : Option Expr} (ho : ∀ e ∈ o.toList, e.All (X z)) :
    Reflects part (w'.walkOptExpr x o) (w.walkOptExpr y o) := by
  cases o with
  | none => exact .pure _
  | some e => exact (h.walkExpr hxy (ho e mem_cons_self)).bind fun _ => .pure _

theorem walkDecls (hxy : ρ z x y) : ∀ {ds : List VarDecl},
    (∀ d ∈ ds, ∀ e ∈ d.init.toList, e.All (X z)) →
      Reflects part (w'.walkDecls x ds) (w.walkDecls y ds)
  | [], _ => .pure _
  | d :: ds, hds => by
    rw [forall_mem_cons] at hds
    exact (h.walkOptExpr hxy hds.1).bind fun _ => (walkDecls hxy hds.2).bind fun _ => .pure _

mutual

theorem walkStmt : ∀ (s : Stmt) {z x y : Env}, ρ z x y →
    (∀ q ∈ s.places z, NodesAt X result q) → Reflects part (w'.walkStmt x s) (w.walkStmt y s)
  | .block body, _, _, _, hxy, hs => by
    rw [places, forall_mem_cons] at hs
    rw [Walker.walkStmt, Walker.walkStmt]
    exact (walkStmts body (h.push hxy) hs.2).bind fun _ => h.stmt _ hxy
  | .ifElse cond t f, _, _, _, hxy, hs => by
    rw [places, forall_mem_cons, forall_mem_append] at hs
    rw [Walker.walkStmt, Walker.walkStmt]
    exact (walkStmt t hxy hs.2.1).bind fun _ => (walkOpt f hxy hs.2.2).bind fun _ =>
      (h.walkExpr hxy (hs.1 _ mem_cons_self (by simp))).bind fun _ => h.stmt _ hxy
  | .forLoop start cond step body, _, _, _, hxy, hs => by
    rw [places, forall_mem_cons, forall_mem_append] at hs
    obtain ⟨hown, hstart, hbody⟩ := hs
    unfold NodesAt at hown
    rw [sites, forall_mem_map, forall_mem_append] at hown
    rw [Walker.walkStmt, Walker.walkStmt]
    refine (walkOpt start (h.push hxy) hstart).bind fun a => ?_
    have hinner := h.afterOpt start a (h.push hxy)
    refine (walkStmt body hinner hbody).bind fun _ =>
      (h.walkOptExpr hinner fun e he => hown.1 e he (by simp)).bind fun _ =>
      (h.walkOptExpr hinner fun e he => hown.2 e he (by simp)).bind fun _ =>
      (h.stmt _ hxy).bind fun _ => ?_
    split <;> exact .pure _
  | .whileLoop cond body, _, _, _, hxy, hs | .doWhile body cond, _, _, _, hxy, hs => by
    rw [places, forall_mem_cons] at hs
    rw [Walker.walkStmt, Walker.walkStmt]
    exact (walkStmt body hxy hs.2).bind fun _ =>
      (h.walkExpr hxy (hs.1 _ mem_cons_self (by simp))).bind fun _ => h.stmt _ hxy
  | .loop body continuing breakIf, _, _, _, hxy, hs => by
    rw [places, forall_mem_cons, forall_mem_append] at hs
    obtain ⟨hown, hbody, hcont⟩ := hs
    unfold NodesAt at hown
    rw [sites, forall_mem_map] at hown
    rw [Walker.walkStmt, Walker.walkStmt]
    refine (walkStmts body (h.push hxy) hbody).bind fun a => ?_
    have hinner := h.afterStmts body a (h.push hxy)
    refine (walkStmts continuing hinner hcont).bind fun b => ?_
    exact (h.walkOptExpr (h.afterStmts continuing b hinner) fun e he => hown e he (by simp)).bind
      fun _ => h.stmt _ hxy
  | .switch selector cases, _, _, _, hxy, hs => by
    rw [places, forall_mem_cons] at hs
    rw [Walker.walkStmt, Walker.walkStmt]
    exact (walkCases cases hxy hs.2).bind fun _ =>
      (h.walkExpr hxy (hs.1 _ mem_cons_self (by simp))).bind fun _ => h.stmt _ hxy
  | .decl ds, _, _, _, hxy, hs => by
    rw [places, forall_mem_singleton] at hs
    rw [Walker.walkStmt, Walker.walkStmt]
    exact (h.walkDecls hxy fun d hd e he => hs _ (mem_flatMap.mpr ⟨d, hd, mem_map_of_mem he⟩)
      (by simp)).bind fun _ => h.stmt _ hxy
  | .expr e, _, _, _, hxy, hs => by
    rw [places, forall_mem_singleton] at hs
    rw [Walker.walkStmt, Walker.walkStmt]
    exact (h.walkExpr hxy (hs _ mem_cons_self (by simp))).bind fun _ => h.stmt _ hxy
  | .ret value, _, _, _, hxy, hs => by
    rw [places, forall_mem_singleton] at hs
    rw [Walker.walkStmt, Walker.walkStmt]
    exact (h.walkOptExpr hxy fun e he => hs _ (mem_map_of_mem he) (by simp)).bind fun _ =>
      h.stmt _ hxy
  | .breakOut, _, _, _, hxy, _ | .continueOn, _, _, _, hxy, _ | .discard, _, _, _, hxy, _
  | .empty, _, _, _, hxy, _ => by
    rw [Walker.walkStmt, Walker.walkStmt]
    exact h.stmt _ hxy

theorem walkStmts : ∀ (ss : List Stmt) {z x y : Env}, ρ z x y →
    (∀ q ∈ Stmt.placesAll z ss, NodesAt X result q) →
      Reflects part (w'.walkStmts x ss) (w.walkStmts y ss)
  | [], _, _, _, _, _ => by
    rw [Walker.walkStmts, Walker.walkStmts]
    exact .pure _
  | s :: ss, _, _, _, hxy, hss => by
    rw [placesAll, forall_mem_append] at hss
    rw [Walker.walkStmts, Walker.walkStmts]
    exact (walkStmt s hxy hss.1).bind fun a =>
      (walkStmts ss (h.after s a hxy) hss.2).bind fun _ => .pure _

theorem walkOpt : ∀ (o : Option Stmt) {z x y : Env}, ρ z x y →
    (∀ q ∈ Stmt.placesOpt z o, NodesAt X result q) → Reflects part (w'.walkOpt x o) (w.walkOpt y o)
  | none, _, _, _, _, _ => by
    rw [Walker.walkOpt, Walker.walkOpt]
    exact .pure _
  | some s, _, _, _, hxy, hs => by
    rw [Walker.walkOpt, Walker.walkOpt]
    exact (walkStmt s hxy hs).bind fun _ => .pure _

theorem walkCases : ∀ (cs : List Case) {z x y : Env}, ρ z x y →
    (∀ q ∈ Stmt.placesCases z cs, NodesAt X result q) →
      Reflects part (w'.walkCases x cs) (w.walkCases y cs)
  | [], _, _, _, _, _ => by
    rw [Walker.walkCases, Walker.walkCases]
    exact .pure _
  | .mk labels body :: cs, _, _, _, hxy, hcs => by
    rw [placesCases, forall_mem_append] at hcs
    rw [Walker.walkCases, Walker.walkCases]
    exact (walkStmts body (h.push hxy) hcs.1).bind fun _ =>
      (walkCases cs hxy hcs.2).bind fun _ => .pure _

end

theorem walkGlobals (hxy : ρ z x y) : ∀ {ds : List VarDecl},
    (∀ d ∈ ds, ∀ e ∈ d.init.toList, e.All (X z)) →
      Reflects part (w'.walkGlobals x ds) (w.walkGlobals y ds)
  | [], _ => .pure _
  | d :: ds, hds => by
    rw [forall_mem_cons] at hds
    exact (h.walkOptExpr hxy hds.1).bind fun _ => (h.global _ hxy).bind fun _ =>
      (walkGlobals hxy hds.2).bind fun _ => .pure _

theorem walkFunction (hxy : ρ z x y) {f : Function} (hf : ∀ q ∈ f.places z, NodesAt X f.returns q) :
    Reflects part (w'.walkFunction x f) (w.walkFunction y f) := by
  have hinner := h.params f.params (h.push hxy)
  exact (h.enter f hinner).bind fun a => (h.walkStmts _ (h.push hinner) (h.body _ f a hf)).bind
    fun _ => h.leave _ hinner

theorem walkItems (hxy : ρ z x y) : ∀ {is : List Item},
    (∀ i ∈ is, ∀ q ∈ i.sites z, q.role ≠ .label → q.expr.All (X q.env)) →
      Reflects part (w'.walkItems x is) (w.walkItems y is)
  | [], _ => .pure _
  | .struct d :: is, his => by
    rw [forall_mem_cons] at his
    exact (walkItems hxy his.2).bind fun _ => .pure _
  | .globals ds :: is, his => by
    rw [forall_mem_cons] at his
    exact (h.walkGlobals hxy fun d hd e he => his.1 _ (mem_flatMap.mpr ⟨d, hd, mem_map_of_mem he⟩)
      (by simp)).bind fun _ => (walkItems hxy his.2).bind fun _ => .pure _
  | .function f :: is, his => by
    rw [forall_mem_cons] at his
    exact (h.walkFunction hxy fun q hq u hu => his.1 u (mem_flatMap.mpr ⟨q, hq, hu⟩)).bind
      fun _ => (walkItems hxy his.2).bind fun _ => .pure _

/-- **What a walker mirrors at every node of a program, it mirrors in a whole walk.** -/
theorem walk {p : Program} (hp : p.EachNode z X) (hxy : ρ z x y) :
    Reflects part (w'.walk x p) (w.walk y p) :=
  (h.walkItems hxy fun i hi q hq => hp q (mem_flatMap.mpr ⟨i, hi, hq⟩)).bind fun _ => .pure _

end Mirrors

/-! ## Visits -/

/-- A statement with walked parts, and the state in which the walker looks at it. -/
structure Visit (σ : Type) where
  stmt : Stmt
  state : σ

/-- A statement with walked parts, with what is declared where it starts and the state in which the
walker looks at it. -/
structure Look (σ : Type) where
  env : Env
  stmt : Stmt
  state : σ

/-- A step of which the list of visits takes no notice. -/
def beside {α ι : Type} (m : StateM σ α) : StateM (σ × List ι) α := fun a =>
  ((m a.1).1, ((m a.1).2, a.2))

def recorded (w : Walker σ) : Walker (σ × List (Visit σ)) where
  enter := fun env f => beside (w.enter env f)
  leave := fun env f => beside (w.leave env f)
  expr := fun env e => beside (w.expr env e)
  stmt := fun env s a => ((w.stmt env s a.1).1, ((w.stmt env s a.1).2, a.2 ++ [⟨s, a.1⟩]))
  global := fun env d => beside (w.global env d)

def surveyed (w : Walker σ) : Walker (σ × List (Look σ)) where
  enter := fun env f => beside (w.enter env f)
  leave := fun env f => beside (w.leave env f)
  expr := fun env e => beside (w.expr env e)
  stmt := fun env s a => ((w.stmt env s a.1).1, ((w.stmt env s a.1).2, a.2 ++ [⟨env, s, a.1⟩]))
  global := fun env d => beside (w.global env d)

/-- A walker that does at all nodes what another does on a part of its state, in the same
environment, does so in a walk. -/
theorem walk_of_reflects (w' : Walker τ) {w : Walker σ} (part : τ → σ)
    (expr : ∀ env e, Reflects part (w'.expr env e) (w.expr env e))
    (stmt : ∀ env s, Reflects part (w'.stmt env s) (w.stmt env s))
    (global : ∀ env d, Reflects part (w'.global env d) (w.global env d))
    (enter : ∀ env f, Reflects part (w'.enter env f) (w.enter env f))
    (leave : ∀ env f, Reflects part (w'.leave env f) (w.leave env f)) (env : Env) (p : Program) :
    Reflects part (w'.walk env p) (w.walk env p) := by
  have h : w'.Mirrors w part (fun _ x y => x = y) fun _ _ => True := {
    push := fun h => congrArg _ h
    params := fun _ h => congrArg (Env.declareParams · _) h
    after := fun _ _ h => congrArg (Env.declareStmts · _) h
    expr := fun _ _ h _ => h ▸ expr _ _
    stmt := fun _ h => h ▸ stmt _ _
    global := fun _ h => h ▸ global _ _
    enter := fun _ h => h ▸ enter _ _
    body := fun _ _ _ _ _ _ _ _ _ _ _ => trivial
    leave := fun _ h => h ▸ leave _ _ }
  exact h.walk (z := env) (fun _ _ _ _ _ => trivial) rfl

variable (w : Walker σ)

/-- **The list of visits changes nothing in what the walk does.** -/
theorem walk_recorded (env : Env) (p : Program) (a : σ × List (Visit σ)) :
    w.walk env p a.1 = ((w.recorded.walk env p a).1, (w.recorded.walk env p a).2.1) :=
  walk_of_reflects w.recorded Prod.fst (fun _ _ _ => rfl) (fun _ _ _ => rfl)
    (fun _ _ _ => rfl) (fun _ _ _ => rfl) (fun _ _ _ => rfl) env p a

/-- **The list of looks changes nothing in what the walk does.** -/
theorem walk_surveyed (env : Env) (p : Program) (a : σ × List (Look σ)) :
    w.walk env p a.1 = ((w.surveyed.walk env p a).1, (w.surveyed.walk env p a).2.1) :=
  walk_of_reflects w.surveyed Prod.fst (fun _ _ _ => rfl) (fun _ _ _ => rfl)
    (fun _ _ _ => rfl) (fun _ _ _ => rfl) (fun _ _ _ => rfl) env p a

/-! ## What holds at every visit -/

/-- Every step of the walker keeps the property of the state. -/
structure Preserves (w : Walker σ) (I : σ → Prop) : Prop where
  enter : ∀ env f a, I a → I (w.enter env f a).2
  leave : ∀ env f a, I a → I (w.leave env f a).2
  expr : ∀ env e a, I a → I (w.expr env e a).2
  stmt : ∀ env s a, I a → I (w.stmt env s a).2
  global : ∀ env d a, I a → I (w.global env d a).2

namespace Preserves

variable {w : Walker σ} {I : σ → Prop} {a : σ}

theorem conveys (h : w.Preserves I) : w.Conveys I (fun _ => True) (fun _ => True) (fun _ => True)
    (fun _ _ => True) (fun _ => True) (fun _ => True) (fun _ => True) where
  expr := fun _ _ _ _ _ ha _ => ⟨h.expr _ _ _ ha, fun _ => ⟨trivial, trivial⟩⟩
  stmt := fun _ _ _ _ _ _ _ _ _ _ ha _ => ⟨h.stmt _ _ _ ha, fun _ => ⟨trivial, fun _ _ => trivial⟩⟩
  global := fun _ _ _ ha _ => ⟨h.global _ _ _ ha, fun _ => ⟨trivial, fun _ _ => trivial⟩⟩
  enter := fun _ _ _ ha _ => ⟨h.enter _ _ _ ha, fun _ => trivial, fun _ _ => trivial⟩
  leave := fun _ _ _ ha => ⟨h.leave _ _ _ ha, fun _ => trivial, fun _ _ _ => trivial⟩
  parts := fun _ _ => ⟨fun _ _ => trivial, fun _ _ => trivial⟩
  part_of_whole := fun _ _ => trivial
  part_of_child := fun _ _ _ _ => trivial
  holds := fun _ _ _ _ => trivial
  block := fun _ => iff_of_true trivial fun _ _ => trivial

theorem walk (h : w.Preserves I) (env : Env) (p : Program) (ha : I a) : I (w.walk env p a).2 :=
  (h.conveys.walk env ha fun i _ => by cases i <;> simp [Holds]).1

theorem recorded (h : w.Preserves I) :
    w.recorded.Preserves fun a => I a.1 ∧ ∀ v ∈ a.2, I v.state where
  enter := fun env f a ha => ⟨h.enter env f a.1 ha.1, ha.2⟩
  leave := fun env f a ha => ⟨h.leave env f a.1 ha.1, ha.2⟩
  expr := fun env e a ha => ⟨h.expr env e a.1 ha.1, ha.2⟩
  stmt := fun env s a ha => by
    refine ⟨h.stmt env s a.1 ha.1, ?_⟩
    exact forall_mem_append.mpr ⟨ha.2, forall_mem_singleton.mpr ha.1⟩
  global := fun env d a ha => ⟨h.global env d a.1 ha.1, ha.2⟩

/-- **What every step of a walker keeps holds of the state at every visit.** -/
theorem visits (h : w.Preserves I) (env : Env) (p : Program) (ha : I a) :
    ∀ v ∈ (w.recorded.walk env p (a, [])).2.2, I v.state :=
  (h.recorded.walk env p ⟨ha, forall_mem_nil _⟩).2

end Preserves

end ShaderEffect.Walker
