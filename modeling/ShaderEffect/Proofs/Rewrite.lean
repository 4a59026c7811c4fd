import ShaderEffect.Proofs.Place
import ShaderEffect.Proofs.Walk

/-!
# Walkers that change expressions only

Many walkers leave all statements where they are and change expressions in a way that depends on
nothing but what is declared. Such a change is a `Rewriting`: what becomes of each node, and what
then becomes of the whole expression in its role. **A walk leaves a program as it is exactly if the
rewriting leaves each of its expressions as it is** (`Rewrites.walk_eq_iff`), and every expression
that a walk leaves is what the rewriting made of one of them (`Rewrites.madeFrom_walk`).
-/

namespace ShaderEffect

open List Stmt

namespace Expr

variable {e : Expr} {g : Expr → Expr}

/-- Each node of the expression has the property. -/
def All (P : Expr → Prop) (e : Expr) : Prop :=
  ∀ x ∈ e.subexprs, P x

theorem all_iff {P : Expr → Prop} : e.All P ↔ P e ∧ ∀ c ∈ e.children, c.All P :=
  forall_subexprs_iff

section All

variable {P : Expr → Prop} {x y z : Expr} {xs : List Expr} {name : String}

@[simp] theorem all_int : (Expr.int name).All P ↔ P (.int name) :=
  all_iff.trans (and_iff_left (forall_mem_nil _))

@[simp] theorem all_float : (Expr.float name).All P ↔ P (.float name) :=
  all_iff.trans (and_iff_left (forall_mem_nil _))

@[simp] theorem all_bool {b : Bool} : (Expr.bool b).All P ↔ P (.bool b) :=
  all_iff.trans (and_iff_left (forall_mem_nil _))

@[simp] theorem all_ident : (Expr.ident name).All P ↔ P (.ident name) :=
  all_iff.trans (and_iff_left (forall_mem_nil _))

@[simp] theorem all_unary {op : UnaryOp} :
    (Expr.unary op x).All P ↔ P (.unary op x) ∧ x.All P := by
  simp [all_iff (e := .unary op x), children]

@[simp] theorem all_binary {op : BinOp} :
    (Expr.binary op x y).All P ↔ P (.binary op x y) ∧ x.All P ∧ y.All P := by
  simp [all_iff (e := .binary op x y), children]

@[simp] theorem all_assign {op : Option BinOp} :
    (Expr.assign op x y).All P ↔ P (.assign op x y) ∧ x.All P ∧ y.All P := by
  simp [all_iff (e := .assign op x y), children]

@[simp] theorem all_call :
    (Expr.call name xs).All P ↔ P (.call name xs) ∧ ∀ x ∈ xs, x.All P :=
  all_iff

@[simp] theorem all_construct {type : ShaderType} :
    (Expr.construct type xs).All P ↔ P (.construct type xs) ∧ ∀ x ∈ xs, x.All P :=
  all_iff

end All

theorem mapNodes_eq_self (h : e.All fun x => g x = x) : e.mapNodes g = e := by
  induction e using byChildren with
  | node e ih =>
    grind [all_iff, map_eq_self_iff, mapNodes_eq, withChildren_children]

/-- What a change of nodes never hides: where the outcome is the same expression, the operands have
stayed too. -/
def Faithful (g : Expr → Expr) : Prop :=
  ∀ e : Expr, e.mapNodes g = e → ∀ c ∈ e.children, c.mapNodes g = c

/-- **A faithful change leaves an expression as it is exactly if it leaves each of its nodes.** -/
theorem Faithful.mapNodes_eq_self_iff (hg : Faithful g) :
    e.mapNodes g = e ↔ e.All fun x => g x = x := by
  refine ⟨fun h => ?_, mapNodes_eq_self⟩
  induction e using byChildren with
  | node e ih =>
    have hmap : e.children.map (mapNodes g) = e.children := map_eq_self_iff.mpr (hg e h)
    refine all_iff.mpr ⟨?_, fun c hc => ih c hc (hg e h c hc)⟩
    rw [mapNodes_eq, hmap, withChildren_children] at h
    exact h

theorem Faithful.of_heads
    (h : ∀ e cs, cs.length = e.children.length → g (e.withChildren cs) = e → cs = e.children) :
    Faithful g := by
  intro e heq
  rw [mapNodes_eq] at heq
  exact map_eq_self_iff.mp (h e _ (length_map ..) heq)

theorem all_mapNodes {P : Expr → Prop}
    (hg : ∀ e : Expr, (∀ c ∈ e.children, c.All P) → (g e).All P) (e : Expr) :
    (e.mapNodes g).All P := by
  induction e using byChildren with
  | node e ih =>
    grind [mapNodes_eq, children_withChildren]

end Expr

namespace Stmt

variable (result : ShaderType) (env : Env)

/-- Changes the expressions of a statement by what they are to it. -/
def mapRoles (f : Role → Expr → Expr) (result : ShaderType) : Stmt → Stmt
  | .decl decls => .decl (decls.map fun d => { d with init := d.init.map (f (.wanted d.type)) })
  | .expr e => .expr (f .operand e)
  | .ifElse cond whenTrue whenFalse => .ifElse (f .operand cond) whenTrue whenFalse
  | .whileLoop cond body => .whileLoop (f .operand cond) body
  | .doWhile body cond => .doWhile body (f .operand cond)
  | .forLoop start cond step body =>
    .forLoop start (cond.map (f .operand)) (step.map (f .operand)) body
  | .loop body continuing breakIf => .loop body continuing (breakIf.map (f .operand))
  | .switch selector cases =>
    .switch (f .operand selector)
      (cases.map fun c => .mk (c.labels.map (CaseLabel.map (f .label))) c.body)
  | .ret value => .ret (value.map (f (.wanted result)))
  | s => s

theorem mapExprs_eq_mapRoles (f : Expr → Expr) (result : ShaderType) (s : Stmt) :
    s.mapExprs f = s.mapRoles (fun _ => f) result := by
  cases s <;> rfl

/-- The expressions of a statement and of the statements inside it, where they stand. -/
def allSites (result : ShaderType) (env : Env) (s : Stmt) : List Site :=
  (s.places env).flatMap fun p => p.2.sites result p.1

def allSitesAll (result : ShaderType) (env : Env) (ss : List Stmt) : List Site :=
  (placesAll env ss).flatMap fun p => p.2.sites result p.1

theorem allSitesAll_cons (s : Stmt) (ss : List Stmt) :
    allSitesAll result env (s :: ss) =
      s.allSites result env ++ allSitesAll result (env.declareStmt s) ss := by
  rw [allSitesAll, placesAll, flatMap_append]
  rfl

/-- The expressions of an optional statement. -/
def allSitesOpt (result : ShaderType) (env : Env) (o : Option Stmt) : List Site :=
  (placesOpt env o).flatMap fun p => p.2.sites result p.1

theorem allSites_decl (ds : List VarDecl) :
    (Stmt.decl ds).allSites result env = ds.flatMap (VarDecl.sites env) :=
  append_nil _

theorem allSites_ret (value : Option Expr) :
    (Stmt.ret value).allSites result env =
      value.toList.map fun e => ⟨env, env, .wanted result, e⟩ :=
  append_nil _

theorem allSites_ifElse (cond : Expr) (t : Stmt) (f : Option Stmt) :
    (Stmt.ifElse cond t f).allSites result env =
      [⟨env, env, .operand, cond⟩] ++ (t.allSites result env ++ allSitesOpt result env f) := by
  rw [allSites, places, flatMap_cons, flatMap_append]
  rfl

theorem allSites_forLoop (start : Option Stmt) (cond step : Option Expr) (body : Stmt) :
    (Stmt.forLoop start cond step body).allSites result env =
      (cond.toList.map (fun e => ⟨env.push.declareStmts start.toList, env, .operand, e⟩) ++
        step.toList.map (fun e => ⟨env.push.declareStmts start.toList, env, .operand, e⟩)) ++
      (allSitesOpt result env.push start ++
        body.allSites result (env.push.declareStmts start.toList)) := by
  rw [allSites, places, flatMap_cons, flatMap_append, ← map_append]
  rfl

theorem allSites_loop (body continuing : List Stmt) (breakIf : Option Expr) :
    (Stmt.loop body continuing breakIf).allSites result env =
      breakIf.toList.map (fun e =>
        ⟨(env.push.declareStmts body).declareStmts continuing, env, .operand, e⟩) ++
      (allSitesAll result env.push body ++
        allSitesAll result (env.push.declareStmts body) continuing) := by
  rw [allSites, places, flatMap_cons, flatMap_append]
  rfl

end Stmt

/-- A change of expressions: what becomes of a node after its operands, and what becomes of the
whole expression in its role after its nodes. -/
structure Rewriting where
  node : Env → Expr → Expr
  whole : Env → Role → Expr → Expr := fun _ _ e => e

/-- Each node of the expressions that the program evaluates has the property. -/
def Program.EachNode (env : Env) (p : Program) (X : Env → Expr → Prop) : Prop :=
  ∀ q ∈ p.sites env, q.role ≠ .label → q.expr.All (X q.env)

namespace Rewriting

/-- What becomes of an expression where it stands. The nodes of case labels stay. -/
def apply (r : Rewriting) (q : Site) : Expr :=
  match q.role with
  | .label => r.whole q.around .label q.expr
  | role => r.whole q.around role (q.expr.mapNodes (r.node q.env))

def Fixes (r : Rewriting) (qs : List Site) : Prop :=
  ∀ q ∈ qs, r.apply q = q.expr

theorem fixes_node_iff {node : Env → Expr → Expr} (h : ∀ env, Expr.Faithful (node env)) (env : Env)
    (p : Program) :
    Fixes { node := node } (p.sites env) ↔ p.EachNode env fun env x => node env x = x := by
  refine forall_congr' fun q => forall_congr' fun _ => ?_
  obtain ⟨env, around, role, expr⟩ := q
  cases role with
  | label => exact iff_of_true rfl fun h => absurd rfl h
  | operand | wanted =>
    exact (h env).mapNodes_eq_self_iff.trans ⟨fun h _ => h, fun h => h nofun⟩

/-- Each of the expressions is one that the rewriting made. -/
def Made (r : Rewriting) (qs : List Site) : Prop :=
  ∀ q ∈ qs, ∃ e, q.expr = r.apply { q with expr := e }

/-- Each of the expressions `qs'` is what the rewriting made of one of `qs`. -/
def MadeFrom (r : Rewriting) (qs qs' : List Site) : Prop :=
  ∀ q' ∈ qs', ∃ q ∈ qs, q' = { q with expr := r.apply q }

theorem MadeFrom.made {r : Rewriting} {qs qs' : List Site} (h : r.MadeFrom qs qs') : r.Made qs' := by
  intro q' hq'
  obtain ⟨q, -, rfl⟩ := h q' hq'
  exact ⟨q.expr, rfl⟩

/-- What holds of a part with the expressions `qs` that becomes a part with the expressions `qs'`. -/
structure Rewritten {α : Type} (r : Rewriting) (x x' : α) (qs qs' : List Site) : Prop where
  eq_iff : x' = x ↔ r.Fixes qs
  madeFrom : r.MadeFrom qs qs'

namespace Rewritten

variable {r : Rewriting} {α β : Type} {x x' : α} {y y' : β} {qs qs' us us' : List Site}

theorem refl (r : Rewriting) (x : α) : r.Rewritten x x [] [] :=
  ⟨⟨fun _ => forall_mem_nil _, fun _ => rfl⟩, forall_mem_nil _⟩

theorem prod (hx : r.Rewritten x x' qs qs') (hy : r.Rewritten y y' us us') :
    r.Rewritten (x, y) (x', y') (qs ++ us) (qs' ++ us') where
  eq_iff := by rw [Prod.mk.injEq, hx.eq_iff, hy.eq_iff, Fixes, Fixes, Fixes, forall_mem_append]
  madeFrom := forall_mem_append.mpr
    ⟨fun q' hq' => (hx.madeFrom q' hq').imp fun _ h => ⟨mem_append_left _ h.1, h.2⟩,
      fun q' hq' => (hy.madeFrom q' hq').imp fun _ h => ⟨mem_append_right _ h.1, h.2⟩⟩

theorem map {C : α → β} (h : r.Rewritten x x' qs qs') (hC : C x' = C x → x' = x) :
    r.Rewritten (C x) (C x') qs qs' where
  eq_iff := ⟨fun heq => h.eq_iff.mp (hC heq), fun hqs => congrArg C (h.eq_iff.mpr hqs)⟩
  madeFrom := h.madeFrom

theorem congr_mem (h : r.Rewritten x x' qs qs') (hqs : ∀ q, q ∈ us ↔ q ∈ qs)
    (hqs' : ∀ q, q ∈ us' ↔ q ∈ qs') : r.Rewritten x x' us us' where
  eq_iff := h.eq_iff.trans (forall_congr' fun q => imp_congr_left (hqs q).symm)
  madeFrom := fun q hq =>
    (h.madeFrom q ((hqs' q).mp hq)).imp fun u hu => ⟨(hqs u).mpr hu.1, hu.2⟩

theorem site (r : Rewriting) (q : Site) :
    r.Rewritten q.expr (r.apply q) [q] [{ q with expr := r.apply q }] where
  eq_iff := by rw [Fixes, forall_mem_singleton]
  madeFrom := forall_mem_singleton.mpr ⟨q, mem_singleton_self q, rfl⟩

theorem option (r : Rewriting) (at_ : Expr → Site) (hat : ∀ e, (at_ e).expr = e)
    (hset : ∀ e x, { at_ e with expr := x } = at_ x) (o : Option Expr) :
    r.Rewritten o (o.map fun e => r.apply (at_ e)) (o.toList.map at_)
      ((o.map fun e => r.apply (at_ e)).toList.map at_) := by
  cases o with
  | none => exact .refl r _
  | some e =>
    have h := (site r (at_ e)).map (fun h => Option.some.inj h)
    rw [hat, hset] at h
    exact h

theorem decls (r : Rewriting) (env : Env) : ∀ ds : List VarDecl,
    r.Rewritten ds
      (ds.map fun d =>
        { d with init := d.init.map fun e => r.apply ⟨env, env, .wanted d.type, e⟩ })
      (ds.flatMap (VarDecl.sites env))
      ((ds.map fun d =>
        { d with init := d.init.map fun e => r.apply ⟨env, env, .wanted d.type, e⟩ }).flatMap
          (VarDecl.sites env))
  | [] => .refl r _
  | d :: ds => by
    have hd := (option r (fun e => ⟨env, env, .wanted d.type, e⟩) (fun _ => rfl) (fun _ _ => rfl)
      d.init).map (C := fun init => { d with init := init }) (fun h => congrArg VarDecl.init h)
    exact (hd.prod (decls r env ds)).map (C := fun p => p.1 :: p.2)
      (fun h => Prod.ext (cons.inj h).1 (cons.inj h).2)

theorem labels (r : Rewriting) (env : Env) : ∀ ls : List CaseLabel,
    r.Rewritten ls (ls.map (CaseLabel.map fun e => r.apply ⟨env, env, .label, e⟩))
      ((ls.filterMap CaseLabel.value?).map fun e => ⟨env, env, .label, e⟩)
      (((ls.map (CaseLabel.map fun e => r.apply ⟨env, env, .label, e⟩)).filterMap
        CaseLabel.value?).map fun e => ⟨env, env, .label, e⟩)
  | [] => .refl r _
  | .default :: ls =>
    (labels r env ls).map (C := fun ls => .default :: ls) (fun h => (cons.inj h).2)
  | .value e :: ls =>
    ((site r ⟨env, env, .label, e⟩).prod (labels r env ls)).map
      (C := fun p => CaseLabel.value p.1 :: p.2)
      (fun h => Prod.ext (CaseLabel.value.inj (cons.inj h).1) (cons.inj h).2)

end Rewritten

end Rewriting

namespace Walker

variable {σ : Type}
variable {b a : σ} {env : Env}

/-- The walker changes expressions as `r` says and nothing else, as long as its state satisfies
`Inv`, which may depend on the result of the function around. -/
structure Rewrites (w : Walker σ) (Inv : Option ShaderType → σ → Prop) (r : Rewriting) : Prop where
  expr : ∀ env e result a, Inv result a →
    (w.expr env e a).1 = r.node env e ∧ Inv result (w.expr env e a).2
  stmt : ∀ env s result a, Inv (some result) a →
    (w.stmt env s a).1 = [s.mapRoles (r.whole env) result] ∧ Inv (some result) (w.stmt env s a).2
  global : ∀ env d a, Inv none a →
    (w.global env d a).1 = { d with init := d.init.map (r.whole env (.wanted d.type)) } ∧
      Inv none (w.global env d a).2
  enter : ∀ env f a, Inv none a →
    (w.enter env f a).1 = f ∧ Inv (some f.returns) (w.enter env f a).2
  leave : ∀ env f result a, Inv (some result) a →
    (w.leave env f a).1 = f ∧ Inv none (w.leave env f a).2

section Parts

variable (Inv : Option ShaderType → σ → Prop) (r : Rewriting)
variable {result : ShaderType}

/-- An expression whose nodes have been changed. -/
def ExprRewrites (env : Env) (e : Expr) (a : σ) (e' : Expr) (b : σ) : Prop :=
  ∀ result, Inv result a → e' = e.mapNodes (r.node env) ∧ Inv result b

/-- A statement whose expressions have been changed. -/
def StmtRewrites (env : Env) (s : Stmt) (a : σ) (out : List Stmt) (b : σ) : Prop :=
  ∀ result, Inv (some result) a → Inv (some result) b ∧ ∃ s', out = [s'] ∧
    (∀ env : Env, env.declareStmt s' = env.declareStmt s) ∧
      r.Rewritten s s' (s.allSites result env) (s'.allSites result env)

variable {Inv r}

theorem ExprsTo.rewritten {es es' : List Expr} {result : Option ShaderType}
    (h : ExprsTo (ExprRewrites Inv r) env es a es' b) (ha : Inv result a) :
    es' = es.map (Expr.mapNodes (r.node env)) ∧ Inv result b := by
  induction h with
  | nil => exact ⟨rfl, ha⟩
  | cons he _ ih =>
    obtain ⟨rfl, hb⟩ := he result ha
    obtain ⟨rfl, hc⟩ := ih hb
    exact ⟨rfl, hc⟩

theorem toList_inj {α : Type} {o o' : Option α} (h : o.toList = o'.toList) : o = o' := by
  cases o <;> cases o' <;> simp_all

theorem ExprsTo.rewritten_option {o o' : Option Expr} {result : Option ShaderType}
    (h : ExprsTo (ExprRewrites Inv r) env o.toList a o'.toList b) (ha : Inv result a) :
    o' = o.map (Expr.mapNodes (r.node env)) ∧ Inv result b := by
  obtain ⟨heq, hb⟩ := h.rewritten ha
  refine ⟨toList_inj (heq.trans ?_), hb⟩
  cases o <;> rfl

theorem DeclsTo.rewritten {ds ds' : List VarDecl} {result : Option ShaderType}
    (h : DeclsTo (ExprRewrites Inv r) env ds a ds' b) (ha : Inv result a) :
    ds' = ds.map (fun d => { d with init := d.init.map (Expr.mapNodes (r.node env)) }) ∧
      Inv result b := by
  induction h with
  | nil => exact ⟨rfl, ha⟩
  | cons hd _ ih =>
    obtain ⟨rfl, hb⟩ := hd.rewritten_option ha
    obtain ⟨rfl, hc⟩ := ih hb
    exact ⟨rfl, hc⟩

theorem StmtsTo.rewritten {ss out : List Stmt} (h : StmtsTo (StmtRewrites Inv r) env ss a out b)
    (ha : Inv (some result) a) :
    Inv (some result) b ∧ (∀ env : Env, env.declareStmts out = env.declareStmts ss) ∧
      r.Rewritten ss out (Stmt.allSitesAll result env ss) (Stmt.allSitesAll result env out) := by
  induction h with
  | nil => exact ⟨ha, fun _ => rfl, .refl r _⟩
  | @cons env s ss out others a b c hs _ ih =>
    obtain ⟨hb, s', rfl, hdecl, hrw⟩ := hs result ha
    obtain ⟨hc, hdecls, hrws⟩ := ih hb
    rw [Env.declareStmts_cons, Env.declareStmts_nil] at hrws
    refine ⟨hc, fun env => ?_, ?_⟩
    · grind [Env.declareStmts_cons]
    · rw [singleton_append, allSitesAll_cons, allSitesAll_cons]
      rw [hdecl] at hrws ⊢
      exact (hrw.prod hrws).map (C := fun p => p.1 :: p.2)
        (fun h => Prod.ext (cons.inj h).1 (cons.inj h).2)

theorem OptTo.rewritten {o : Option Stmt} {out : Option (List Stmt)}
    (h : OptTo (StmtRewrites Inv r) env o a out b) (ha : Inv (Option.some result) a) :
    Inv (Option.some result) b ∧ ∃ o' : Option Stmt, out = o'.map (fun s => [s]) ∧
      (∀ env : Env, env.declareStmts o'.toList = env.declareStmts o.toList) ∧
      r.Rewritten o o' (Stmt.allSitesOpt result env o) (Stmt.allSitesOpt result env o') := by
  cases h with
  | none => exact ⟨ha, Option.none, rfl, fun _ => rfl, .refl r _⟩
  | some hs =>
    obtain ⟨hb, s', rfl, hdecl, hrw⟩ := hs result ha
    exact ⟨hb, Option.some s', rfl, hdecl, hrw.map (fun h => Option.some.inj h)⟩

/-- The branches of a `switch`, whose labels are changed after the statements inside. -/
theorem CasesTo.rewritten {cs cs' : List Case} (h : CasesTo (StmtRewrites Inv r) env cs a cs' b)
    (ha : Inv (some result) a) :
    Inv (some result) b ∧ ∃ cs'' : List Case,
      (cs'' = cs'.map fun c =>
        .mk (c.labels.map (CaseLabel.map fun e => r.apply ⟨env, env, .label, e⟩)) c.body) ∧
      r.Rewritten cs cs''
        (((cs.flatMap fun c => c.labels.filterMap CaseLabel.value?).map fun e =>
            ⟨env, env, .label, e⟩) ++
          (Stmt.placesCases env cs).flatMap fun p => p.2.sites result p.1)
        (((cs''.flatMap fun c => c.labels.filterMap CaseLabel.value?).map fun e =>
            ⟨env, env, .label, e⟩) ++
          (Stmt.placesCases env cs'').flatMap fun p => p.2.sites result p.1) := by
  induction h with
  | nil => exact ⟨ha, [], rfl, .refl r _⟩
  | @cons labels body body' cs cs' a b c hbody _ ih =>
    obtain ⟨hb, -, hrw⟩ := hbody.rewritten ha
    obtain ⟨hc, cs'', rfl, hrws⟩ := ih hb
    have hhead := ((Rewriting.Rewritten.labels r env labels).prod hrw).map
      (C := fun p => Case.mk p.1 p.2)
      (fun h => Prod.ext (Case.mk.inj h).1 (Case.mk.inj h).2)
    refine ⟨hc, _, rfl, ((hhead.prod hrws).map (C := fun p => p.1 :: p.2)
      (fun h => Prod.ext (cons.inj h).1 (cons.inj h).2)).congr_mem ?_ ?_⟩ <;>
    · intro q
      simp only [flatMap_cons, map_cons, Case.labels_mk, Case.body_mk, placesCases,
        map_append, flatMap_append, mem_append, allSitesAll, or_assoc,
        or_left_comm]

theorem map_ofList_map_singleton (o : Option Stmt) :
    (o.map fun s => [s]).map Stmt.ofList = o := by
  cases o <;> rfl

theorem NodeTo.rewritten {s s' : Stmt} {before : List Stmt}
    (h : NodeTo (ExprRewrites Inv r) (StmtRewrites Inv r) env s a s' before b)
    (ha : Inv (some result) a) :
    Inv (some result) b ∧ before = [] ∧
      (∀ other : Env, other.declareStmt (s'.mapRoles (r.whole env) result) =
        other.declareStmt s) ∧
      r.Rewritten s (s'.mapRoles (r.whole env) result) (s.allSites result env)
        ((s'.mapRoles (r.whole env) result).allSites result env) := by
  cases h with
  | block h =>
    obtain ⟨hb, -, hrw⟩ := h.rewritten ha
    exact ⟨hb, rfl, fun _ => rfl, hrw.map (C := Stmt.block) (fun h => Stmt.block.inj h)⟩
  | @ifElse cond _ t f _ _ _ _ _ _ ht hf hc =>
    obtain ⟨hb, t', rfl, -, hrwt⟩ := ht result ha
    obtain ⟨hb, f', rfl, -, hrwf⟩ := hf.rewritten hb
    obtain ⟨rfl, hb⟩ := hc _ hb
    have hrw := ((Rewriting.Rewritten.site r ⟨env, env, .operand, cond⟩).prod
      (hrwt.prod hrwf)).map (C := fun p => Stmt.ifElse p.1 p.2.1 p.2.2) (fun h => by
        obtain ⟨h1, h2, h3⟩ := Stmt.ifElse.inj h
        exact Prod.ext h1 (Prod.ext h2 h3))
    rw [map_ofList_map_singleton]
    refine ⟨hb, rfl, fun _ => rfl, ?_⟩
    rw [allSites_ifElse, Stmt.mapRoles, allSites_ifElse]
    exact hrw
  | @forLoop start _ cond _ step _ body _ _ _ _ _ _ hs hbody hc hst =>
    obtain ⟨hb, start', rfl, hdecl, hrws⟩ := hs.rewritten ha
    have hfirst : (start'.map fun s => [s]).getD [] = start'.toList := by cases start' <;> rfl
    rw [hfirst, hdecl] at hbody hc hst
    obtain ⟨hb, body', rfl, -, hrwb⟩ := hbody result hb
    obtain ⟨rfl, hb⟩ := hc.rewritten_option hb
    obtain ⟨rfl, hb⟩ := hst.rewritten_option hb
    have hlast : start'.toList.getLast? = start' := by cases start' <;> rfl
    have hdrop : start'.toList.dropLast = [] := by cases start' <;> rfl
    rw [hfirst, hlast, hdrop]
    refine ⟨hb, rfl, fun _ => rfl, ?_⟩
    have hsite : ∀ o, _ := Rewriting.Rewritten.option r
      (fun e => ⟨env.push.declareStmts start.toList, env, .operand, e⟩) (fun _ => rfl)
      (fun _ _ => rfl)
    have hrw := (((hsite cond).prod (hsite step)).prod (hrws.prod hrwb)).map
      (C := fun p => Stmt.forLoop p.2.1 p.1.1 p.1.2 p.2.2) (fun h => by
        obtain ⟨h1, h2, h3, h4⟩ := Stmt.forLoop.inj h
        exact Prod.ext (Prod.ext h2 h3) (Prod.ext h1 h4))
    rw [Stmt.allSites_forLoop, Stmt.mapRoles, Stmt.allSites_forLoop, hdecl, Option.map_map,
      Option.map_map]
    exact hrw
  | @whileLoop cond _ body _ _ _ _ hbody hc =>
    obtain ⟨hb, body', rfl, -, hrwb⟩ := hbody result ha
    obtain ⟨rfl, hb⟩ := hc _ hb
    exact ⟨hb, rfl, fun _ => rfl,
      ((Rewriting.Rewritten.site r ⟨env, env, .operand, cond⟩).prod hrwb).map
        (C := fun p => Stmt.whileLoop p.1 p.2)
        (fun h => Prod.ext (Stmt.whileLoop.inj h).1 (Stmt.whileLoop.inj h).2)⟩
  | @doWhile cond _ body _ _ _ _ hbody hc =>
    obtain ⟨hb, body', rfl, -, hrwb⟩ := hbody result ha
    obtain ⟨rfl, hb⟩ := hc _ hb
    exact ⟨hb, rfl, fun _ => rfl,
      ((Rewriting.Rewritten.site r ⟨env, env, .operand, cond⟩).prod hrwb).map
        (C := fun p => Stmt.doWhile p.2 p.1)
        (fun h => Prod.ext (Stmt.doWhile.inj h).2 (Stmt.doWhile.inj h).1)⟩
  | @loop body _ continuing _ breakIf _ _ _ _ _ hbody hcont hbreak =>
    obtain ⟨hb, hdecl, hrwb⟩ := hbody.rewritten ha
    rw [hdecl] at hcont hbreak
    obtain ⟨hb, hdecl', hrwc⟩ := hcont.rewritten hb
    rw [hdecl'] at hbreak
    obtain ⟨rfl, hb⟩ := hbreak.rewritten_option hb
    refine ⟨hb, rfl, fun _ => rfl, ?_⟩
    have hrw := ((Rewriting.Rewritten.option r
      (fun e => ⟨(env.push.declareStmts body).declareStmts continuing, env, .operand, e⟩)
      (fun _ => rfl) (fun _ _ => rfl) breakIf).prod (hrwb.prod hrwc)).map
      (C := fun p => Stmt.loop p.2.1 p.2.2 p.1) (fun h => by
        obtain ⟨h1, h2, h3⟩ := Stmt.loop.inj h
        exact Prod.ext h3 (Prod.ext h1 h2))
    rw [Stmt.allSites_loop, Stmt.mapRoles, Stmt.allSites_loop, hdecl, hdecl', Option.map_map]
    exact hrw
  | @switch selector _ _ _ _ _ _ hcs hsel =>
    obtain ⟨hb, cs'', hcs'', hrwc⟩ := hcs.rewritten ha
    obtain ⟨rfl, hb⟩ := hsel _ hb
    refine ⟨hb, rfl, fun _ => rfl, ?_⟩
    have hrw := ((Rewriting.Rewritten.site r ⟨env, env, .operand, selector⟩).prod hrwc).map
      (C := fun p => Stmt.switch p.1 p.2)
      (fun h => Prod.ext (Stmt.switch.inj h).1 (Stmt.switch.inj h).2)
    rw [hcs''] at hrw
    exact hrw
  | @decl ds _ _ _ hds =>
    obtain ⟨rfl, hb⟩ := hds.rewritten ha
    have hinit : ∀ d : VarDecl, (d.init.map (Expr.mapNodes (r.node env))).map
        (r.whole env (.wanted d.type)) =
          d.init.map fun e => r.apply ⟨env, env, .wanted d.type, e⟩ :=
      fun d => Option.map_map ..
    simp only [Stmt.mapRoles, map_map, Function.comp_def, hinit, Stmt.allSites_decl]
    exact ⟨hb, trivial, fun _ => foldl_map,
      (Rewriting.Rewritten.decls r env ds).map (C := Stmt.decl) (fun h => Stmt.decl.inj h)⟩
  | @expr e _ _ _ he =>
    obtain ⟨rfl, hb⟩ := he _ ha
    exact ⟨hb, rfl, fun _ => rfl, (Rewriting.Rewritten.site r ⟨env, env, .operand, e⟩).map
      (C := Stmt.expr) (fun h => Stmt.expr.inj h)⟩
  | @ret value _ _ _ he =>
    obtain ⟨rfl, hb⟩ := he.rewritten_option ha
    rw [Stmt.mapRoles, Option.map_map, Stmt.allSites_ret, Stmt.allSites_ret]
    exact ⟨hb, rfl, fun _ => rfl,
      (Rewriting.Rewritten.option r (fun e => ⟨env, env, .wanted result, e⟩) (fun _ => rfl)
        (fun _ _ => rfl) value).map (C := Stmt.ret) (fun h => Stmt.ret.inj h)⟩
  | breakOut | continueOn | discard | empty => exact ⟨ha, rfl, fun _ => rfl, .refl r _⟩

end Parts

namespace Rewrites

variable {w : Walker σ} {Inv : Option ShaderType → σ → Prop} {r : Rewriting}

variable (h : w.Rewrites Inv r)
include h

theorem establishes :
    w.Establishes (ExprRewrites Inv r) (StmtRewrites Inv r) where
  expr := fun env e a es b hes result ha => by
    obtain ⟨rfl, hb⟩ := hes.rewritten ha
    obtain ⟨hnode, hc⟩ := h.expr env (e.withChildren (e.children.map (Expr.mapNodes (r.node env))))
      result b hb
    exact ⟨hnode.trans (Expr.mapNodes_eq ..).symm, hc⟩
  stmt := fun env s a s' before b hs result ha => by
    obtain ⟨hb, rfl, hdecl, hrw⟩ := hs.rewritten ha
    obtain ⟨hout, hc⟩ := h.stmt env s' result b hb
    exact ⟨hc, _, hout, hdecl, hrw⟩

theorem onGlobals {ds ds' : List VarDecl} (hds : GlobalsTo w (ExprRewrites Inv r) env ds a ds' b)
    (ha : Inv none a) :
    Inv none b ∧ ds' = ds.map fun d =>
      { d with init := d.init.map fun e => r.apply ⟨env, env, .wanted d.type, e⟩ } := by
  induction hds with
  | nil => exact ⟨ha, rfl⟩
  | @cons d init ds ds' a b c hd _ ih =>
    obtain ⟨rfl, hb⟩ := hd.rewritten_option ha
    obtain ⟨hglobal, hc⟩ := h.global env _ b hb
    obtain ⟨hc, rfl⟩ := ih hc
    rw [hglobal, map_cons, Option.map_map]
    exact ⟨hc, rfl⟩

theorem onItem {i j : Item} (hi : ItemTo w (ExprRewrites Inv r) (StmtRewrites Inv r) env i a j b)
    (ha : Inv none a) :
    Inv none b ∧ (∀ other : Env, other.declareItem j = other.declareItem i) ∧
      r.Rewritten i j (i.sites env) (j.sites env) := by
  cases hi with
  | struct d => exact ⟨ha, fun _ => rfl, .refl r _⟩
  | @globals ds _ _ _ hds =>
    obtain ⟨hb, rfl⟩ := h.onGlobals hds ha
    exact ⟨hb, fun _ => foldl_map, (Rewriting.Rewritten.decls r env ds).map
      (C := Item.globals) (fun h => Item.globals.inj h)⟩
  | @function f g inner body _ _ c hinner henter hbody =>
    subst hinner
    obtain ⟨hg, hb⟩ := h.enter (env.push.declareParams f.params) f a ha
    rw [henter] at hg hb
    obtain rfl : g = f := hg
    obtain ⟨hc, -, hrw⟩ := hbody.rewritten hb
    obtain ⟨hleave, hd⟩ := h.leave (env.push.declareParams g.params) { g with body := body }
      g.returns c hc
    rw [hleave]
    exact ⟨hd, fun _ => rfl, hrw.map (C := fun body => Item.function { g with body := body })
      (fun h => congrArg Function.body (Item.function.inj h))⟩

theorem onItems {is js : List Item}
    (hi : ItemsTo w (ExprRewrites Inv r) (StmtRewrites Inv r) env is a js b) (ha : Inv none a) :
    Inv none b ∧
      (∀ other : Env, js.foldl Env.declareItem other = is.foldl Env.declareItem other) ∧
      r.Rewritten is js (is.flatMap (Item.sites env)) (js.flatMap (Item.sites env)) := by
  induction hi with
  | nil => exact ⟨ha, fun _ => rfl, .refl r _⟩
  | cons hi _ ih =>
    obtain ⟨hb, hdecl, hrw⟩ := h.onItem hi ha
    obtain ⟨hc, hdecls, hrws⟩ := ih hb
    refine ⟨hc, fun other => ?_, ?_⟩
    · rw [foldl_cons, foldl_cons, hdecl, hdecls]
    · rw [flatMap_cons, flatMap_cons]
      exact (hrw.prod hrws).map (C := fun p => p.1 :: p.2)
        (fun h => Prod.ext (cons.inj h).1 (cons.inj h).2)

variable {a : σ}

/-- **A walk that changes expressions leaves a program as it is exactly if each expression stays.** -/
theorem walk_eq_iff (env : Env) (p : Program) (ha : Inv none a) :
    (w.walk env p a).1 = p ↔ r.Fixes (p.sites env) := by
  obtain ⟨-, -, hrw⟩ := h.onItems (h.establishes.onItems env p.items a) ha
  exact (hrw.map (C := Program.mk) (fun h => Program.mk.inj h)).eq_iff

/-- Every expression of a program that has been walked is what the rewriting made of an expression
of the program. -/
theorem madeFrom_walk (env : Env) (p : Program) (ha : Inv none a) :
    r.MadeFrom (p.sites env) ((w.walk env p a).1.sites env) :=
  (h.onItems (h.establishes.onItems env p.items a) ha).2.2.madeFrom

theorem ofProgram_walk (env : Env) (p : Program) (ha : Inv none a) (host : Scope) :
    Env.ofProgram (w.walk env p a).1 host = Env.ofProgram p host :=
  (h.onItems (h.establishes.onItems env p.items a) ha).2.1 _

end Rewrites

end Walker

end ShaderEffect
