import Mathlib.Data.List.Induction
import ShaderEffect.Proofs.Rewrite

/-!
# Walkers that change statements

Where a walker may put several statements in the place of one, a walk leaves a program as it is
exactly if it leaves everything on its way (`Settles.walk_eq_self_iff`). One direction goes part by
part. For the other, statements that together become themselves must each become itself, if a
statement that is among its own outcome is its whole outcome (`Settling.onAppend`): so no statement
can make up for what another one lost.
-/

namespace ShaderEffect.Walker

open List Stmt

variable {σ : Type}

/-! ## Parts that stay -/

/-- From a state with `I` a part stays exactly if `q` holds, and then leaves a state with `J`. -/
def Stays (I J stays q : Prop) : Prop :=
  I → (stays ↔ q) ∧ (stays → J)

namespace Stays

variable {I J L p q p' q' : Prop}

theorem of_true (hp : p) (hq : q) : Stays I I p q :=
  fun hI => ⟨iff_of_true hp hq, fun _ => hI⟩

theorem congr (h : Stays I J p q) (hp : p' ↔ p) (hq : q' ↔ q) : Stays I J p' q' := by
  rw [propext hp, propext hq]
  exact h

theorem and (h : Stays I J p q) (h' : p → Stays J L p' q') : Stays I L (p ∧ p') (q ∧ q') := by
  intro hI
  obtain ⟨hiff, hJ⟩ := h hI
  refine ⟨?_, fun hp => (h' hp.1 (hJ hp.1)).2 hp.2⟩
  rw [← hiff]
  exact and_congr_right fun hp => (h' hp (hJ hp)).1

end Stays

/-- `K` holds of a statement, and `X` of all nodes of the expressions that it evaluates. -/
def Quiet (K : Function → Env → Stmt → Prop) (X : Option Function → Env → Expr → Prop)
    (f : Function) (q : Env × Stmt) : Prop :=
  K f q.1 q.2 ∧ ∀ u ∈ q.2.sites f.returns q.1, u.role ≠ .label → u.expr.All (X (some f) u.env)

def QuietItem (G : Function → Prop) (K : Function → Env → Stmt → Prop)
    (X : Option Function → Env → Expr → Prop) (env : Env) : Item → Prop
  | .struct _ => True
  | .globals ds => ∀ d ∈ ds, ∀ e ∈ d.init.toList, e.All (X none env)
  | .function f => G f ∧ ∀ q ∈ f.places env, Quiet K X f q

theorem forall_quietItem_iff {G : Function → Prop} {K : Function → Env → Stmt → Prop}
    {X : Option Function → Env → Expr → Prop} {env : Env} {p : Program} :
    (∀ i ∈ p.items, QuietItem G K X env i) ↔
      (∀ f ∈ p.functions, G f ∧ ∀ q ∈ f.places env, K f q.1 q.2) ∧
        ∀ i ∈ p.items, ∀ u ∈ i.sites env, u.role ≠ .label →
          u.expr.All (X i.function? u.env) := by
  have hitem : ∀ i, QuietItem G K X env i ↔
      (∀ f, i.function? = some f → G f ∧ ∀ q ∈ f.places env, K f q.1 q.2) ∧
        ∀ u ∈ i.sites env, u.role ≠ .label → u.expr.All (X i.function? u.env) := by
    intro i
    cases i with
    | struct => exact iff_of_true trivial ⟨nofun, forall_mem_nil _⟩
    | globals ds =>
      refine ⟨fun h => ⟨nofun, fun u hu _ => ?_⟩, fun h d hd e he => ?_⟩
      · obtain ⟨d, hd, hu⟩ := mem_flatMap.mp hu
        obtain ⟨e, he, rfl⟩ := mem_map.mp hu
        exact h d hd e he
      · exact h.2 _ (mem_flatMap.mpr ⟨d, hd, mem_map_of_mem he⟩) (by simp)
    | function f =>
      refine ⟨fun h => ⟨?_, fun u hu => ?_⟩, fun h => ⟨(h.1 f rfl).1, fun q hq => ⟨?_, ?_⟩⟩⟩
      · rintro f ⟨⟩
        exact ⟨h.1, fun q hq => (h.2 q hq).1⟩
      · obtain ⟨q, hq, hu⟩ := mem_flatMap.mp hu
        exact (h.2 q hq).2 u hu
      · exact (h.1 f rfl).2 q hq
      · exact fun u hu => h.2 u (mem_flatMap.mpr ⟨q, hq, hu⟩)
  refine ⟨fun h => ⟨fun f hf => ?_, fun i hi => ((hitem i).mp (h i hi)).2⟩, fun h i hi => ?_⟩
  · obtain ⟨i, hi, hif⟩ := mem_filterMap.mp hf
    exact ((hitem i).mp (h i hi)).1 f hif
  · exact (hitem i).mpr ⟨fun f hif => h.1 f (mem_filterMap.mpr ⟨i, hi, hif⟩), h.2 i hi⟩

/-! ## Statements that become themselves -/

section Inversion

variable {R : Env → Stmt → σ → List Stmt → σ → Prop}

theorem StmtsTo.append_inv : ∀ {ss ts : List Stmt} {env : Env} {out : List Stmt} {a c : σ},
    StmtsTo R env (ss ++ ts) a out c →
      ∃ out₁ out₂ b, out = out₁ ++ out₂ ∧ StmtsTo R env ss a out₁ b ∧
        StmtsTo R (env.declareStmts out₁) ts b out₂ c
  | [], ts, env, out, a, c, h => ⟨[], out, a, rfl, .nil env a, h⟩
  | s :: ss, ts, env, out, a, c, h => by
    cases h with
    | @cons _ _ _ outs _ _ _ _ hs hrest =>
      obtain ⟨out₁, out₂, b, rfl, h1, h2⟩ := append_inv hrest
      refine ⟨outs ++ out₁, out₂, b, (append_assoc ..).symm, .cons hs h1, ?_⟩
      rw [Env.declareStmts_append]
      exact h2

theorem StmtsTo.singleton_inv {s : Stmt} {env : Env} {out : List Stmt} {a b : σ}
    (h : StmtsTo R env [s] a out b) : R env s a out b := by
  cases h with
  | cons hs hrest =>
    cases hrest with
    | nil =>
      rw [append_nil]
      exact hs

theorem CasesTo.length_eq {env : Env} {cs cs' : List Case} {a b : σ}
    (h : CasesTo R env cs a cs' b) : cs'.length = cs.length := by
  induction h with
  | nil => rfl
  | cons _ _ ih => rw [length_cons, length_cons, ih]

end Inversion

/-- What the relations of a walk must give, for a walk to leave exactly what it leaves in each part:
an expression stays exactly if it satisfies `X`, a statement exactly if it satisfies `P` at all its
places, a statement that is among its own outcome is its whole outcome, and a block stays a block. -/
structure Settling (E : Env → Expr → σ → Expr → σ → Prop)
    (R : Env → Stmt → σ → List Stmt → σ → Prop) (Inv : σ → Prop) (P : Env × Stmt → Prop)
    (X : Env → Expr → Prop) : Prop where
  expr : ∀ {env e a e' b}, E env e a e' b → Stays (Inv a) (Inv b) (e' = e) (X env e)
  inv : ∀ {env s a out b}, R env s a out b → Inv a → Inv b
  stmt : ∀ {env s a out b}, R env s a out b → Inv a → (out = [s] ↔ ∀ q ∈ s.places env, P q)
  again : ∀ {env s a out b}, R env s a out b → Inv a → s ∈ out → out = [s]
  block : ∀ {env body a out b}, R env (.block body) a out b → Inv a → ∃ body', out = [.block body']

namespace Settling

variable {E : Env → Expr → σ → Expr → σ → Prop} {R : Env → Stmt → σ → List Stmt → σ → Prop}
  {Inv : σ → Prop} {P : Env × Stmt → Prop} {X : Env → Expr → Prop} {env : Env} {s s' : Stmt}
  {ss out : List Stmt} {cs cs' : List Case} {ds ds' : List VarDecl} {a b : σ}

variable (h : Settling E R Inv P X)
include h

theorem onExprs {es es' : List Expr} (hes : ExprsTo E env es a es' b) :
    Stays (Inv a) (Inv b) (es' = es) (∀ e ∈ es, X env e) := by
  induction hes with
  | nil => exact .of_true rfl (forall_mem_nil _)
  | cons he _ ih => exact ((h.expr he).and fun _ => ih).congr cons_eq_cons forall_mem_cons

theorem onOption {o o' : Option Expr} (ho : ExprsTo E env o.toList a o'.toList b) :
    Stays (Inv a) (Inv b) (o' = o) (∀ e ∈ o.toList, X env e) :=
  (h.onExprs ho).congr ⟨congrArg _, toList_inj⟩ Iff.rfl

theorem onDecls (hds : DeclsTo E env ds a ds' b) :
    Stays (Inv a) (Inv b) (ds' = ds) (∀ d ∈ ds, ∀ e ∈ d.init.toList, X env e) := by
  induction hds with
  | nil => exact .of_true rfl (forall_mem_nil _)
  | @cons d init _ _ _ _ _ hd _ ih =>
    refine ((h.onOption hd).and fun _ => ih).congr (cons_eq_cons.trans ?_) forall_mem_cons
    exact and_congr_left' ⟨congrArg VarDecl.init, fun heq => by rw [heq]⟩

theorem invStmts (hss : StmtsTo R env ss a out b) (ha : Inv a) : Inv b := by
  induction hss with
  | nil => exact ha
  | cons hs _ ih => exact ih (h.inv hs ha)

/-- **Statements that together become themselves each become itself.** The induction is from the
right: the outcome of the last statement either ends within what is left over, or holds the
statement itself. -/
theorem onAppend :
    ∀ {out rest : List Stmt} {a b : σ}, StmtsTo R env ss a out b → Inv a → out = ss ++ rest →
      rest = [] ∧ ∀ q ∈ Stmt.placesAll env ss, P q := by
  induction ss using reverseRecOn with
  | nil =>
    intro out rest a b hss _ heq
    cases hss with
    | nil => exact ⟨heq.symm, forall_mem_nil _⟩
  | append_singleton ss s ih =>
    intro out rest a b hss ha heq
    obtain ⟨out₁, out₂, c, rfl, h1, h2⟩ := hss.append_inv
    have hlast := h2.singleton_inv
    have hc : Inv c := h.invStmts h1 ha
    rw [append_assoc] at heq
    have hboth : out₁ = ss ∧ out₂ = s :: rest := by
      rcases append_eq_append_iff.mp heq with ⟨left, hss, hout⟩ | ⟨left, hss, hout⟩
      · have hself := h.again hlast hc (by rw [hout]; simp)
        rw [hout, append_eq_singleton_iff] at hself
        obtain ⟨rfl, -⟩ | ⟨-, hnil⟩ := hself
        · exact ⟨(append_nil _).symm.trans hss.symm, hout⟩
        · exact absurd hnil (cons_ne_nil s rest)
      · obtain ⟨rfl, -⟩ := ih h1 ha hss
        exact ⟨hss.trans (append_nil _), hout.symm⟩
    obtain ⟨rfl, rfl⟩ := hboth
    have hself := h.again hlast hc mem_cons_self
    rw [placesAll_append, forall_mem_append, placesAll, placesAll, append_nil]
    exact ⟨(cons.inj hself).2, (ih h1 ha (append_nil _).symm).2, (h.stmt hlast hc).mp hself⟩

theorem onStmts (hss : StmtsTo R env ss a out b) :
    Stays (Inv a) (Inv b) (out = ss) (∀ q ∈ Stmt.placesAll env ss, P q) := by
  refine fun ha => ⟨⟨fun heq => ?_, fun hplaces => ?_⟩, fun _ => h.invStmts hss ha⟩
  · exact (h.onAppend hss ha (heq.trans (append_nil ss).symm)).2
  · induction hss with
    | nil => rfl
    | cons hs _ ih =>
      rw [placesAll, forall_mem_append] at hplaces
      obtain rfl := (h.stmt hs ha).mpr hplaces.1
      exact congrArg (_ :: ·) (ih (h.inv hs ha) hplaces.2)

theorem onOfList (hs : R env s a out b) :
    Stays (Inv a) (Inv b) (Stmt.ofList out = s) (∀ q ∈ s.places env, P q) := by
  refine fun ha => ⟨?_, fun _ => h.inv hs ha⟩
  rw [← h.stmt hs ha]
  refine ⟨fun heq => h.again hs ha ?_, fun heq => by rw [heq]; rfl⟩
  unfold ofList at heq
  split at heq
  · subst heq
    exact mem_cons_self
  · rename_i hsingle
    subst heq
    obtain ⟨body, hbody⟩ := h.block hs ha
    exact absurd hbody (hsingle _)

theorem onOpt {o : Option Stmt} {out : Option (List Stmt)} (ho : OptTo R env o a out b) :
    Stays (Inv a) (Inv b) (out.map Stmt.ofList = o) (∀ q ∈ Stmt.placesOpt env o, P q) := by
  cases ho with
  | none => exact .of_true rfl (forall_mem_nil _)
  | some hs => exact (h.onOfList hs).congr Option.some_inj Iff.rfl

theorem onStart {o : Option Stmt} {out : Option (List Stmt)} (ho : OptTo R env o a out b) :
    Stays (Inv a) (Inv b) (out.getD [] = o.toList) (∀ q ∈ Stmt.placesOpt env o, P q) := by
  cases ho with
  | none => exact .of_true rfl (forall_mem_nil _)
  | some hs => exact fun ha => ⟨h.stmt hs ha, fun _ => h.inv hs ha⟩

theorem onCases (hcs : CasesTo R env cs a cs' b) :
    Stays (Inv a) (Inv b) (cs' = cs) (∀ q ∈ Stmt.placesCases env cs, P q) := by
  induction hcs with
  | nil => exact .of_true rfl (forall_mem_nil _)
  | cons hbody _ ih =>
    refine ((h.onStmts hbody).and fun _ => ih).congr (cons_eq_cons.trans ?_) forall_mem_append
    rw [Case.mk.injEq, eq_self_iff_true, true_and]

/-- **A statement is put together again as it was exactly if all its parts stay.** -/
theorem onNode (result : ShaderType) {before : List Stmt} (hnode : NodeTo E R env s a s' before b) :
    Stays (Inv a) (Inv b) (s' = s ∧ before = [])
      ((∀ u ∈ s.sites result env, u.role ≠ .label → X u.env u.expr) ∧
        ∀ q ∈ (s.places env).tail, P q) := by
  cases hnode with
  | block hbody => exact (h.onStmts hbody).congr (by simp) (by simp [sites, places])
  | ifElse ht hf hc =>
    refine ((h.onOfList ht).and fun _ => (h.onOpt hf).and fun _ => h.expr hc).congr ?_ ?_
    · simp [and_comm, and_assoc]
    · simp only [sites, places, forall_mem_singleton, forall_mem_append, tail_cons, ne_eq,
        reduceCtorEq, not_false_eq_true, forall_const]
      tauto
  | @forLoop start first _ _ _ _ _ _ _ _ _ _ _ hst hbody hc hstep =>
    have hfirst : ((first.getD []).getLast? = start ∧ (first.getD []).dropLast = []) ↔
        first.getD [] = start.toList := by
      constructor
      · rintro ⟨hlast, hdrop⟩
        cases start with
        | none => exact getLast?_eq_none_iff.mp hlast
        | some s => rw [← dropLast_append_getLast? s hlast, hdrop]; rfl
      · intro heq
        rw [heq]
        cases start <;> exact ⟨rfl, rfl⟩
    have hparts := (h.onStart hst).and fun heq => by
      rw [heq] at hbody hc hstep
      exact (h.onOfList hbody).and fun _ => (h.onOption hc).and fun _ => h.onOption hstep
    refine hparts.congr ?_ ?_
    · rw [← hfirst, forLoop.injEq]
      tauto
    · simp only [sites, places, forall_mem_map, forall_mem_append, tail_cons, ne_eq, reduceCtorEq,
        not_false_eq_true, forall_const]
      tauto
  | whileLoop hbody hc =>
    refine ((h.onOfList hbody).and fun _ => h.expr hc).congr ?_ ?_
    · simp [and_comm]
    · simp [sites, places, and_comm]
  | doWhile hbody hc =>
    refine ((h.onOfList hbody).and fun _ => h.expr hc).congr ?_ ?_
    · simp
    · simp [sites, places, and_comm]
  | loop hbody hcont hbreak =>
    have hparts := (h.onStmts hbody).and fun heq => by
      rw [heq] at hcont hbreak
      exact (h.onStmts hcont).and fun heq => by
        rw [heq] at hbreak
        exact h.onOption hbreak
    refine hparts.congr (by simp) ?_
    simp only [sites, places, forall_mem_map, forall_mem_append, tail_cons, ne_eq, reduceCtorEq,
      not_false_eq_true, forall_const]
    tauto
  | switch hcs hsel =>
    refine ((h.onCases hcs).and fun _ => h.expr hsel).congr ?_ ?_
    · simp [and_comm]
    · simp only [sites, places, forall_mem_cons, forall_mem_map, tail_cons]
      simp [and_comm]
  | decl hds =>
    refine (h.onDecls hds).congr (by simp) ⟨fun hu d hd e he => ?_, fun hx => ?_⟩
    · exact hu.1 _ (mem_flatMap.mpr ⟨d, hd, mem_map_of_mem he⟩) (by simp)
    · refine ⟨fun u hu _ => ?_, forall_mem_nil _⟩
      obtain ⟨d, hd, hu⟩ := mem_flatMap.mp hu
      obtain ⟨e, he, rfl⟩ := mem_map.mp hu
      exact hx d hd e he
  | expr he => exact (h.expr he).congr (by simp) (by simp [sites, places])
  | ret he => exact (h.onOption he).congr (by simp) (by simp [sites, places])
  | breakOut | continueOn | discard | empty =>
    exact .of_true ⟨rfl, rfl⟩ ⟨forall_mem_nil _, forall_mem_nil _⟩

end Settling

/-! ## Programs that become themselves -/

/-- The walker leaves of a program exactly what it leaves in each part. -/
structure Settles (w : Walker σ) (Inv : Option Function → σ → Prop) (G : Function → Prop)
    (K : Function → Env → Stmt → Prop) (X : Option Function → Env → Expr → Prop)
    (E : Env → Expr → σ → Expr → σ → Prop) (R : Env → Stmt → σ → List Stmt → σ → Prop) :
    Prop where
  establishes : w.Establishes E R
  init : ∀ {env e a e' b}, E env e a e' b →
    Stays (Inv none a) (Inv none b) (e' = e) (e.All (X none env))
  global : ∀ env d a, w.global env d a = (d, a)
  body : ∀ f, Settling E R (Inv (some f)) (Quiet K X f) fun env e => e.All (X (some f) env)
  enter : ∀ env f a, G f → Inv none a →
    (w.enter env f a).1.body = f.body ∧ Inv (some f) (w.enter env f a).2
  leave : ∀ env f g a, Inv (some f) a → Inv none (w.leave env g a).2
  function : ∀ env f a body c,
    (w.leave env { (w.enter env f a).1 with body := body } c).1 = f ↔ G f ∧ body = f.body

namespace Settles

variable {w : Walker σ} {Inv : Option Function → σ → Prop} {G : Function → Prop}
  {K : Function → Env → Stmt → Prop} {X : Option Function → Env → Expr → Prop}
  {E : Env → Expr → σ → Expr → σ → Prop} {R : Env → Stmt → σ → List Stmt → σ → Prop}
  {env : Env} {a b : σ}

theorem onGlobals (h : w.Settles Inv G K X E R) {ds ds' : List VarDecl}
    (hds : GlobalsTo w E env ds a ds' b) :
    Stays (Inv none a) (Inv none b) (ds' = ds) (∀ d ∈ ds, ∀ e ∈ d.init.toList, e.All (X none env)) := by
  have hinits : ∀ {ds ds' a b}, GlobalsTo w E env ds a ds' b → DeclsTo E env ds a ds' b := by
    intro ds ds' a b hds
    induction hds with
    | nil => exact .nil _
    | cons hd _ ih =>
      rw [h.global] at ih ⊢
      exact .cons hd ih
  have hset : Settling E (fun _ _ _ _ _ => False) (Inv none) (fun _ => True)
      fun env e => e.All (X none env) := ⟨h.init, nofun, nofun, nofun, nofun⟩
  exact hset.onDecls (hinits hds)

theorem onItem (h : w.Settles Inv G K X E R) {i j : Item} (hi : ItemTo w E R env i a j b) :
    Stays (Inv none a) (Inv none b) (j = i) (QuietItem G K X env i) := by
  cases hi with
  | struct => exact .of_true rfl trivial
  | globals hds => exact (h.onGlobals hds).congr (Item.globals.injEq .. ▸ Iff.rfl) Iff.rfl
  | @function f g _ body _ _ c hinner henter hbody =>
    subst hinner
    obtain rfl : (w.enter (env.push.declareParams f.params) f _).1 = g := congrArg Prod.fst henter
    obtain rfl := (congrArg Prod.snd henter : (w.enter _ f _).2 = _)
    intro ha
    have hparts : Stays (Inv none a) (Inv (some f) c) (G f ∧ body = f.body) (QuietItem G K X env (.function f)) :=
      Stays.and (J := G f ∧ Inv (some f) _) (fun ha => ⟨Iff.rfl, fun hG => ⟨hG, (h.enter _ f _ hG ha).2⟩⟩)
        fun hG hb => by
          rw [(h.enter _ f _ hG ha).1] at hbody
          exact (h.body f).onStmts hbody hb.2
    obtain ⟨hiff, hc⟩ := hparts ha
    rw [Item.function.injEq, h.function]
    exact ⟨hiff, fun hf => h.leave _ f _ c (hc hf)⟩

/-- **A walk leaves a program as it is exactly if it leaves everything on its way.** -/
theorem walk_eq_self_iff (h : w.Settles Inv G K X E R) {p : Program} (ha : Inv none a) :
    (w.walk env p a).1 = p ↔
      (∀ f ∈ p.functions, G f ∧ ∀ q ∈ f.places env, K f q.1 q.2) ∧
        ∀ i ∈ p.items, ∀ u ∈ i.sites env, u.role ≠ .label →
          u.expr.All (X i.function? u.env) := by
  have hitems : ∀ {is js a b}, ItemsTo w E R env is a js b →
      Stays (Inv none a) (Inv none b) (js = is) (∀ i ∈ is, QuietItem G K X env i) := by
    intro is js a b hi
    induction hi with
    | nil => exact .of_true rfl (forall_mem_nil _)
    | cons hi _ ih => exact ((h.onItem hi).and fun _ => ih).congr cons_eq_cons forall_mem_cons
  have hwalk := (hitems (h.establishes.onItems env p.items a) ha).1
  exact Iff.trans ⟨congrArg Program.items, congrArg Program.mk⟩ (hwalk.trans forall_quietItem_iff)

end Settles

/-! ## Walkers that change statements only -/

section Statements

variable {g : Env → Stmt → StateM σ (List Stmt)} {K : Env → Stmt → Prop}
  {Extra : Env → Stmt → σ → List Stmt → σ → Prop} {env : Env}

/-- An expression that the walk does not touch. -/
def Same (_ : Env) (e : Expr) (_ : σ) (e' : Expr) (_ : σ) : Prop :=
  e' = e

theorem ExprsTo.eq_of_same {es es' : List Expr} {a b : σ} (h : ExprsTo Same env es a es' b) :
    es' = es := by
  induction h with
  | nil => rfl
  | cons he _ ih => rw [ih, show _ = _ from he]

theorem DeclsTo.eq_of_same {ds ds' : List VarDecl} {a b : σ} (h : DeclsTo Same env ds a ds' b) :
    ds' = ds := by
  induction h with
  | nil => rfl
  | cons hd _ ih => rw [ih, toList_inj hd.eq_of_same]

variable (K Extra) in
/-- What a walk that settles makes of a statement, along with `Extra`. -/
structure StmtSettles (env : Env) (s : Stmt) (a : σ) (out : List Stmt) (b : σ) : Prop where
  extra : Extra env s a out b
  again : s ∈ out → out = [s]
  stays : out = [s] ↔ ∀ q ∈ s.places env, K q.1 q.2
  block : ∀ body, s = .block body → ∃ body', out = [.block body']

variable (g K Extra) in
/-- A walker of statements that settles: it leaves a statement at which `K` holds, a statement that
is among its own outcome has been put together again as it was, and then satisfies `K`. -/
structure Stepwise : Prop where
  leaves : ∀ env s a, K env s → (g env s a).1 = [s]
  block : ∀ env body a, (g env (.block body) a).1 = [.block body]
  extra : ∀ {env s a s' before b}, NodeTo Same (StmtSettles K Extra) env s a s' before b →
    Extra env s a (finish before (g env s' b).1) (g env s' b).2
  again : ∀ {env s a s' before b}, NodeTo Same (StmtSettles K Extra) env s a s' before b →
    s ∈ finish before (g env s' b).1 → s' = s ∧ before = []
  still : ∀ {env s a}, s ∈ (g env s a).1 → K env s

theorem NodeTo.eq_of_mem {R : Env → Stmt → σ → List Stmt → σ → Prop} {s s' : Stmt}
    {before : List Stmt} {a b : σ} (h : NodeTo Same R env s a s' before b)
    (hmem : s ∈ finish before [s']) : s' = s ∧ before = [] := by
  unfold finish at hmem
  split at hmem
  · grind
  · rename_i hbefore
    obtain rfl := mem_singleton.mp hmem
    cases h
    exact absurd rfl hbefore

namespace Stepwise

theorem settling (K : Env → Stmt → Prop) (Extra : Env → Stmt → σ → List Stmt → σ → Prop) :
    Settling (σ := σ) Same (StmtSettles K Extra) (fun _ => True) (fun q => K q.1 q.2)
      (fun _ _ => True) where
  expr := fun h _ => ⟨iff_true_intro h, fun _ => trivial⟩
  inv := fun _ _ => trivial
  stmt := fun h _ => h.stays
  again := fun h _ => h.again
  block := fun h _ => h.block _ rfl

theorem establishes (h : Stepwise g K Extra) :
    Walker.Establishes { stmt := g : Walker σ } Same (StmtSettles K Extra) where
  expr := fun env e a es b hes => by
    rw [hes.eq_of_same, Expr.withChildren_children]
    rfl
  stmt := fun env s a s' before b hs => by
    have hparts := ((settling K Extra).onNode .void hs trivial).1
    have hself : s ∈ finish before (g env s' b).1 → finish before (g env s' b).1 = [s] ∧
        ∀ q ∈ s.places env, K q.1 q.2 := fun hmem => by
      obtain ⟨rfl, rfl⟩ := h.again hs hmem
      have hK : K env s' := h.still hmem
      refine ⟨h.leaves env s' b hK, ?_⟩
      grind [places_eq_cons]
    refine ⟨h.extra hs, fun hmem => (hself hmem).1, ⟨fun heq => ?_, fun hplaces => ?_⟩, ?_⟩
    · exact (hself (heq ▸ mem_cons_self)).2
    · rw [places_eq_cons, forall_mem_cons] at hplaces
      obtain ⟨rfl, rfl⟩ := hparts.mpr ⟨fun _ _ _ => trivial, hplaces.2⟩
      exact h.leaves env s' b hplaces.1
    · rintro body rfl
      cases hs with
      | block => exact ⟨_, h.block env _ b⟩

/-- **The walk leaves a program as it is exactly if each of its statements satisfies `K`.** -/
theorem walk_eq_self_iff (h : Stepwise g K Extra) (env : Env) (p : Program) (a : σ) :
    (({ stmt := g } : Walker σ).walk env p a).1 = p ↔ ∀ q ∈ p.places env, K q.1 q.2 := by
  have hsettles : Walker.Settles { stmt := g : Walker σ } (fun _ _ => True) (fun _ => True)
      (fun _ => K) (fun _ _ _ => True) Same (StmtSettles K Extra) := {
    establishes := h.establishes
    init := fun h _ => ⟨iff_of_true h fun _ _ => trivial, fun _ => trivial⟩
    global := fun _ _ _ => rfl
    body := fun f => {
      expr := fun h _ => ⟨iff_of_true h fun _ _ => trivial, fun _ => trivial⟩
      inv := fun _ _ => trivial
      stmt := fun hs _ => hs.stays.trans (by simp [Quiet, Expr.All])
      again := fun hs _ => hs.again
      block := fun hs _ => hs.block _ rfl }
    enter := fun _ _ _ _ _ => ⟨rfl, trivial⟩
    leave := fun _ _ _ _ _ => trivial
    function := fun _ f _ body _ =>
      ⟨fun heq => ⟨trivial, congrArg Function.body heq⟩, fun heq => by cases f; cases heq.2; rfl⟩ }
  rw [hsettles.walk_eq_self_iff trivial]
  refine ⟨fun h q hq => ?_, fun h => ⟨fun f hf => ⟨trivial, fun q hq => ?_⟩, ?_⟩⟩
  · obtain ⟨f, hf, hq⟩ := mem_flatMap.mp hq
    exact (h.1 f hf).2 q hq
  · exact h q (mem_flatMap.mpr ⟨f, hf, hq⟩)
  · exact fun _ _ _ _ _ _ _ => trivial

end Stepwise

end Statements

end ShaderEffect.Walker
