import ShaderEffect.Proofs.Visit
import ShaderEffect.Typing.Infer

/-!
# Environments that cannot be told apart

Two environments are alike if they have the same declarations and the host gives each name the same
type, in whatever order it lists them. Declarations keep them alike. Environments in which each name
has the same type, with the same functions and structures, give every expression the same type
(`Env.SameTypes.typeOf`); those that are alike are such, and so are those that group the same
declarations into scopes in another way (`Env.Regrouped`).

**Walkers that do the same in environments that are alike give the same outcome and the same state
for a whole program** (`Walker.Agree.walk_eq`).

Two walkers that change nodes only need not agree everywhere: it is enough that they do the same at
the nodes that a program has (`Walker.walk_ofNodes_congr`).
-/

namespace ShaderEffect

open List Expr

namespace Env

/-- Each name has the same type, and the functions and structures are the same. -/
structure SameTypes (x y : Env) : Prop where
  lookup : ∀ name, x.lookup name = y.lookup name
  functions : x.functions = y.functions
  structs : x.structs = y.structs

namespace SameTypes

variable {x y : Env}

theorem candidates (h : SameTypes x y) : x.candidates = y.candidates := by
  funext name count
  rw [Env.candidates, Env.signatures, h.functions, Env.candidates, Env.signatures]

theorem callType (h : SameTypes x y) (name : String) (args : List (Option ShaderType)) :
    x.callType name args = y.callType name args := by
  rw [Env.callType, h.candidates, Env.callType]

theorem fieldType (h : SameTypes x y) (name : String) : x.fieldType name = y.fieldType name := by
  funext type
  cases type with
  | struct struct => rw [Env.fieldType, Env.member?, h.structs, Env.fieldType, Env.member?]
  | _ => rfl

theorem typesOf_of {es : List Expr} (h : ∀ e ∈ es, x.typeOf e = y.typeOf e) :
    x.typesOf es = y.typesOf es := by
  induction es with
  | nil => rfl
  | cons e es ih =>
    rw [forall_mem_cons] at h
    rw [Env.typesOf, h.1, ih h.2, Env.typesOf]

theorem typeOf (h : SameTypes x y) (e : Expr) : x.typeOf e = y.typeOf e := by
  induction e using byChildren with
  | node e ih =>
    cases e with
    | int | float | bool | construct => rfl
    | ident name => exact h.lookup name
    | unary _ operand | deref operand | addrOf operand =>
      rw [Env.typeOf, ih operand (by simp [children]), Env.typeOf]
    | assign _ target _ | index target _ =>
      rw [Env.typeOf, ih target (by simp [children]), Env.typeOf]
    | binary op lhs rhs =>
      grind [Env.typeOf, children]
    | conditional _ whenTrue whenFalse =>
      grind [Env.typeOf, children]
    | field base name =>
      rw [Env.typeOf, ih base (by simp [children]), h.fieldType, Env.typeOf]
    | call name args =>
      have hargs : x.typesOf args = y.typesOf args := typesOf_of ih
      rw [Env.typeOf, hargs, h.callType, Env.typeOf]
    | comma items =>
      have hitems : x.typesOf items = y.typesOf items := typesOf_of ih
      rw [Env.typeOf, hitems, Env.typeOf]

theorem typesOf (h : SameTypes x y) (es : List Expr) : x.typesOf es = y.typesOf es :=
  typesOf_of fun e _ => h.typeOf e

end SameTypes

/-- The same declarations, and the same type of each name of the host. -/
structure Alike (x y : Env) : Prop where
  scopes : x.scopes = y.scopes
  functions : x.functions = y.functions
  structs : x.structs = y.structs
  host : ∀ name, x.host.lookup name = y.host.lookup name

namespace Alike

variable {x y : Env}

/-! ## Declarations -/

theorem push (h : Alike x y) : Alike x.push y.push :=
  ⟨congrArg ([] :: ·) h.scopes, h.functions, h.structs, h.host⟩

theorem declare (h : Alike x y) (name : String) (type : ShaderType) :
    Alike (x.declare name type) (y.declare name type) := by
  unfold Env.declare
  rw [h.scopes]
  split
  · exact ⟨rfl, h.functions, h.structs, h.host⟩
  · exact h

theorem persists : Persists Alike :=
  ⟨push, fun name type h => h.declare name type⟩

theorem declareAll (h : Alike x y) (decls : List VarDecl) :
    Alike (x.declareAll decls) (y.declareAll decls) :=
  persists.declareAll decls h

theorem declareParams (h : Alike x y) (params : List Param) :
    Alike (x.declareParams params) (y.declareParams params) :=
  persists.declareParams params h

theorem declareStmts (h : Alike x y) (ss : List Stmt) :
    Alike (x.declareStmts ss) (y.declareStmts ss) :=
  persists.declareStmts ss h

theorem declareStruct (h : Alike x y) (name : String) (members : List Member) :
    Alike (x.declareStruct name members) (y.declareStruct name members) :=
  ⟨h.scopes, h.functions, congrArg ((name, members) :: ·) h.structs, h.host⟩

theorem declareFunction (h : Alike x y) (f : Function) :
    Alike (x.declareFunction f) (y.declareFunction f) :=
  ⟨h.scopes, congrArg (· ++ _) h.functions, h.structs, h.host⟩

theorem ofProgram (p : Program) {host host' : Scope}
    (h : ∀ name, host.lookup name = host'.lookup name) :
    Alike (Env.ofProgram p host) (Env.ofProgram p host') := by
  refine Persists.foldl (fun i h => ?_) p.items ⟨rfl, rfl, rfl, h⟩
  cases i with
  | struct d => exact h.declareStruct d.name d.members
  | globals decls => exact h.declareAll decls
  | function f => exact h.declareFunction f

/-! ## What is known of names and expressions -/

variable (h : Alike x y)
include h

theorem depth? : x.depth? = y.depth? := by
  funext name
  rw [Env.depth?, h.scopes, Env.depth?]

theorem isDeclared : x.isDeclared = y.isDeclared := by
  funext name
  rw [Env.isDeclared, h.depth?, Env.isDeclared]

theorem isLocal : x.isLocal = y.isLocal := by
  funext name
  rw [Env.isLocal, h.depth?, Env.isLocal]

theorem isUserFunction : x.isUserFunction = y.isUserFunction := by
  funext name
  rw [Env.isUserFunction, h.functions, Env.isUserFunction]

theorem lookup (name : String) : x.lookup name = y.lookup name := by
  rw [Env.lookup, h.scopes, h.host, Env.lookup]

theorem sameTypes : SameTypes x y :=
  ⟨h.lookup, h.functions, h.structs⟩

theorem candidates : x.candidates = y.candidates :=
  h.sameTypes.candidates

theorem typeOf (e : Expr) : x.typeOf e = y.typeOf e :=
  h.sameTypes.typeOf e

theorem typesOf (es : List Expr) : x.typesOf es = y.typesOf es :=
  h.sameTypes.typesOf es

end Alike

/-! ## Scopes -/

/-- The same declarations from the innermost outwards, however they are grouped into scopes. -/
structure Regrouped (x y : Env) : Prop where
  names : x.scopes.flatten = y.scopes.flatten
  left : x.scopes ≠ []
  right : y.scopes ≠ []
  host : x.host = y.host
  functions : x.functions = y.functions
  structs : x.structs = y.structs

namespace Regrouped

variable {x y : Env}

theorem refl (h : x.scopes ≠ []) : Regrouped x x :=
  ⟨rfl, h, h, rfl, rfl, rfl⟩

theorem pushLeft (h : Regrouped x y) : Regrouped x.push y :=
  ⟨h.names, cons_ne_nil _ _, h.right, h.host, h.functions, h.structs⟩

theorem pushRight (h : Regrouped x y) : Regrouped x y.push :=
  ⟨h.names, h.left, cons_ne_nil _ _, h.host, h.functions, h.structs⟩

theorem push (h : Regrouped x y) : Regrouped x.push y.push :=
  h.pushLeft.pushRight

theorem declare (h : Regrouped x y) (name : String) (type : ShaderType) :
    Regrouped (x.declare name type) (y.declare name type) := by
  obtain ⟨hnames, hleft, hright, hhost, hfunctions, hstructs⟩ := h
  unfold Env.declare
  split
  · rename_i s ss hx
    split
    · rename_i t ts hy
      rw [hx, hy, flatten_cons, flatten_cons] at hnames
      exact ⟨congrArg ((name, type) :: ·) hnames, cons_ne_nil _ _, cons_ne_nil _ _, hhost,
        hfunctions, hstructs⟩
    · rename_i hy
      exact absurd hy hright
  · rename_i hx
    exact absurd hx hleft

theorem persists : Persists Regrouped :=
  ⟨push, fun name type h => h.declare name type⟩

theorem declareStmts (ss : List Stmt) (h : Regrouped x y) :
    Regrouped (x.declareStmts ss) (y.declareStmts ss) :=
  persists.declareStmts ss h

theorem lookup_flatten (name : String) : ∀ scopes : List Scope,
    scopes.findSome? (fun s => s.lookup name) = scopes.flatten.lookup name
  | [] => rfl
  | s :: scopes => by
    rw [findSome?_cons, flatten_cons, lookup_append, lookup_flatten name scopes]
    cases s.lookup name <;> rfl

theorem sameTypes (h : Regrouped x y) : SameTypes x y where
  lookup := fun name => by
    rw [Env.lookup, Env.lookup, lookup_flatten, lookup_flatten, h.names, h.host]
  functions := h.functions
  structs := h.structs

end Regrouped

end Env

/-! ## Walks -/

namespace Walker

open Env

variable {σ : Type}

/-- The walkers do the same in environments that are alike. -/
structure Agree (w w' : Walker σ) : Prop where
  enter : ∀ {x y : Env}, Alike x y → w.enter x = w'.enter y
  leave : ∀ {x y : Env}, Alike x y → w.leave x = w'.leave y
  expr : ∀ {x y : Env}, Alike x y → w.expr x = w'.expr y
  stmt : ∀ {x y : Env}, Alike x y → w.stmt x = w'.stmt y
  global : ∀ {x y : Env}, Alike x y → w.global x = w'.global y

namespace Agree

variable {w w' : Walker σ} {x y : Env}

theorem ofExpr {f g : Env → Expr → StateM σ Expr} (h : ∀ {x y : Env}, Alike x y → f x = g y) :
    Agree { expr := f : Walker σ } { expr := g } :=
  ⟨fun _ => rfl, fun _ => rfl, h, fun _ => rfl, fun _ => rfl⟩

theorem ofStmt {f g : Env → Stmt → StateM σ (List Stmt)}
    (h : ∀ {x y : Env}, Alike x y → f x = g y) :
    Agree { stmt := f : Walker σ } { stmt := g } :=
  ⟨fun _ => rfl, fun _ => rfl, fun _ => rfl, h, fun _ => rfl⟩

theorem mirrors (h : Agree w w') : w.Mirrors w' id (fun _ => Alike) fun _ _ => True where
  push := Alike.push
  params := fun ps hxy => hxy.declareParams ps
  after := fun _ _ hxy => hxy.declareStmts _
  expr := fun _ _ hxy _ _ => by rw [h.expr hxy]; rfl
  stmt := fun _ hxy _ => by rw [h.stmt hxy]; rfl
  global := fun _ hxy _ => by rw [h.global hxy]; rfl
  enter := fun _ hxy _ => by rw [h.enter hxy]; rfl
  body := fun _ _ _ _ _ _ _ _ _ _ _ => trivial
  leave := fun _ hxy _ => by rw [h.leave hxy]; rfl

/-- **Walkers that agree do the same to a program, in environments that are alike.** -/
theorem walk_eq (h : Agree w w') (hxy : Alike x y) (p : Program) : w.walk x p = w'.walk y p :=
  funext fun a => (h.mirrors.walk (z := x) (fun _ _ _ _ _ => trivial) hxy a).symm

end Agree

/-! ## Walks that change nodes only -/

/-- The walker that changes nodes and leaves all else. -/
abbrev ofNodes (f : Env → Expr → StateM σ Expr) : Walker σ := { expr := f }

theorem declareStmts_walkStmt (f : Env → Expr → StateM σ Expr) (env other : Env) (s : Stmt) (a : σ) :
    other.declareStmts ((ofNodes f).walkStmt env s a).1 = other.declareStmt s := by
  cases s with
  | decl ds =>
    rw [Walker.walkStmt]
    show other.declareAll ((ofNodes f).walkDecls env ds a).1 = other.declareAll ds
    induction ds generalizing other a with
    | nil => rfl
    | cons d ds ih => exact ih _ _
  | forLoop start cond step body =>
    rw [walkStmt_forLoop]
    dsimp only
    unfold finish
    split <;> rfl
  | _ =>
    rw [Walker.walkStmt]
    rfl

/-- **Changes of nodes that agree on the nodes of a program do the same to it.** -/
theorem walk_ofNodes_congr {f g : Env → Expr → StateM σ Expr} {X : Env → Expr → Prop}
    (h : ∀ env e a, X env e →
      f env (e.withChildren ((ofNodes f).walkExprs env e.children a).1) =
        g env (e.withChildren ((ofNodes f).walkExprs env e.children a).1))
    {env : Env} {p : Program} (hp : p.EachNode env X) (a : σ) :
    (ofNodes f).walk env p a = (ofNodes g).walk env p a := by
  have hmirrors : (ofNodes f).Mirrors (ofNodes g) id (fun z x y => x = z ∧ y = z) X := {
    push := fun h => ⟨congrArg _ h.1, congrArg _ h.2⟩
    params := fun ps h => ⟨congrArg (Env.declareParams · ps) h.1, congrArg (Env.declareParams · ps) h.2⟩
    after := fun s a h => by
      grind [declareStmts_walkStmt]
    expr := fun e a hxy hX b => by
      obtain ⟨rfl, rfl⟩ := hxy
      exact (congrFun (h _ e a hX) b).symm
    stmt := fun _ _ _ => rfl
    global := fun _ _ _ => rfl
    enter := fun _ _ _ => rfl
    body := fun _ _ _ => id
    leave := fun _ _ _ => rfl }
  exact (hmirrors.walk hp ⟨rfl, rfl⟩ a).symm

end Walker

end ShaderEffect
