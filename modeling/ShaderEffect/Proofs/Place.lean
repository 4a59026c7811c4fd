import ShaderEffect.Proofs.Tree
import ShaderEffect.Typing.Env

/-!
# Places of a program

What a name means depends on where it stands. `Stmt.places` lists a statement and all statements
inside it, each with what is declared where it starts, in the way in which a walk meets them, and
`Stmt.sites` the expressions of one statement, each with what is declared where it is evaluated and
with the role that it plays there. `Program.places` and `Program.sites` collect them for a whole
program, so that a condition on a program can be stated at each of its statements and expressions.
-/

namespace ShaderEffect

open List

namespace Env

@[simp] theorem declareStmts_nil (env : Env) : env.declareStmts [] = env := rfl

@[simp] theorem declareStmts_cons (env : Env) (s : Stmt) (ss : List Stmt) :
    env.declareStmts (s :: ss) = (env.declareStmt s).declareStmts ss := rfl

theorem declareStmts_append (env : Env) (ss ts : List Stmt) :
    env.declareStmts (ss ++ ts) = (env.declareStmts ss).declareStmts ts :=
  foldl_append

end Env

/-- What an expression is to its statement: a value, a value of a type that is wanted there, or the
value of a case label, which is not evaluated. -/
inductive Role where
  | operand
  | wanted (type : ShaderType)
  | label

structure Site where
  /-- What is declared where the expression is evaluated. -/
  env : Env
  /-- What is declared where its statement starts. -/
  around : Env
  role : Role
  expr : Expr

namespace VarDecl

def sites (env : Env) (d : VarDecl) : List Site :=
  d.init.toList.map fun e => ⟨env, env, .wanted d.type, e⟩

end VarDecl

namespace Stmt

/-- The expressions that a statement holds itself, in a function with the given result. The header
of a `for` loop sees what its first part declares, and the condition of a `loop` what the statements
before it declare. -/
def sites (result : ShaderType) (env : Env) : Stmt → List Site
  | .decl decls => decls.flatMap (VarDecl.sites env)
  | .expr e => [⟨env, env, .operand, e⟩]
  | .ifElse cond _ _ => [⟨env, env, .operand, cond⟩]
  | .whileLoop cond _ => [⟨env, env, .operand, cond⟩]
  | .doWhile _ cond => [⟨env, env, .operand, cond⟩]
  | .forLoop start cond step _ =>
    (cond.toList ++ step.toList).map fun e =>
      ⟨env.push.declareStmts start.toList, env, .operand, e⟩
  | .loop body continuing breakIf =>
    breakIf.toList.map fun e =>
      ⟨(env.push.declareStmts body).declareStmts continuing, env, .operand, e⟩
  | .switch selector cases =>
    ⟨env, env, .operand, selector⟩ ::
      (cases.flatMap fun c => c.labels.filterMap CaseLabel.value?).map fun e =>
        ⟨env, env, .label, e⟩
  | .ret value => value.toList.map fun e => ⟨env, env, .wanted result, e⟩
  | .block _ | .breakOut | .continueOn | .discard | .empty => []

mutual

/-- The statement and every statement inside it, with what is declared where each starts. -/
def places (env : Env) : Stmt → List (Env × Stmt)
  | .block body => (env, .block body) :: placesAll env.push body
  | .ifElse cond whenTrue whenFalse =>
    (env, .ifElse cond whenTrue whenFalse) ::
      (places env whenTrue ++ placesOpt env whenFalse)
  | .forLoop start cond step body =>
    (env, .forLoop start cond step body) ::
      (placesOpt env.push start ++ places (env.push.declareStmts start.toList) body)
  | .whileLoop cond body => (env, .whileLoop cond body) :: places env body
  | .doWhile body cond => (env, .doWhile body cond) :: places env body
  | .loop body continuing breakIf =>
    (env, .loop body continuing breakIf) ::
      (placesAll env.push body ++ placesAll (env.push.declareStmts body) continuing)
  | .switch selector cases => (env, .switch selector cases) :: placesCases env cases
  | .decl decls => [(env, .decl decls)]
  | .expr e => [(env, .expr e)]
  | .ret value => [(env, .ret value)]
  | .breakOut => [(env, .breakOut)]
  | .continueOn => [(env, .continueOn)]
  | .discard => [(env, .discard)]
  | .empty => [(env, .empty)]

/-- The places of statements in order, where each sees what those before it declare. -/
def placesAll (env : Env) : List Stmt → List (Env × Stmt)
  | [] => []
  | s :: ss => places env s ++ placesAll (env.declareStmt s) ss

def placesOpt (env : Env) : Option Stmt → List (Env × Stmt)
  | none => []
  | some s => places env s

/-- The places inside the branches of a `switch`. -/
def placesCases (env : Env) : List Case → List (Env × Stmt)
  | [] => []
  | .mk _ body :: cases => placesAll env.push body ++ placesCases env cases

end

theorem places_eq_cons (env : Env) (s : Stmt) : s.places env = (env, s) :: (s.places env).tail := by
  cases s <;> rfl

theorem placesAll_append (env : Env) : ∀ ss ts : List Stmt,
    placesAll env (ss ++ ts) = placesAll env ss ++ placesAll (env.declareStmts ss) ts
  | [], ts => rfl
  | s :: ss, ts => by
    rw [cons_append, placesAll, placesAll_append (env.declareStmt s) ss ts, placesAll,
      append_assoc, Env.declareStmts_cons]

mutual

theorem map_snd_places (env : Env) : ∀ s : Stmt, (s.places env).map Prod.snd = s.substmts
  | .block body => by rw [places, substmts, map_cons, map_snd_placesAll env.push body]
  | .ifElse cond t f => by
    rw [places, substmts, map_cons, map_append, map_snd_places env t,
      map_snd_placesOpt env f]
  | .forLoop start cond step body => by
    rw [places, substmts, map_cons, map_append, map_snd_placesOpt env.push start,
      map_snd_places _ body]
  | .whileLoop cond body => by rw [places, substmts, map_cons, map_snd_places env body]
  | .doWhile body cond => by rw [places, substmts, map_cons, map_snd_places env body]
  | .loop body continuing breakIf => by
    rw [places, substmts, map_cons, map_append, map_snd_placesAll env.push body,
      map_snd_placesAll _ continuing]
  | .switch selector cases => by
    rw [places, substmts, map_cons, map_snd_placesCases env cases]
  | .decl _ | .expr _ | .ret _ | .breakOut | .continueOn | .discard | .empty => rfl

theorem map_snd_placesAll (env : Env) :
    ∀ ss : List Stmt, (placesAll env ss).map Prod.snd = substmtsAll ss
  | [] => rfl
  | s :: ss => by
    rw [placesAll, substmtsAll, map_append, map_snd_places env s,
      map_snd_placesAll (env.declareStmt s) ss]

theorem map_snd_placesOpt (env : Env) :
    ∀ o : Option Stmt, (placesOpt env o).map Prod.snd = substmtsOpt o
  | none => rfl
  | some s => map_snd_places env s

theorem map_snd_placesCases (env : Env) :
    ∀ cs : List Case, (placesCases env cs).map Prod.snd = substmtsCases cs
  | [] => rfl
  | .mk labels body :: cs => by
    rw [placesCases, substmtsCases, map_append, map_snd_placesAll env.push body,
      map_snd_placesCases env cs]

end

theorem exists_mem_substmts {env : Env} {ss : List Stmt} {q : Env × Stmt}
    (hq : q ∈ placesAll env ss) : ∃ s ∈ ss, q.2 ∈ s.substmts := by
  grind [mem_map_of_mem, map_snd_placesAll, substmtsAll_eq_flatMap]

end Stmt

namespace Env

/-- A relation of environments that stays when the same is declared in both. -/
structure Persists (ρ : Env → Env → Prop) : Prop where
  push : ∀ {x y : Env}, ρ x y → ρ x.push y.push
  declare : ∀ {x y : Env} (name : String) (type : ShaderType), ρ x y →
    ρ (x.declare name type) (y.declare name type)

/-- The same statement, in environments that are related. -/
def SamePlace (ρ : Env → Env → Prop) (q r : Env × Stmt) : Prop :=
  ρ q.1 r.1 ∧ q.2 = r.2

/-- The same expression in the same role, in environments that are related. -/
def SameSite (ρ : Env → Env → Prop) (u v : Site) : Prop :=
  ρ u.env v.env ∧ u.role = v.role ∧ u.expr = v.expr

namespace Persists

variable {ρ : Env → Env → Prop} {x y : Env}

theorem foldl {α : Type} {f : Env → α → Env}
    (hf : ∀ {x y : Env} (a : α), ρ x y → ρ (f x a) (f y a)) :
    ∀ (as : List α) {x y : Env}, ρ x y → ρ (as.foldl f x) (as.foldl f y)
  | [], _, _, h => h
  | a :: as, _, _, h => foldl hf as (hf a h)

section

variable (hρ : Persists ρ)
include hρ

theorem declareAll (decls : List VarDecl) (h : ρ x y) :
    ρ (x.declareAll decls) (y.declareAll decls) :=
  foldl (fun d => hρ.declare d.name d.type) decls h

theorem declareParams (params : List Param) (h : ρ x y) :
    ρ (x.declareParams params) (y.declareParams params) :=
  foldl (fun p => hρ.declare p.name p.type) params h

theorem declareStmts (ss : List Stmt) (h : ρ x y) : ρ (x.declareStmts ss) (y.declareStmts ss) := by
  refine foldl (fun s h => ?_) ss h
  cases s with
  | decl decls => exact hρ.declareAll decls h
  | _ => exact h

mutual

theorem places : ∀ (s : Stmt) {x y : Env}, ρ x y →
    List.Forall₂ (SamePlace ρ) (s.places x) (s.places y)
  | .block body, _, _, h => .cons ⟨h, rfl⟩ (placesAll body (hρ.push h))
  | .ifElse _ t f, _, _, h => .cons ⟨h, rfl⟩ (rel_append (places t h) (placesOpt f h))
  | .forLoop start _ _ body, _, _, h => .cons ⟨h, rfl⟩ (rel_append
      (placesOpt start (hρ.push h)) (places body (hρ.declareStmts start.toList (hρ.push h))))
  | .whileLoop _ body, _, _, h | .doWhile body _, _, _, h => .cons ⟨h, rfl⟩ (places body h)
  | .loop body continuing _, _, _, h => .cons ⟨h, rfl⟩ (rel_append
      (placesAll body (hρ.push h)) (placesAll continuing (hρ.declareStmts body (hρ.push h))))
  | .switch _ cases, _, _, h => .cons ⟨h, rfl⟩ (placesCases cases h)
  | .decl _, _, _, h | .expr _, _, _, h | .ret _, _, _, h | .breakOut, _, _, h
  | .continueOn, _, _, h | .discard, _, _, h | .empty, _, _, h => .cons ⟨h, rfl⟩ .nil

theorem placesAll : ∀ (ss : List Stmt) {x y : Env}, ρ x y →
    List.Forall₂ (SamePlace ρ) (Stmt.placesAll x ss) (Stmt.placesAll y ss)
  | [], _, _, _ => .nil
  | s :: ss, _, _, h =>
    rel_append (places s h) (placesAll ss (hρ.declareStmts [s] h))

theorem placesOpt : ∀ (o : Option Stmt) {x y : Env}, ρ x y →
    List.Forall₂ (SamePlace ρ) (Stmt.placesOpt x o) (Stmt.placesOpt y o)
  | none, _, _, _ => .nil
  | some s, _, _, h => places s h

theorem placesCases : ∀ (cs : List Case) {x y : Env}, ρ x y →
    List.Forall₂ (SamePlace ρ) (Stmt.placesCases x cs) (Stmt.placesCases y cs)
  | [], _, _, _ => .nil
  | .mk _ body :: cs, _, _, h =>
    rel_append (placesAll body (hρ.push h)) (placesCases cs h)

end

end

theorem forall₂_sites {x' y' : Env} (h : ρ x y) (role : Role) (es : List Expr) :
    List.Forall₂ (SameSite ρ) (es.map fun e => ⟨x, x', role, e⟩)
      (es.map fun e => ⟨y, y', role, e⟩) := by
  rw [forall₂_map_left_iff, forall₂_map_right_iff]
  exact forall₂_same.mpr fun _ _ => ⟨h, rfl, rfl⟩

theorem sites (hρ : Persists ρ) (result : ShaderType) (s : Stmt) (h : ρ x y) :
    List.Forall₂ (SameSite ρ) (s.sites result x) (s.sites result y) := by
  cases s with
  | decl ds =>
    induction ds with
    | nil => exact .nil
    | cons d ds ih => exact rel_append (forall₂_sites h _ _) ih
  | expr | ifElse | whileLoop | doWhile => exact .cons ⟨h, rfl, rfl⟩ .nil
  | forLoop start =>
    exact forall₂_sites (hρ.declareStmts start.toList (hρ.push h)) _ _
  | loop body continuing =>
    exact forall₂_sites (hρ.declareStmts continuing (hρ.declareStmts body (hρ.push h))) _ _
  | switch => exact .cons ⟨h, rfl, rfl⟩ (forall₂_sites h _ _)
  | ret => exact forall₂_sites h _ _
  | block | breakOut | continueOn | discard | empty => exact .nil

end Persists

end Env

namespace Function

/-- The statements of a function, with what is declared where each starts. -/
def places (env : Env) (f : Function) : List (Env × Stmt) :=
  Stmt.placesAll (env.push.declareParams f.params).push f.body

end Function

namespace Item

/-- The expressions of an item where they stand. -/
def sites (env : Env) : Item → List Site
  | .struct _ => []
  | .globals decls => decls.flatMap (VarDecl.sites env)
  | .function f => (f.places env).flatMap fun p => p.2.sites f.returns p.1

end Item

namespace Program

/-- The statements of a program, with what is declared where each starts. -/
def places (env : Env) (p : Program) : List (Env × Stmt) :=
  p.functions.flatMap (Function.places env)

/-- The expressions of a program where they stand. -/
def sites (env : Env) (p : Program) : List Site :=
  p.items.flatMap (Item.sites env)

theorem around_eq_of_wanted {env : Env} {p : Program} {q : Site} (hq : q ∈ p.sites env)
    {type : ShaderType} (hrole : q.role = .wanted type) : q.around = q.env := by
  have hdecls : ∀ {env : Env} {ds : List VarDecl}, q ∈ ds.flatMap (VarDecl.sites env) →
      q.around = q.env := by
    intro env ds hq
    obtain ⟨d, -, hq⟩ := mem_flatMap.mp hq
    obtain ⟨e, -, rfl⟩ := mem_map.mp hq
    rfl
  obtain ⟨i, -, hq⟩ := mem_flatMap.mp hq
  cases i with
  | struct => cases hq
  | globals ds => exact hdecls hq
  | function f =>
    obtain ⟨⟨env, s⟩, -, hq⟩ := mem_flatMap.mp hq
    cases s with
    | decl ds => exact hdecls hq
    | forLoop | loop =>
      obtain ⟨e, -, rfl⟩ := mem_map.mp hq
      cases hrole
    | ret value =>
      obtain ⟨e, -, rfl⟩ := mem_map.mp hq
      rfl
    | switch selector cases =>
      rcases mem_cons.mp hq with rfl | hq
      · rfl
      · obtain ⟨e, -, rfl⟩ := mem_map.mp hq
        rfl
    | expr | ifElse | whileLoop | doWhile =>
      obtain rfl := mem_singleton.mp hq
      rfl
    | block | breakOut | continueOn | discard | empty => cases hq

end Program

end ShaderEffect
