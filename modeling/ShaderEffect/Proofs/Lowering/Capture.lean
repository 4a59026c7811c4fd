import Mathlib
import ShaderEffect.Proofs.Lowering.LoopVisit
import ShaderEffect.Proofs.Lowering.Looping
import ShaderEffect.Proofs.Lowering.Stable.ControlFlow
import ShaderEffect.Proofs.Lowering.Stable.Name

/-!
# Names in the header of an opened loop

What a name stands for depends on the declarations around it. `Stmt.uses` lists all names of a
statement in the order in which they are met, each with the declaration that it stands for. In a loop
of the source language the header sees nothing that the body declares; in a loop of the target
language what stands between two rounds and the exit test see all that the body declares at its top
level.

A loop that is opened brings the statements of its body into the body of the new loop, without a block
around them. **Its names keep their meaning exactly if the body declares none of those that the header
uses behind it** (`uses_lowerStmt_iff`): those of the condition of a `do` loop, and those of the step
of a `for` loop.
-/

namespace ShaderEffect

open List Stmt

/-! ## Names and what they stand for -/

/-- The names in a type: structures, and constants that give the length of an array. -/
def ShaderType.names : ShaderType → List String
  | .struct name => [name]
  | .array elem (.named name) => elem.names ++ [name]
  | .array elem _ => elem.names
  | _ => []

namespace Expr

/-- The names that a node itself uses: a variable, a function or a structure. -/
def ownNames : Expr → List String
  | .ident name => [name]
  | .call name _ => [name]
  | .construct type _ => type.names
  | _ => []

def names (e : Expr) : List String :=
  e.subexprs.flatMap ownNames

theorem names_eq (e : Expr) : e.names = e.ownNames ++ e.children.flatMap names := by
  unfold names
  rw [subexprs_eq_cons, flatMap_cons, flatMap_assoc]

end Expr

/-- The declaration that a name stands for: its number, counted from the outermost of the
declarations around, of which the latest comes first. Zero stands for a name that is not declared
there. -/
def resolve (around : List String) (name : String) : Nat :=
  (around.dropWhile (· != name)).length

/-- The names of an expression with what they stand for. -/
def Expr.uses (around : List String) (e : Expr) : List (String × Nat) :=
  e.names.map fun n => (n, resolve around n)

open Lowering (declNames)

namespace Stmt

/-- The declarations around what comes after statements. -/
def declaredAfter (around : List String) (ss : List Stmt) : List String :=
  (ss.flatMap declNames).reverse ++ around

/-- The names in declarations; the initial value of a variable sees the variables before it. -/
def usesDecls (around : List String) : List VarDecl → List (String × Nat)
  | [] => []
  | d :: ds =>
    (d.type.names.map fun n => (n, resolve around n)) ++
      (d.init.elim [] (Expr.uses around) ++ usesDecls (d.name :: around) ds)

def usesLabels (around : List String) (labels : List CaseLabel) : List (String × Nat) :=
  labels.flatMap fun l => l.value?.elim [] (Expr.uses around)

mutual

/-- The names of a statement with what they stand for, in the order in which they are met. -/
def uses (around : List String) : Stmt → List (String × Nat)
  | .decl ds => usesDecls around ds
  | .expr e => e.uses around
  | .block body => usesAll around body
  | .ifElse cond whenTrue whenFalse =>
    cond.uses around ++ (whenTrue.uses around ++ usesOpt around whenFalse)
  | .forLoop start cond step body =>
    let inner := declaredAfter around start.toList
    usesOpt around start ++ (cond.elim [] (Expr.uses inner) ++
      (body.uses inner ++ step.elim [] (Expr.uses inner)))
  | .whileLoop cond body => cond.uses around ++ body.uses around
  | .doWhile body cond => body.uses around ++ cond.uses around
  | .loop body continuing breakIf =>
    let inner := declaredAfter around body
    usesAll around body ++ (usesAll inner continuing ++
      breakIf.elim [] (Expr.uses (declaredAfter inner continuing)))
  | .switch selector cases => selector.uses around ++ usesCases around cases
  | .ret value => value.elim [] (Expr.uses around)
  | .breakOut | .continueOn | .discard | .empty => []

/-- The names of statements in order, where each sees what those before it declare. -/
def usesAll (around : List String) : List Stmt → List (String × Nat)
  | [] => []
  | s :: ss => s.uses around ++ usesAll (declaredAfter around [s]) ss

def usesOpt (around : List String) : Option Stmt → List (String × Nat)
  | none => []
  | some s => s.uses around

/-- The names of the branches of a `switch`. -/
def usesCases (around : List String) : List Case → List (String × Nat)
  | [] => []
  | .mk labels body :: cases =>
    usesLabels around labels ++ (usesAll around body ++ usesCases around cases)

end

theorem declaredAfter_append (around : List String) (ss ts : List Stmt) :
    declaredAfter around (ss ++ ts) = declaredAfter (declaredAfter around ss) ts := by
  simp [declaredAfter]

theorem declaredAfter_of_no_decl (around : List String) {ss : List Stmt}
    (h : ∀ s ∈ ss, s.isDecl = false) : declaredAfter around ss = around := by
  have hnone : ss.flatMap declNames = [] :=
    flatMap_eq_nil_iff.mpr fun s hs => by
      have := h s hs
      cases s <;> first | rfl | cases this
  rw [declaredAfter, hnone, reverse_nil, nil_append]

@[simp] theorem usesAll_nil (around : List String) : usesAll around [] = [] := by
  rw [usesAll]

theorem usesAll_append (around : List String) : ∀ ss ts : List Stmt,
    usesAll around (ss ++ ts) = usesAll around ss ++ usesAll (declaredAfter around ss) ts
  | [], ts => by rw [nil_append, usesAll_nil]; rfl
  | s :: ss, ts => by
    rw [cons_append, usesAll, usesAll, usesAll_append _ ss ts, append_assoc,
      ← declaredAfter_append]
    rfl

@[simp] theorem usesAll_singleton (around : List String) (s : Stmt) :
    usesAll around [s] = s.uses around := by
  rw [usesAll, usesAll_nil, append_nil]

end Stmt

/-! ## Declarations that come between -/

theorem resolve_append_iff (between around : List String) (n : String) :
    resolve (between ++ around) n = resolve around n ↔ n ∉ between := by
  induction between with
  | nil => simp
  | cons d ds ih =>
    have hle : ∀ xs : List String, resolve xs n ≤ xs.length := fun xs =>
      (dropWhile_sublist _).length_le
    by_cases hd : d = n
    · subst hd
      have hself : resolve (d :: ds ++ around) d = (ds ++ around).length + 1 := by
        simp [resolve]
      grind
    · have hskip : resolve (d :: ds ++ around) n = resolve (ds ++ around) n := by
        simp [resolve, hd]
      rw [hskip, ih, mem_cons, not_or, and_iff_right (Ne.symm hd)]

/-- The names of an expression stand for the same behind statements exactly if these declare none of
them. -/
theorem Expr.uses_declaredAfter_iff (around : List String) (ss : List Stmt) (e : Expr) :
    e.uses (Stmt.declaredAfter around ss) = e.uses around ↔
      ∀ n ∈ e.names, n ∉ ss.flatMap declNames := by
  grind [Expr.uses, declaredAfter, map_inj_left, resolve_append_iff]

namespace Lowering

open Walker Stmt

variable {start : Option Stmt} (around : List String) (e : Expr)

/-! ## Opened loops -/

theorem names_negate : (negate e).names = e.names := by
  unfold negate
  grind [Expr.names_eq, Expr.ownNames, Expr.children]

@[simp] theorem uses_negate : (negate e).uses around = e.uses around := by
  rw [Expr.uses, names_negate, Expr.uses]

theorem usesAll_statements (s : Stmt) : usesAll around (statements s) = s.uses around := by
  cases s with
  | block body => rw [uses]; rfl
  | empty => rw [uses]; exact usesAll_nil around
  | _ => exact usesAll_singleton ..

theorem usesAll_stepStmts : usesAll around (stepStmts e) = e.uses around := by
  have hitems : ∀ es : List Expr, usesAll around (es.map .expr) = es.flatMap (Expr.uses around) := by
    intro es
    induction es with
    | nil => exact usesAll_nil around
    | cons e es ih =>
      rw [map_cons, usesAll, uses, flatMap_cons,
        declaredAfter_of_no_decl around (forall_mem_singleton.mpr rfl), ih]
  have hsingle : usesAll around [.expr e] = e.uses around := by
    rw [usesAll_singleton, uses]
  cases e with
  | comma items =>
    show usesAll around (items.map .expr) = _
    rw [hitems, Expr.uses, Expr.names_eq, map_append, map_flatMap]
    rfl
  | _ => exact hsingle

/-- A loop that the pass opens: a `do` loop, or a `for` loop whose header the target language does
not take. -/
def opens : Stmt → Bool
  | .doWhile .. => true
  | .forLoop start _ step _ => !(start.all isStart && step.all isUpdate)
  | _ => false

/-- The names that the header of a loop uses where the body of the opened loop is seen. -/
def exposedNames : Stmt → List String
  | .doWhile _ cond => cond.names
  | .forLoop _ _ step _ => step.elim [] Expr.names
  | _ => []

/-- The names that the body of a loop declares at its top level. -/
def bodyNames : Stmt → List String
  | .doWhile body _ => (statements body).flatMap declNames
  | .forLoop _ _ _ body => (statements body).flatMap declNames
  | _ => []

theorem uses_doWhile_iff (body : Stmt) (cond : Expr) :
    (Stmt.loop (statements body) [] (some (negate cond))).uses around =
        (Stmt.doWhile body cond).uses around ↔
      ∀ n ∈ cond.names, n ∉ (statements body).flatMap declNames := by
  grind [uses, usesAll_statements, usesAll, uses_negate, append_cancel_left_eq,
      Expr.uses_declaredAfter_iff]

theorem uses_start (h : ∀ s ∈ start, IsStep s) :
    usesAll around (start.elim [] statements) = usesOpt around start ∧
      declaredAfter around (start.elim [] statements) = declaredAfter around start.toList := by
  cases start with
  | none => exact ⟨by rw [usesOpt]; exact usesAll_nil around, rfl⟩
  | some s =>
    rcases h s rfl with ⟨ds, rfl⟩ | ⟨e, rfl⟩
    · exact ⟨by rw [usesOpt]; exact usesAll_singleton .., rfl⟩
    · exact ⟨by rw [usesOpt]; exact usesAll_singleton .., rfl⟩

theorem uses_exitTest (cond : Option Expr) :
    usesAll around (exitTest cond) = cond.elim [] (Expr.uses around) ∧
      declaredAfter around (exitTest cond) = around := by
  cases cond with
  | none => exact ⟨usesAll_nil around, rfl⟩
  | some c =>
    refine ⟨?_, rfl⟩
    show usesAll around [.ifElse (negate c) (.block [.breakOut]) none] = c.uses around
    grind [usesAll_singleton, uses, uses_negate, usesOpt]

theorem uses_openLoop_iff (cond step : Option Expr) (body : Stmt) (hstart : ∀ s ∈ start, IsStep s) :
    (openLoop start cond step body).uses around =
        (Stmt.forLoop start cond step body).uses around ↔
      ∀ n ∈ step.elim [] Expr.names, n ∉ (statements body).flatMap declNames := by
  obtain ⟨hfirst, hinner⟩ := uses_start around hstart
  let inner := declaredAfter around start.toList
  obtain ⟨htest, hnone⟩ := uses_exitTest inner cond
  have hstep : usesAll (declaredAfter inner (statements body)) (step.elim [] stepStmts) =
      step.elim [] (Expr.uses (declaredAfter inner (statements body))) := by
    cases step with
    | none => exact usesAll_nil _
    | some e => exact usesAll_stepStmts _ e
  have hloop : (openLoop start cond step body).uses around =
      usesOpt around start ++ (cond.elim [] (Expr.uses inner) ++ (body.uses inner ++
        step.elim [] (Expr.uses (declaredAfter inner (statements body))))) := by
    show (block (start.elim [] statements ++
      [.loop (exitTest cond ++ statements body) (step.elim [] stepStmts) none])).uses around = _
    rw [uses, usesAll_append, hfirst, hinner, usesAll_singleton, uses, usesAll_append, htest,
      declaredAfter_append, hnone, usesAll_statements, hstep, Option.elim_none, append_nil,
      append_assoc]
  rw [hloop, uses, append_cancel_left_eq, append_cancel_left_eq,
    append_cancel_left_eq]
  cases step with
  | none => simp
  | some e => exact Expr.uses_declaredAfter_iff inner _ e

theorem lowerStmt_opened {cond step : Option Expr} {body : Stmt}
    (hopens : opens (.forLoop start cond step body) = true) (env : Env) (a : State) :
    (lowerStmt env (.forLoop start cond step body) a).1 = [openLoop start cond step body] := by
  rw [opens, Bool.not_eq_true'] at hopens
  have hopen : shapeFor start cond step body = openLoop start cond step body := by
    rw [shapeFor, hopens]
    rfl
  rw [lowerStmt_of_shape (shape_forLoop start cond step body a), hoist_shapeFor, hopen]

theorem uses_opened_iff {s : Stmt} (hopens : opens s = true) (hplain : PlainHeader s) (env : Env)
    (a : State) :
    ∃ low, (lowerStmt env s a).1 = [low] ∧ ∀ around, low.uses around = s.uses around ↔
      ∀ n ∈ exposedNames s, n ∉ bodyNames s := by
  cases s with
  | doWhile body cond =>
    exact ⟨_, rfl, fun around => uses_doWhile_iff around body cond⟩
  | forLoop start cond step body =>
    exact ⟨_, lowerStmt_opened hopens env a, fun around =>
      uses_openLoop_iff around cond step body hplain⟩
  | _ => cases hopens

/-- **When the names in the header of a loop keep their meaning.** All loops of a program are visited
with their condition and their step. Wherever the pass opens one of them, and whatever is declared
around it, all names in it stand for the same declarations as before exactly if the body, as it has
become, declares none of the names that the header uses behind it. -/
theorem uses_lowerStmt_iff (st : Setting) (p : Program) (b : State)
    (hp : ∀ s ∈ p.items.flatMap Item.substmts, PlainHeader s) :
    let run := flowRun st p b
    lowerControlFlow st p b = (run.1, run.2.1) ∧
    (∀ s ∈ p.items.flatMap Item.substmts, SameHeader s s → ∃ v ∈ run.2.2, SameHeader s v.stmt) ∧
    ∀ v ∈ run.2.2, opens v.stmt = true → ∀ env,
      ∃ low, (lowerStmt env v.stmt v.state).1 = [low] ∧
        ∀ around, low.uses around = v.stmt.uses around ↔
          ∀ n ∈ exposedNames v.stmt, n ∉ bodyNames v.stmt := by
  refine ⟨lowerControlFlow_eq st p b, fun s hs => exists_visit_of_loop st b hs, ?_⟩
  intro v hv hopens env
  exact uses_opened_iff hopens (plainHeader_of_visit st b hp v hv) env v.state

/-- A program with two loops that the pass opens. The body of the first one declares an `x` beside the
one that the condition means. The second one has two steps, and its body declares another name. -/
def openedLoops : Program :=
  let x : Expr := .ident "x"
  let i : Expr := .ident "i"
  { items := [
      .function {
        name := "main"
        returns := .void
        params := []
        body := [
          .decl [.var "x" .float (some (.float "0.0"))],
          .doWhile (.block [.decl [.var "x" .float (some (.float "1.0"))]])
            (.binary .lt x (.float "4.0")),
          .forLoop (some (.decl [.var "i" .int (some (.int "0"))]))
            (some (.binary .lt i (.int "2")))
            (some (.comma [.unary .postInc i, .assign (some .add) x (.float "1.0")]))
            (.block [.decl [.var "y" .float (some x)]])]
        isEntry := false }] }

/-- The setting for an effect without inputs. -/
def emptySetting : Setting :=
  { options := {}, header := {}, layout := {} }

theorem plainHeader_openedLoops :
    ∀ s ∈ openedLoops.items.flatMap Item.substmts, PlainHeader s := by
  simp [openedLoops, Item.substmts, substmtsAll, substmts, substmtsOpt, PlainHeader,
    IsStep]

theorem uses_lowerStmt_iff_steps :
    (∀ s ∈ openedLoops.items.flatMap Item.substmts, PlainHeader s) ∧
    ∃ v ∈ (flowRun emptySetting openedLoops {}).2.2, opens v.stmt = true ∧
      exposedNames v.stmt = ["i", "x"] ∧ ∀ env, ∃ low,
        (lowerStmt env v.stmt v.state).1 = [low] ∧ ∀ around, low.uses around = v.stmt.uses around := by
  have hvisit : (flowRun emptySetting openedLoops {}).2.2.any (fun v =>
      opens v.stmt && decide (exposedNames v.stmt = ["i", "x"]) &&
        (exposedNames v.stmt).all fun n => !(bodyNames v.stmt).contains n) = true := by
    decide_cbv
  obtain ⟨v, hv, hcheck⟩ := any_eq_true.mp hvisit
  simp only [Bool.and_eq_true, decide_eq_true_eq, all_eq_true, Bool.not_eq_true',
    contains_eq_mem, decide_eq_false_iff_not] at hcheck
  obtain ⟨⟨hopens, hnames⟩, hapart⟩ := hcheck
  have hall := uses_lowerStmt_iff emptySetting openedLoops {} plainHeader_openedLoops
  refine ⟨plainHeader_openedLoops, v, hv, hopens, hnames, fun env => ?_⟩
  obtain ⟨low, hlow, hiff⟩ := hall.2.2 v hv hopens env
  exact ⟨low, hlow, fun around => (hiff around).mpr hapart⟩

/-- The condition of a `do` loop means the variable that the body declares once the loop is opened,
and nothing is reported. -/
theorem uses_ne_of_body_declares :
    (lowerControlFlow emptySetting openedLoops {}).2.notices = [] ∧
    ∃ v ∈ (flowRun emptySetting openedLoops {}).2.2, exposedNames v.stmt = ["x"] ∧
      ∀ env, ∃ low, (lowerStmt env v.stmt v.state).1 = [low] ∧
        ∀ around, low.uses around ≠ v.stmt.uses around := by
  have hnotices : (lowerControlFlow emptySetting openedLoops {}).2.notices.isEmpty = true := by
    decide_cbv
  have hvisit : (flowRun emptySetting openedLoops {}).2.2.any (fun v =>
      opens v.stmt && decide (exposedNames v.stmt = ["x"]) && (bodyNames v.stmt).contains "x") = true := by
    decide_cbv
  obtain ⟨v, hv, hcheck⟩ := any_eq_true.mp hvisit
  simp only [Bool.and_eq_true, decide_eq_true_eq, contains_eq_mem] at hcheck
  obtain ⟨⟨hopens, hnames⟩, hx⟩ := hcheck
  have hplain := plainHeader_of_visit emptySetting {} plainHeader_openedLoops v hv
  refine ⟨isEmpty_iff.mp hnotices, v, hv, hnames, fun env => ?_⟩
  obtain ⟨low, hlow, hiff⟩ := uses_opened_iff hopens hplain env v.state
  refine ⟨low, hlow, fun around heq => (hiff around).mp heq "x" ?_ hx⟩
  rw [hnames]
  exact mem_singleton_self "x"

end Lowering

end ShaderEffect
