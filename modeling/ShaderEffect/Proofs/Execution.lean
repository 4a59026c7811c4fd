import ShaderEffect.Shader.Literal
import ShaderEffect.Shader.Stmt

/-!
# Execution

What statements do, given what expressions do. A `Meaning` leaves open what values, stores and scopes
are: it says how an expression is evaluated and what a declaration adds to a scope. `Stmt.run` builds
on it what each statement may do, as a relation between the state before, the state after and the way
in which the statement ends, so that runs that never end are not related to anything.

A loop is given by rules for one round. In `forLoop` and `doWhile` the condition is evaluated in the
scope around the loop; in `loop` the statements between two rounds and the exit test see what the body
has declared. The two dialects differ in `switch` alone: in the source language a branch runs on into
the next one.

`Interprets` collects what the lowering of control flow needs to know about an interpretation of
statements: what a jump does, and that a block without declarations does what its statements do. **The
interpretation by a meaning is of this kind** (`interprets_run`).
-/

namespace ShaderEffect

open List

variable {α : Type}

inductive Outcome (ν : Type) where
  | normal
  | broken
  | continued
  | returned (value : Option ν)
  | discarded

namespace Outcome

variable {ν : Type}

/-- The end of a `switch`, which takes a `break`. -/
def afterSwitch : Outcome ν → Outcome ν
  | .broken => .normal
  | o => o

/-- Ends a round of a loop, so that what stands between two rounds comes next. -/
def EndsRound (o : Outcome ν) : Prop :=
  o = .normal ∨ o = .continued

def Leaves : Outcome ν → Prop
  | .returned _ | .discarded => True
  | _ => False

/-- The end of an evaluation: without a result the fragment is discarded. -/
def ofResult {α : Type} (r : Option α) : Outcome ν :=
  if r.isSome then .normal else .discarded

/-- The end of a `return` with a value. -/
def ofReturn (r : Option ν) : Outcome ν :=
  (r.map fun v => .returned (some v)).getD .discarded

theorem Leaves.ne_normal {o : Outcome ν} (h : o.Leaves) : o ≠ .normal := by
  rintro rfl
  exact h

@[simp] theorem ofResult_some (x : α) : (ofResult (some x) : Outcome ν) = .normal := rfl

@[simp] theorem ofResult_none : (ofResult (none : Option α) : Outcome ν) = .discarded :=
  rfl

theorem leaves_ofReturn (r : Option ν) : (ofReturn r).Leaves := by
  cases r <;> exact trivial

end Outcome

/-- What statements may do: where they lead from a state, and how they end there. -/
abbrev Behaviour (σ ν : Type) := σ → σ → Outcome ν → Prop

namespace Behaviour

variable {σ ν : Type}
variable (x : Behaviour σ ν)

def jump (how : Outcome ν) : Behaviour σ ν := fun a b o => b = a ∧ o = how

def skip : Behaviour σ ν := jump .normal

/-- One after the other, unless the first one does not end normally. -/
def andThen (x y : Behaviour σ ν) : Behaviour σ ν := fun a c o =>
  (∃ b, x a b .normal ∧ y b c o) ∨ (x a c o ∧ o ≠ .normal)

def inTurn : List (Behaviour σ ν) → Behaviour σ ν
  | [] => skip
  | x :: xs => x.andThen (inTurn xs)

/-- A `break` leads behind it. -/
def leaveSwitch (x : Behaviour σ ν) : Behaviour σ ν := fun a b o =>
  ∃ how, x a b how ∧ o = how.afterSwitch

@[simp] theorem skip_andThen : skip.andThen x = x := by
  funext a b o
  apply propext
  constructor
  · rintro (⟨c, ⟨rfl, -⟩, hx⟩ | ⟨⟨-, rfl⟩, hne⟩)
    · exact hx
    · exact absurd rfl hne
  · exact fun hx => .inl ⟨a, ⟨rfl, rfl⟩, hx⟩

@[simp] theorem andThen_skip : x.andThen skip = x := by
  funext a b o
  apply propext
  constructor
  · rintro (⟨c, hx, rfl, rfl⟩ | ⟨hx, -⟩) <;> exact hx
  · intro hx
    by_cases ho : o = .normal
    · exact .inl ⟨b, ho ▸ hx, rfl, ho⟩
    · exact .inr ⟨hx, ho⟩

theorem andThen_assoc (y z : Behaviour σ ν) :
    (x.andThen y).andThen z = x.andThen (y.andThen z) := by
  funext a d o
  apply propext
  constructor
  · rintro (⟨c, ⟨b, hx, hy⟩ | ⟨-, hne⟩, hz⟩ | ⟨⟨b, hx, hy⟩ | ⟨hx, -⟩, ho⟩)
    · exact .inl ⟨b, hx, .inl ⟨c, hy, hz⟩⟩
    · exact absurd rfl hne
    · exact .inl ⟨b, hx, .inr ⟨hy, ho⟩⟩
    · exact .inr ⟨hx, ho⟩
  · rintro (⟨b, hx, ⟨c, hy, hz⟩ | ⟨hy, ho⟩⟩ | ⟨hx, ho⟩)
    · exact .inl ⟨c, .inl ⟨b, hx, hy⟩, hz⟩
    · exact .inr ⟨.inl ⟨b, hx, hy⟩, ho⟩
    · exact .inr ⟨.inr ⟨hx, ho⟩, ho⟩

theorem andThen_eq_left {x : Behaviour σ ν} (h : ∀ a b, ¬ x a b .normal) (y : Behaviour σ ν) :
    x.andThen y = x := by
  funext a b o
  apply propext
  constructor
  · rintro (⟨c, hx, -⟩ | ⟨hx, -⟩)
    · exact absurd hx (h a c)
    · exact hx
  · intro hx
    exact .inr ⟨hx, by rintro rfl; exact h a b hx⟩

theorem inTurn_append (xs ys : List (Behaviour σ ν)) :
    inTurn (xs ++ ys) = (inTurn xs).andThen (inTurn ys) := by
  induction xs with
  | nil => rw [nil_append, inTurn, skip_andThen]
  | cons x xs ih => rw [cons_append, inTurn, inTurn, ih, andThen_assoc]

theorem leaveSwitch_andThen_break : (x.andThen (jump .broken)).leaveSwitch = x.leaveSwitch := by
  funext a b o
  apply propext
  constructor
  · rintro ⟨how, ⟨c, hx, rfl, rfl⟩ | ⟨hx, -⟩, rfl⟩
    · exact ⟨.normal, hx, rfl⟩
    · exact ⟨how, hx, rfl⟩
  · rintro ⟨how, hx, rfl⟩
    by_cases hnormal : how = .normal
    · subst hnormal
      exact ⟨.broken, .inl ⟨b, hx, rfl, rfl⟩, rfl⟩
    · exact ⟨how, .inr ⟨hx, hnormal⟩, rfl⟩

end Behaviour

open Behaviour

namespace Stmt

def isDecl : Stmt → Bool
  | .decl _ => true
  | _ => false

/-- Statements in order, each as `run` says. -/
def inOrder {σ ν : Type} (run : Stmt → Behaviour σ ν) (ss : List Stmt) : Behaviour σ ν :=
  inTurn (ss.map run)

theorem inOrder_append {σ ν : Type} (run : Stmt → Behaviour σ ν) (ss ts : List Stmt) :
    inOrder run (ss ++ ts) = (inOrder run ss).andThen (inOrder run ts) := by
  rw [inOrder, map_append, inTurn_append]
  rfl

@[simp] theorem inOrder_singleton {σ ν : Type} (run : Stmt → Behaviour σ ν) (s : Stmt) :
    inOrder run [s] = run s :=
  andThen_skip _

end Stmt

/-! ## Branches of a `switch` -/

/-- Of branches with labels, those from the selected one on: the first with a value that is hit, else
the first default. -/
def CaseLabel.selectFrom {α : Type} (labels : α → List CaseLabel) (hit : Expr → Bool) (xs : List α) :
    List α :=
  match xs.dropWhile fun x => !(labels x).any fun l => l.value?.any hit with
  | [] => xs.dropWhile fun x => !(labels x).any CaseLabel.isDefault
  | rest => rest

theorem CaseLabel.selectFrom_map {β : Type} (labels : β → List CaseLabel) (hit : Expr → Bool)
    (f : α → β) (xs : List α) :
    selectFrom labels hit (xs.map f) = (selectFrom (fun x => labels (f x)) hit xs).map f := by
  unfold selectFrom
  rw [dropWhile_map, dropWhile_map]
  simp only [Function.comp_def]
  cases xs.dropWhile fun x => !(labels (f x)).any fun l => l.value?.any hit <;> rfl

/-- The labels of a branch and what its statements do. -/
abbrev Arm (σ ν : Type) := List CaseLabel × Behaviour σ ν

namespace Arm

variable {σ ν : Type}

/-- A `switch` of the source language: the selected branch runs on into those after it. -/
def fallThrough (hit : Expr → Bool) (bs : List (Arm σ ν)) : Behaviour σ ν :=
  (inTurn ((CaseLabel.selectFrom Prod.fst hit bs).map Prod.snd)).leaveSwitch

/-- A `switch` of the target language: the selected branch runs alone. -/
def choose (hit : Expr → Bool) (bs : List (Arm σ ν)) : Behaviour σ ν :=
  (inTurn (((CaseLabel.selectFrom Prod.fst hit bs).take 1).map Prod.snd)).leaveSwitch

end Arm

/-- The branches of a `switch` under an interpretation of statements. -/
def Case.arms {σ ν : Type} (run : Stmt → Behaviour σ ν) (cases : List Case) :
    List (Arm σ ν) :=
  cases.map fun c => (c.labels, Stmt.inOrder run c.body)

/-- An interpretation of statements under which jumps are jumps and a block that declares nothing
does what its statements do. Of all other statements it may be anything. -/
structure Interprets {σ ν : Type} (run : Stmt → Behaviour σ ν) : Prop where
  block : ∀ body, (∀ s ∈ body, s.isDecl = false) → run (.block body) = Stmt.inOrder run body
  breakOut : run .breakOut = jump .broken
  continueOn : run .continueOn = jump .continued
  discard : run .discard = jump .discarded
  ret : ∀ value a b o, run (.ret value) a b o → o.Leaves

/-! ## Meanings -/

/-- What expressions and declarations do. A scope says what names stand for, a store what there is to
be read. An evaluation may have no result, if it discards the fragment in a function that it calls.

Of expressions no more is said than how `!` and the comma depend on their operands. -/
structure Meaning where
  Scope : Type
  Store : Type
  Value : Type
  eval : Expr → Scope → Store → Option Value → Store → Prop
  /-- Evaluates the initial value and adds the variable to the scope. -/
  declare : VarDecl → Scope → Store → Option Scope → Store → Prop
  truth : Value → Bool
  /-- The value is that of a case label. -/
  equals : Value → Expr → Bool
  eval_not : ∀ e sc s r t,
    (∃ v, eval (.unary .not e) sc s v t ∧ v.map truth = r) ↔
      ∃ v, eval e sc s v t ∧ v.map (fun v => !truth v) = r
  eval_comma_nil : ∀ sc s r t, (∃ v, eval (.comma []) sc s v t ∧ v.isSome = r) ↔ t = s ∧ r = true
  eval_comma_cons : ∀ e es sc s r t,
    (∃ v, eval (.comma (e :: es)) sc s v t ∧ v.isSome = r) ↔
      (∃ v u, eval e sc s (some v) u ∧ ∃ w, eval (.comma es) sc u w t ∧ w.isSome = r) ∨
        (eval e sc s none t ∧ r = false)

/-- The two readings of a program: in the source language the branches of a `switch` run on into each
other, in the target language they do not. -/
inductive Dialect where
  | source
  | target

namespace Meaning

variable (m : Meaning)

/-- What names stand for, and what there is to be read. -/
abbrev State := m.Scope × m.Store

/-- A condition is evaluated to a truth value, or to none if it discards the fragment. -/
def Tests (e : Expr) (sc : m.Scope) (s : m.Store) (r : Option Bool) (t : m.Store) : Prop :=
  ∃ v, m.eval e sc s v t ∧ v.map m.truth = r

/-- The condition of a loop, which holds if there is none. -/
def Continues : Option Expr → m.Scope → m.Store → Option Bool → m.Store → Prop
  | none => fun _ s r t => t = s ∧ r = some true
  | some e => m.Tests e

/-- The exit test of a loop, which fails if there is none. -/
def Exits : Option Expr → m.Scope → m.Store → Option Bool → m.Store → Prop
  | none => fun _ s r t => t = s ∧ r = some false
  | some e => m.Tests e

/-- `a < b` is the negation of `a >= b`. -/
def Ordered : Prop :=
  ∀ x y sc s r t, m.Tests (.binary .lt x y) sc s r t ↔
    m.Tests (.binary .ge x y) sc s (r.map (!·)) t

/-- Evaluates an expression for its effects. -/
def runExpr (e : Expr) : Behaviour m.State m.Value := fun a b o =>
  b.1 = a.1 ∧ ∃ v, m.eval e a.1 a.2 v b.2 ∧ o = .ofResult v

/-- Evaluates an expression, if there is one, for its effects. -/
def runOptExpr : Option Expr → Behaviour m.State m.Value
  | none => skip
  | some e => m.runExpr e

def runDecl (d : VarDecl) : Behaviour m.State m.Value := fun a b o =>
  ∃ r, m.declare d a.1 a.2 r b.2 ∧ b.1 = r.getD a.1 ∧ o = .ofResult r

def runReturn : Option Expr → Behaviour m.State m.Value
  | none => jump (.returned none)
  | some e => fun a b o => b.1 = a.1 ∧ ∃ v, m.eval e a.1 a.2 v b.2 ∧ o = .ofReturn v

variable {m}

/-- In a scope of its own: what is declared inside is gone afterwards. -/
def inScope (x : Behaviour m.State m.Value) : Behaviour m.State m.Value := fun a b o =>
  b.1 = a.1 ∧ ∃ sc, x a (sc, b.2) o

/-- One of two branches, each in a scope of its own. -/
def branch (cond : Expr) (whenTrue whenFalse : Behaviour m.State m.Value) :
    Behaviour m.State m.Value := fun a b o =>
  (∃ s, m.Tests cond a.1 a.2 (some true) s ∧ inScope whenTrue (a.1, s) b o) ∨
    (∃ s, m.Tests cond a.1 a.2 (some false) s ∧ inScope whenFalse (a.1, s) b o) ∨
      (m.Tests cond a.1 a.2 none b.2 ∧ b.1 = a.1 ∧ o = .discarded)

section Loops

/-- The rounds of a loop that tests before its body. -/
inductive ForRuns (sc : m.Scope) (test : m.Store → Option Bool → m.Store → Prop)
    (body step : Behaviour m.State m.Value) : Behaviour m.Store m.Value
  | done {s t : m.Store} : test s (some false) t → ForRuns sc test body step s t .normal
  | testDiscards {s t : m.Store} : test s none t → ForRuns sc test body step s t .discarded
  | broken {s t : m.Store} {a : m.State} :
      test s (some true) t → body (sc, t) a .broken → ForRuns sc test body step s a.2 .normal
  | leaves {s t : m.Store} {a : m.State} {o : Outcome m.Value} :
      test s (some true) t → body (sc, t) a o → o.Leaves → ForRuns sc test body step s a.2 o
  | stepEnds {s t : m.Store} {a b : m.State} {o p : Outcome m.Value} :
      test s (some true) t → body (sc, t) a o → o.EndsRound → step (sc, a.2) b p → p ≠ .normal →
      ForRuns sc test body step s b.2 p
  | next {s t u : m.Store} {a b : m.State} {o p : Outcome m.Value} :
      test s (some true) t → body (sc, t) a o → o.EndsRound → step (sc, a.2) b .normal →
      ForRuns sc test body step b.2 u p → ForRuns sc test body step s u p

/-- The rounds of a loop that tests after its body. -/
inductive DoRuns (sc : m.Scope) (test : m.Store → Option Bool → m.Store → Prop)
    (body : Behaviour m.State m.Value) : Behaviour m.Store m.Value
  | broken {s : m.Store} {a : m.State} :
      body (sc, s) a .broken → DoRuns sc test body s a.2 .normal
  | leaves {s : m.Store} {a : m.State} {o : Outcome m.Value} :
      body (sc, s) a o → o.Leaves → DoRuns sc test body s a.2 o
  | done {s t : m.Store} {a : m.State} {o : Outcome m.Value} :
      body (sc, s) a o → o.EndsRound → test a.2 (some false) t → DoRuns sc test body s t .normal
  | testDiscards {s t : m.Store} {a : m.State} {o : Outcome m.Value} :
      body (sc, s) a o → o.EndsRound → test a.2 none t → DoRuns sc test body s t .discarded
  | next {s t u : m.Store} {a : m.State} {o p : Outcome m.Value} :
      body (sc, s) a o → o.EndsRound → test a.2 (some true) t → DoRuns sc test body t u p →
      DoRuns sc test body s u p

/-- The rounds of a loop of the target language. What stands between two rounds and the exit test see
what the body has declared. -/
inductive LoopRuns (sc : m.Scope) (body continuing : Behaviour m.State m.Value)
    (exit : m.Scope → m.Store → Option Bool → m.Store → Prop) : Behaviour m.Store m.Value
  | broken {s : m.Store} {a : m.State} :
      body (sc, s) a .broken → LoopRuns sc body continuing exit s a.2 .normal
  | leaves {s : m.Store} {a : m.State} {o : Outcome m.Value} :
      body (sc, s) a o → o.Leaves → LoopRuns sc body continuing exit s a.2 o
  | continuingEnds {s : m.Store} {a b : m.State} {o p : Outcome m.Value} :
      body (sc, s) a o → o.EndsRound → continuing a b p → p ≠ .normal →
      LoopRuns sc body continuing exit s b.2 p
  | done {s t : m.Store} {a b : m.State} {o : Outcome m.Value} :
      body (sc, s) a o → o.EndsRound → continuing a b .normal → exit b.1 b.2 (some true) t →
      LoopRuns sc body continuing exit s t .normal
  | exitDiscards {s t : m.Store} {a b : m.State} {o : Outcome m.Value} :
      body (sc, s) a o → o.EndsRound → continuing a b .normal → exit b.1 b.2 none t →
      LoopRuns sc body continuing exit s t .discarded
  | next {s t u : m.Store} {a b : m.State} {o p : Outcome m.Value} :
      body (sc, s) a o → o.EndsRound → continuing a b .normal → exit b.1 b.2 (some false) t →
      LoopRuns sc body continuing exit t u p → LoopRuns sc body continuing exit s u p

/-- The rounds of a loop in the scope around it. -/
def looped (rounds : m.Scope → Behaviour m.Store m.Value) : Behaviour m.State m.Value :=
  fun a b o => b.1 = a.1 ∧ rounds a.1 a.2 b.2 o

end Loops

/-- A `switch`: the branch that the selector selects. -/
def runSwitch (d : Dialect) (selector : Expr) (bs : List (Arm m.State m.Value)) :
    Behaviour m.State m.Value := fun a b o =>
  (∃ v s, m.eval selector a.1 a.2 (some v) s ∧
      match d with
      | .source => inScope (Arm.fallThrough (m.equals v) bs) (a.1, s) b o
      | .target => inScope (Arm.choose (m.equals v) bs) (a.1, s) b o) ∨
    (m.eval selector a.1 a.2 none b.2 ∧ b.1 = a.1 ∧ o = .discarded)

end Meaning

open Meaning

namespace Stmt

mutual

def run (m : Meaning) (d : Dialect) : Stmt → Behaviour m.State m.Value
  | .decl decls => inTurn (decls.map m.runDecl)
  | .expr e => m.runExpr e
  | .block body => inScope (inTurn (runAll m d body))
  | .ifElse cond whenTrue whenFalse =>
    branch cond (whenTrue.run m d) (inTurn (runOpt m d whenFalse))
  | .forLoop start cond step body =>
    inScope ((inTurn (runOpt m d start)).andThen
      (looped fun sc =>
        ForRuns sc (m.Continues cond sc) (inScope (body.run m d)) (m.runOptExpr step)))
  | .whileLoop cond body =>
    looped fun sc => ForRuns sc (m.Tests cond sc) (inScope (body.run m d)) skip
  | .doWhile body cond => looped fun sc => DoRuns sc (m.Tests cond sc) (inScope (body.run m d))
  | .loop body continuing breakIf =>
    looped fun sc =>
      LoopRuns sc (inTurn (runAll m d body)) (inTurn (runAll m d continuing)) (m.Exits breakIf)
  | .switch selector cases => runSwitch d selector (runCases m d cases)
  | .ret value => m.runReturn value
  | .breakOut => jump .broken
  | .continueOn => jump .continued
  | .discard => jump .discarded
  | .empty => skip

def runAll (m : Meaning) (d : Dialect) : List Stmt → List (Behaviour m.State m.Value)
  | [] => []
  | s :: ss => s.run m d :: runAll m d ss

def runOpt (m : Meaning) (d : Dialect) : Option Stmt → List (Behaviour m.State m.Value)
  | none => []
  | some s => [s.run m d]

/-- The branches of a `switch`. -/
def runCases (m : Meaning) (d : Dialect) : List Case → List (Arm m.State m.Value)
  | [] => []
  | .mk labels body :: cases => (labels, inTurn (runAll m d body)) :: runCases m d cases

end

variable {m : Meaning} {d : Dialect}

theorem inTurn_runAll (ss : List Stmt) : inTurn (runAll m d ss) = inOrder (run m d) ss := by
  have hmap : ∀ ss : List Stmt, runAll m d ss = ss.map (run m d) := by
    intro ss
    induction ss with
    | nil => rw [runAll, map_nil]
    | cons s ss ih => rw [runAll, ih, map_cons]
  rw [hmap, inOrder]

theorem inTurn_runOpt (o : Option Stmt) :
    inTurn (runOpt m d o) = inOrder (run m d) o.toList := by
  cases o with
  | none | some => rw [runOpt]; rfl

/-! ## Scopes -/

/-- Nothing is declared for what comes after it. -/
def KeepsScope (x : Behaviour m.State m.Value) : Prop :=
  ∀ a b o, x a b o → b.1 = a.1

theorem keepsScope_inScope (x : Behaviour m.State m.Value) : KeepsScope (inScope x) :=
  fun _ _ _ h => h.1

theorem keepsScope_looped (rounds : m.Scope → Behaviour m.Store m.Value) :
    KeepsScope (looped rounds) :=
  fun _ _ _ h => h.1

theorem keepsScope_jump (how : Outcome m.Value) : KeepsScope (m := m) (jump how) := by
  rintro a b o ⟨rfl, -⟩
  rfl

theorem keepsScope_skip : KeepsScope (m := m) skip :=
  keepsScope_jump _

theorem keepsScope_runExpr (e : Expr) : KeepsScope (m.runExpr e) :=
  fun _ _ _ h => h.1

theorem keepsScope_runReturn (value : Option Expr) : KeepsScope (m.runReturn value) := by
  cases value with
  | none => exact keepsScope_jump _
  | some e => exact fun _ _ _ h => h.1

theorem KeepsScope.andThen {x y : Behaviour m.State m.Value} (hx : KeepsScope x)
    (hy : KeepsScope y) : KeepsScope (x.andThen y) := by
  rintro a c o (⟨b, hab, hbc⟩ | ⟨hac, -⟩)
  · exact (hy b c o hbc).trans (hx a b _ hab)
  · exact hx a c o hac

theorem keepsScope_branch (cond : Expr) (x y : Behaviour m.State m.Value) :
    KeepsScope (branch cond x y) := by
  rintro a b o (⟨s, -, h⟩ | ⟨s, -, h⟩ | ⟨-, h, -⟩)
  · exact h.1
  · exact h.1
  · exact h

theorem keepsScope_runSwitch (selector : Expr) (bs : List (Arm m.State m.Value)) :
    KeepsScope (runSwitch d selector bs) := by
  rintro a b o (⟨v, s, -, h⟩ | ⟨-, h, -⟩)
  · cases d <;> exact h.1
  · exact h

theorem keepsScope_run {s : Stmt} (h : s.isDecl = false) : KeepsScope (s.run m d) := by
  cases s with
  | decl => cases h
  | expr e => rw [run]; exact keepsScope_runExpr e
  | block | forLoop => rw [run]; exact keepsScope_inScope _
  | ifElse => rw [run]; exact keepsScope_branch _ _ _
  | whileLoop | doWhile | loop => rw [run]; exact keepsScope_looped _
  | switch => rw [run]; exact keepsScope_runSwitch _ _
  | ret value => rw [run]; exact keepsScope_runReturn value
  | breakOut | continueOn | discard => rw [run]; exact keepsScope_jump _
  | empty => rw [run]; exact keepsScope_skip

theorem keepsScope_inOrder {ss : List Stmt} (h : ∀ s ∈ ss, s.isDecl = false) :
    KeepsScope (inOrder (run m d) ss) := by
  induction ss with
  | nil => exact keepsScope_skip
  | cons s ss ih =>
    have htail : KeepsScope (inOrder (run m d) ss) := ih fun t ht => h t (mem_cons_of_mem _ ht)
    exact (keepsScope_run (h s mem_cons_self)).andThen htail

theorem inScope_eq_self {x : Behaviour m.State m.Value} (h : KeepsScope x) : inScope x = x := by
  funext a b o
  apply propext
  constructor
  · rintro ⟨hscope, sc, hx⟩
    have hsc : sc = b.1 := (h a (sc, b.2) o hx).trans hscope.symm
    rwa [hsc] at hx
  · intro hx
    exact ⟨h a b o hx, b.1, hx⟩

/-- **The interpretation of statements by a meaning**: jumps are jumps, and a block that declares
nothing does what its statements do. -/
theorem interprets_run (m : Meaning) (d : Dialect) : Interprets (run m d) where
  block body hbody := by
    rw [run, inTurn_runAll, inScope_eq_self (keepsScope_inOrder hbody)]
  breakOut := by rw [run]
  continueOn := by rw [run]
  discard := by rw [run]
  ret value a b o h := by
    rw [run] at h
    cases value with
    | none =>
      obtain ⟨-, rfl⟩ := h
      exact trivial
    | some e =>
      obtain ⟨-, v, -, rfl⟩ := h
      exact Outcome.leaves_ofReturn v

end Stmt

/-! ## Counting

A meaning with a single variable, which holds a number and has all names. -/

namespace Meaning

mutual

/-- The value of an expression and of the variable after it. -/
def counted : Expr → Nat → Nat × Nat
  | .int text, n => ((Literal.wordValue text.toList).getD 0, n)
  | .ident _, n => (n, n)
  | .unary .not e, n => (if (counted e n).1 = 0 then 1 else 0, (counted e n).2)
  | .unary .postInc _, n => (n, n + 1)
  | .binary .lt x y, n =>
    let a := counted x n
    let b := counted y a.2
    (if a.1 < b.1 then 1 else 0, b.2)
  | .binary .ge x y, n =>
    let a := counted x n
    let b := counted y a.2
    (if b.1 ≤ a.1 then 1 else 0, b.2)
  | .assign none _ rhs, n => ((counted rhs n).1, (counted rhs n).1)
  | .comma items, n => (0, countedAll items n)
  | _, n => (0, n)

/-- The variable after expressions in order. -/
def countedAll : List Expr → Nat → Nat
  | [], n => n
  | e :: es, n => countedAll es (counted e n).2

end

def counting : Meaning where
  Scope := Unit
  Store := Nat
  Value := Nat
  eval e _ s v t := v = some (counted e s).1 ∧ t = (counted e s).2
  declare d _ s sc t := sc = some () ∧ t = (d.init.map fun e => (counted e s).1).getD s
  truth v := decide (v ≠ 0)
  equals v e := v == (counted e 0).1
  eval_not e sc s r t := by
    by_cases h : (counted e s).1 = 0 <;> simp [counted, h, and_assoc]
  eval_comma_nil sc s r t := by
    simp [counted, countedAll, and_assoc, eq_comm]
  eval_comma_cons e es sc s r t := by
    simp [counted, countedAll, and_assoc]

theorem tests_counting {e : Expr} {sc : Unit} {s t : Nat} {r : Option Bool} :
    counting.Tests e sc s r t ↔
      t = (counted e s).2 ∧ some (decide ((counted e s).1 ≠ 0)) = r := by
  simp [Tests, counting, and_assoc]

theorem counting_ordered : counting.Ordered := by
  intro x y sc s r t
  refine tests_counting.trans (Iff.trans ?_ tests_counting.symm)
  rcases Nat.lt_or_ge (counted x s).1 (counted y (counted x s).2).1 with h | h
  · cases r <;> simp [counted, h]
  · cases r <;> simp [counted, h]

end Meaning

end ShaderEffect
