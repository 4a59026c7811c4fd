import ShaderEffect.Lowering.ControlFlow.Shape
import ShaderEffect.Proofs.Execution

/-!
# Lowered loops do what the loops did

A loop that tests after its body becomes a loop of the target language whose exit test is the negated
condition. A `for` loop with a header that the target language does not take becomes one whose body
starts with a negated test and a `break`, and whose step runs between two rounds. **Both lead to the
same states and end in the same ways as before** (`run_iff_shape`), for any meaning of expressions in
which `a < b` is the negation of `a >= b`, as long as the body declares nothing at its top level.

Each direction goes round by round: one round of the source loop is one round of the target loop, with
`continue` leading to the step and the exit test in both (`forRuns_iff_loopRuns`,
`doRuns_iff_loopRuns`).
-/

namespace ShaderEffect.Lowering

open Behaviour Meaning Stmt Stmt

variable {m : Meaning} {d : Dialect}
variable {start : Option Stmt} {body : Stmt}

/-! ## Conditions -/

theorem tests_not (e : Expr) (sc : m.Scope) (s : m.Store) (r : Option Bool) (t : m.Store) :
    m.Tests (.unary .not e) sc s r t ↔ m.Tests e sc s (r.map (!·)) t := by
  refine (m.eval_not e sc s r t).trans (exists_congr fun v => and_congr Iff.rfl ?_)
  cases v <;> cases r <;> simp [Bool.not_eq_eq_eq_not]

theorem tests_negate (ho : m.Ordered) (e : Expr) (sc : m.Scope) (s : m.Store) (r : Option Bool)
    (t : m.Store) : m.Tests (negate e) sc s r t ↔ m.Tests e sc s (r.map (!·)) t := by
  have htwice : (r.map (!·)).map (!·) = r := by cases r <;> simp
  unfold negate
  split
  · rw [tests_not, htwice]
  · rw [ho, htwice]
  · exact tests_not ..

/-- The statements that leave an opened loop where its condition fails. -/
def exitTest (cond : Option Expr) : List Stmt :=
  cond.toList.map fun c => .ifElse (negate c) (.block [.breakOut]) none

theorem run_exit_iff (e : Expr) (a b : m.State) (o : Outcome m.Value) :
    Stmt.run m d (.ifElse e (.block [.breakOut]) none) a b o ↔
      b.1 = a.1 ∧ ((m.Tests e a.1 a.2 (some false) b.2 ∧ o = .normal) ∨
        (m.Tests e a.1 a.2 (some true) b.2 ∧ o = .broken) ∨
          (m.Tests e a.1 a.2 none b.2 ∧ o = .discarded)) := by
  have hbreak : run m d (.block [.breakOut]) = jump .broken := by
    rw [(interprets_run m d).block _ (by decide), inOrder_singleton,
      (interprets_run m d).breakOut]
  have hrun : run m d (.ifElse e (.block [.breakOut]) none) =
      branch e (jump .broken) skip := by
    rw [run, hbreak, runOpt]
    rfl
  rw [hrun]
  unfold branch
  rw [inScope_eq_self (keepsScope_jump _), inScope_eq_self keepsScope_skip]
  constructor
  · rintro (⟨s, hs, rfl, rfl⟩ | ⟨s, hs, rfl, rfl⟩ | ⟨hs, hscope, rfl⟩)
    · exact ⟨rfl, .inr (.inl ⟨hs, rfl⟩)⟩
    · exact ⟨rfl, .inl ⟨hs, rfl⟩⟩
    · exact ⟨hscope, .inr (.inr ⟨hs, rfl⟩)⟩
  · rintro ⟨hscope, ⟨hs, rfl⟩ | ⟨hs, rfl⟩ | ⟨hs, rfl⟩⟩
    · exact .inr (.inl ⟨b.2, hs, Prod.ext hscope rfl, rfl⟩)
    · exact .inl ⟨b.2, hs, Prod.ext hscope rfl, rfl⟩
    · exact .inr (.inr ⟨hs, hscope, rfl⟩)

theorem run_exitTest_iff (ho : m.Ordered) (cond : Option Expr) (a b : m.State)
    (o : Outcome m.Value) :
    inOrder (run m d) (exitTest cond) a b o ↔
      b.1 = a.1 ∧ ((m.Continues cond a.1 a.2 (some true) b.2 ∧ o = .normal) ∨
        (m.Continues cond a.1 a.2 (some false) b.2 ∧ o = .broken) ∨
          (m.Continues cond a.1 a.2 none b.2 ∧ o = .discarded)) := by
  cases cond with
  | none => simp [exitTest, inOrder, inTurn, skip, jump, Continues, Prod.ext_iff, and_assoc]
  | some c =>
    show inOrder (run m d) [_] a b o ↔ _
    rw [inOrder_singleton, run_exit_iff]
    simp only [tests_negate ho, Option.map_some, Option.map_none, Bool.not_true, Bool.not_false]
    rfl

/-! ## Bodies and steps -/

theorem inOrder_statements (h : ∀ s ∈ statements body, s.isDecl = false) :
    inOrder (run m d) (statements body) = body.run m d := by
  cases body with
  | block inner => exact ((interprets_run m d).block inner h).symm
  | empty => rw [run]; rfl
  | _ => exact inOrder_singleton ..

theorem keepsScope_body (h : ∀ s ∈ statements body, s.isDecl = false) :
    KeepsScope (body.run m d) := by
  rw [← inOrder_statements h]
  exact keepsScope_inOrder h

/-- A body does the same as a block, but for what it declares after it. -/
theorem inScope_asBlock (body : Stmt) : inScope ((asBlock body).run m d) = inScope (body.run m d) := by
  have hblock : ∀ inner, inScope (run m d (.block inner)) = run m d (.block inner) :=
    fun inner => inScope_eq_self (keepsScope_run rfl)
  rw [asBlock, hblock, run, inTurn_runAll]
  cases body with
  | block inner => rw [hblock, run, inTurn_runAll]; rfl
  | empty => rw [run]; rfl
  | _ => exact congrArg inScope (inOrder_singleton ..)

/-- The first part of a header does what its statements do, unless it is a block that declares. -/
theorem inOrder_start (h : ∀ ss, start = some (.block ss) → ∀ s ∈ ss, s.isDecl = false) :
    inOrder (run m d) (start.elim [] statements) = inTurn (runOpt m d start) := by
  rw [inTurn_runOpt]
  cases start with
  | none => rfl
  | some s =>
    show inOrder (run m d) (statements s) = inOrder (run m d) [s]
    cases s with
    | block ss => rw [inOrder_singleton, (interprets_run m d).block ss (h ss rfl)]; rfl
    | empty => rw [inOrder_singleton, run]; rfl
    | _ => rfl

theorem runExpr_comma : ∀ items : List Expr,
    m.runExpr (.comma items) = inOrder (run m d) (items.map .expr)
  | [] => by
    funext a b o
    apply propext
    constructor
    · rintro ⟨hscope, v, hv, rfl⟩
      obtain ⟨hstore, hsome⟩ := (m.eval_comma_nil ..).mp ⟨v, hv, rfl⟩
      obtain ⟨x, rfl⟩ := Option.isSome_iff_exists.mp hsome
      exact ⟨Prod.ext hscope hstore, rfl⟩
    · rintro ⟨rfl, rfl⟩
      obtain ⟨v, hv, hsome⟩ := (m.eval_comma_nil b.1 b.2 true b.2).mpr ⟨rfl, rfl⟩
      obtain ⟨x, rfl⟩ := Option.isSome_iff_exists.mp hsome
      exact ⟨rfl, some x, hv, rfl⟩
  | e :: es => by
    have htail := runExpr_comma es
    have hcons : inOrder (run m d) ((e :: es).map .expr) =
        (m.runExpr e).andThen (m.runExpr (.comma es)) := by
      rw [htail, List.map_cons, inOrder, List.map_cons, inTurn, run]
      rfl
    rw [hcons]
    funext a b o
    apply propext
    constructor
    · rintro ⟨hscope, v, hv, rfl⟩
      rcases (m.eval_comma_cons ..).mp ⟨v, hv, rfl⟩ with ⟨x, u, hx, w, hw, hsome⟩ | ⟨hx, hnone⟩
      · have hend : (Outcome.ofResult v : Outcome m.Value) = .ofResult w := by
          rw [Outcome.ofResult, Outcome.ofResult, hsome]
        exact .inl ⟨(a.1, u), ⟨rfl, some x, hx, rfl⟩, hscope, w, hw, hend⟩
      · cases v with
        | some => cases hnone
        | none => exact .inr ⟨⟨hscope, none, hx, rfl⟩, by simp⟩
    · rintro (⟨c, ⟨hac, x, hx, hnormal⟩, hcb, w, hw, rfl⟩ | ⟨⟨hscope, x, hx, rfl⟩, hne⟩)
      · cases x with
        | none => cases hnormal
        | some x =>
          rw [hac] at hw
          obtain ⟨v, hv, hsome⟩ :=
            (m.eval_comma_cons e es a.1 a.2 w.isSome b.2).mpr (.inl ⟨x, c.2, hx, w, hw, rfl⟩)
          refine ⟨hcb.trans hac, v, hv, ?_⟩
          rw [Outcome.ofResult, Outcome.ofResult, hsome]
      · cases x with
        | some x => exact absurd rfl hne
        | none =>
          obtain ⟨v, hv, hsome⟩ :=
            (m.eval_comma_cons e es a.1 a.2 false b.2).mpr (.inr ⟨hx, rfl⟩)
          refine ⟨hscope, v, hv, ?_⟩
          rw [Outcome.ofResult, Outcome.ofResult, hsome]
          rfl

theorem inOrder_step (step : Option Expr) :
    inOrder (run m d) (step.elim [] stepStmts) = m.runOptExpr step := by
  cases step with
  | none => rfl
  | some e =>
    have hsingle : inOrder (run m d) [.expr e] = m.runExpr e := by
      rw [inOrder_singleton, run]
    cases e with
    | comma items => exact (runExpr_comma items).symm
    | _ => exact hsingle

/-! ## Rounds -/

section Rounds

variable {sc : m.Scope} {body step : Behaviour m.State m.Value} {s t : m.Store}
  {o : Outcome m.Value}
variable {a : m.State}

theorem exits_negate_iff (ho : m.Ordered) (cond : Expr) (hbody : KeepsScope body)
    (hrun : body (sc, s) a o) (r : Option Bool) (u : m.Store) :
    m.Exits (some (negate cond)) a.1 a.2 r u ↔ m.Tests cond sc a.2 (r.map (!·)) u := by
  rw [show a.1 = sc from hbody _ _ _ hrun]
  exact tests_negate ho ..

/-- A loop that tests after its body runs as the target loop with the negated condition as its exit
test. -/
theorem doRuns_iff_loopRuns (ho : m.Ordered) (cond : Expr) (hbody : KeepsScope body) :
    DoRuns sc (m.Tests cond sc) body s t o ↔
      LoopRuns sc body skip (m.Exits (some (negate cond))) s t o := by
  constructor
  · intro h
    induction h with
    | broken hrun => exact .broken hrun
    | leaves hrun hleaves => exact .leaves hrun hleaves
    | done hrun hends htest =>
      exact .done hrun hends ⟨rfl, rfl⟩ ((exits_negate_iff ho cond hbody hrun _ _).mpr htest)
    | testDiscards hrun hends htest =>
      exact .exitDiscards hrun hends ⟨rfl, rfl⟩ ((exits_negate_iff ho cond hbody hrun _ _).mpr htest)
    | next hrun hends htest _ ih =>
      exact .next hrun hends ⟨rfl, rfl⟩ ((exits_negate_iff ho cond hbody hrun _ _).mpr htest) ih
  · intro h
    induction h with
    | broken hrun => exact .broken hrun
    | leaves hrun hleaves => exact .leaves hrun hleaves
    | continuingEnds _ _ hskip hne => exact absurd hskip.2 hne
    | done hrun hends hskip hexit =>
      obtain ⟨rfl, -⟩ := hskip
      exact .done hrun hends ((exits_negate_iff ho cond hbody hrun _ _).mp hexit)
    | exitDiscards hrun hends hskip hexit =>
      obtain ⟨rfl, -⟩ := hskip
      exact .testDiscards hrun hends ((exits_negate_iff ho cond hbody hrun _ _).mp hexit)
    | next hrun hends hskip hexit _ ih =>
      obtain ⟨rfl, -⟩ := hskip
      exact .next hrun hends ((exits_negate_iff ho cond hbody hrun _ _).mp hexit) ih

/-- A round of an opened loop: its condition is tested first, and it leaves the loop where that
fails. -/
theorem round_iff (ho : m.Ordered) (cond : Option Expr) :
    ((inOrder (run m d) (exitTest cond)).andThen body) (sc, s) a o ↔
      (∃ u, m.Continues cond sc s (some true) u ∧ body (sc, u) a o) ∨
        (a.1 = sc ∧ ((m.Continues cond sc s (some false) a.2 ∧ o = .broken) ∨
          (m.Continues cond sc s none a.2 ∧ o = .discarded))) := by
  constructor
  · rintro (⟨b, htest, hrun⟩ | ⟨htest, hne⟩)
    · obtain ⟨hscope, ⟨hcond, -⟩ | ⟨-, hend⟩ | ⟨-, hend⟩⟩ := (run_exitTest_iff ho ..).mp htest
      · rw [show b = (sc, b.2) from Prod.ext hscope rfl] at hrun
        exact .inl ⟨b.2, hcond, hrun⟩
      · cases hend
      · cases hend
    · obtain ⟨hscope, ⟨-, hend⟩ | hfalse | hnone⟩ := (run_exitTest_iff ho ..).mp htest
      · exact absurd hend hne
      · exact .inr ⟨hscope, .inl hfalse⟩
      · exact .inr ⟨hscope, .inr hnone⟩
  · rintro (⟨u, hcond, hrun⟩ | ⟨hscope, ⟨hcond, rfl⟩ | ⟨hcond, rfl⟩⟩)
    · exact .inl ⟨(sc, u), (run_exitTest_iff ho ..).mpr ⟨rfl, .inl ⟨hcond, rfl⟩⟩, hrun⟩
    · exact .inr ⟨(run_exitTest_iff ho ..).mpr ⟨hscope, .inr (.inl ⟨hcond, rfl⟩)⟩, by simp⟩
    · exact .inr ⟨(run_exitTest_iff ho ..).mpr ⟨hscope, .inr (.inr ⟨hcond, rfl⟩)⟩, by simp⟩

theorem endsRound_iff (ho : m.Ordered) (cond : Option Expr) (hbody : KeepsScope body)
    (hends : o.EndsRound) :
    ((inOrder (run m d) (exitTest cond)).andThen body) (sc, s) a o ↔
      a.1 = sc ∧ ∃ u, m.Continues cond sc s (some true) u ∧ body (sc, u) a o := by
  rw [round_iff ho]
  constructor
  · rintro (⟨u, hcond, hrun⟩ | ⟨-, ⟨-, rfl⟩ | ⟨-, rfl⟩⟩)
    · exact ⟨hbody _ _ _ hrun, u, hcond, hrun⟩
    · rcases hends with h | h <;> cases h
    · rcases hends with h | h <;> cases h
  · exact fun h => .inl h.2

/-- A loop that tests before its body runs as the opened loop, whose body starts with the test and
whose step runs between two rounds. -/
theorem forRuns_iff_loopRuns (ho : m.Ordered) (cond : Option Expr) (hbody : KeepsScope body) :
    ForRuns sc (m.Continues cond sc) body step s t o ↔
      LoopRuns sc ((inOrder (run m d) (exitTest cond)).andThen body) step (m.Exits none) s t o := by
  constructor
  · intro h
    induction h with
    | @done s t htest =>
      exact .broken (a := (sc, t)) ((round_iff ho cond).mpr (.inr ⟨rfl, .inl ⟨htest, rfl⟩⟩))
    | @testDiscards s t htest =>
      exact .leaves (a := (sc, t)) ((round_iff ho cond).mpr (.inr ⟨rfl, .inr ⟨htest, rfl⟩⟩)) trivial
    | broken htest hrun => exact .broken ((round_iff ho cond).mpr (.inl ⟨_, htest, hrun⟩))
    | leaves htest hrun hleaves =>
      exact .leaves ((round_iff ho cond).mpr (.inl ⟨_, htest, hrun⟩)) hleaves
    | @stepEnds s t a b how p htest hrun hends hstep hne =>
      have hscope : a = (sc, a.2) := Prod.ext (hbody (sc, t) a how hrun) rfl
      rw [← hscope] at hstep
      exact .continuingEnds ((round_iff ho cond).mpr (.inl ⟨_, htest, hrun⟩)) hends hstep hne
    | @next s t u a b how p htest hrun hends hstep _ ih =>
      have hscope : a = (sc, a.2) := Prod.ext (hbody (sc, t) a how hrun) rfl
      rw [← hscope] at hstep
      exact .next ((round_iff ho cond).mpr (.inl ⟨_, htest, hrun⟩)) hends hstep ⟨rfl, rfl⟩ ih
  · intro h
    induction h with
    | broken hround =>
      rcases (round_iff ho cond).mp hround with ⟨u, htest, hrun⟩ | ⟨-, ⟨htest, -⟩ | ⟨-, hend⟩⟩
      · exact .broken htest hrun
      · exact .done htest
      · cases hend
    | leaves hround hleaves =>
      rcases (round_iff ho cond).mp hround with ⟨u, htest, hrun⟩ | ⟨-, ⟨-, rfl⟩ | ⟨htest, rfl⟩⟩
      · exact .leaves htest hrun hleaves
      · exact hleaves.elim
      · exact .testDiscards htest
    | @continuingEnds s a b how p hround hends hstep hne =>
      obtain ⟨hscope, u, htest, hrun⟩ := (endsRound_iff ho cond hbody hends).mp hround
      rw [show a = (sc, a.2) from Prod.ext hscope rfl] at hstep
      exact .stepEnds htest hrun hends hstep hne
    | done _ _ _ hexit => cases hexit.2
    | exitDiscards _ _ _ hexit => cases hexit.2
    | @next s t u a b how p hround hends hstep hexit _ ih =>
      obtain ⟨hscope, v, htest, hrun⟩ := (endsRound_iff ho cond hbody hends).mp hround
      rw [show a = (sc, a.2) from Prod.ext hscope rfl] at hstep
      rw [hexit.1] at ih
      exact .next htest hrun hends hstep ih

end Rounds

/-! ## Loops -/

/-- A loop of the source language whose body declares nothing at its top level, or that keeps its
form. What a `for` loop declares stands in its header without a block around it. -/
inductive BareLoop : Stmt → Prop
  | forLoop {start : Option Stmt} {cond step : Option Expr} {body : Stmt} :
      (∀ ss, start = some (.block ss) → ∀ s ∈ ss, s.isDecl = false) →
      (∀ s ∈ statements body, s.isDecl = false) → BareLoop (.forLoop start cond step body)
  | whileLoop {cond : Expr} {body : Stmt} : BareLoop (.whileLoop cond body)
  | doWhile {body : Stmt} {cond : Expr} :
      (∀ s ∈ statements body, s.isDecl = false) → BareLoop (.doWhile body cond)

theorem run_doWhile_eq (ho : m.Ordered) (cond : Expr)
    (h : ∀ s ∈ statements body, s.isDecl = false) :
    Stmt.run m d (.doWhile body cond) =
      Stmt.run m d (.loop (statements body) [] (some (negate cond))) := by
  have hkeeps : KeepsScope (body.run m d) := keepsScope_body h
  rw [run, run, inTurn_runAll, inTurn_runAll, inOrder_statements h, inScope_eq_self hkeeps]
  funext a b o
  exact propext (and_congr_right fun _ => doRuns_iff_loopRuns ho cond hkeeps)

theorem run_openLoop (ho : m.Ordered) (cond step : Option Expr)
    (hstart : ∀ ss, start = some (.block ss) → ∀ s ∈ ss, s.isDecl = false)
    (hbody : ∀ s ∈ statements body, s.isDecl = false) :
    Stmt.run m d (openLoop start cond step body) =
      Stmt.run m d (.forLoop start cond step body) := by
  have hkeeps : KeepsScope (body.run m d) := keepsScope_body hbody
  have hloop : run m d
        (.loop (exitTest cond ++ statements body) (step.elim [] stepStmts) none) =
      looped fun sc =>
        ForRuns sc (m.Continues cond sc) (inScope (body.run m d)) (m.runOptExpr step) := by
    rw [run, inTurn_runAll, inTurn_runAll, inOrder_append, inOrder_statements hbody, inOrder_step,
      inScope_eq_self hkeeps]
    funext a b o
    exact propext (and_congr_right fun _ => (forRuns_iff_loopRuns ho cond hkeeps).symm)
  show run m d (.block (start.elim [] statements ++ [_])) = _
  rw [run, run, inTurn_runAll, inOrder_append, inOrder_singleton, inOrder_start hstart]
  exact congrArg (fun x => inScope ((inTurn (runOpt m d start)).andThen x)) hloop

theorem run_shapeFor (ho : m.Ordered) (cond step : Option Expr)
    (hstart : ∀ ss, start = some (.block ss) → ∀ s ∈ ss, s.isDecl = false)
    (hbody : ∀ s ∈ statements body, s.isDecl = false) :
    Stmt.run m d (shapeFor start cond step body) =
      Stmt.run m d (.forLoop start cond step body) := by
  unfold shapeFor
  split
  · rw [run, run, inScope_asBlock]
  · exact run_openLoop ho cond step hstart hbody

/-- **A loop and what it is lowered to lead to the same states and end in the same ways**: by the end
of its condition, by a `break`, a `return` or a discarded fragment in any round, with `continue`
leading to the step and the test. This is so in either dialect and for any meaning of expressions in
which `a < b` is the negation of `a >= b`. -/
theorem run_iff_shape (ho : m.Ordered) {loop : Stmt} (hloop : BareLoop loop) (st : State)
    (a b : m.State) (o : Outcome m.Value) :
    loop.run m d a b o ↔ inOrder (run m d) (shape loop st).1 a b o := by
  have hsingle : ∀ {s : Stmt}, (shape loop st).1 = [s] → s.run m d = loop.run m d →
      (loop.run m d a b o ↔ inOrder (run m d) (shape loop st).1 a b o) := by
    intro s hshape hrun
    rw [hshape, inOrder_singleton, hrun]
  cases hloop with
  | forLoop hstart hbody => exact hsingle rfl (run_shapeFor ho _ _ hstart hbody)
  | whileLoop =>
    refine hsingle rfl ?_
    rw [run, run, inScope_asBlock]
  | doWhile hbody => exact hsingle rfl (run_doWhile_eq ho _ hbody).symm

/-- A loop with two steps a round, of which the first round ends in a `continue`. -/
def steppingLoop : Stmt :=
  let step : Expr := .unary .postInc (.ident "n")
  .forLoop (some (.expr (.assign none (.ident "n") (.int "0"))))
    (some (.binary .lt (.ident "n") (.int "3"))) (some (.comma [step, step]))
    (.block [.ifElse (.binary .lt (.ident "n") (.int "1")) .continueOn none])

theorem run_steppingLoop (n : Nat) :
    steppingLoop.run Meaning.counting .target ((), n) ((), (4 : Nat)) .normal := by
  unfold steppingLoop
  rw [run, inTurn_runOpt, Option.toList_some, inOrder_singleton, run]
  refine ⟨rfl, (), .inl ⟨((), (0 : Nat)), ⟨rfl, some (0 : Nat), ⟨rfl, rfl⟩, rfl⟩, rfl, ?_⟩⟩
  have hbody : run Meaning.counting .target
        (.block [.ifElse (.binary .lt (.ident "n") (.int "1")) .continueOn none]) =
      branch (.binary .lt (.ident "n") (.int "1")) (jump .continued) skip := by
    rw [(interprets_run _ _).block _ (by decide), inOrder_singleton, run, run, runOpt]
    rfl
  rw [hbody]
  refine .next (t := (0 : Nat)) (a := ((), (0 : Nat))) (b := ((), (2 : Nat))) (o := .continued)
    ⟨some (1 : Nat), ⟨rfl, rfl⟩, rfl⟩
    ⟨rfl, (), .inl ⟨(0 : Nat), ⟨some (1 : Nat), ⟨rfl, rfl⟩, rfl⟩, rfl, (), rfl, rfl⟩⟩ (.inr rfl)
    ⟨rfl, some (0 : Nat), ⟨rfl, rfl⟩, rfl⟩ ?_
  refine .next (t := (2 : Nat)) (a := ((), (2 : Nat))) (b := ((), (4 : Nat))) (o := .normal)
    ⟨some (1 : Nat), ⟨rfl, rfl⟩, rfl⟩
    ⟨rfl, (), .inr (.inl ⟨(2 : Nat), ⟨some (0 : Nat), ⟨rfl, rfl⟩, rfl⟩, rfl, (), rfl, rfl⟩)⟩
    (.inl rfl) ⟨rfl, some (0 : Nat), ⟨rfl, rfl⟩, rfl⟩ ?_
  exact ForRuns.done (m := Meaning.counting) ⟨some (0 : Nat), ⟨rfl, rfl⟩, rfl⟩

theorem run_iff_shape_steppingLoop :
    Meaning.counting.Ordered ∧ BareLoop steppingLoop ∧
      (∀ a b o, steppingLoop.run Meaning.counting .target a b o ↔
        inOrder (run Meaning.counting .target) (shape steppingLoop {}).1 a b o) ∧
      ∀ n : Nat, inOrder (run Meaning.counting .target) (shape steppingLoop {}).1 ((), n)
        ((), (4 : Nat)) .normal := by
  have hloop : BareLoop steppingLoop := .forLoop (by simp) (by decide)
  have hiff := run_iff_shape (m := Meaning.counting) (d := .target) counting_ordered hloop {}
  exact ⟨counting_ordered, hloop, hiff, fun n => (hiff _ _ _).mp (run_steppingLoop n)⟩

end ShaderEffect.Lowering
