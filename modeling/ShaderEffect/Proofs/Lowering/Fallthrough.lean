import Mathlib.Data.List.TakeWhile
import ShaderEffect.Proofs.Execution
import ShaderEffect.Proofs.Lowering.Stable.Branch

/-!
# Separated branches do what running on did

In the source language the branch that a value selects runs on into the branches after it until a
jump. Lowering writes all that into the branch, up to the first branch that ends in a jump, and drops
a `break` at its end. **The separated branches, each of which runs alone, do the same as the branches
that ran on** (`fallThrough_iff_choose`), whatever the statements in them do, and one of them is the
default.

The argument follows the bodies: a body that ends in a jump never ends normally, so nothing after it
counts (`inOrder_runOn`); a `break` leads behind the `switch`, where the end of the body leads too
(`leaveSwitch_dropBreak`).
-/

namespace ShaderEffect.Lowering

open Behaviour Stmt List

variable {σ ν : Type} {run : Stmt → Behaviour σ ν} {hit : Expr → Bool}
variable (cs : List Case)

/-! ## What a body does -/

section

variable (h : Interprets run)
include h

theorem not_normal_of_isJump {s : Stmt} (hs : s.isJump = true) (a b : σ) : ¬ run s a b .normal := by
  intro hrun
  cases s with
  | ret value => exact (h.ret value a b _ hrun).ne_normal rfl
  | breakOut =>
    rw [h.breakOut] at hrun
    cases hrun.2
  | continueOn =>
    rw [h.continueOn] at hrun
    cases hrun.2
  | discard =>
    rw [h.discard] at hrun
    cases hrun.2
  | _ => cases hs

theorem not_normal_of_endsInJump {body : List Stmt} (hbody : endsInJump body = true) (a b : σ) :
    ¬ inOrder run body a b .normal := by
  rcases eq_nil_or_concat body with rfl | ⟨init, last, rfl⟩
  · cases hbody
  · rw [concat_eq_append] at hbody ⊢
    rw [endsInJump, getLast?_concat] at hbody
    rw [inOrder_append, inOrder_singleton]
    rintro (⟨c, -, hlast⟩ | ⟨-, hne⟩)
    · exact not_normal_of_isJump h hbody c b hlast
    · exact hne rfl

theorem inOrder_caseBody {body : List Stmt} (hdecl : ∀ s ∈ caseBody body, s.isDecl = false) :
    inOrder run (caseBody body) = inOrder run body := by
  by_cases hlone : ∃ inner, body = [.block inner]
  · obtain ⟨inner, rfl⟩ := hlone
    rw [inOrder_singleton, h.block inner hdecl]
    rfl
  · rw [caseBody_of_bare fun inner heq => hlone ⟨inner, heq⟩]

theorem inOrder_runOn : ∀ {cs : List Case},
    (∀ c ∈ cs, ∀ s ∈ caseBody c.body, s.isDecl = false) →
      inOrder run (runOn cs) = inTurn ((Case.arms run cs).map Prod.snd)
  | [], _ => rfl
  | c :: cs, hdecl => by
    have hbody : inOrder run (caseBody c.body) = inOrder run c.body :=
      inOrder_caseBody h (hdecl c mem_cons_self)
    have htail := inOrder_runOn fun d hd => hdecl d (mem_cons_of_mem _ hd)
    rw [runOn_cons, inOrder_append, runAfter]
    show _ = (inOrder run c.body).andThen (inTurn ((Case.arms run cs).map Prod.snd))
    split
    · -- the body ends in a jump, so that on both sides nothing comes after it
      rename_i hjump
      have hends := not_normal_of_endsInJump h hjump
      rw [andThen_eq_left hends, hbody, andThen_eq_left (hbody ▸ hends)]
    · rw [htail, hbody]

theorem leaveSwitch_dropBreak (body : List Stmt) :
    (inOrder run (dropBreak body)).leaveSwitch = (inOrder run body).leaveSwitch := by
  rcases dropBreak_cases body with ⟨-, heq⟩ | heq
  · rw [heq]
  · conv_rhs => rw [heq, inOrder_append, inOrder_singleton, h.breakOut]
    rw [leaveSwitch_andThen_break]

end

/-! ## Which branch is selected -/

abbrev selectedFrom (hit : Expr → Bool) (cs : List Case) : List Case :=
  CaseLabel.selectFrom Case.labels hit cs

theorem selectFrom_arms :
    CaseLabel.selectFrom Prod.fst hit (Case.arms run cs) = Case.arms run (selectedFrom hit cs) :=
  CaseLabel.selectFrom_map ..

theorem selectedFrom_subset : selectedFrom hit cs ⊆ cs := by
  unfold selectedFrom CaseLabel.selectFrom
  split
  · exact dropWhile_subset _
  · exact dropWhile_subset _

theorem dropWhile_separated (skips : List CaseLabel → Bool) : ∀ cs : List Case,
    (separated cs).dropWhile (fun c => skips c.labels) =
      separated (cs.dropWhile fun c => skips c.labels)
  | [] => rfl
  | c :: cs => by
    rw [separated, dropWhile_cons, dropWhile_cons]
    show (if skips c.labels = true then _ else _) = _
    split
    · exact dropWhile_separated skips cs
    · rfl

theorem selectedFrom_separated :
    selectedFrom hit (separated cs) = separated (selectedFrom hit cs) := by
  unfold selectedFrom CaseLabel.selectFrom
  rw [dropWhile_separated fun ls => !ls.any fun l => l.value?.any hit,
    dropWhile_separated fun ls => !ls.any CaseLabel.isDefault]
  cases cs.dropWhile fun c => !c.labels.any fun l => l.value?.any hit <;> rfl

theorem choose_addDefault :
    Arm.choose hit (Case.arms run (addDefault cs)) = Arm.choose hit (Case.arms run cs) := by
  unfold addDefault
  split
  · rfl
  · rename_i hnone
    have hdefault : (cs.dropWhile fun c => !c.labels.any CaseLabel.isDefault) = [] := by
      rw [dropWhile_eq_nil_iff]
      simpa using hnone
    rw [Arm.choose, Arm.choose, selectFrom_arms, selectFrom_arms]
    unfold selectedFrom CaseLabel.selectFrom
    rw [dropWhile_append, dropWhile_append, hdefault]
    cases cs.dropWhile fun c => !c.labels.any fun l => l.value?.any hit with
    | nil =>
      show (inTurn [skip]).leaveSwitch = (inTurn []).leaveSwitch
      exact congrArg leaveSwitch (skip_andThen _)
    | cons c rest => rfl

theorem exists_default_addDefault : ∃ c ∈ addDefault cs, ∃ l ∈ c.labels, l.isDefault = true := by
  unfold addDefault
  split
  · rename_i hany
    obtain ⟨c, hc, hlabel⟩ := any_eq_true.mp hany
    exact ⟨c, hc, any_eq_true.mp hlabel⟩
  · exact ⟨_, mem_append_right _ (mem_singleton.mpr rfl), .default,
      mem_singleton.mpr rfl, rfl⟩

/-! ## The whole `switch` -/

/-- Separated branches, of which the selected one runs alone, do what the branches did that ran on
into each other. -/
theorem choose_separated (h : Interprets run) {cs : List Case}
    (hdecl : ∀ c ∈ cs, ∀ s ∈ caseBody c.body, s.isDecl = false) :
    Arm.choose hit (Case.arms run (separated cs)) = Arm.fallThrough hit (Case.arms run cs) := by
  rw [Arm.choose, Arm.fallThrough, selectFrom_arms, selectFrom_arms, selectedFrom_separated]
  have hselected : ∀ c ∈ selectedFrom hit cs, ∀ s ∈ caseBody c.body, s.isDecl = false :=
    fun c hc => hdecl c (selectedFrom_subset cs hc)
  cases hcs : selectedFrom hit cs with
  | nil => rfl
  | cons c rest =>
    rw [hcs] at hselected
    show (inTurn [inOrder run (dropBreak (runOn (c :: rest)))]).leaveSwitch = _
    rw [inTurn, inTurn, andThen_skip, leaveSwitch_dropBreak h, inOrder_runOn h hselected]

/-- **A `switch` whose branches run on into each other does what the separated branches do, of which
only the selected one runs**: from any state it leads to the same states, and ends there in the same
ways, for any interpretation of the statements in the branches and any values that hit a label. One
of the separated branches is the default. -/
theorem fallThrough_iff_choose (h : Interprets run) {cs : List Case}
    (hdecl : ∀ c ∈ cs, ∀ s ∈ caseBody c.body, s.isDecl = false) (hit : Expr → Bool) (s : State) :
    let lowered := addDefault (separateCases cs s).1
    (∀ a b o, Arm.fallThrough hit (Case.arms run cs) a b o ↔
        Arm.choose hit (Case.arms run lowered) a b o) ∧
      ∃ c ∈ lowered, ∃ l ∈ c.labels, l.isDefault = true := by
  intro lowered
  refine ⟨fun a b o => ?_, exists_default_addDefault _⟩
  rw [choose_addDefault, separateCases_fst, choose_separated h hdecl]

/-- Branches of which the first runs on into a block with a `break` inside a condition, and none is
the default. -/
def runningCases : List Case :=
  let step : Stmt := .expr (.unary .postInc (.ident "n"))
  [.mk [.value (.int "0")] [step],
    .mk [.value (.int "1"), .value (.int "2")]
      [.block [step, .ifElse (.binary .lt (.ident "n") (.int "2")) .breakOut none, step]],
    .mk [.value (.int "3")] [step, .breakOut, step]]

theorem fallThrough_iff_choose_runningCases :
    Interprets (Stmt.run Meaning.counting .target) ∧
      (∀ c ∈ runningCases, ∀ s ∈ caseBody c.body, s.isDecl = false) ∧
      let lowered := addDefault (separateCases runningCases {}).1
      (∀ a b o,
          Arm.fallThrough (Meaning.counting.equals (0 : Nat))
              (Case.arms (Stmt.run Meaning.counting .target) runningCases) a b o ↔
            Arm.choose (Meaning.counting.equals (0 : Nat))
              (Case.arms (Stmt.run Meaning.counting .target) lowered) a b o) ∧
        ∃ c ∈ lowered, ∃ l ∈ c.labels, l.isDefault = true := by
  have hdecl : ∀ c ∈ runningCases, ∀ s ∈ caseBody c.body, s.isDecl = false := by decide
  exact ⟨interprets_run _ _, hdecl, fallThrough_iff_choose (interprets_run _ _) hdecl _ _⟩

end ShaderEffect.Lowering
