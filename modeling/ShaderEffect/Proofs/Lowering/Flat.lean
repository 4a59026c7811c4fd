import ShaderEffect.Proofs.Lowering.Capture

/-!
# Flat statements

A statement is flat if each of its assignments and steps is a statement of its own or a part of the
header of a `for` loop, and none stands inside another expression (`Stmt.isFlat`, `Flat`). The
lowering of control flow moves side effects out of expressions and reports those that it cannot move.
`Unreported` says what holds if nothing is reported. It is closed under sequencing, so it goes through
the recursion of `extract` and over the forms of a statement.

**If nothing is reported, no side effect is left in an expression** (`unreported_extraction`), and what a
statement becomes is flat up to the two places at which the pass does not look (`unreported_lowerStmt`).
-/

namespace ShaderEffect

open List Stmt

variable {e : Expr}

namespace Expr

theorem anyEffect_eq_any : ∀ es : List Expr, anyEffect es = es.any hasEffect
  | [] => rfl
  | e :: es => by rw [anyEffect, anyEffect_eq_any es, any_cons]

theorem hasEffect_eq (e : Expr) : e.hasEffect = (e.isEffect || e.hasNestedEffect) := by
  cases e <;>
    simp [hasEffect, isEffect, hasNestedEffect, children, anyEffect_eq_any, Bool.or_assoc]

theorem hasNestedEffect_eq_false (h : e.hasEffect = false) : e.hasNestedEffect = false := by
  rw [hasEffect_eq, Bool.or_eq_false_iff] at h
  exact h.2

theorem hasNestedEffect_of_children (h : ∀ c ∈ e.children, c.hasEffect = false) :
    e.hasNestedEffect = false :=
  any_eq_false.mpr fun c hc => Bool.eq_false_iff.mp (h c hc)

theorem hasEffect_negate (e : Expr) : (Lowering.negate e).hasEffect = e.hasEffect := by
  unfold Lowering.negate
  split <;> simp [hasEffect, UnaryOp.isStep]

end Expr

/-- Each side effect of the statement itself is the whole statement or a whole part of the header of
a `for` loop. -/
def Stmt.isFlat : Stmt → Bool
  | .expr e => !e.hasNestedEffect
  | .forLoop _ cond step _ => cond.all (!·.hasNestedEffect) && step.all (!·.hasNestedEffect)
  | s => s.exprs.all (!·.hasEffect)

namespace Lowering

open Walker Expr

variable {s : Stmt}

/-! ## Flat statements -/

/-- No side effect stands inside an expression of the statement or of one in it. -/
def Flat (s : Stmt) : Prop :=
  ∀ t ∈ s.substmts, t.isFlat = true

/-- No side effect stands in a case label of the statement itself. -/
def FreeLabels (s : Stmt) : Prop :=
  ∀ e ∈ s.labelValues, e.hasEffect = false

theorem flat_iff : Flat s ↔ s.isFlat = true ∧ ∀ c ∈ s.children, Flat c := by
  unfold Flat
  rw [substmts_eq_cons, forall_mem_cons, forall_mem_flatMap]

theorem isFlat_iff_of_free (h : ∀ e ∈ s.operands, e.hasEffect = false) :
    s.isFlat = true ↔ FreeLabels s := by
  have hrest : s.exprs.all (!·.hasEffect) = true ↔ FreeLabels s := by
    simp only [exprs_eq_append, all_append, Bool.and_eq_true, all_eq_true,
      Bool.not_eq_true']
    exact and_iff_right h
  cases s with
  | expr e =>
    have he := hasNestedEffect_eq_false (h e mem_cons_self)
    exact iff_of_true ((Bool.not_eq_true' _).mpr he) (forall_mem_nil _)
  | forLoop start cond step body =>
    have hcond : ∀ e ∈ cond.toList, e.hasEffect = false := fun e he => h e (mem_append_left _ he)
    have hstep : ∀ e ∈ step.toList, e.hasEffect = false := fun e he => h e (mem_append_right _ he)
    refine iff_of_true ?_ (forall_mem_nil _)
    grind [isFlat, Option.all_eq_true, hasNestedEffect_eq_false]
  | _ => exact hrest

theorem flat_iff_of_free (h : ∀ e ∈ s.operands, e.hasEffect = false) :
    Flat s ↔ FreeLabels s ∧ ∀ c ∈ s.children, Flat c := by
  rw [flat_iff, isFlat_iff_of_free h]

theorem flat_expr : Flat (.expr e) ↔ e.hasNestedEffect = false := by
  rw [flat_iff, isFlat, Bool.not_eq_true']
  exact and_iff_left (forall_mem_nil _)

theorem ofBlocks_flat : OfBlocks Flat := fun ss => by
  rw [flat_iff_of_free (forall_mem_nil _)]
  exact and_iff_right (forall_mem_nil _)

theorem flat_breakOut : Flat .breakOut :=
  (flat_iff_of_free (forall_mem_nil _)).mpr ⟨forall_mem_nil _, forall_mem_nil _⟩

/-! ## What holds if nothing is reported -/

/-- Notices are only added, and if none is added, then `P`. -/
structure Unreported (P : Prop) (a b : State) : Prop where
  grows : a.notices <+: b.notices
  holds : b.notices = a.notices → P

namespace Unreported

variable {P Q : Prop} {a b c : State}

theorem imp (h : Unreported P a b) (hPQ : P → Q) : Unreported Q a b :=
  ⟨h.grows, fun heq => hPQ (h.holds heq)⟩

theorem of_eq (h : b.notices = a.notices) (hP : P) : Unreported P a b :=
  ⟨h ▸ prefix_rfl, fun _ => hP⟩

theorem noted (n : LoweringNotice) (h : b.notices = a.notices ++ [n]) : Unreported P a b :=
  ⟨h ▸ prefix_append .., fun heq => absurd (h.symm.trans heq) (by simp)⟩

theorem trans (h : Unreported P a b) (h' : Unreported Q b c) : Unreported (P ∧ Q) a c where
  grows := h.grows.trans h'.grows
  holds := fun heq => by
    -- the notices in between are neither fewer than before nor more than after
    have hmid : b.notices = a.notices :=
      (h.grows.eq_of_length_le (heq ▸ h'.grows.length_le)).symm
    exact ⟨h.holds hmid, h'.holds (heq.trans hmid.symm)⟩

end Unreported

theorem unreported_keepInPlace (place : FixedPlace) (e : Expr) (a : State) :
    Unreported (e.hasEffect = false) a (keepInPlace place e a).2 := by
  unfold keepInPlace
  split
  · exact .noted _ rfl
  · rename_i h
    exact .of_eq rfl (Bool.eq_false_iff.mpr h)

/-! ## Expressions -/

/-- What is left of expressions has no side effects, and what moved out of them is flat. -/
def Cleared (left : List Expr) (moved : List Stmt) : Prop :=
  (∀ e ∈ left, e.hasEffect = false) ∧ ∀ t ∈ moved, Flat t

theorem Cleared.append {ls ls' : List Expr} {ms ms' : List Stmt} (h : Cleared ls ms)
    (h' : Cleared ls' ms') : Cleared (ls ++ ls') (ms ++ ms') :=
  ⟨forall_mem_append.mpr ⟨h.1, h'.1⟩, forall_mem_append.mpr ⟨h.2, h'.2⟩⟩

theorem MovesTo.unreported {env : Env} {x : Expr} {ms : List Stmt} {a b : State}
    (h : MovesTo env e a x ms b) :
    Unreported ((∀ c ∈ e.children, c.hasEffect = false) → Cleared [x] ms) a b := by
  have heffect : (∀ c ∈ e.children, c.hasEffect = false) → ∀ t ∈ [Stmt.expr e], Flat t := fun h =>
    forall_mem_singleton.mpr (flat_expr.mpr (hasNestedEffect_of_children h))
  cases h with
  | stays he =>
    refine .of_eq rfl fun h => ⟨forall_mem_singleton.mpr ?_, forall_mem_nil _⟩
    rw [hasEffect_eq, he, hasNestedEffect_of_children h]
    rfl
  | reported n => exact .noted n rfl
  | target _ hx =>
    exact .of_eq rfl fun h => ⟨forall_mem_singleton.mpr (h _ hx), heffect h⟩
  | old _ _ hx hd _ hnotices =>
    refine .of_eq hnotices fun h => ⟨forall_mem_singleton.mpr rfl, forall_mem_cons.mpr ⟨?_, heffect h⟩⟩
    refine (flat_iff_of_free ?_).mpr ⟨forall_mem_nil _, forall_mem_nil _⟩
    simpa [operands, exprs, hd] using h _ hx

/-- **If nothing is reported, no side effect is left in an expression.** -/
theorem unreported_extraction (env : Env) :
    Extraction env fun _ ls ms a b => Unreported (Cleared ls ms) a b where
  nil := fun _ => .of_eq rfl ⟨forall_mem_nil _, forall_mem_nil _⟩
  append := fun h h' => (h.trans h').imp fun hboth => hboth.1.append hboth.2
  node := fun _ hlen h hm => (h.trans hm.unreported).imp fun ⟨⟨hleft, hmoved⟩, hnode⟩ => by
    rw [Expr.children_withChildren hlen] at hnode
    obtain ⟨he, hlast⟩ := hnode hleft
    exact ⟨he, forall_mem_append.mpr ⟨hmoved, hlast⟩⟩
  shortCircuit := fun {_ _ _ r _ _ _} _ h =>
    (h.trans (unreported_keepInPlace .shortCircuit r _)).imp fun ⟨⟨hleft, hmoved⟩, hr⟩ => by
      refine ⟨forall_mem_singleton.mpr ?_, hmoved⟩
      rw [hasEffect, forall_mem_singleton.mp hleft, hr]
      rfl

/-! ## Statements -/

/-- What a statement is flat for once its side effects have been moved out. -/
def FlatInside (s : Stmt) : Prop :=
  FreeLabels s ∧ ∀ c ∈ s.children, Flat c

theorem flat_hoisted_iff {s' : Stmt} {moved : List Stmt} (h : Cleared s'.operands moved)
    (hchildren : s'.children = s.children) (hlabels : s'.labelValues = s.labelValues) :
    (∀ t ∈ moved ++ [s'], Flat t) ↔ FlatInside s := by
  rw [forall_mem_append, forall_mem_singleton, and_iff_right h.2, flat_iff_of_free h.1,
    FlatInside, FreeLabels, FreeLabels, hchildren, hlabels]

theorem hasNestedStep_of_isUpdate (h : isUpdate e = true) :
    hasNestedStep e = e.hasNestedEffect := by
  cases e with
  | comma => cases h
  | _ => rfl

theorem unreported_hoist_forLoop (env : Env) (start : Option Stmt) (cond step : Option Expr)
    (body : Stmt) (a : State) :
    Unreported ((∀ c ∈ cond, c.hasEffect = false) ∧ ∀ e ∈ step, hasNestedStep e = false)
      a (hoist env (.forLoop start cond step body) a).2 := by
  let b := cond.elim a fun c => (keepInPlace .forCondition c a).2
  have hcond : Unreported (∀ c ∈ cond, c.hasEffect = false) a b := by
    cases cond with
    | none => exact .of_eq rfl fun c hc => by cases hc
    | some c => exact (unreported_keepInPlace _ c a).imp fun h e he => Option.mem_some.mp he ▸ h
  have hstep : Unreported (∀ e ∈ step, hasNestedStep e = false) b
      (hoist env (.forLoop start cond step body) a).2 := by
    unfold hoist
    cases step with
    | none =>
      refine .of_eq ?_ fun e he => by cases he
      cases cond <;> rfl
    | some e =>
      by_cases he : hasNestedStep e = true
      · simp only [he, if_true]
        refine .noted (.stepEffect e) ?_
        cases cond <;> rfl
      · simp only [he]
        refine .of_eq ?_ fun x hx => Option.mem_some.mp hx ▸ Bool.eq_false_iff.mpr he
        cases cond <;> rfl
  exact hcond.trans hstep

theorem HoistsTo.flat {out : List Stmt} {a b : State}
    (h : HoistsTo (fun _ ls ms a b => Unreported (Cleared ls ms) a b) a s out b)
    (hs : isKept s = false) : Unreported ((∀ t ∈ out, Flat t) ↔ FlatInside s) a b := by
  cases h with
  | effect _ hlen h =>
    refine h.imp fun hcleared => iff_of_true (forall_mem_append.mpr ⟨hcleared.2, ?_⟩)
      ⟨forall_mem_nil _, forall_mem_nil _⟩
    refine forall_mem_singleton.mpr (flat_expr.mpr (hasNestedEffect_of_children ?_))
    rw [Expr.children_withChildren hlen]
    exact hcleared.1
  | value _ h => exact h.imp fun h => flat_hoisted_iff h rfl rfl
  | operands hcast h => cases hcast <;> exact h.imp fun h => flat_hoisted_iff h rfl rfl
  | kept hkept =>
    rw [hs] at hkept
    cases hkept

theorem unreported_hoist (env : Env) (hs : isShaped s = true) (a : State) :
    Unreported ((∀ t ∈ (hoist env s a).1, Flat t) ↔ FlatInside s) a (hoist env s a).2 := by
  have hstays : ∀ {b}, Unreported (∀ e ∈ s.operands, e.hasEffect = false) a b →
      Unreported ((∀ t ∈ [s], Flat t) ↔ FlatInside s) a b := fun h => h.imp fun hfree => by
    rw [forall_mem_singleton, flat_iff_of_free hfree]
    exact Iff.rfl
  have hmoves : isKept s = false → _ := ((unreported_extraction env).hoist s a).flat
  cases s with
  | expr | ifElse | switch | decl => exact hmoves rfl
  | ret value =>
    cases value with
    | none => exact hstays (.of_eq rfl (forall_mem_nil _))
    | some e => exact hmoves rfl
  | whileLoop cond =>
    exact hstays ((unreported_keepInPlace _ cond a).imp fun h e he =>
      mem_singleton.mp he ▸ h)
  | loop body continuing breakIf =>
    cases breakIf with
    | none => exact hstays (.of_eq rfl (forall_mem_nil _))
    | some cond =>
      exact hstays ((unreported_keepInPlace _ cond a).imp fun h e he =>
        mem_singleton.mp he ▸ h)
  | forLoop start cond step body =>
    obtain ⟨b, hb, -⟩ := hoist_forLoop env start cond step body a
    refine (unreported_hoist_forLoop env start cond step body a).imp ?_
    rintro ⟨hcond, hstep⟩
    have hflat : (Stmt.forLoop start cond step body).isFlat = true := by
      simp only [isFlat, Bool.and_eq_true, Option.all_eq_true, Bool.not_eq_true']
      refine ⟨fun c hc => hasNestedEffect_eq_false (hcond c hc), fun e he => ?_⟩
      rw [← hasNestedStep_of_isUpdate ((Option.all_eq_true _ _).mp hs e he)]
      exact hstep e he
    rw [hb, forall_mem_singleton, flat_iff, and_iff_right hflat]
    exact (and_iff_right (forall_mem_nil _)).symm
  | doWhile => cases hs
  | block | breakOut | continueOn | discard | empty =>
    exact hstays (.of_eq rfl (forall_mem_nil _))

theorem unreported_hoistAll (env : Env) : ∀ {ss : List Stmt}, (∀ s ∈ ss, isShaped s = true) → ∀ a,
    Unreported ((∀ t ∈ (hoistAll env ss a).1, Flat t) ↔ ∀ s ∈ ss, FlatInside s) a
      (hoistAll env ss a).2
  | [], _, _ => .of_eq rfl (iff_of_true (forall_mem_nil _) (forall_mem_nil _))
  | s :: ss, h, a => by
    rw [forall_mem_cons] at h
    refine ((unreported_hoist env h.1 a).trans (unreported_hoistAll env h.2 _)).imp ?_
    grind [hoistAll_cons]

/-! ## Shapes -/

/-- No side effect stands in the header of a `for` loop that is opened, but for those that are
statements of their own afterwards. -/
def hasFreeHeader : Stmt → Bool
  | .forLoop start cond step body => !opens (.forLoop start cond step body) ||
      (cond.all (!·.hasEffect) && step.all (!hasNestedStep ·))
  | _ => true

theorem hasFreeHeader_forLoop_iff {start : Option Stmt} {cond step : Option Expr} {body : Stmt} :
    hasFreeHeader (.forLoop start cond step body) = true ↔
      (opens (.forLoop start cond step body) = true →
        (∀ c ∈ cond, c.hasEffect = false) ∧ ∀ e ∈ step, hasNestedStep e = false) := by
  grind [hasFreeHeader, Option.all_eq_true, Option.mem_def]

theorem flat_stepStmts_iff (e : Expr) : (∀ t ∈ stepStmts e, Flat t) ↔ hasNestedStep e = false := by
  cases e with
  | comma items =>
    simp only [stepStmts, hasNestedStep, forall_mem_map, flat_expr, any_eq_false,
      Bool.not_eq_true]
  | _ => exact forall_mem_singleton.trans flat_expr

theorem flat_exit_iff (c : Expr) :
    Flat (.ifElse (negate c) (.block [.breakOut]) none) ↔ c.hasEffect = false := by
  have hbody : Flat (.block [.breakOut]) := (ofBlocks_flat _).mpr (forall_mem_singleton.mpr flat_breakOut)
  have hchildren : ∀ t ∈ (ifElse (negate c) (.block [.breakOut]) none).children, Flat t :=
    forall_mem_singleton.mpr hbody
  rw [flat_iff, and_iff_left hchildren, ← hasEffect_negate]
  simp [isFlat, exprs]

theorem inherits_flat : Inherits FreeLabels Flat where
  block := ofBlocks_flat
  loop := fun _ _ => (flat_iff_of_free (forall_mem_nil _)).trans (and_iff_right (forall_mem_nil _))
  empty := (flat_iff_of_free (forall_mem_nil _)).mpr ⟨forall_mem_nil _, forall_mem_nil _⟩
  breakOut := flat_breakOut
  own := fun _ hlabels => by rw [FreeLabels, FreeLabels, hlabels]

theorem fits_flat_iff (s : Stmt) :
    FitsShape FreeLabels Flat s ↔ FreeLabels s ∧ hasFreeHeader s = true := by
  cases s with
  | expr e =>
    refine iff_of_true (fun t ht => ?_) ⟨forall_mem_nil _, rfl⟩
    rcases isStep_stepStmts e t ht with ⟨ds, rfl⟩ | ⟨x, rfl⟩ <;> exact forall_mem_nil _
  | forLoop start cond step body =>
    rw [FitsShape, hasFreeHeader_forLoop_iff, opens]
    cases h : start.all isStart && step.all isUpdate with
    | true => exact iff_of_true (forall_mem_nil _) ⟨forall_mem_nil _, fun h => by cases h⟩
    | false =>
      simp only [flat_exit_iff, flat_stepStmts_iff]
      exact and_congr (iff_of_true (forall_mem_nil _) (forall_mem_nil _))
        ⟨fun h _ => h, fun h => h rfl⟩
  | _ => exact (and_iff_left rfl).symm

theorem flatInside_shape_iff (s : Stmt) (a : State) :
    (∀ t ∈ (shape s a).1, FlatInside t) ↔
      FreeLabels s ∧ hasFreeHeader s = true ∧ ∀ c ∈ s.children, Flat c := by
  rw [← and_assoc, ← fits_flat_iff]
  exact inherits_flat.shape s a

theorem grows_separateCases : ∀ (cs : List Case) (a : State),
    a.notices <+: (separateCases cs a).2.notices
  | [], _ => prefix_rfl
  | c :: cs, a => by
    rw [separateCases]
    dsimp only
    split
    · have hnote : a.notices <+: (note .fallthrough a).2.notices := prefix_append ..
      exact hnote.trans (grows_separateCases cs _)
    · exact grows_separateCases cs a

theorem grows_shape (s : Stmt) (a : State) : a.notices <+: (shape s a).2.notices := by
  cases s with
  | expr e =>
    grind [shape_expr]
  | switch selector cases => exact grows_separateCases cases a
  | _ => exact prefix_rfl

/-- **If nothing is reported, what a statement becomes is flat exactly if the statements in it are and
no side effect stands where the pass does not look.** -/
theorem unreported_lowerStmt (env : Env) (s : Stmt) (a : State) :
    Unreported ((∀ t ∈ (lowerStmt env s a).1, Flat t) ↔
      FreeLabels s ∧ hasFreeHeader s = true ∧ ∀ c ∈ s.children, Flat c) a (lowerStmt env s a).2 := by
  have hshape : Unreported True a (shape s a).2 := ⟨grows_shape s a, fun _ => trivial⟩
  refine (hshape.trans (unreported_hoistAll env (isShaped_shape s a) _)).imp ?_
  rintro ⟨-, hiff⟩
  exact hiff.trans (flatInside_shape_iff s a)

end Lowering

end ShaderEffect
