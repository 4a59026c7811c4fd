import Mathlib
import ShaderEffect.Proofs.Lowering.Flat

/-!
# Side effects inside expressions

Three places are passed over by the lowering of control flow without a word: the header of a `for`
loop that is opened, the case labels, and the initial values of global variables. **Where nothing is
reported, the program is flat exactly if no side effect stands in these**
(`isFlat_lowerControlFlow_iff`).
-/

namespace ShaderEffect

open List Stmt

/-- The initial values of the global variables of an item. -/
def Item.initialValues : Item → List Expr
  | .globals ds => ds.flatMap fun d => d.init.toList
  | _ => []

/-- No side effect stands inside an expression of the item. -/
def Item.isFlat (i : Item) : Bool :=
  i.initialValues.all (!·.hasEffect) && i.substmts.all Stmt.isFlat

namespace Lowering

open Walker

variable {before : List Stmt} {s s' : Stmt}

/-! ## Along the walk -/

/-- The statements `ss` have been walked: if nothing is reported meanwhile, what they have become is
flat exactly if their labels and the headers that are opened are free of side effects. -/
def Flattened (ss out : List Stmt) (a b : State × List (Visit State)) : Prop :=
  ∃ new, b.2 = a.2 ++ new ∧ Unreported ((∀ t ∈ out, Flat t) ↔
    (∀ s ∈ ss, FreeLabels s) ∧ ∀ v ∈ new, hasFreeHeader v.stmt = true) a.1 b.1

namespace Flattened

variable {ss ss' out out' : List Stmt} {a b c : State × List (Visit State)}

theorem nil (a : State × List (Visit State)) : Flattened [] [] a a :=
  ⟨[], (append_nil _).symm, .of_eq rfl (iff_of_true (forall_mem_nil _)
    ⟨forall_mem_nil _, forall_mem_nil _⟩)⟩

theorem append (h : Flattened ss out a b) (h' : Flattened ss' out' b c) :
    Flattened (ss ++ ss') (out ++ out') a c := by
  obtain ⟨new, hnew, hiff⟩ := h
  obtain ⟨new', hnew', hiff'⟩ := h'
  refine ⟨new ++ new', by rw [hnew', hnew, append_assoc], (hiff.trans hiff').imp ?_⟩
  grind

theorem congr (h : Flattened ss out a b) (hout : (∀ t ∈ out', Flat t) ↔ ∀ t ∈ out, Flat t) :
    Flattened ss out' a b := by
  obtain ⟨new, hnew, hiff⟩ := h
  exact ⟨new, hnew, hiff.imp fun h => hout.trans h⟩

theorem visit {env : Env}
    (h : Flattened (s.children.flatMap Stmt.substmts) (before ++ s'.children) a b)
    (hlabels : s'.labelValues = s.labelValues) :
    Flattened s.substmts (finish before (lowerStmt env s' b.1).1) a
      ((lowerStmt env s' b.1).2, b.2 ++ [⟨s', b.1⟩]) := by
  obtain ⟨new, hnew, hiff⟩ := h
  refine ⟨new ++ [⟨s', b.1⟩], by rw [hnew, append_assoc],
    (hiff.trans (unreported_lowerStmt env s' b.1)).imp ?_⟩
  rintro ⟨hparts, hnode⟩
  rw [forall_mem_append] at hparts
  rw [ofBlocks_flat.finish, forall_mem_append, hnode, substmts_eq_cons, forall_mem_cons, forall_mem_append,
    forall_mem_singleton, FreeLabels, FreeLabels, hlabels]
  grind

end Flattened

def FlattenedStmt (_ : Env) (s : Stmt) (a : State × List (Visit State)) (out : List Stmt)
    (b : State × List (Visit State)) : Prop :=
  Flattened s.substmts out a b

section Walked

variable {env : Env} {a b : State × List (Visit State)}

theorem flattened_steps {ss : List Stmt} {outs : List (List Stmt)}
    (h : Steps (Somewhere FlattenedStmt) ss a outs b) :
    Flattened (ss.flatMap substmts) outs.flatten a b := by
  induction h with
  | nil a => exact .nil a
  | cons hs _ ih => exact Flattened.append hs.anywhere ih

theorem flattened_children (h : NodeTo Unchanged FlattenedStmt env s a s' before b) :
    Flattened (s.children.flatMap Stmt.substmts) (before ++ s'.children) a b := by
  obtain ⟨outs, c, hchildren, hoperands, hjoin⟩ := h.parts
  obtain ⟨-, rfl⟩ := unchanged_steps hoperands
  exact (flattened_steps hchildren).congr (hjoin Flat ofBlocks_flat)

end Walked

theorem establishes_flattened : flowWalker.recorded.Establishes Unchanged FlattenedStmt where
  expr := unchanged_expr fun _ _ _ => rfl
  stmt := fun _ _ _ _ _ _ h => (flattened_children h).visit h.labelValues_eq

/-! ## Programs -/

theorem flattened_items {env : Env} {is js : List Item} {a b : State × List (Visit State)}
    (h : ItemsTo flowWalker.recorded Unchanged FlattenedStmt env is a js b) :
    js.flatMap Item.initialValues = is.flatMap Item.initialValues ∧
      ∃ out, js.flatMap Item.substmts = Stmt.substmtsAll out ∧
        Flattened (is.flatMap Item.substmts) out a b := by
  induction h with
  | nil a => exact ⟨rfl, [], rfl, .nil a⟩
  | cons hi _ ih =>
    obtain ⟨hvalues, out, hout, hflat⟩ := ih
    cases hi with
    | struct => exact ⟨hvalues, out, hout, hflat⟩
    | globals hds =>
      obtain ⟨rfl, rfl⟩ := unchanged_globals (fun _ _ _ => rfl) hds
      exact ⟨congrArg (_ ++ ·) hvalues, out, hout, hflat⟩
    | @function f g inner body _ _ _ _ henter hbody =>
      obtain ⟨rfl, rfl⟩ := Prod.mk.inj henter
      obtain ⟨outs, hsteps, rfl⟩ := hbody.steps
      have hbody := flattened_steps hsteps
      rw [← substmtsAll_eq_flatMap] at hbody
      refine ⟨hvalues, outs.flatten ++ out, ?_, hbody.append hflat⟩
      rw [substmtsAll_append, ← hout]
      rfl

theorem isFlat_items_iff (is : List Item) :
    is.all Item.isFlat = true ↔ (∀ e ∈ is.flatMap Item.initialValues, e.hasEffect = false) ∧
      ∀ s ∈ is.flatMap Item.substmts, s.isFlat = true := by
  grind [Item.isFlat]

/-- **Which side effects are left inside expressions.** All loops of a program are visited with their
condition and their step. If the lowering of control flow reports nothing, then an assignment or a
step stands inside an expression of what it leaves exactly if one stands in the initial value of a
global variable, in a case label, in the condition of a `for` loop that is opened, or inside a step of
such a loop. -/
theorem isFlat_lowerControlFlow_iff (st : Setting) (p : Program) (a : State)
    (h : (lowerControlFlow st p a).2.notices = a.notices) :
    (∀ s ∈ p.items.flatMap Item.substmts, SameHeader s s →
      ∃ v ∈ (flowRun st p a).2.2, SameHeader s v.stmt) ∧
    ((lowerControlFlow st p a).1.items.all Item.isFlat = true ↔
      (∀ e ∈ p.items.flatMap Item.initialValues, e.hasEffect = false) ∧
      (∀ s ∈ p.items.flatMap Item.substmts, ∀ e ∈ s.labelValues, e.hasEffect = false) ∧
      ∀ v ∈ (flowRun st p a).2.2, hasFreeHeader v.stmt = true) := by
  refine ⟨fun s hs => exists_visit_of_loop st a hs, ?_⟩
  rw [lowerControlFlow_eq] at h ⊢
  obtain ⟨hvalues, out, hout, new, hnew, hflat⟩ :=
    flattened_items (establishes_flattened.onItems (st.envFor p) p.items (a, []))
  have hvisits : (flowRun st p a).2.2 = new := hnew
  have hvalues' : (flowRun st p a).1.items.flatMap Item.initialValues =
      p.items.flatMap Item.initialValues := hvalues
  have hout' : (flowRun st p a).1.items.flatMap Item.substmts = out.flatMap substmts :=
    hout.trans (substmtsAll_eq_flatMap out)
  rw [isFlat_items_iff, hvisits, hvalues', hout']
  exact and_congr_right' (forall_mem_flatMap.trans (hflat.holds h))

/-- `void main() { int i = 0; int j = i++ + 1; for (i = 0; cond; i++, j++) { if (j++ < 9) i = j = 2; } }`:
a loop that is opened, since it has two steps. -/
def twoSteps (cond : Expr) : Program :=
  let i : Expr := .ident "i"
  let j : Expr := .ident "j"
  { items := [
      .function {
        name := "main"
        returns := .void
        params := []
        body := [
          .decl [.var "i" .int (some (.int "0"))],
          .decl [.var "j" .int (some (.binary .add (.unary .postInc i) (.int "1")))],
          .forLoop (some (.expr (.assign none i (.int "0")))) (some cond)
            (some (.comma [.unary .postInc i, .unary .postInc j]))
            (.block [.ifElse (.binary .lt (.unary .postInc j) (.int "9"))
              (.expr (.assign none i (.assign none j (.int "2")))) none])]
        isEntry := true }] }

theorem isFlat_twoSteps :
    let p := twoSteps (.binary .lt (.ident "i") (.int "4"))
    (lowerControlFlow emptySetting p {}).2.notices = [] ∧
      (lowerControlFlow emptySetting p {}).1.items.all Item.isFlat = true := by
  intro p
  have hnotices : (lowerControlFlow emptySetting p {}).2.notices = [] :=
    isEmpty_iff.mp (by decide_cbv)
  refine ⟨hnotices, (isFlat_lowerControlFlow_iff emptySetting p {} hnotices).2.mpr ⟨?_, ?_, ?_⟩⟩
  · decide_cbv
  · decide_cbv
  · exact all_eq_true.mp (by decide_cbv)

/-- A step in the condition stays inside the exit test of the opened loop, and nothing is reported. -/
theorem not_isFlat_of_step_in_condition :
    let p := twoSteps (.binary .lt (.unary .postInc (.ident "i")) (.int "4"))
    (lowerControlFlow emptySetting p {}).2.notices = [] ∧
      (lowerControlFlow emptySetting p {}).1.items.all Item.isFlat = false :=
  ⟨isEmpty_iff.mp (by decide_cbv), by decide_cbv⟩

end Lowering

end ShaderEffect
