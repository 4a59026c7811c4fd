import Mathlib
import ShaderEffect.Proofs.Course
import ShaderEffect.Proofs.Lowering.Stable.Parameter
import ShaderEffect.Proofs.Visit

/-!
# When a temporary is written back

An argument that a call writes to and that has no address of its own goes through a temporary, which
is copied back by a statement of its own behind the whole statement in which the call stands. **The
copy is made right after the call, before anything else of the program runs, exactly if control
always comes from the expressions of the statement to the place behind it, and no function of the
program is called in between** (`written_back_iff`). So it comes too late where the call stands in
the condition of an `if` or a `do`, or in the selector of a `switch`; a loop that tests its condition
first is reported.
-/

namespace ShaderEffect.Lowering

open Walker ShaderEffect.Expr List Stmt

/-- The statement that copies a temporary back. -/
def writeBack (target : Expr) (held : String) : Stmt :=
  .expr (.assign none target (.ident held))

/-! ## What waits around a statement -/

/-- Declarations of temporaries wait before the current statement, and copies behind it. -/
structure Waits (a : ParamState) : Prop where
  before : ∀ t ∈ a.before, ∃ held type arg, t = .decl [.var held type (some arg)]
  after : ∀ t ∈ a.after, ∃ target held, t = writeBack target held

namespace Waits

variable {a : ParamState} {st : Setting} {table : RefTable} {env : Env}

theorem of_nil (hbefore : a.before = []) (hafter : a.after = []) : Waits a where
  before := by
    rw [hbefore]
    exact forall_mem_nil _
  after := by
    rw [hafter]
    exact forall_mem_nil _

theorem holds (arg : Expr) : Holds Waits arg where
  noted := by
    rintro a _ ⟨base, -, rfl⟩ h
    exact ⟨h.before, h.after⟩
  hold := fun {a} held type h => by
    refine ⟨forall_mem_append.mpr ⟨h.before, forall_mem_singleton.mpr
      ⟨held, type, arg, rfl⟩⟩, ?_⟩
    show ∀ t ∈ (if arg.root?.isSome then _ else a.after : List Stmt), _
    split
    · exact forall_mem_append.mpr ⟨h.after, forall_mem_singleton.mpr ⟨arg, held, rfl⟩⟩
    · exact h.after

theorem preserved (st : Setting) (table : RefTable) : (paramWalker st table).Preserves Waits where
  enter := fun _ _ _ h => ⟨h.before, h.after⟩
  leave := fun _ _ _ h => ⟨h.before, h.after⟩
  expr := fun _ e a h => (lowerParamExpr_to table _ e a).keeps (fun arg _ => holds arg) h
  stmt := fun _ s a _ => by
    obtain ⟨base, -, hstate⟩ := (wrapStmt_to s a).state
    exact of_nil (congrArg ParamState.before hstate) (congrArg ParamState.after hstate)
  global := fun _ _ _ h => h

theorem goes_before (h : Waits a) : ∀ s ∈ a.before, s.goes = [.behind] := fun s hs => by
  obtain ⟨_, _, _, rfl⟩ := h.before s hs
  rfl

theorem goes_after (h : Waits a) : ∀ s ∈ a.after, s.goes = [.behind] := fun s hs => by
  obtain ⟨_, _, rfl⟩ := h.after s hs
  rfl

end Waits

/-! ## What is put around a statement -/

/-- Control always comes from the expressions of the statement to the place behind it. A result is
held back, in a function that has one. -/
def passesOn (returns : ShaderType) : Stmt → Bool
  | .decl _ | .expr _ | .empty => true
  | .ret (some _) => returns != .void
  | .block body => body.isEmpty
  | .switch _ cases => cases.all (·.body.isEmpty)
  | _ => false

section Around

variable {b c : ParamState} {s : Stmt} {out : List Stmt}

theorem notices_wrapStmt (h : b.after ≠ []) (s : Stmt) :
    (wrapStmt s b).2.base.notices = b.base.notices ++ copyNotices s := by
  have hto := wrapStmt_to s b
  generalize wrapStmt s b = r at hto
  obtain ⟨out, c⟩ := r
  cases hto with
  | alone _ hafter => exact absurd hafter h
  | around _ _ _ hnotices => exact hnotices
  | result _ _ _ hnotices => exact hnotices.trans (append_nil _).symm

theorem wrapsTo_of_passesOn (hto : WrapsTo b s out c) (h : b.after ≠ [])
    (hs : passesOn b.returns s = true) :
    ∃ core tail, out = b.before ++ core :: (b.after ++ tail) ∧
      core.goes = [.behind] ∧ ∀ p, (tail.flatMap Stmt.operands).any (holds p) = false := by
  cases hto with
  | alone _ hafter => exact absurd hafter h
  | around _ hret =>
    refine ⟨s, [], by simp, ?_, fun _ => rfl⟩
    cases s with
    | decl | expr | empty => rfl
    | block | switch => exact if_pos hs
    | ret value =>
      cases value with
      | none => cases hs
      | some value => exact absurd ((hret value rfl).resolve_left h) (bne_iff_ne.mp hs)
    | _ => cases hs
  | @result value result =>
    exact ⟨.decl [.var result b.returns (some value)], [.ret (some (.ident result))], by simp, rfl,
      fun _ => rfl⟩

theorem wrapsTo_of_not_passesOn (hto : WrapsTo b s out c) (h : b.after ≠ [])
    (hloop : isLoop s = false) (hs : passesOn b.returns s = false) :
    out = b.before ++ s :: b.after ∧ s.operands ∈ s.rounds ∧
      ∃ g ∈ s.goes, g ≠ .behind := by
  have hround : s.operands ∈ s.rounds := by
    cases s with
    | forLoop => cases hloop
    | _ => exact mem_singleton_self _
  refine ⟨?_, hround, ?_⟩
  · cases hto with
    | alone _ hafter => exact absurd hafter h
    | around => exact append_assoc ..
    | result _ hreturns => exact absurd (bne_eq_false_iff_eq.mp hs) hreturns
  · cases s with
    | decl | expr | empty => cases hs
    | forLoop | whileLoop | loop => cases hloop
    | block body =>
      have hgoes : goes (.block body) = [.inside] := if_neg (Bool.eq_false_iff.mp hs)
      rw [hgoes]
      exact ⟨.inside, mem_singleton_self _, by decide⟩
    | switch selector cases =>
      have hgoes : goes (.switch selector cases) = [.inside, .behind] :=
        if_neg (Bool.eq_false_iff.mp hs)
      rw [hgoes]
      exact ⟨.inside, mem_cons_self, by decide⟩
    | ifElse cond t f =>
      refine ⟨.inside, ?_, by decide⟩
      cases f <;> exact mem_cons_self
    | doWhile => exact ⟨.inside, mem_cons_self, by decide⟩
    | ret | breakOut | continueOn | discard =>
      exact ⟨.away, mem_singleton_self _, by decide⟩

end Around

/-! ## When the copy is made -/

/-- The expression is the address of the variable. -/
def isAddressOf (name : String) : Expr → Bool
  | .addrOf (.ident other) => other == name
  | _ => false

/-- The call gets the address of the temporary. -/
def gets (held : String) (c : Call) : Bool :=
  c.args.any (isAddressOf held)

/-- The call is one of a function of the program. -/
def isOurs (table : RefTable) (c : Call) : Bool :=
  (table.lookup c.name).isSome

section Copies

variable {b : ParamState} {s : Stmt} {i : Nat} {target : Expr} {held : String} {p q : Call → Bool}

theorem exists_split {t : Stmt} {ts : List Stmt} (h : ts[i]? = some t) :
    ∃ first rest, ts = first ++ t :: rest ∧ first.length = i := by
  obtain ⟨hlt, hget⟩ := List.getElem?_eq_some_iff.mp h
  refine ⟨ts.take i, ts.drop (i + 1), ?_, ?_⟩
  · rw [← hget, ← List.drop_eq_getElem_cons hlt, List.take_append_drop]
  · exact List.length_take_of_le (Nat.le_of_lt hlt)

theorem after_ne_nil (hi : b.after[i]? = some (writeBack target held)) : b.after ≠ [] := by
  intro hnil
  rw [hnil] at hi
  cases hi

theorem settledBy_of_passesOn (hb : Waits b) (hs : passesOn b.returns s = true)
    (hi : b.after[i]? = some (writeBack target held)) :
    let out := (wrapStmt s b).1
    let k := b.before.length + 1 + i
    out[k]? = some (writeBack target held) ∧
      ((∀ log, Course 0 out log → SettledBy k p q log) ↔
        calmAll p q ((out.take (k + 1)).flatMap operands) = true ∧
          ((out.drop (k + 1)).flatMap operands).any (holds p) = false) := by
  intro out k
  obtain ⟨first, rest, hafter, hfirst⟩ := exists_split hi
  obtain ⟨core, tail, hout, hcore, htail⟩ := wrapsTo_of_passesOn (wrapStmt_to s b) (after_ne_nil hi) hs
  have hsplit : out = (b.before ++ core :: first) ++ writeBack target held :: (rest ++ tail) := by
    show (wrapStmt s b).1 = _
    rw [hout, hafter]
    simp
  have hlength : (b.before ++ core :: first).length = k := by
    rw [length_append, length_cons, hfirst]
    omega
  have hgoes := hb.goes_after
  rw [hafter, forall_mem_append, forall_mem_cons] at hgoes
  have hpre : ∀ s ∈ b.before ++ core :: first, s.goes = [.behind] :=
    forall_mem_append.mpr ⟨hb.goes_before, forall_mem_cons.mpr ⟨hcore, hgoes.1⟩⟩
  have hiff := settledBy_iff (n := 0) (p := p) (q := q) hpre hgoes.2.1 hgoes.2.2 (htail p)
  rw [Nat.zero_add, hlength] at hiff
  have htake : out.take (k + 1) = (b.before ++ core :: first) ++ [writeBack target held] := by
    rw [hsplit, ← hlength, take_length_add_append]
    rfl
  have hdrop : out.drop (k + 1) = rest ++ tail := by
    rw [hsplit, ← hlength, drop_length_add_append]
    rfl
  refine ⟨?_, ?_⟩
  · rw [hsplit, ← hlength, getElem?_append_right (Nat.le_refl _), Nat.sub_self]
    rfl
  · rw [htake, hdrop, hsplit]
    exact hiff

theorem not_settledBy_of_not_passesOn (hb : Waits b) (hloop : isLoop s = false)
    (hs : passesOn b.returns s = false) (hi : b.after[i]? = some (writeBack target held))
    (hcall : ((b.before ++ [s]).flatMap Stmt.operands).any (holds p) = true) :
    let out := (wrapStmt s b).1
    let k := b.before.length + 1 + i
    out[k]? = some (writeBack target held) ∧
      ¬ ∀ log, Course 0 out log → SettledBy k p q log := by
  intro out k
  obtain ⟨hout, hround, g, hg, hbehind⟩ := wrapsTo_of_not_passesOn (wrapStmt_to s b)
    (after_ne_nil hi) hloop hs
  have hk : out = b.before ++ s :: b.after := hout
  refine ⟨?_, fun hall => ?_⟩
  · rw [hk, getElem?_append_right (by omega)]
    have hsub : k - b.before.length = i + 1 := by omega
    rw [hsub, getElem?_cons_succ]
    exact hi
  · obtain ⟨log, hlog, ⟨c, hc, hp⟩, hpositions⟩ :=
      Course.exists_leaves hb.goes_before hround hg hbehind hcall 0 b.after
    obtain ⟨x, y, rfl⟩ := append_of_mem (Event.mem_calls.mp hc)
    obtain ⟨between, z, rfl, -⟩ := hall _ (hk ▸ hlog) x c y rfl hp
    have := hpositions k (by simp)
    omega

end Copies

/-! ## The copies of a program -/

/-- What the pass on parameters does to a program, with the visits of its statements. -/
def paramRun (st : Setting) (p : Program) (b : State) :
    Program × ParamState × List (Visit ParamState) :=
  (paramWalker st (refTable p)).recorded.walk (st.envFor p) p ({ base := b }, [])

/-- A call in the visited statement, or in what has been moved before it, gets the address of the
temporary that the copy at the position reads. -/
structure Routes (v : Visit ParamState) (i : Nat) (target : Expr) (held : String) : Prop where
  copy : v.state.after[i]? = some (writeBack target held)
  call : ((v.state.before ++ [v.stmt]).flatMap Stmt.operands).any (holds (gets held)) = true

theorem waits_paramRun (st : Setting) (p : Program) (b : State) :
    ∀ v ∈ (paramRun st p b).2.2, Waits v.state :=
  (Waits.preserved st (refTable p)).visits _ p (Waits.of_nil rfl rfl)

/-- **When a temporary is written back.** Take any statement of any program in which a call gets the
address of a temporary in place of an argument. A loop with such a call in its header is reported, and
nothing else is. In any other statement the copy stands behind it, and every time the call has been
made the copy is made before any function of the program is called and before control goes to another
statement, exactly if control always comes behind the statement, no call of the program stands around
the call or after it up to the copy, and the call does not stand once more behind the copy. -/
theorem written_back_iff (st : Setting) (p : Program) (b : State) :
    let run := paramRun st p b
    lowerParameters st p b = (run.1, run.2.1.base) ∧
    ∀ v ∈ run.2.2, ∀ i target held, Routes v i target held →
      let out := (wrapStmt v.stmt v.state).1
      let k := v.state.before.length + 1 + i
      (wrapStmt v.stmt v.state).2.base.notices = v.state.base.notices ++ copyNotices v.stmt ∧
      (isLoop v.stmt = false →
        out[k]? = some (writeBack target held) ∧
        ((∀ log, Course 0 out log → SettledBy k (gets held) (isOurs (refTable p)) log) ↔
          passesOn v.state.returns v.stmt = true ∧
          calmAll (gets held) (isOurs (refTable p))
            ((out.take (k + 1)).flatMap operands) = true ∧
          ((out.drop (k + 1)).flatMap operands).any (holds (gets held)) = false)) := by
  intro run
  refine ⟨?_, fun v hv i target held hroutes => ?_⟩
  · have hwalk := walk_recorded (paramWalker st (refTable p)) (st.envFor p) p ({ base := b }, [])
    exact congrArg (fun r : Program × ParamState => (r.1, r.2.base)) hwalk
  intro out k
  have hwaits := waits_paramRun st p b v hv
  refine ⟨notices_wrapStmt (after_ne_nil hroutes.copy) v.stmt, fun hloop => ?_⟩
  cases hs : passesOn v.state.returns v.stmt with
  | true =>
    obtain ⟨hget, hiff⟩ := settledBy_of_passesOn hwaits hs hroutes.copy
    exact ⟨hget, hiff.trans (and_iff_right rfl).symm⟩
  | false =>
    obtain ⟨hget, hnot⟩ := not_settledBy_of_not_passesOn hwaits hloop hs hroutes.copy hroutes.call
    exact ⟨hget, iff_of_false hnot fun h => Bool.false_ne_true h.1⟩

/-- A program that calls a function with a global variable to write to, first in a statement and then
in the condition of another one. -/
def lateCopy : Program :=
  let call : Expr := .call "f" [.ident "g"]
  { items := [
      .globals [.var "g" .float none, .var "h" .bool none],
      .function {
        name := "f"
        returns := .bool
        params := [{ name := "x", type := .float, passing := .inOut }]
        body := [.expr (.assign none (.ident "x") (.float "1.0")), .ret (some (.bool true))]
        isEntry := false },
      .function {
        name := "main"
        returns := .void
        params := []
        body := [
          .expr (.assign none (.ident "h") call),
          .ifElse call (.expr (.assign none (.ident "g") (.float "2.0"))) none]
        isEntry := true }] }

/-- The setting for an effect without inputs. -/
def bareSetting : Setting :=
  { options := {}, header := {}, layout := {} }

/-- The statement copies a temporary back to a variable. -/
def copiesTo (name held : String) : Stmt → Bool
  | .expr (.assign none (.ident n) (.ident h)) => n == name && h == held
  | _ => false

theorem eq_of_copiesTo {name held : String} {s : Stmt} (h : copiesTo name held s = true) :
    s = writeBack (.ident name) held := by
  unfold copiesTo at h
  split at h
  · rw [Bool.and_eq_true, beq_iff_eq, beq_iff_eq] at h
    rw [h.1, h.2]
    rfl
  · cases h

/-- The first copy behind the visited statement is one to the variable, and a call gets the address
of its temporary. -/
def routesFirst (name held : String) (v : Visit ParamState) : Bool :=
  v.state.after[0]?.any (copiesTo name held) &&
    ((v.state.before ++ [v.stmt]).flatMap Stmt.operands).any (holds (gets held))

theorem routes_of_routesFirst {name held : String} {v : Visit ParamState}
    (h : routesFirst name held v = true) : Routes v 0 (.ident name) held := by
  rw [routesFirst, Bool.and_eq_true, Option.any_eq_true] at h
  obtain ⟨⟨s, hs, hcopies⟩, hcall⟩ := h
  refine ⟨?_, hcall⟩
  rw [hs, eq_of_copiesTo hcopies]

theorem written_back_iff_statement :
    ∃ v ∈ (paramRun bareSetting lateCopy {}).2.2, Routes v 0 (.ident "g") "isf_arg0" ∧
      isLoop v.stmt = false ∧
      ∀ log, Course 0 (wrapStmt v.stmt v.state).1 log →
        SettledBy (v.state.before.length + 1) (gets "isf_arg0") (isOurs (refTable lateCopy)) log := by
  have hvisit : (paramRun bareSetting lateCopy {}).2.2.any (fun v =>
      let out := (wrapStmt v.stmt v.state).1
      let k := v.state.before.length + 1
      routesFirst "g" "isf_arg0" v && !isLoop v.stmt && passesOn v.state.returns v.stmt &&
        calmAll (gets "isf_arg0") (isOurs (refTable lateCopy))
          ((out.take (k + 1)).flatMap operands) &&
        !((out.drop (k + 1)).flatMap operands).any (holds (gets "isf_arg0"))) = true := by
    decide_cbv
  obtain ⟨v, hv, hcheck⟩ := any_eq_true.mp hvisit
  simp only [Bool.and_eq_true, Bool.not_eq_true'] at hcheck
  obtain ⟨⟨⟨⟨hfirst, hloop⟩, hpasses⟩, hcalm⟩, hnone⟩ := hcheck
  have hroutes := routes_of_routesFirst hfirst
  have hcopy := (written_back_iff bareSetting lateCopy {}).2 v hv 0 _ _ hroutes
  exact ⟨v, hv, hroutes, hloop, (hcopy.2 hloop).2.mpr ⟨hpasses, hcalm, hnone⟩⟩

/-- A copy that waits until the branches of an `if` have run, and no notice. -/
theorem copied_back_late :
    (lowerParameters bareSetting lateCopy {}).2.notices = [] ∧
    ∃ v ∈ (paramRun bareSetting lateCopy {}).2.2, Routes v 0 (.ident "g") "isf_arg1" ∧
      (wrapStmt v.stmt v.state).1[v.state.before.length + 1]? =
        some (writeBack (.ident "g") "isf_arg1") ∧
      ¬ ∀ log, Course 0 (wrapStmt v.stmt v.state).1 log →
        SettledBy (v.state.before.length + 1) (gets "isf_arg1") (isOurs (refTable lateCopy)) log := by
  have hnotices : (lowerParameters bareSetting lateCopy {}).2.notices.isEmpty = true := by
    decide_cbv
  have hvisit : (paramRun bareSetting lateCopy {}).2.2.any (fun v =>
      routesFirst "g" "isf_arg1" v && !isLoop v.stmt && !passesOn v.state.returns v.stmt) = true := by
    decide_cbv
  obtain ⟨v, hv, hcheck⟩ := any_eq_true.mp hvisit
  simp only [Bool.and_eq_true, Bool.not_eq_true'] at hcheck
  obtain ⟨⟨hfirst, hloop⟩, hpasses⟩ := hcheck
  have hroutes := routes_of_routesFirst hfirst
  refine ⟨isEmpty_iff.mp hnotices, v, hv, hroutes, ?_⟩
  exact not_settledBy_of_not_passesOn (waits_paramRun _ _ _ v hv) hloop hpasses hroutes.copy
    hroutes.call

end ShaderEffect.Lowering
