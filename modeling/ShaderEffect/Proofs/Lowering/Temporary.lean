import Mathlib
import ShaderEffect.Proofs.Lowering.Capture
import ShaderEffect.Proofs.Lowering.Survivor
import ShaderEffect.Proofs.Shader.Numeral
import ShaderEffect.Proofs.Shader.Parsed
import ShaderEffect.Proofs.Visit

/-!
# Names of temporaries

All passes number their temporaries in one sequence, whatever these hold, and no pass forgets one
(`prefix_apply`). So no two of them share a name. But no pass looks at the names of the program:
**the temporaries are new to a program exactly if it does not have the name of that kind and that
number** (`tempNames_fresh_iff`).
-/

namespace ShaderEffect

open List

/-- The names that a program declares, and those that its expressions use. -/
def Program.identifiers (p : Program) : List String :=
  Lowering.valueNames p ++ p.functionNames ++
    ((Lowering.structDefs p).flatMap fun d => d.name :: d.members.map Member.name) ++
    p.items.flatMap fun i => i.subexprs.flatMap Expr.ownNames

namespace Lowering

open Walker

variable (st : Setting) (p : Program) (s : State)

/-- The names of the temporaries in the order in which they were made. -/
def State.tempNames (s : State) : List String :=
  s.temps.zipIdx.map fun x => tempName x.1 x.2

theorem tempName_inj {k k' : TempKind} {i j : Nat} (h : tempName k i = tempName k' j) :
    k = k' ∧ i = j := by
  have hchars := congrArg String.toList h
  have hdigits : Nat.toDigits 10 i = Nat.toDigits 10 j → i = j := fun h =>
    Option.some.inj ((Text.readDigits_toDigits i).symm.trans (h ▸ Text.readDigits_toDigits j))
  cases k <;> cases k' <;> simp [tempName, TempKind.stem] at hchars ⊢
  all_goals exact hdigits hchars

theorem nodup_tempNames : s.tempNames.Nodup := by
  have hpairs : s.temps.zipIdx.Nodup := .of_map Prod.snd (by
    rw [zipIdx_map_snd]
    exact nodup_range')
  refine hpairs.map fun x y h => ?_
  obtain ⟨hkind, hnumber⟩ := tempName_inj h
  exact Prod.ext hkind hnumber

theorem tempNames_prefix {a b : State} (h : a.temps <+: b.temps) : a.tempNames <+: b.tempNames := by
  obtain ⟨ks, hks⟩ := h
  grind [State.tempNames]

/-! ## No pass forgets a temporary -/

theorem prefix_walk {f : Env → Expr → LowerM Expr} {g : Env → Stmt → LowerM (List Stmt)}
    {d : Env → VarDecl → LowerM VarDecl} (hf : ∀ env e a, (f env e a).2.Since a)
    (hg : ∀ env s a, (g env s a).2.Since a) (hd : ∀ env v a, (d env v a).2.Since a) (env : Env) :
    s.temps <+: (({ expr := f, stmt := g, global := d } : Walker State).walk env p s).2.temps := by
  refine Preserves.walk (I := fun b : State => s.temps <+: b.temps) ?_ env p prefix_rfl
  exact {
    enter := fun _ _ _ h => h
    leave := fun _ _ _ h => h
    expr := fun env e a h => h.trans (hf env e a).temps
    stmt := fun env s a h => h.trans (hg env s a).temps
    global := fun env v a h => h.trans (hd env v a).temps }

theorem prefix_exprWalk {f : Env → Expr → LowerM Expr} (hf : ∀ env e a, (f env e a).2.Since a)
    (env : Env) : s.temps <+: (({ expr := f } : Walker State).walk env p s).2.temps :=
  prefix_walk p s hf (fun _ _ a => .refl a) (fun _ _ a => .refl a) env

theorem prefix_stmtWalk {g : Env → Stmt → LowerM (List Stmt)}
    (hg : ∀ env s a, (g env s a).2.Since a) (env : Env) :
    s.temps <+: (({ stmt := g } : Walker State).walk env p s).2.temps :=
  prefix_walk p s (fun _ _ a => .refl a) hg (fun _ _ a => .refl a) env

theorem prefix_separateOverloads : s.temps <+: (separateOverloads st p s).2.temps := by
  obtain ⟨f, hcall, hother, heq⟩ := separateOverloads_eq st p
  rw [heq]
  split
  · exact prefix_rfl
  · refine prefix_exprWalk _ s (fun env e a => ?_) _
    cases e with
    | call name args =>
      rw [hcall]
      exact (yields_resolveCall (overloads p) env name args a).2
    | _ =>
      rw [hother _ _ rfl]
      exact .refl a

theorem prefix_lowerParameters : s.temps <+: (lowerParameters st p s).2.temps := by
  have hholds : ∀ arg, Holds (fun b : ParamState => s.temps <+: b.base.temps) arg := fun arg =>
    { noted := by
        rintro a _ ⟨base, hbase, rfl⟩ h
        exact h.trans hbase.temps
      hold := fun _ _ h => h }
  have hsteps : (paramWalker st (refTable p)).Preserves fun b => s.temps <+: b.base.temps :=
    { enter := fun _ _ _ h => h
      leave := fun _ _ _ h => h
      expr := fun _ e a h => (lowerParamExpr_to _ _ e a).keeps (fun arg _ => hholds arg) h
      stmt := fun _ t a h => by
        obtain ⟨base, hbase, hstate⟩ := (wrapStmt_to t a).state
        show s.temps <+: (wrapStmt t a).2.base.temps
        rw [hstate]
        exact h.trans hbase.temps
      global := fun _ _ _ h => h }
  exact hsteps.walk (st.envFor p) p prefix_rfl

theorem temps_deferInit (functions consts : List String) (d : VarDecl) :
    (deferInit functions consts d s).2.temps = s.temps := by
  unfold deferInit
  cases d.init with
  | none => rfl
  | some e =>
    by_cases hconst : isConstant consts functions e = true
    · simp only [hconst, if_true]
      rfl
    · by_cases hs : (d.storage == .const) = true <;> simp only [hconst, hs] <;> rfl

theorem temps_deferInits (functions : List String) : ∀ (ds : List VarDecl) (consts : List String)
    (s : State), (deferInits functions consts ds s).2.temps = s.temps
  | [], _, _ => rfl
  | d :: ds, consts, s =>
    (temps_deferInits functions ds _ _).trans (temps_deferInit s functions consts d)

theorem temps_makeEntryPoint : s.temps <+: (makeEntryPoint st p s).2.temps := by
  unfold makeEntryPoint
  split
  · exact prefix_rfl
  · simp only [run_bind]
    split
    · exact prefix_rfl
    · exact (yields_entryWithoutMain p { s with deferred := [] }).2.temps

/-- **No pass forgets a temporary.** -/
theorem prefix_apply (pass : Pass) : s.temps <+: (pass.apply st p s).2.temps := by
  cases pass with
  | declarations =>
    exact (yields_keptItems st p.items s).2.temps.trans
      (prefix_stmtWalk _ _ (fun _ _ a => .refl a) _)
  | laneAliases | conditionals => exact prefix_exprWalk p s (fun _ _ a => .refl a) _
  | controlFlow =>
    refine prefix_stmtWalk p s (fun env t a => ?_) _
    exact (hoisted_hoistAll env (shape t a).1 (shape t a).2).2.2.trans (yields_shape t a).2
  | laneAssignments =>
    exact prefix_stmtWalk p s (fun env t a => (lowerLaneStmt_to env t a).hoisted.since) _
  | conversions => exact prefix_rfl
  | operations =>
    exact prefix_walk p s (fun env e a => (yields_state_lowerOperation _ env e a).2)
      (fun _ _ a => .refl a) (fun _ _ a => .refl a) _
  | sampling => exact prefix_exprWalk p s (fun env e a => (plain_lowerRead st env e a).2) _
  | overloads => exact prefix_separateOverloads st p s
  | parameters => exact prefix_lowerParameters st p s
  | hostNames => exact prefix_exprWalk p s (fun env e a => (yields_bindNode st env e a).2) _
  | reservedNames =>
    show s.temps <+: (renameReserved st p s).2.temps
    unfold renameReserved
    dsimp only
    split
    · exact prefix_rfl
    · exact prefix_rfl
  | globalInits =>
    have hstate := (deferItems_eq p.functionNames p.items [] s).2
    show s.temps <+: (deferItems p.functionNames [] p.items s).2.temps
    rw [hstate, temps_deferInits]
  | entryPoint => exact temps_makeEntryPoint st p s

theorem prefix_runPasses : ∀ (passes : List Pass) (p : Program) (s : State),
    s.temps <+: (runPasses st passes p s).2.temps
  | [], _, _ => prefix_rfl
  | pass :: passes, p, s =>
    (prefix_apply st p s pass).trans (prefix_runPasses passes _ _)

/-- **When temporaries are new.** A state lists the names of all its temporaries, and what a part of
the run has named is still listed at its end, where no two names are the same. None of them is a
name of the program exactly if the program does not have the name of a kind with a number at which
a temporary of that kind was made. -/
theorem tempNames_fresh_iff :
    (∀ kind s, (temp kind s).2.tempNames = s.tempNames ++ [(temp kind s).1]) ∧
    (∀ passes rest, Pass.all = passes ++ rest →
      (runPasses st passes p {}).2.tempNames <+: (lower st p).2.tempNames) ∧
    (lower st p).2.tempNames.Nodup ∧
    ((∀ name ∈ (lower st p).2.tempNames, name ∉ p.identifiers) ↔
      ∀ kind n, tempName kind n ∈ p.identifiers → (lower st p).2.temps[n]? ≠ some kind) := by
  have hrun : (lower st p).2 = (runPasses st Pass.all p {}).2 := by
    unfold lower
    rw [StateT.run]
    obtain ⟨q, b⟩ := runPasses st Pass.all p {}
    dsimp only
    split <;> rfl
  refine ⟨fun kind s => ?_, fun passes rest hall => ?_, nodup_tempNames _, ?_⟩
  · simp [State.tempNames, temp, zipIdx_append]
  · rw [hrun, hall, runPasses_append]
    exact tempNames_prefix (prefix_runPasses st rest _ _)
  · constructor
    · intro h kind n hmem hkind
      exact h _ (mem_map.mpr ⟨(kind, n), mem_zipIdx_iff_getElem?.mpr hkind, rfl⟩) hmem
    · intro h name hname hmem
      obtain ⟨x, hx, rfl⟩ := mem_map.mp hname
      exact h x.1 x.2 hmem (mem_zipIdx_iff_getElem?.mp hx)

def clashingSource : String :=
  "void main() { int isf_old0 = 5; int i = 0; int j = i++; }"

/-- A variable of the program has the name of a temporary. -/
theorem tempNames_not_fresh : ∃ p, Program.parse clashingSource = .ok p ∧
    "isf_old0" ∈ valueNames p ∧ "isf_old0" ∈ (lower emptySetting p).2.tempNames := by
  have hrun : (Program.parse clashingSource).toOption.any (fun p =>
      decide ("isf_old0" ∈ valueNames p ∧
        "isf_old0" ∈ (lower emptySetting p).2.tempNames)) = true := by decide_cbv
  obtain ⟨p, hp, htest⟩ := Program.exists_of_parse hrun
  exact ⟨p, hp, of_decide_eq_true htest⟩

end Lowering

end ShaderEffect
