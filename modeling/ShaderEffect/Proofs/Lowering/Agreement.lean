import ShaderEffect.Proofs.Alike
import ShaderEffect.Proofs.Lowering.Stable.Operation

/-!
# What the passes read of a setting

Passes look at the inputs and the layout for a few things only: the types of names, the inputs that
are truth values, the fields of the uniform buffer, and what images and uniforms there are. Two
settings that agree on them (`Setting.Agrees`) **lower every program in the same way**
(`runPasses_congr`).
-/

namespace ShaderEffect.Lowering

open Env

variable {x y : Env}
variable {inputs : List String}

/-! ## Nodes and statements -/

theorem respellLanes_congr (h : Alike x y) : respellLanes x = respellLanes y := by
  funext e
  cases e with
  | field base name => rw [respellLanes, h.typeOf, respellLanes]
  | _ => rfl

theorem extractAll_congr {es : List Expr} (hes : ∀ e ∈ es, extract x e = extract y e) :
    extractAll x es = extractAll y es := by
  induction es with
  | nil => rw [extractAll, extractAll]
  | cons e es ih =>
    rw [List.forall_mem_cons] at hes
    rw [extractAll, hes.1, ih hes.2, extractAll]

section Effects

variable (h : Alike x y)
include h

theorem moveEffect_congr : moveEffect x = moveEffect y := by
  funext effect target leavesNew
  rw [moveEffect, h.typeOf, moveEffect]

theorem moveNode_congr : moveNode x = moveNode y := by
  funext e
  cases e with
  | assign | unary => rw [moveNode, moveEffect_congr h, moveNode]
  | _ => rfl

theorem extract_congr (e : Expr) : extract x e = extract y e := by
  induction e using Expr.byChildren with
  | node e ih =>
    funext s
    cases hop : isShortCircuit e with
    | true =>
      cases e with
      | binary op l r =>
        rw [extract_shortCircuit x hop, ih l (by simp [Expr.children]), extract_shortCircuit y hop]
      | _ => cases hop
    | false => rw [extract_eq x hop, extractAll_congr ih, moveNode_congr h, extract_eq y hop]

theorem extractDecls_congr : ∀ ds : List VarDecl,
    extractDecls x ds = extractDecls y ds
  | [] => rfl
  | d :: ds => by
    rw [extractDecls, extractDecls_congr ds, extractDecls]
    simp only [extract_congr h]

theorem hoist_congr : hoist x = hoist y := by
  funext s
  unfold hoist
  simp only [extractOperands, extract_congr h, extractDecls_congr h]

theorem hoistAll_congr (ss : List Stmt) : hoistAll x ss = hoistAll y ss := by
  induction ss with
  | nil => rfl
  | cons s ss ih => rw [hoistAll, hoist_congr h, ih, hoistAll]

theorem lowerStmt_congr : lowerStmt x = lowerStmt y := by
  funext s
  unfold lowerStmt
  simp only [hoistAll_congr h]

end Effects

section

variable (h : Alike x y)
include h

theorem lowerLaneStmt_congr : lowerLaneStmt x = lowerLaneStmt y := by
  funext s
  unfold lowerLaneStmt lowerLanes assignLanes
  simp only [h.typeOf]

theorem coerce_congr : coerce x = coerce y := by
  funext target e
  unfold coerce floatIfInteger
  rw [h.typeOf]

theorem convertNode_congr : convertNode x = convertNode y := by
  funext e
  unfold convertNode userArgs builtinArgs builtinArg constructorArgs unify
  simp only [h.typeOf, h.typesOf, h.candidates, h.isUserFunction, coerce_congr h]

theorem convertDecl_congr : convertDecl x = convertDecl y := by
  funext d
  rw [convertDecl, coerce_congr h, convertDecl]

theorem convertStmt_congr : convertStmt x = convertStmt y := by
  funext returns s
  unfold convertStmt
  simp only [convertDecl_congr h, coerce_congr h]

section

variable {inputs' : List String} (hinputs : ∀ name, inputs.contains name = inputs'.contains name)
include hinputs

theorem testInput_congr : testInput inputs x = testInput inputs' y := by
  funext e
  unfold testInput
  simp only [h.isDeclared, hinputs]

theorem lowerOperation_congr : lowerOperation inputs x = lowerOperation inputs' y := by
  funext e
  unfold lowerOperation testOperands isInputTest lowerCall builtinName reshapeCall floorMod
    lowerConstruct lowerBinary lowerAssigned shiftAmount intOperand
  simp only [testInput_congr h hinputs, hinputs, h.typeOf, h.isUserFunction]

end

theorem resolveCall_congr (all : List Overload) : resolveCall all x = resolveCall all y := by
  funext name args
  rw [resolveCall, h.typesOf, resolveCall]

theorem binding?_congr (st : Setting) : st.binding? x = st.binding? y := by
  funext name
  rw [Setting.binding?, h.isDeclared, Setting.binding?]

theorem lowerRead_congr (st : Setting) : lowerRead st x = lowerRead st y := by
  funext e
  unfold lowerRead lowerAccess Access.read fetch
  simp only [h.typeOf, h.isUserFunction, binding?_congr h]

end

section Parameters

theorem passThroughTemp_congr (h : Alike x y) : passThroughTemp x = passThroughTemp y := by
  funext arg
  rw [passThroughTemp, h.typeOf, passThroughTemp]

theorem isParam_congr (h : Alike x y) : isParam x = isParam y := by
  funext name
  rw [isParam, h.depth?, isParam]

theorem passByRef_congr (h : Alike x y) : passByRef x = passByRef y := by
  funext arg
  unfold passByRef
  simp only [passThroughTemp_congr h, isParam_congr h, h.isLocal]

theorem passArgs_congr (h : Alike x y) : ∀ (flags : List Bool) (args : List Expr),
    passArgs x flags args = passArgs y flags args
  | [], args => by rw [passArgs, passArgs]; all_goals simp
  | flag :: flags, [] => rfl
  | flag :: flags, arg :: args => by
    rw [passArgs, passByRef_congr h, passArgs_congr h flags args, passArgs]

theorem lowerParamExpr_congr (h : Alike x y) (table : RefTable) :
    lowerParamExpr table x = lowerParamExpr table y := by
  funext e
  unfold lowerParamExpr
  simp only [passArgs_congr h, isParam_congr h]

end Parameters

theorem bindNode_congr (h : Alike x y) {st st' : Setting}
    (hfields : st.layout.fields = st'.layout.fields) : bindNode st x = bindNode st' y := by
  funext e
  unfold bindNode hostExpr? Layout.field?
  simp only [h.isDeclared, hfields]

/-! ## Settings -/

/-- The settings cannot be told apart by the passes. A boolean input is tested before images are
looked up, so that it does not matter what image has its name. -/
structure Setting.Agrees (st st' : Setting) : Prop where
  options : st.options = st'.options
  types : ∀ name, st.hostTypes.lookup name = st'.hostTypes.lookup name
  booleans : ∀ name, st.booleanInputs.contains name = st'.booleanInputs.contains name
  fields : st.layout.fields = st'.layout.fields
  uniforms : ∀ name, st.providesUniform name = st'.providesUniform name
  bindings : ∀ env name, st.booleanInputs.contains name = false →
    st.binding? env name = st'.binding? env name

section Passes

variable {st st' : Setting}
variable {env : Env} {name : String}

theorem Setting.Agrees.envFor (h : st.Agrees st') (p : Program) :
    Alike (st.envFor p) (st'.envFor p) := by
  rw [Setting.envFor, Setting.envFor, h.fields]
  exact (Alike.ofProgram p h.types).declareStruct _ _

theorem keepGlobal_congr (h : st.Agrees st') : keepGlobal st = keepGlobal st' := by
  funext d
  rw [keepGlobal, h.uniforms, keepGlobal]

theorem keptGlobals_congr (h : st.Agrees st') : ∀ ds : List VarDecl,
    keptGlobals st ds = keptGlobals st' ds
  | [] => rfl
  | d :: ds => by rw [keptGlobals, keepGlobal_congr h, keptGlobals_congr h ds, keptGlobals]

theorem keptItems_congr (h : st.Agrees st') : ∀ is : List Item, keptItems st is = keptItems st' is
  | [] => rfl
  | .struct d :: is => by rw [keptItems, keptItems_congr h is, keptItems]; all_goals simp
  | .globals ds :: is => by
    rw [keptItems, keptGlobals_congr h, keptItems_congr h is, keptItems]
  | .function f :: is => by rw [keptItems, keptItems_congr h is, keptItems]; all_goals simp

theorem converter_agree : Walker.Agree converter converter where
  enter := fun _ => rfl
  leave := fun _ => rfl
  expr := fun h => by simp only [converter, convertNode_congr h]
  stmt := fun h => by simp only [converter, convertStmt_congr h]
  global := fun h => by simp only [converter, convertDecl_congr h]

theorem paramWalker_agree (h : st.Agrees st') (table : RefTable) :
    Walker.Agree (paramWalker st table) (paramWalker st' table) where
  enter := fun _ => by
    funext f
    show enterParams st table f = enterParams st' table f
    unfold enterParams copyParams incomingName
    rw [h.options]
  leave := fun _ => rfl
  expr := fun hxy => lowerParamExpr_congr hxy table
  stmt := fun _ => rfl
  global := fun _ => rfl

/-- Every pass but the one on images does the same in settings that agree. -/
theorem apply_congr (h : st.Agrees st') {pass : Pass} (hpass : pass ≠ .sampling) (p : Program) :
    pass.apply st p = pass.apply st' p := by
  cases pass with
  | declarations =>
    show splitDeclarations st p = splitDeclarations st' p
    unfold splitDeclarations
    rw [keptItems_congr h]
    refine bind_congr fun items => ?_
    exact (Walker.Agree.ofStmt fun _ => rfl).walk_eq (h.envFor _) _
  | laneAliases =>
    refine (Walker.Agree.ofExpr fun hxy => ?_).walk_eq (h.envFor p) p
    rw [respellLanes_congr hxy]
  | conditionals => exact (Walker.Agree.ofExpr fun _ => rfl).walk_eq (h.envFor p) p
  | controlFlow => exact (Walker.Agree.ofStmt lowerStmt_congr).walk_eq (h.envFor p) p
  | laneAssignments => exact (Walker.Agree.ofStmt lowerLaneStmt_congr).walk_eq (h.envFor p) p
  | conversions =>
    show insertConversions st p = insertConversions st' p
    rw [insertConversions, converter_agree.walk_eq (h.envFor p), insertConversions]
  | operations =>
    have hagree : Walker.Agree (operationWalker st.booleanInputs)
        (operationWalker st'.booleanInputs) := by
      refine ⟨fun _ => rfl, fun _ => rfl, fun hxy => lowerOperation_congr hxy h.booleans,
        fun hxy => ?_, fun hxy => ?_⟩
      · simp only [operationWalker, testInput_congr hxy h.booleans]
      · simp only [operationWalker, testInput_congr hxy h.booleans]
    exact hagree.walk_eq (h.envFor p) p
  | sampling => exact absurd rfl hpass
  | overloads =>
    show separateOverloads st p = separateOverloads st' p
    unfold separateOverloads
    dsimp only
    split
    · rfl
    · refine (Walker.Agree.ofExpr fun hxy => ?_).walk_eq (h.envFor _) _
      simp only [resolveCall_congr hxy]
  | parameters =>
    funext s
    show lowerParameters st p s = lowerParameters st' p s
    rw [lowerParameters, (paramWalker_agree h _).walk_eq (h.envFor p), lowerParameters]
  | hostNames =>
    exact (Walker.Agree.ofExpr fun hxy => bindNode_congr hxy h.fields).walk_eq (h.envFor p) p
  | reservedNames =>
    show renameReserved st p = renameReserved st' p
    rw [renameReserved, h.options, renameReserved]
  | globalInits | entryPoint => rfl

theorem tested_of_stays {args : List Expr} {access : Access}
    (h : StaysOperated inputs env (.call name args)) (hname : Access.ofName name = some access) :
    ∀ c ∈ args, testInput inputs env c = c := by
  have hmem : name ∉ changingNames := by
    intro hmem
    have hnone : ∀ n ∈ changingNames, Access.ofName n = none := by decide
    rw [hnone name hmem] at hname
    cases hname
  have hcall : operated inputs env (.call name args) = .call name args := h fun hcompares => hcompares
  grind [operated_call, calledAs_of_not_mem, map_eq_self_iff]

theorem binding?_of_tested (h : st.Agrees st')
    (htested : testInput st.booleanInputs env (.ident name) = .ident name) :
    st.binding? env name = st'.binding? env name := by
  by_cases hdeclared : env.isDeclared name = true
  · rw [Setting.binding?, if_pos hdeclared, Setting.binding?, if_pos hdeclared]
  · refine h.bindings env name ?_
    grind [testInput]

theorem read_ne_ident {access : Access} {flip : Bool} {binding : String} {rest : List Expr}
    {e : Expr} (h : access.read env flip binding rest = some e) (name : String) :
    e ≠ .ident name := by
  rintro rfl
  unfold Access.read at h
  split at h <;> simp [sample, imageSize, fetch] at h

theorem lowerAccess_congr (h : st.Agrees st') {args : List Expr}
    (htested : ∀ target rest, args = .ident target :: rest → testInput st.booleanInputs env (.ident
      target) = .ident target) (access : Access) (name : String) :
    lowerAccess st env access name args = lowerAccess st' env access name args := by
  unfold lowerAccess
  split
  · rename_i target rest
    rw [binding?_of_tested h (htested target rest rfl), h.options]
  · rfl

theorem eq_ident_of_walkExpr {e : Expr} {a : State}
    (h : ((Walker.ofNodes (lowerRead st)).walkExpr env e a).1 = .ident name) : e = .ident name := by
  rw [Walker.walkExpr_eq] at h
  obtain ⟨ns, hx⟩ | ⟨_, _, _, _, _, x, -, -, -, hread, hx⟩ := lowerRead_cases st env
    (e.withChildren ((Walker.ofNodes (lowerRead st)).walkExprs env e.children a).1)
  · exact Expr.eq_ident_of_withChildren ((hx _).1.symm.trans h)
  · exact absurd ((hx _).1.symm.trans h) (read_ne_ident hread name)

theorem lowerRead_agree (h : st.Agrees st') (env : Env) (e : Expr) (a : State)
    (hstays : StaysOperated st.booleanInputs env e) :
    lowerRead st env (e.withChildren ((Walker.ofNodes (lowerRead st)).walkExprs env e.children a).1) =
      lowerRead st' env
        (e.withChildren ((Walker.ofNodes (lowerRead st)).walkExprs env e.children a).1) := by
  cases hnode : e.withChildren ((Walker.ofNodes (lowerRead st)).walkExprs env e.children a).1 with
  | call name args =>
    obtain ⟨args', rfl, rfl⟩ := Expr.eq_call_of_withChildren hnode
    unfold lowerRead
    dsimp only
    split
    · rfl
    · cases haccess : Access.ofName name with
      | none => rfl
      | some access =>
        refine lowerAccess_congr h (fun target rest hargs => ?_) access name
        -- the first argument is a variable only if it was one before its nodes were changed
        cases args' with
        | nil =>
          rw [Expr.children, Walker.walkExprs] at hargs
          cases hargs
        | cons c cs =>
          rw [Expr.children, Walker.walkExprs_cons] at hargs
          obtain rfl := eq_ident_of_walkExpr (List.cons.inj hargs).1
          exact tested_of_stays hstays haccess _ List.mem_cons_self
  | _ => rfl

theorem lowerSampling_congr (h : st.Agrees st') {p : Program}
    (hp : p.EachNode (st.envFor p) (StaysOperated st.booleanInputs)) :
    lowerSampling st p = lowerSampling st' p := by
  funext s
  have hsame : lowerSampling st p s = (Walker.ofNodes (lowerRead st')).walk (st.envFor p) p s :=
    Walker.walk_ofNodes_congr (lowerRead_agree h) hp s
  rw [hsame, (Walker.Agree.ofExpr fun hxy => lowerRead_congr hxy st').walk_eq (h.envFor p)]
  rfl

theorem runPasses_congr_of_not_mem (h : st.Agrees st') : ∀ {passes : List Pass},
    .sampling ∉ passes → ∀ p, runPasses st passes p = runPasses st' passes p
  | [], _, _ => rfl
  | pass :: passes, hmem, p => by
    rw [List.mem_cons, not_or] at hmem
    rw [runPasses, apply_congr h (Ne.symm hmem.1), runPasses]
    exact bind_congr fun q => runPasses_congr_of_not_mem h hmem.2 q

/-- The passes before the one on operations. -/
def passesBeforeOperations : List Pass :=
  [.declarations, .laneAliases, .conditionals, .controlFlow, .laneAssignments, .conversions]

def passesAfterSampling : List Pass :=
  [.overloads, .parameters, .hostNames, .reservedNames, .globalInits, .entryPoint]

/-- **All passes together do the same in settings that agree.** -/
theorem runPasses_congr (h : st.Agrees st') (p : Program) (s : State) :
    runPasses st Pass.all p s = runPasses st' Pass.all p s := by
  have hsplit : Pass.all = passesBeforeOperations ++ .operations :: .sampling :: passesAfterSampling := rfl
  have hearly : runPasses st passesBeforeOperations p = runPasses st' passesBeforeOperations p :=
    runPasses_congr_of_not_mem h (by decide) p
  rw [hsplit, runPasses_append, runPasses_append, hearly]
  generalize runPasses st' passesBeforeOperations p s = r
  have hoperations : Pass.operations.apply st r.1 = Pass.operations.apply st' r.1 :=
    apply_congr h (by decide) r.1
  have hsampling : Pass.sampling.apply st (Pass.operations.apply st r.1 r.2).1 =
      Pass.sampling.apply st' (Pass.operations.apply st r.1 r.2).1 :=
    lowerSampling_congr h (eachNode_staysOperated st r.1 r.2)
  rw [runPasses_cons, runPasses_cons, runPasses_cons, runPasses_cons, hsampling, hoperations,
    runPasses_congr_of_not_mem h (show Pass.sampling ∉ passesAfterSampling by decide)]

end Passes

end ShaderEffect.Lowering
