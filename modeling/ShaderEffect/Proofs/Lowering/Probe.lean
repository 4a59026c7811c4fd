import ShaderEffect.Proofs.Layout.Named
import ShaderEffect.Proofs.Lowering.Agreement
import ShaderEffect.Shader.Parser.Program
import ShaderEffect.Wgsl.Program

/-!
# What small programs tell about a setting

A program of one expression shows in its text what the passes read of the setting.
-/

namespace ShaderEffect.Lowering

open Layout List

/-! ## Programs of one expression -/

/-- A program whose `main` evaluates an expression. -/
def mainOf (e : Expr) : Program :=
  { items := [.function
      { name := "main", returns := .void, params := [], body := [.expr e], isEntry := false }] }

/-- The same program once `main` is the entry point. -/
def entryOf (e : Expr) : Program :=
  { items := [.function
      { name := Wgsl.entryPoint, returns := .vec 4, params := [],
        body := prologue ++ [.expr e, returnColor], isEntry := true }] }

/-- The scopes in which the expression stands. -/
def bodyEnv (st : Setting) : Env :=
  ((st.envFor (mainOf (.int "0"))).push.declareParams []).push

def shown (e : Expr) : String :=
  Stmt.wgslExpr [Wgsl.entryPoint] e

theorem wgslLinesAfter_entryOf (e : Expr) :
    Program.wgslLinesAfter [Wgsl.entryPoint] none (entryOf e).items =
      "@fragment" :: (Function.entryHead Wgsl.entryPoint ++ "\x7b") ::
        (Wgsl.indent (Stmt.wgslLinesAll [Wgsl.entryPoint] prologue) ++
          ("    " ++ (shown e ++ ";")) :: ["    return " ++ Wgsl.fragColor ++ ";", "\x7d"]) :=
  rfl

theorem shown_eq_of_wgsl_eq {e e' : Expr} (h : (entryOf e).wgsl = (entryOf e').wgsl) :
    shown e = shown e' := by
  rw [Program.wgsl, Program.wgsl] at h
  change String.join ((Program.wgslLinesAfter [Wgsl.entryPoint] none (entryOf e).items).map _) =
    String.join ((Program.wgslLinesAfter [Wgsl.entryPoint] none (entryOf e').items).map _) at h
  grind [wgslLinesAfter_entryOf, String.join_cons, String.join_append, String.append_right_inj,
      String.append_left_inj]

theorem runPasses_step {st : Setting} {pass : Pass} {p q : Program} {s s' : State}
    (h : pass.apply st p s = (q, s')) (passes : List Pass) :
    runPasses st (pass :: passes) p s = runPasses st passes q s' := by
  rw [runPasses_cons, h]

theorem runPasses_afterSampling {st : Setting} {e e' : Expr} (notices : List LoweringNotice)
    (textures : List String)
    (hparameters : Pass.parameters.apply st (mainOf e) { notices, textures } =
      (mainOf e, { notices, textures }))
    (hhost : Pass.hostNames.apply st (mainOf e) { notices, textures } =
      (mainOf e', { notices, textures })) :
    (runPasses st passesAfterSampling (mainOf e) { notices, textures }).1 = entryOf e' := by
  have hoverloads : Pass.overloads.apply st (mainOf e) { notices, textures } =
      (mainOf e, { notices, textures }) := rfl
  have hnames : Pass.reservedNames.apply st (mainOf e') { notices, textures } =
      (mainOf e', { notices, textures }) := rfl
  have hinits : Pass.globalInits.apply st (mainOf e') { notices, textures } =
      (mainOf e', { notices, textures }) := rfl
  have hentry : Pass.entryPoint.apply st (mainOf e') { notices, textures } =
      (entryOf e', { notices, textures }) := rfl
  rw [passesAfterSampling, runPasses_step hoverloads, runPasses_step hparameters,
    runPasses_step hhost, runPasses_step hnames, runPasses_step hinits, runPasses_step hentry]
  rfl

/-! ## What becomes of a name of the host -/

/-- What becomes of a host field, if an input claims the field `speed` or not. -/
def hostRead (claim : Bool) (name : String) : Expr :=
  match hostField? claim name with
  | some f => if isVisible f name then .field (.ident Wgsl.uniformVar) f.member else .ident name
  | none => .ident name

/-- What a setting shows of the name of a host field: an input of the name is a truth value, and
an input claims the host's `speed`. -/
structure Shows (st : Setting) (name : String) (truth claim : Bool) : Prop where
  host : name ∈ hostNames
  boolean : st.booleanInputs.contains name = truth
  field : st.layout.field? name = hostField? claim name

section Shows

variable {st : Setting} {name : String} {truth claim : Bool}

theorem Shows.bound (h : Shows st name truth claim) :
    (hostExpr? st none name).getD (.ident name) = hostRead claim name := by
  have hfragment : ∀ n ∈ hostNames, fragmentVar? none n = none := by decide
  rw [hostExpr?, hfragment name h.host]
  dsimp only
  rw [h.field, hostRead]
  grind

def readOf (truth claim : Bool) (name : String) : Expr :=
  if truth then .binary .ne (hostRead claim name) (.int "0") else hostRead claim name

theorem runPasses_ident (h : Shows st name truth claim) :
    (runPasses st Pass.all (mainOf (.ident name)) {}).1 = entryOf (readOf truth claim name) := by
  have hearly : runPasses st passesBeforeOperations (mainOf (.ident name)) {} =
      (mainOf (.ident name), {}) := rfl
  have hoperations : Pass.operations.apply st (mainOf (.ident name)) {} =
      (mainOf (if st.booleanInputs.contains name && true then .binary .ne (.ident name) (.int "0")
        else .ident name), {}) := rfl
  rw [h.boolean, Bool.and_true] at hoperations
  have hsplit : Pass.all =
    passesBeforeOperations ++ .operations :: .sampling :: passesAfterSampling := rfl
  rw [hsplit, runPasses_append, hearly, runPasses_step hoperations, readOf, ← h.bound]
  cases truth with
  | false =>
    have hsampling : Pass.sampling.apply st (mainOf (.ident name)) {} = (mainOf (.ident name), {}) :=
      rfl
    rw [if_neg Bool.false_ne_true, if_neg Bool.false_ne_true, runPasses_step hsampling]
    exact runPasses_afterSampling [] [] rfl rfl
  | true =>
    have hsampling : Pass.sampling.apply st (mainOf (.binary .ne (.ident name) (.int "0"))) {} =
        (mainOf (.binary .ne (.ident name) (.int "0")), {}) := rfl
    rw [if_pos rfl, if_pos rfl, runPasses_step hsampling]
    exact runPasses_afterSampling [] [] rfl rfl

/-- An expression whose lowered form depends on the type of a name. -/
def shiftProbe (name : String) : Expr :=
  .binary .lt (.binary .shl (.ident name) (.ident name)) (.float "1.0")

/-- What becomes of the shift, if the name has the given type and stands for `e`. -/
def shifted (type : Option ShaderType) (e : Expr) : Expr :=
  match type with
  | some (.scalar .float) =>
    .binary .shl (.construct (.scalar .int) [e]) (.construct (.scalar .uint) [e])
  | some (.vector .float n) =>
    .binary .shl (.construct (.vector .int n) [e]) (.construct (.vector .uint n) [e])
  | _ => .binary .shl e (.construct (.scalar .uint) [e])

/-- A shift of integers becomes a float to be compared with one. -/
def widened (type : Option ShaderType) (e : Expr) : Expr :=
  if type = some .int then .construct .float [e] else e

def shiftOf (type : Option ShaderType) (e : Expr) : Expr :=
  .binary .lt (widened type (shifted type e)) (.float "1.0")

/-- The types of inputs that are neither truth values nor images. -/
def valueTypes : List (Option ShaderType) :=
  [some .float, some .int, some (.vec 2), some (.vec 4)]

/-- The types that a name of the host may have, if no input of the name is a truth value. -/
def fieldTypes : List (Option ShaderType) :=
  valueTypes ++ [some .sampler, none]

section Shift

variable {type : Option ShaderType}

theorem mem_fieldTypes_cases (h : type ∈ fieldTypes) :
    type = some .float ∨ type = some .int ∨ type = some (.vec 2) ∨ type = some (.vec 4) ∨
      type = some .sampler ∨ type = none := by
  grind [fieldTypes, valueTypes]

theorem conversions_shift (htype : st.hostTypes.lookup name = type) (hknown : type ∈ fieldTypes) :
    Pass.conversions.apply st (mainOf (shiftProbe name)) {} =
      (mainOf (.binary .lt (widened type (.binary .shl (.ident name) (.ident name)))
        (.float "1.0")), {}) := by
  have hpass : Pass.conversions.apply st (mainOf (shiftProbe name)) {} =
      (mainOf (convertNode (bodyEnv st) (shiftProbe name)), {}) := rfl
  have hshift : (bodyEnv st).typeOf (.binary .shl (.ident name) (.ident name)) =
      st.hostTypes.lookup name := rfl
  have hfloat : (bodyEnv st).typeOf (.float "1.0") = some .float := rfl
  rw [hpass, shiftProbe, convertNode, unify, hshift, htype, hfloat]
  rcases mem_fieldTypes_cases hknown with rfl | rfl | rfl | rfl | rfl | rfl <;> rfl

theorem lowerConstruct_float (env : Env) (e : Expr) (s : State) :
    lowerConstruct env .float [e] s = (.construct .float [e], s) := by
  unfold lowerConstruct
  dsimp only
  cases env.typeOf e <;> rfl

theorem lowerBinary_shift {env : Env} (htype : env.typeOf (.ident name) = type)
    (hknown : type ∈ fieldTypes) :
    lowerBinary env .shl (.ident name) (.ident name) = shifted type (.ident name) := by
  have hlower : lowerBinary env .shl (.ident name) (.ident name) =
      .binary .shl (intOperand env (.ident name)) (shiftAmount env (.ident name)) := rfl
  rw [hlower, intOperand, shiftAmount, htype]
  · rcases mem_fieldTypes_cases hknown with rfl | rfl | rfl | rfl | rfl | rfl <;> rfl
  · rintro _ ⟨⟩

theorem operations_shift (hbool : st.booleanInputs.contains name = false)
    (htype : st.hostTypes.lookup name = type) (hknown : type ∈ fieldTypes) :
    Pass.operations.apply st (mainOf (.binary .lt
        (widened type (.binary .shl (.ident name) (.ident name))) (.float "1.0"))) {} =
      (mainOf (shiftOf type (.ident name)), {}) := by
  have htest : testInput st.booleanInputs (bodyEnv st) (.ident name) = .ident name := by
    rw [testInput, hbool, Bool.false_and, if_neg Bool.false_ne_true]
  have hident : (bodyEnv st).typeOf (.ident name) = type := htype
  rw [shiftOf, ← lowerBinary_shift hident hknown]
  unfold widened
  split
  · have hpass : Pass.operations.apply st (mainOf (.binary .lt
        (.construct .float [.binary .shl (.ident name) (.ident name)]) (.float "1.0"))) {} =
        let r := lowerConstruct (bodyEnv st) .float
          [lowerBinary (bodyEnv st) .shl (testInput st.booleanInputs (bodyEnv st) (.ident name))
            (testInput st.booleanInputs (bodyEnv st) (.ident name))] {}
        (mainOf (.binary .lt (testInput st.booleanInputs (bodyEnv st) r.1) (.float "1.0")), r.2) := rfl
    rw [hpass, htest, lowerConstruct_float]
    rfl
  · have hpass : Pass.operations.apply st (mainOf (shiftProbe name)) {} =
        (mainOf (.binary .lt (lowerBinary (bodyEnv st) .shl
          (testInput st.booleanInputs (bodyEnv st) (.ident name))
          (testInput st.booleanInputs (bodyEnv st) (.ident name))) (.float "1.0")), {}) := rfl
    rw [htest] at hpass
    exact hpass

theorem Shows.runPasses_shift (h : Shows st name false claim)
    (htype : st.hostTypes.lookup name = type) (hknown : type ∈ fieldTypes) :
    (runPasses st Pass.all (mainOf (shiftProbe name)) {}).1 =
      entryOf (shiftOf type (hostRead claim name)) := by
  have hearly : runPasses st [.declarations, .laneAliases, .conditionals, .controlFlow,
      .laneAssignments] (mainOf (shiftProbe name)) {} = (mainOf (shiftProbe name), {}) := rfl
  have hsplit : Pass.all = [.declarations, .laneAliases, .conditionals, .controlFlow,
      .laneAssignments] ++ .conversions :: .operations :: .sampling :: passesAfterSampling := rfl
  rw [hsplit, runPasses_append, hearly, runPasses_step (conversions_shift htype hknown),
    runPasses_step (operations_shift h.boolean htype hknown), ← h.bound]
  have hsampling : Pass.sampling.apply st (mainOf (shiftOf type (.ident name))) {} =
      (mainOf (shiftOf type (.ident name)), {}) := by
    rcases mem_fieldTypes_cases hknown with rfl | rfl | rfl | rfl | rfl | rfl <;> rfl
  have hparameters : Pass.parameters.apply st (mainOf (shiftOf type (.ident name))) {} =
      (mainOf (shiftOf type (.ident name)), {}) := by
    rcases mem_fieldTypes_cases hknown with rfl | rfl | rfl | rfl | rfl | rfl <;> rfl
  have hhost : Pass.hostNames.apply st (mainOf (shiftOf type (.ident name))) {} =
      (mainOf (shiftOf type ((hostExpr? st none name).getD (.ident name))), {}) := by
    rcases mem_fieldTypes_cases hknown with rfl | rfl | rfl | rfl | rfl | rfl <;> rfl
  rw [runPasses_step hsampling]
  exact runPasses_afterSampling [] [] hparameters hhost

end Shift

/-- An expression whose lowered form depends on the image that a name stands for. -/
def sizeProbe (name : String) : Expr :=
  .call "IMG_SIZE" [.ident name]

theorem runPasses_size (hbool : st.booleanInputs.contains name = false) :
    runPasses st Pass.all (mainOf (sizeProbe name)) {} =
      runPasses st passesAfterSampling
        (mainOf (lowerAccess st (bodyEnv st) .size "IMG_SIZE" [.ident name] {}).1)
        (lowerAccess st (bodyEnv st) .size "IMG_SIZE" [.ident name] {}).2 := by
  have hearly : runPasses st passesBeforeOperations (mainOf (sizeProbe name)) {} =
      (mainOf (sizeProbe name), {}) := rfl
  have hoperations : Pass.operations.apply st (mainOf (sizeProbe name)) {} =
      (mainOf (.call "IMG_SIZE" [if st.booleanInputs.contains name && true then
        .binary .ne (.ident name) (.int "0") else .ident name]), {}) := rfl
  rw [hbool, Bool.false_and, if_neg Bool.false_ne_true] at hoperations
  have hsampling : Pass.sampling.apply st (mainOf (sizeProbe name)) {} =
      (mainOf (lowerAccess st (bodyEnv st) .size "IMG_SIZE" [.ident name] {}).1,
        (lowerAccess st (bodyEnv st) .size "IMG_SIZE" [.ident name] {}).2) := rfl
  have hsplit : Pass.all =
    passesBeforeOperations ++ .operations :: .sampling :: passesAfterSampling := rfl
  rw [hsplit, runPasses_append, hearly, runPasses_step hoperations]
  exact runPasses_step hsampling _

theorem Shows.runPasses_size_none (h : Shows st name false claim)
    (hbinding : st.binding? (bodyEnv st) name = none) :
    (runPasses st Pass.all (mainOf (sizeProbe name)) {}).1 =
      entryOf (.call "IMG_SIZE" [hostRead claim name]) := by
  have haccess : lowerAccess st (bodyEnv st) .size "IMG_SIZE" [.ident name] {} =
      (sizeProbe name, { notices := [.imageUnknown "IMG_SIZE" name] }) := by
    unfold lowerAccess
    dsimp only
    rw [hbinding]
    rfl
  rw [runPasses_size h.boolean, haccess, ← h.bound]
  exact runPasses_afterSampling [.imageUnknown "IMG_SIZE" name] [] rfl rfl

theorem runPasses_size_some (hbool : st.booleanInputs.contains name = false) {binding : String}
    (hbinding : st.binding? (bodyEnv st) name = some binding) :
    ∃ texture, (runPasses st Pass.all (mainOf (sizeProbe name)) {}).1 =
      entryOf (.construct (.vec 2) [.call "textureDimensions" [texture]]) := by
  have haccess : lowerAccess st (bodyEnv st) .size "IMG_SIZE" [.ident name] {} =
      (imageSize binding, { textures := [binding] }) := by
    unfold lowerAccess
    dsimp only
    rw [hbinding]
    rfl
  rw [runPasses_size hbool, haccess]
  exact ⟨_, runPasses_afterSampling [] [binding] rfl rfl⟩

end Shows

/-! ## Texts -/

theorem eq_of_shown : ∀ name ∈ hostNames,
    (∀ truth claim truth' claim',
      shown (readOf truth claim name) = shown (readOf truth' claim' name) →
        truth = truth' ∧ (name = "speed" → claim = claim')) ∧
    ∀ claim, ∀ type ∈ valueTypes, ∀ type' ∈ fieldTypes,
      shown (shiftOf type (hostRead claim name)) = shown (shiftOf type' (hostRead claim name)) →
        type = type' := by
  decide +kernel

theorem shown_size_ne (read texture : Expr) :
    shown (.call "IMG_SIZE" [read]) ≠
      shown (.construct (.vec 2) [.call "textureDimensions" [texture]]) := by
  have hcall : shown (.call "IMG_SIZE" [read]) = "_ = " ++ Expr.wgsl (.call "IMG_SIZE" [read]) := rfl
  have hsize : shown (.construct (.vec 2) [.call "textureDimensions" [texture]]) =
      "_ = " ++ Expr.wgsl (.construct (.vec 2) [.call "textureDimensions" [texture]]) := rfl
  rw [hcall, hsize, Ne, String.append_right_inj, Expr.wgsl, Expr.wgsl]
  intro h
  have hfirst := congrArg (fun s => s.toList.head?) h
  simp [ShaderType.wgsl] at hfirst

/-! ## Sources -/

/-- The expression that `main` evaluates, if the program does nothing else. -/
def mainExpr? (p : Program) : Option Expr :=
  match p.items with
  | [.function f] =>
    match f.body with
    | [.expr e] =>
      if f.name = "main" ∧ f.returns = .void ∧ f.params.isEmpty = true ∧ f.isEntry = false then
        some e
      else none
    | _ => none
  | _ => none

theorem eq_mainOf_of_mainExpr? {p : Program} {e : Expr} (h : mainExpr? p = some e) :
    p = mainOf e := by
  obtain ⟨items⟩ := p
  unfold mainExpr? at h
  split at h
  · rename_i f hitems
    obtain ⟨name, returns, params, body, isEntry⟩ := f
    grind [mainOf]
  · cases h

/-- The expressions are the same. Of all nodes, those that occur in the expressions above are
compared. -/
def same : Expr → Expr → Bool
  | .ident a, .ident b => a == b
  | .float a, .float b => a == b
  | .binary op x y, .binary op' x' y' => op == op' && same x x' && same y y'
  | .call f [x], .call g [y] => f == g && same x y
  | _, _ => false

theorem eq_of_same {e e' : Expr} (h : same e e' = true) : e = e' := by
  fun_induction same e e' with
  | case1 | case2 => rw [beq_iff_eq.mp h]
  | case3 op x y op' x' y' ihx ihy =>
    simp only [Bool.and_eq_true, beq_iff_eq] at h
    rw [h.1.1, ihx h.1.2, ihy h.2]
  | case4 f x g y ih =>
    simp only [Bool.and_eq_true, beq_iff_eq] at h
    rw [h.1, ih h.2]
  | case5 => cases h

/-- The source of a program whose `main` evaluates an expression. -/
def sourceOf (text : String) : String :=
  "void main()\x7b" ++ text ++ ";\x7d"

/-- The source is read as the program that evaluates the expression. -/
def readsAs (text : String) (e : Expr) : Bool :=
  (Program.parse (sourceOf text)).toOption.any fun p => (mainExpr? p).any fun x => same x e

theorem parse_of_readsAs {text : String} {e : Expr} (h : readsAs text e = true) :
    Program.parse (sourceOf text) = .ok (mainOf e) := by
  unfold readsAs at h
  cases hparse : Program.parse (sourceOf text) with
  | error err =>
    rw [hparse] at h
    cases h
  | ok p =>
    rw [hparse] at h
    change ((mainExpr? p).any fun x => same x e) = true at h
    grind [Option.any_eq_true, eq_mainOf_of_mainExpr?, eq_of_same]

theorem readsAs_probes : ∀ name ∈ hostNames, readsAs name (.ident name) = true ∧
    readsAs (name ++ "<<" ++ name ++ "<1.0") (shiftProbe name) = true ∧
    readsAs ("IMG_SIZE(" ++ name ++ ")") (sizeProbe name) = true := by
  decide +kernel

end ShaderEffect.Lowering
