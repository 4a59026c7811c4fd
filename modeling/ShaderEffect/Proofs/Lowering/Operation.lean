import ShaderEffect.Lowering.Operation
import ShaderEffect.Proofs.Typing.Soundness

/-!
# What lowering an operation does

The value of a lowered node does not depend on the state: it is `operated`, which tests the operands
and then writes the node anew. The case lemmas say what each kind of node can become: a call stays
or is one of a few functions that change (`calledAs_cases`), a constructor stays, becomes a test or
a diagonal, or is dropped (`constructed_cases`), and an operand may become an integer.
-/

namespace ShaderEffect.Lowering

open Expr List

/-! ## The value of a lowered node -/

def calledAs (env : Env) (name : String) (args : List Expr) : Expr :=
  if env.isUserFunction name then .call name args
  else
    match builtinName env name args with
    | some renamed => .call renamed args
    | none => (reshapeCall env name args).getD (.call name args)

/-- What becomes of a constructor with one argument of the given type. -/
def convertedTo (type fromType : ShaderType) (arg : Expr) : Expr :=
  match type with
  | .scalar .bool => if fromType.isBoolBased then arg else .binary .ne arg (zeroOf fromType)
  | .vector .bool _ =>
    if fromType.isBoolBased then .construct type [arg] else .binary .ne arg (zeroOf fromType)
  | .matrix columns rows =>
    if fromType.isScalar then diagonal columns rows arg else .construct type [arg]
  | _ => .construct type [arg]

def constructed (env : Env) (type : ShaderType) (args : List Expr) : Expr :=
  match args with
  | [arg] =>
    match env.typeOf arg with
    | some fromType => convertedTo type fromType arg
    | none => .construct type args
  | _ => .construct type args

/-- What becomes of a node whose operands have been tested. -/
def operatedOn (env : Env) : Expr → Expr
  | .call name args => calledAs env name args
  | .construct type args => constructed env type args
  | .binary op lhs rhs => lowerBinary env op lhs rhs
  | .assign op lhs rhs => .assign op lhs (lowerAssigned env op rhs)
  | .unary .bitNot operand => .unary .bitNot (intOperand env operand)
  | e => e

def operated (inputs : List String) (env : Env) (e : Expr) : Expr :=
  operatedOn env (testOperands inputs env e)

section Value

variable (env : Env) (a : State)

theorem lowerCall_fst (name : String) (args : List Expr) :
    (lowerCall env name args a).1 = calledAs env name args := by
  unfold lowerCall calledAs
  by_cases huser : env.isUserFunction name = true
  · simp only [huser, if_true]
    rfl
  · simp only [huser]
    cases builtinName env name args with
    | some renamed => rfl
    | none =>
      cases reshapeCall env name args with
      | some e => rfl
      | none =>
        by_cases hlacks : lackingBuiltins.contains name = true
        · simp only [hlacks, if_true]
          rfl
        · simp only [hlacks]
          rfl

theorem lowerConversion_fst (type fromType : ShaderType) (arg : Expr) :
    (lowerConversion type fromType arg a).1 = convertedTo type fromType arg := by
  cases type with
  | scalar s => cases s <;> rfl
  | vector s n => cases s <;> rfl
  | matrix columns rows =>
    cases fromType with
    | matrix c r =>
      unfold lowerConversion
      by_cases hsize : ((columns, rows) != (c, r)) = true
      · simp only [hsize, if_true]
        rfl
      · simp only [hsize]
        rfl
    | _ => rfl
  | _ => rfl

theorem lowerConstruct_fst (type : ShaderType) (args : List Expr) :
    (lowerConstruct env type args a).1 = constructed env type args := by
  match args with
  | [arg] =>
    cases htype : env.typeOf arg with
    | none => simp only [lowerConstruct, constructed, htype]; rfl
    | some fromType =>
      simp only [lowerConstruct, constructed, htype]
      exact lowerConversion_fst a type fromType arg
  | [] | _ :: _ :: _ => rfl

theorem lowerOperation_fst (inputs : List String) (e : Expr) :
    (lowerOperation inputs env e a).1 = operated inputs env e := by
  unfold lowerOperation operated
  generalize testOperands inputs env e = x
  cases x with
  | call name args => exact lowerCall_fst env a name args
  | construct type args => exact lowerConstruct_fst env a type args
  | unary op operand => cases op <;> rfl
  | _ => rfl

end Value

/-! ## Names of functions -/

/-- The built-in functions that are called by another name or written in another way. -/
def changingNames : List String :=
  ["atan", "inversesqrt", "dFdx", "dFdy", "roundEven", "faceforward", "mix", "not", "mod",
    "lessThan", "lessThanEqual", "greaterThan", "greaterThanEqual", "equal", "notEqual",
    "floatBitsToInt", "floatBitsToUint", "intBitsToFloat", "uintBitsToFloat"]

theorem not_mem_changingNames {name : String} {c : Char} (hc : c ∈ ['_', '<'])
    (h : c ∈ name.toList) : name ∉ changingNames := by
  have hnames : ∀ n ∈ changingNames, '_' ∉ n.toList ∧ '<' ∉ n.toList := by decide
  intro hname
  simp only [mem_cons, not_mem_nil, or_false] at hc
  rcases hc with rfl | rfl
  · exact (hnames name hname).1 h
  · exact (hnames name hname).2 h

/-- The ways in which a call of a built-in function is written anew. -/
inductive Reshaped (env : Env) : List Expr → Expr → Prop where
  | negation (x : Expr) : Reshaped env [x] (.unary .not x)
  | bitcast (x : Expr) (type : ShaderType) :
    Reshaped env [x] (.call ("bitcast<" ++ type.wgsl ++ ">") [x])
  | remainder (x y : Expr) : Reshaped env [x, y] (floorMod env x y)
  | comparison {op : BinOp} (h : op.isComparison = true) (x y : Expr) :
    Reshaped env [x, y] (.binary op x y)

section Names

variable {env : Env} {name renamed : String} {args : List Expr} {e : Expr}

theorem mem_of_builtinName (h : builtinName env name args = some renamed) :
    name ∈ changingNames ∧ renamed ∉ changingNames := by
  unfold builtinName at h
  split at h
  · split at h
    · cases h
      decide
    · cases h
  · cases h
    decide
  · cases h
    decide
  · cases h
    decide
  · cases h
    decide
  · cases h
    decide
  · split at h
    · split at h
      · cases h
        decide
      · cases h
    · cases h
  · cases h

theorem reshaped_of_reshapeCall (h : reshapeCall env name args = some e) :
    name ∈ changingNames ∧ Reshaped env args e := by
  unfold reshapeCall at h
  split at h
  · rename_i x
    by_cases hnot : (name == "not") = true
    · rw [if_pos hnot] at h
      cases h
      obtain rfl := beq_iff_eq.mp hnot
      exact ⟨by decide, .negation x⟩
    · rw [if_neg hnot] at h
      obtain ⟨s, hs, rfl⟩ := Option.map_eq_some_iff.mp h
      refine ⟨?_, .bitcast x _⟩
      unfold bitcastScalar? at hs
      split at hs <;> cases hs <;> decide
  · rename_i x y
    by_cases hmod : (name == "mod") = true
    · rw [if_pos hmod] at h
      cases h
      obtain rfl := beq_iff_eq.mp hmod
      exact ⟨by decide, .remainder x y⟩
    · rw [if_neg hmod] at h
      obtain ⟨op, hop, rfl⟩ := Option.map_eq_some_iff.mp h
      have hname : name ∈ changingNames ∧ op.isComparison = true := by
        unfold comparison? at hop
        split at hop <;> cases hop <;> decide
      exact ⟨hname.1, .comparison hname.2 x y⟩
  · cases h

/-- **A call stays, or its function is one that changes and the outcome is of another name or
shape.** -/
theorem calledAs_cases (env : Env) (name : String) (args : List Expr) :
    calledAs env name args = .call name args ∨ name ∈ changingNames ∧
      ((∃ renamed, renamed ∉ changingNames ∧ calledAs env name args = .call renamed args) ∨
        Reshaped env args (calledAs env name args)) := by
  unfold calledAs
  by_cases huser : env.isUserFunction name = true
  · exact .inl (if_pos huser)
  · rw [if_neg huser]
    cases hname : builtinName env name args with
    | some renamed =>
      obtain ⟨hmem, hrenamed⟩ := mem_of_builtinName hname
      exact .inr ⟨hmem, .inl ⟨renamed, hrenamed, rfl⟩⟩
    | none =>
      cases hshape : reshapeCall env name args with
      | none => exact .inl rfl
      | some e =>
        obtain ⟨hmem, hreshaped⟩ := reshaped_of_reshapeCall hshape
        exact .inr ⟨hmem, .inr hreshaped⟩

theorem calledAs_of_not_mem (h : name ∉ changingNames) :
    calledAs env name args = .call name args := by
  rcases calledAs_cases env name args with hcall | ⟨hmem, -⟩
  · exact hcall
  · exact absurd hmem h

theorem floorMod_cases (env : Env) (x y : Expr) :
    floorMod env x y = .binary .sub x (.binary .mul y (.call "floor" [.binary .div x y])) ∨
      ∃ name, name ∉ changingNames ∧ floorMod env x y = .call name [x, y] := by
  unfold floorMod
  split
  · exact .inl rfl
  · refine .inr ?_
    dsimp only
    split
    · exact ⟨_, by decide, rfl⟩
    · refine ⟨_, not_mem_changingNames (c := '_') (by decide) ?_, rfl⟩
      rw [String.toList_append, mem_append]
      exact .inl (by decide)

end Names

/-! ## Operands -/

section Operands

variable {inputs : List String} {env : Env} {e x y : Expr}

theorem testInput_cases (inputs : List String) (env : Env) (e : Expr) :
    testInput inputs env e = e ∨
      ∃ name, e = .ident name ∧ name ∈ inputs ∧
        testInput inputs env e = .binary .ne (.ident name) (.int "0") := by
  cases e with
  | ident name =>
    by_cases h : (inputs.contains name && !env.isDeclared name) = true
    · refine .inr ⟨name, rfl, ?_, if_pos h⟩
      rw [Bool.and_eq_true, contains_iff_mem] at h
      exact h.1
    · exact .inl (if_neg h)
  | _ => exact .inl rfl

theorem testInput_testInput (inputs : List String) (env : Env) (e : Expr) :
    testInput inputs env (testInput inputs env e) = testInput inputs env e := by
  rcases testInput_cases inputs env e with h | ⟨name, -, -, h⟩
  · rw [h, h]
  · rw [h]
    rfl

theorem eq_of_testInput_eq (h : testInput inputs env e = x)
    (hx : ∀ name, x ≠ .binary .ne (.ident name) (.int "0")) : e = x := by
  rcases testInput_cases inputs env e with hsame | ⟨name, -, -, htest⟩
  · exact hsame.symm.trans h
  · exact absurd (h.symm.trans htest) (hx name)

theorem constructed_cases (env : Env) (type : ShaderType) (args : List Expr) :
    constructed env type args = .construct type args ∨ ∃ arg fromType, args = [arg] ∧
      env.typeOf arg = some fromType ∧
        ((type = .bool ∧ fromType.isBoolBased = true ∧ constructed env type args = arg) ∨
          (type.isBoolBased = true ∧ fromType.isBoolBased = false ∧
            constructed env type args = .binary .ne arg (zeroOf fromType)) ∨
          ∃ columns rows, type = .matrix columns rows ∧ fromType.isScalar = true ∧
            constructed env type args = diagonal columns rows arg) := by
  match args with
  | [] | _ :: _ :: _ => exact .inl rfl
  | [arg] =>
    cases htype : env.typeOf arg with
    | none =>
      refine .inl ?_
      simp only [constructed, htype]
    | some fromType =>
      have hdef : constructed env type [arg] = convertedTo type fromType arg := by
        simp only [constructed, htype]
      rw [hdef]
      cases type with
      | scalar s =>
        cases s with
        | bool =>
          by_cases hbool : fromType.isBoolBased = true
          · exact .inr ⟨arg, fromType, rfl, htype, .inl ⟨rfl, hbool, if_pos hbool⟩⟩
          · exact .inr ⟨arg, fromType, rfl, htype, .inr (.inl
              ⟨rfl, Bool.eq_false_iff.mpr hbool, if_neg hbool⟩)⟩
        | float | int | uint => exact .inl rfl
      | vector s n =>
        cases s with
        | bool =>
          by_cases hbool : fromType.isBoolBased = true
          · exact .inl (if_pos hbool)
          · exact .inr ⟨arg, fromType, rfl, htype, .inr (.inl
              ⟨rfl, Bool.eq_false_iff.mpr hbool, if_neg hbool⟩)⟩
        | float | int | uint => exact .inl rfl
      | matrix columns rows =>
        by_cases hscalar : fromType.isScalar = true
        · exact .inr ⟨arg, fromType, rfl, htype, .inr (.inr
            ⟨columns, rows, rfl, hscalar, if_pos hscalar⟩)⟩
        · exact .inl (if_neg hscalar)
      | _ => exact .inl rfl

theorem constructed_of_number {type : ShaderType} (hbool : type.isBoolBased = false)
    (hmatrix : ∀ columns rows, type ≠ .matrix columns rows) (args : List Expr) :
    constructed env type args = .construct type args := by
  rcases constructed_cases env type args with
    h | ⟨_, _, -, -, ⟨rfl, -⟩ | ⟨h, -⟩ | ⟨columns, rows, rfl, -⟩⟩
  · exact h
  · cases hbool
  · rw [hbool] at h
    cases h
  · exact absurd rfl (hmatrix columns rows)

theorem component_ofComponents (s : Scalar) (n : Nat) :
    (ShaderType.ofComponents s n).component = some s := by
  unfold ShaderType.ofComponents
  split <;> rfl

theorem constructed_ofComponents {s : Scalar} (hs : s ≠ .bool) (n : Nat) (args : List Expr) :
    constructed env (.ofComponents s n) args = .construct (.ofComponents s n) args := by
  refine constructed_of_number ?_ (fun columns rows h => ?_) args
  · simp [ShaderType.isBoolBased, component_ofComponents, hs]
  · unfold ShaderType.ofComponents at h
    split at h <;> cases h

theorem intOperand_cases (env : Env) (e : Expr) :
    intOperand env e = e ∨ ∃ type n, env.typeOf e = some type ∧ type.isFloatBased = true ∧
      intOperand env e = .construct (.ofComponents .int n) [e] := by
  unfold intOperand
  split
  · rename_i type htype
    by_cases hfloat : type.isFloatBased = true
    · exact .inr ⟨type, _, htype, hfloat, if_pos hfloat⟩
    · exact .inl (if_neg hfloat)
  · exact .inl rfl

theorem intOperand_construct (n : Nat) (es : List Expr) :
    intOperand env (.construct (.ofComponents .int n) es) =
      .construct (.ofComponents .int n) es := by
  rcases intOperand_cases env (.construct (.ofComponents .int n) es) with
    h | ⟨type, _, htype, hfloat, -⟩
  · exact h
  · rw [Env.typeOf_construct_ofComponents] at htype
    cases htype
    simp [ShaderType.isFloatBased, component_ofComponents] at hfloat

theorem intOperand_intOperand (env : Env) (e : Expr) :
    intOperand env (intOperand env e) = intOperand env e := by
  rcases intOperand_cases env e with h | ⟨type, n, -, -, h⟩
  · rw [h, h]
  · rw [h, intOperand_construct]

theorem shiftAmount_int (env : Env) (text : String) :
    shiftAmount env (.int text) =
      if text.toList.getLast? = some 'u' ∨ text.toList.getLast? = some 'U' then .int text
      else .int (text ++ "u") := by
  unfold shiftAmount
  dsimp only
  cases text.toList.getLast? with
  | none | some => simp

theorem shiftAmount_cases (env : Env) (e : Expr) :
    shiftAmount env e = e ∨ (∃ text, e = .int text ∧ shiftAmount env e = .int (text ++ "u")) ∨
      ∃ n, (env.typeOf e).bind ShaderType.component ≠ some .uint ∧
        shiftAmount env e = .construct (.ofComponents .uint n) [e] := by
  have hother : (∀ text, e ≠ .int text) →
      shiftAmount env e = (if (env.typeOf e).bind ShaderType.component == some .uint then e
        else .construct (.ofComponents .uint (((env.typeOf e).bind ShaderType.components).getD 1))
          [e]) := by
    intro hne
    unfold shiftAmount
    split
    · exact absurd rfl (hne _)
    · rfl
  by_cases hint : ∃ text, e = .int text
  · obtain ⟨text, rfl⟩ := hint
    rw [shiftAmount_int]
    split
    · exact .inl rfl
    · exact .inr (.inl ⟨text, rfl, rfl⟩)
  · rw [hother fun text h => hint ⟨text, h⟩]
    by_cases huint : ((env.typeOf e).bind ShaderType.component == some .uint) = true
    · exact .inl (if_pos huint)
    · refine .inr (.inr ⟨_, fun h => huint (beq_iff_eq.mpr h), if_neg huint⟩)

theorem shiftAmount_construct (n : Nat) (es : List Expr) :
    shiftAmount env (.construct (.ofComponents .uint n) es) =
      .construct (.ofComponents .uint n) es := by
  rcases shiftAmount_cases env (.construct (.ofComponents .uint n) es) with
    h | ⟨text, h, -⟩ | ⟨_, hne, -⟩
  · exact h
  · cases h
  · rw [Env.typeOf_construct_ofComponents, Option.bind_some, component_ofComponents] at hne
    exact absurd rfl hne

theorem shiftAmount_shiftAmount (env : Env) (e : Expr) :
    shiftAmount env (shiftAmount env e) = shiftAmount env e := by
  rcases shiftAmount_cases env e with h | ⟨text, -, h⟩ | ⟨n, -, h⟩
  · rw [h, h]
  · have hlast : (text ++ "u").toList.getLast? = some 'u' := by simp
    rw [h, shiftAmount_int, if_pos (.inl hlast)]
  · rw [h, shiftAmount_construct]

end Operands

end ShaderEffect.Lowering
