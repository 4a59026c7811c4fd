import ShaderEffect.Shader.Expr
import ShaderEffect.Shader.Literal
import ShaderEffect.Shader.Parser.Basic

/-!
# Reading expressions

Recursive descent over the grammar of expressions, from the comma down to single tokens. Operators
of one strength associate to the left, assignments and conditionals to the right.
-/

namespace ShaderEffect.Parser

def peekBinOp : Parser (Option BinOp) :=
  fun s =>
    .ok (s.rest.head?.bind fun t => if t.kind == .punct then BinOp.ofSymbol t.text else none, s)

def peekAssignment : Parser (Option (Option BinOp)) :=
  fun s =>
    .ok (s.rest.head?.bind fun t =>
      if t.kind == .punct then BinOp.assignments.lookup t.text else none, s)

def unaryOf (t : PlacedToken) : Option UnaryOp :=
  if t.kind == .punct then
    match t.text with
    | "-" => some .neg
    | "+" => some .plus
    | "!" => some .not
    | "~" => some .bitNot
    | "++" => some .preInc
    | "--" => some .preDec
    | _ => none
  else
    none

def skipVoid : Parser Unit :=
  fun s =>
    match s.rest with
    | t :: u :: ts =>
      if t.isIdent "void" && u.isPunct ")" then .ok ((), { s with rest := u :: ts }) else .ok ((), s)
    | _ => .ok ((), s)

mutual

def expression : Nat → Parser Expr
  | 0 => fail .budgetSpent
  | n + 1 => do
    let first ← assignment n
    if ← atPunct "," then
      let others ← commaTail n
      return .comma (first :: others)
    else
      return first

def commaTail : Nat → Parser (List Expr)
  | 0 => fail .budgetSpent
  | n + 1 => do
    if ← eatPunct "," then
      let e ← assignment n
      let others ← commaTail n
      return e :: others
    else
      return []

def assignment : Nat → Parser Expr
  | 0 => fail .budgetSpent
  | n + 1 => do
    let lhs ← conditional n
    match ← peekAssignment with
    | some op =>
      skip
      let rhs ← assignment n
      return .assign op lhs rhs
    | none => return lhs

def conditional : Nat → Parser Expr
  | 0 => fail .budgetSpent
  | n + 1 => do
    let cond ← binary n 1
    if ← eatPunct "?" then
      let whenTrue ← expression n
      expectPunct ":"
      let whenFalse ← assignment n
      return .conditional cond whenTrue whenFalse
    else
      return cond

/-- Operands joined by operators at least as strong as `strength`. -/
def binary : Nat → Nat → Parser Expr
  | 0, _ => fail .budgetSpent
  | n + 1, strength => do
    let lhs ← unary n
    binaryTail n strength lhs

def binaryTail : Nat → Nat → Expr → Parser Expr
  | 0, _, _ => fail .budgetSpent
  | n + 1, strength, lhs => do
    match ← peekBinOp with
    | some op =>
      if strength ≤ op.precedence then
        skip
        let rhs ← binary n (op.precedence + 1)
        binaryTail n strength (.binary op lhs rhs)
      else
        return lhs
    | none => return lhs

def unary : Nat → Parser Expr
  | 0 => fail .budgetSpent
  | n + 1 => do
    match (← peek).bind unaryOf with
    | some op =>
      skip
      let operand ← unary n
      return .unary op operand
    | none =>
      let e ← primary n
      postfixTail n e

/-- The elements, members and steps after an operand. A call of `length` on a member is kept as the
call of a helper. -/
def postfixTail : Nat → Expr → Parser Expr
  | 0, _ => fail .budgetSpent
  | n + 1, e => do
    if ← eatPunct "[" then
      let position ← expression n
      expectPunct "]"
      postfixTail n (.index e position)
    else if ← eatPunct "." then
      let name ← expectIdent
      if name == "length" && (← atPunct "(") then
        skipParens
        postfixTail n (.call "isf_array_length" [e])
      else
        postfixTail n (.field e name)
    else if ← eatPunct "++" then
      postfixTail n (.unary .postInc e)
    else if ← eatPunct "--" then
      postfixTail n (.unary .postDec e)
    else
      return e

def primary : Nat → Parser Expr
  | 0 => fail .budgetSpent
  | n + 1 => do
    match ← peek with
    | none => fail .expectedExpression
    | some t =>
      match t.kind with
      | .int =>
        skip
        return .int (Literal.int t.text)
      | .float =>
        skip
        return .float (Literal.float t.text)
      | .ident =>
        skip
        if t.text == "true" then
          return .bool true
        else if t.text == "false" then
          return .bool false
        else
          match ← typeNamed t.text with
          | some type =>
            let type ← arraySuffix n type
            let args ← callArgs n
            return .construct (type.sized args.length) args
          | none =>
            if ← atPunct "(" then
              let args ← callArgs n
              return .call t.text args
            else
              return .ident t.text
      | .punct =>
        if t.text == "(" then
          skip
          let inner ← expression n
          expectPunct ")"
          return inner
        else
          fail (.unexpectedToken t.text)
      | _ => fail (.unexpectedToken t.text)

def callArgs : Nat → Parser (List Expr)
  | 0 => fail .budgetSpent
  | n + 1 => do
    expectPunct "("
    skipVoid
    if ← eatPunct ")" then
      return []
    else
      argTail n

def argTail : Nat → Parser (List Expr)
  | 0 => fail .budgetSpent
  | n + 1 => do
    let e ← assignment n
    if ← eatPunct ")" then
      return [e]
    else
      expectPunct ","
      let others ← argTail n
      return e :: others

/-- The type, or the array of it if a length in brackets follows. -/
def arraySuffix : Nat → ShaderType → Parser ShaderType
  | 0, _ => fail .budgetSpent
  | n + 1, type => do
    if ← eatPunct "[" then
      if ← eatPunct "]" then
        return .array type .unsized
      else
        match ← conditional n with
        | .int text =>
          match Literal.arrayLength text with
          | some length =>
            expectPunct "]"
            return .array type (.fixed length)
          | none => fail (.arrayLengthValue text)
        | .ident name =>
          expectPunct "]"
          return .array type (.named name)
        | _ => fail .arrayLengthForm
    else
      return type

end

end ShaderEffect.Parser
