import ShaderEffect.Shader.Operator
import ShaderEffect.Text.Numeral
import ShaderEffect.Text.Search
import ShaderEffect.Token.Basic

/-!
# Conditions of branches

The expressions after `#if`, read with the usual binding strengths and evaluated in signed words of
64 bits. A name that is left after expansion counts as zero. Both operands of every operator are
evaluated; what leaves the range of a word, divides by zero or shifts by a whole word or more has no
value.
-/

namespace ShaderEffect

inductive Condition where
  | literal (value : Int64)
  | name (text : String)
  | unary (op : UnaryOp) (operand : Condition)
  | binary (op : BinOp) (lhs rhs : Condition)
  deriving Repr

namespace Condition

def word? (v : Int) : Option Int64 :=
  if Text.inInt64 v then some (Int64.ofInt v) else none

def ofBool (b : Bool) : Int64 :=
  if b then 1 else 0

def evalUnary : UnaryOp → Int64 → Option Int64
  | .not, a => some (ofBool (a == 0))
  | .neg, a => word? (-a.toInt)
  | .plus, a => some a
  | .bitNot, a => some (~~~a)
  | _, _ => none

def isShiftAmount (b : Int64) : Bool :=
  decide (0 ≤ b.toInt) && decide (b.toInt < 64)

def evalBinary : BinOp → Int64 → Int64 → Option Int64
  | .or, a, b => some (ofBool (a != 0 || b != 0))
  | .and, a, b => some (ofBool (a != 0 && b != 0))
  | .bitOr, a, b => some (a ||| b)
  | .bitXor, a, b => some (a ^^^ b)
  | .bitAnd, a, b => some (a &&& b)
  | .eq, a, b => some (ofBool (a == b))
  | .ne, a, b => some (ofBool (a != b))
  | .lt, a, b => some (ofBool (decide (a < b)))
  | .gt, a, b => some (ofBool (decide (b < a)))
  | .le, a, b => some (ofBool (decide (a ≤ b)))
  | .ge, a, b => some (ofBool (decide (b ≤ a)))
  | .shl, a, b => if isShiftAmount b then some (a <<< b) else none
  | .shr, a, b => if isShiftAmount b then some (a >>> b) else none
  | .add, a, b => word? (a.toInt + b.toInt)
  | .sub, a, b => word? (a.toInt - b.toInt)
  | .mul, a, b => word? (a.toInt * b.toInt)
  | .div, a, b => if b == 0 then none else word? (a.toInt.tdiv b.toInt)
  | .rem, a, b =>
    if b == 0 then none
    else (word? (a.toInt.tdiv b.toInt)).bind fun _ => word? (a.toInt.tmod b.toInt)
  | .xor, _, _ => none

def eval : Condition → Option Int64
  | .literal v => some v
  | .name _ => some 0
  | .unary op operand => operand.eval.bind (evalUnary op)
  | .binary op lhs rhs => lhs.eval.bind fun a => rhs.eval.bind (evalBinary op a)

/-! ## Reading -/

/-- The value of an integer literal: hexadecimal after `0x`, octal after another leading zero. -/
def literalValue (text : String) : Option Int64 :=
  let digits := Text.dropEndWhile (fun c => c == 'u' || c == 'U') text.toList
  let value := match digits with
    | '0' :: 'x' :: cs => Text.readInt64 16 cs
    | '0' :: 'X' :: cs => Text.readInt64 16 cs
    | '0' :: c :: cs => Text.readInt64 8 (c :: cs)
    | cs => Text.readInt64 10 cs
  value.map Int64.ofInt

def unaryOp? : String → Option UnaryOp
  | "!" => some .not
  | "-" => some .neg
  | "+" => some .plus
  | "~" => some .bitNot
  | _ => none

/-- The operator that stands between operands. There is no logical exclusive or. -/
def binOp? (t : Token) : Option BinOp :=
  if t.kind == .punct then (BinOp.ofSymbol t.text).filter (· != .xor) else none

mutual

def readOperand : Nat → List Token → Option (Condition × List Token)
  | 0, _ => none
  | _, [] => none
  | fuel + 1, t :: ts =>
    match t.kind with
    | .int => (literalValue t.text).map fun v => (.literal v, ts)
    | .ident => some (.name t.text, ts)
    | .punct =>
      if t.text == "(" then
        match readFrom fuel 0 ts with
        | some (c, close :: rest) => if close.isPunct ")" then some (c, rest) else none
        | _ => none
      else
        match unaryOp? t.text with
        | some op => (readOperand fuel ts).map fun r => (.unary op r.1, r.2)
        | none => none
    | _ => none

/-- Reads operands with operators of at least the given strength between them. -/
def readFrom : Nat → Nat → List Token → Option (Condition × List Token)
  | 0, _, _ => none
  | fuel + 1, least, ts =>
    match readOperand fuel ts with
    | some (lhs, rest) => readRest fuel least lhs rest
    | none => none

def readRest : Nat → Nat → Condition → List Token → Option (Condition × List Token)
  | 0, _, _, _ => none
  | _, _, lhs, [] => some (lhs, [])
  | fuel + 1, least, lhs, t :: ts =>
    match binOp? t with
    | none => some (lhs, t :: ts)
    | some op =>
      if op.precedence < least then some (lhs, t :: ts)
      else
        match readFrom fuel (op.precedence + 1) ts with
        | some (rhs, rest) => readRest fuel least (.binary op lhs rhs) rest
        | none => none

end

/-- Reads a condition that takes up all tokens. At most two calls go by without a token. -/
def read (ts : List Token) : Option Condition :=
  match readFrom (3 * ts.length + 3) 0 ts with
  | some (c, []) => some c
  | _ => none

def evaluate (ts : List Token) : Option Int64 :=
  (read ts).bind eval

end Condition

end ShaderEffect
