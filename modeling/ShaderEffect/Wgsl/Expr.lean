import ShaderEffect.Shader.Expr

/-!
# Expressions as text

The spelling of expressions in the target language. That language has no total order of its
operators: the operands of bitwise operators and shifts are unary, logical operators do not mix with
bitwise ones, and comparisons do not chain. Parentheses go where its grammar or the grouping of the
tree asks for them.
-/

namespace ShaderEffect

inductive Side where
  | left
  | right
  deriving Repr, DecidableEq

namespace Expr

/-- Literals, names, calls and chains of members and elements, which never need parentheses. -/
def isPrimary : Expr → Bool
  | .int _ | .float _ | .bool _ | .ident _ => true
  | .call _ _ | .construct _ _ | .field _ _ | .index _ _ | .deref _ | .conditional _ _ _ => true
  | _ => false

end Expr

namespace BinOp

/-- Whether an operand with operator `child` needs parentheses under `parent`. -/
def separates (parent child : BinOp) (side : Side) : Bool :=
  if parent.isBitwise then !(child == parent && side == .left)
  else if parent.isShift then true
  else if parent.isLogical then
    if child.isLogical then !(child == parent && side == .left) else child.isBitwise
  else if parent.isComparison then child.isComparison || child.isLogical || child.isBitwise
  else if !child.isArithmetic then true
  else
    match side with
    | .left => decide (child.precedence < parent.precedence)
    | .right => decide (child.precedence ≤ parent.precedence)

def parenthesises (parent : BinOp) (operand : Expr) (side : Side) : Bool :=
  match operand with
  | .binary child _ _ => parent.separates child side
  | .assign _ _ _ | .comma _ => true
  | _ => false

/-- The spelling in the target language, where unequal truth values take the place of a logical
exclusive or. -/
def wgsl (op : BinOp) : String :=
  if op == .xor then "!=" else op.symbol

end BinOp

namespace Expr

def wrap (parens : Bool) (text : String) : String :=
  if parens then "(" ++ text ++ ")" else text

def assignSign : Option BinOp → String
  | some op => " " ++ op.symbol ++ "= "
  | none => " = "

/-- The sign before the operand of a unary operator. A plus is not written. -/
def signBefore : UnaryOp → String
  | .neg => "-"
  | .not => "!"
  | .bitNot => "~"
  | _ => ""

/-- The sign after the operand of a unary operator; steps always stand there. -/
def signAfter : UnaryOp → String
  | .preInc | .postInc => "++"
  | .preDec | .postDec => "--"
  | _ => ""

mutual

def wgsl : Expr → String
  | .int text => text
  | .float text => text
  | .bool value => if value then "true" else "false"
  | .ident name => name
  | .unary op operand => signBefore op ++ wrap (!operand.isPrimary) operand.wgsl ++ signAfter op
  | .binary op lhs rhs =>
    wrap (op.parenthesises lhs .left) lhs.wgsl ++ " " ++ op.wgsl ++ " " ++
      wrap (op.parenthesises rhs .right) rhs.wgsl
  | .assign op lhs rhs => lhs.wgsl ++ assignSign op ++ rhs.wgsl
  | .conditional cond whenTrue whenFalse =>
    "select(" ++ whenFalse.wgsl ++ ", " ++ whenTrue.wgsl ++ ", " ++ cond.wgsl ++ ")"
  | .call name args => name ++ "(" ++ wgslList args ++ ")"
  | .construct type args => type.wgsl ++ "(" ++ wgslList args ++ ")"
  | .field base name => wrap (!base.isPrimary) base.wgsl ++ "." ++ name
  | .index base position => wrap (!base.isPrimary) base.wgsl ++ "[" ++ position.wgsl ++ "]"
  | .comma items => "(" ++ wgslList items ++ ")"
  | .deref pointer => "(*" ++ pointer.wgsl ++ ")"
  | .addrOf target => "&" ++ wrap (!target.isPrimary) target.wgsl

def wgslList : List Expr → String
  | [] => ""
  | [e] => e.wgsl
  | e :: es => e.wgsl ++ ", " ++ wgslList es

end

end Expr

end ShaderEffect
