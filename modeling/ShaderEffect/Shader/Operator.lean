/-!
# Operators

The operators of expressions, with their spelling and their binding strength in the source grammar.
-/

namespace ShaderEffect

/-- The operators between two operands. `xor` is the logical one, written `^^`. -/
inductive BinOp where
  | add
  | sub
  | mul
  | div
  | rem
  | shl
  | shr
  | lt
  | gt
  | le
  | ge
  | eq
  | ne
  | bitAnd
  | bitOr
  | bitXor
  | and
  | or
  | xor
  deriving Repr, DecidableEq

/-- The operators on one operand; increments and decrements stand before or after it. -/
inductive UnaryOp where
  | neg
  | plus
  | not
  | bitNot
  | preInc
  | preDec
  | postInc
  | postDec
  deriving Repr, DecidableEq

namespace BinOp

def symbol : BinOp → String
  | .add => "+"
  | .sub => "-"
  | .mul => "*"
  | .div => "/"
  | .rem => "%"
  | .shl => "<<"
  | .shr => ">>"
  | .lt => "<"
  | .gt => ">"
  | .le => "<="
  | .ge => ">="
  | .eq => "=="
  | .ne => "!="
  | .bitAnd => "&"
  | .bitOr => "|"
  | .bitXor => "^"
  | .and => "&&"
  | .or => "||"
  | .xor => "^^"

def all : List BinOp :=
  [.add, .sub, .mul, .div, .rem, .shl, .shr, .lt, .gt, .le, .ge, .eq, .ne, .bitAnd, .bitOr,
    .bitXor, .and, .or, .xor]

def ofSymbol (s : String) : Option BinOp :=
  all.find? fun op => op.symbol == s

def precedence : BinOp → Nat
  | .or => 1
  | .xor => 2
  | .and => 3
  | .bitOr => 4
  | .bitXor => 5
  | .bitAnd => 6
  | .eq | .ne => 7
  | .lt | .gt | .le | .ge => 8
  | .shl | .shr => 9
  | .add | .sub => 10
  | .mul | .div | .rem => 11

def isArithmetic : BinOp → Bool
  | .add | .sub | .mul | .div | .rem => true
  | _ => false

def isComparison : BinOp → Bool
  | .lt | .gt | .le | .ge | .eq | .ne => true
  | _ => false

def isBitwise : BinOp → Bool
  | .bitAnd | .bitOr | .bitXor => true
  | _ => false

def isShift : BinOp → Bool
  | .shl | .shr => true
  | _ => false

def isLogical : BinOp → Bool
  | .and | .or | .xor => true
  | _ => false

/-- The operators of compound assignments, each with its spelling; plain assignment has none. -/
def assignments : List (String × Option BinOp) :=
  [("=", none), ("+=", some .add), ("-=", some .sub), ("*=", some .mul), ("/=", some .div),
    ("%=", some .rem), ("<<=", some .shl), (">>=", some .shr), ("&=", some .bitAnd),
    ("|=", some .bitOr), ("^=", some .bitXor)]

end BinOp

namespace UnaryOp

def isStep : UnaryOp → Bool
  | .preInc | .preDec | .postInc | .postDec => true
  | _ => false

end UnaryOp

end ShaderEffect
