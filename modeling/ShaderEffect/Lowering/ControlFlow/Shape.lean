import ShaderEffect.Lowering.Basic

/-!
# Shapes of statements

The target language wants blocks as bodies, has no `do` loop and no comma, and takes only a
declaration, an assignment, a step or a call in the header of a `for` loop. The branches of its
`switch` do not run into each other, and one of them is the default.
-/

namespace ShaderEffect.Lowering

def statements : Stmt → List Stmt
  | .block body => body
  | .empty => []
  | s => [s]

def asBlock (s : Stmt) : Stmt :=
  .block (statements s)

def negate : Expr → Expr
  | .unary .not e => e
  | .binary .lt lhs rhs => .binary .ge lhs rhs
  | e => .unary .not e

/-- An expression that may stand in the header of a `for` loop. An assignment to several lanes may
not, since it becomes statements later. -/
def isUpdate : Expr → Bool
  | .assign _ (.field _ name) _ => !(decide (1 < name.toList.length) && isSwizzle name)
  | .assign .. => true
  | .call .. => true
  | .unary op _ => op.isStep
  | _ => false

def isStart : Stmt → Bool
  | .decl _ => true
  | .expr e => isUpdate e
  | _ => false

def stepStmts : Expr → List Stmt
  | .comma items => items.map .expr
  | e => [.expr e]

def openLoop (start : Option Stmt) (cond step : Option Expr) (body : Stmt) : Stmt :=
  let test := cond.toList.map fun c => Stmt.ifElse (negate c) (.block [.breakOut]) none
  .block ((start.elim [] statements) ++
    [.loop (test ++ statements body) (step.elim [] stepStmts) none])

def shapeFor (start : Option Stmt) (cond step : Option Expr) (body : Stmt) : Stmt :=
  if start.all isStart && step.all isUpdate then .forLoop start cond step (asBlock body)
  else openLoop start cond step body

def caseBody : List Stmt → List Stmt
  | [.block body] => body
  | body => body

def endsInJump (body : List Stmt) : Bool :=
  body.getLast?.any Stmt.isJump

/-- What runs from the first of the given branches on, up to the first one that ends in a jump, and
how many branches further on that one is. -/
def runThrough : List (List Stmt) → List Stmt × Option Nat
  | [] => ([], none)
  | body :: bodies =>
    if endsInJump body then (body, some 0)
    else
      let (rest, stop) := runThrough bodies
      (body ++ rest, stop.map (· + 1))

def dropBreak (body : List Stmt) : List Stmt :=
  match body.getLast? with
  | some .breakOut => body.dropLast
  | _ => body

def separateCases : List Case → LowerM (List Case)
  | [] => pure []
  | c :: cs => do
    let (body, stop) := runThrough ((c :: cs).map fun c => caseBody c.body)
    if stop.any (0 < ·) then note .fallthrough
    let cases ← separateCases cs
    pure (.mk c.labels (dropBreak body) :: cases)

def addDefault (cases : List Case) : List Case :=
  if cases.any fun c => c.labels.any CaseLabel.isDefault then cases
  else cases ++ [.mk [.default] []]

def shape : Stmt → LowerM (List Stmt)
  | .expr (.comma items) => pure (items.map .expr)
  | .ifElse cond whenTrue whenFalse =>
    pure [.ifElse cond (asBlock whenTrue) (whenFalse.map fun s =>
      match s with
      | .ifElse .. => s
      | s => asBlock s)]
  | .whileLoop cond body => pure [.whileLoop cond (asBlock body)]
  | .doWhile body cond => pure [.loop (statements body) [] (some (negate cond))]
  | .forLoop start cond step body => pure [shapeFor start cond step body]
  | .switch selector cases => do
    let cases ← separateCases cases
    pure [.switch selector (addDefault cases)]
  | s => pure [s]

end ShaderEffect.Lowering
