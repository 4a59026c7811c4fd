import ShaderEffect.Shader.Operator
import ShaderEffect.Shader.Type

/-!
# Expressions

The expression tree of a shader body. Literals keep their text. `deref` and `addrOf` have no
spelling in the source language: they arise when parameters that are written back to the caller
become pointers.

`subexprs` lists an expression with all that stands inside it, `mapNodes` changes every node from
the leaves up, and `mapChildren` changes the operands of one node alone.
-/

namespace ShaderEffect

/-- Expressions. A compound assignment carries its operator. -/
inductive Expr where
  | int (text : String)
  | float (text : String)
  | bool (value : Bool)
  | ident (name : String)
  | unary (op : UnaryOp) (operand : Expr)
  | binary (op : BinOp) (lhs rhs : Expr)
  | assign (op : Option BinOp) (lhs rhs : Expr)
  | conditional (cond whenTrue whenFalse : Expr)
  | call (name : String) (args : List Expr)
  | construct (type : ShaderType) (args : List Expr)
  | field (base : Expr) (name : String)
  | index (base position : Expr)
  | comma (items : List Expr)
  | deref (pointer : Expr)
  | addrOf (target : Expr)
  deriving Repr, Inhabited

namespace Expr

def name? : Expr → Option String
  | .ident name => some name
  | _ => none

def root? : Expr → Option String
  | .ident name => some name
  | .field base _ => base.root?
  | .index base _ => base.root?
  | .deref pointer => pointer.root?
  | _ => none

def isLiteral : Expr → Bool
  | .int _ | .float _ | .bool _ => true
  | _ => false

/-- Cheap and free of side effects, so that it may be written twice. -/
def isSimple : Expr → Bool
  | .int _ | .float _ | .bool _ | .ident _ => true
  | .field base _ => base.isSimple
  | .deref pointer => pointer.isSimple
  | .index base position => base.isSimple && position.isLiteral
  | .unary .neg operand => operand.isLiteral
  | _ => false

def children : Expr → List Expr
  | .int _ | .float _ | .bool _ | .ident _ => []
  | .unary _ operand => [operand]
  | .binary _ lhs rhs => [lhs, rhs]
  | .assign _ lhs rhs => [lhs, rhs]
  | .conditional cond whenTrue whenFalse => [cond, whenTrue, whenFalse]
  | .call _ args => args
  | .construct _ args => args
  | .field base _ => [base]
  | .index base position => [base, position]
  | .comma items => items
  | .deref pointer => [pointer]
  | .addrOf target => [target]

def mapChildren (f : Expr → Expr) : Expr → Expr
  | .unary op operand => .unary op (f operand)
  | .binary op lhs rhs => .binary op (f lhs) (f rhs)
  | .assign op lhs rhs => .assign op (f lhs) (f rhs)
  | .conditional cond whenTrue whenFalse => .conditional (f cond) (f whenTrue) (f whenFalse)
  | .call name args => .call name (args.map f)
  | .construct type args => .construct type (args.map f)
  | .field base name => .field (f base) name
  | .index base position => .index (f base) (f position)
  | .comma items => .comma (items.map f)
  | .deref pointer => .deref (f pointer)
  | .addrOf target => .addrOf (f target)
  | e => e

mutual

def subexprs : Expr → List Expr
  | .unary op operand => .unary op operand :: operand.subexprs
  | .binary op lhs rhs => .binary op lhs rhs :: (lhs.subexprs ++ rhs.subexprs)
  | .assign op lhs rhs => .assign op lhs rhs :: (lhs.subexprs ++ rhs.subexprs)
  | .conditional c t f =>
    .conditional c t f :: (c.subexprs ++ (t.subexprs ++ f.subexprs))
  | .call name args => .call name args :: subexprsAll args
  | .construct type args => .construct type args :: subexprsAll args
  | .field base name => .field base name :: base.subexprs
  | .index base position => .index base position :: (base.subexprs ++ position.subexprs)
  | .comma items => .comma items :: subexprsAll items
  | .deref pointer => .deref pointer :: pointer.subexprs
  | .addrOf target => .addrOf target :: target.subexprs
  | .int text => [.int text]
  | .float text => [.float text]
  | .bool value => [.bool value]
  | .ident name => [.ident name]

def subexprsAll : List Expr → List Expr
  | [] => []
  | e :: es => e.subexprs ++ subexprsAll es

end

mutual

/-- Changes every node, after its operands. -/
def mapNodes (f : Expr → Expr) : Expr → Expr
  | .unary op operand => f (.unary op (mapNodes f operand))
  | .binary op lhs rhs => f (.binary op (mapNodes f lhs) (mapNodes f rhs))
  | .assign op lhs rhs => f (.assign op (mapNodes f lhs) (mapNodes f rhs))
  | .conditional cond whenTrue whenFalse =>
    f (.conditional (mapNodes f cond) (mapNodes f whenTrue) (mapNodes f whenFalse))
  | .call name args => f (.call name (mapNodesAll f args))
  | .construct type args => f (.construct type (mapNodesAll f args))
  | .field base name => f (.field (mapNodes f base) name)
  | .index base position => f (.index (mapNodes f base) (mapNodes f position))
  | .comma items => f (.comma (mapNodesAll f items))
  | .deref pointer => f (.deref (mapNodes f pointer))
  | .addrOf target => f (.addrOf (mapNodes f target))
  | .int text => f (.int text)
  | .float text => f (.float text)
  | .bool value => f (.bool value)
  | .ident name => f (.ident name)

def mapNodesAll (f : Expr → Expr) : List Expr → List Expr
  | [] => []
  | e :: es => mapNodes f e :: mapNodesAll f es

end

end Expr

end ShaderEffect
