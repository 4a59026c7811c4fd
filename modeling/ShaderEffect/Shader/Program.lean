import ShaderEffect.Shader.Stmt

/-!
# Programs

A shader body as a list of structures, global variables and functions.
-/

namespace ShaderEffect

/-- How an argument reaches a parameter. A `pointer` parameter was `out` or `inout` and is passed by
address now. -/
inductive Passing where
  | value
  | out
  | inOut
  | pointer
  deriving Repr, DecidableEq

structure Param where
  name : String
  type : ShaderType
  passing : Passing
  deriving Repr

/-- A function; `isEntry` marks the entry point of the fragment stage. -/
structure Function where
  name : String
  returns : ShaderType
  params : List Param
  body : List Stmt
  isEntry : Bool
  deriving Repr

structure Member where
  name : String
  type : ShaderType
  deriving Repr

structure StructDef where
  name : String
  members : List Member
  deriving Repr

inductive Item where
  | struct (d : StructDef)
  | globals (decls : List VarDecl)
  | function (f : Function)
  deriving Repr

structure Program where
  items : List Item
  deriving Repr

namespace Param

def isByRef (p : Param) : Bool :=
  p.passing != .value

end Param

namespace Function

def paramTypes (f : Function) : List ShaderType :=
  f.params.map Param.type

end Function

namespace Item

def function? : Item → Option Function
  | .function f => some f
  | _ => none

def mapFunction (g : Function → Function) : Item → Item
  | .function f => .function (g f)
  | i => i

def subexprs : Item → List Expr
  | .struct _ => []
  | .globals decls => (decls.filterMap VarDecl.init).flatMap Expr.subexprs
  | .function f => f.body.flatMap Stmt.subexprs

def substmts : Item → List Stmt
  | .function f => Stmt.substmtsAll f.body
  | _ => []

end Item

namespace Program

def functions (p : Program) : List Function :=
  p.items.filterMap Item.function?

def functionNames (p : Program) : List String :=
  p.functions.map Function.name

end Program

end ShaderEffect
