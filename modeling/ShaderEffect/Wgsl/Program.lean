import ShaderEffect.Shader.Program
import ShaderEffect.Wgsl.Name
import ShaderEffect.Wgsl.Stmt

/-!
# Programs as text

The items of a program in order. An empty line stands between two items unless both are global
variables.
-/

namespace ShaderEffect

namespace Param

def wgsl (p : Param) : String :=
  if p.isByRef then p.name ++ ": ptr<function, " ++ p.type.wgsl ++ ">"
  else p.name ++ ": " ++ p.type.wgsl

end Param

namespace Function

def entryHead (name : String) : String :=
  "fn " ++ name ++ "(@builtin(position) " ++ Wgsl.positionInput ++ ": vec4<f32>, @location(0) " ++
    Wgsl.uvInput ++ ": vec2<f32>) -> @location(0) vec4<f32> "

def head (f : Function) : String :=
  "fn " ++ f.name ++ "(" ++ String.intercalate ", " (f.params.map Param.wgsl) ++ ")" ++
    (if f.returns == .void then "" else " -> " ++ f.returns.wgsl) ++ " "

def wgslLines (functions : List String) (f : Function) : List String :=
  let inner := Stmt.wgslLinesAll functions f.body
  if f.isEntry then "@fragment" :: Wgsl.braced (entryHead f.name) inner
  else Wgsl.braced f.head inner

end Function

namespace StructDef

def wgslLines (d : StructDef) : List String :=
  Wgsl.braced ("struct " ++ d.name ++ " ")
    (d.members.map fun m => m.name ++ ": " ++ m.type.wgsl ++ ",")

end StructDef

namespace Item

def wgslLines (functions : List String) : Item → List String
  | .struct d => d.wgslLines
  | .globals decls => decls.map VarDecl.wgslGlobal
  | .function f => f.wgslLines functions

def isGlobals : Item → Bool
  | .globals _ => true
  | _ => false

end Item

namespace Program

def wgslLinesAfter (functions : List String) (previous : Option Item) : List Item → List String
  | [] => []
  | i :: is =>
    let gap := previous.any fun p => !(p.isGlobals && i.isGlobals)
    (if gap then [""] else []) ++ i.wgslLines functions ++ wgslLinesAfter functions (some i) is

def wgsl (p : Program) : String :=
  String.join ((wgslLinesAfter p.functionNames none p.items).map (· ++ "\n"))

end Program

end ShaderEffect
