import ShaderEffect.Lowering.Basic
import ShaderEffect.Lowering.Walk

/-!
# Names of the host

What the host provides becomes what the generated module declares: inputs and host fields are
members of the uniform structure, and the fragment's coordinates and colour are variables of the
module.
-/

namespace ShaderEffect.Lowering

def fragmentVar? (outputAlias : Option String) (name : String) : Option String :=
  match name with
  | "isf_FragNormCoord" => some Wgsl.fragNormCoord
  | "gl_FragCoord" => some Wgsl.fragCoord
  | "gl_FragColor" => some Wgsl.fragColor
  | name => if outputAlias == some name then some Wgsl.fragColor else none

/-- The body may read the field by its name. The fields `opacity` and `speed` are for the host
alone, unless the header declares inputs of these names. -/
def isVisible (f : UniformField) (name : String) : Bool :=
  match f.source with
  | .input _ => true
  | .builtin => name != "opacity" && name != "speed"

def hostExpr? (st : Setting) (outputAlias : Option String) (name : String) : Option Expr :=
  match fragmentVar? outputAlias name with
  | some var => some (.ident var)
  | none =>
    match st.layout.field? name with
    | some f =>
      if isVisible f name then some (.field (.ident Wgsl.uniformVar) f.member) else none
    | none => none

def isZero : Expr → Bool
  | .int text => text == "0"
  | _ => false

def bindNode (st : Setting) (env : Env) : Expr → LowerM Expr
  | .ident name => do
    if env.isDeclared name then
      return .ident name
    let s ← get
    return (hostExpr? st s.outputAlias name).getD (.ident name)
  | .index base position => do
    if base.name? == some "gl_FragData" then
      if !isZero position then note .secondAttachment
      return .ident Wgsl.fragColor
    else
      return .index base position
  | e => pure e

def bindHostNames (st : Setting) (p : Program) : LowerM Program :=
  let walker : Walker State := { expr := bindNode st }
  walker.walk (st.envFor p) p

end ShaderEffect.Lowering
