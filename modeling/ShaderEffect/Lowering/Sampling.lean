import ShaderEffect.Lowering.Basic
import ShaderEffect.Lowering.Walk

/-!
# Reading images

The functions that read an image become reads of the texture and the sampler that the layout binds
for it. A read always names its level of detail, so that it may stand in any control flow. Images
have their origin at the bottom left, textures at the top left.
-/

namespace ShaderEffect.Lowering

/-- How a function reads an image: at a normalised coordinate, at a pixel, at the current fragment,
its size, at a coordinate and level, or a single texel. -/
inductive Access where
  | normalised
  | pixel
  | this
  | size
  | level
  | texel
  deriving Repr, DecidableEq

namespace Access

def ofName : String → Option Access
  | "IMG_NORM_PIXEL" | "texture2D" | "texture" => some normalised
  | "IMG_PIXEL" | "texture2DRect" => some pixel
  | "IMG_THIS_PIXEL" | "IMG_THIS_NORM_PIXEL" => some this
  | "IMG_SIZE" => some size
  | "textureLod" | "texture2DLod" => some level
  | "texelFetch" => some texel
  | _ => none

end Access

/-- The name under which the layout binds an image or a pass. A declared variable is neither. -/
def Setting.binding? (st : Setting) (env : Env) (name : String) : Option String :=
  if env.isDeclared name then none
  else if (st.layout.texture? name).isSome then some name
  else do
    let index ← st.header.passIndex? name
    let pass ← st.header.passes[index]?
    (pass.names index).head?

def dimensions (binding : String) : Expr :=
  .call "textureDimensions" [.ident (Wgsl.textureVar binding)]

def imageSize (binding : String) : Expr :=
  .construct (.vec 2) [dimensions binding]

def sample (flip : Bool) (binding : String) (uv level : Expr) : Expr :=
  .call "textureSampleLevel"
    [.ident (Wgsl.textureVar binding), .ident (Wgsl.samplerVar binding),
      if flip then .call Wgsl.flipY [uv] else uv, level]

def fetch (env : Env) (flip : Bool) (binding : String) (texel level : Expr) : Expr :=
  let texel := if env.typeOf texel == some (.vector .int 2) then texel
    else .construct (.vector .int 2) [texel]
  .call "textureLoad"
    [.ident (Wgsl.textureVar binding),
      if flip then .call Wgsl.flipTexel [texel, dimensions binding] else texel, level]

def Access.read (access : Access) (env : Env) (flip : Bool) (binding : String)
    (rest : List Expr) : Option Expr :=
  match access, rest with
  | .this, _ => some (sample flip binding (.ident Wgsl.fragNormCoord) (.float "0.0"))
  | .size, _ => some (imageSize binding)
  | .normalised, uv :: _ => some (sample flip binding uv (.float "0.0"))
  | .pixel, position :: _ =>
    some (sample flip binding (.binary .div position (imageSize binding)) (.float "0.0"))
  | .level, uv :: more => some (sample flip binding uv (more.headD (.float "0.0")))
  | .texel, position :: more => some (fetch env flip binding position (more.headD (.int "0")))
  | _, [] => none

def lowerAccess (st : Setting) (env : Env) (access : Access) (name : String)
    (args : List Expr) : LowerM Expr := do
  match args with
  | .ident target :: rest =>
    match st.binding? env target with
    | none =>
      note (.imageUnknown name target)
      pure (.call name args)
    | some binding =>
      reference binding
      if 2 < rest.length then note (.argumentsDropped name)
      match access.read env st.options.flipTextures binding rest with
      | some e => pure e
      | none =>
        note (.coordinateMissing name)
        pure (.call name args)
  | _ =>
    note (.imageNameMissing name)
    pure (.call name args)

def lowerRead (st : Setting) (env : Env) : Expr → LowerM Expr
  | .call name args =>
    if env.isUserFunction name then pure (.call name args)
    else
      match Access.ofName name with
      | some access => lowerAccess st env access name args
      | none => pure (.call name args)
  | e => pure e

def lowerSampling (st : Setting) (p : Program) : LowerM Program :=
  let walker : Walker State := { expr := lowerRead st }
  walker.walk (st.envFor p) p

end ShaderEffect.Lowering
