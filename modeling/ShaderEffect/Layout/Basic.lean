import ShaderEffect.Header.Basic
import ShaderEffect.Shader.Type

/-!
# Layout of the uniform buffer and of the bindings

A layout places each field of the uniform buffer at a byte offset and gives every image a texture
and a sampler number.
-/

namespace ShaderEffect

inductive UniformType where
  | f32
  | i32
  | vec2
  | vec3
  | vec4
  deriving Repr, DecidableEq

/-- Where a uniform field comes from: the host, or an input of the effect. -/
inductive FieldSource where
  | builtin
  | input (kind : InputKind)
  deriving Repr, DecidableEq

/-- A field of the uniform buffer. Its member name differs from its name when that is reserved;
`padded` tells that a gap stands before it. -/
structure UniformField where
  name : String
  member : String
  source : FieldSource
  type : UniformType
  offset : Nat
  size : Nat
  padded : Bool
  deriving Repr, DecidableEq

structure TextureBinding where
  name : String
  kind : InputKind
  texture : Nat
  sampler : Nat
  deriving Repr, DecidableEq

structure PassBinding where
  name : String
  passIndex : Nat
  persistent : Bool
  isFloat : Bool
  texture : Nat
  sampler : Nat
  deriving Repr, DecidableEq

/-- The uniform buffer and the bindings of an effect. The size is in bytes. -/
structure Layout where
  fields : List UniformField := []
  size : Nat := 0
  textures : List TextureBinding := []
  passes : List PassBinding := []
  deriving Repr, DecidableEq

namespace UniformType

def wgsl : UniformType → String
  | .f32 => "f32"
  | .i32 => "i32"
  | .vec2 => "vec2<f32>"
  | .vec3 => "vec3<f32>"
  | .vec4 => "vec4<f32>"

def size : UniformType → Nat
  | .f32 | .i32 => 4
  | .vec2 => 8
  | .vec3 => 12
  | .vec4 => 16

def align : UniformType → Nat
  | .f32 | .i32 => 4
  | .vec2 => 8
  | .vec3 | .vec4 => 16

def shaderType : UniformType → ShaderType
  | .f32 => .float
  | .i32 => .int
  | .vec2 => .vec 2
  | .vec3 => .vec 3
  | .vec4 => .vec 4

/-- The field type of an input. Images have none; an unknown kind is laid out as a float. -/
def ofInput : InputKind → Option UniformType
  | .float | .unknown _ => some .f32
  | .long | .bool | .event => some .i32
  | .point2D => some .vec2
  | .color => some .vec4
  | .image | .audio | .audioFft => none

end UniformType

namespace Layout

def builtinFields : List (String × UniformType) :=
  [("TIME", .f32), ("TIMEDELTA", .f32), ("RENDERSIZE", .vec2), ("PASSINDEX", .i32),
    ("FRAMEINDEX", .i32), ("opacity", .f32), ("speed", .f32), ("DATE", .vec4)]

def isBuiltin (name : String) : Bool :=
  builtinFields.any fun f => f.1 == name

def field? (l : Layout) (name : String) : Option UniformField :=
  l.fields.find? fun f => f.name == name

def texture? (l : Layout) (name : String) : Option TextureBinding :=
  l.textures.find? fun t => t.name == name

def pass? (l : Layout) (name : String) : Option PassBinding :=
  l.passes.find? fun p => p.name == name

end Layout

end ShaderEffect
