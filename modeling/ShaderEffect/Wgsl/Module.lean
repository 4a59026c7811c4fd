import ShaderEffect.Layout.Basic
import ShaderEffect.Wgsl.Name

/-!
# The generated modules

The fragment module consists of the uniform structure, the bindings, variables that stand for the
fragment's coordinates and colour, a fixed library of helpers, and the body. The vertex module is the
same for every effect.
-/

namespace ShaderEffect.Wgsl

def unlines (lines : List String) : String :=
  String.join (lines.map (· ++ "\n"))

def helpers : String :=
  unlines [
    "fn isf_mod_f32(x: f32, y: f32) -> f32 \x7b",
    "    return x - y * floor(x / y);",
    "\x7d",
    "",
    "fn isf_mod_vec2(x: vec2<f32>, y: vec2<f32>) -> vec2<f32> \x7b",
    "    return x - y * floor(x / y);",
    "\x7d",
    "",
    "fn isf_mod_vec3(x: vec3<f32>, y: vec3<f32>) -> vec3<f32> \x7b",
    "    return x - y * floor(x / y);",
    "\x7d",
    "",
    "fn isf_mod_vec4(x: vec4<f32>, y: vec4<f32>) -> vec4<f32> \x7b",
    "    return x - y * floor(x / y);",
    "\x7d",
    "",
    "// ISF images have a bottom-left origin; WGSL textures a top-left one.",
    "fn isf_flip_y(uv: vec2<f32>) -> vec2<f32> \x7b",
    "    return vec2<f32>(uv.x, 1.0 - uv.y);",
    "\x7d",
    "",
    "fn isf_flip_texel(texel: vec2<i32>, size: vec2<u32>) -> vec2<i32> \x7b",
    "    return vec2<i32>(texel.x, i32(size.y) - 1 - texel.y);",
    "\x7d"]

def vertexModule : String :=
  unlines [
    "// Generated by isf-compiler. Full-screen triangle.",
    "",
    "struct IsfVertexOutput \x7b",
    "    @builtin(position) position: vec4<f32>,",
    "    @location(0) uv: vec2<f32>,",
    "\x7d",
    "",
    "@vertex",
    "fn isf_vertex_main(@builtin(vertex_index) vertex_index: u32) -> IsfVertexOutput \x7b",
    "    var positions = array<vec2<f32>, 3>(",
    "        vec2<f32>(-1.0, -3.0),",
    "        vec2<f32>(3.0, 1.0),",
    "        vec2<f32>(-1.0, 1.0),",
    "    );",
    "    let pos = positions[vertex_index];",
    "    var out: IsfVertexOutput;",
    "    out.position = vec4<f32>(pos, 0.0, 1.0);",
    "    out.uv = pos * 0.5 + vec2<f32>(0.5, 0.5);",
    "    return out;",
    "\x7d"]

def uniformLines (fields : List UniformField) : List String :=
  ("struct " ++ uniformStruct ++ " \x7b") ::
    (fields.map fun f =>
      "    " ++ f.member ++ ": " ++ f.type.wgsl ++ ", // offset " ++ toString f.offset) ++
    ["\x7d"]

def bindingLines (name : String) (texture sampler : Nat) : List String :=
  ["@group(1) @binding(" ++ toString texture ++ ") var " ++ textureVar name ++
      ": texture_2d<f32>;",
    "@group(1) @binding(" ++ toString sampler ++ ") var " ++ samplerVar name ++ ": sampler;"]

def allBindingLines (l : Layout) : List String :=
  l.textures.flatMap (fun t => bindingLines t.name t.texture t.sampler) ++
    l.passes.flatMap (fun p => bindingLines p.name p.texture p.sampler)

def preambleLines (l : Layout) : List String :=
  ["// Generated by isf-compiler. Uniform buffer size: " ++ toString l.size ++ " bytes.", ""] ++
    uniformLines l.fields ++
    ["", "@group(0) @binding(0) var<uniform> " ++ uniformVar ++ ": " ++ uniformStruct ++ ";"] ++
    allBindingLines l ++
    ["", "var<private> " ++ fragCoord ++ ": vec4<f32>;",
      "var<private> " ++ fragNormCoord ++ ": vec2<f32>;",
      "var<private> " ++ fragColor ++ ": vec4<f32>;", ""]

def fragmentModule (body : String) (l : Layout) : String :=
  unlines (preambleLines l) ++ helpers ++ "\n" ++ body

end ShaderEffect.Wgsl
