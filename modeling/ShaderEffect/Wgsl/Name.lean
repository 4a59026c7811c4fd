/-!
# Names of the generated module

The identifiers that the compiler itself declares in the module it generates. They all start with
`isf_` or `Isf`.
-/

namespace ShaderEffect.Wgsl

def uniformStruct : String := "IsfUniforms"

def uniformVar : String := "isf_uniforms"

def fragCoord : String := "isf_frag_coord"

def fragNormCoord : String := "isf_frag_norm_coord"

def fragColor : String := "isf_frag_color"

def entryPoint : String := "isf_fragment_main"

def positionInput : String := "isf_position"

def uvInput : String := "isf_uv"

/-- The helper that turns a normalised coordinate upside down. -/
def flipY : String := "isf_flip_y"

/-- The helper that turns a texel position upside down. -/
def flipTexel : String := "isf_flip_texel"

def textureVar (name : String) : String := "isf_tex_" ++ name

def samplerVar (name : String) : String := "isf_smp_" ++ name

end ShaderEffect.Wgsl
