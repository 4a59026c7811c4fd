/-!
# Reserved words of the target language
-/

namespace ShaderEffect.Wgsl

def keywords : List String :=
  ["alias", "break", "case", "const", "const_assert", "continue", "continuing", "default",
    "diagnostic", "discard", "else", "enable", "false", "fn", "for", "if", "let", "loop",
    "override", "requires", "return", "struct", "switch", "true", "var", "while"]

def keptWords : List String :=
  ["NULL", "Self", "abstract", "active", "alignas", "alignof", "as", "asm", "asm_fragment",
    "async", "attribute", "auto", "await", "become", "binding_array", "cast", "catch", "class",
    "co_await", "co_return", "co_yield", "coherent", "column_major", "common", "compile",
    "compile_fragment", "concept", "const_cast", "consteval", "constexpr", "constinit", "crate",
    "debugger", "decltype", "delete", "demote", "demote_to_helper", "do", "dynamic_cast",
    "enum", "explicit", "export", "extends", "extern", "external", "fallthrough", "filter",
    "final", "finally", "friend", "from", "fxgroup", "get", "goto", "groupshared", "highp",
    "impl", "implements", "import", "inline", "instanceof", "interface", "layout", "lowp",
    "macro", "macro_rules", "match", "mediump", "meta", "mod", "module", "move", "mut",
    "mutable", "namespace", "new", "nil", "noexcept", "noinline", "nointerpolation",
    "noperspective", "null", "nullptr", "of", "operator", "package", "packoffset", "partition",
    "pass", "patch", "pixelfragment", "precise", "precision", "premerge", "priv", "protected",
    "pub", "public", "readonly", "ref", "regardless", "register", "reinterpret_cast",
    "require", "resource", "restrict", "self", "set", "shared", "sizeof", "smooth", "snorm",
    "static", "static_assert", "static_cast", "std", "subroutine", "super", "target",
    "template", "this", "thread_local", "throw", "trait", "try", "type", "typedef", "typeid",
    "typename", "typeof", "union", "unless", "unorm", "unsafe", "unsized", "use", "using",
    "varying", "virtual", "volatile", "wgsl", "where", "with", "writeonly", "yield"]

/-- The predeclared names that the generated text itself uses: a declaration of one of them would
hide it. -/
def predeclared : List String :=
  ["all", "any", "array", "atan2", "bitcast", "dpdx", "dpdy", "f16", "f32", "faceForward",
    "floor", "function", "i32", "inverseSqrt", "mat2x2", "mat2x3", "mat2x4", "mat3x2",
    "mat3x3", "mat3x4", "mat4x2", "mat4x3", "mat4x4", "private", "ptr", "read", "read_write",
    "sampler", "select", "storage", "textureDimensions", "textureLoad", "textureSampleLevel",
    "texture_2d", "u32", "uniform", "vec2", "vec3", "vec4", "workgroup", "write"]

def isReserved (name : String) : Bool :=
  ['_', '_'].isPrefixOf name.toList || keywords.contains name || keptWords.contains name ||
    predeclared.contains name

end ShaderEffect.Wgsl
