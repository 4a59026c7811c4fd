import ShaderEffect.Layout.Basic

/-!
# Bindings of render passes

The outputs of the passes that a body samples are bound after all images, in the order of the
passes.
-/

namespace ShaderEffect.Layout

def passBinding (slot index : Nat) (pass : RenderPass) (name : String) : PassBinding :=
  { name := name, passIndex := index, persistent := pass.persistent, isFloat := pass.isFloat,
    texture := slot * 2, sampler := slot * 2 + 1 }

/-- The bindings of the passes from position `index` on, the first of them at `slot`. A pass is
bound under its first name that is referred to. -/
def bindFrom (referenced : List String) (slot index : Nat) : List RenderPass → List PassBinding
  | [] => []
  | p :: ps =>
    match (p.names index).find? referenced.contains with
    | some name =>
      passBinding slot index p name :: bindFrom referenced (slot + 1) (index + 1) ps
    | none => bindFrom referenced slot (index + 1) ps

def bindPasses (l : Layout) (passes : List RenderPass) (referenced : List String) : Layout :=
  { l with passes := bindFrom referenced l.textures.length 0 passes }

end ShaderEffect.Layout
