/-!
# Options of a compilation
-/

namespace ShaderEffect

structure Options where
  /-- The number of expansion passes after which macros are left as they are. -/
  maxMacroPasses : Nat := 32
  /-- What is put before identifiers that the target language reserves. -/
  renamePrefix : String := "isf_"
  /-- Adds a `speed` input when the header declares none. -/
  injectSpeed : Bool := true
  /-- Turns texture coordinates upside down: images have their origin at the bottom left, textures
  of the target language at the top left. -/
  flipTextures : Bool := true
  /-- Searches the generated module for leftovers of the source language. -/
  validate : Bool := true
  deriving Repr, DecidableEq

end ShaderEffect
