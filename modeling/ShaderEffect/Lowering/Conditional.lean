import ShaderEffect.Lowering.Basic
import ShaderEffect.Lowering.Walk

/-!
# Conditional expressions

`c ? a : b` becomes `select(b, a, c)`, which evaluates both of its alternatives.
-/

namespace ShaderEffect.Lowering

def lowerConditional : Expr → Expr
  | .conditional cond whenTrue whenFalse => .call "select" [whenFalse, whenTrue, cond]
  | e => e

def lowerConditionals (st : Setting) (p : Program) : LowerM Program :=
  let walker : Walker State := { expr := fun _ e => pure (lowerConditional e) }
  walker.walk (st.envFor p) p

end ShaderEffect.Lowering
