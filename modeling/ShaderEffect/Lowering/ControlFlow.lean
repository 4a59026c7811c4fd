import ShaderEffect.Lowering.ControlFlow.Shape
import ShaderEffect.Lowering.ControlFlow.Effect
import ShaderEffect.Lowering.Walk

/-!
# Control flow

Brings every statement into a shape of the target language, and then moves the side effects out of
its expressions.
-/

namespace ShaderEffect.Lowering

def lowerStmt (env : Env) (s : Stmt) : LowerM (List Stmt) := do
  let shaped ← shape s
  hoistAll env shaped

def lowerControlFlow (st : Setting) (p : Program) : LowerM Program :=
  let walker : Walker State := { stmt := lowerStmt }
  walker.walk (st.envFor p) p

end ShaderEffect.Lowering
