import ShaderEffect.Lowering.Basic
import ShaderEffect.Lowering.Walk

/-!
# Lanes of vectors

The letters `stpq` become `xyzw`. An assignment to several lanes at once, which the target language
does not have, becomes an assignment to the whole vector that reads the other lanes back.
-/

namespace ShaderEffect.Lowering

def laneIndex (c : Char) : Nat :=
  if c == 'x' || c == 'r' || c == 's' then 0
  else if c == 'y' || c == 'g' || c == 't' then 1
  else if c == 'z' || c == 'b' || c == 'p' then 2
  else 3

def laneLetter : Nat → Char
  | 0 => 'x'
  | 1 => 'y'
  | 2 => 'z'
  | _ => 'w'

def isTextureLanes (name : String) : Bool :=
  (name.toList.all ['s', 't', 'p', 'q'].contains) && isSwizzle name

def usualLanes (name : String) : String :=
  String.ofList (name.toList.map fun c => laneLetter (laneIndex c))

def respellLanes (env : Env) : Expr → Expr
  | .field base name =>
    if isTextureLanes name && !(env.typeOf base).any ShaderType.isStruct then
      .field base (usualLanes name)
    else
      .field base name
  | e => e

def normaliseLanes (st : Setting) (p : Program) : LowerM Program :=
  let walker : Walker State := { expr := fun env e => pure (respellLanes env e) }
  walker.walk (st.envFor p) p

/-! ## Assignments -/

def lanesFrom (base : Expr) (start count : Nat) : Expr :=
  .field base (String.ofList ((List.range' start count).map laneLetter))

/-- Lanes that can be assigned to: each one exists, and none occurs twice. -/
def areTargets (width : Nat) (lanes : List Nat) : Bool :=
  (lanes.all fun l => decide (l < width)) && decide lanes.Nodup

def areConsecutive (lanes : List Nat) : Bool :=
  lanes == List.range' (lanes.headD 0) lanes.length

/-- The vector with a run of lanes replaced. -/
def replaceRun (base : Expr) (s : Scalar) (width start count : Nat) (value : Expr) : Expr :=
  .construct (.vector s width)
    ((if 0 < start then [lanesFrom base 0 start] else []) ++ [value] ++
      (if start + count < width then
        [lanesFrom base (start + count) (width - (start + count))]
      else []))

/-- The vector with scattered lanes replaced: each takes its part of the value, or all of a value
that is a scalar. -/
def replaceScattered (base : Expr) (s : Scalar) (width : Nat) (lanes : List Nat)
    (isScalar : Bool) (value : Expr) : Expr :=
  .construct (.vector s width) ((List.range width).map fun i =>
    match lanes.idxOf? i with
    | some k => if isScalar then value else .field value (laneLetter k).toString
    | none => lanesFrom base i 1)

/-- The assignment to lanes of a vector as assignments to the whole vector. A value that has to be
read more than once is computed first. -/
def assignLanes (env : Env) (base : Expr) (name : String) (s : Scalar) (width : Nat)
    (value : Expr) : LowerM (List Stmt) := do
  let lanes := name.toList.map laneIndex
  let count := lanes.length
  let isScalar := (env.typeOf value).any ShaderType.isScalar
  if areConsecutive lanes then
    let middle := if isScalar then .construct (.vector s count) [value] else value
    pure [.expr (.assign none base (replaceRun base s width (lanes.headD 0) count middle))]
  else if value.isSimple then
    pure [.expr (.assign none base (replaceScattered base s width lanes isScalar value))]
  else
    let held ← temp .swz
    let type := if isScalar then .scalar s else .vector s count
    pure [
      .decl [{ storage := .const, type := type, name := held, init := some value }],
      .expr (.assign none base
        (replaceScattered base s width lanes isScalar (.ident held)))]

def lowerLanes (env : Env) (op : Option BinOp) (base : Expr) (name : String) (rhs : Expr) :
    LowerM (Option (List Stmt)) := do
  if name.toList.length < 2 || !isSwizzle name then
    return none
  match env.typeOf base with
  | some (.vector s width) =>
    if !areTargets width (name.toList.map laneIndex) then
      note (.lanesInvalid name)
      return none
    if !base.isPureTarget then
      note (.lanesOfValue name)
      return none
    let value := match op with
      | some op => .binary op (.field base name) rhs
      | none => rhs
    let out ← assignLanes env base name s width value
    return some out
  | _ => return none

def lowerLaneStmt (env : Env) : Stmt → LowerM (List Stmt)
  | .expr (.assign op (.field base name) rhs) => do
    let out ← lowerLanes env op base name rhs
    pure (out.getD [.expr (.assign op (.field base name) rhs)])
  | s => pure [s]

def lowerLaneAssignments (st : Setting) (p : Program) : LowerM Program :=
  let walker : Walker State := { stmt := lowerLaneStmt }
  walker.walk (st.envFor p) p

end ShaderEffect.Lowering
