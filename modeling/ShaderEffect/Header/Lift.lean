import ShaderEffect.Header.Basic
import ShaderEffect.Header.Notice
import ShaderEffect.Json.Printer

/-!
# From JSON to headers

Lifts the JSON value of a header to its inputs, passes and imported images. Whatever does not have
the expected form is left out, in some cases with a notice.
-/

namespace ShaderEffect

namespace Json

def scalarText? : Json → Option String
  | .string s => some s
  | .number n => some n.text
  | _ => none

def isNonzero : JsonNumber → Bool
  | .integer v => v != 0
  | .real x => x != 0

def isTruthy : Json → Bool
  | .bool b => b
  | .number n => isNonzero n
  | .string s => ["true", "TRUE", "1", "YES", "yes"].contains (Text.trim s)
  | _ => false

def labelText : Json → String
  | .string s => s
  | j => j.text

end Json

namespace Header

def liftInput (item : Json) : Option Input :=
  (item.getString? "NAME").map fun name => {
    name := name
    kind := match item.getString? "TYPE" with
      | some text => .ofText text
      | none => .unknown ""
    default := item.get? "DEFAULT"
    min := item.get? "MIN"
    max := item.get? "MAX"
    label := item.getString? "LABEL"
    values := (item.get? "VALUES").bind Json.array?
    labels := ((item.get? "LABELS").bind Json.array?).map fun ls => ls.map Json.labelText }

def hasInput (inputs : List Input) (name : String) : Bool :=
  inputs.any fun i => i.name == name

/-- Adds the inputs that items describe, from the given position on. Of two with one name the first
counts. -/
def liftInputs (found : List Input) : Nat → List Json → List Input × List HeaderNotice
  | _, [] => (found, [])
  | index, item :: items =>
    match liftInput item with
    | none =>
      let (out, notices) := liftInputs found (index + 1) items
      (out, .inputUnnamed index :: notices)
    | some i =>
      if hasInput found i.name then
        let (out, notices) := liftInputs found (index + 1) items
        (out, .duplicateInput i.name :: notices)
      else liftInputs (found ++ [i]) (index + 1) items

def inputsOf (raw : Json) : List Input × List HeaderNotice :=
  match raw.get? "INPUTS" with
  | none => ([], [])
  | some (.array items) => liftInputs [] 0 items
  | some _ => ([], [.inputsNotArray])

def liftPass (item : Json) : RenderPass :=
  { target := (item.getString? "TARGET").filter fun t => t != ""
    width := (item.get? "WIDTH").bind Json.scalarText?
    height := (item.get? "HEIGHT").bind Json.scalarText?
    isFloat := (item.get? "FLOAT").any Json.isTruthy
    persistent := (item.get? "PERSISTENT").any Json.isTruthy }

def passesOf (raw : Json) : List RenderPass :=
  (((raw.get? "PASSES").bind Json.array?).getD []).map liftPass

def persist (name : String) : List RenderPass → Option (List RenderPass)
  | [] => none
  | p :: ps =>
    if p.target == some name then some ({ p with persistent := true } :: ps)
    else (persist name ps).map (p :: ·)

def persistAll (passes : List RenderPass) : List String → List RenderPass × List HeaderNotice
  | [] => (passes, [])
  | name :: names =>
    match persist name passes with
    | some passes => persistAll passes names
    | none =>
      let (out, notices) := persistAll passes names
      (out, .bufferUnmatched name :: notices)

def persistentNames (raw : Json) : List String :=
  match raw.get? "PERSISTENT_BUFFERS" with
  | some (.array items) => items.filterMap Json.string?
  | some (.object members) => members.map Prod.fst
  | _ => []

def liftImports : List Json → List ImportedImage × List HeaderNotice
  | [] => ([], [])
  | item :: items =>
    let (out, notices) := liftImports items
    match item.getString? "NAME" with
    | some name => ({ name := name, path := item.getString? "PATH" } :: out, notices)
    | none => (out, .importUnnamed :: notices)

def importsOf (raw : Json) : List ImportedImage × List HeaderNotice :=
  match raw.get? "IMPORTED" with
  | some (.object members) =>
    (members.map fun m => { name := m.1, path := m.2.getString? "PATH" }, [])
  | some (.array items) => liftImports items
  | _ => ([], [])

def addImports (inputs : List Input) (images : List ImportedImage) : List Input :=
  images.foldl (fun inputs image =>
    if hasInput inputs image.name then inputs
    else inputs ++ [{ name := image.name, kind := .image, synthetic := true }]) inputs

def ofJson (raw : Json) : Header × List HeaderNotice :=
  let (inputs, notices) := inputsOf raw
  let (passes, unmatched) := persistAll (passesOf raw) (persistentNames raw)
  let (imported, unnamed) := importsOf raw
  ({ description := raw.getString? "DESCRIPTION"
     credit := raw.getString? "CREDIT"
     version := (raw.get? "ISFVSN").bind Json.scalarText?
     categories := (((raw.get? "CATEGORIES").bind Json.array?).getD []).filterMap Json.string?
     inputs := addImports inputs imported
     passes := passes
     imported := imported
     raw := raw },
    notices ++ unmatched ++ unnamed)

def speedInput : Input :=
  { name := "speed"
    kind := .float
    default := some (.number (.real 1))
    min := some (.number (.real 0))
    max := some (.number (.real 4))
    label := some "Speed"
    synthetic := true }

def addSpeed (h : Header) : Header :=
  if hasInput h.inputs "speed" then h else { h with inputs := h.inputs ++ [speedInput] }

end Header

end ShaderEffect
