import ShaderEffect.Header.Lift
import ShaderEffect.Header.Repair
import ShaderEffect.Json.Reader
import ShaderEffect.Options
import ShaderEffect.Text.Search

/-!
# Headers in sources

The header of an effect is the first block comment of its source whose content starts with a brace.
What is left is the body; line breaks stand in for the header, so that the lines of the body keep
their numbers.
-/

namespace ShaderEffect

open Text

structure SplitSource where
  header : List Char
  body : List Char
  deriving Repr, DecidableEq

namespace SplitSource

/-- Searches the source after what was passed over already. A comment without an end ends the
search. -/
def search (passed cs : List Char) : Option SplitSource :=
  match hs : cutAt ['/', '*'] cs with
  | none => none
  | some (pre, rest) =>
    match he : cutAt ['*', '/'] rest with
    | none => none
    | some (content, after) =>
      if (dropBlank content).head? == some '\x7b' then
        some {
          header := content
          body := passed ++ pre ++ List.replicate (countBreaks content) '\n' ++ after }
      else
        have : after.length < cs.length := by
          have h₁ := congrArg List.length (cutAt_eq_append hs)
          have h₂ := congrArg List.length (cutAt_eq_append he)
          simp at h₁ h₂
          omega
        search (passed ++ pre ++ ['/', '*'] ++ content ++ ['*', '/']) after
termination_by cs.length

def ofSource? (source : String) : Option SplitSource :=
  search [] source.toList

end SplitSource

namespace Header

/-- Reads the JSON text of a header. One with mistakes is repaired; if that does not help, the first
error counts. -/
def read (content : List Char) : Except JsonError (Json × List HeaderNotice) :=
  let text := dropBlankEnd (dropBlank content)
  match Json.parse text with
  | .ok j => .ok (j, [])
  | .error e =>
    match Json.parse (Repair.repair text) with
    | .ok j => .ok (j, [.repaired e])
    | .error _ => .error e

end Header

structure Extracted where
  header : Header
  body : String
  found : Bool
  notices : List HeaderNotice
  deriving Repr

namespace Extracted

def complete (options : Options) (h : Header) : Header :=
  if options.injectSpeed then h.addSpeed else h

def ofSource (options : Options) (source : String) : Except JsonError Extracted :=
  match SplitSource.ofSource? source with
  | none => .ok {
      header := complete options {}
      body := source
      found := false
      notices := [.noHeader] }
  | some s =>
    (Header.read s.header).map fun (raw, repairs) =>
      let (header, notices) := Header.ofJson raw
      { header := complete options header
        body := String.ofList s.body
        found := true
        notices := repairs ++ notices }

end Extracted

end ShaderEffect
