import ShaderEffect.Macro.Basic
import ShaderEffect.Macro.Notice
import ShaderEffect.Token.Lexer

/-!
# Expansion of macros

Expansion runs in rounds. A round goes through the tokens from left to right and replaces each macro
that it meets; what it puts in is looked at in the next round. Every token remembers the macros that
it came out of, and is not expanded by one of them again. Rounds go on until one changes nothing, or
up to a limit.
-/

namespace ShaderEffect

structure Marked where
  token : Token
  hidden : List String
  deriving Repr, DecidableEq

namespace Marked

def plain (t : Token) : Marked :=
  { token := t, hidden := [] }

def isTrivia (t : Marked) : Bool :=
  t.token.isTrivia

def trimTrivia (ts : List Marked) : List Marked :=
  ((ts.reverse.dropWhile isTrivia).reverse).dropWhile isTrivia

def isOpening (t : Marked) : Bool :=
  t.token.isPunct "(" || t.token.isPunct "[" || t.token.isPunct "\x7b"

def isClosing (t : Marked) : Bool :=
  t.token.isPunct ")" || t.token.isPunct "]" || t.token.isPunct "\x7d"

end Marked

structure MacroArgs where
  first : List Marked
  others : List (List Marked)
  deriving Repr

namespace MacroArgs

def toList (a : MacroArgs) : List (List Marked) :=
  a.first :: a.others

def cons (t : Marked) (a : MacroArgs) : MacroArgs :=
  { a with first := t :: a.first }

def next (a : MacroArgs) : MacroArgs :=
  { first := [], others := a.first :: a.others }

end MacroArgs

/-- Reads the arguments of a call up to its closing bracket, `depth` brackets deep, and gives what
comes after it. Brackets of all kinds count alike; comments are left out. -/
def readArgs : Nat → List Marked → Option (MacroArgs × List Marked)
  | _, [] => none
  | depth, t :: ts =>
    if t.isOpening then (readArgs (depth + 1) ts).map fun r => (r.1.cons t, r.2)
    else if t.isClosing then
      if depth ≤ 1 then some ({ first := [], others := [] }, ts)
      else (readArgs (depth - 1) ts).map fun r => (r.1.cons t, r.2)
    else if depth == 1 && t.token.isPunct "," then (readArgs depth ts).map fun r => (r.1.next, r.2)
    else if t.token.kind == .comment then readArgs depth ts
    else (readArgs depth ts).map fun r => (r.1.cons t, r.2)

theorem length_readArgs_lt {depth : Nat} {ts : List Marked} {r : MacroArgs × List Marked}
    (h : readArgs depth ts = some r) : r.2.length < ts.length := by
  induction ts generalizing depth r with
  | nil => simp [readArgs] at h
  | cons t ts ih =>
    have step : ∀ {d : Nat} {f : MacroArgs × List Marked → MacroArgs × List Marked},
        (readArgs d ts).map f = some r → (∀ s, (f s).2 = s.2) → r.2.length < (t :: ts).length := by
      intro d f hr hf
      obtain ⟨s, hs, rfl⟩ := Option.map_eq_some_iff.1 hr
      have := ih hs
      rw [hf, List.length_cons]
      omega
    rw [readArgs] at h
    split at h
    · exact step h fun _ => rfl
    · split at h
      · split at h
        · cases h
          simp
        · exact step h fun _ => rfl
      · split at h
        · exact step h fun _ => rfl
        · split at h
          · have := ih h
            rw [List.length_cons]
            omega
          · exact step h fun _ => rfl

/-- The class of a token that was put together from two: that of its first part on its own. -/
def pastedKind (text : String) : TokenKind :=
  match Token.tokenize text with
  | t :: _ => t.kind
  | [] => .other

/-- Puts together the last token so far and the first of a piece. The result came out of the macro
that is being expanded. Where one of them is missing nothing is put together. -/
def paste (hidden : List String) (soFar piece : List Marked) : List Marked :=
  match soFar.getLast?, piece with
  | some left, right :: rest =>
    let text := left.token.text ++ right.token.text
    soFar.dropLast ++
      { token := { kind := pastedKind text, text := text }, hidden := hidden } :: rest
  | _, piece => soFar ++ piece

/-- What a token of a macro's body becomes: the argument of a parameter, else the token itself. -/
def bodyPiece (args : List (String × List Marked)) (hidden : List String) (t : Token) :
    List Marked :=
  match args.find? fun a => t.isIdent a.1 with
  | some a => Marked.trimTrivia a.2
  | none => [{ token := t, hidden := hidden }]

/-- Puts arguments into the body of a macro; `##` puts together what stands around it. Arguments
keep their own marks, so a call of the same macro inside one is expanded later. -/
def substitute (args : List (String × List Marked)) (hidden : List String) :
    List Marked → Bool → List Token → List Marked
  | soFar, _, [] => soFar
  | soFar, pasting, t :: ts =>
    if t.isPunct "##" then
      substitute args hidden ((soFar.reverse.dropWhile Marked.isTrivia).reverse) true ts
    else if pasting && t.isTrivia then substitute args hidden soFar pasting ts
    else
      let piece := bodyPiece args hidden t
      substitute args hidden (if pasting then paste hidden soFar piece else soFar ++ piece) false ts

structure Round where
  out : List Marked := []
  changed : Bool := false
  notices : List MacroNotice := []
  deriving Repr

namespace Round

def keep (ts : List Marked) (r : Round) : Round :=
  { r with out := ts ++ r.out }

def replace (ts : List Marked) (r : Round) : Round :=
  { r with out := ts ++ r.out, changed := true }

def report (n : MacroNotice) (r : Round) : Round :=
  { r with notices := n :: r.notices }

end Round

/-- The number of arguments fits. A macro without parameters takes one blank argument. -/
def fits (params : List String) (args : List (List Marked)) : Bool :=
  args.length == params.length ||
    (params.isEmpty && args.length == 1 && args.all fun a => a.all Marked.isTrivia)

/-- The macro that a token names, unless it came out of it. -/
def MacroTable.expands? (table : MacroTable) (t : Marked) : Option Macro :=
  if t.token.kind == .ident then
    (table.named? t.token.text).filter fun m => !t.hidden.contains m.name
  else none

/-- One round of expansion. A macro with parameters that no call follows stays as it is. -/
def expandOnce (table : MacroTable) : List Marked → Round
  | [] => {}
  | t :: ts =>
    match table.expands? t with
    | none => (expandOnce table ts).keep [t]
    | some m =>
      let hidden := m.name :: t.hidden
      match m.params with
      | none =>
        (expandOnce table ts).replace (m.body.map fun b => { token := b, hidden := hidden })
      | some params =>
        match hd : ts.dropWhile Marked.isTrivia with
        | [] => (expandOnce table ts).keep [t]
        | o :: rest =>
          if o.token.isPunct "(" then
            match ha : readArgs 1 rest with
            | none => ((expandOnce table ts).keep [t]).report (.callOpen m.name)
            | some (args, after) =>
              have : after.length < ts.length := by
                have h₁ : after.length < rest.length := length_readArgs_lt ha
                have h₂ := (List.dropWhile_sublist (l := ts) Marked.isTrivia).length_le
                rw [hd, List.length_cons] at h₂
                omega
              if fits params args.toList then
                (expandOnce table after).replace
                  (substitute (params.zip args.toList) hidden [] false m.body)
              else
                let call := (t :: ts).take ((t :: ts).length - after.length)
                ((expandOnce table after).keep call).report
                  (.arity m.name params.length args.toList.length)
          else (expandOnce table ts).keep [t]
termination_by ts => ts.length
decreasing_by all_goals simp only [List.length_cons]; omega

/-- Rounds of expansion until one changes nothing, `fuel` of them at most. Running out is reported
with the given limit. -/
def settle (table : MacroTable) (limit : Nat) : Nat → List Marked → List Marked × List MacroNotice
  | 0, ts => (ts, [.unsettled limit])
  | fuel + 1, ts =>
    let r := expandOnce table ts
    if r.changed then
      let (out, notices) := settle table limit fuel r.out
      (out, r.notices ++ notices)
    else (r.out, r.notices)

def expandMarked (table : MacroTable) (limit : Nat) (ts : List Token) :
    List Marked × List MacroNotice :=
  settle table limit limit (ts.map Marked.plain)

def expand (table : MacroTable) (limit : Nat) (ts : List Token) : List Token × List MacroNotice :=
  let (out, notices) := expandMarked table limit ts
  (out.map Marked.token, notices)

end ShaderEffect
