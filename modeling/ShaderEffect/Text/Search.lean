/-!
# Searching and cutting text

Text is searched from the left, one character at a time. `cutAt` divides a text around the first
occurrence of a pattern, and `lines` and `linesWithEnds` divide it at its line feeds.
-/

namespace ShaderEffect.Text

def cutAt (pat : List Char) : List Char → Option (List Char × List Char)
  | [] => if pat.isEmpty then some ([], []) else none
  | c :: cs =>
    if pat.isPrefixOf (c :: cs) then some ([], (c :: cs).drop pat.length)
    else (cutAt pat cs).map fun r => (c :: r.1, r.2)

theorem cutAt_eq_append {pat cs : List Char} {r : List Char × List Char}
    (h : cutAt pat cs = some r) : cs = r.1 ++ pat ++ r.2 := by
  induction cs generalizing r with
  | nil =>
    rw [cutAt] at h
    split at h
    · cases h
      simp_all
    · simp at h
  | cons c cs ih =>
    rw [cutAt] at h
    split at h
    · next hp =>
      cases h
      obtain ⟨t, ht⟩ := List.isPrefixOf_iff_prefix.1 hp
      rw [← ht]
      simp
    · obtain ⟨s, hs, rfl⟩ := Option.map_eq_some_iff.1 h
      rw [List.cons_append, List.cons_append, ← ih hs]

def occurs (pat cs : List Char) : Bool :=
  (cutAt pat cs).isSome

def before (pat cs : List Char) : List Char :=
  match cutAt pat cs with
  | some r => r.1
  | none => cs

def linesWithEnds : List Char → List (List Char)
  | [] => []
  | '\n' :: cs => ['\n'] :: linesWithEnds cs
  | c :: cs =>
    match linesWithEnds cs with
    | [] => [[c]]
    | l :: ls => (c :: l) :: ls

/-- A line without its line feed and without the carriage return before that. A carriage return
that no line feed follows belongs to the line. -/
def dropLineEnd (line : List Char) : List Char :=
  match line.reverse with
  | '\n' :: '\r' :: cs => cs.reverse
  | '\n' :: cs => cs.reverse
  | _ => line

def lines (cs : List Char) : List (List Char) :=
  (linesWithEnds cs).map dropLineEnd

def countBreaks (cs : List Char) : Nat :=
  cs.count '\n'

/-- The text without the longest suffix whose characters satisfy `p`. -/
def dropEndWhile (p : Char → Bool) (cs : List Char) : List Char :=
  (cs.reverse.dropWhile p).reverse

end ShaderEffect.Text
