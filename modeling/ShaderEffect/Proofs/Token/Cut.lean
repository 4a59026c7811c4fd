import Mathlib.Data.List.Basic
import ShaderEffect.Token.Lexer

/-!
# Cutting written tokens apart again

A token is cut off the front of a text exactly when nothing after it could make it longer. `Cuts`
says so for one token and `Separate` for a list of tokens, which `tokenizeChars` then gives back.
`cuts_word`, `cuts_punct` and `cuts_space` are the conditions for words, punctuators and blanks.
-/

namespace ShaderEffect.Token

open ShaderEffect.Text List

variable {c : Char} {rest cs : List Char} {p : Char → Bool}

/-! ## Lists of tokens -/

def chars (ts : List Token) : List Char :=
  ts.flatMap fun t => t.text.toList

@[simp] theorem chars_nil : chars [] = [] := rfl

@[simp] theorem chars_cons (t : Token) (ts : List Token) :
    chars (t :: ts) = t.text.toList ++ chars ts := rfl

@[simp] theorem chars_append (ts us : List Token) : chars (ts ++ us) = chars ts ++ chars us :=
  flatMap_append

theorem toList_render (ts : List Token) : (render ts).toList = chars ts := by
  rw [render, String.toList_join, flatMap_map]
  rfl

/-- The token is cut off the front when `rest` follows it. -/
def Cuts (t : Token) (rest : List Char) : Prop :=
  ∃ c cs, t.text.toList = c :: cs ∧ next c (cs ++ rest) = (t, rest)

/-- Each token is cut off the front of what follows it. -/
def Separate : List Token → List Char → Prop
  | [], _ => True
  | t :: ts, rest => t.Cuts (chars ts ++ rest) ∧ Separate ts rest

theorem separate_append {us : List Token} : ∀ {ts : List Token},
    Separate (ts ++ us) rest ↔ Separate ts (chars us ++ rest) ∧ Separate us rest
  | [] => by simp [Separate]
  | t :: ts => by
    rw [cons_append, Separate, Separate, separate_append, chars_append, append_assoc,
      and_assoc]

/-- **Tokens that are cut apart are read back.** -/
theorem tokenizeChars_of_separate : ∀ {ts : List Token},
    Separate ts rest → tokenizeChars (chars ts ++ rest) = ts ++ tokenizeChars rest
  | [], _ => rfl
  | t :: ts, h => by
    obtain ⟨⟨c, cs, htext, hnext⟩, hts⟩ := h
    rw [chars_cons, htext, append_assoc, cons_append, tokenizeChars, hnext,
      tokenizeChars_of_separate hts, cons_append]

theorem cuts_of_measure {t : Token} (htext : t.text.toList = c :: cs)
    (hm : measure c (cs ++ rest) = (t.kind, cs.length + 1)) : t.Cuts rest := by
  refine ⟨c, cs, htext, ?_⟩
  obtain ⟨kind, text⟩ := t
  have hof : String.ofList (c :: cs) = text := by rw [← htext, String.ofList_toList]
  unfold next
  rw [hm]
  simp [hof]

/-! ## Words -/

/-- The next character, if there is one, does not satisfy `p`. -/
def NotNext (p : Char → Bool) (rest : List Char) : Prop :=
  ∀ c, rest.head? = some c → p c = false

theorem NotNext.mono {q : Char → Bool} (h : NotNext q rest) (hpq : ∀ c, p c = true → q c = true) :
    NotNext p rest := by
  intro c hc
  rw [Bool.eq_false_iff]
  intro hp
  have hq := hpq c hp
  rw [h c hc] at hq
  exact Bool.false_ne_true hq

@[simp] theorem notNext_nil (p : Char → Bool) : NotNext p [] := by
  intro c hc
  cases hc

@[simp] theorem notNext_cons : NotNext p (c :: cs) ↔ p c = false := by
  simp [NotNext]

theorem takeWhile_append_of_notNext (hcs : ∀ c ∈ cs, p c = true) (hrest : NotNext p rest) :
    (cs ++ rest).takeWhile p = cs := by
  rw [takeWhile_append_of_pos hcs]
  cases rest with
  | nil => simp
  | cons d ds => simp [notNext_cons.mp hrest]

theorem isWordRest_of_isDigit (h : c.isDigit = true) : isWordRest c = true := by
  simp [isWordRest, Char.isAlphanum, h]

/-- A letter or an underscore, then letters, digits and underscores. -/
def IsWord (text : String) : Prop :=
  ∃ c cs, text.toList = c :: cs ∧ isWordStart c = true ∧ ∀ d ∈ cs, isWordRest d = true

theorem measure_of_solid (hline : c ≠ '\n') (hblank : isInlineBlank c = false) (hslash : c ≠ '/') :
    measure c cs =
      if isWordStart c then (.ident, (cs.takeWhile isWordRest).length + 1)
      else if startsNumber (c :: cs) then
        let n := numberLength (c :: cs)
        (n.2, n.1)
      else if c == '"' then (.str, quotedLength cs + 1)
      else
        match punctuatorAt (c :: cs) with
        | some p => (.punct, p.toList.length)
        | none => (.other, 1) := by
  have hnewline : ¬ (c == '\n') = true := by simpa using hline
  have hspace : ¬ isInlineBlank c = true := by simp [hblank]
  have hcomment : ∀ d, ¬ (c == '/' && cs.head? == some d) = true := by simp [hslash]
  unfold measure
  exact (if_neg hnewline).trans <| (if_neg hspace).trans <| (if_neg (hcomment '/')).trans
    (if_neg (hcomment '*'))

theorem cuts_word {text : String} (h : IsWord text) (hrest : NotNext isWordRest rest) :
    Cuts ⟨.ident, text⟩ rest := by
  obtain ⟨c, cs, htext, hstart, hcs⟩ := h
  refine cuts_of_measure htext ?_
  have hne : ∀ d, isWordStart d = false → c ≠ d := by
    rintro d hd rfl
    rw [hstart] at hd
    cases hd
  have hblank : isInlineBlank c = false := by
    simp [isInlineBlank, hne ' ' rfl, hne '\t' rfl, hne '\r' rfl, hne '\x0c' rfl]
  rw [measure_of_solid (hne _ rfl) hblank (hne _ rfl), if_pos hstart,
    takeWhile_append_of_notNext hcs hrest]

/-! ## Blanks and punctuators -/

def space : Token := ⟨.space, " "⟩

def punct (text : String) : Token := ⟨.punct, text⟩

theorem cuts_space (h : NotNext isInlineBlank rest) : space.Cuts rest := by
  have htext : space.text.toList = ' ' :: [] := rfl
  refine cuts_of_measure htext ?_
  have hnil : ([] ++ rest).takeWhile isInlineBlank = [] := takeWhile_append_of_notNext nofun h
  rw [measure, hnil]
  rfl

end ShaderEffect.Token
