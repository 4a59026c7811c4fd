import Mathlib
import ShaderEffect.Proofs.Token.Legible

/-!
# Tokens and line feeds

A token that ends before a line feed is cut off alike whatever comes after the line feed
(`Cuts.line`). So the lines of a text can be taken out, or line feeds put in their place, and the
tokens of the other lines still come out of the text (`Legible.line`).
-/

namespace ShaderEffect.Token

open ShaderEffect.Text List

section Parts

variable (cs rest : List Char)

theorem takeWhile_line {p : Char → Bool} (hp : p '\n' = false) :
    (cs ++ '\n' :: rest).takeWhile p = cs.takeWhile p := by
  induction cs with
  | nil => simp [hp]
  | cons c cs ih => rw [cons_append, takeWhile_cons, takeWhile_cons, ih]

theorem digitsLength_line : digitsLength (cs ++ '\n' :: rest) = digitsLength cs := by
  rw [digitsLength, takeWhile_line cs rest (by decide), digitsLength]

theorem digitsLength_le : digitsLength cs ≤ cs.length :=
  (takeWhile_sublist _).length_le

theorem fractionLength_line : fractionLength (cs ++ '\n' :: rest) = fractionLength cs := by
  cases cs with
  | nil => rfl
  | cons c cs =>
    by_cases hc : c = '.'
    · subst hc
      rw [cons_append, fractionLength, digitsLength_line, fractionLength]
    · rw [cons_append, fractionLength_of_ne (by simpa using hc),
        fractionLength_of_ne (by simpa using hc)]

theorem fractionLength_le : fractionLength cs ≤ cs.length := by
  unfold fractionLength
  grind [digitsLength_le]

theorem exponentLength_line : exponentLength (cs ++ '\n' :: rest) = exponentLength cs := by
  match cs with
  | [] => exact exponentLength_of_ne (by simp [isExponentMark])
  | [e] => cases rest <;> simp [exponentLength]
  | [e, s] =>
    have hdigits := digitsLength_line [s] rest
    have hline : '\n'.isDigit = false := by decide
    simp only [cons_append, nil_append] at hdigits ⊢
    rw [exponentLength, exponentLength, hdigits, hline, Bool.and_false]
    cases hs : s.isDigit <;> simp [digitsLength, hs]
  | e :: s :: d :: ds =>
    grind [digitsLength_line, exponentLength]

theorem exponentLength_le : exponentLength cs ≤ cs.length := by
  unfold exponentLength
  grind [digitsLength_le]

theorem suffixOf_line (isFloat : Bool) :
    suffixOf isFloat (cs ++ '\n' :: rest) = suffixOf isFloat cs := by
  match cs with
  | [] => rfl
  | [c] =>
    rw [singleton_append]
    unfold suffixOf
    split <;> simp_all
  | c :: d :: ds =>
    rw [cons_append, cons_append]
    unfold suffixOf
    split <;> simp_all

theorem decimalLength_line : decimalLength (cs ++ '\n' :: rest) = decimalLength cs := by
  have hdrop : ∀ {n}, n ≤ cs.length → (cs ++ '\n' :: rest).drop n = cs.drop n ++ '\n' :: rest :=
    fun h => drop_append_of_le_length h
  grind [digitsLength_le, fractionLength_le, exponentLength_le, decimalLength, digitsLength_line,
      fractionLength_line, exponentLength_line, suffixOf_line]

theorem hexLength_line : hexLength (cs ++ '\n' :: rest) = hexLength cs := by
  have hle : (cs.takeWhile isHexDigit).length ≤ cs.length := (takeWhile_sublist _).length_le
  unfold hexLength
  simp only
  rw [takeWhile_line cs rest (by decide), drop_append_of_le_length hle]
  cases cs.drop (cs.takeWhile isHexDigit).length with
  | nil => rfl
  | cons c ds =>
    rw [cons_append]
    split <;> simp_all

theorem numberLength_line : numberLength (cs ++ '\n' :: rest) = numberLength cs := by
  have hdecimal := decimalLength_line cs rest
  match cs with
  | [] => exact hdecimal
  | [c] =>
    rw [singleton_append] at hdecimal ⊢
    unfold numberLength
    split <;> simp_all
  | c :: d :: ds =>
    have hhex := hexLength_line ds rest
    rw [cons_append, cons_append] at hdecimal ⊢
    unfold numberLength
    split <;> simp_all

theorem startsNumber_line : startsNumber (cs ++ '\n' :: rest) = startsNumber cs := by
  match cs with
  | [] => rfl
  | [c] =>
    by_cases hc : c = '.'
    · subst hc
      rfl
    · simp [startsNumber, hc]
  | c :: d :: ds =>
    by_cases hc : c = '.'
    · subst hc
      rfl
    · simp [startsNumber, hc]

theorem isPrefixOf_line {pat : List Char} (h : '\n' ∉ pat) :
    pat.isPrefixOf (cs ++ '\n' :: rest) = pat.isPrefixOf cs := by
  induction pat generalizing cs with
  | nil => rfl
  | cons p pat ih =>
    rw [mem_cons, not_or] at h
    cases cs with
    | nil => simp [isPrefixOf, Ne.symm h.1]
    | cons c cs => rw [cons_append, isPrefixOf, isPrefixOf, ih cs h.2]

theorem punctuatorAt_line : punctuatorAt (cs ++ '\n' :: rest) = punctuatorAt cs := by
  have hplain : ∀ p ∈ punctuators, '\n' ∉ p.toList := by decide_cbv
  exact find?_congr fun p hp => isPrefixOf_line cs rest (hplain p hp)

end Parts

section Runs

variable {cs rest other : List Char}

theorem quotedLength_line (h : quotedLength (cs ++ '\n' :: rest) ≤ cs.length) :
    quotedLength (cs ++ '\n' :: other) = quotedLength (cs ++ '\n' :: rest) := by
  fun_induction quotedLength cs with
  | case1 => simp [quotedLength] at h
  | case2 | case3 => rfl
  | case4 d cs ih =>
    grind [quotedLength]
  | case5 c cs hquote hline hslash ih =>
    by_cases hc : c = '\\'
    · cases cs with
      | nil => simp [hc, quotedLength] at h
      | cons d ds => exact absurd rfl (hslash d ds hc)
    have hcons : ∀ tail, quotedLength (c :: tail) = quotedLength tail + 1 := by
      intro tail
      rw [quotedLength.eq_5 c tail hquote hline fun _ _ h => absurd h hc]
    grind

theorem cutAt_line {pat : List Char} {r : List Char × List Char} (hpat : '\n' ∉ pat)
    (h : cutAt pat (cs ++ '\n' :: rest) = some r) (hr : r.1.length + pat.length ≤ cs.length) :
    ∃ after, cutAt pat (cs ++ '\n' :: other) = some (r.1, after) := by
  induction cs generalizing r with
  | nil =>
    have hnil : pat = [] := eq_nil_of_length_eq_zero (by rw [length_nil] at hr; omega)
    subst hnil
    cases h
    exact ⟨_, rfl⟩
  | cons c cs ih =>
    grind [cutAt, isPrefixOf_line, Option.map_eq_some_iff]

theorem blockCommentLength_line (h : blockCommentLength (cs ++ '\n' :: rest) ≤ cs.length) :
    blockCommentLength (cs ++ '\n' :: other) = blockCommentLength (cs ++ '\n' :: rest) := by
  unfold blockCommentLength at h ⊢
  cases hcut : cutAt ['*', '/'] (cs ++ '\n' :: rest) with
  | none =>
    simp only [hcut, length_append, length_cons] at h
    omega
  | some r =>
    rw [hcut] at h
    obtain ⟨after, hafter⟩ : ∃ after, cutAt ['*', '/'] (cs ++ '\n' :: other) = some (r.1, after) :=
      cutAt_line (by decide) hcut h
    rw [hafter]

/-- **A token that ends before a line feed is measured alike whatever comes after the line feed.** -/
theorem measure_line {c : Char} (h : (measure c (cs ++ '\n' :: rest)).2 ≤ cs.length + 1) :
    measure c (cs ++ '\n' :: other) = measure c (cs ++ '\n' :: rest) := by
  have hhead : (cs ++ '\n' :: other).head? = (cs ++ '\n' :: rest).head? := by
    cases cs <;> rfl
  have hstarts : startsNumber (c :: (cs ++ '\n' :: other)) =
      startsNumber (c :: (cs ++ '\n' :: rest)) :=
    (startsNumber_line (c :: cs) other).trans (startsNumber_line (c :: cs) rest).symm
  have hnumber : numberLength (c :: (cs ++ '\n' :: other)) =
      numberLength (c :: (cs ++ '\n' :: rest)) :=
    (numberLength_line (c :: cs) other).trans (numberLength_line (c :: cs) rest).symm
  have hpunct : punctuatorAt (c :: (cs ++ '\n' :: other)) =
      punctuatorAt (c :: (cs ++ '\n' :: rest)) :=
    (punctuatorAt_line (c :: cs) other).trans (punctuatorAt_line (c :: cs) rest).symm
  have htake : ∀ {p : Char → Bool}, p '\n' = false →
      (cs ++ '\n' :: other).takeWhile p = (cs ++ '\n' :: rest).takeWhile p :=
    fun hp => (takeWhile_line cs other hp).trans (takeWhile_line cs rest hp).symm
  unfold measure at h ⊢
  rw [hhead, hstarts, hnumber, hpunct, htake (by decide), htake (by decide), htake (by decide)]
  grind [blockCommentLength_line, quotedLength_line]

/-- A token that ends before a line feed is cut off alike whatever comes after the line feed. -/
theorem Cuts.line {t : Token} (h : t.Cuts (cs ++ '\n' :: rest)) : t.Cuts (cs ++ '\n' :: other) := by
  obtain ⟨c, ds, htext, hnext⟩ := h
  have hlength : (measure c (ds ++ (cs ++ '\n' :: rest))).2 - 1 = ds.length := by
    have hdrop := congrArg length (congrArg Prod.snd hnext)
    simp only [next, length_drop, length_append, length_cons] at hdrop
    omega
  have hmeasure : measure c (ds ++ (cs ++ '\n' :: other)) = measure c (ds ++ (cs ++ '\n' :: rest)) := by
    rw [← append_assoc, ← append_assoc]
    refine measure_line ?_
    rw [append_assoc, length_append]
    omega
  have ht : (next c (ds ++ (cs ++ '\n' :: rest))).1 = t := by rw [hnext]
  refine ⟨c, ds, htext, ?_⟩
  rw [← ht]
  unfold next
  simp only
  rw [hmeasure, hlength, take_left, take_left, drop_left]

end Runs

/-! ## Lists -/

theorem legible_tokenizeChars (cs : List Char) : Legible (tokenizeChars cs) := by
  fun_induction tokenizeChars cs with
  | case1 => trivial
  | case2 c cs ih =>
    have htext := toList_text_next c cs
    have happend := next_append c cs
    rw [htext, cons_append, cons.injEq] at happend
    refine ⟨fun _ => ⟨c, _, htext, ?_⟩, ih⟩
    rw [chars_tokenizeChars, happend.2]

/-- The tokens before a line feed are legible whatever comes after it. -/
theorem Legible.line {ts us vs : List Token} {l : Token} (hl : l.text = "\n")
    (h : Legible (ts ++ l :: us)) (hvs : Legible (l :: vs)) : Legible (ts ++ l :: vs) := by
  have hline : l.text.toList = ['\n'] := by rw [hl]; rfl
  induction ts with
  | nil => exact hvs
  | cons t ts ih =>
    rw [cons_append, Legible, chars_append, chars_cons, hline, singleton_append] at h ⊢
    exact ⟨fun ht => (h.1 ht).line, ih h.2⟩

end ShaderEffect.Token
