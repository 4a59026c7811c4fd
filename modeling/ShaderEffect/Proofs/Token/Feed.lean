import ShaderEffect.Proofs.Token.Legible

/-!
# Line feeds in tokens

Only three classes of tokens hold line feeds: the line feed itself, comments, and quoted texts, which
reach over the end of their line. Words, numbers, punctuators and blanks hold none
(`feed_not_mem`).
-/

namespace ShaderEffect.Token

open ShaderEffect.Text List

variable {c : Char} {cs : List Char} {t : Token}

/-! ## The characters of numbers -/

/-- Letters, digits and underscores, points and signs. -/
def isNumeralChar (c : Char) : Bool :=
  isWordRest c || c == '.' || c == '+' || c == '-'

theorem isNumeralChar_of_isWordRest (h : isWordRest c = true) : isNumeralChar c = true := by
  simp [isNumeralChar, h]

theorem Digits.isNumeralChar (h : Digits cs) : ∀ c ∈ cs, isNumeralChar c = true :=
  fun c hc => isNumeralChar_of_isWordRest (isWordRest_of_isDigit (h c hc))

theorem Fraction.isNumeralChar (h : Fraction cs) : ∀ c ∈ cs, isNumeralChar c = true := by
  rcases h with rfl | ⟨ds, rfl, hds⟩
  · exact forall_mem_nil _
  · exact forall_mem_cons.mpr ⟨rfl, hds.isNumeralChar⟩

theorem Exponent.isNumeralChar (h : Exponent cs) : ∀ c ∈ cs, isNumeralChar c = true := by
  rcases h with rfl | ⟨mark, sign, d, ds, rfl, hmark, hsign, hds⟩
  · exact forall_mem_nil _
  · refine forall_mem_cons.mpr ⟨?_, forall_mem_append.mpr ⟨?_, hds.isNumeralChar⟩⟩
    · rcases eq_of_isExponentMark hmark with rfl | rfl <;> rfl
    · rcases hsign with rfl | rfl | rfl <;> exact all_eq_true.mp rfl

theorem FloatMark.isNumeralChar (h : FloatMark cs) : ∀ c ∈ cs, isNumeralChar c = true := by
  rcases h with rfl | rfl | rfl | rfl <;> exact all_eq_true.mp rfl

theorem IntMark.isNumeralChar (h : IntMark cs) : ∀ c ∈ cs, isNumeralChar c = true := by
  rcases h with rfl | rfl | rfl <;> exact all_eq_true.mp rfl

theorem Whole.isNumeralChar (h : Whole cs) : ∀ c ∈ cs, isNumeralChar c = true := by
  rcases h with ⟨-, hds⟩ | ⟨x, hs, rfl, hx, hhs⟩
  · exact hds.isNumeralChar
  · refine forall_mem_cons.mpr ⟨rfl, forall_mem_cons.mpr ⟨?_, fun c hc => ?_⟩⟩
    · unfold isHexMark at hx
      rw [Bool.or_eq_true, beq_iff_eq, beq_iff_eq] at hx
      rcases hx with rfl | rfl <;> rfl
    · exact isNumeralChar_of_isWordRest (isWordRest_of_isHexDigit (hhs c hc))

theorem IntForm.isNumeralChar (h : IntForm cs) : ∀ c ∈ cs, isNumeralChar c = true := by
  obtain ⟨ds, mark, rfl, hds, hmark⟩ := h
  exact forall_mem_append.mpr ⟨hds.isNumeralChar, hmark.isNumeralChar⟩

theorem FloatForm.isNumeralChar (h : FloatForm cs) : ∀ c ∈ cs, isNumeralChar c = true := by
  obtain ⟨ws, fs, es, mark, rfl, hdec, hmark⟩ := h
  refine forall_mem_append.mpr ⟨hdec.whole.isNumeralChar, forall_mem_append.mpr
    ⟨hdec.fraction.isNumeralChar, forall_mem_append.mpr ⟨hdec.exponent.isNumeralChar, ?_⟩⟩⟩
  rcases hmark with hmark | ⟨rfl, -⟩
  · exact hmark.isNumeralChar
  · exact forall_mem_nil _

theorem IsWord.isWordRest {text : String} (h : IsWord text) :
    ∀ c ∈ text.toList, isWordRest c = true := by
  obtain ⟨c, cs, htext, hstart, hcs⟩ := h
  rw [htext]
  refine forall_mem_cons.mpr ⟨?_, hcs⟩
  unfold isWordStart at hstart
  unfold Text.isWordRest Char.isAlphanum
  rw [Bool.or_eq_true] at hstart ⊢
  exact hstart.imp_left fun h => by rw [h, Bool.true_or]

/-! ## Punctuators and single characters -/

theorem text_of_measure_punct (h : (measure c cs).1 = .punct) :
    ∃ p ∈ punctuators, (next c cs).1.text = p := by
  unfold measure at h
  split_ifs at h with h1 h2 h3 h4 h5 h6 h7
  any_goals simp at h
  · rcases kind_numberLength (c :: cs) with hk | hk <;> rw [hk] at h <;> cases h
  · split at h
    · rename_i p hp
      have hmeasure : measure c cs = (.punct, p.toList.length) := by
        simp [measure, h1, h2, h3, h4, h5, h6, h7, hp]
      have hmem : p ∈ punctuators := mem_of_find?_eq_some hp
      have hprefix : p.toList <+: c :: cs := by
        unfold punctuatorAt at hp
        exact isPrefixOf_iff_prefix.mp (find?_some hp :)
      have hne : p.toList ≠ [] := by
        have hall : ∀ p ∈ punctuators, p.toList ≠ [] := by decide
        exact hall p hmem
      refine ⟨p, hmem, ?_⟩
      rw [← String.toList_inj, toList_text_next, hmeasure, ← take_succ_cons,
        Nat.sub_add_cancel (length_pos_iff.mpr hne)]
      exact (prefix_iff_eq_take.mp hprefix).symm
    · simp at h

theorem text_of_measure_other (h : (measure c cs).1 = .other) :
    c ≠ '\n' ∧ (next c cs).1.text.toList = [c] := by
  unfold measure at h
  split_ifs at h with h1 h2 h3 h4 h5 h6 h7
  any_goals simp at h
  · rcases kind_numberLength (c :: cs) with hk | hk <;> rw [hk] at h <;> cases h
  · split at h
    · simp at h
    · rename_i hp
      have hmeasure : measure c cs = (.other, 1) := by
        simp [measure, h1, h2, h3, h4, h5, h6, h7, hp]
      refine ⟨by simpa using h1, ?_⟩
      rw [toList_text_next, hmeasure]
      rfl

/-! ## Line feeds -/

/-- **Line feeds stand in line feeds, comments and quoted texts alone.** -/
theorem feed_not_mem {src : String} (h : t ∈ tokenize src) (hline : t.kind ≠ .newline)
    (hcomment : t.kind ≠ .comment) (hquoted : t.kind ≠ .str) : '\n' ∉ t.text.toList := by
  have hplain : isNumeralChar '\n' = false := rfl
  have hnumeral : (∀ c ∈ t.text.toList, isNumeralChar c = true) → '\n' ∉ t.text.toList := by
    intro hall hmem
    rw [hall _ hmem] at hplain
    cases hplain
  cases hk : t.kind with
  | newline => exact absurd hk hline
  | comment => exact absurd hk hcomment
  | str => exact absurd hk hquoted
  | ident =>
    exact hnumeral fun c hc =>
      isNumeralChar_of_isWordRest ((isWord_of_mem_tokenize h hk).isWordRest c hc)
  | int => exact hnumeral ((form_of_mem_tokenize h (.inl hk)).1 hk).isNumeralChar
  | float => exact hnumeral ((form_of_mem_tokenize h (.inr hk)).2 hk).isNumeralChar
  | space =>
    cases sound_of_mem_tokenizeChars h with
    | line => cases hk
    | blank _ hblank => exact fun hmem => absurd (hblank _ hmem) (by decide)
    | solid hlayout => simp [isLayout, hk] at hlayout
  | punct =>
    obtain ⟨c, cs, rfl⟩ := mem_tokenizeChars h
    obtain ⟨p, hp, htext⟩ := text_of_measure_punct hk
    have hall : ∀ p ∈ punctuators, '\n' ∉ p.toList := by decide
    rw [htext]
    exact hall p hp
  | other =>
    obtain ⟨c, cs, rfl⟩ := mem_tokenizeChars h
    obtain ⟨hc, htext⟩ := text_of_measure_other hk
    rw [htext, mem_singleton]
    exact hc.symm

end ShaderEffect.Token
