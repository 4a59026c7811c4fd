import ShaderEffect.Proofs.Token.Number
import ShaderEffect.Shader.Literal

/-!
# Literals in the tree

`IntText` and `FloatText` are the texts that literals have in the tree. The spelling functions give
such texts for every number token (`intText_int`, `floatText_float`) and leave them alone
(`int_eq_self`, `float_eq_self`), and the texts are cut off as tokens of their kind again.
-/

namespace ShaderEffect.Literal

open ShaderEffect.Text ShaderEffect.Token List

variable {c : Char} {mark ds : List Char} {text : String}

/-! ## Integers -/

/-- The text of an integer in the tree: it is not octal, and its mark is a small letter. -/
def IntText (text : String) : Prop :=
  ∃ ds mark, text = String.ofList (ds ++ mark) ∧ Whole ds ∧ octalValue ds = none ∧
    (mark = [] ∨ mark = ['u'])

theorem isUnsignedMark_of_mem (h : Whole ds) (hc : c ∈ ds) : isUnsignedMark c = false := by
  rw [Bool.eq_false_iff]
  intro hmark
  have hu : c = 'u' ∨ c = 'U' := by simpa [isUnsignedMark] using hmark
  rcases h with ⟨-, hds⟩ | ⟨x, hs, rfl, hx, hhs⟩
  · rcases hu with rfl | rfl <;> cases hds _ hc
  · simp only [mem_cons] at hc
    rcases hc with rfl | rfl | hc
    · cases hmark
    · rcases hu with rfl | rfl <;> cases hx
    · rcases hu with rfl | rfl <;> cases hhs _ hc

theorem splitMark_append (h : Whole ds) (hmark : IntMark mark) :
    splitMark (ds ++ mark) = (ds, mark != []) := by
  unfold splitMark
  rcases hmark with rfl | rfl | rfl
  · grind [isUnsignedMark_of_mem]
  · simp [isUnsignedMark]
  · simp [isUnsignedMark]

theorem head?_toDigits_ne {n : Nat} (h : 0 < n) : (Nat.toDigits 10 n).head? ≠ some '0' := by
  induction n using Nat.strongRecOn with
  | ind n ih =>
    by_cases hn : n < 10
    · rw [Nat.toDigits_of_lt_base hn]
      exact (by decide : ∀ m < 10, 0 < m → [m.digitChar].head? ≠ some '0') n hn h
    grind [Nat.toDigits_of_base_le, head?_append_of_ne_nil, Nat.toDigits_ne_nil]

theorem octalValue_toDigits (n : Nat) : octalValue (Nat.toDigits 10 n) = none := by
  rcases Nat.eq_zero_or_pos n with rfl | hn
  · rfl
  · have hhead := head?_toDigits_ne hn
    unfold octalValue
    grind

theorem whole_toDigits (n : Nat) : Whole (Nat.toDigits 10 n) :=
  .inl ⟨Nat.toDigits_ne_nil, fun _ => Nat.isDigit_of_mem_toDigits (by decide) (by decide)⟩

theorem int_append (h : Whole ds) (hmark : IntMark mark) :
    int (String.ofList (ds ++ mark)) =
      (match octalValue ds with
        | some v => toString v
        | none => String.ofList ds) ++ if mark != [] then "u" else "" := by
  unfold int
  rw [String.toList_ofList, splitMark_append h hmark]
  dsimp only
  cases octalValue ds <;> rfl

theorem intText_int (h : IntForm text.toList) : IntText (int text) := by
  obtain ⟨ds, mark, htext, hds, hmark⟩ := h
  have hof : text = String.ofList (ds ++ mark) := by rw [← htext, String.ofList_toList]
  rw [hof, int_append hds hmark]
  obtain ⟨m, hm, hsuffix⟩ : ∃ m, (m = [] ∨ m = ['u']) ∧
      (if mark != [] then "u" else "") = String.ofList m := by
    grind
  rw [hsuffix]
  cases ho : octalValue ds with
  | some v =>
    refine ⟨Nat.toDigits 10 v, m, ?_, whole_toDigits v, octalValue_toDigits v, hm⟩
    rw [String.ofList_append, ← Nat.toList_repr, String.ofList_toList]
    rfl
  | none => exact ⟨ds, m, String.ofList_append.symm, hds, ho, hm⟩

theorem int_eq_self (h : IntText text) : int text = text := by
  obtain ⟨ds, mark, rfl, hds, hoct, hmark⟩ := h
  rw [int_append hds (hmark.imp_right .inl), hoct]
  rcases hmark with rfl | rfl <;> simp [String.ofList_append]

/-! ## Floats -/

/-- The text of a float in the tree: it has a fraction or an exponent, and no mark. -/
def FloatText (text : String) : Prop :=
  ∃ ws fs es, text = String.ofList (ws ++ (fs ++ es)) ∧ Token.Decimal ws fs es ∧ (fs ≠ [] ∨ es ≠ [])

def isFloatLetter (c : Char) : Bool :=
  c == 'f' || c == 'F' || c == 'l' || c == 'L'

theorem isFloatLetter_of_isDigit (h : c.isDigit = true) : isFloatLetter c = false := by
  rw [Bool.eq_false_iff]
  intro hc
  simp only [isFloatLetter, Bool.or_eq_true, beq_iff_eq] at hc
  rcases hc with ((rfl | rfl) | rfl) | rfl <;> cases h

theorem isFloatLetter_of_mem {ws fs es : List Char} (h : Token.Decimal ws fs es)
    (hc : c ∈ ws ++ (fs ++ es)) : isFloatLetter c = false := by
  simp only [mem_append] at hc
  rcases hc with hc | hc | hc
  · exact isFloatLetter_of_isDigit (h.whole c hc)
  · rcases h.fraction with rfl | ⟨ds, rfl, hds⟩
    · cases hc
    · rcases mem_cons.mp hc with rfl | hc
      · rfl
      · exact isFloatLetter_of_isDigit (hds c hc)
  · rcases h.exponent with rfl | ⟨mark, sign, d, ds, rfl, hmark, hsign, hds⟩
    · cases hc
    · simp only [mem_cons, mem_append] at hc
      rcases hc with rfl | hc | hc
      · rcases eq_of_isExponentMark hmark with rfl | rfl <;> rfl
      · rcases hsign with rfl | rfl | rfl
        · cases hc
        · rw [mem_singleton.mp hc]
          rfl
        · rw [mem_singleton.mp hc]
          rfl
      · exact isFloatLetter_of_isDigit (hds c (mem_cons.mpr hc))

theorem dropFloatMark_append {body : List Char} (hbody : ∀ c ∈ body, isFloatLetter c = false)
    (hmark : FloatMark mark ∨ mark = []) : dropFloatMark (body ++ mark) = body := by
  have hlast : ∀ c r, body.reverse = c :: r → isFloatLetter c = false := by
    intro c r hr
    exact hbody c (by rw [← mem_reverse, hr]; exact mem_cons_self ..)
  unfold dropFloatMark
  rw [reverse_append]
  rcases hmark with (rfl | rfl | rfl | rfl) | rfl
  all_goals simp only [reverse_cons, reverse_nil, nil_append, cons_append]
  · split
    case h_1 heq => exact absurd (hlast _ _ (cons.inj heq).2) (by decide)
    case h_3 heq => rw [← (cons.inj heq).2, reverse_reverse]
    all_goals simp_all
  · split
    case h_2 heq => exact absurd (hlast _ _ (cons.inj heq).2) (by decide)
    case h_4 heq => rw [← (cons.inj heq).2, reverse_reverse]
    all_goals simp_all
  · rw [reverse_reverse]
  · rw [reverse_reverse]
  · rw [append_nil]
    split
    case h_5 => rfl
    all_goals
      rename_i heq
      exact absurd (hlast _ _ heq) (by decide)

theorem float_append {ws fs es : List Char} (h : Token.Decimal ws fs es)
    (hmark : FloatMark mark ∨ mark = []) :
    float (String.ofList (ws ++ (fs ++ (es ++ mark)))) =
      if fs ≠ [] ∨ es ≠ [] then String.ofList (ws ++ (fs ++ es)) else String.ofList ws ++ ".0" := by
  have hdrop : dropFloatMark (ws ++ (fs ++ (es ++ mark))) = ws ++ (fs ++ es) := by
    rw [← append_assoc fs, ← append_assoc ws]
    exact dropFloatMark_append (fun c => isFloatLetter_of_mem h) hmark
  unfold float
  dsimp only
  rw [String.toList_ofList, hdrop]
  rcases h.fraction with rfl | ⟨ds, rfl, -⟩
  · rcases h.exponent with rfl | ⟨m, sign, d, ds, rfl, hm, -⟩
    · have hnone : ws.any (fun c => c == '.' || c == 'e' || c == 'E') = false := by
        rw [any_eq_false]
        intro c hc hmark
        simp only [Bool.or_eq_true, beq_iff_eq] at hmark
        rcases hmark with (rfl | rfl) | rfl <;> cases h.whole _ hc
      simp [hnone]
    · have hm' : (m == 'e' || m == 'E') = true := hm
      simp [Bool.or_assoc, hm']
  · simp

theorem floatText_float (h : FloatForm text.toList) : FloatText (float text) := by
  obtain ⟨ws, fs, es, mark, htext, hdec, hmark⟩ := h
  have hof : text = String.ofList (ws ++ (fs ++ (es ++ mark))) := by
    rw [← htext, String.ofList_toList]
  rw [hof, float_append hdec (hmark.imp_right And.left)]
  split_ifs with hfloat
  · exact ⟨ws, fs, es, rfl, hdec, hfloat⟩
  · have hpoint : Fraction ['.', '0'] := .inr ⟨['0'], rfl, by simp [Digits]⟩
    refine ⟨ws, ['.', '0'], [], ?_, ⟨hdec.whole, hpoint, .inl rfl, fun _ => by simp⟩, by simp⟩
    rw [append_nil, String.ofList_append]

theorem float_eq_self (h : FloatText text) : float text = text := by
  obtain ⟨ws, fs, es, rfl, hdec, hfloat⟩ := h
  have hself : float (String.ofList (ws ++ (fs ++ (es ++ [])))) = _ := float_append hdec (.inr rfl)
  rw [append_nil, if_pos hfloat] at hself
  exact hself

theorem cuts_int (h : IntText text) {rest : List Char} (hrest : NotNext isWordRest rest)
    (hpoint : NotNext (· == '.') rest) : Cuts ⟨.int, text⟩ rest := by
  obtain ⟨ds, mark, rfl, hds, -, hmark⟩ := h
  exact cuts_whole hds hmark hrest hpoint

theorem cuts_float (h : FloatText text) {rest : List Char} (hrest : NotNext isWordRest rest) :
    Cuts ⟨.float, text⟩ rest := by
  obtain ⟨ws, fs, es, rfl, hdec, hfloat⟩ := h
  exact cuts_decimal hdec hfloat hrest

/-! ## First characters -/

theorem IntText.head (h : IntText text) : ∃ c cs, text.toList = c :: cs ∧ c.isDigit = true := by
  obtain ⟨ds, mark, rfl, ⟨hne, hds⟩ | ⟨x, hs, rfl, -⟩, -⟩ := h
  · obtain ⟨c, cs, rfl⟩ := exists_cons_of_ne_nil hne
    exact ⟨c, _, String.toList_ofList, hds c (mem_cons_self ..)⟩
  · exact ⟨'0', _, String.toList_ofList, rfl⟩

theorem FloatText.head (h : FloatText text) :
    ∃ c cs, text.toList = c :: cs ∧ (c.isDigit = true ∨ c = '.') := by
  obtain ⟨ws, fs, es, rfl, hdec, -⟩ := h
  have hstart := hdec.startsNumber es
  rw [String.toList_ofList]
  cases hcs : ws ++ (fs ++ es) with
  | nil =>
    rw [hcs] at hstart
    cases hstart
  | cons c cs =>
    rw [hcs] at hstart
    exact ⟨c, cs, rfl, head_of_startsNumber hstart⟩

end ShaderEffect.Literal
