import Mathlib.Data.List.TakeWhile
import ShaderEffect.Proofs.Token.Cut

/-!
# Numbers as tokens

A decimal number is a run of digits, a fraction, an exponent and a suffix; `Digits`, `Fraction` and
`Exponent` say what the parts look like. Each length function finds a part of that form
(`fraction_take`, `exponent_take`), and finds it again where the text after it cannot go on with it
(`fractionLength_append`, `exponentLength_append`). So a number token has one of the forms `IntForm`
and `FloatForm` (`form_of_mem_tokenize`). A whole number and a decimal one are cut off again
(`cuts_whole`, `cuts_decimal`).
-/

namespace ShaderEffect.Token

open ShaderEffect.Text List

variable {c d : Char} {t : Token} {es rest cs fs ws : List Char} {p : Char → Bool}

/-! ## The parts of a decimal number -/

def Digits (cs : List Char) : Prop :=
  ∀ c ∈ cs, c.isDigit = true

def Fraction (cs : List Char) : Prop :=
  cs = [] ∨ ∃ ds, cs = '.' :: ds ∧ Digits ds

def isExponentMark (c : Char) : Bool :=
  c == 'e' || c == 'E'

/-- Nothing, or a mark, perhaps a sign, and at least one digit. -/
def Exponent (cs : List Char) : Prop :=
  cs = [] ∨ ∃ mark sign d ds, cs = mark :: (sign ++ d :: ds) ∧ isExponentMark mark = true ∧
    (sign = [] ∨ sign = ['+'] ∨ sign = ['-']) ∧ Digits (d :: ds)

theorem digitsLength_append {ds : List Char} (hds : Digits ds) (hrest : NotNext Char.isDigit rest) :
    digitsLength (ds ++ rest) = ds.length := by
  unfold digitsLength
  rw [takeWhile_append_of_notNext hds hrest]

theorem take_length_takeWhile (p : Char → Bool) (cs : List Char) :
    cs.take (cs.takeWhile p).length = cs.takeWhile p :=
  (prefix_iff_eq_take.mp ( takeWhile_prefix p)).symm

theorem digits_take (cs : List Char) : Digits (cs.take (digitsLength cs)) := by
  intro c hc
  rw [digitsLength, take_length_takeWhile] at hc
  exact mem_takeWhile_imp hc

theorem fractionLength_of_ne (h : NotNext (· == '.') cs) : fractionLength cs = 0 := by
  unfold fractionLength
  split
  · simp at h
  · rfl

theorem fractionLength_append (hfs : Fraction fs) (hdigit : NotNext Char.isDigit rest)
    (hpoint : fs = [] → NotNext (· == '.') rest) : fractionLength (fs ++ rest) = fs.length := by
  rcases hfs with rfl | ⟨ds, rfl, hds⟩
  · exact fractionLength_of_ne (hpoint rfl)
  · rw [cons_append, fractionLength, digitsLength_append hds hdigit, length_cons]

theorem fraction_take (cs : List Char) : Fraction (cs.take (fractionLength cs)) := by
  unfold fractionLength
  split
  case h_1 ds => exact .inr ⟨_, take_succ_cons, digits_take ds⟩
  case h_2 => exact .inl (take_zero ..)

theorem exponentLength_of_ne (h : NotNext isExponentMark cs) : exponentLength cs = 0 := by
  unfold exponentLength
  grind [notNext_cons, isExponentMark]

theorem exponentLength_digit {mark : Char} (hmark : isExponentMark mark = true)
    (hd : d.isDigit = true) (cs : List Char) :
    exponentLength (mark :: d :: cs) = digitsLength (d :: cs) + 1 := by
  unfold isExponentMark at hmark
  cases cs <;> simp [exponentLength, digitsLength, hmark, hd]

theorem exponentLength_sign {mark s : Char} (hmark : isExponentMark mark = true)
    (hs : s = '+' ∨ s = '-') (hd : d.isDigit = true) (cs : List Char) :
    exponentLength (mark :: s :: d :: cs) = digitsLength (d :: cs) + 2 := by
  unfold isExponentMark at hmark
  have hsign : (s == '+' || s == '-') = true := by simpa using hs
  have hdigit : s.isDigit = false := by rcases hs with rfl | rfl <;> rfl
  simp [exponentLength, hmark, hsign, hdigit, hd]

theorem exponentLength_append (hes : Exponent es) (hdigit : NotNext Char.isDigit rest)
    (hmark : es = [] → NotNext isExponentMark rest) : exponentLength (es ++ rest) = es.length := by
  rcases hes with rfl | ⟨mark, sign, d, ds, rfl, hm, hsign, hds⟩
  · exact exponentLength_of_ne (hmark rfl)
  · have hd : d.isDigit = true := hds d (mem_cons_self ..)
    grind [digitsLength_append, exponentLength_digit, exponentLength_sign]

theorem take_digitsLength_cons (hd : d.isDigit = true) (cs : List Char) :
    (d :: cs).take (digitsLength (d :: cs)) = d :: cs.take (digitsLength cs) := by
  simp [digitsLength, hd]

theorem exponent_take (cs : List Char) : Exponent (cs.take (exponentLength cs)) := by
  by_cases hmark : NotNext isExponentMark cs
  · exact .inl (by rw [exponentLength_of_ne hmark, take_zero])
  have hnone : exponentLength cs = 0 → Exponent (cs.take (exponentLength cs)) :=
    fun h => .inl (by rw [h, take_zero])
  rcases cs with _ | ⟨mark, _ | ⟨s, cs⟩⟩
  · exact hnone rfl
  · exact hnone rfl
  rw [notNext_cons, Bool.not_eq_false] at hmark
  by_cases hs : s.isDigit = true
  · refine .inr ⟨mark, [], s, cs.take (digitsLength cs), ?_, hmark, .inl rfl, ?_⟩
    · rw [exponentLength_digit hmark hs, take_succ_cons, take_digitsLength_cons hs]
      rfl
    · rw [← take_digitsLength_cons hs]
      exact digits_take _
  rcases cs with _ | ⟨d, cs⟩
  · exact hnone (by simp [exponentLength, hs])
  by_cases hsign : (s = '+' ∨ s = '-') ∧ d.isDigit = true
  · obtain ⟨hsign, hd⟩ := hsign
    refine .inr ⟨mark, [s], d, cs.take (digitsLength cs), ?_, hmark, ?_, ?_⟩
    · rw [exponentLength_sign hmark hsign hd, take_succ_cons, take_succ_cons,
        take_digitsLength_cons hd]
      rfl
    · rcases hsign with rfl | rfl <;> simp
    · rw [← take_digitsLength_cons hd]
      exact digits_take _
  · exact hnone (by simp_all [exponentLength])

/-! ## Suffixes -/

/-- The suffixes that make a number a float. -/
def FloatMark (cs : List Char) : Prop :=
  cs = ['f'] ∨ cs = ['F'] ∨ cs = ['l', 'f'] ∨ cs = ['L', 'F']

/-- The suffix of an unsigned integer, or none. -/
def IntMark (cs : List Char) : Prop :=
  cs = [] ∨ cs = ['u'] ∨ cs = ['U']

theorem suffix_take (isFloat : Bool) (cs : List Char) :
    ((suffixOf isFloat cs).2 = false → isFloat = false ∧ IntMark (cs.take (suffixOf isFloat cs).1)) ∧
      ((suffixOf isFloat cs).2 = true → FloatMark (cs.take (suffixOf isFloat cs).1) ∨
        isFloat = true ∧ cs.take (suffixOf isFloat cs).1 = []) := by
  unfold suffixOf
  split <;> cases isFloat <;> simp [FloatMark, IntMark]

theorem suffixOf_of_notNext {isFloat : Bool} (h : NotNext isWordRest rest) :
    suffixOf isFloat rest = (0, isFloat) := by
  unfold suffixOf
  split
  all_goals first
    | rfl
    | exact absurd (notNext_cons.mp h) (by decide)

/-! ## Whole numbers -/

/-- The letter that makes a number hexadecimal. -/
def isHexMark (c : Char) : Bool :=
  c == 'x' || c == 'X'

/-- A decimal number of the given whole part, fraction and exponent. Without a whole part it has a
digit after the point. -/
structure Decimal (ws fs es : List Char) : Prop where
  whole : Digits ws
  fraction : Fraction fs
  exponent : Exponent es
  starts : ws = [] → 1 < fs.length

/-- Digits, or hexadecimal digits after their mark. -/
def Whole (cs : List Char) : Prop :=
  (cs ≠ [] ∧ Digits cs) ∨
    ∃ x hs, cs = '0' :: x :: hs ∧ isHexMark x = true ∧ ∀ c ∈ hs, isHexDigit c = true

/-- A whole number and the suffix of an integer. -/
def IntForm (cs : List Char) : Prop :=
  ∃ ds mark, cs = ds ++ mark ∧ Whole ds ∧ IntMark mark

/-- A decimal number that has a float suffix, a fraction or an exponent. -/
def FloatForm (cs : List Char) : Prop :=
  ∃ ws fs es mark, cs = ws ++ (fs ++ (es ++ mark)) ∧ Decimal ws fs es ∧
    (FloatMark mark ∨ mark = [] ∧ (fs ≠ [] ∨ es ≠ []))

theorem take_fractionLength_eq_nil : cs.take (fractionLength cs) = [] ↔ fractionLength cs = 0 := by
  rw [take_eq_nil_iff]
  refine or_iff_left_of_imp ?_
  rintro rfl
  rfl

theorem take_exponentLength_eq_nil : cs.take (exponentLength cs) = [] ↔ exponentLength cs = 0 := by
  rw [take_eq_nil_iff]
  refine or_iff_left_of_imp ?_
  rintro rfl
  rfl

theorem starts_of_startsNumber (h : startsNumber cs = true)
    (hnil : cs.take (digitsLength cs) = []) :
    1 < ((cs.drop (digitsLength cs)).take (fractionLength (cs.drop (digitsLength cs)))).length := by
  have hdigit : ∀ c ds, cs = c :: ds → c.isDigit = false := by
    grind [take_digitsLength_cons]
  unfold startsNumber at h
  split at h
  case h_1 d ds =>
    have hzero : digitsLength ('.' :: d :: ds) = 0 := rfl
    rw [hzero, drop_zero, fractionLength, take_succ_cons, take_digitsLength_cons h]
    simp
  case h_2 c ds _ =>
    rw [hdigit c ds rfl] at h
    cases h
  case h_3 => cases h

theorem decimal_take (h : startsNumber cs = true) :
    ((decimalLength cs).2 = .int → IntForm (cs.take (decimalLength cs).1)) ∧
      ((decimalLength cs).2 = .float → FloatForm (cs.take (decimalLength cs).1)) := by
  unfold decimalLength
  extract_lets w f x body s
  have hsplit : cs.take (body + s.1) = cs.take w ++ ((cs.drop w).take f ++
      ((cs.drop (w + f)).take x ++ (cs.drop body).take s.1)) := by
    simp only [body, take_add, append_assoc]
  have hdec : Decimal (cs.take w) ((cs.drop w).take f) ((cs.drop (w + f)).take x) :=
    ⟨digits_take cs, fraction_take _, exponent_take _, starts_of_startsNumber h⟩
  have hf : (cs.drop w).take f = [] ↔ f = 0 := take_fractionLength_eq_nil
  have hx : (cs.drop (w + f)).take x = [] ↔ x = 0 := take_exponentLength_eq_nil
  obtain ⟨hint, hfloat⟩ := suffix_take (f != 0 || x != 0) (cs.drop body)
  rw [hsplit]
  refine ⟨fun hkind => ?_, fun hkind => ?_⟩
  · have hs : s.2 = false := by simpa using hkind
    obtain ⟨hzero, hmark⟩ := hint hs
    obtain ⟨hf0, hx0⟩ : f = 0 ∧ x = 0 := by simpa using hzero
    rw [hf.mpr hf0, hx.mpr hx0] at hdec ⊢
    refine ⟨_, _, rfl, .inl ⟨fun hnil => ?_, hdec.whole⟩, hmark⟩
    exact absurd (hdec.starts hnil) (by simp)
  · have hs : s.2 = true := by simpa using hkind
    refine ⟨_, _, _, _, rfl, hdec, ?_⟩
    rcases hfloat hs with hmark | ⟨hne, hmark⟩
    · exact .inl hmark
    · refine .inr ⟨hmark, ?_⟩
      rw [Ne, hf, Ne, hx]
      simpa using hne

theorem hex_take {x : Char} (hx : isHexMark x = true) (cs : List Char) :
    IntForm (('0' :: x :: cs).take (hexLength cs + 2)) := by
  have hhex : ∀ c ∈ cs.takeWhile isHexDigit, isHexDigit c = true :=
    fun c hc => mem_takeWhile_imp hc
  have htake := take_length_takeWhile isHexDigit cs
  rw [take_succ_cons, take_succ_cons]
  refine ⟨'0' :: x :: cs.takeWhile isHexDigit,
    (cs.drop (cs.takeWhile isHexDigit).length).take (hexLength cs - (cs.takeWhile isHexDigit).length),
    ?_, .inr ⟨x, _, rfl, hx, hhex⟩, ?_⟩
  all_goals unfold hexLength; dsimp only
  · split <;> simp [take_add, *]
  · split <;> simp [IntMark, *]

theorem number_take (h : startsNumber cs = true) :
    ((numberLength cs).2 = .int → IntForm (cs.take (numberLength cs).1)) ∧
      ((numberLength cs).2 = .float → FloatForm (cs.take (numberLength cs).1)) := by
  unfold numberLength
  split
  · exact ⟨fun _ => hex_take rfl _, nofun⟩
  · exact ⟨fun _ => hex_take rfl _, nofun⟩
  · exact decimal_take h

/-! ## Tokens of a text -/

theorem mem_tokenizeChars (h : t ∈ tokenizeChars cs) : ∃ c ds, t = (next c ds).1 := by
  fun_induction tokenizeChars cs with
  | case1 => cases h
  | case2 c ds ih =>
    grind

theorem toList_text_next (c : Char) (cs : List Char) :
    (next c cs).1.text.toList = c :: cs.take ((measure c cs).2 - 1) := by
  simp [next]

theorem kind_next (c : Char) (cs : List Char) : (next c cs).1.kind = (measure c cs).1 := rfl

theorem measure_number (h : (measure c cs).1 = .int ∨ (measure c cs).1 = .float) :
    startsNumber (c :: cs) = true ∧
      measure c cs = ((numberLength (c :: cs)).2, (numberLength (c :: cs)).1) := by
  unfold measure at h ⊢
  split_ifs at h ⊢ with h1 h2 h3 h4 h5 hnum h7
  any_goals simp at h
  · exact ⟨hnum, rfl⟩
  · split at h <;> simp at h

theorem kind_numberLength (cs : List Char) :
    (numberLength cs).2 = .int ∨ (numberLength cs).2 = .float := by
  unfold numberLength
  split
  · exact .inl rfl
  · exact .inl rfl
  · unfold decimalLength
    extract_lets w f x body s
    cases s.2 <;> simp

theorem measure_ident (h : (measure c cs).1 = .ident) :
    isWordStart c = true ∧ (measure c cs).2 = (cs.takeWhile isWordRest).length + 1 := by
  unfold measure at h ⊢
  split_ifs at h ⊢ with h1 h2 h3 h4 hword h6 h7
  any_goals simp at h
  · exact ⟨hword, rfl⟩
  · rcases kind_numberLength (c :: cs) with hk | hk <;> rw [hk] at h <;> cases h
  · split at h <;> simp at h

theorem IntForm.ne_nil (h : IntForm cs) : cs ≠ [] := by
  rintro rfl
  obtain ⟨ds, mark, hcs, hds, -⟩ := h
  obtain ⟨rfl, -⟩ := append_eq_nil_iff.mp hcs.symm
  rcases hds with ⟨hne, -⟩ | ⟨x, hs, h0, -⟩
  · exact hne rfl
  · cases h0

theorem FloatForm.ne_nil (h : FloatForm cs) : cs ≠ [] := by
  rintro rfl
  obtain ⟨ws, fs, es, mark, hcs, hdec, -⟩ := h
  simp only [nil_eq, append_eq_nil_iff] at hcs
  obtain ⟨rfl, rfl, -, -⟩ := hcs
  exact absurd (hdec.starts rfl) (by simp)

theorem numberLength_pos (h : startsNumber cs = true) : 0 < (numberLength cs).1 := by
  rw [Nat.pos_iff_ne_zero]
  intro hzero
  obtain ⟨hint, hfloat⟩ := number_take h
  rw [hzero, take_zero] at hint hfloat
  rcases kind_numberLength cs with hk | hk
  · exact (hint hk).ne_nil rfl
  · exact (hfloat hk).ne_nil rfl

theorem form_of_mem_tokenize {src : String} (h : t ∈ tokenize src)
    (hk : t.kind = .int ∨ t.kind = .float) :
    (t.kind = .int → IntForm t.text.toList) ∧ (t.kind = .float → FloatForm t.text.toList) := by
  obtain ⟨c, cs, rfl⟩ := mem_tokenizeChars h
  obtain ⟨hstart, hm⟩ := measure_number hk
  have hpos := numberLength_pos hstart
  have htext : (next c cs).1.text.toList = (c :: cs).take (numberLength (c :: cs)).1 := by
    rw [toList_text_next, hm, ← take_succ_cons, Nat.sub_add_cancel hpos]
  rw [htext, kind_next, hm]
  exact number_take hstart

theorem isWord_of_mem_tokenize {src : String} (h : t ∈ tokenize src) (hk : t.kind = .ident) :
    IsWord t.text := by
  obtain ⟨c, cs, rfl⟩ := mem_tokenizeChars h
  obtain ⟨hstart, hm⟩ := measure_ident hk
  refine ⟨c, cs.takeWhile isWordRest, ?_, hstart, fun d hd => mem_takeWhile_imp hd⟩
  rw [toList_text_next, hm, Nat.add_sub_cancel, take_length_takeWhile]

/-! ## Cutting numbers off -/

/-- What follows cannot go on with the digits, the exponent or the mark of a number. -/
def Stops (rest : List Char) : Prop :=
  NotNext (fun c => c.isDigit || isExponentMark c || isHexMark c) rest

theorem stops_of_notNext (h : NotNext isWordRest rest) : Stops rest := by
  refine h.mono fun c hc => ?_
  simp only [Bool.or_eq_true, isExponentMark, isHexMark, beq_iff_eq] at hc
  rcases hc with (hc | rfl | rfl) | rfl | rfl
  · exact isWordRest_of_isDigit hc
  all_goals rfl

theorem Stops.mono (h : Stops rest)
    (hp : ∀ c, p c = true → (c.isDigit || isExponentMark c || isHexMark c) = true) :
    NotNext p rest :=
  NotNext.mono h hp

theorem Fraction.notNext (h : Fraction fs) (hp : p '.' = false) (hrest : fs = [] → NotNext p rest) :
    NotNext p (fs ++ rest) := by
  rcases h with rfl | ⟨ds, rfl, -⟩
  · exact hrest rfl
  · exact notNext_cons.mpr hp

theorem Exponent.notNext (h : Exponent es) (hp : ∀ c, isExponentMark c = true → p c = false)
    (hrest : es = [] → NotNext p rest) : NotNext p (es ++ rest) := by
  rcases h with rfl | ⟨mark, sign, d, ds, rfl, hm, -⟩
  · exact hrest rfl
  · exact notNext_cons.mpr (hp mark hm)

theorem eq_of_isExponentMark (h : isExponentMark c = true) : c = 'e' ∨ c = 'E' := by
  simpa [isExponentMark] using h

theorem decimalLength_append (h : Decimal ws fs es) (hrest : Stops rest)
    (hpoint : fs = [] → es = [] → NotNext (· == '.') rest) :
    decimalLength (ws ++ (fs ++ (es ++ rest))) =
      (ws.length + fs.length + es.length + (suffixOf (fs.length != 0 || es.length != 0) rest).1,
        if (suffixOf (fs.length != 0 || es.length != 0) rest).2 then .float else .int) := by
  have hdigit : NotNext Char.isDigit rest := hrest.mono fun c hc => by simp [hc]
  have hmark : NotNext isExponentMark rest := hrest.mono fun c hc => by simp [hc]
  have hes : NotNext Char.isDigit (es ++ rest) := by
    refine h.exponent.notNext (fun c hc => ?_) fun _ => hdigit
    rcases eq_of_isExponentMark hc with rfl | rfl <;> rfl
  have hesPoint : fs = [] → NotNext (· == '.') (es ++ rest) := by
    intro hfs
    refine h.exponent.notNext (fun c hc => ?_) (hpoint hfs)
    rcases eq_of_isExponentMark hc with rfl | rfl <;> rfl
  have hw : digitsLength (ws ++ (fs ++ (es ++ rest))) = ws.length :=
    digitsLength_append h.whole (h.fraction.notNext rfl fun _ => hes)
  have hf : fractionLength (fs ++ (es ++ rest)) = fs.length :=
    fractionLength_append h.fraction hes hesPoint
  have hx : exponentLength (es ++ rest) = es.length :=
    exponentLength_append h.exponent hdigit fun _ => hmark
  unfold decimalLength
  dsimp only
  rw [hw, drop_left, hf, ← drop_drop, drop_left, drop_left, hx,
    ← drop_drop, ← drop_drop, drop_left, drop_left, drop_left]

/-- A text is read as a decimal number unless a mark of a hexadecimal one follows a zero. -/
theorem numberLength_of_digits {tail : List Char} (hws : Digits ws)
    (htail : NotNext (fun c => c.isDigit || isHexMark c) tail) :
    numberLength (ws ++ tail) = decimalLength (ws ++ tail) := by
  have hsecond : ∀ x r, ws ++ tail = '0' :: x :: r → isHexMark x = false := by
    intro x r heq
    rcases ws with _ | ⟨c, _ | ⟨d, ds⟩⟩
    · rw [nil_append] at heq
      rw [heq, notNext_cons] at htail
      cases htail
    · obtain ⟨-, rfl⟩ := cons.inj heq
      rw [notNext_cons, Bool.or_eq_false_iff] at htail
      exact htail.2
    · obtain ⟨-, heq⟩ := cons.inj heq
      obtain ⟨rfl, -⟩ := cons.inj heq
      have hd := hws d (by simp)
      rw [Bool.eq_false_iff]
      intro hx
      simp only [isHexMark, Bool.or_eq_true, beq_iff_eq] at hx
      rcases hx with rfl | rfl <;> cases hd
  unfold numberLength
  split
  case h_1 r heq => exact absurd (hsecond _ _ heq) (by decide)
  case h_2 r heq => exact absurd (hsecond _ _ heq) (by decide)
  case h_3 => rfl

theorem startsNumber_of_isDigit (hc : c.isDigit = true) (cs : List Char) :
    startsNumber (c :: cs) = true := by
  unfold startsNumber
  split
  case h_1 heq =>
    obtain ⟨rfl, -⟩ := cons.inj heq
    cases hc
  case h_2 heq =>
    obtain ⟨rfl, -⟩ := cons.inj heq
    exact hc
  case h_3 heq => cases heq

theorem head_of_startsNumber (h : startsNumber (c :: cs) = true) : c.isDigit = true ∨ c = '.' := by
  unfold startsNumber at h
  split at h
  case h_1 heq => exact .inr (cons.inj heq).1
  case h_2 heq =>
    obtain ⟨rfl, -⟩ := cons.inj heq
    exact .inl h
  case h_3 heq => cases heq

theorem isWordStart_of_isDigit (hc : c.isDigit = true) : isWordStart c = false := by
  have hne : c ≠ '_' := by
    rintro rfl
    cases hc
  simp only [Char.isDigit, Bool.and_eq_true, decide_eq_true_eq] at hc
  unfold isWordStart Char.isAlpha Char.isUpper Char.isLower
  simp only [Bool.or_eq_false_iff, Bool.and_eq_false_iff, decide_eq_false_iff_not,
    beq_eq_false_iff_ne]
  grind

theorem cuts_of_numberLength {kind : TokenKind} (hstart : startsNumber (cs ++ rest) = true)
    (hne : cs ≠ []) (h : numberLength (cs ++ rest) = (cs.length, kind)) :
    Cuts ⟨kind, String.ofList cs⟩ rest := by
  obtain ⟨c, ds, rfl⟩ := exists_cons_of_ne_nil hne
  refine cuts_of_measure (String.toList_ofList ..) ?_
  have hc := head_of_startsNumber hstart
  have hne : ∀ d, d.isDigit = false → d ≠ '.' → c ≠ d := by
    rintro d hd hpoint rfl
    rcases hc with hc | hc
    · rw [hc] at hd
      cases hd
    · exact hpoint hc
  have hword : isWordStart c = false := by
    rcases hc with hc | rfl
    · exact isWordStart_of_isDigit hc
    · rfl
  have hblank : isInlineBlank c = false := by
    simp [isInlineBlank, hne ' ' rfl, hne '\t' rfl, hne '\r' rfl, hne '\x0c' rfl]
  rw [measure_of_solid (hne _ rfl (by decide)) hblank (hne _ rfl (by decide)), hword,
    if_neg Bool.false_ne_true, ← cons_append, if_pos hstart, h]
  rfl

theorem Decimal.startsNumber (h : Decimal ws fs es) (rest : List Char) :
    startsNumber (ws ++ (fs ++ rest)) = true := by
  rcases ws with _ | ⟨c, ws⟩
  · rcases h.fraction with rfl | ⟨_ | ⟨d, ds⟩, rfl, hds⟩
    · exact absurd (h.starts rfl) (by simp)
    · exact absurd (h.starts rfl) (by simp)
    · exact hds d (mem_cons_self ..)
  · exact startsNumber_of_isDigit (h.whole c (mem_cons_self ..)) _

theorem Decimal.notNext_hexMark (h : Decimal ws fs es) (hrest : Stops rest) :
    NotNext (fun c => c.isDigit || isHexMark c) (fs ++ (es ++ rest)) := by
  refine h.fraction.notNext rfl fun _ => h.exponent.notNext (fun c hc => ?_) fun _ => ?_
  · rcases eq_of_isExponentMark hc with rfl | rfl <;> rfl
  · refine hrest.mono fun c hc => ?_
    rcases Bool.or_eq_true_iff.mp hc with hc | hc <;> simp [hc]

/-- **A float without suffix is cut off.** -/
theorem cuts_decimal (h : Decimal ws fs es) (hfloat : fs ≠ [] ∨ es ≠ [])
    (hrest : NotNext isWordRest rest) : Cuts ⟨.float, String.ofList (ws ++ (fs ++ es))⟩ rest := by
  have hstop := stops_of_notNext hrest
  have hpoint : fs = [] → es = [] → NotNext (· == '.') rest := by
    intro hf he
    exact absurd hfloat (by simp [hf, he])
  have hpos : (fs.length != 0 || es.length != 0) = true := by simpa using hfloat
  have hassoc : ws ++ (fs ++ es) ++ rest = ws ++ (fs ++ (es ++ rest)) := by
    simp only [append_assoc]
  refine cuts_of_numberLength ?_ ?_ ?_
  · rw [hassoc]
    exact h.startsNumber _
  · intro hnil
    simp only [append_eq_nil_iff] at hnil
    exact absurd hfloat (by simp [hnil.2])
  · rw [hassoc, numberLength_of_digits h.whole (h.notNext_hexMark hstop),
      decimalLength_append h hstop hpoint, hpos, suffixOf_of_notNext hrest]
    simp [Nat.add_assoc]

theorem isWordRest_of_isHexDigit (h : isHexDigit c = true) : isWordRest c = true := by
  unfold isHexDigit digitValue at h
  unfold isWordRest Char.isAlphanum Char.isAlpha Char.isUpper Char.isLower Char.isDigit
  simp only [Bool.or_eq_true, Bool.and_eq_true, decide_eq_true_eq]
  split_ifs at h with hd hl hu
  · simp only [Bool.and_eq_true, decide_eq_true_eq, Char.le_def] at hd
    exact .inl (.inr hd)
  · simp only [Bool.and_eq_true, decide_eq_true_eq, Char.le_def] at hl
    have hz : 'f'.val ≤ 'z'.val := by decide
    exact .inl (.inl (.inr ⟨hl.1, UInt32.le_trans hl.2 hz⟩))
  · simp only [Bool.and_eq_true, decide_eq_true_eq, Char.le_def] at hu
    have hz : 'F'.val ≤ 'Z'.val := by decide
    exact .inl (.inl (.inl ⟨hu.1, UInt32.le_trans hu.2 hz⟩))
  · cases h

theorem hexLength_append {hs mark : List Char} (hhs : ∀ c ∈ hs, isHexDigit c = true)
    (hmark : mark = [] ∨ mark = ['u']) (hrest : NotNext isWordRest rest) :
    hexLength (hs ++ (mark ++ rest)) = hs.length + mark.length := by
  have hstop : NotNext isHexDigit (mark ++ rest) := by
    rcases hmark with rfl | rfl
    · exact hrest.mono fun c => isWordRest_of_isHexDigit
    · exact notNext_cons.mpr rfl
  unfold hexLength
  dsimp only
  rw [takeWhile_append_of_notNext hhs hstop, drop_left]
  rcases hmark with rfl | rfl
  · rw [nil_append]
    split
    · exact absurd (notNext_cons.mp hrest) (by decide)
    · exact absurd (notNext_cons.mp hrest) (by decide)
    · rfl
  · rfl

/-- **An integer with a small mark or none is cut off**, unless a point follows. -/
theorem cuts_whole {ds mark : List Char} (h : Whole ds) (hmark : mark = [] ∨ mark = ['u'])
    (hrest : NotNext isWordRest rest) (hpoint : NotNext (· == '.') rest) :
    Cuts ⟨.int, String.ofList (ds ++ mark)⟩ rest := by
  rcases h with ⟨hne, hds⟩ | ⟨x, hs, rfl, hx, hhs⟩
  · have hdec : Decimal ds [] [] := ⟨hds, .inl rfl, .inl rfl, fun h => absurd h hne⟩
    have hstop : Stops (mark ++ rest) := by
      rcases hmark with rfl | rfl
      · exact stops_of_notNext hrest
      · exact notNext_cons.mpr rfl
    have hpoint' : NotNext (· == '.') (mark ++ rest) := by
      rcases hmark with rfl | rfl
      · exact hpoint
      · exact notNext_cons.mpr rfl
    have hsuffix : suffixOf false (mark ++ rest) = (mark.length, false) := by
      rcases hmark with rfl | rfl
      · exact suffixOf_of_notNext hrest
      · rfl
    have hlen := decimalLength_append hdec hstop fun _ _ => hpoint'
    have hdecimal := numberLength_of_digits hds (hdec.notNext_hexMark hstop)
    simp only [nil_append, length_nil, bne_self_eq_false, Bool.or_self, hsuffix,
      Bool.false_eq_true, if_false, Nat.add_zero] at hlen hdecimal
    refine cuts_of_numberLength ?_ (by simp [hne]) ?_
    · rw [append_assoc]
      exact hdec.startsNumber _
    · rw [append_assoc, hdecimal, hlen, length_append]
  · have hlen := hexLength_append hhs hmark hrest
    refine cuts_of_numberLength (startsNumber_of_isDigit rfl _) (by simp) ?_
    rcases (by simpa [isHexMark] using hx : x = 'x' ∨ x = 'X') with rfl | rfl
    all_goals
      simp only [cons_append, append_assoc, numberLength, hlen, length_cons,
        length_append]

end ShaderEffect.Token
