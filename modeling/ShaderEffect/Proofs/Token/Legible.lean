import ShaderEffect.Proofs.Token.Number

/-!
# Tokens that are read again

Tokens that are written one after the other without anything between them need not come out of the
text again: a minus before a minus is a decrement. A list of tokens is `Legible` if each of its tokens,
blanks and line feeds apart, is the one that is cut off at its place. **The text of a list has the
tokens of the list, blanks and line feeds apart, exactly if the list is legible** (`legible_iff`).

Then the significant tokens are the same too. Where no comment is in the list the converse holds
(`legible_of_significant`); with comments two mistakes can make up for each other.
-/

namespace ShaderEffect.Token

open ShaderEffect.Text List

variable {c : Char} {t : Token} {ts : List Token}

def significant (ts : List Token) : List Token :=
  ts.filter fun t => !t.isTrivia

def isLayout (t : Token) : Bool :=
  t.kind == .space || t.kind == .newline

/-- The tokens that are neither blanks nor line feeds. -/
def solid (ts : List Token) : List Token :=
  ts.filter fun t => !t.isLayout

def isLayoutChar (c : Char) : Bool :=
  c == '\n' || isInlineBlank c

/-- Each token but blanks and line feeds is cut off the text of the tokens from it on. -/
def Legible : List Token → Prop
  | [] => True
  | t :: ts => (t.isLayout = false → t.Cuts (chars ts)) ∧ Legible ts

/-- What the texts of tokens look like: a line feed, blanks, or a text with a character in front that
is neither. -/
inductive Sound : Token → Prop
  | line : Sound ⟨.newline, "\n"⟩
  | blank {text : String} (ne : text.toList ≠ [])
      (chars : ∀ c ∈ text.toList, isInlineBlank c = true) : Sound ⟨.space, text⟩
  | solid {t : Token} {c : Char} {cs : List Char} (kind : t.isLayout = false)
      (chars : t.text.toList = c :: cs) (first : isLayoutChar c = false) : Sound t

theorem solid_cons_of_layout (h : t.isLayout = true) : solid (t :: ts) = solid ts :=
  filter_cons_of_neg (by simp [h])

theorem solid_cons_of_solid (h : t.isLayout = false) : solid (t :: ts) = t :: solid ts :=
  filter_cons_of_pos (by simp [h])

theorem Sound.first_of_solid (ht : Sound t) (h : t.isLayout = false) :
    ∃ c cs, t.text.toList = c :: cs ∧ isLayoutChar c = false := by
  cases ht with
  | line | blank => cases h
  | solid _ hchars hfirst => exact ⟨_, _, hchars, hfirst⟩

/-! ## Single tokens -/

theorem isTrivia_of_isLayout (h : t.isLayout = true) : t.isTrivia = true := by
  obtain ⟨kind, text⟩ := t
  cases kind <;> first | rfl | cases h

theorem isTrivia_of_solid (h : t.isLayout = false) (hcomment : t.kind ≠ .comment) :
    t.isTrivia = false := by
  obtain ⟨kind, text⟩ := t
  cases kind <;> first | rfl | exact absurd rfl hcomment | cases h

theorem measure_comment {cs : List Char} (h : (measure c cs).1 = .comment) : c = '/' := by
  grind [measure, kind_numberLength]

theorem isLayout_next (hc : isLayoutChar c = false) (cs : List Char) :
    (next c cs).1.isLayout = false := by
  grind [measure, isLayoutChar, kind_numberLength, isLayout, kind_next]

theorem next_newline (cs : List Char) : next '\n' cs = (⟨.newline, "\n"⟩, cs) := by
  simp [next, measure]

theorem next_blank (hc : isInlineBlank c = true) (cs : List Char) :
    next c cs =
      (⟨.space, String.ofList (c :: cs.takeWhile isInlineBlank)⟩, cs.dropWhile isInlineBlank) := by
  grind [isInlineBlank, takeWhile_append_dropWhile, next, measure]

theorem sound_next (c : Char) (cs : List Char) : Sound (next c cs).1 := by
  by_cases hline : c = '\n'
  · subst hline
    rw [next_newline]
    exact .line
  · by_cases hblank : isInlineBlank c = true
    · rw [next_blank hblank]
      refine .blank (by simp) fun d hd => ?_
      grind [String.toList_ofList, mem_takeWhile_imp]
    · have hc : isLayoutChar c = false := by simp [isLayoutChar, hline, hblank]
      exact .solid (isLayout_next hc cs) (toList_text_next c cs) hc

theorem sound_of_mem_tokenizeChars {cs : List Char} (h : t ∈ tokenizeChars cs) : Sound t := by
  obtain ⟨c, ds, rfl⟩ := mem_tokenizeChars h
  exact sound_next c ds

theorem chars_tokenizeChars (cs : List Char) : chars (tokenizeChars cs) = cs := by
  fun_induction tokenizeChars cs with
  | case1 => rfl
  | case2 c cs ih => rw [chars_cons, ih, next_append]

/-! ## Blanks -/

theorem solid_blanks {bs : List Char} (h : ∀ c ∈ bs, isInlineBlank c = true) (cs : List Char) :
    solid (tokenizeChars (bs ++ cs)) = solid (tokenizeChars cs) := by
  have hspace : ∀ (text : String) (ts : List Token), solid (⟨.space, text⟩ :: ts) = solid ts :=
    fun _ _ => rfl
  cases bs with
  | nil => rfl
  | cons b bs =>
    have hrest : (bs ++ cs).dropWhile isInlineBlank = cs.dropWhile isInlineBlank :=
      dropWhile_append_of_pos fun c hc => h c (mem_cons_of_mem b hc)
    rw [cons_append, tokenizeChars, next_blank (h b mem_cons_self), hspace, hrest]
    -- the blanks that the text itself starts with have become part of the same token
    cases cs with
    | nil => rfl
    | cons c cs =>
      grind [isInlineBlank, tokenizeChars, next_blank, dropWhile_cons_of_pos, dropWhile_cons_of_neg]

theorem solid_layout (ht : Sound t) (hlayout : t.isLayout = true) (cs : List Char) :
    solid (tokenizeChars (t.text.toList ++ cs)) = solid (tokenizeChars cs) := by
  cases ht with
  | line =>
    have hline : ("\n".toList ++ cs) = '\n' :: cs := rfl
    rw [hline, tokenizeChars, next_newline]
    rfl
  | blank _ hblank => exact solid_blanks hblank cs
  | solid hkind => rw [hkind] at hlayout; cases hlayout

/-! ## Legible lists -/

theorem legible_cons_of_layout (h : t.isLayout = true) : Legible (t :: ts) ↔ Legible ts := by
  grind [Legible]

/-- **The text of a list has the solid tokens of the list exactly if the list is legible.** -/
theorem legible_iff (hsound : ∀ t ∈ ts, Sound t) :
    Legible ts ↔ solid (tokenizeChars (chars ts)) = solid ts := by
  induction ts with
  | nil =>
    rw [chars_nil, tokenizeChars]
    exact iff_of_true trivial rfl
  | cons t ts ih =>
    have ih' := ih fun u hu => hsound u (mem_cons_of_mem t hu)
    have ht := hsound t mem_cons_self
    rw [chars_cons]
    cases hlayout : t.isLayout with
    | true =>
      rw [legible_cons_of_layout hlayout, solid_layout ht hlayout, solid_cons_of_layout hlayout, ih']
    | false =>
      rw [Legible, solid_cons_of_solid hlayout]
      constructor
      · rintro ⟨hcuts, hts⟩
        obtain ⟨c, cs, htext, hnext⟩ := hcuts hlayout
        rw [htext, cons_append, tokenizeChars, hnext, solid_cons_of_solid hlayout, ih'.mp hts]
      · intro h
        -- the first token of the text starts with the first character of `t`, so it is solid too
        obtain ⟨c, cs, htext, hc⟩ := ht.first_of_solid hlayout
        rw [htext, cons_append, tokenizeChars,
          solid_cons_of_solid (isLayout_next hc (cs ++ chars ts)), cons.injEq] at h
        have happend := next_append c (cs ++ chars ts)
        rw [h.1, htext, cons_append, cons.injEq, append_right_inj] at happend
        have hnext : next c (cs ++ chars ts) = (t, chars ts) := Prod.ext h.1 happend.2
        rw [hnext] at h
        exact ⟨fun _ => ⟨c, cs, htext, hnext⟩, ih'.mpr h.2⟩

theorem significant_solid (ts : List Token) : significant (solid ts) = significant ts := by
  unfold significant solid
  rw [filter_filter]
  refine filter_congr fun t _ => ?_
  cases hlayout : t.isLayout with
  | true => simp [isTrivia_of_isLayout hlayout]
  | false => simp

theorem significant_of_legible (hsound : ∀ t ∈ ts, Sound t) (h : Legible ts) :
    significant (tokenizeChars (chars ts)) = significant ts := by
  rw [← significant_solid, (legible_iff hsound).mp h, significant_solid]

theorem solid_eq_significant (h : ∀ t ∈ ts, t.kind ≠ .comment) : solid ts = significant ts := by
  refine filter_congr fun t ht => ?_
  grind [isTrivia_of_isLayout, isTrivia_of_solid]

/-! Every comment has a slash. So, comments apart, the slashes of a text are in its significant tokens,
and no comment can come up in the text of a list that has the significant tokens of the text. -/

/-- The number of slashes in the texts of the tokens. -/
def slashes (ts : List Token) : Nat :=
  (chars ts).count '/'

theorem slashes_cons (t : Token) (ts : List Token) :
    slashes (t :: ts) = t.text.toList.count '/' + slashes ts := by
  rw [slashes, chars_cons, count_append, slashes]

theorem slashes_eq (ts : List Token) :
    slashes ts = slashes (significant ts) + slashes (ts.filter isTrivia) := by
  induction ts with
  | nil => rfl
  | cons t ts ih =>
    unfold significant at ih ⊢
    cases ht : t.isTrivia with
    | true =>
      rw [filter_cons_of_neg (by simp [ht]), filter_cons_of_pos ht, slashes_cons,
        slashes_cons, ih]
      omega
    | false =>
      rw [filter_cons_of_pos (by simp [ht]), filter_cons_of_neg (by simp [ht]),
        slashes_cons, slashes_cons, ih]
      omega

theorem slash_not_mem_of_slashes (h : slashes ts = 0) (ht : t ∈ ts) : '/' ∉ t.text.toList :=
  fun hmem => count_eq_zero.mp h (mem_flatMap.mpr ⟨t, ht, hmem⟩)

theorem slashes_trivia (hsound : ∀ t ∈ ts, Sound t) (hcomment : ∀ t ∈ ts, t.kind ≠ .comment) :
    slashes (ts.filter isTrivia) = 0 := by
  refine count_eq_zero.mpr fun hmem => ?_
  obtain ⟨t, ht, hslash⟩ := mem_flatMap.mp hmem
  obtain ⟨ht, htrivia⟩ := mem_filter.mp ht
  cases hsound t ht with
  | line => simp at hslash
  | blank _ hblank => exact absurd (hblank _ hslash) (by decide)
  | solid hkind =>
    rw [isTrivia_of_solid hkind (hcomment t ht)] at htrivia
    cases htrivia

theorem kind_ne_comment_of_significant (hsound : ∀ t ∈ ts, Sound t)
    (hcomment : ∀ t ∈ ts, t.kind ≠ .comment)
    (h : significant (tokenizeChars (chars ts)) = significant ts) :
    ∀ u ∈ tokenizeChars (chars ts), u.kind ≠ .comment := by
  intro u hu hkind
  have htrivia : u.isTrivia = true := by
    unfold isTrivia
    rw [hkind]
  have htext := slashes_eq (tokenizeChars (chars ts))
  have hlist := slashes_eq ts
  rw [slashes_trivia hsound hcomment] at hlist
  have hsame : slashes (tokenizeChars (chars ts)) = slashes ts := by
    rw [slashes, chars_tokenizeChars, slashes]
  rw [h] at htext
  have hzero : slashes ((tokenizeChars (chars ts)).filter isTrivia) = 0 := by omega
  refine slash_not_mem_of_slashes hzero (mem_filter.mpr ⟨hu, htrivia⟩) ?_
  obtain ⟨c, cs, rfl⟩ := mem_tokenizeChars hu
  rw [toList_text_next, measure_comment hkind]
  exact mem_cons_self

/-- **A list without comments is legible if its text has its significant tokens.** -/
theorem legible_of_significant (hsound : ∀ t ∈ ts, Sound t)
    (hcomment : ∀ t ∈ ts, t.kind ≠ .comment)
    (h : significant (tokenizeChars (chars ts)) = significant ts) : Legible ts := by
  grind [legible_iff, solid_eq_significant, kind_ne_comment_of_significant]

end ShaderEffect.Token
