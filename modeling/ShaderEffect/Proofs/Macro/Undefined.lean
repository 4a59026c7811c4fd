import Mathlib
import ShaderEffect.Proofs.Macro.Rendering
import ShaderEffect.Proofs.Token.Feed

/-!
# Bodies that define no macro

Where no macro is defined nothing is expanded: each line of the joined body is shown as it is, or only
its line breaks are (`tokens_eq_shown`). Two results follow.

* **A text without directives and without continued lines stays as it is**, whatever inputs and limit
  there are (`preprocess_verbatim`), so a body whose text came out like this is not changed again.
* **The line feeds of the body come out again but for two kinds** (`countBreaks_preprocess`): those of
  continued lines at its end, where no line follows that could make up for them, and those of quoted
  texts in lines that are left out.
-/

namespace ShaderEffect

open Text List

variable (cs : List Char) {lines front : List (List Char)} {src : String}

/-! ## Expansion without macros -/

theorem expandOnce_noMacros (ts : List Marked) : expandOnce [] ts = { out := ts } := by
  induction ts with
  | nil => exact expandOnce_nil
  | cons t ts ih =>
    have hnone : MacroTable.expands? [] t = none := by simp [MacroTable.expands?, MacroTable.named?]
    rw [expandOnce_stay hnone, ih]
    rfl

theorem expand_noMacros {limit : Nat} (hlimit : 0 < limit) (ts : List Token) :
    expand [] limit ts = (ts, []) := by
  obtain ⟨fuel, rfl⟩ := Nat.exists_eq_add_one_of_ne_zero hlimit.ne'
  have hmap : (ts.map Marked.plain).map Marked.token = ts := by
    rw [map_map]
    exact map_id ts
  simp [expand, expandMarked, settle, expandOnce_noMacros, hmap]

/-! ## Lines of the body -/

/-- The line ends in a backslash, line feed and carriage returns apart: the next one belongs to it. -/
def isContinued (line : List Char) : Bool :=
  (dropEndWhile (fun c => c == '\n' || c == '\r') line).getLast? == some '\\'

theorem joinLines_continued {line : List Char} (h : isContinued line = true) (pending : Nat)
    (lines : List (List Char)) :
    joinLines pending (line :: lines) =
      (dropEndWhile (fun c => c == '\n' || c == '\r') line).dropLast ++
        ' ' :: joinLines (pending + 1) lines := by
  rw [joinLines]
  exact if_pos h

theorem joinLines_whole {line : List Char} (h : isContinued line = false) (pending : Nat)
    (lines : List (List Char)) :
    joinLines pending (line :: lines) = line ++ (replicate pending '\n' ++ joinLines 0 lines) := by
  grind [joinLines, isContinued]

theorem flatten_linesWithEnds : (linesWithEnds cs).flatten = cs := by
  fun_induction linesWithEnds cs with
  | case1 => rfl
  | case2 cs ih => rw [flatten_cons, ih, singleton_append]
  | case3 c cs _ hnil ih =>
    rw [hnil] at ih
    rw [← ih]
    rfl
  | case4 c cs _ l ls hcons ih =>
    rw [hcons] at ih
    rw [← ih]
    rfl

theorem joinLines_of_whole (h : ∀ line ∈ lines, isContinued line = false) :
    joinLines 0 lines = lines.flatten := by
  induction lines with
  | nil => rfl
  | cons line lines ih =>
    rw [joinLines_whole (h line mem_cons_self), ih fun l hl => h l (mem_cons_of_mem line hl)]
    rfl

/-! ## What is shown of each line -/

namespace Preprocessor

variable {inputs : List String} {limit : Nat} {p : Preprocessor} {line : List Token}

/-- The line is text in branches that are taken. -/
def shows (p : Preprocessor) (line : List Token) : Bool :=
  (Directive.ofLine? line).isNone && p.isActive

/-- Each of the lines as it is, or its line breaks alone. -/
def shown (inputs : List String) (limit : Nat) : Preprocessor → List (List Token) → List (List Token)
  | _, [] => []
  | p, line :: lines =>
    (if p.shows line then line else lineBreaks line) :: shown inputs limit (p.addLine inputs limit line) lines

/-- The lines of which only the line breaks are shown: directives, and text in branches that are not
taken. -/
def leftOut (inputs : List String) (limit : Nat) : Preprocessor → List (List Token) → List (List Token)
  | _, [] => []
  | p, line :: lines =>
    (if p.shows line then [] else [line]) ++ leftOut inputs limit (p.addLine inputs limit line) lines

/-- No macro is defined, and in a branch that is not taken no line waits. -/
structure Bare (p : Preprocessor) : Prop where
  table : p.table = []
  waiting : p.isActive = false → p.waiting = []

def isDefinition (line : List Token) : Bool :=
  match Directive.ofLine? line with
  | some (.define _) => true
  | _ => false

theorem Bare.flush (h : p.Bare) (hlimit : 0 < limit) :
    p.flush limit = { p with waiting := [], out := p.out ++ p.waiting } := by
  unfold Preprocessor.flush
  rw [h.table, expand_noMacros hlimit]
  simp

/-- **One line adds itself or its line breaks to what there is so far.** -/
theorem Bare.addLine (inputs : List String) (h : p.Bare) (hlimit : 0 < limit) (hline : isDefinition line = false) :
    (p.addLine inputs limit line).Bare ∧
      (p.addLine inputs limit line).out ++ (p.addLine inputs limit line).waiting =
        p.out ++ p.waiting ++ if p.shows line then line else lineBreaks line := by
  unfold shows
  cases hreads : Directive.ofLine? line with
  | some d =>
    have hblank : lineBreaks line = [line].flatMap lineBreaks := by rw [flatMap_singleton]
    obtain ⟨hout, hwaiting, htable⟩ := obey_cases inputs limit d (p.flush limit)
    rw [h.flush hlimit] at hout hwaiting htable
    rw [addLine_directive hreads, h.flush hlimit]
    refine ⟨⟨eq_nil_iff_forall_not_mem.mpr fun m hm => ?_, fun _ => hwaiting⟩, ?_⟩
    · rcases htable m hm with hm | ⟨rest, rfl, -⟩
      · rw [h.table] at hm
        cases hm
      · simp [isDefinition, hreads] at hline
    · simp only [Preprocessor.blank, hout, hwaiting, Option.isNone_some, Bool.false_and,
        Bool.false_eq_true, if_false, append_nil, hblank]
  | none =>
    cases hactive : p.isActive with
    | true =>
      rw [addLine_text hreads hactive]
      refine ⟨⟨h.table, fun hinactive => ?_⟩, by simp [wait]⟩
      have hsame : p.isActive = false := hinactive
      rw [hactive] at hsame
      cases hsame
    | false =>
      rw [addLine_text_inactive hreads hactive]
      refine ⟨⟨h.table, fun _ => h.waiting hactive⟩, ?_⟩
      simp [blank, h.waiting hactive]

/-- **A run adds what is shown of its lines.** -/
theorem Bare.addLines (inputs : List String) (h : p.Bare) (hlimit : 0 < limit)
    {lines : List (List Token)} (hlines : ∀ line ∈ lines, isDefinition line = false) :
    (lines.foldl (Preprocessor.addLine inputs limit) p).Bare ∧
      (lines.foldl (Preprocessor.addLine inputs limit) p).out ++
          (lines.foldl (Preprocessor.addLine inputs limit) p).waiting =
        p.out ++ p.waiting ++ (shown inputs limit p lines).flatten := by
  induction lines generalizing p with
  | nil => exact ⟨h, by simp [shown]⟩
  | cons line lines ih =>
    obtain ⟨hbare, hadds⟩ := h.addLine inputs hlimit (hlines line mem_cons_self)
    obtain ⟨hrun, hrest⟩ := ih hbare fun l hl => hlines l (mem_cons_of_mem line hl)
    refine ⟨hrun, ?_⟩
    rw [foldl_cons, hrest, hadds, shown, flatten_cons, append_assoc]

theorem shown_append (front back : List (List Token)) :
    shown inputs limit p (front ++ back) = shown inputs limit p front ++
      shown inputs limit (front.foldl (Preprocessor.addLine inputs limit) p) back := by
  induction front generalizing p with
  | nil => rfl
  | cons line front ih => rw [cons_append, shown, shown, ih, cons_append, foldl_cons]

/-- Where every line is text, all of it waits. -/
theorem foldl_text {lines : List (List Token)} (h : ∀ line ∈ lines, Directive.ofLine? line = none)
    (hactive : p.isActive = true) :
    lines.foldl (Preprocessor.addLine inputs limit) p = p.wait lines.flatten := by
  induction lines generalizing p with
  | nil => simp [wait]
  | cons line lines ih =>
    have hwait : (p.wait line).isActive = true := hactive
    rw [foldl_cons, addLine_text (h line mem_cons_self) hactive,
      ih (fun l hl => h l (mem_cons_of_mem line hl)) hwait]
    simp [wait]

end Preprocessor

/-- The lines of the body after joining, as tokens. -/
def bodyLines (body : String) : List (List Token) :=
  tokenLines (Token.tokenize (joinContinued body))

/-- **The tokens of a body that defines nothing are what is shown of its lines.** -/
theorem tokens_eq_shown (inputs : List String) (limit : Nat) {body : String}
    (h : ∀ line ∈ bodyLines body, Preprocessor.isDefinition line = false) :
    (preprocess inputs limit body).tokens =
      (Preprocessor.shown inputs (max limit 1) {} (bodyLines body)).flatten := by
  have hlimit : 0 < max limit 1 := Nat.lt_of_lt_of_le Nat.zero_lt_one (Nat.le_max_right limit 1)
  have hempty : Preprocessor.Bare {} := ⟨rfl, fun _ => rfl⟩
  obtain ⟨hbare, hrun⟩ := hempty.addLines inputs hlimit h
  have hflush := congrArg Preprocessor.out (hbare.flush hlimit)
  rw [← Preprocessor.out_finish] at hflush
  exact hflush.trans hrun

/-! ## Text without directives -/

/-- No line of the text has the sign of a directive in front, blanks apart, and none is continued. -/
structure Verbatim (text : String) : Prop where
  lines : ∀ line ∈ tokenLines (Token.tokenize text),
    ∀ t ∈ line.find? (fun t => t.kind != .space), t.isPunct "#" = false
  ends : ∀ line ∈ linesWithEnds text.toList, isContinued line = false

theorem ofLine?_eq_none {line : List Token}
    (h : ∀ t ∈ line.find? (fun t => t.kind != .space), t.isPunct "#" = false) :
    Directive.ofLine? line = none := by
  grind [find?_not_eq_head?_dropWhile, Directive.ofLine?]

theorem Verbatim.preprocess {text : String} (h : Verbatim text) (inputs : List String) (limit : Nat) :
    preprocess inputs limit text = { tokens := Token.tokenize text, macros := [], notices := [] } := by
  have hlimit : 0 < max limit 1 := Nat.lt_of_lt_of_le Nat.zero_lt_one (Nat.le_max_right limit 1)
  have hjoined : joinContinued text = text := by
    rw [joinContinued, joinLines_of_whole h.ends, flatten_linesWithEnds, String.ofList_toList]
  have hrun : (tokenLines (Token.tokenize text)).foldl (Preprocessor.addLine inputs (max limit 1)) {} =
      { waiting := Token.tokenize text } := by
    rw [Preprocessor.foldl_text (fun line hline => ofLine?_eq_none (h.lines line hline)) rfl,
      flatten_tokenLines]
    rfl
  have hfinish : ({ waiting := Token.tokenize text } : Preprocessor).finish (max limit 1) =
      { out := Token.tokenize text } := by
    simp [Preprocessor.finish, Preprocessor.flush, expand_noMacros hlimit]
  unfold ShaderEffect.preprocess
  simp [hjoined, hrun, hfinish, MacroTable.sorted]

/-- **A text without directives and continued lines stays as it is**, and gives no macros and no
notices. So the text of a body that came out like this is not changed again. -/
theorem preprocess_verbatim (inputs : List String) (limit : Nat) :
    (∀ text, Verbatim text →
      (preprocess inputs limit text).text = text ∧ (preprocess inputs limit text).macros = [] ∧
        (preprocess inputs limit text).notices = []) ∧
    ∀ others other body, Verbatim (preprocess others other body).text →
      (preprocess inputs limit (preprocess others other body).text).text =
        (preprocess others other body).text := by
  have hrender : ∀ text, Token.render (Token.tokenize text) = text := fun text => by
    rw [← String.toList_inj, Token.toList_render, Token.tokenize, Token.chars_tokenizeChars]
  refine ⟨fun text h => ?_, fun others other body h => ?_⟩
  · rw [h.preprocess]
    exact ⟨hrender text, rfl, rfl⟩
  · rw [h.preprocess]
    exact hrender _

/-- Signs of directives behind text and in comments, a backslash before a blank, and a quoted text that
reaches into the next line. -/
def plainText : String := "a # b\\ \r\n/* #if\n*/ \"#\r\nc"

theorem preprocess_verbatim_plainText :
    Verbatim plainText ∧ (preprocess ["a"] 0 plainText).text = plainText ∧
      (preprocess ["a"] 0 plainText).macros = [] ∧ (preprocess ["a"] 0 plainText).notices = [] := by
  have hlines : (tokenLines (Token.tokenize plainText)).all (fun line =>
      (line.find? fun t => t.kind != .space).all fun t => t.isPunct "#" == false) = true := by cbv
  have h : Verbatim plainText := ⟨by simpa [Option.all_eq_true] using hlines, by decide⟩
  exact ⟨h, (preprocess_verbatim ["a"] 0).1 plainText h⟩

/-! ## Line feeds -/

theorem countBreaks_append (as bs : List Char) :
    countBreaks (as ++ bs) = countBreaks as + countBreaks bs :=
  count_append

theorem countBreaks_eq_zero {cs : List Char} : countBreaks cs = 0 ↔ '\n' ∉ cs :=
  count_eq_zero

/-- All lines but the last end in a line feed, the only one that they have. -/
inductive Fed : List (List Char) → Prop
  | nil : Fed []
  | last {cs : List Char} (clear : '\n' ∉ cs) : Fed [cs]
  | line (cs : List Char) {lines : List (List Char)} (clear : '\n' ∉ cs) (rest : Fed lines) :
      Fed ((cs ++ ['\n']) :: lines)

theorem fed_linesWithEnds : Fed (linesWithEnds cs) := by
  fun_induction linesWithEnds cs with
  | case1 => exact .nil
  | case2 cs ih => exact .line [] not_mem_nil ih
  | case3 c cs hc _ _ =>
    have hne : '\n' ≠ c := fun h => hc h.symm
    exact .last (by simpa using hne)
  | case4 c cs hc l ls hcons ih =>
    rw [hcons] at ih
    have hne : '\n' ≠ c := fun h => hc h.symm
    cases ih with
    | last hl => exact .last (by simp [hne, hl])
    | line front hfront hls => exact .line (c :: front) (by simp [hne, hfront]) hls

theorem Fed.of_append {front back : List (List Char)} (h : Fed (front ++ back)) : Fed front := by
  induction front with
  | nil => exact .nil
  | cons line front ih =>
    rw [cons_append] at h
    generalize hlines : front ++ back = lines at h ih
    cases h with
    | last hclear =>
      rw [(append_eq_nil_iff.mp hlines).1]
      exact .last hclear
    | line cs hclear hrest => exact .line cs hclear (ih hrest)

theorem Fed.tail {line : List Char} (h : Fed (line :: lines)) : Fed lines := by
  cases h with
  | last _ => exact .nil
  | line _ _ hrest => exact hrest

/-- What a continued line leaves holds no line feed. -/
theorem Fed.feed_not_mem_content {line : List Char} (h : Fed (line :: lines)) :
    '\n' ∉ (dropEndWhile (fun c => c == '\n' || c == '\r') line).dropLast := by
  intro hmem
  have hcontent := (dropLast_sublist _).subset hmem
  cases h with
  | last hclear =>
    refine hclear ?_
    rw [dropEndWhile, mem_reverse] at hcontent
    exact mem_reverse.mp ((dropWhile_sublist _).subset hcontent)
  | line _ hclear _ =>
    refine hclear ?_
    rw [dropEndWhile, reverse_append, reverse_singleton, singleton_append,
      dropWhile_cons_of_pos (by decide), mem_reverse] at hcontent
    exact mem_reverse.mp ((dropWhile_sublist _).subset hcontent)

/-- The continued lines at the end of a text. -/
def openEnd : List (List Char) → List (List Char)
  | [] => []
  | line :: lines => if (line :: lines).all isContinued then line :: lines else openEnd lines

/-- **Joining loses the line feeds of the continued lines at the end only.** -/
theorem countBreaks_joinLines (h : Fed lines) (pending : Nat) :
    countBreaks (joinLines pending lines) + countBreaks (openEnd lines).flatten +
        (if lines.all isContinued then pending else 0) =
      pending + countBreaks lines.flatten := by
  induction lines generalizing pending with
  | nil => simp [joinLines, openEnd, countBreaks]
  | cons line lines ih =>
    have hone : lines ≠ [] → countBreaks line = 1 := by
      intro hne
      cases h with
      | last _ => exact absurd rfl hne
      | line _ hclear _ => rw [countBreaks_append, countBreaks_eq_zero.mpr hclear]; rfl
    cases hline : isContinued line with
    | true =>
      have hleft : countBreaks (joinLines pending (line :: lines)) =
          countBreaks (joinLines (pending + 1) lines) := by
        rw [joinLines_continued hline, countBreaks_append,
          countBreaks_eq_zero.mpr h.feed_not_mem_content, Nat.zero_add]
        exact count_cons_of_ne (by decide)
      have hrest := ih h.tail (pending + 1)
      cases hall : lines.all isContinued with
      | true =>
        -- the line belongs to the open end, and the feeds that wait are never written
        have hopen : openEnd lines = lines := by
          cases lines with
          | nil => rfl
          | cons _ _ => rw [openEnd, if_pos hall]
        grind [openEnd]
      | false =>
        have hne : lines ≠ [] := by
          rintro rfl
          cases hall
        grind [openEnd, countBreaks_append]
    | false =>
      have hfeeds : countBreaks (replicate pending '\n') = pending := count_replicate_self
      have hrest := ih h.tail 0
      rw [joinLines_whole hline]
      simp only [openEnd, all_cons, hline, Bool.false_and, Bool.false_eq_true, if_false,
        flatten_cons, countBreaks_append, hfeeds, ite_self] at hrest ⊢
      omega

/-- A line that is not continued ends what is joined. -/
theorem joinLines_append (hlast : ∀ line ∈ front.getLast?, isContinued line = false)
    (hne : front ≠ []) (pending : Nat) (back : List (List Char)) :
    joinLines pending (front ++ back) = joinLines pending front ++ joinLines 0 back ∧ openEnd front = [] ∧
      front.all isContinued = false := by
  induction front generalizing pending with
  | nil => exact absurd rfl hne
  | cons line front ih =>
    cases front with
    | nil =>
      have hline : isContinued line = false := hlast line rfl
      rw [singleton_append, joinLines_whole hline, joinLines_whole hline]
      simp [joinLines, openEnd, hline]
    | cons next front =>
      have hrest := ih (by simpa using hlast) (by simp)
      refine ⟨?_, ?_, ?_⟩
      · rw [cons_append]
        cases hline : isContinued line with
        | true => rw [joinLines_continued hline, joinLines_continued hline, (hrest _).1]; simp
        | false => rw [joinLines_whole hline, joinLines_whole hline, (hrest 0).1]; simp
      · rw [openEnd, all_cons, (hrest 0).2.2, Bool.and_false, if_neg Bool.false_ne_true, (hrest 0).2.1]
      · rw [all_cons, (hrest 0).2.2, Bool.and_false]

def quoted (ts : List Token) : List Token :=
  ts.filter fun t => t.kind == .str

theorem countBreaks_lineBreaks (line : List Token) :
    countBreaks (Token.chars (lineBreaks line)) = line.foldr (fun t n => t.breaks + n) 0 := by
  unfold lineBreaks
  generalize line.foldr (fun t n => t.breaks + n) 0 = n
  induction n with
  | zero => rfl
  | succ n ih =>
    rw [replicate_succ, Token.chars_cons, countBreaks_append, ih]
    exact Nat.add_comm 1 n

/-- Only quoted texts hold line feeds that are not counted as breaks. -/
theorem Token.countBreaks_text {t : Token} (h : t ∈ Token.tokenize src)
    (hstr : t.kind ≠ .str) : countBreaks t.text.toList = t.breaks := by
  unfold Token.breaks
  split
  · rename_i hkind
    cases Token.sound_of_mem_tokenizeChars h with
    | line => rfl
    | blank _ _ => cases hkind
    | solid hlayout => simp [Token.isLayout, hkind] at hlayout
  · rfl
  grind [countBreaks_eq_zero, Token.feed_not_mem]

theorem countBreaks_chars {ts : List Token} (h : ∀ t ∈ ts, t ∈ Token.tokenize src) :
    countBreaks (Token.chars ts) =
      countBreaks (Token.chars (lineBreaks ts)) + countBreaks (Token.chars (quoted ts)) := by
  rw [countBreaks_lineBreaks]
  induction ts with
  | nil => rfl
  | cons t ts ih =>
    have hrest := ih fun u hu => h u (mem_cons_of_mem t hu)
    rw [Token.chars_cons, countBreaks_append, hrest, foldr_cons]
    by_cases hstr : t.kind = .str
    · have hbreaks : t.breaks = 0 := by simp [Token.breaks, hstr]
      have hquoted : quoted (t :: ts) = t :: quoted ts := filter_cons_of_pos (by simpa using hstr)
      rw [hquoted, Token.chars_cons, countBreaks_append, hbreaks]
      omega
    · have hquoted : quoted (t :: ts) = quoted ts := filter_cons_of_neg (by simpa using hstr)
      rw [hquoted, Token.countBreaks_text (h t mem_cons_self) hstr]
      omega

/-- **What is shown of the lines has all their line feeds but those of quoted texts that are left
out.** -/
theorem countBreaks_shown (inputs : List String) (limit : Nat) {lines : List (List Token)}
    (h : ∀ t ∈ lines.flatten, t ∈ Token.tokenize src) (p : Preprocessor) :
    countBreaks (Token.chars lines.flatten) =
      countBreaks (Token.chars (p.shown inputs limit lines).flatten) +
        countBreaks (Token.chars (quoted (p.leftOut inputs limit lines).flatten)) := by
  induction lines generalizing p with
  | nil => rfl
  | cons line lines ih =>
    rw [flatten_cons] at h
    obtain ⟨hline, hlines⟩ := forall_mem_append.mp h
    have hrest := ih hlines (p.addLine inputs limit line)
    simp only [Preprocessor.shown, Preprocessor.leftOut, flatten_cons, Token.chars_append,
      countBreaks_append, hrest]
    cases p.shows line with
    | true =>
      simp only [if_true, nil_append]
      omega
    | false =>
      have hsplit : quoted (line ++ (Preprocessor.leftOut inputs limit (p.addLine inputs limit line)
          lines).flatten) = quoted line ++ quoted (Preprocessor.leftOut inputs limit
            (p.addLine inputs limit line) lines).flatten := filter_append ..
      simp only [Bool.false_eq_true, if_false, singleton_append, flatten_cons, hsplit,
        Token.chars_append, countBreaks_append, countBreaks_chars hline]
      omega

/-- **Where the line feeds of a body without definitions go.** As many come out as there are in it
exactly if it does not end in continued lines, a last one without a line feed apart, and no quoted text
that is left out holds one. A line that is shown stands behind as many line feeds as in the joined body,
those of quoted texts left out before it apart; and the joined body has as many line feeds before each
line that none is continued into as the body. -/
theorem countBreaks_preprocess (inputs : List String) (limit : Nat) {body : String}
    (h : ∀ line ∈ bodyLines body, Preprocessor.isDefinition line = false) :
    (countBreaks (preprocess inputs limit body).text.toList = countBreaks body.toList ↔
      '\n' ∉ (openEnd (linesWithEnds body.toList)).flatten ∧
        ∀ t ∈ quoted (Preprocessor.leftOut inputs (max limit 1) {} (bodyLines body)).flatten,
          '\n' ∉ t.text.toList) ∧
    (∀ front line back, bodyLines body = front ++ line :: back →
      (front.foldl (Preprocessor.addLine inputs (max limit 1)) {}).shows line = true →
      ∃ before after,
        (preprocess inputs limit body).text.toList = before ++ (Token.chars line ++ after) ∧
        countBreaks before + countBreaks (Token.chars
            (quoted (Preprocessor.leftOut inputs (max limit 1) {} front).flatten)) =
          countBreaks (Token.chars front.flatten)) ∧
    ∀ front back, linesWithEnds body.toList = front ++ back →
      (∀ line ∈ front.getLast?, isContinued line = false) →
      Token.chars (bodyLines body).flatten = joinLines 0 front ++ joinLines 0 back ∧
        countBreaks (joinLines 0 front) = countBreaks front.flatten := by
  have hjoined : Token.chars (bodyLines body).flatten = joinLines 0 (linesWithEnds body.toList) := by
    rw [bodyLines, flatten_tokenLines, Token.tokenize, Token.chars_tokenizeChars, joinContinued,
      String.toList_ofList]
  have hmem : ∀ t ∈ (bodyLines body).flatten, t ∈ Token.tokenize (joinContinued body) := by
    intro t ht
    rwa [bodyLines, flatten_tokenLines] at ht
  have htext : (preprocess inputs limit body).text.toList =
      Token.chars (Preprocessor.shown inputs (max limit 1) {} (bodyLines body)).flatten := by
    rw [Preprocessed.text, Token.toList_render, tokens_eq_shown inputs limit h]
  have hfed := fed_linesWithEnds body.toList
  refine ⟨?_, ?_, ?_⟩
  · have hshown := countBreaks_shown inputs (max limit 1) hmem {}
    have hjoin := countBreaks_joinLines hfed 0
    rw [ite_self, flatten_linesWithEnds, ← hjoined, hshown, ← htext] at hjoin
    have hquoted : ∀ ts, (∀ t ∈ ts, '\n' ∉ t.text.toList) ↔ countBreaks (Token.chars ts) = 0 := fun ts => by
      rw [countBreaks_eq_zero]
      simp [Token.chars]
    rw [hquoted, ← countBreaks_eq_zero]
    omega
  · intro front line back hsplit hshows
    have hin : ∀ t ∈ front.flatten, t ∈ Token.tokenize (joinContinued body) := by
      intro t ht
      refine hmem t ?_
      rw [hsplit, flatten_append]
      exact mem_append_left _ ht
    have hfront := countBreaks_shown inputs (max limit 1) hin {}
    refine ⟨_, Token.chars (Preprocessor.shown inputs (max limit 1)
      ((front.foldl (Preprocessor.addLine inputs (max limit 1)) {}).addLine inputs (max limit 1) line)
      back).flatten, ?_, hfront.symm⟩
    rw [htext, hsplit, Preprocessor.shown_append, flatten_append, Token.chars_append,
      Preprocessor.shown, hshows, if_pos rfl, flatten_cons, Token.chars_append]
  · intro front back hsplit hlast
    rw [hjoined, hsplit]
    rcases eq_or_ne front [] with rfl | hne
    · exact ⟨rfl, rfl⟩
    · obtain ⟨happend, hopen, hall⟩ := joinLines_append hlast hne 0 back
      have hjoin := countBreaks_joinLines (Fed.of_append (hsplit ▸ hfed)) 0
      rw [hopen, hall] at hjoin
      exact ⟨happend, by simpa [countBreaks] using hjoin⟩

/-- A continued line with a carriage return, a branch that is left out with a comment of two lines and
a quoted text in it, and a last line without a line feed. -/
def mixedBody : String := "a \\\r\n + b;\n#if 0\n/* x\n*/ \"y\"\n#endif\nc \\"

theorem countBreaks_preprocess_mixedBody :
    (∀ line ∈ bodyLines mixedBody, Preprocessor.isDefinition line = false) ∧
      countBreaks (preprocess [] 32 mixedBody).text.toList = countBreaks mixedBody.toList := by
  have hlines : (bodyLines mixedBody).all (fun line => Preprocessor.isDefinition line == false) = true := by
    cbv
  have hquoted : (quoted (Preprocessor.leftOut [] 32 {} (bodyLines mixedBody)).flatten).all
      (fun t => !t.text.toList.contains '\n') = true := by cbv
  have h : ∀ line ∈ bodyLines mixedBody, Preprocessor.isDefinition line = false := by
    simpa using hlines
  refine ⟨h, (countBreaks_preprocess [] 32 h).1.mpr ⟨by decide, ?_⟩⟩
  simpa using hquoted

/-- A continued line at the end loses its line feed, and so does a quoted text in a branch that is not
taken. -/
theorem countBreaks_preprocess_fails :
    countBreaks (preprocess [] 32 "a\\\n").text.toList ≠ countBreaks "a\\\n".toList ∧
      countBreaks (preprocess [] 32 "#if 0\n\"x\n#endif\n").text.toList ≠
        countBreaks "#if 0\n\"x\n#endif\n".toList := by
  decide_cbv

end ShaderEffect
