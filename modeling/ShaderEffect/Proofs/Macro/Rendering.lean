import Mathlib
import ShaderEffect.Proofs.Macro.Sound
import ShaderEffect.Proofs.Token.Line

/-!
# The text of a preprocessed body

Expansion works on tokens, but the reader of the grammar gets the text, where tokens that came to stand
side by side can run into one. The text has the tokens of the body exactly if these are legible one
after the other. Leaving lines out does no harm, since what stays of them are line feeds: a body whose
text uses none of the macros that it defines is legible (`legible_of_unused`).
-/

namespace ShaderEffect

open List

open Token (Legible)

variable {ts : List Token}

/-! ## Lines that stay -/

/-- All lines but the last end in a line feed. -/
inductive Ended : List (List Token) → Prop
  | nil : Ended []
  | last (line : List Token) : Ended [line]
  | line (front : List Token) {lines : List (List Token)} (rest : Ended lines) :
      Ended ((front ++ [{ kind := .newline, text := "\n" }]) :: lines)

theorem newline_of_sound {t : Token} (h : t.Sound) (hkind : t.kind = .newline) :
    t = { kind := .newline, text := "\n" } := by
  cases h with
  | line => rfl
  | blank => cases hkind
  | solid hlayout => simp [Token.isLayout, hkind] at hlayout

theorem ended_tokenLines (h : ∀ t ∈ ts, t.Sound) : Ended (tokenLines ts) := by
  fun_induction tokenLines ts with
  | case1 => exact .nil
  | case2 t ts hkind ih =>
    rw [newline_of_sound (h t mem_cons_self) (beq_iff_eq.mp hkind)]
    exact .line [] (ih fun u hu => h u (mem_cons_of_mem t hu))
  | case3 t ts _ _ _ => exact .last [t]
  | case4 t ts _ l ls hcons ih =>
    have hrest := ih fun u hu => h u (mem_cons_of_mem t hu)
    rw [hcons] at hrest
    cases hrest with
    | last => exact .last (t :: l)
    | line front hls => exact .line (t :: front) hls

/-- The tokens of the lines, each as it is or with its line feeds alone. -/
inductive Kept : List (List Token) → List Token → Prop
  | nil : Kept [] []
  | keep (line : List Token) {lines : List (List Token)} {ts : List Token} (rest : Kept lines ts) :
      Kept (line :: lines) (line ++ ts)
  | blank (line : List Token) {lines : List (List Token)} {ts : List Token} (rest : Kept lines ts) :
      Kept (line :: lines) (lineBreaks line ++ ts)

theorem Kept.append {as bs : List (List Token)} {us : List Token} (ha : Kept as ts)
    (hb : Kept bs us) : Kept (as ++ bs) (ts ++ us) := by
  induction ha with
  | nil => exact hb
  | keep line _ ih =>
    rw [append_assoc]
    exact .keep line ih
  | blank line _ ih =>
    rw [append_assoc]
    exact .blank line ih

theorem Token.Legible.of_append {as bs : List Token} (h : Legible (as ++ bs)) : Legible bs := by
  induction as with
  | nil => exact h
  | cons t as ih => exact ih h.2

theorem legible_lineBreaks (line : List Token) (h : Legible ts) :
    Legible (lineBreaks line ++ ts) := by
  unfold lineBreaks
  induction line.foldr (fun t n => t.breaks + n) 0 with
  | zero => exact h
  | succ n ih => exact (Token.legible_cons_of_layout rfl).mpr ih

/-- **Lines can be left out without touching the tokens of the others.** -/
theorem Kept.legible {lines : List (List Token)} (h : Kept lines ts) (hended : Ended lines)
    (hlegible : Legible lines.flatten) : Legible ts := by
  induction h with
  | nil => exact hlegible
  | @keep line lines ts hkept ih =>
    cases hended with
    | last =>
      cases hkept
      simpa using hlegible
    | line front hlines =>
      have hrest : Legible ts := ih hlines hlegible.of_append
      rw [flatten_cons, append_assoc, singleton_append] at hlegible
      rw [append_assoc, singleton_append]
      exact hlegible.line rfl ((Token.legible_cons_of_layout rfl).mpr hrest)
  | @blank line lines ts hkept ih =>
    refine legible_lineBreaks line ?_
    cases hended with
    | last =>
      cases hkept
      trivial
    | line front hlines => exact ih hlines hlegible.of_append

/-! ## Macros that are not used -/

/-- The tokens of the lines that are no directives. -/
def textTokens (lines : List (List Token)) : List Token :=
  (lines.filter fun line => (Directive.ofLine? line).isNone).flatten

/-- The macros that the lines define, in whichever branch they stand. -/
def definedMacros (inputs : List String) (lines : List (List Token)) : List Macro :=
  lines.filterMap fun line =>
    match Directive.ofLine? line with
    | some (.define rest) => (readMacro inputs rest).toOption
    | _ => none

/-- No macro that the lines define stands in their text. -/
def Unused (inputs : List String) (lines : List (List Token)) : Prop :=
  ∀ m ∈ definedMacros inputs lines, ∀ t ∈ textTokens lines, t.isIdent m.name = false

theorem expand_of_unused {table : MacroTable}
    (h : ∀ m ∈ table, ∀ t ∈ ts, t.isIdent m.name = false) (limit : Nat) :
    (expand table limit ts).1 = ts := by
  have hinert : ∀ u ∈ ts.map Marked.plain, table.expands? u = none := by
    intro u hu
    obtain ⟨t, ht, rfl⟩ := mem_map.mp hu
    cases hexpands : table.expands? (Marked.plain t) with
    | none => rfl
    | some m =>
      obtain ⟨hm, hname, hkind, -⟩ := MacroTable.mem_of_expands? hexpands
      grind [Token.isIdent, Marked.plain]
  have hround : round table (ts.map Marked.plain) = ts.map Marked.plain := by
    simpa [round_nil] using round_inert hinert []
  rw [expand_fst, Function.iterate_fixed hround, map_map]
  exact map_id ts

namespace Preprocessor

/-- The text of the lines so far has not been expanded. -/
structure Plain (inputs : List String) (lines done : List (List Token)) (p : Preprocessor) : Prop where
  table : ∀ m ∈ p.table, m ∈ definedMacros inputs lines
  waiting : ∀ t ∈ p.waiting, t ∈ textTokens lines
  inactive : p.isActive = false → p.waiting = []
  kept : Kept done (p.out ++ p.waiting)

variable {inputs : List String} {lines done : List (List Token)} {p : Preprocessor}

theorem Plain.flush (hunused : Unused inputs lines) (h : p.Plain inputs lines done) (limit : Nat) :
    (p.flush limit).Plain inputs lines done where
  table := h.table
  waiting := forall_mem_nil _
  inactive := fun _ => rfl
  kept := by
    have hexpand : (expand p.table limit p.waiting).1 = p.waiting :=
      expand_of_unused (fun m hm t ht => hunused m (h.table m hm) t (h.waiting t ht)) limit
    have hout : (p.flush limit).out = p.out ++ p.waiting := congrArg (p.out ++ ·) hexpand
    have hwaiting : (p.flush limit).waiting = [] := rfl
    rw [hout, hwaiting, append_nil]
    exact h.kept

theorem Plain.blank (h : p.Plain inputs lines done) (hwaiting : p.waiting = []) (line : List Token) :
    (p.blank [line]).Plain inputs lines (done ++ [line]) where
  table := h.table
  waiting := h.waiting
  inactive := h.inactive
  kept := by
    have hkept := h.kept.append (.blank line .nil)
    grind [Preprocessor.blank]

/-- A line changes nothing in the text but for leaving lines out. -/
theorem Plain.addLine (hunused : Unused inputs lines) (h : p.Plain inputs lines done) (limit : Nat)
    {line : List Token} (hline : line ∈ lines) :
    (p.addLine inputs limit line).Plain inputs lines (done ++ [line]) := by
  cases hreads : Directive.ofLine? line with
  | some d =>
    have hflush := h.flush hunused limit
    obtain ⟨hout, hwaiting, htable⟩ := obey_cases inputs limit d (p.flush limit)
    have hnone : ((p.flush limit).obey inputs limit d).waiting = [] := hwaiting
    rw [addLine_directive hreads]
    refine Plain.blank ⟨fun m hm => ?_, ?_, fun _ => hnone, ?_⟩ hnone line
    · rcases htable m hm with hm | ⟨rest, rfl, hread⟩
      · exact h.table m hm
      · refine mem_filterMap.mpr ⟨line, hline, ?_⟩
        rw [hreads]
        simp only
        rw [hread]
        rfl
    · rw [hnone]
      exact forall_mem_nil _
    · rw [hout, hwaiting]
      exact hflush.kept
  | none =>
    cases hactive : p.isActive with
    | true =>
      rw [addLine_text hreads hactive]
      refine ⟨h.table, ?_, fun hinactive => ?_, ?_⟩
      · refine forall_mem_append.mpr ⟨h.waiting, fun t ht => ?_⟩
        exact mem_flatten.mpr ⟨line, mem_filter.mpr ⟨hline, by rw [hreads]; rfl⟩, ht⟩
      · have hsame : p.isActive = false := hinactive
        rw [hactive] at hsame
        cases hsame
      · have hkept := h.kept.append (.keep line .nil)
        rwa [append_nil, append_assoc] at hkept
    | false =>
      rw [addLine_text_inactive hreads hactive]
      exact h.blank (h.inactive hactive) line

theorem Plain.addLines (hunused : Unused inputs lines) (h : p.Plain inputs lines done) (limit : Nat)
    {rest : List (List Token)} (hrest : ∀ line ∈ rest, line ∈ lines) :
    (rest.foldl (Preprocessor.addLine inputs limit) p).Plain inputs lines (done ++ rest) := by
  induction rest generalizing p done with
  | nil => rwa [append_nil]
  | cons line rest ih =>
    have hstep := ih (h.addLine hunused limit (hrest line mem_cons_self))
      fun l hl => hrest l (mem_cons_of_mem line hl)
    rwa [append_assoc, singleton_append] at hstep

end Preprocessor

/-- **Without the use of macros no two tokens run into one.** -/
theorem legible_of_unused {inputs : List String} (limit : Nat) {body : String}
    (h : Unused inputs (tokenLines (Token.tokenize (joinContinued body)))) :
    Legible (preprocess inputs limit body).tokens := by
  have hsound : ∀ t ∈ Token.tokenize (joinContinued body), t.Sound :=
    fun t ht => Token.sound_of_mem_tokenizeChars ht
  have hempty : Preprocessor.Plain inputs (tokenLines (Token.tokenize (joinContinued body))) [] {} :=
    ⟨forall_mem_nil _, forall_mem_nil _, fun _ => rfl, .nil⟩
  have hrun := hempty.addLines h (max limit 1) fun line hline => hline
  have hkept := (hrun.flush h (max limit 1)).kept
  have hwaiting : ∀ q : Preprocessor, (q.flush (max limit 1)).waiting = [] := fun _ => rfl
  rw [hwaiting, append_nil, ← Preprocessor.out_finish, nil_append] at hkept
  refine hkept.legible (ended_tokenLines hsound) ?_
  rw [flatten_tokenLines]
  exact Token.legible_tokenizeChars _

/-! ## The text -/

theorem tokenize_text (p : Preprocessed) :
    Token.tokenize p.text = Token.tokenizeChars (Token.chars p.tokens) := by
  rw [Token.tokenize, Preprocessed.text, Token.toList_render]

/-- The text of the body has the tokens of the body, trivia apart. -/
def Preprocessed.Faithful (p : Preprocessed) : Prop :=
  Token.significant (Token.tokenize p.text) = Token.significant p.tokens

/-- **The text of a preprocessed body is read as its tokens where these are legible.** Then, and only
then, it has the same tokens up to blanks and line feeds, so it is faithful. Without comments nothing else
makes it faithful, and a body whose text uses none of the macros that it defines is legible. -/
theorem preprocess_text_tokens (inputs : List String) (limit : Nat) (body : String) :
    (Legible (preprocess inputs limit body).tokens ↔
      Token.solid (Token.tokenize (preprocess inputs limit body).text) =
        Token.solid (preprocess inputs limit body).tokens) ∧
    (Legible (preprocess inputs limit body).tokens → (preprocess inputs limit body).Faithful) ∧
    ((∀ t ∈ (preprocess inputs limit body).tokens, t.kind ≠ .comment) →
      (preprocess inputs limit body).Faithful → Legible (preprocess inputs limit body).tokens) ∧
    (Unused inputs (tokenLines (Token.tokenize (joinContinued body))) →
      Legible (preprocess inputs limit body).tokens) := by
  have hsound := sound_tokens inputs limit body
  unfold Preprocessed.Faithful
  rw [tokenize_text]
  exact ⟨Token.legible_iff hsound, Token.significant_of_legible hsound,
    Token.legible_of_significant hsound, legible_of_unused limit⟩

/-- The minus before the macro and the one that the macro starts with run into a decrement. -/
theorem not_faithful_minus :
    ¬ (preprocess [] 32 "#define N -1\nfloat a = -N;\n").Faithful := by
  unfold Preprocessed.Faithful
  decide_cbv

end ShaderEffect
