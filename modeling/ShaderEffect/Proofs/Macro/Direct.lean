import Mathlib
import ShaderEffect.Proofs.Macro.Settling

/-!
# Bounded expansion

Whether macros are direct and a text applies them can be read off their tokens (`Macro.isDirect`,
`applied`). Such a text may still be cut off in the middle of brackets: it is complete up to the first
closing bracket without an opening one, and what is left at last only opens brackets (`Unclosed`).
Expansion of it settles, and its length is bounded (`expand_bounded`). A macro whose parameter stands
for its own name grows in each round (`not_expand_bounded`).
-/

namespace ShaderEffect

open Marked List

/-! ## Reading completeness off the tokens -/

/-- Each of the names stands before an opening bracket, trivia apart. -/
def applied (names : String → Bool) : List Token → Bool
  | [] => true
  | t :: ts =>
    (!t.isNameIn names || (ts.dropWhile Token.isTrivia).head?.any fun o => o.isPunct "(") &&
      applied names ts

/-- The brackets close, `depth` open ones in front of the tokens included. -/
def balanced : Nat → List Token → Bool
  | depth, [] => depth == 0
  | depth, t :: ts =>
    if t.isOpening then balanced (depth + 1) ts
    else if t.isClosing then depth != 0 && balanced (depth - 1) ts
    else balanced depth ts

/-- The body of the macro closes its brackets and applies the macros with parameters that it names, and
with parameters of its own it does not put tokens together. -/
def Macro.isDirect (table : MacroTable) (m : Macro) : Bool :=
  balanced 0 m.body && applied (without table.takesArgs (m.params.getD [])) m.body &&
    (m.params.isNone || m.body.all fun t => !t.isPunct "##")

/-- Some brackets of the list may stay open. -/
inductive Unclosed {α : Type} (tok : α → Token) (names : String → Bool) : List α → Prop
  | complete {as : List α} (h : Complete tok names as) : Unclosed tok names as
  | opening {as lead bs : List α} (h : Complete tok names as) (opening : Opens tok names lead)
      (rest : Unclosed tok names bs) : Unclosed tok names (as ++ (lead ++ bs))

section Reading

variable {names : String → Bool} {ts as bs : List Token} {d : Nat}
variable {t : Token}

theorem Complete.unclosed_append {α : Type} {tok : α → Token} {as bs : List α}
    (ha : Complete tok names as) (hb : Unclosed tok names bs) : Unclosed tok names (as ++ bs) := by
  cases hb with
  | complete h => exact .complete (ha.append h)
  | opening h ho hrest =>
    rw [← append_assoc]
    exact .opening (ha.append h) ho hrest

theorem applied_tail (h : applied names (t :: ts) = true) : applied names ts = true := by
  rw [applied, Bool.and_eq_true] at h
  exact h.2

theorem applied_of_append (h : applied names (as ++ bs) = true) : applied names bs = true := by
  induction as with
  | nil => exact h
  | cons t as ih => exact ih (applied_tail h)

theorem exists_opening_of_applied (h : applied names (t :: ts) = true)
    (ht : t.isNameIn names = true) :
    ∃ gap o rest, (∀ g ∈ gap, g.isTrivia = true) ∧ o.isPunct "(" = true ∧ ts = gap ++ o :: rest := by
  rw [applied, Bool.and_eq_true, ht, Bool.not_true, Bool.false_or] at h
  cases hdrop : ts.dropWhile Token.isTrivia with
  | nil =>
    rw [hdrop] at h
    cases h.1
  | cons o rest =>
    rw [hdrop] at h
    refine ⟨ts.takeWhile Token.isTrivia, o, rest, ?_, h.1, ?_⟩
    · exact fun g hg => all_eq_true.mp all_takeWhile g hg
    · rw [← hdrop, takeWhile_append_dropWhile]

/-- The text is complete up to a closing bracket that nothing opens, or it only opens brackets. -/
def Splits (names : String → Bool) (ts : List Token) : Prop :=
  Unclosed id names ts ∨
    ∃ as c bs, ts = as ++ c :: bs ∧ Complete id names as ∧ c.isClosing = true

theorem Complete.splits_append (ha : Complete id names as) (hb : Splits names bs) :
    Splits names (as ++ bs) := by
  rcases hb with hb | ⟨cs, c, ds, rfl, hcs, hc⟩
  · exact .inl (ha.unclosed_append hb)
  · exact .inr ⟨as ++ cs, c, ds, by simp, ha.append hcs, hc⟩

theorem splits_opened {lead rest : List Token} (ho : Opens id names lead)
    (hrest : ∀ us, us <:+ rest → Splits names us) : Splits names (lead ++ rest) := by
  rcases hrest rest suffix_rfl with h | ⟨as, c, bs, rfl, has, hc⟩
  · exact .inl (.opening .nil ho h)
  · have hbs : bs <:+ as ++ c :: bs := (suffix_cons c bs).trans (suffix_append as _)
    have hgroup : Complete id names (lead ++ (as ++ [c])) := .group ho hc has .nil
    simpa using hgroup.splits_append (hrest bs hbs)

theorem splits_of_applied (h : applied names ts = true) : Splits names ts := by
  induction hn : ts.length using Nat.strongRecOn generalizing ts with
  | _ n ih =>
    cases ts with
    | nil => exact .inl (.complete .nil)
    | cons t ts =>
      have hrest : ∀ us, us <:+ ts → Splits names us := by
        intro us hus
        have hlt : us.length < n := by
          rw [← hn, length_cons]
          exact Nat.lt_succ_of_le hus.length_le
        obtain ⟨front, hfront⟩ := hus.trans (suffix_cons t ts)
        rw [← hfront] at h
        exact ih _ hlt (applied_of_append h) rfl
      by_cases hname : t.isNameIn names = true
      · obtain ⟨gap, o, rest, hgap, ho, rfl⟩ := exists_opening_of_applied h hname
        have hlead : t :: (gap ++ o :: rest) = (t :: (gap ++ [o])) ++ rest := by simp
        rw [hlead]
        refine splits_opened (.call hname hgap ho) fun us hus => hrest us ?_
        exact hus.trans ((suffix_cons o rest).trans (suffix_append gap _))
      by_cases hopen : t.isOpening = true
      · rw [← singleton_append]
        exact splits_opened (.bracket hopen) hrest
      by_cases hclose : t.isClosing = true
      · exact .inr ⟨[], t, ts, rfl, .nil, hclose⟩
      · have ht : Complete id names [t] := .single (Bool.eq_false_iff.mpr hopen)
          (Bool.eq_false_iff.mpr hclose) (Bool.eq_false_iff.mpr hname) .nil
        exact ht.splits_append (hrest ts suffix_rfl)

theorem balanced_opening (t : Token) (h : t.isOpening = true) :
    balanced d (t :: ts) = balanced (d + 1) ts := by
  rw [balanced, if_pos h]

theorem balanced_closing (t : Token) (h : t.isClosing = true) :
    balanced (d + 1) (t :: ts) = balanced d ts := by
  rw [balanced, if_neg (by simp [Token.not_isOpening_of_isClosing h]), if_pos h]
  simp

theorem balanced_single (hopen : t.isOpening = false) (hclose : t.isClosing = false) :
    balanced d (t :: ts) = balanced d ts := by
  rw [balanced, if_neg (by simp [hopen]), if_neg (by simp [hclose])]

theorem balanced_trivia {gap : List Token} (h : ∀ g ∈ gap, g.isTrivia = true) :
    balanced d (gap ++ ts) = balanced d ts := by
  induction gap with
  | nil => rfl
  | cons g gap ih =>
    grind [Token.isTrivia_kind, balanced_single, Token.isOpening_of_kind, Token.isClosing_of_kind]

theorem balanced_opens {lead : List Token} (h : Opens id names lead) :
    balanced d (lead ++ ts) = balanced (d + 1) ts := by
  cases h with
  | @bracket o ho => exact balanced_opening o ho
  | @call t o gap hname hgap ho =>
    grind [Token.kind_of_isNameIn, balanced_single, Token.isOpening_of_kind,
        Token.isClosing_of_kind, balanced_trivia, balanced_opening, Token.isOpening_of_isPunct]

theorem Complete.balanced_append (h : Complete id names as) (d : Nat) (bs : List Token) :
    balanced d (as ++ bs) = balanced d bs := by
  induction h generalizing d bs with
  | nil => rfl
  | single hopen hclose _ _ ih => exact (balanced_single hopen hclose).trans (ih d bs)
  | @group lead inner ts c hopen hclose _ _ ihin ih =>
    rw [append_assoc, append_assoc, cons_append, balanced_opens hopen, ihin,
      balanced_closing c hclose, ih]

theorem Unclosed.not_balanced (h : Unclosed id names ts) (d : Nat) : balanced (d + 1) ts = false := by
  induction h generalizing d with
  | complete h => simpa [balanced] using h.balanced_append (d + 1) []
  | opening h ho _ ih => rw [h.balanced_append, balanced_opens ho, ih]

theorem complete_of_balanced (happlied : applied names ts = true) (hbalanced : balanced 0 ts = true) :
    Complete id names ts := by
  rcases splits_of_applied happlied with h | ⟨as, c, bs, rfl, has, hc⟩
  · cases h with
    | complete h => exact h
    | opening h ho hrest =>
      rw [h.balanced_append, balanced_opens ho, hrest.not_balanced] at hbalanced
      cases hbalanced
  · rw [has.balanced_append, balanced, if_neg (by simp [Token.not_isOpening_of_isClosing hc]),
      if_pos hc] at hbalanced
    cases hbalanced

theorem Macro.direct_of_isDirect {table : MacroTable} {m : Macro} (h : m.isDirect table = true) :
    m.Direct table := by
  simp only [Macro.isDirect, Bool.and_eq_true, Bool.or_eq_true, all_eq_true, Bool.not_eq_true',
    Option.isNone_iff_eq_none] at h
  refine ⟨complete_of_balanced h.1.2 h.1.1, fun hparams => ?_⟩
  grind

end Reading

/-! ## Text that is cut off -/

section CutOff

variable {table : MacroTable} {as bs lead ts : List Marked} {d : Nat}

theorem Opens.map_plain {names : String → Bool} {lead : List Token} (h : Opens id names lead) :
    Opens token names (lead.map plain) := by
  cases h with
  | bracket ho => exact .bracket ho
  | call hname hgap ho =>
    rw [map_cons, map_append]
    exact .call hname (by simpa [plain] using hgap) ho

theorem Complete.map_plain {names : String → Bool} {ts : List Token} (h : Complete id names ts) :
    Complete token names (ts.map plain) := by
  induction h with
  | nil => exact .nil
  | single hopen hclose hname _ ih => exact .single hopen hclose hname ih
  | group hopen hclose _ _ ihin ih =>
    rw [map_append, map_append, map_cons]
    exact .group hopen.map_plain hclose ihin ih

theorem Unclosed.map_plain {names : String → Bool} {ts : List Token} (h : Unclosed id names ts) :
    Unclosed token names (ts.map plain) := by
  induction h with
  | complete h => exact .complete h.map_plain
  | opening h ho _ ih =>
    rw [map_append, map_append]
    exact .opening h.map_plain ho.map_plain ih

theorem Closed.readArgs_append (h : Closed table as) (hb : readArgs (d + 1) bs = none) :
    readArgs (d + 1) (as ++ bs) = none := by
  cases d with
  | zero =>
    obtain ⟨f, hf⟩ := h.exists_reading
    rw [hf.read, hb, Option.map_none]
  | succ d => rw [h.taken d bs, hb, Option.map_none]

theorem readArgs_opens (ho : Opens token table.takesArgs lead) (hb : readArgs (d + 2) bs = none) :
    readArgs (d + 1) (lead ++ bs) = none := by
  have hbracket : ∀ {o : Marked}, o.token.isOpening = true → readArgs (d + 1) (o :: bs) = none := by
    intro o ho
    have hopen : o.isOpening = true := ho
    rw [readArgs, if_pos hopen, hb, Option.map_none]
  cases ho with
  | bracket ho => exact hbracket ho
  | @call t o gap hname hgap ho =>
    have hkind : t.token.kind ≠ .punct := (Token.kind_of_isNameIn hname).trans_ne (by decide)
    have htaken : Taken (d + 1) ([t] ++ gap) := (taken_of_kind hkind).append (taken_trivia hgap)
    have hcall := htaken (o :: bs)
    grind [Token.isOpening_of_isPunct]

theorem Unclosed.readArgs_eq_none (h : Unclosed token table.takesArgs ts) (d : Nat) :
    readArgs (d + 1) ts = none := by
  induction h generalizing d with
  | complete h =>
    have hnil : readArgs (d + 1) (_ ++ []) = none := Closed.readArgs_append h rfl
    rwa [append_nil] at hnil
  | opening h ho _ ih => exact Closed.readArgs_append h (readArgs_opens ho (ih (d + 1)))

theorem expandOnce_unclosed (ho : Opens token table.takesArgs lead)
    (hbs : Unclosed token table.takesArgs bs) :
    round table (lead ++ bs) = lead ++ round table bs ∧
      (Steady table (lead ++ bs) ↔ Steady table bs) := by
  have hinert : (∀ u ∈ lead, table.expands? u = none) → round table (lead ++ bs) =
      lead ++ round table bs ∧ (Steady table (lead ++ bs) ↔ Steady table bs) := by
    intro h
    rw [round, Steady, expandOnce_inert h]
    exact ⟨rfl, Iff.rfl⟩
  cases ho with
  | bracket ho =>
    exact hinert (forall_mem_singleton.mpr (expands?_punct (Token.kind_of_isOpening ho)))
  | @call t o gap hname hgap ho =>
    cases hexpands : table.expands? t with
    | none => exact hinert (forall_mem_cons.mpr ⟨hexpands, expands?_gap hgap ho⟩)
    | some m =>
      obtain ⟨params, hparams⟩ := params_of_takesArgs hexpands hname
      have hassoc : t :: (gap ++ [o]) ++ bs = t :: (gap ++ o :: bs) := by simp
      have hrest : expandOnce table (gap ++ o :: bs) = (expandOnce table bs).keep (gap ++ [o]) := by
        simpa using expandOnce_inert (expands?_gap hgap ho) bs
      rw [hassoc, round, Steady,
        expandOnce_open hexpands hparams hgap ho (hbs.readArgs_eq_none 0), hrest]
      exact ⟨rfl, Iff.rfl⟩

variable (hdirect : ∀ m ∈ table, m.Direct table)
include hdirect

theorem Unclosed.unclosed_round (h : Unclosed token table.takesArgs ts) :
    Unclosed token table.takesArgs (round table ts) := by
  induction h with
  | complete h => exact .complete (Closed.closed_round hdirect h)
  | opening h ho hrest ih =>
    rw [Closed.round_append h, (expandOnce_unclosed ho hrest).1]
    exact .opening (Closed.closed_round hdirect h) ho ih

theorem settles_unclosed (ho : Opens token table.takesArgs lead)
    (hbs : Unclosed token table.takesArgs bs) (h : Settles table bs) :
    Settles table (lead ++ bs) := by
  obtain ⟨n, hn⟩ := h
  have hiterate : Unclosed token table.takesArgs ((round table)^[n] bs) ∧
      (round table)^[n] (lead ++ bs) = lead ++ (round table)^[n] bs := by
    clear hn
    induction n with
    | zero => exact ⟨hbs, rfl⟩
    | succ n ih =>
      rw [Function.iterate_succ_apply', Function.iterate_succ_apply', ih.2]
      exact ⟨ih.1.unclosed_round hdirect, (expandOnce_unclosed ho ih.1).1⟩
  refine ⟨n, ?_⟩
  rw [hiterate.2]
  exact (expandOnce_unclosed ho hiterate.1).2.mpr hn

theorem settles_of_unclosed {ts : List Token} (h : Unclosed id table.takesArgs ts) :
    Settles table (ts.map plain) := by
  induction h with
  | complete h => exact settles_of_complete hdirect h
  | opening h ho hrest ih =>
    rw [map_append, Closed.settles_append hdirect h.map_plain, map_append]
    exact ⟨settles_of_complete hdirect h,
      settles_unclosed hdirect ho.map_plain hrest.map_plain ih⟩

/-- **Text that applies its macros settles**, wherever it is cut off. -/
theorem settles_of_applied {ts : List Token} (h : applied table.takesArgs ts = true) :
    Settles table (ts.map plain) := by
  induction hn : ts.length using Nat.strongRecOn generalizing ts with
  | _ n ih =>
    rcases splits_of_applied h with hunclosed | ⟨as, c, bs, rfl, has, hc⟩
    · exact settles_of_unclosed hdirect hunclosed
    · have hbs : applied table.takesArgs bs = true := applied_tail (applied_of_append h)
      rw [map_append, Closed.settles_append hdirect has.map_plain, map_cons,
        settles_cons (expands?_punct (Token.kind_of_isClosing hc))]
      grind [settles_of_complete]

end CutOff

/-! ## The bound -/

/-- **Direct macros expand to a bounded length.** If the bodies of the macros close their brackets and
call the macros that they name, and the text does so too, there is a length that no limit on the
rounds exceeds, and from some limit on expansion ends by itself. -/
theorem expand_bounded (table : MacroTable) (ts : List Token)
    (hmacros : ∀ m ∈ table, m.isDirect table = true) (htext : applied table.takesArgs ts = true) :
    ∃ rounds length, ∀ limit, (expand table limit ts).1.length ≤ length ∧
      (rounds ≤ limit → (expand table limit ts).1 = (expand table rounds ts).1 ∧
        ∀ passes, MacroNotice.unsettled passes ∉ (expand table limit ts).2) := by
  have hdirect : ∀ m ∈ table, m.Direct table := fun m hm => Macro.direct_of_isDirect (hmacros m hm)
  obtain ⟨n, hn⟩ := settles_of_applied hdirect htext
  let f (k : Nat) : Nat := ((round table)^[k] (ts.map plain)).length
  refine ⟨n + 1, (Finset.range (n + 1)).sup f, fun limit => ⟨?_, fun hlimit => ⟨?_, ?_⟩⟩⟩
  · rw [expand_fst, length_map]
    rcases Nat.lt_or_ge limit (n + 1) with hlt | hge
    · exact Finset.le_sup (f := f) (Finset.mem_range.mpr hlt)
    · rw [hn.iterate_of_le (Nat.le_of_succ_le hge)]
      exact Finset.le_sup (f := f) (Finset.mem_range.mpr (Nat.lt_succ_self n))
  · rw [expand_fst, expand_fst, hn.iterate_of_le (Nat.le_of_succ_le hlimit),
      hn.iterate_of_le (Nat.le_succ n)]
  · exact settled_of_steady hlimit hn

def mutualCalls : MacroTable :=
  [{ name := "A", params := some ["x"], body := Token.tokenize "B(x) + 1" },
   { name := "B", params := some ["x"], body := Token.tokenize "A (x) * K" },
   { name := "K", params := none, body := Token.tokenize "A(2)" }]

theorem expand_bounded_mutualCalls :
    ∃ rounds length, ∀ limit,
      (expand mutualCalls limit (Token.tokenize "A(B(K))) + f(A(1)")).1.length ≤ length ∧
      (rounds ≤ limit → (expand mutualCalls limit (Token.tokenize "A(B(K))) + f(A(1)")).1 =
          (expand mutualCalls rounds (Token.tokenize "A(B(K))) + f(A(1)")).1 ∧
        ∀ passes, MacroNotice.unsettled passes ∉
          (expand mutualCalls limit (Token.tokenize "A(B(K))) + f(A(1)")).2) :=
  expand_bounded mutualCalls (Token.tokenize "A(B(K))) + f(A(1)") (by decide_cbv) (by decide_cbv)

/-! ## A parameter in front of brackets -/

/-- A macro that applies its argument to itself. -/
def selfApplied : MacroTable :=
  [{ name := "F", params := some ["x"], body := Token.tokenize "x(x) 1" }]

section SelfApplied

/-- The name of the macro as it stands in the text. -/
def selfName : Marked := plain { kind := .ident, text := "F" }

/-- The call of the macro with its own name. The brackets may have come out of macros. -/
def selfCall (before after : List String) : List Marked :=
  [selfName, under before { kind := .punct, text := "(" }, selfName,
    under after { kind := .punct, text := ")" }]

def selfRest : List Marked :=
  [under ["F"] { kind := .space, text := " " }, under ["F"] { kind := .int, text := "1" }]

theorem round_selfApplied (before after : List String) {rest : List Marked}
    (h : ∀ u ∈ rest, selfApplied.expands? u = none) :
    round selfApplied (selfCall before after ++ rest) = selfCall ["F"] ["F"] ++ (selfRest ++ rest) := by
  have hexpands : selfApplied.expands? selfName =
      some { name := "F", params := some ["x"], body := Token.tokenize "x(x) 1" } := by
    decide_cbv
  have hargs : readArgs 1 (selfName :: under after { kind := .punct, text := ")" } :: rest) =
      some ({ first := [selfName], others := [] }, rest) := by
    simp [readArgs, selfName, plain, Marked.isOpening, Marked.isClosing, Token.isPunct, MacroArgs.cons]
  have hbody : substitute [("x", [selfName])] ["F"] [] false (Token.tokenize "x(x) 1") =
      selfCall ["F"] ["F"] ++ selfRest := by
    decide_cbv
  have hrest : round selfApplied rest = rest := by
    simpa [round_nil] using round_inert h []
  have hgap : ∀ g ∈ ([] : List Marked), g.isTrivia = true := forall_mem_nil _
  have hopen : (under before { kind := .punct, text := "(" }).token.isPunct "(" = true := rfl
  have hstep := expandOnce_fits hexpands rfl hgap hopen hargs rfl
  calc round selfApplied (selfCall before after ++ rest)
      = substitute [("x", [selfName])] ["F"] [] false (Token.tokenize "x(x) 1") ++
          round selfApplied rest := congrArg Round.out hstep
    _ = selfCall ["F"] ["F"] ++ (selfRest ++ rest) := by rw [hbody, hrest, append_assoc]

theorem length_iterate_selfApplied (n : Nat) (before after : List String) {rest : List Marked}
    (h : ∀ u ∈ rest, selfApplied.expands? u = none) :
    ((round selfApplied)^[n] (selfCall before after ++ rest)).length = 4 + 2 * n + rest.length := by
  induction n generalizing before after rest with
  | zero => simp [selfCall]; omega
  | succ n ih =>
    have hrest : ∀ u ∈ selfRest ++ rest, selfApplied.expands? u = none :=
      forall_mem_append.mpr ⟨by decide, h⟩
    rw [Function.iterate_succ_apply, round_selfApplied before after h, ih _ _ hrest,
      length_append]
    simp [selfRest]
    omega

/-- **Arguments are not marked**, so a macro comes back through its parameter in every round. -/
theorem not_expand_bounded :
    ¬ ∃ length, ∀ limit, (expand selfApplied limit (Token.tokenize "F(F)")).1.length ≤ length := by
  rintro ⟨length, h⟩
  have htext : (Token.tokenize "F(F)").map plain = selfCall [] [] ++ [] := by decide_cbv
  have hlength := h length
  rw [expand_fst, length_map, htext, length_iterate_selfApplied length [] [] (forall_mem_nil _)] at hlength
  simp only [length_nil] at hlength
  omega

end SelfApplied

end ShaderEffect
