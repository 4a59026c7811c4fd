import Mathlib
import ShaderEffect.Proofs.Shader.Reading
import ShaderEffect.Proofs.Wgsl.Pieces
import ShaderEffect.Shader.Parser.Program

/-!
# Reading a written expression back

The tokens of a spelled expression are read back as the expression itself. Each level of the grammar
has a predicate that says so with the calls it may need (`ReadsHead` for an operand with what follows
it, `ReadsChain` for operators, `ReadsAssignment`, `ReadsExpression`), and each node of the tree a
lemma that builds its reading from those of its operands. The parentheses of the text are exactly
what makes the operands fit: `precedence_le_of_parenthesises` and `precedence_lt_of_parenthesises`.

**`expression_wgsl`**: reading the text of a spelled expression takes all of it and gives the
expression.
-/

namespace ShaderEffect

open ShaderEffect.Token List Expr

variable {e : Expr} {p : Nat} {op : BinOp} {t : Token} {ts : List Token}

namespace Parser

variable {us : List Token}

/-! ## Levels of the grammar

A reader of `ts` gets eight calls for each token and some for its own level. The loops that carry an
operand along give up at most one call for each token. -/

/-- An operand, after which the loop over members, elements and steps goes on. -/
def ReadsHead (ts : List Token) (e : Expr) : Prop :=
  ∀ n us, 8 * ts.length ≤ n → headIs (·.isPunct "(") us = false →
    ∃ m, n ≤ m + ts.length ∧ Leads (primary n >>= postfixTail n) (postfixTail m e) ts us

def ReadsOperand (ts : List Token) (e : Expr) : Prop :=
  ∀ n us, 8 * ts.length + 1 ≤ n → headIs extendsOperand us = false →
    Leads (unary n) (Pure.pure e) ts us

/-- Operands joined by operators of strength `p` and more, after which the loop over operators goes
on. -/
def ReadsChain (p : Nat) (ts : List Token) (e : Expr) : Prop :=
  ∀ n k us, 8 * ts.length + 2 ≤ n → k ≤ p → headIs (extendsBinary (p + 1)) us = false →
    ∃ m, n ≤ m + ts.length ∧ Leads (binary n k) (binaryTail m k e) ts us

/-- What may stand on the left of an assignment. -/
def ReadsConditional (ts : List Token) (e : Expr) : Prop :=
  ∀ n us, 8 * ts.length + 3 ≤ n → headIs extendsConditional us = false →
    Leads (conditional n) (Pure.pure e) ts us

def ReadsAssignment (ts : List Token) (e : Expr) : Prop :=
  ∀ n us, 8 * ts.length + 4 ≤ n → headIs extendsAssignment us = false →
    Leads (assignment n) (Pure.pure e) ts us

def ReadsExpression (ts : List Token) (e : Expr) : Prop :=
  ∀ n us, 8 * ts.length + 5 ≤ n → headIs extendsExpression us = false →
    Leads (expression n) (Pure.pure e) ts us

/-! ## Operands -/

theorem readsHead_of_primary (hne : ts ≠ [])
    (h : ∀ n us, 8 * ts.length ≤ n + 1 → headIs (·.isPunct "(") us = false → Leads (primary (n +
      1)) (Pure.pure e) ts us) : ReadsHead ts e := by
  intro n us hn hus
  have hpos : 0 < ts.length := length_pos_of_ne_nil hne
  obtain ⟨n, rfl⟩ : ∃ m, n = m + 1 := ⟨n - 1, by omega⟩
  exact ⟨n + 1, by omega, (h n us hn hus).bind (postfixTail (n + 1))⟩

theorem ReadsExpression.paren (h : ReadsExpression ts e) :
    ReadsHead (punct "(" :: (ts ++ [punct ")"])) e := by
  refine readsHead_of_primary (by simp) fun n us hn _ => leads_primary_paren (h n _ ?_ rfl)
  simp only [length_cons, length_append, length_nil] at hn
  omega

theorem ReadsHead.index {base position : Expr} (hb : ReadsHead ts base)
    (hp : ReadsExpression us position) :
    ReadsHead (ts ++ punct "[" :: (us ++ [punct "]"])) (.index base position) := by
  intro n vs hn hvs
  simp only [length_cons, length_append, length_nil] at hn ⊢
  obtain ⟨m, hm, hlead⟩ := hb n (punct "[" :: (us ++ [punct "]"]) ++ vs) (by omega) rfl
  obtain ⟨m, rfl⟩ : ∃ k, m = k + 1 := ⟨m - 1, by omega⟩
  refine ⟨m, by omega, hlead.trans (leads_postfixTail_index (hp m _ (by omega) rfl) base)⟩

theorem ReadsHead.field {base : Expr} (hb : ReadsHead ts base) (name : String) :
    ReadsHead (ts ++ [punct ".", ⟨.ident, name⟩]) (.field base name) := by
  intro n us hn hus
  simp only [length_cons, length_append, length_nil] at hn ⊢
  obtain ⟨m, hm, hlead⟩ := hb n ([punct ".", ⟨.ident, name⟩] ++ us) (by omega) rfl
  obtain ⟨m, rfl⟩ : ∃ k, m = k + 1 := ⟨m - 1, by omega⟩
  exact ⟨m, by omega, hlead.trans (leads_postfixTail_field hus m base name)⟩

theorem ReadsHead.step {operand : Expr} (h : ReadsHead ts operand) {op : UnaryOp} {sign : String}
    (hparen : (punct sign).isPunct "(" = false)
    (hstep : ∀ us n, Leads (postfixTail (n + 1) operand) (postfixTail n (.unary op operand)) [punct
      sign] us) : ReadsHead (ts ++ [punct sign]) (.unary op operand) := by
  intro n us hn _
  simp only [length_cons, length_append, length_nil] at hn ⊢
  obtain ⟨m, hm, hlead⟩ := h n ([punct sign] ++ us) (by omega) hparen
  obtain ⟨m, rfl⟩ : ∃ k, m = k + 1 := ⟨m - 1, by omega⟩
  exact ⟨m, by omega, hlead.trans (hstep us m)⟩

theorem ReadsHead.operand (h : ReadsHead (t :: ts) e) (ht : signOf t = none) :
    ReadsOperand (t :: ts) e := by
  intro n us hn hus
  obtain ⟨n, rfl⟩ : ∃ m, n = m + 1 := ⟨n - 1, by omega⟩
  have hparen : headIs (·.isPunct "(") us = false :=
    headIs_mono hus fun t ht => by simp [extendsOperand, ht]
  obtain ⟨m, hm, hlead⟩ := h n us (by omega) hparen
  simp only [length_cons] at hn hm
  obtain ⟨m, rfl⟩ : ∃ k, m = k + 1 := ⟨m - 1, by omega⟩
  exact (leads_unary_operand ht n (ts ++ us)).trans (hlead.stop (leads_postfixTail_stop hus m e))

theorem ReadsOperand.sign (h : ReadsOperand ts e) {op : UnaryOp} (ht : signOf t = some op) :
    ReadsOperand (t :: ts) (.unary op e) := by
  intro n us hn hus
  rw [length_cons] at hn
  obtain ⟨n, rfl⟩ : ∃ m, n = m + 1 := ⟨n - 1, by omega⟩
  exact leads_unary_sign ht (h n us (by omega) hus)

/-! ## Operators -/

theorem ReadsOperand.chain (h : ReadsOperand ts e) (hne : ts ≠ []) (p : Nat) :
    ReadsChain p ts e := by
  intro n k us hn _ hus
  have hpos : 0 < ts.length := length_pos_of_ne_nil hne
  obtain ⟨n, rfl⟩ : ∃ m, n = m + 1 := ⟨n - 1, by omega⟩
  have hoperand : headIs extendsOperand us = false :=
    headIs_mono hus fun t ht => by simp [extendsBinary, ht]
  exact ⟨n, by omega, leads_binary (h n us (by omega) hoperand)⟩

theorem ReadsChain.stop (h : ReadsChain p ts e) {n k : Nat} (hn : 8 * ts.length + 2 ≤ n)
    (hk : k ≤ p) (hus : headIs (extendsBinary k) us = false) :
    Leads (binary n k) (Pure.pure e) ts us := by
  have hweaker : headIs (extendsBinary (p + 1)) us = false := by
    refine headIs_mono hus fun t ht => ?_
    simp only [extendsBinary, Bool.or_eq_true, Option.any_eq_true, decide_eq_true_eq] at ht ⊢
    rcases ht with ht | ⟨op, hop, hle⟩
    · exact .inl ht
    · exact .inr ⟨op, hop, by omega⟩
  obtain ⟨m, hm, hlead⟩ := h n k us hn hk hweaker
  obtain ⟨m, rfl⟩ : ∃ j, m = j + 1 := ⟨m - 1, by omega⟩
  exact hlead.stop (leads_binaryTail_stop hus m e)

theorem extendsOperand_symbol (op : BinOp) : extendsOperand (punct op.symbol) = false := by
  cases op <;> rfl

theorem extendsBinary_symbol {k : Nat} (h : op.precedence < k) :
    extendsBinary k (punct op.symbol) = false := by
  rw [extendsBinary, extendsOperand_symbol, binOpOf_symbol]
  simpa using h

theorem ReadsChain.binary {q : Nat} (hp : op.precedence ≤ p) (hq : op.precedence < q)
    {lhs rhs : Expr} (hl : ReadsChain p ts lhs) (hr : ReadsChain q us rhs) :
    ReadsChain op.precedence (ts ++ punct op.symbol :: us) (.binary op lhs rhs) := by
  intro n k vs hn hk hvs
  simp only [length_cons, length_append] at hn ⊢
  obtain ⟨m, hm, hlead⟩ := hl n k (punct op.symbol :: us ++ vs) (by omega) (by omega)
    (extendsBinary_symbol (by omega))
  obtain ⟨m, rfl⟩ : ∃ j, m = j + 1 := ⟨m - 1, by omega⟩
  have hright := hr.stop (n := m) (by omega) hq hvs
  exact ⟨m, by omega, hlead.trans (leads_binaryTail_step hk hright lhs)⟩

theorem ReadsChain.conditional (h : ReadsChain p ts e) (hp : 1 ≤ p) : ReadsConditional ts e := by
  intro n us hn hus
  obtain ⟨n, rfl⟩ : ∃ m, n = m + 1 := ⟨n - 1, by omega⟩
  have hchain := h.stop (n := n) (by omega) hp (headIs_mono hus fun t ht => by
    simp [extendsConditional, ht])
  exact leads_conditional (headIs_mono hus fun t ht => by simp [extendsConditional, ht]) hchain

/-! ## Assignments -/

theorem ReadsConditional.assignment (h : ReadsConditional ts e) : ReadsAssignment ts e := by
  intro n us hn hus
  obtain ⟨n, rfl⟩ : ∃ m, n = m + 1 := ⟨n - 1, by omega⟩
  have hnone : us.head?.bind assignmentOf = none := by
    cases us with
    | nil => rfl
    | cons t us =>
      rw [headIs_cons, extendsAssignment, Bool.or_eq_false_iff] at hus
      simpa using hus.2
  refine leads_assignment_none hnone (h n us (by omega) ?_)
  exact headIs_mono hus fun t ht => by simp [extendsAssignment, ht]

theorem ReadsAssignment.assign {op : Option BinOp} (ht : assignmentOf t = some op)
    (hcond : extendsConditional t = false) {lhs rhs : Expr} (hl : ReadsConditional ts lhs)
    (hr : ReadsAssignment us rhs) : ReadsAssignment (ts ++ t :: us) (.assign op lhs rhs) := by
  intro n vs hn hvs
  simp only [length_cons, length_append] at hn
  obtain ⟨n, rfl⟩ : ∃ m, n = m + 1 := ⟨n - 1, by omega⟩
  exact leads_assignment_some ht (hl n _ (by omega) hcond) (hr n vs (by omega) hvs)

theorem ReadsAssignment.expression (h : ReadsAssignment ts e) : ReadsExpression ts e := by
  intro n us hn hus
  obtain ⟨n, rfl⟩ : ∃ m, n = m + 1 := ⟨n - 1, by omega⟩
  refine leads_expression_single (headIs_mono hus fun t ht => ?_) (h n us (by omega) ?_)
  · simp [extendsExpression, ht]
  · exact headIs_mono hus fun t ht => by simp [extendsExpression, ht]

end Parser

namespace Expr

open ShaderEffect.Parser

/-! ## The tokens that are read -/

/-- The tokens without the trivia among them. -/
def solid (ts : List Token) : List Token :=
  ts.filter fun t => !t.isTrivia

@[simp] theorem solid_nil : solid [] = [] := rfl

@[simp] theorem solid_append (ts us : List Token) : solid (ts ++ us) = solid ts ++ solid us :=
  filter_append ..

@[simp] theorem solid_space (ts : List Token) : solid (space :: ts) = solid ts := rfl

@[simp] theorem solid_punct (text : String) (ts : List Token) :
    solid (punct text :: ts) = punct text :: solid ts := rfl

@[simp] theorem solid_word (text : String) (ts : List Token) :
    solid (word text :: ts) = word text :: solid ts := rfl

@[simp] theorem solid_wrapPieces (parens : Bool) (ts : List Token) :
    solid (wrapPieces parens ts) = wrapPieces parens (solid ts) := by
  cases parens <;> simp [wrapPieces]

/-- The tokens of an expression that are read. -/
def lexemes (e : Expr) : List Token :=
  solid e.pieces

/-- The tokens of expressions, each after a comma. -/
def commaLexemes (es : List Expr) : List Token :=
  es.flatMap fun e => punct "," :: e.lexemes

theorem solid_piecesList_cons (e : Expr) :
    ∀ es : List Expr, solid (piecesList (e :: es)) = e.lexemes ++ commaLexemes es
  | [] => (append_nil _).symm
  | f :: es => by
    have htail := solid_piecesList_cons f es
    simp only [piecesList, solid_append, solid_punct, solid_space, htail]
    rfl

theorem Opens.solid (h : Opens t) : t.isTrivia = false ∧ signOf t = none ∧
    t.isIdent "void" = false ∧ t.isPunct ")" = false := by
  obtain ⟨kind, text⟩ := t
  rcases h with ⟨rfl, -, hvoid⟩ | ⟨rfl, -⟩ | ⟨rfl, -⟩ | h
  · exact ⟨rfl, rfl, by simpa [isIdent] using hvoid, rfl⟩
  · exact ⟨rfl, rfl, rfl, rfl⟩
  · exact ⟨rfl, rfl, rfl, rfl⟩
  · cases h
    exact ⟨rfl, rfl, rfl, rfl⟩

theorem Begins.solid (h : Begins t) : t.isTrivia = false ∧
    t.isIdent "void" = false ∧ t.isPunct ")" = false := by
  rcases h with h | rfl | rfl | rfl
  · exact ⟨h.solid.1, h.solid.2.2⟩
  all_goals exact ⟨rfl, rfl, rfl⟩

theorem Starts.solid {ok : Token → Prop} (hok : ∀ t, ok t → t.isTrivia = false) (h : Starts ok ts) :
    Starts ok (Expr.solid ts) := by
  obtain ⟨t, us, rfl, ht⟩ := h
  exact ⟨t, solid us, by simp [solid, hok t ht], ht⟩

/-! ## Lists -/

theorem leads_argTail : ∀ {es : List Expr}, es ≠ [] → (∀ e ∈ es, ReadsAssignment e.lexemes e) →
    ∀ {n : Nat} (us : List Token), 8 * (solid (piecesList es)).length + 5 ≤ n →
      Leads (argTail n) (Pure.pure es) (solid (piecesList es) ++ [punct ")"]) us
  | [], hne, _, _, _, _ => absurd rfl hne
  | [e], _, h, n, us, hn => by
    obtain ⟨n, rfl⟩ : ∃ m, n = m + 1 := ⟨n - 1, by omega⟩
    exact leads_argTail_last (h e (mem_cons_self ..) n _ (by
      simp only [piecesList, lexemes] at hn ⊢; omega) rfl)
  | e :: f :: es, _, h, n, us, hn => by
    obtain ⟨n, rfl⟩ : ∃ m, n = m + 1 := ⟨n - 1, by omega⟩
    have hpieces : solid (piecesList (e :: f :: es)) =
        e.lexemes ++ punct "," :: solid (piecesList (f :: es)) := by
      simp [piecesList, lexemes]
    rw [hpieces] at hn ⊢
    simp only [length_append, length_cons] at hn
    have htail := leads_argTail (cons_ne_nil f es)
      (fun x hx => h x (mem_cons_of_mem e hx)) us (n := n) (by omega)
    rw [append_assoc, cons_append]
    exact leads_argTail_cons (h e (mem_cons_self ..) n _ (by omega) rfl) htail

theorem leads_commaTail : ∀ {es : List Expr}, (∀ e ∈ es, ReadsAssignment e.lexemes e) →
    ∀ {n : Nat} {us : List Token}, 8 * (commaLexemes es).length + 1 ≤ n →
      headIs extendsExpression us = false →
      Leads (commaTail n) (Pure.pure es) (commaLexemes es) us
  | [], _, n, us, hn, hus => by
    obtain ⟨n, rfl⟩ : ∃ m, n = m + 1 := ⟨n - 1, by omega⟩
    exact leads_commaTail_nil (headIs_mono hus fun t ht => by simp [extendsExpression, ht]) n
  | e :: es, h, n, us, hn, hus => by
    obtain ⟨n, rfl⟩ : ∃ m, n = m + 1 := ⟨n - 1, by omega⟩
    have hlex : commaLexemes (e :: es) = punct "," :: (e.lexemes ++ commaLexemes es) := rfl
    rw [hlex] at hn ⊢
    simp only [length_append, length_cons] at hn
    have htail := leads_commaTail (fun x hx => h x (mem_cons_of_mem e hx)) (n := n)
      (by omega) hus
    refine leads_commaTail_cons (h e (mem_cons_self ..) n _ (by omega) ?_) htail
    cases es with
    | nil => exact headIs_mono hus fun t ht => by simp [extendsExpression, ht]
    | cons => rfl

theorem readsExpression_comma {items : List Expr} (hlen : 2 ≤ items.length)
    (h : ∀ e ∈ items, ReadsAssignment e.lexemes e) :
    ReadsExpression (solid (piecesList items)) (.comma items) := by
  intro n us hn hus
  obtain ⟨n, rfl⟩ : ∃ m, n = m + 1 := ⟨n - 1, by omega⟩
  obtain ⟨e, f, es, rfl⟩ : ∃ e f es, items = e :: f :: es := by
    match items, hlen with
    | e :: f :: es, _ => exact ⟨e, f, es, rfl⟩
  rw [solid_piecesList_cons] at hn ⊢
  rw [length_append] at hn
  have htail : Leads (commaTail n) (Pure.pure (f :: es)) (commaLexemes (f :: es)) us :=
    leads_commaTail (fun x hx => h x (mem_cons_of_mem e hx)) (by omega) hus
  exact leads_expression_comma (h e (mem_cons_self ..) n _ (by omega) rfl) htail

theorem readsHead_call {name : String} (hname : IsName name) {args : List Expr}
    (hspelled : ∀ e ∈ args, e.Spelled) (h : ∀ e ∈ args, ReadsAssignment e.lexemes e) :
    ReadsHead (word name :: punct "(" :: (solid (piecesList args) ++ [punct ")"]))
      (.call name args) := by
  refine readsHead_of_primary (by simp) fun n us hn _ => ?_
  simp only [length_cons, length_append, length_nil] at hn
  obtain ⟨n, rfl⟩ : ∃ m, n = m + 1 := ⟨n - 1, by omega⟩
  refine leads_primary_call hname.ne_true hname.ne_false hname.not_type ?_
  cases args with
  | nil => exact leads_callArgs_nil n us
  | cons e es =>
    obtain ⟨t, ts, hts, ht⟩ : Starts Begins (solid (piecesList (e :: es))) := by
      rw [solid_piecesList_cons]
      have hstart := (starts_pieces (hspelled e (mem_cons_self ..))).1
      exact (hstart.solid fun t ht => ht.solid.1).append _
    refine leads_callArgs ?_ ?_ (leads_argTail (cons_ne_nil e es) h us (by omega))
    · rw [hts]
      exact ht.solid.2.1
    · rw [hts]
      exact ht.solid.2.2

/-! ## Parentheses -/

/-- The strength of an expression that is no assignment; operands bind tighter than operators. -/
def strength : Expr → Nat
  | .binary op _ _ => op.precedence
  | _ => 12

theorem one_le_precedence (op : BinOp) : 1 ≤ op.precedence := by
  cases op <;> decide

theorem one_le_strength (e : Expr) : 1 ≤ e.strength := by
  cases e with
  | binary op => exact one_le_precedence op
  | _ => exact Nat.le_add_left 1 11

theorem precedence_le_of_separates {parent child : BinOp}
    (h : parent.separates child .left = false) : parent.precedence ≤ child.precedence := by
  revert h
  cases parent <;> cases child <;> decide

theorem precedence_lt_of_separates {parent child : BinOp}
    (h : parent.separates child .right = false) : parent.precedence < child.precedence := by
  revert h
  cases parent <;> cases child <;> decide

theorem precedence_lt_twelve (op : BinOp) : op.precedence < 12 := by
  cases op <;> decide

/-- **A left operand without parentheses binds at least as tightly as its operator.** -/
theorem precedence_le_of_parenthesises (h : op.parenthesises e .left = false) :
    op.precedence ≤ e.strength := by
  cases e with
  | binary child => exact precedence_le_of_separates h
  | _ => exact Nat.le_of_lt (precedence_lt_twelve op)

/-- **A right operand without parentheses binds more tightly than its operator.** -/
theorem precedence_lt_of_parenthesises (h : op.parenthesises e .right = false) :
    op.precedence < e.strength := by
  cases e with
  | binary child => exact precedence_lt_of_separates h
  | _ => exact precedence_lt_twelve op

theorem isAssign_of_parenthesises {side : Side} (h : op.parenthesises e side = false) :
    e.isAssign = false := by
  cases e with
  | assign => cases h
  | _ => rfl

/-! ## Every spelled expression -/

/-- How an expression is read at each level that its form admits. -/
structure Reading (e : Expr) : Prop where
  head : e.isPrimary = true → ReadsHead e.lexemes e
  chain : e.isAssign = false → ReadsChain e.strength e.lexemes e
  assignment : ReadsAssignment e.lexemes e

theorem Reading.of_chain (hhead : e.isPrimary = true → ReadsHead e.lexemes e)
    (h : ReadsChain e.strength e.lexemes e) : Reading e :=
  ⟨hhead, fun _ => h, (h.conditional (one_le_strength e)).assignment⟩

theorem Reading.of_head (hstart : Starts Opens e.lexemes) (h : ReadsHead e.lexemes e) :
    Reading e := by
  obtain ⟨t, ts, hts, ht⟩ := hstart
  refine .of_chain (fun _ => h) ?_
  rw [hts] at h ⊢
  exact (h.operand ht.solid.2.1).chain (cons_ne_nil _ _) _

theorem Reading.operand (h : Reading e) : ReadsHead (wrapPieces (!e.isPrimary) e.lexemes) e := by
  cases hp : e.isPrimary with
  | true => exact h.head hp
  | false => exact h.assignment.expression.paren

theorem Reading.wrapped (h : Reading e) (parens : Bool) (hp : p ≤ 12)
    (hstrength : parens = false → p ≤ e.strength ∧ e.isAssign = false) :
    ∃ q, p ≤ q ∧ ReadsChain q (wrapPieces parens e.lexemes) e := by
  cases parens with
  | true =>
    have hoperand : ReadsOperand (punct "(" :: (e.lexemes ++ [punct ")"])) e :=
      h.assignment.expression.paren.operand rfl
    exact ⟨12, hp, hoperand.chain (cons_ne_nil _ _) 12⟩
  | false =>
    obtain ⟨hle, hassign⟩ := hstrength rfl
    exact ⟨e.strength, hle, h.chain hassign⟩

theorem assignmentOf_sign {sign : String} {op : Option BinOp}
    (h : (sign, op) ∈ BinOp.assignments) : assignmentOf (punct (signText op)) = some op ∧
      extendsConditional (punct (signText op)) = false := by
  simp only [BinOp.assignments, mem_cons, Prod.mk.injEq, not_mem_nil, or_false] at h
  rcases h with ⟨-, rfl⟩ | ⟨-, rfl⟩ | ⟨-, rfl⟩ | ⟨-, rfl⟩ | ⟨-, rfl⟩ | ⟨-, rfl⟩ | ⟨-, rfl⟩ |
    ⟨-, rfl⟩ | ⟨-, rfl⟩ | ⟨-, rfl⟩ | ⟨-, rfl⟩
  all_goals exact ⟨rfl, rfl⟩

/-- **Every spelled expression is read back from its tokens.** -/
theorem reading_of_spelled (h : e.Spelled) : Reading e := by
  induction e using byChildren with
  | node e ih =>
    obtain ⟨hnode, hchildren⟩ := spelled_iff.mp h
    have hreading : ∀ c ∈ e.children, Reading c := fun c hc => ih c hc (hchildren c hc)
    have hopens : e.isPrimary = true → Starts Opens e.lexemes := fun hp =>
      ((starts_pieces h).2 hp).solid fun t ht => ht.solid.1
    cases e with
    | conditional | construct | deref | addrOf => exact hnode.elim
    | int text =>
      obtain ⟨t, ht, rfl⟩ := hnode
      refine .of_head (hopens rfl) (readsHead_of_primary (cons_ne_nil _ _) ?_)
      intro n us _ _
      have hself := Literal.int_eq_self (Lexeme.intText ht)
      have hlead := leads_primary_int n (Literal.int t) us
      rw [hself] at hlead
      exact hlead
    | float text =>
      obtain ⟨t, ht, rfl⟩ := hnode
      refine .of_head (hopens rfl) (readsHead_of_primary (cons_ne_nil _ _) ?_)
      intro n us _ _
      have hself := Literal.float_eq_self (Lexeme.floatText ht)
      have hlead := leads_primary_float n (Literal.float t) us
      rw [hself] at hlead
      exact hlead
    | bool value =>
      exact .of_head (hopens rfl) (readsHead_of_primary (cons_ne_nil _ _) fun n us _ _ =>
        leads_primary_bool n value us)
    | ident name =>
      exact .of_head (hopens rfl) (readsHead_of_primary (cons_ne_nil _ _) fun n us _ hus =>
        leads_primary_ident hnode.ne_true hnode.ne_false hnode.not_type n hus)
    | unary op operand =>
      have hmem : operand ∈ (unary op operand).children := by simp [children]
      have hhead := (hreading operand hmem).operand
      obtain ⟨t, ts, hts, ht⟩ : Starts Opens (wrapPieces (!operand.isPrimary) operand.lexemes) := by
        have hstart := (starts_operand (hchildren operand hmem)).solid fun t ht => ht.solid.1
        rwa [solid_wrapPieces] at hstart
      have hlex : (unary op operand).lexemes =
          solid (piecesBefore op) ++ (wrapPieces (!operand.isPrimary) operand.lexemes ++
            solid (piecesAfter op)) := by
        simp [lexemes, pieces]
      have hsign : ∀ sign, signOf (punct sign) = some op →
          (unary op operand).lexemes = punct sign :: (t :: ts) →
            Reading (.unary op operand) := by
        intro sign hs heq
        rw [hts] at hhead
        refine .of_chain (fun hp => by cases hp) ?_
        rw [heq]
        exact ((hhead.operand ht.solid.2.1).sign hs).chain (cons_ne_nil _ _) _
      have hstep : ∀ sign, (punct sign).isPunct "(" = false →
          (∀ us n, Leads (postfixTail (n + 1) operand) (postfixTail n (.unary op operand))
            [punct sign] us) →
          (unary op operand).lexemes = wrapPieces (!operand.isPrimary) operand.lexemes ++
            [punct sign] → Reading (.unary op operand) := by
        intro sign hparen hlead heq
        refine .of_head ⟨t, ts ++ [punct sign], by rw [heq, hts]; rfl, ht⟩ ?_
        rw [heq]
        exact hhead.step hparen hlead
      simp only [SpelledNode, mem_cons, not_mem_nil, or_false] at hnode
      rcases hnode with rfl | rfl | rfl | rfl | rfl
      · exact hsign "-" rfl (by rw [hlex, hts]; simp [piecesBefore, piecesAfter])
      · exact hsign "!" rfl (by rw [hlex, hts]; simp [piecesBefore, piecesAfter])
      · exact hsign "~" rfl (by rw [hlex, hts]; simp [piecesBefore, piecesAfter])
      · exact hstep "++" rfl (fun us n => leads_postfixTail_postInc n us operand)
          (by rw [hlex]; simp [piecesBefore, piecesAfter])
      · exact hstep "--" rfl (fun us n => leads_postfixTail_postDec n us operand)
          (by rw [hlex]; simp [piecesBefore, piecesAfter])
    | binary op lhs rhs =>
      have hl := hreading lhs (by simp [children])
      have hr := hreading rhs (by simp [children])
      obtain ⟨p, hp, hlhs⟩ := hl.wrapped (op.parenthesises lhs .left)
        (Nat.le_of_lt (precedence_lt_twelve op)) fun hparens =>
          ⟨precedence_le_of_parenthesises hparens, isAssign_of_parenthesises hparens⟩
      obtain ⟨q, hq, hrhs⟩ := hr.wrapped (op.parenthesises rhs .right)
        (precedence_lt_twelve op) fun hparens =>
          ⟨precedence_lt_of_parenthesises hparens, isAssign_of_parenthesises hparens⟩
      refine .of_chain (fun hp => by cases hp) ?_
      have hlex : (binary op lhs rhs).lexemes =
          wrapPieces (op.parenthesises lhs .left) lhs.lexemes ++
            punct op.symbol :: wrapPieces (op.parenthesises rhs .right) rhs.lexemes := by
        simp [lexemes, pieces]
      rw [hlex]
      exact hlhs.binary hp hq hrhs
    | assign op lhs rhs =>
      obtain ⟨⟨sign, hsign⟩, hassign⟩ := hnode
      obtain ⟨hop, hcond⟩ := assignmentOf_sign hsign
      have hl := (hreading lhs (by simp [children])).chain hassign
      have hr := (hreading rhs (by simp [children])).assignment
      refine ⟨fun hp => (by cases hp), fun ha => (by cases ha), ?_⟩
      have hlex : (assign op lhs rhs).lexemes =
          lhs.lexemes ++ punct (signText op) :: rhs.lexemes := by
        simp [lexemes, pieces]
      rw [hlex]
      exact .assign hop hcond (hl.conditional (one_le_strength lhs)) hr
    | call name args =>
      refine .of_head (hopens rfl) ?_
      have hlex : (call name args).lexemes =
          word name :: punct "(" :: (solid (piecesList args) ++ [punct ")"]) := by
        simp [lexemes, pieces]
      rw [hlex]
      exact readsHead_call hnode hchildren fun c hc => (hreading c hc).assignment
    | field base name =>
      refine .of_head (hopens rfl) ?_
      have hlex : (field base name).lexemes =
          wrapPieces (!base.isPrimary) base.lexemes ++ [punct ".", word name] := by
        simp [lexemes, pieces]
      rw [hlex]
      exact (hreading base (by simp [children])).operand.field name
    | index base position =>
      refine .of_head (hopens rfl) ?_
      have hlex : (index base position).lexemes =
          wrapPieces (!base.isPrimary) base.lexemes ++
            punct "[" :: (position.lexemes ++ [punct "]"]) := by
        simp [lexemes, pieces]
      rw [hlex]
      exact (hreading base (by simp [children])).operand.index
        (hreading position (by simp [children])).assignment.expression
    | comma items =>
      have hlex : (comma items).lexemes =
          punct "(" :: (solid (piecesList items) ++ [punct ")"]) := by
        simp [lexemes, pieces]
      refine .of_head ⟨_, _, hlex, opens_paren⟩ ?_
      rw [hlex]
      exact (readsExpression_comma hnode fun c hc => (hreading c hc).assignment).paren

/-! ## From the text -/

theorem map_toToken_place : ∀ (ts : List Token) (line column : Nat),
    (place line column ts).map PlacedToken.toToken = ts
  | [], _, _ => rfl
  | t :: ts, line, column => by
    rw [place, map_cons, map_toToken_place ts]

theorem tokens_streamOf (source : String) : (streamOf source).tokens = solid (tokenize source) := by
  have hrest : (streamOf source).rest = (tokenizePlaced source).filter fun t => !t.isTrivia := by
    grind [streamOf, getLast?_eq_none_iff]
  rw [Stream.tokens, hrest, solid, ← map_toToken_place (tokenize source) 1 1, filter_map]
  rfl

theorem structs_streamOf (source : String) : (streamOf source).structs = [] := by
  unfold streamOf
  dsimp only
  split <;> rfl

theorem tokenize_wgsl (h : e.Spelled) : tokenize e.wgsl = e.pieces := by
  have hsep : Separate e.pieces [] :=
    separate_pieces h ⟨notNext_nil _, fun _ => notNext_nil _⟩
  have hread := tokenizeChars_of_separate hsep
  grind [chars_pieces, tokenize, tokenizeChars]

/-- **The text of an expression is read back as the expression**: for every expression of literals,
names, signs, steps, operators, assignments, calls, members, elements and commas that the grammar
can spell, reading takes all tokens of the text and gives the same tree. -/
theorem expression_wgsl {e : Expr} (h : e.Spelled) :
    expression (budget (streamOf e.wgsl)) (streamOf e.wgsl) =
      .ok (e, { streamOf e.wgsl with rest := [] }) := by
  have htokens : (streamOf e.wgsl).tokens = e.lexemes ++ [] := by
    rw [tokens_streamOf, tokenize_wgsl h, append_nil, lexemes]
  have hlength : (streamOf e.wgsl).rest.length = e.lexemes.length := by
    rw [← append_nil e.lexemes, ← htokens, Stream.tokens, length_map]
  have hread := (reading_of_spelled h).assignment.expression (budget (streamOf e.wgsl)) []
    (by unfold budget; omega) rfl (streamOf e.wgsl) (structs_streamOf _) htokens
  rw [hread, ← hlength, Stream.drop, drop_length]
  rfl

/-- Grouping that differs from the order of the operators is kept. -/
theorem expression_wgsl_nested :
    let e : Expr := .assign (some .sub) (.index (.ident "a") (.int "0"))
      (.binary .mul (.binary .sub (.ident "b") (.binary .sub (.ident "c") (.unary .postInc (.ident "i"))))
        (.unary .neg (.call "f" [.float "1.0", .comma [.ident "d", .field (.ident "e") "xy"]])))
    e.wgsl = "a[0] -= (b - (c - i++)) * -f(1.0, (d, e.xy))" ∧ e.Spelled ∧
      expression (budget (streamOf e.wgsl)) (streamOf e.wgsl) =
        .ok (e, { streamOf e.wgsl with rest := [] }) := by
  intro e
  have hmem : ∀ name ∈ ["a", "b", "c", "d", "e", "f", "i", "xy"],
      ⟨.ident, name⟩ ∈ tokenize "a b c d e f i xy" ∧ name ≠ "true" ∧ name ≠ "false" ∧
        ShaderType.ofName name = none := by decide_cbv
  have hname : ∀ name ∈ ["a", "b", "c", "d", "e", "f", "i", "xy"], IsName name := by
    intro name h
    obtain ⟨hlexeme, htrue, hfalse, htype⟩ := hmem name h
    exact ⟨⟨_, hlexeme⟩, htrue, hfalse, htype⟩
  have hmember : Lexeme .ident "xy" := (hname "xy" (by simp)).lexeme
  have hint : ∃ t, Lexeme .int t ∧ "0" = Literal.int t :=
    ⟨"0", ⟨"0", by decide_cbv⟩, by decide_cbv⟩
  have hfloat : ∃ t, Lexeme .float t ∧ "1.0" = Literal.float t :=
    ⟨"1f", ⟨"1f", by decide_cbv⟩, by decide_cbv⟩
  have hsign : ∃ sign, (sign, some BinOp.sub) ∈ BinOp.assignments := ⟨"-=", by decide⟩
  have hspelled : e.Spelled := by
    simp [e, Spelled, subexprs, subexprsAll, SpelledNode, hname, hint, hfloat, hsign, hmember,
      isAssign, isInt]
  exact ⟨by decide_cbv, hspelled, expression_wgsl hspelled⟩

end Expr

end ShaderEffect
