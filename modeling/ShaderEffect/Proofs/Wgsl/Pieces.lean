import ShaderEffect.Proofs.Shader.Literal
import ShaderEffect.Proofs.Tree
import ShaderEffect.Wgsl.Expr

/-!
# The tokens of a written expression

`Spelled` describes the expressions that the source grammar can spell. The text of such an
expression consists of the tokens `pieces` (`chars_pieces`), blanks included, and the tokens are cut
apart at these places again (`separate_pieces`), whatever follows that does not go on with the last
one.
-/

namespace ShaderEffect

open ShaderEffect.Text ShaderEffect.Token List Expr

variable {t : String}

/-- Some source text has a token of the given kind and text. -/
def Lexeme (kind : TokenKind) (text : String) : Prop :=
  ∃ source, ⟨kind, text⟩ ∈ tokenize source

/-- A name that is read as a variable or a function: neither a truth value nor a type. -/
structure IsName (name : String) : Prop where
  lexeme : Lexeme .ident name
  ne_true : name ≠ "true"
  ne_false : name ≠ "false"
  not_type : ShaderType.ofName name = none

theorem Lexeme.intText (h : Lexeme .int t) : Literal.IntText (Literal.int t) := by
  obtain ⟨source, hmem⟩ := h
  exact Literal.intText_int ((form_of_mem_tokenize hmem (.inl rfl)).1 rfl)

theorem Lexeme.floatText (h : Lexeme .float t) : Literal.FloatText (Literal.float t) := by
  obtain ⟨source, hmem⟩ := h
  exact Literal.floatText_float ((form_of_mem_tokenize hmem (.inr rfl)).2 rfl)

theorem Lexeme.isWord (h : Lexeme .ident t) : IsWord t := by
  obtain ⟨source, hmem⟩ := h
  exact isWord_of_mem_tokenize hmem rfl

namespace Expr

variable {ts : List Token} {rest : List Char} {e : Expr} {ok : Token → Prop}

def isAssign : Expr → Bool
  | .assign _ _ _ => true
  | _ => false

def isInt : Expr → Bool
  | .int _ => true
  | _ => false

/-- The node can be written and read back: its texts are those of the tree, its operator has a
spelling of its own, and its operands are such that the grammar has a place for them. -/
def SpelledNode : Expr → Prop
  | .int text => ∃ t, Lexeme .int t ∧ text = Literal.int t
  | .float text => ∃ t, Lexeme .float t ∧ text = Literal.float t
  | .bool _ => True
  | .ident name => IsName name
  | .unary op _ => op ∈ [.neg, .not, .bitNot, .postInc, .postDec]
  | .binary op _ _ => op ≠ .xor
  | .assign op lhs _ => (∃ sign, (sign, op) ∈ BinOp.assignments) ∧ lhs.isAssign = false
  | .call name _ => IsName name
  | .field base name => Lexeme .ident name ∧ base.isInt = false
  | .index _ _ => True
  | .comma items => 2 ≤ items.length
  | .conditional _ _ _ | .construct _ _ | .deref _ | .addrOf _ => False

/-- Every node of the expression can be written and read back. -/
def Spelled (e : Expr) : Prop :=
  ∀ x ∈ e.subexprs, x.SpelledNode

theorem spelled_iff : e.Spelled ↔ e.SpelledNode ∧ ∀ c ∈ e.children, c.Spelled :=
  forall_subexprs_iff

/-! ## The tokens -/

def word (text : String) : Token := ⟨.ident, text⟩

/-- Puts the tokens in parentheses if asked to. -/
def wrapPieces (parens : Bool) (ts : List Token) : List Token :=
  if parens then punct "(" :: (ts ++ [punct ")"]) else ts

/-- The sign before the operand of a unary operator. -/
def piecesBefore : UnaryOp → List Token
  | .neg => [punct "-"]
  | .not => [punct "!"]
  | .bitNot => [punct "~"]
  | _ => []

/-- The sign after the operand of a unary operator. -/
def piecesAfter : UnaryOp → List Token
  | .preInc | .postInc => [punct "++"]
  | .preDec | .postDec => [punct "--"]
  | _ => []

/-- The sign of an assignment without the blanks around it. -/
def signText : Option BinOp → String
  | some op => op.symbol ++ "="
  | none => "="

mutual

def pieces : Expr → List Token
  | .int text => [⟨.int, text⟩]
  | .float text => [⟨.float, text⟩]
  | .bool value => [word (if value then "true" else "false")]
  | .ident name => [word name]
  | .unary op operand =>
    piecesBefore op ++ (wrapPieces (!operand.isPrimary) operand.pieces ++ piecesAfter op)
  | .binary op lhs rhs =>
    wrapPieces (op.parenthesises lhs .left) lhs.pieces ++
      space :: punct op.symbol :: space :: wrapPieces (op.parenthesises rhs .right) rhs.pieces
  | .assign op lhs rhs => lhs.pieces ++ space :: punct (signText op) :: space :: rhs.pieces
  | .call name args => word name :: punct "(" :: (piecesList args ++ [punct ")"])
  | .field base name => wrapPieces (!base.isPrimary) base.pieces ++ [punct ".", word name]
  | .index base position =>
    wrapPieces (!base.isPrimary) base.pieces ++ punct "[" :: (position.pieces ++ [punct "]"])
  | .comma items => punct "(" :: (piecesList items ++ [punct ")"])
  | .conditional _ _ _ | .construct _ _ | .deref _ | .addrOf _ => []

/-- The tokens of expressions, separated by commas. -/
def piecesList : List Expr → List Token
  | [] => []
  | [e] => e.pieces
  | e :: es => e.pieces ++ punct "," :: space :: piecesList es

end

theorem chars_wrapPieces (parens : Bool) {text : String} (h : chars ts = text.toList) :
    chars (wrapPieces parens ts) = (wrap parens text).toList := by
  cases parens <;> simp [wrapPieces, wrap, h, punct]

theorem chars_piecesList : ∀ {es : List Expr}, (∀ e ∈ es, chars e.pieces = e.wgsl.toList) →
    chars (piecesList es) = (wgslList es).toList
  | [], _ => by simp [piecesList, wgslList]
  | [e], h => by simpa [piecesList, wgslList] using h
  | e :: f :: es, h => by
    have htail := chars_piecesList fun x hx => h x (mem_cons_of_mem e hx)
    simp [piecesList, wgslList, h e (mem_cons_self ..), htail, punct, space]

/-- **The text of a spelled expression is the text of its tokens.** -/
theorem chars_pieces (h : e.Spelled) : chars e.pieces = e.wgsl.toList := by
  induction e using byChildren with
  | node e ih =>
    obtain ⟨hnode, hchildren⟩ := spelled_iff.mp h
    have hc : ∀ c ∈ e.children, chars c.pieces = c.wgsl.toList := fun c hc => ih c hc (hchildren c hc)
    cases e with
    | conditional | construct | deref | addrOf => exact hnode.elim
    | int | float | bool | ident => simp [pieces, wgsl, word]
    | unary op operand =>
      have hw := chars_wrapPieces (!operand.isPrimary) (hc operand (by simp [children]))
      cases op <;> simp [pieces, wgsl, piecesBefore, piecesAfter, signBefore, signAfter, hw, punct]
    | binary op lhs rhs =>
      have hl := chars_wrapPieces (op.parenthesises lhs .left)
        (hc lhs (by simp [children]))
      have hr := chars_wrapPieces (op.parenthesises rhs .right)
        (hc rhs (by simp [children]))
      have hop : op.wgsl = op.symbol := if_neg (by simpa [SpelledNode] using hnode)
      simp [pieces, wgsl, hl, hr, hop, punct, space]
    | assign op lhs rhs =>
      have hl := hc lhs (by simp [children])
      have hr := hc rhs (by simp [children])
      cases op <;> simp [pieces, wgsl, assignSign, signText, hl, hr, punct, space]
    | call name args =>
      have hargs : chars (piecesList args) = (wgslList args).toList := chars_piecesList hc
      simp [pieces, wgsl, hargs, word, punct]
    | field base name =>
      have hb := chars_wrapPieces (!base.isPrimary) (hc base (by simp [children]))
      simp [pieces, wgsl, hb, word, punct]
    | index base position =>
      have hb := chars_wrapPieces (!base.isPrimary) (hc base (by simp [children]))
      have hp := hc position (by simp [children])
      simp [pieces, wgsl, hb, hp, punct]
    | comma items =>
      have hitems : chars (piecesList items) = (wgslList items).toList := chars_piecesList hc
      simp [pieces, wgsl, hitems, punct]

/-! ## First tokens -/

/-- A token at which an operand starts that needs no sign before it. -/
def Opens (t : Token) : Prop :=
  (t.kind = .ident ∧ IsWord t.text ∧ t.text ≠ "void") ∨ (t.kind = .int ∧ Literal.IntText t.text) ∨
    (t.kind = .float ∧ Literal.FloatText t.text) ∨ t = punct "("

def Begins (t : Token) : Prop :=
  Opens t ∨ t = punct "-" ∨ t = punct "!" ∨ t = punct "~"

/-- The first token satisfies `ok`. -/
def Starts (ok : Token → Prop) (ts : List Token) : Prop :=
  ∃ t us, ts = t :: us ∧ ok t

theorem Starts.append (h : Starts ok ts) (us : List Token) : Starts ok (ts ++ us) := by
  obtain ⟨t, ts, rfl, ht⟩ := h
  exact ⟨t, ts ++ us, rfl, ht⟩

theorem Starts.mono {good : Token → Prop} (h : Starts ok ts) (himp : ∀ t, ok t → good t) :
    Starts good ts := by
  obtain ⟨t, us, hts, ht⟩ := h
  exact ⟨t, us, hts, himp t ht⟩

theorem starts_wrapPieces (hopen : ok (punct "(")) {parens : Bool}
    (h : parens = false → Starts ok ts) : Starts ok (wrapPieces parens ts) := by
  cases parens with
  | true => exact ⟨punct "(", _, rfl, hopen⟩
  | false => exact h rfl

theorem opens_paren : Opens (punct "(") :=
  .inr (.inr (.inr rfl))

theorem opens_name {name : String} (h : IsName name) : Opens (word name) := by
  refine .inl ⟨rfl, h.lexeme.isWord, ?_⟩
  rintro rfl
  exact absurd h.not_type (by decide)

theorem isWord_bool (value : Bool) : IsWord (if value then "true" else "false") := by
  cases value
  · exact ⟨'f', _, rfl, rfl, all_eq_true.mp rfl⟩
  · exact ⟨'t', _, rfl, rfl, all_eq_true.mp rfl⟩

theorem opens_bool (value : Bool) : Opens (word (if value then "true" else "false")) := by
  refine .inl ⟨rfl, isWord_bool value, ?_⟩
  cases value <;> decide

theorem starts_pieces (h : e.Spelled) :
    Starts Begins e.pieces ∧ (e.isPrimary = true → Starts Opens e.pieces) := by
  induction e using byChildren with
  | node e ih =>
    obtain ⟨hnode, hchildren⟩ := spelled_iff.mp h
    have hopens : ∀ {ts}, Starts Opens ts →
        Starts Begins ts ∧ (e.isPrimary = true → Starts Opens ts) :=
      fun hts => ⟨hts.mono fun _ => .inl, fun _ => hts⟩
    have hoperand : ∀ c ∈ e.children, Starts Opens (wrapPieces (!c.isPrimary) c.pieces) := by
      grind [starts_wrapPieces, opens_paren]
    have hbegins : ∀ c ∈ e.children, Starts Begins c.pieces :=
      fun c hc => (ih c hc (hchildren c hc)).1
    cases e with
    | conditional | construct | deref | addrOf => exact hnode.elim
    | int text =>
      obtain ⟨t, ht, rfl⟩ := hnode
      exact hopens ⟨_, [], rfl, .inr (.inl ⟨rfl, ht.intText⟩)⟩
    | float text =>
      obtain ⟨t, ht, rfl⟩ := hnode
      exact hopens ⟨_, [], rfl, .inr (.inr (.inl ⟨rfl, ht.floatText⟩))⟩
    | bool value => exact hopens ⟨_, [], rfl, opens_bool value⟩
    | ident name => exact hopens ⟨_, [], rfl, opens_name hnode⟩
    | unary op operand =>
      refine ⟨?_, fun hp => by cases hp⟩
      have ho := hoperand operand (by simp [children])
      have hbefore : ∀ sign, piecesBefore op = [punct sign] → Begins (punct sign) →
          Starts Begins (pieces (.unary op operand)) := by
        intro sign hs hb
        exact ⟨punct sign, _, by rw [pieces, hs]; rfl, hb⟩
      cases op with
      | neg => exact hbefore "-" rfl (.inr (.inl rfl))
      | not => exact hbefore "!" rfl (.inr (.inr (.inl rfl)))
      | bitNot => exact hbefore "~" rfl (.inr (.inr (.inr rfl)))
      | plus | preInc | preDec | postInc | postDec => exact (ho.append _).mono fun _ => .inl
    | binary op lhs rhs =>
      refine ⟨Starts.append ?_ _, fun hp => by cases hp⟩
      exact starts_wrapPieces (.inl opens_paren) fun _ => hbegins lhs (by simp [children])
    | assign op lhs rhs =>
      exact ⟨(hbegins lhs (by simp [children])).append _, fun hp => by cases hp⟩
    | call name args => exact hopens ⟨_, _, rfl, opens_name hnode⟩
    | field base name => exact hopens ((hoperand base (by simp [children])).append _)
    | index base position => exact hopens ((hoperand base (by simp [children])).append _)
    | comma items => exact hopens ⟨_, _, rfl, opens_paren⟩

theorem starts_operand (h : e.Spelled) : Starts Opens (wrapPieces (!e.isPrimary) e.pieces) :=
  starts_wrapPieces opens_paren fun hp => (starts_pieces h).2 (by simpa using hp)

/-! ## Cutting the tokens apart -/

theorem cuts_symbol (op : BinOp) (rest : List Char) : (punct op.symbol).Cuts (' ' :: rest) := by
  cases op <;> exact cuts_of_measure rfl rfl

theorem cuts_sign {sign : String} {op : Option BinOp} (h : (sign, op) ∈ BinOp.assignments)
    (rest : List Char) : (punct (signText op)).Cuts (' ' :: rest) := by
  simp only [BinOp.assignments, mem_cons, Prod.mk.injEq, not_mem_nil, or_false] at h
  rcases h with ⟨-, rfl⟩ | ⟨-, rfl⟩ | ⟨-, rfl⟩ | ⟨-, rfl⟩ | ⟨-, rfl⟩ | ⟨-, rfl⟩ | ⟨-, rfl⟩ |
    ⟨-, rfl⟩ | ⟨-, rfl⟩ | ⟨-, rfl⟩ | ⟨-, rfl⟩
  all_goals exact cuts_of_measure rfl rfl

theorem cuts_closed {text : String} (h : text ∈ ["(", ")", "[", "]", ",", "~", "++", "--"])
    (rest : List Char) : (punct text).Cuts rest := by
  simp only [mem_cons, not_mem_nil, or_false] at h
  rcases h with rfl | rfl | rfl | rfl | rfl | rfl | rfl | rfl
  all_goals exact cuts_of_measure rfl rfl

theorem cuts_point (h : NotNext Char.isDigit rest) : (punct ".").Cuts rest := by
  have htext : (punct ".").text.toList = '.' :: [] := rfl
  refine cuts_of_measure htext ?_
  have hnum : startsNumber ('.' :: rest) = false := by
    cases rest with
    | nil => rfl
    | cons c cs => exact notNext_cons.mp h
  rw [nil_append, measure_of_solid (by decide) rfl (by decide), if_neg (by decide), hnum]
  rfl

theorem cuts_minus (h : NotNext (fun c => c == '-' || c == '=') rest) : (punct "-").Cuts rest := by
  have htext : (punct "-").text.toList = '-' :: [] := rfl
  refine cuts_of_measure htext ?_
  cases rest with
  | nil => rfl
  | cons c cs =>
    have hc := notNext_cons.mp h
    rw [Bool.or_eq_false_iff, beq_eq_false_iff_ne, beq_eq_false_iff_ne] at hc
    have hat : punctuatorAt ('-' :: c :: cs) = some "-" := by
      simp [punctuatorAt, punctuators, hc.1.symm, hc.2.symm]
    rw [nil_append, measure_of_solid (by decide) rfl (by decide), if_neg (by decide), hat]
    rfl

theorem cuts_not (h : NotNext (· == '=') rest) : (punct "!").Cuts rest := by
  have htext : (punct "!").text.toList = '!' :: [] := rfl
  refine cuts_of_measure htext ?_
  cases rest with
  | nil => rfl
  | cons c cs =>
    have hc := notNext_cons.mp h
    rw [beq_eq_false_iff_ne] at hc
    have hat : punctuatorAt ('!' :: c :: cs) = some "!" := by
      simp [punctuatorAt, punctuators, hc.symm]
    rw [nil_append, measure_of_solid (by decide) rfl (by decide), if_neg (by decide), hat]
    rfl

/-- The characters that an operand without sign never starts with. -/
def isBarred (c : Char) : Bool :=
  isInlineBlank c || c == '-' || c == '='

theorem Opens.head {t : Token} (h : Opens t) : ∃ c cs, t.text.toList = c :: cs ∧
    (isWordStart c = true ∨ c.isDigit = true ∨ c = '.' ∨ c = '(') := by
  rcases h with ⟨-, hword, -⟩ | ⟨-, hint⟩ | ⟨-, hfloat⟩ | rfl
  · obtain ⟨c, cs, htext, hc, -⟩ := hword
    exact ⟨c, cs, htext, .inl hc⟩
  · obtain ⟨c, cs, htext, hc⟩ := hint.head
    exact ⟨c, cs, htext, .inr (.inl hc)⟩
  · obtain ⟨c, cs, htext, hc⟩ := hfloat.head
    exact ⟨c, cs, htext, .inr (hc.imp_right .inl)⟩
  · exact ⟨'(', [], rfl, .inr (.inr (.inr rfl))⟩

theorem Starts.notNext_barred (h : Starts Opens ts) (rest : List Char) :
    NotNext isBarred (chars ts ++ rest) := by
  obtain ⟨t, us, rfl, ht⟩ := h
  obtain ⟨c, cs, htext, hc⟩ := ht.head
  rw [chars_cons, htext]
  refine notNext_cons.mpr (Bool.eq_false_iff.mpr fun hb => ?_)
  simp only [isBarred, isInlineBlank, Bool.or_eq_true, beq_iff_eq] at hb
  rcases hb with ((((rfl | rfl) | rfl) | rfl) | rfl) | rfl
  all_goals exact absurd hc (by decide)

theorem Starts.notNext_blank (h : Starts Begins ts) (rest : List Char) :
    NotNext isInlineBlank (chars ts ++ rest) := by
  obtain ⟨t, us, rfl, ht | rfl | rfl | rfl⟩ := h
  · have hopens : Starts Opens (t :: us) := ⟨t, us, rfl, ht⟩
    exact (hopens.notNext_barred rest).mono fun c hc => by simp [isBarred, hc]
  all_goals exact notNext_cons.mpr rfl

/-- A point after the expression does not become part of it. -/
def takesPoint (e : Expr) : Bool :=
  e.isPrimary && !e.isInt

/-- The last token of the expression is not continued by what follows. -/
structure Quiet (e : Expr) (rest : List Char) : Prop where
  word : NotNext isWordRest rest
  point : e.takesPoint = false → NotNext (· == '.') rest

theorem quiet_cons {c : Char} (hword : isWordRest c = false) (hpoint : c ≠ '.') (e : Expr)
    (rest : List Char) : Quiet e (c :: rest) :=
  ⟨notNext_cons.mpr hword, fun _ => notNext_cons.mpr (by simpa using hpoint)⟩

theorem separate_wrapPieces {parens : Bool} (htrue : Separate ts (')' :: rest))
    (hfalse : parens = false → Separate ts rest) : Separate (wrapPieces parens ts) rest := by
  cases parens with
  | true => exact ⟨cuts_closed (by simp) _, separate_append.mpr ⟨htrue, cuts_closed (by simp) _, trivial⟩⟩
  | false => exact hfalse rfl

theorem separate_piecesList (hword : NotNext isWordRest rest) (hpoint : NotNext (· == '.') rest) :
    ∀ {es : List Expr}, (∀ e ∈ es, e.Spelled) →
      (∀ e ∈ es, ∀ rest, Quiet e rest → Separate e.pieces rest) → Separate (piecesList es) rest
  | [], _, _ => trivial
  | [e], _, h => h e (mem_cons_self ..) rest ⟨hword, fun _ => hpoint⟩
  | e :: f :: es, hs, h => by
    have htail := separate_piecesList hword hpoint (fun x hx => hs x (mem_cons_of_mem e hx))
      fun x hx => h x (mem_cons_of_mem e hx)
    have hf : Starts Begins (piecesList (f :: es)) := by
      have hstart := (starts_pieces (hs f (by simp))).1
      cases es with
      | nil => exact hstart
      | cons => exact hstart.append _
    refine separate_append.mpr ⟨h e (mem_cons_self ..) _ (quiet_cons rfl (by decide) _ _), ?_⟩
    exact ⟨cuts_closed (by simp) _, cuts_space (hf.notNext_blank _), htail⟩

/-- **The tokens of a spelled expression are cut apart again.** -/
theorem separate_pieces (h : e.Spelled) (hrest : Quiet e rest) : Separate e.pieces rest := by
  induction e using byChildren generalizing rest with
  | node e ih =>
    obtain ⟨hnode, hchildren⟩ := spelled_iff.mp h
    have hsep : ∀ c ∈ e.children, ∀ rest, Quiet c rest → Separate c.pieces rest :=
      fun c hc _ => ih c hc (hchildren c hc)
    -- An operand is closed by its parenthesis, or it is primary and only an integer minds a point.
    have hoperand : ∀ c ∈ e.children, ∀ rest, NotNext isWordRest rest →
        (c.isInt = true → NotNext (· == '.') rest) →
        Separate (wrapPieces (!c.isPrimary) c.pieces) rest := by
      intro c hc rest hword hint
      refine separate_wrapPieces (hsep c hc _ (quiet_cons rfl (by decide) _ _)) fun hp => ?_
      refine hsep c hc _ ⟨hword, fun hpoint => hint ?_⟩
      simpa [takesPoint, (by simpa using hp : c.isPrimary = true)] using hpoint
    have hquiet : e.takesPoint = false → ∀ c, Quiet c rest :=
      fun hp _ => ⟨hrest.word, fun _ => hrest.point hp⟩
    cases e with
    | conditional | construct | deref | addrOf => exact hnode.elim
    | int text =>
      obtain ⟨t, ht, rfl⟩ := hnode
      exact ⟨Literal.cuts_int (Lexeme.intText ht) hrest.word (hrest.point rfl), trivial⟩
    | float text =>
      obtain ⟨t, ht, rfl⟩ := hnode
      exact ⟨Literal.cuts_float (Lexeme.floatText ht) hrest.word, trivial⟩
    | bool value =>
      exact ⟨cuts_word (isWord_bool value) hrest.word, trivial⟩
    | ident name => exact ⟨cuts_word hnode.lexeme.isWord hrest.word, trivial⟩
    | unary op operand =>
      have hmem : operand ∈ (unary op operand).children := by simp [children]
      have hbarred := (starts_operand (hchildren operand hmem)).notNext_barred
      have hop := hoperand operand hmem rest hrest.word fun _ => hrest.point rfl
      simp only [SpelledNode, mem_cons, not_mem_nil, or_false] at hnode
      rcases hnode with rfl | rfl | rfl | rfl | rfl
      · simp only [pieces, piecesBefore, piecesAfter, append_nil, singleton_append]
        exact ⟨cuts_minus ((hbarred _).mono fun c hc => by simp_all [isBarred, or_assoc]), hop⟩
      · simp only [pieces, piecesBefore, piecesAfter, append_nil, singleton_append]
        exact ⟨cuts_not ((hbarred _).mono fun c hc => by simp_all [isBarred]), hop⟩
      · simp only [pieces, piecesBefore, piecesAfter, append_nil, singleton_append]
        exact ⟨cuts_closed (by simp) _, hop⟩
      all_goals
        simp only [pieces, piecesBefore, piecesAfter, nil_append]
        refine separate_append.mpr ⟨?_, cuts_closed (by simp) _, trivial⟩
        exact hoperand operand hmem _ (notNext_cons.mpr rfl) fun _ => notNext_cons.mpr rfl
    | binary op lhs rhs =>
      have hl : lhs ∈ (binary op lhs rhs).children := by simp [children]
      have hr : rhs ∈ (binary op lhs rhs).children := by simp [children]
      have hspace : ∀ c ∈ (binary op lhs rhs).children, ∀ b r, NotNext isInlineBlank
          (chars (wrapPieces b c.pieces) ++ r) := fun c hc b r =>
        (starts_wrapPieces (.inl opens_paren) fun _ =>
          (starts_pieces (hchildren c hc)).1).notNext_blank r
      refine separate_append.mpr ⟨?_, cuts_space ?_, cuts_symbol op _, cuts_space (hspace rhs hr _ _),
        ?_⟩
      · exact separate_wrapPieces (hsep lhs hl _ (quiet_cons rfl (by decide) _ _)) fun _ =>
          hsep lhs hl _ (quiet_cons rfl (by decide) _ _)
      · cases op <;> exact notNext_cons.mpr rfl
      · exact separate_wrapPieces (hsep rhs hr _ (quiet_cons rfl (by decide) _ _)) fun _ =>
          hsep rhs hr _ (hquiet rfl _)
    | assign op lhs rhs =>
      have hl : lhs ∈ (assign op lhs rhs).children := by simp [children]
      have hr : rhs ∈ (assign op lhs rhs).children := by simp [children]
      obtain ⟨⟨sign, hsign⟩, -⟩ := hnode
      refine separate_append.mpr ⟨hsep lhs hl _ (quiet_cons rfl (by decide) _ _), cuts_space ?_,
        cuts_sign hsign _, cuts_space ((starts_pieces (hchildren rhs hr)).1.notNext_blank _),
        hsep rhs hr _ (hquiet rfl _)⟩
      rcases op with _ | op
      · exact notNext_cons.mpr rfl
      · cases op <;> exact notNext_cons.mpr rfl
    | call name args =>
      have hargs : Separate (piecesList args) (')' :: rest) :=
        separate_piecesList (notNext_cons.mpr rfl) (notNext_cons.mpr rfl) hchildren hsep
      refine ⟨cuts_word hnode.lexeme.isWord (notNext_cons.mpr rfl), cuts_closed (by simp) _, ?_⟩
      exact separate_append.mpr ⟨hargs, cuts_closed (by simp) _, trivial⟩
    | field base name =>
      obtain ⟨hname, hint⟩ := hnode
      refine separate_append.mpr ⟨?_, cuts_point ?_, cuts_word (Lexeme.isWord hname) hrest.word, trivial⟩
      · refine hoperand base (by simp [children]) _ (notNext_cons.mpr rfl) fun h => ?_
        rw [hint] at h
        cases h
      · obtain ⟨c, cs, htext, hc, -⟩ := Lexeme.isWord hname
        grind [chars_cons, word, notNext_cons, isWordStart_of_isDigit]
    | index base position =>
      refine separate_append.mpr ⟨?_, cuts_closed (by simp) _, ?_⟩
      · exact hoperand base (by simp [children]) _ (notNext_cons.mpr rfl) fun _ =>
          notNext_cons.mpr rfl
      · refine separate_append.mpr ⟨?_, cuts_closed (by simp) _, trivial⟩
        exact hsep position (by simp [children]) _ (quiet_cons rfl (by decide) _ _)
    | comma items =>
      have hitems : Separate (piecesList items) (')' :: rest) :=
        separate_piecesList (notNext_cons.mpr rfl) (notNext_cons.mpr rfl) hchildren hsep
      exact ⟨cuts_closed (by simp) _, separate_append.mpr ⟨hitems, cuts_closed (by simp) _, trivial⟩⟩

end Expr

end ShaderEffect
