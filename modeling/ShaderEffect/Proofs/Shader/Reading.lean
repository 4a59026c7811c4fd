import ShaderEffect.Proofs.Token.Cut
import ShaderEffect.Shader.Parser.Expr

/-!
# How readers go on

`Leads p q ts us` says that the reader `p` takes the tokens `ts` and goes on as `q` when `us` come
next. A reader that gives `a` leads to `pure a`, so one relation covers reading to the end and the
loops that carry an operand along. The second half states, for every rule of the grammar of
expressions, where it leads.
-/

namespace ShaderEffect

open ShaderEffect.Token List

namespace Stream

/-- The tokens still to be read, without their positions. -/
def tokens (s : Stream) : List Token :=
  s.rest.map PlacedToken.toToken

/-- The stream after the first `n` tokens. -/
def drop (s : Stream) (n : Nat) : Stream :=
  { s with rest := s.rest.drop n }

theorem drop_drop (s : Stream) (m n : Nat) : (s.drop m).drop n = s.drop (m + n) := by
  simp [drop]

theorem tokens_drop {s : Stream} {ts us : List Token} (h : s.tokens = ts ++ us) :
    (s.drop ts.length).tokens = us := by
  have hmap : (s.drop ts.length).tokens = s.tokens.drop ts.length := map_drop
  rw [hmap, h, drop_left]

end Stream

namespace Parser

variable {α β : Type}
variable (n : Nat) (text : String) (us : List Token) {e : Expr} {t : Token} {f : α → Parser β}
  {ts : List Token} {p q : Parser α} {es : List Expr} {name : String} {a : α}

/-! ## Going on -/

/-- The reader `p` takes the tokens `ts` and goes on as `q` when `us` come next. No structure is
declared. -/
def Leads (p q : Parser α) (ts us : List Token) : Prop :=
  ∀ s : Stream, s.structs = [] → s.tokens = ts ++ us → p s = q (s.drop ts.length)

theorem Leads.refl (p : Parser α) (us : List Token) : Leads p p [] us := by
  intro s _ _
  rfl

theorem Leads.trans {r : Parser α} {us vs : List Token} (h : Leads p q ts (us ++ vs))
    (hq : Leads q r us vs) : Leads p r (ts ++ us) vs := by
  intro s hs hts
  rw [append_assoc] at hts
  rw [h s hs hts, hq (s.drop ts.length) hs (Stream.tokens_drop hts), Stream.drop_drop,
    length_append]

theorem Leads.stop {r : Parser α} {us : List Token} (h : Leads p q ts us) (hq : Leads q r [] us) :
    Leads p r ts us := by
  have htrans : Leads p r (ts ++ []) us := h.trans hq
  rwa [append_nil] at htrans

theorem Leads.bind {us : List Token} (h : Leads p q ts us) (f : α → Parser β) :
    Leads (p >>= f) (q >>= f) ts us := by
  intro s hs hts
  have hp := h s hs hts
  change Parser.bind p f s = Parser.bind q f _
  unfold Parser.bind
  rw [hp]

theorem Leads.next {q : Parser β} {us vs : List Token} (h : Leads p (Pure.pure a) ts (us ++ vs))
    (hq : Leads (f a) q us vs) : Leads (p >>= f) q (ts ++ us) vs :=
  (h.bind f).trans hq

theorem Leads.last {q : Parser β} {us : List Token} (h : Leads p (Pure.pure a) ts us)
    (hq : Leads (f a) q [] us) : Leads (p >>= f) q ts us :=
  (h.bind f).stop hq

theorem Leads.look {q : Parser β} {us : List Token} (h : Leads p (Pure.pure a) [] (ts ++ us))
    (hq : Leads (f a) q ts us) : Leads (p >>= f) q ts us :=
  (h.bind f).trans hq

theorem leads_cons {us : List Token}
    (h : ∀ line column ps lastLine lastColumn, p ⟨⟨t, line, column⟩ :: ps, lastLine, lastColumn,
      []⟩ = q ⟨ps, lastLine, lastColumn, []⟩) : Leads p q [t] us := by
  rintro ⟨rest, lastLine, lastColumn, structs⟩ hs hts
  cases hs
  cases rest with
  | nil => cases hts
  | cons x ps =>
    obtain ⟨rfl, -⟩ := cons.inj hts
    exact h x.line x.column ps lastLine lastColumn

theorem leads_peek {us : List Token}
    (h : ∀ line column ps lastLine lastColumn, p ⟨⟨t, line, column⟩ :: ps, lastLine, lastColumn,
      []⟩ = q ⟨⟨t, line, column⟩ :: ps, lastLine, lastColumn, []⟩) : Leads p q [] (t :: us) := by
  rintro ⟨rest, lastLine, lastColumn, structs⟩ hs hts
  cases hs
  cases rest with
  | nil => cases hts
  | cons x ps =>
    obtain ⟨rfl, -⟩ := cons.inj hts
    exact h x.line x.column ps lastLine lastColumn

/-! ## Single tokens -/

/-- Whether the next token satisfies `p`. -/
def headIs (p : Token → Bool) (us : List Token) : Bool :=
  us.head?.any p

@[simp] theorem headIs_cons (p : Token → Bool) (t : Token) (us : List Token) :
    headIs p (t :: us) = p t := rfl

theorem headIs_mono {p q : Token → Bool} {us : List Token} (h : headIs q us = false)
    (hpq : ∀ t, p t = true → q t = true) : headIs p us = false := by
  cases us with
  | nil => rfl
  | cons t us =>
    rw [headIs_cons, Bool.eq_false_iff] at h ⊢
    exact fun hp => h (hpq t hp)

theorem leads_atPunct : Leads (atPunct text) (Pure.pure (headIs (·.isPunct text) us)) [] us := by
  rintro ⟨rest, lastLine, lastColumn, structs⟩ - hts
  have hhead : rest.head?.any (fun t => t.isPunct text) = headIs (·.isPunct text) us := by
    have hus : us = rest.map PlacedToken.toToken := hts.symm
    rw [hus, headIs, head?_map, Option.any_map]
  unfold atPunct
  rw [hhead]
  rfl

theorem leads_skip (t : Token) (us : List Token) : Leads skip (Pure.pure ()) [t] us :=
  leads_cons fun _ _ _ _ _ => rfl

theorem leads_eatPunct : Leads (eatPunct text) (Pure.pure true) [punct text] us := by
  have hat := leads_atPunct text (punct text :: us)
  rw [headIs_cons, (by simp [isPunct, punct] : (punct text).isPunct text = true)] at hat
  exact hat.look ((leads_skip (punct text) ([] ++ us)).next (Leads.refl _ _))

theorem leads_eatPunct_of_not {text : String} {us : List Token}
    (h : headIs (·.isPunct text) us = false) : Leads (eatPunct text) (Pure.pure false) [] us := by
  have hat := leads_atPunct text us
  rw [h] at hat
  exact hat.look (Leads.refl _ _)

theorem leads_expectPunct : Leads (expectPunct text) (Pure.pure ()) [punct text] us :=
  (leads_eatPunct text ([] ++ us)).next (Leads.refl _ _)

/-! ## What goes on with an expression -/

def extendsOperand (t : Token) : Bool :=
  t.isPunct "[" || t.isPunct "." || t.isPunct "++" || t.isPunct "--" || t.isPunct "("

/-- The binary operator that a token writes. -/
def binOpOf (t : Token) : Option BinOp :=
  if t.kind == .punct then BinOp.ofSymbol t.text else none

def assignmentOf (t : Token) : Option (Option BinOp) :=
  if t.kind == .punct then BinOp.assignments.lookup t.text else none

/-- The token goes on with operands joined by operators at least as strong as `strength`. -/
def extendsBinary (strength : Nat) (t : Token) : Bool :=
  extendsOperand t || (binOpOf t).any fun op => strength ≤ op.precedence

def extendsConditional (t : Token) : Bool :=
  extendsBinary 1 t || t.isPunct "?"

def extendsAssignment (t : Token) : Bool :=
  extendsConditional t || (assignmentOf t).isSome

/-- The token goes on with expressions joined by commas. -/
def extendsExpression (t : Token) : Bool :=
  extendsAssignment t || t.isPunct ","

theorem leads_peekBinOp : Leads peekBinOp (Pure.pure (us.head?.bind binOpOf)) [] us := by
  rintro ⟨rest, lastLine, lastColumn, structs⟩ - hts
  have hus : us = rest.map PlacedToken.toToken := hts.symm
  rw [hus, head?_map, Option.bind_map]
  rfl

theorem leads_peekAssignment :
    Leads peekAssignment (Pure.pure (us.head?.bind assignmentOf)) [] us := by
  rintro ⟨rest, lastLine, lastColumn, structs⟩ - hts
  have hus : us = rest.map PlacedToken.toToken := hts.symm
  rw [hus, head?_map, Option.bind_map]
  rfl

/-! ## After an operand -/

-- The equations are made here, once for all the proofs that unfold.
attribute [local simp] expression commaTail assignment conditional binary binaryTail postfixTail
  primary callArgs argTail

theorem leads_postfixTail_stop {us : List Token} (h : headIs extendsOperand us = false) (n : Nat)
    (e : Expr) : Leads (postfixTail (n + 1) e) (Pure.pure e) [] us := by
  have hnot : ∀ text ∈ ["[", ".", "++", "--"], headIs (·.isPunct text) us = false := by
    grind [headIs_mono, extendsOperand]
  rw [postfixTail]
  refine (leads_eatPunct_of_not (hnot "[" (by simp))).look ?_
  refine (leads_eatPunct_of_not (hnot "." (by simp))).look ?_
  refine (leads_eatPunct_of_not (hnot "++" (by simp))).look ?_
  refine (leads_eatPunct_of_not (hnot "--" (by simp))).look ?_
  exact Leads.refl _ _

theorem leads_postfixTail_index {n : Nat} {position : Expr} {us : List Token}
    (h : Leads (expression n) (Pure.pure position) ts (punct "]" :: us)) (e : Expr) :
    Leads (postfixTail (n + 1) e) (postfixTail n (.index e position))
      (punct "[" :: (ts ++ [punct "]"])) us := by
  rw [postfixTail]
  refine (leads_eatPunct "[" _).next ?_
  refine Leads.next h ?_
  exact (leads_expectPunct "]" ([] ++ us)).next (Leads.refl _ _)

theorem leads_expectIdent (name : String) (us : List Token) :
    Leads expectIdent (Pure.pure name) [⟨.ident, name⟩] us :=
  leads_cons fun _ _ _ _ _ => rfl

theorem leads_postfixTail_field {us : List Token} (h : headIs (·.isPunct "(") us = false) (n : Nat)
    (e : Expr) (name : String) :
    Leads (postfixTail (n + 1) e) (postfixTail n (.field e name))
      [punct ".", ⟨.ident, name⟩] us := by
  rw [postfixTail]
  refine (leads_eatPunct_of_not rfl).look ?_
  refine (leads_eatPunct "." _).next ?_
  refine (leads_expectIdent name ([] ++ us)).next ?_
  have hat := leads_atPunct "(" us
  rw [h] at hat
  refine hat.look ?_
  rw [Bool.and_false]
  exact Leads.refl _ _

theorem leads_postfixTail_postInc (e : Expr) :
    Leads (postfixTail (n + 1) e) (postfixTail n (.unary .postInc e)) [punct "++"] us := by
  rw [postfixTail]
  refine (leads_eatPunct_of_not rfl).look ?_
  refine (leads_eatPunct_of_not rfl).look ?_
  exact (leads_eatPunct "++" ([] ++ us)).next (Leads.refl _ _)

theorem leads_postfixTail_postDec (e : Expr) :
    Leads (postfixTail (n + 1) e) (postfixTail n (.unary .postDec e)) [punct "--"] us := by
  rw [postfixTail]
  refine (leads_eatPunct_of_not rfl).look ?_
  refine (leads_eatPunct_of_not rfl).look ?_
  refine (leads_eatPunct_of_not rfl).look ?_
  exact (leads_eatPunct "--" ([] ++ us)).next (Leads.refl _ _)

/-! ## Operands -/

theorem leads_primary_int :
    Leads (primary (n + 1)) (Pure.pure (.int (Literal.int text))) [⟨.int, text⟩] us := by
  refine leads_cons fun line column ps lastLine lastColumn => ?_
  rw [primary]
  rfl

theorem leads_primary_float :
    Leads (primary (n + 1)) (Pure.pure (.float (Literal.float text))) [⟨.float, text⟩] us := by
  refine leads_cons fun line column ps lastLine lastColumn => ?_
  rw [primary]
  rfl

theorem leads_primary_bool (value : Bool) (us : List Token) :
    Leads (primary (n + 1)) (Pure.pure (.bool value))
      [⟨.ident, if value then "true" else "false"⟩] us := by
  refine leads_cons fun line column ps lastLine lastColumn => ?_
  rw [primary]
  cases value <;> rfl

theorem leads_primary_name (ht : name ≠ "true") (hf : name ≠ "false")
    (htype : ShaderType.ofName name = none) (n : Nat) (us : List Token) :
    Leads (primary (n + 1))
      (atPunct "(" >>= fun call =>
        if call then callArgs n >>= fun args => Pure.pure (.call name args)
        else Pure.pure (.ident name))
      [⟨.ident, name⟩] us := by
  refine leads_cons fun line column ps lastLine lastColumn => ?_
  rw [primary]
  change (if (name == "true") = true then _ else if (name == "false") = true then _ else
    typeNamed name >>= _ : Parser Expr) ⟨ps, lastLine, lastColumn, []⟩ = _
  rw [if_neg (by simpa using ht), if_neg (by simpa using hf)]
  have hnamed : typeNamed name ⟨ps, lastLine, lastColumn, []⟩ =
      .ok (none, ⟨ps, lastLine, lastColumn, []⟩) := by
    unfold typeNamed
    rw [htype]
    rfl
  change Parser.bind (typeNamed name) _ _ = _
  unfold Parser.bind
  rw [hnamed]

theorem leads_primary_ident (ht : name ≠ "true") (hf : name ≠ "false")
    (htype : ShaderType.ofName name = none) (n : Nat) {us : List Token}
    (h : headIs (·.isPunct "(") us = false) :
    Leads (primary (n + 1)) (Pure.pure (.ident name)) [⟨.ident, name⟩] us := by
  have hat := leads_atPunct "(" us
  rw [h] at hat
  exact (leads_primary_name ht hf htype n ([] ++ us)).trans (hat.look (Leads.refl _ _))

theorem leads_primary_call (ht : name ≠ "true") (hf : name ≠ "false")
    (htype : ShaderType.ofName name = none) {n : Nat} {args : List Expr} {us : List Token}
    (h : Leads (callArgs n) (Pure.pure args) (punct "(" :: ts) us) :
    Leads (primary (n + 1)) (Pure.pure (.call name args)) (⟨.ident, name⟩ :: punct "(" :: ts) us := by
  refine (leads_primary_name ht hf htype n _).trans ?_
  refine (leads_atPunct "(" _).look ?_
  have hargs := h.bind fun args => (Pure.pure (Expr.call name args) : Parser Expr)
  exact hargs

theorem leads_primary_paren {n : Nat} {us : List Token}
    (h : Leads (expression n) (Pure.pure e) ts (punct ")" :: us)) :
    Leads (primary (n + 1)) (Pure.pure e) (punct "(" :: (ts ++ [punct ")"])) us := by
  have hopen : Leads (primary (n + 1))
      (expression n >>= fun inner => expectPunct ")" >>= fun _ => Pure.pure inner)
      [punct "("] (ts ++ [punct ")"] ++ us) := by
    refine leads_cons fun line column ps lastLine lastColumn => ?_
    rw [primary]
    rfl
  refine hopen.trans (Leads.next h ?_)
  exact (leads_expectPunct ")" ([] ++ us)).next (Leads.refl _ _)

theorem run_peek_bind (f : Option PlacedToken → Parser α) (s : Stream) :
    (peek >>= f) s = f s.rest.head? s := rfl

/-- The operator that a token writes before its operand. -/
def signOf (t : Token) : Option UnaryOp :=
  unaryOf ⟨t, 0, 0⟩

theorem leads_unary_sign {op : UnaryOp} (ht : signOf t = some op) {n : Nat} {us : List Token}
    (h : Leads (unary n) (Pure.pure e) ts us) :
    Leads (unary (n + 1)) (Pure.pure (.unary op e)) (t :: ts) us := by
  have hsign : Leads (unary (n + 1)) (unary n >>= fun x => Pure.pure (.unary op x)) [t] (ts ++ us) := by
    refine leads_cons fun line column ps lastLine lastColumn => ?_
    have hpeek : (some ⟨t, line, column⟩ : Option PlacedToken).bind unaryOf = some op := ht
    rw [unary, run_peek_bind]
    dsimp only [head?_cons]
    rw [hpeek]
    rfl
  exact hsign.trans (h.bind _)

theorem leads_unary_operand (ht : signOf t = none) (n : Nat) (us : List Token) :
    Leads (unary (n + 1)) (primary n >>= postfixTail n) [] (t :: us) := by
  refine leads_peek fun line column ps lastLine lastColumn => ?_
  have hpeek : (some ⟨t, line, column⟩ : Option PlacedToken).bind unaryOf = none := ht
  rw [unary, run_peek_bind]
  dsimp only [head?_cons]
  rw [hpeek]

/-! ## Arguments -/

theorem leads_skipVoid {us : List Token} (h : headIs (·.isIdent "void") us = false) :
    Leads skipVoid (Pure.pure ()) [] us := by
  rintro ⟨rest, lastLine, lastColumn, structs⟩ - hts
  have hus : us = rest.map PlacedToken.toToken := hts.symm
  unfold skipVoid
  split
  case h_1 t u ps heq =>
    have hrest : rest = t :: u :: ps := heq
    rw [hus, hrest, map_cons, headIs_cons] at h
    rw [h, Bool.false_and]
    rfl
  case h_2 => rfl

theorem leads_callArgs_nil : Leads (callArgs (n + 1)) (Pure.pure []) [punct "(", punct ")"] us := by
  rw [callArgs]
  refine (leads_expectPunct "(" ([punct ")"] ++ us)).next ?_
  refine (leads_skipVoid rfl).look ?_
  exact (leads_eatPunct ")" ([] ++ us)).next (Leads.refl _ _)

theorem leads_callArgs {n : Nat} {args : List Expr} {us : List Token}
    (hvoid : headIs (·.isIdent "void") (ts ++ us) = false)
    (hclose : headIs (·.isPunct ")") (ts ++ us) = false)
    (h : Leads (argTail n) (Pure.pure args) ts us) :
    Leads (callArgs (n + 1)) (Pure.pure args) (punct "(" :: ts) us := by
  rw [callArgs]
  refine (leads_expectPunct "(" (ts ++ us)).next ?_
  refine (leads_skipVoid hvoid).look ?_
  exact (leads_eatPunct_of_not hclose).look h

theorem leads_argTail_last {n : Nat} {us : List Token}
    (h : Leads (assignment n) (Pure.pure e) ts (punct ")" :: us)) :
    Leads (argTail (n + 1)) (Pure.pure [e]) (ts ++ [punct ")"]) us := by
  rw [argTail]
  refine Leads.next h ?_
  exact (leads_eatPunct ")" ([] ++ us)).next (Leads.refl _ _)

theorem leads_argTail_cons {n : Nat} {us vs : List Token}
    (h : Leads (assignment n) (Pure.pure e) ts (punct "," :: (us ++ vs)))
    (hes : Leads (argTail n) (Pure.pure es) us vs) :
    Leads (argTail (n + 1)) (Pure.pure (e :: es)) (ts ++ punct "," :: us) vs := by
  rw [argTail]
  refine Leads.next h ?_
  refine (leads_eatPunct_of_not rfl).look ?_
  refine (leads_expectPunct "," (us ++ vs)).next ?_
  exact hes.bind fun es => (Pure.pure (e :: es) : Parser (List Expr))

/-! ## Operators -/

theorem leads_binary {n k : Nat} {us : List Token} (h : Leads (unary n) (Pure.pure e) ts us) :
    Leads (binary (n + 1) k) (binaryTail n k e) ts us := by
  rw [binary]
  exact h.bind (binaryTail n k)

theorem leads_binaryTail_stop {k : Nat} {us : List Token}
    (h : headIs (extendsBinary k) us = false) (n : Nat) (e : Expr) :
    Leads (binaryTail (n + 1) k e) (Pure.pure e) [] us := by
  rw [binaryTail]
  refine (leads_peekBinOp us).look ?_
  cases hop : us.head?.bind binOpOf with
  | none => exact Leads.refl _ _
  | some op =>
    have hweak : ¬ k ≤ op.precedence := by
      intro hk
      cases us with
      | nil => cases hop
      | cons t us =>
        grind [headIs_cons, extendsBinary]
    dsimp only
    rw [if_neg hweak]
    exact Leads.refl _ _

theorem binOpOf_symbol (op : BinOp) : binOpOf (punct op.symbol) = some op := by
  cases op <;> rfl

theorem leads_binaryTail_step {n k : Nat} {op : BinOp} (hk : k ≤ op.precedence) {rhs : Expr}
    {us : List Token} (h : Leads (binary n (op.precedence + 1)) (Pure.pure rhs) ts us) (lhs : Expr) :
    Leads (binaryTail (n + 1) k lhs) (binaryTail n k (.binary op lhs rhs))
      (punct op.symbol :: ts) us := by
  rw [binaryTail]
  refine (leads_peekBinOp (punct op.symbol :: (ts ++ us))).look ?_
  have hop : (punct op.symbol :: (ts ++ us)).head?.bind binOpOf = some op := binOpOf_symbol op
  rw [hop]
  dsimp only
  rw [if_pos hk]
  refine (leads_skip _ (ts ++ us)).next ?_
  exact h.bind fun rhs => binaryTail n k (.binary op lhs rhs)

/-! ## Assignments and commas -/

theorem leads_conditional {n : Nat} {us : List Token} (hus : headIs (·.isPunct "?") us = false)
    (h : Leads (binary n 1) (Pure.pure e) ts us) :
    Leads (conditional (n + 1)) (Pure.pure e) ts us := by
  have hstop := leads_eatPunct_of_not hus
  rw [conditional]
  exact Leads.last h (hstop.look (Leads.refl _ _))

theorem leads_assignment_none {n : Nat} {us : List Token} (hus : us.head?.bind assignmentOf = none)
    (h : Leads (conditional n) (Pure.pure e) ts us) :
    Leads (assignment (n + 1)) (Pure.pure e) ts us := by
  grind [leads_peekAssignment, assignment, Leads.last, Leads.refl]

theorem leads_assignment_some {n : Nat} {op : Option BinOp} (ht : assignmentOf t = some op)
    {lhs rhs : Expr} {us vs : List Token}
    (hl : Leads (conditional n) (Pure.pure lhs) ts (t :: (us ++ vs)))
    (hr : Leads (assignment n) (Pure.pure rhs) us vs) :
    Leads (assignment (n + 1)) (Pure.pure (.assign op lhs rhs)) (ts ++ t :: us) vs := by
  rw [assignment]
  refine Leads.next hl ?_
  refine (leads_peekAssignment (t :: us ++ vs)).look ?_
  have hop : (t :: us ++ vs).head?.bind assignmentOf = some op := ht
  rw [hop]
  refine (leads_skip t (us ++ vs)).next ?_
  exact hr.bind fun rhs => (Pure.pure (.assign op lhs rhs) : Parser Expr)

theorem leads_expression_single {n : Nat} {us : List Token}
    (hus : headIs (·.isPunct ",") us = false) (h : Leads (assignment n) (Pure.pure e) ts us) :
    Leads (expression (n + 1)) (Pure.pure e) ts us := by
  have hat := leads_atPunct "," us
  rw [hus] at hat
  rw [expression]
  exact Leads.last h (hat.look (Leads.refl _ _))

theorem leads_expression_comma {n : Nat} {us vs : List Token}
    (h : Leads (assignment n) (Pure.pure e) ts (punct "," :: (us ++ vs)))
    (hes : Leads (commaTail n) (Pure.pure es) (punct "," :: us) vs) :
    Leads (expression (n + 1)) (Pure.pure (.comma (e :: es))) (ts ++ punct "," :: us) vs := by
  rw [expression]
  refine Leads.next h ?_
  refine (leads_atPunct "," _).look ?_
  exact hes.bind fun es => (Pure.pure (.comma (e :: es)) : Parser Expr)

theorem leads_commaTail_nil {us : List Token} (h : headIs (·.isPunct ",") us = false) (n : Nat) :
    Leads (commaTail (n + 1)) (Pure.pure []) [] us := by
  rw [commaTail]
  exact (leads_eatPunct_of_not h).look (Leads.refl _ _)

theorem leads_commaTail_cons {n : Nat} {us vs : List Token}
    (h : Leads (assignment n) (Pure.pure e) ts (us ++ vs))
    (hes : Leads (commaTail n) (Pure.pure es) us vs) :
    Leads (commaTail (n + 1)) (Pure.pure (e :: es)) (punct "," :: (ts ++ us)) vs := by
  rw [commaTail]
  refine (leads_eatPunct "," (ts ++ us ++ vs)).next ?_
  refine Leads.next h ?_
  exact hes.bind fun es => (Pure.pure (e :: es) : Parser (List Expr))

end Parser

end ShaderEffect
