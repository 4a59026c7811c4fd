import ShaderEffect.Proofs.Typing.Proper
import ShaderEffect.Shader.Parser.Program

/-!
# What readers give and how far they get

`Gives n c k m p P` says of a reader that every value it gives has the property `P` and comes after
at least `k` tokens, that its errors stand at a token, and that a budget of sixteen calls for each
token and `c` more suffices. The readers of types take them from keywords, so that **a program that
has been read names only proper types** (`Program.proper_of_parse`). Each reader takes a token or
fails, so that **reading ends, with a program or with an error at a token**
(`Parser.proceeds_parse`).
-/

namespace ShaderEffect

open List Expr

variable {t : ShaderType}

namespace ShaderType

theorem of_widthOf {c : Char} {n : Nat} (h : widthOf c = some n) : 2 ≤ n ∧ n ≤ 4 := by
  grind [widthOf]

theorem isProper_of_shapeOfName {name : List Char} (h : shapeOfName name = some t) :
    t.isProper = true := by
  have hvector : ∀ {s : Scalar} {c : Char}, (widthOf c).map (.vector s) = some t →
      t.isProper = true := by
    grind [Option.map_eq_some_iff, isProper_vector, of_widthOf]
  unfold shapeOfName at h
  split at h
  · obtain ⟨n, hn, rfl⟩ := Option.map_eq_some_iff.mp h
    exact isProper_matrix.mpr ⟨of_widthOf hn, of_widthOf hn⟩
  · obtain ⟨c, hc, h⟩ := Option.bind_eq_some_iff.mp h
    obtain ⟨r, hr, rfl⟩ := Option.map_eq_some_iff.mp h
    exact isProper_matrix.mpr ⟨of_widthOf hc, of_widthOf hr⟩
  · exact hvector h
  · exact hvector h
  · exact hvector h
  · exact hvector h
  · cases h

theorem isProper_of_ofName {name : String} (h : ofName name = some t) : t.isProper = true := by
  unfold ofName at h
  split at h
  case h_10 => exact isProper_of_shapeOfName h
  all_goals exact Option.some.inj h ▸ rfl

end ShaderType

/-- The fault of a reader that was given too few calls. -/
def SyntaxFault.isSpent : SyntaxFault → Bool
  | .budgetSpent => true
  | _ => false

namespace Parser

variable {e : Expr}
variable (n : Nat)

/-! ## What readers give -/

section Gives

variable {α β : Type} {P : β → Prop} {n c k m : Nat} {s t : Stream} {e : SyntaxError}

/-- At least `k` tokens have been taken on the way from a stream to another. -/
structure Passes (k : Nat) (s t : Stream) : Prop where
  suffix : t.rest <:+ s.rest
  taken : t.rest.length + k ≤ s.rest.length
  last : t.lastLine = s.lastLine ∧ t.lastColumn = s.lastColumn

/-- The error stands at a token of the stream, or at the last one of the source. -/
def StopsIn (s : Stream) (e : SyntaxError) : Prop :=
  (∃ t ∈ s.rest, e.line = t.line ∧ e.column = t.column) ∨
    e.line = s.lastLine ∧ e.column = s.lastColumn

/-- What comes of reading a stream: a value with the property after at least `k` tokens, or an error
at a token. A budget `n` of sixteen calls for each token and `c` more is not spent. -/
def Meets (n c k : Nat) (s : Stream) (P : β → Prop) : Except SyntaxError (β × Stream) → Prop
  | .ok (b, t) => P b ∧ Passes k s t
  | .error e => StopsIn s e ∧ (16 * s.rest.length + c ≤ n → e.fault.isSpent = false)

/-- What the reader does with every stream of at least `m` tokens. -/
def Gives (n c k m : Nat) (p : Parser β) (P : β → Prop) : Prop :=
  ∀ s, m ≤ s.rest.length → Meets n c k s P (p s)

theorem Passes.refl (s : Stream) : Passes 0 s s :=
  ⟨suffix_rfl, Nat.le_refl _, rfl, rfl⟩

theorem Passes.trans {j : Nat} {u : Stream} (h : Passes j s t) (h' : Passes (k - j) t u) :
    Passes k s u where
  suffix := h'.suffix.trans h.suffix
  taken := by
    have := h.taken
    have := h'.taken
    omega
  last := ⟨h'.last.1.trans h.last.1, h'.last.2.trans h.last.2⟩

theorem StopsIn.of_passes (h : StopsIn t e) (hst : Passes k s t) : StopsIn s e := by
  rcases h with ⟨u, hu, hat⟩ | hlast
  · exact .inl ⟨u, hst.suffix.subset hu, hat⟩
  · exact .inr (by rwa [← hst.last.1, ← hst.last.2])

/-- The reading of a stream that comes after another one. -/
theorem Meets.after {j : Nat} {r : Except SyntaxError (β × Stream)} (hst : Passes j s t)
    (h : Meets n (c + 16 * j) (k - j) t P r) : Meets n c k s P r := by
  have := hst.taken
  cases r with
  | ok r => exact h.imp_right hst.trans
  | error e => exact ⟨h.1.of_passes hst, fun hn => h.2 (by omega)⟩

/-- There may be more to spend, and fewer tokens may be asked for. -/
theorem Meets.mono {c₀ k₀ : Nat} {r : Except SyntaxError (β × Stream)} (h : Meets n c₀ k₀ s P r)
    (hc : c₀ ≤ c) (hk : k ≤ k₀) : Meets n c k s P r := by
  cases r with
  | ok r => exact h.imp_right fun hst => ⟨hst.suffix, by have := hst.taken; omega, hst.last⟩
  | error e => exact h.imp_right fun hspent hn => hspent (by omega)

theorem Gives.of_ok {p : Parser β} {b : β} (h : Gives n c k 0 p P) (hp : p s = .ok (b, t)) :
    P b ∧ Passes k s t := by
  have hps := h s (Nat.zero_le _)
  rwa [hp] at hps

theorem Gives.of_error {p : Parser β} (h : Gives n c k 0 p P) (hp : p s = .error e) :
    StopsIn s e ∧ (16 * s.rest.length + c ≤ n → e.fault.isSpent = false) := by
  have hps := h s (Nat.zero_le _)
  rwa [hp] at hps

theorem Gives.mono {p : Parser β} {c₀ k₀ : Nat} (h : Gives n c₀ k₀ 0 p P)
    (hle : (c₀.ble c && k.ble k₀) = true) : Gives n c k m p P := by
  obtain ⟨hc, hk⟩ := Bool.and_eq_true_iff.mp hle
  exact fun s _ => (h s (Nat.zero_le _)).mono (Nat.le_of_ble_eq_true hc) (Nat.le_of_ble_eq_true hk)

theorem Gives.succ {p : Parser β} (h : Gives n c k m p P) : Gives (n + 1) (c + 1) k m p P := by
  intro s hs
  have hps := h s hs
  cases hr : p s with
  | ok r => rwa [hr] at hps
  | error e =>
    rw [hr] at hps
    exact hps.imp_right fun hspent hn => hspent (by omega)

theorem Gives.pure {b : β} (h : P b) : Gives n c 0 m (Pure.pure b) P :=
  fun s _ => ⟨h, .refl s⟩

theorem stopsIn_fail (fault : SyntaxFault) (s : Stream) :
    ∃ e, (Parser.fail fault : Parser β) s = .error e ∧ e.fault = fault ∧ StopsIn s e := by
  unfold Parser.fail
  split
  · rename_i t ts hrest
    exact ⟨_, rfl, rfl, .inl ⟨t, by rw [hrest]; exact mem_cons_self, rfl, rfl⟩⟩
  · exact ⟨_, rfl, rfl, .inr ⟨rfl, rfl⟩⟩

theorem Gives.fail {fault : SyntaxFault} (h : fault.isSpent = false) :
    Gives n c k m (Parser.fail fault) P := by
  intro s _
  obtain ⟨e, he, rfl, hstops⟩ := stopsIn_fail (β := β) fault s
  rw [he]
  exact ⟨hstops, fun _ => h⟩

theorem Gives.spent : Gives 0 (c + 1) k m (Parser.fail .budgetSpent) P := by
  intro s _
  obtain ⟨e, he, -, hstops⟩ := stopsIn_fail (β := β) .budgetSpent s
  rw [he]
  exact ⟨hstops, fun hn => by omega⟩

theorem bind_of_ok {p : Parser α} {f : α → Parser β} {a : α} (h : p s = .ok (a, t)) :
    (p >>= f) s = f a t := by
  change Parser.bind p f s = _
  unfold Parser.bind
  rw [h]

/-- Readers one after the other. What the first takes pays for calls of the second. -/
theorem Meets.bind {p : Parser α} {f : α → Parser β} {Q : α → Prop} {c₁ k₁ : Nat}
    (hp : Meets n c₁ k₁ s Q (p s)) (hc : c₁ ≤ c)
    (hf : ∀ a, Q a → Gives n (c + 16 * k₁) (k - k₁) 0 (f a) P) : Meets n c k s P ((p >>= f) s) := by
  cases hr : p s with
  | ok r =>
    rw [hr] at hp
    rw [bind_of_ok hr]
    exact .after hp.2 (hf r.1 hp.1 r.2 (Nat.zero_le _))
  | error e =>
    rw [hr] at hp
    change Meets n c k s P (Parser.bind p f s)
    unfold Parser.bind
    rw [hr]
    exact hp.imp_right fun hspent hn => hspent (by omega)

theorem Gives.bind {p : Parser α} {f : α → Parser β} {Q : α → Prop} {c₁ k₁ m₁ : Nat}
    (hp : Gives n c₁ k₁ m₁ p Q) (hle : (c₁.ble c && m₁.ble m) = true)
    (hf : ∀ a, Q a → Gives n (c + 16 * k₁) (k - k₁) 0 (f a) P) : Gives n c k m (p >>= f) P := by
  obtain ⟨hc, hm⟩ := Bool.and_eq_true_iff.mp hle
  intro s hs
  exact .bind (hp s (Nat.le_trans (Nat.le_of_ble_eq_true hm) hs)) (Nat.le_of_ble_eq_true hc) hf

/-- A look ahead leaves the stream alone. -/
theorem Gives.see {p : Parser α} {f : α → Parser β} {Q : α → Prop}
    (hp : ∀ s, ∃ a, p s = .ok (a, s) ∧ Q a) (hf : ∀ a, Q a → Gives n c k m (f a) P) :
    Gives n c k m (p >>= f) P := by
  intro s hs
  obtain ⟨a, ha, hq⟩ := hp s
  rw [bind_of_ok ha]
  exact hf a hq s hs

theorem Gives.look {p : Parser α} {f : α → Parser β} {g : Stream → α}
    (hp : p = fun s => .ok (g s, s)) (hf : ∀ a, Gives n c k m (f a) P) :
    Gives n c k m (p >>= f) P :=
  .see (Q := fun _ => True) (fun s => ⟨g s, congrFun hp s, trivial⟩) fun a _ => hf a

theorem Gives.ite {b : Bool} {p q : Parser β} (hp : Gives n c k m p P) (hq : Gives n c k m q P) :
    Gives n c k m (if b = true then p else q) P := by
  split
  · exact hp
  · exact hq

/-- A look at the next token. -/
def Peeks (p : Parser (Option α)) : Prop :=
  ∀ s, ∃ o, p s = .ok (o, s) ∧ (s.rest = [] → o = none)

theorem peeks_peek : Peeks Parser.peek :=
  fun s => ⟨_, rfl, fun h => by rw [h]; rfl⟩

theorem peeks_peekText : Peeks peekText :=
  fun s => ⟨_, rfl, fun h => by rw [h]; rfl⟩

/-- If something is seen, there is a token. -/
theorem Gives.peek {p : Parser (Option α)} {f : Option α → Parser β} (hp : Peeks p)
    (hnone : Gives n c k 0 (f none) P) (hsome : ∀ a, Gives n c k 1 (f (some a)) P) :
    Gives n c k m (p >>= f) P := by
  intro s _
  obtain ⟨o, ho, hend⟩ := hp s
  rw [bind_of_ok ho]
  cases o with
  | none => exact hnone s (Nat.zero_le _)
  | some a => exact hsome a s (length_pos_iff.mpr fun hrest => by cases hend hrest)

theorem passes_tail (h : 1 ≤ s.rest.length) : Passes 1 s { s with rest := s.rest.tail } :=
  ⟨tail_suffix _, by rw [length_tail]; omega, rfl, rfl⟩

theorem Gives.skip {f : Unit → Parser β} (hf : Gives n (c + 16) (k - 1) 0 (f ()) P) :
    Gives n c k 1 (Parser.skip >>= f) P := by
  intro s hs
  exact .after (passes_tail hs) (hf _ (Nat.zero_le _))

theorem gives_skip : Gives n 0 0 0 Parser.skip fun _ => True :=
  fun s _ => ⟨trivial, tail_suffix _, by simp, rfl, rfl⟩

/-- A reader that tells whether it has taken a token. -/
def TakesOne (p : Parser Bool) : Prop :=
  ∀ s, p s = .ok (false, s) ∨ p s = .ok (true, { s with rest := s.rest.tail }) ∧ 1 ≤ s.rest.length

theorem takesOne_of_test {look : Parser Bool} {test : PlacedToken → Bool}
    (h : ∀ s, look s = .ok (s.rest.head?.any test, s)) :
    TakesOne (look >>= fun b =>
      if b = true then Parser.skip >>= fun _ => Pure.pure true else Pure.pure false) := by
  intro s
  rw [bind_of_ok (h s)]
  cases htest : s.rest.head?.any test with
  | false => exact .inl rfl
  | true =>
    refine .inr ⟨rfl, length_pos_iff.mpr fun hrest => ?_⟩
    rw [hrest] at htest
    cases htest

theorem takesOne_eatPunct (text : String) : TakesOne (eatPunct text) :=
  takesOne_of_test fun _ => rfl

theorem takesOne_eatIdent (text : String) : TakesOne (eatIdent text) :=
  takesOne_of_test fun _ => rfl

theorem Gives.eat {p : Parser Bool} {f : Bool → Parser β} (hp : TakesOne p)
    (htrue : Gives n (c + 16) (k - 1) 0 (f true) P) (hfalse : Gives n c k m (f false) P) :
    Gives n c k m (p >>= f) P := by
  intro s hs
  rcases hp s with hno | ⟨hyes, hlength⟩
  · rw [bind_of_ok hno]
    exact hfalse s hs
  · rw [bind_of_ok hyes]
    exact .after (passes_tail hlength) (htrue _ (Nat.zero_le _))

theorem Gives.punct {text : String} {f : Bool → Parser β}
    (htrue : Gives n (c + 16) (k - 1) 0 (f true) P) (hfalse : Gives n c k m (f false) P) :
    Gives n c k m (eatPunct text >>= f) P :=
  .eat (takesOne_eatPunct text) htrue hfalse

theorem Gives.word {text : String} {f : Bool → Parser β}
    (htrue : Gives n (c + 16) (k - 1) 0 (f true) P) (hfalse : Gives n c k m (f false) P) :
    Gives n c k m (eatIdent text >>= f) P :=
  .eat (takesOne_eatIdent text) htrue hfalse

/-! ## Readers of a few tokens -/

theorem Gives.expect {text : String} {f : Unit → Parser β}
    (hf : ∀ x, Gives n (c + 16) (k - 1) 0 (f x) P) : Gives n c k m (expectPunct text >>= f) P := by
  have hp : Gives n 0 1 0 (expectPunct text) fun _ => True :=
    .eat (takesOne_eatPunct text) (.pure trivial) (.look rfl fun _ => .fail rfl)
  exact fun s _ => .bind (hp s (Nat.zero_le _)) (Nat.zero_le _) fun x _ => hf x

theorem Gives.ident {f : String → Parser β} (hf : ∀ x, Gives n (c + 16) (k - 1) 0 (f x) P) :
    Gives n c k m (expectIdent >>= f) P := by
  have hp : Gives n 0 1 0 expectIdent fun _ => True :=
    .peek peeks_peek (.fail rfl) fun _ => .ite (.skip (.pure trivial)) (.fail rfl)
  exact fun s _ => .bind (hp s (Nat.zero_le _)) (Nat.zero_le _) fun x _ => hf x

theorem Gives.nil {Q : α → Prop} : Gives n c 0 m (Pure.pure []) fun as => ∀ a ∈ as, Q a :=
  .pure (forall_mem_nil _)

theorem Gives.one {Q : α → Prop} {a : α} (h : Q a) :
    Gives n c 0 m (Pure.pure [a]) fun as => ∀ a ∈ as, Q a :=
  .pure (forall_mem_singleton.mpr h)

theorem Gives.cons {Q : α → Prop} {a : α} {as : List α} (h : Q a) (hs : ∀ a ∈ as, Q a) :
    Gives n c 0 m (Pure.pure (a :: as)) fun as => ∀ a ∈ as, Q a :=
  .pure (forall_mem_cons.mpr ⟨h, hs⟩)

theorem gives_skipVoid : Gives n 0 0 0 skipVoid fun _ => True := by
  intro s _
  unfold skipVoid
  split
  · rename_i t u ts hrest
    split
    · exact ⟨trivial, by rw [hrest]; exact suffix_cons t _, by simp [hrest], rfl, rfl⟩
    · exact ⟨trivial, .refl s⟩
  · exact ⟨trivial, .refl s⟩

theorem afterParens_suffix {ts us : List PlacedToken} : ∀ {depth : Nat},
    afterParens depth ts = some us → us <:+ ts := by
  induction ts with
  | nil => intro depth h; cases h
  | cons t ts ih =>
    intro depth h
    rw [afterParens] at h
    split at h
    · exact (ih h).trans (suffix_cons t ts)
    split at h
    · split at h
      · exact Option.some.inj h ▸ suffix_cons t ts
      · exact (ih h).trans (suffix_cons t ts)
    · exact (ih h).trans (suffix_cons t ts)

theorem gives_skipParens : Gives n 0 1 0 skipParens fun _ => True := by
  refine .expect fun _ s _ => ?_
  split
  · rename_i rest hrest
    have hsuffix := afterParens_suffix hrest
    exact ⟨trivial, hsuffix, hsuffix.length_le, rfl, rfl⟩
  · exact ⟨.inr ⟨rfl, rfl⟩, fun _ => rfl⟩

theorem gives_skipStatement (hm : m ≤ 1) : Gives n 0 m m skipStatement fun _ => True := by
  intro s hs
  refine ⟨trivial, (tail_suffix _).trans (dropWhile_suffix _), ?_, rfl, rfl⟩
  have := (dropWhile_suffix (l := s.rest) fun t => !t.isPunct ";").length_le
  simp only [length_tail]
  omega

theorem sees_typeNamed (name : String) (s : Stream) :
    ∃ o, typeNamed name s = .ok (o, s) ∧ ∀ t ∈ o, t.isProper = true := by
  refine ⟨_, rfl, fun t ht => ?_⟩
  split at ht
  · cases ht
    rfl
  · exact ShaderType.isProper_of_ofName ht

end Gives

/-! ## Expressions -/

/-- The readers of expressions with a budget of `n` calls give expressions with proper types. Each
is ranked by the calls that it can make before it takes a token. -/
structure ReadsExprs (n : Nat) : Prop where
  expression : Gives n 6 1 0 (expression n) Expr.Proper
  commaTail : Gives n 1 0 0 (commaTail n) fun es => ∀ e ∈ es, e.Proper
  assignment : Gives n 5 1 0 (assignment n) Expr.Proper
  conditional : Gives n 4 1 0 (conditional n) Expr.Proper
  binary : ∀ strength, Gives n 3 1 0 (binary n strength) Expr.Proper
  binaryTail : ∀ strength lhs, lhs.Proper → Gives n 4 0 0 (binaryTail n strength lhs) Expr.Proper
  unary : Gives n 2 1 0 (unary n) Expr.Proper
  postfixTail : ∀ e, e.Proper → Gives n 1 0 0 (postfixTail n e) Expr.Proper
  primary : Gives n 1 1 0 (primary n) Expr.Proper
  callArgs : Gives n 1 1 0 (callArgs n) fun es => ∀ e ∈ es, e.Proper
  argTail : Gives n 6 1 0 (argTail n) fun es => ∀ e ∈ es, e.Proper
  arraySuffix : ∀ t, t.isProper = true → Gives n 1 0 0 (arraySuffix n t) fun t => t.isProper = true

theorem proper_node (hnode : e.isImproper = false) (h : ∀ c ∈ e.children, c.Proper) : e.Proper :=
  avoids_iff.mpr ⟨hnode, h⟩

theorem proper_unary {op : UnaryOp} (h : e.Proper) : (Expr.unary op e).Proper :=
  proper_node rfl (forall_mem_singleton.mpr h)

namespace ReadsExprs

variable {n : Nat} (ih : ReadsExprs n)
include ih

theorem expression_succ : Gives (n + 1) 6 1 0 (Parser.expression (n + 1)) Expr.Proper := by
  rw [Parser.expression]
  refine .succ (.bind ih.assignment rfl fun first hfirst => .look rfl fun _ =>
    .ite ?_ (.pure hfirst))
  refine .bind ih.commaTail rfl fun others hothers => .pure ?_
  exact proper_node rfl (forall_mem_cons.mpr ⟨hfirst, hothers⟩)

theorem commaTail_succ :
    Gives (n + 1) 1 0 0 (Parser.commaTail (n + 1)) fun es => ∀ e ∈ es, e.Proper := by
  rw [Parser.commaTail]
  refine .succ (.punct ?_ .nil)
  refine .bind ih.assignment rfl fun e he => .bind ih.commaTail rfl fun others hothers =>
    .cons he hothers

theorem assignment_succ : Gives (n + 1) 5 1 0 (Parser.assignment (n + 1)) Expr.Proper := by
  rw [Parser.assignment]
  refine .succ (.bind ih.conditional rfl fun lhs hlhs => .look rfl fun o => ?_)
  cases o with
  | none => exact .pure hlhs
  | some op =>
    refine .bind gives_skip rfl fun _ _ => .bind ih.assignment rfl fun rhs hrhs =>
      .pure (proper_node rfl ?_)
    simpa [children] using ⟨hlhs, hrhs⟩

theorem conditional_succ : Gives (n + 1) 4 1 0 (Parser.conditional (n + 1)) Expr.Proper := by
  rw [Parser.conditional]
  refine .succ (.bind (ih.binary 1) rfl fun cond hcond => .punct ?_ (.pure hcond))
  refine .bind ih.expression rfl fun x hx => .expect fun _ => ?_
  refine .bind ih.assignment rfl fun y hy => .pure (proper_node rfl ?_)
  simpa [children] using ⟨hcond, hx, hy⟩

theorem binaryTail_succ (strength : Nat) {lhs : Expr} (hlhs : lhs.Proper) :
    Gives (n + 1) 4 0 0 (Parser.binaryTail (n + 1) strength lhs) Expr.Proper := by
  rw [Parser.binaryTail]
  refine .succ (.look rfl fun o => ?_)
  cases o with
  | none => exact .pure hlhs
  | some op =>
    dsimp only
    split
    · refine .bind gives_skip rfl fun _ _ => .bind (ih.binary _) rfl fun rhs hrhs => ?_
      refine (ih.binaryTail strength _ (proper_node rfl ?_)).mono rfl
      simpa [children] using ⟨hlhs, hrhs⟩
    · exact .pure hlhs

theorem unary_succ : Gives (n + 1) 2 1 0 (Parser.unary (n + 1)) Expr.Proper := by
  have hoperand : Gives n 1 1 0 (Parser.primary n >>= Parser.postfixTail n) Expr.Proper :=
    .bind ih.primary rfl fun e he => (ih.postfixTail e he).mono rfl
  rw [Parser.unary]
  refine .succ (.peek peeks_peek hoperand fun t => ?_)
  split
  · exact .skip (.bind ih.unary rfl fun operand hoperand => .pure (proper_unary hoperand))
  · exact hoperand.mono rfl

theorem postfixTail_succ (he : e.Proper) :
    Gives (n + 1) 1 0 0 (Parser.postfixTail (n + 1) e) Expr.Proper := by
  have hstep : ∀ op, Gives n (0 + 16) (0 - 1) 0 (Parser.postfixTail n (.unary op e)) Expr.Proper :=
    fun op => (ih.postfixTail _ (proper_unary he)).mono rfl
  rw [Parser.postfixTail]
  refine .succ (.punct ?_ (.punct ?_
    (.punct (hstep _) (.punct (hstep _) (.pure he)))))
  · refine .bind ih.expression rfl fun position hposition => .expect fun _ => ?_
    refine (ih.postfixTail _ (proper_node rfl ?_)).mono rfl
    simpa [children] using ⟨he, hposition⟩
  · have hmember : ∀ x : Expr, x.isImproper = false → x.children = [e] → x.Proper :=
      fun x hx hchildren => proper_node hx (hchildren ▸ forall_mem_singleton.mpr he)
    refine .ident fun name => .look rfl fun _ => .ite ?_ ?_
    · exact .bind gives_skipParens rfl fun _ _ => (ih.postfixTail _ (hmember _ rfl rfl)).mono rfl
    · exact (ih.postfixTail _ (hmember _ rfl rfl)).mono rfl

theorem primary_succ : Gives (n + 1) 1 1 0 (Parser.primary (n + 1)) Expr.Proper := by
  have hleaf : ∀ {e : Expr}, e.isImproper = false → e.children = [] → e.Proper := by
    grind [proper_node]
  rw [Parser.primary]
  refine .succ (.peek peeks_peek (.fail rfl) fun t => ?_)
  dsimp only
  split
  · exact .skip (.pure (hleaf rfl rfl))
  · exact .skip (.pure (hleaf rfl rfl))
  · refine .skip (.ite (.pure (hleaf rfl rfl)) (.ite (.pure (hleaf rfl rfl)) ?_))
    refine .see (sees_typeNamed t.text) fun o ho => ?_
    cases o with
    | none =>
      refine .look rfl fun _ => .ite ?_ (.pure (hleaf rfl rfl))
      exact .bind ih.callArgs rfl fun args hargs => .pure (proper_node rfl hargs)
    | some type =>
      refine .bind (ih.arraySuffix type (ho type rfl)) rfl fun type htype => ?_
      refine .bind ih.callArgs rfl fun args hargs => .pure (proper_node ?_ hargs)
      rw [isImproper, ShaderType.isProper_sized htype]
      rfl
  · refine .ite (.skip ?_) (.fail rfl)
    exact .bind ih.expression rfl fun e he => .expect fun _ => .pure he
  · exact .fail rfl

theorem callArgs_succ :
    Gives (n + 1) 1 1 0 (Parser.callArgs (n + 1)) fun es => ∀ e ∈ es, e.Proper := by
  rw [Parser.callArgs]
  exact .succ (.expect fun _ => .bind gives_skipVoid rfl fun _ _ =>
    .punct .nil (ih.argTail.mono rfl))

theorem argTail_succ :
    Gives (n + 1) 6 1 0 (Parser.argTail (n + 1)) fun es => ∀ e ∈ es, e.Proper := by
  rw [Parser.argTail]
  refine .succ (.bind ih.assignment rfl fun e he =>
    .punct (.one he) ?_)
  refine .expect fun _ => .bind ih.argTail rfl fun others hothers => .cons he hothers

theorem arraySuffix_succ {t : ShaderType} (ht : t.isProper = true) :
    Gives (n + 1) 1 0 0 (Parser.arraySuffix (n + 1) t) fun t => t.isProper = true := by
  rw [Parser.arraySuffix]
  refine .succ (.punct
    (.punct (.pure ht) (.bind ih.conditional rfl fun e _ => ?_)) (.pure ht))
  split
  · split
    · exact .expect fun _ => .pure ht
    · exact .fail rfl
  · exact .expect fun _ => .pure ht
  · exact .fail rfl

end ReadsExprs

/-- **Expressions that have been read name only proper types.** -/
theorem readsExprs : ∀ n, ReadsExprs n
  | 0 => by constructor <;> intros <;> exact .spent
  | n + 1 =>
    have ih := readsExprs n
    { expression := ih.expression_succ
      commaTail := ih.commaTail_succ
      assignment := ih.assignment_succ
      conditional := ih.conditional_succ
      binary := fun strength => by
        rw [binary]
        exact .succ (.bind ih.unary rfl fun lhs hlhs => (ih.binaryTail strength lhs hlhs).mono rfl)
      binaryTail := fun strength _ hlhs => ih.binaryTail_succ strength hlhs
      unary := ih.unary_succ
      postfixTail := fun _ he => ih.postfixTail_succ he
      primary := ih.primary_succ
      callArgs := ih.callArgs_succ
      argTail := ih.argTail_succ
      arraySuffix := fun _ ht => ih.arraySuffix_succ ht }

/-! ## Statements -/

theorem gives_typeSpec : Gives n 0 1 0 (typeSpec n) fun t => t.isProper = true := by
  unfold typeSpec
  refine .peek peeks_peek (.fail rfl) fun t => .ite (.see (sees_typeNamed t.text) fun o ho =>
    ?_) (.fail rfl)
  cases o with
  | none => exact .fail rfl
  | some type => exact .skip (((readsExprs n).arraySuffix type (ho type rfl)).mono rfl)

theorem isProper_declaredType (h : t.isProper = true) (init : Option Expr) :
    (declaredType t init).isProper = true := by
  unfold declaredType
  split
  · exact ShaderType.isProper_sized h _
  · exact h

theorem gives_declarators : ∀ (n : Nat) (storage : Storage) (base : ShaderType) (name : String),
    base.isProper = true →
      Gives n 2 1 0 (declarators n storage base name) fun ds => ∀ d ∈ ds, d.Proper
  | 0, _, _, _, _ => .spent
  | n + 1, storage, base, name, hbase => by
    rw [declarators]
    refine .succ (.bind ((readsExprs n).arraySuffix base hbase) rfl fun type htype => ?_)
    -- with and without an initial value, reading goes on in the same way
    have hrest : ∀ init : Option Expr, (∀ e ∈ init.toList, e.Proper) → Gives n 1 1 0 (do
        let decl : VarDecl := ⟨storage, declaredType type init, name, init⟩
        if ← eatPunct ";" then
          return [decl]
        else
          expectPunct ","
          let another ← expectIdent
          let others ← declarators n storage base another
          return decl :: others) fun ds => ∀ d ∈ ds, d.Proper := by
      intro init hinit
      have hd : VarDecl.Proper ⟨storage, declaredType type init, name, init⟩ :=
        ⟨isProper_declaredType htype init, hinit⟩
      refine .punct (.one hd) ?_
      refine .expect fun _ => .ident fun another => ?_
      exact .bind (gives_declarators n storage base another hbase) rfl fun others hothers =>
        .cons hd hothers
    refine .punct (.bind (readsExprs n).assignment rfl fun e he => ?_) ?_
    · exact (hrest (some e) (forall_mem_singleton.mpr he)).mono rfl
    · exact (hrest none (forall_mem_nil _)).mono rfl

theorem proper_stmt {s : Stmt} (hown : s.isImproper = false) (hoperands :
    ∀ e ∈ s.operands, e.Proper)
    (hchildren : ∀ c ∈ s.children, c.Proper) : s.Proper :=
  Stmt.avoids_iff.mpr ⟨hown, hoperands, hchildren⟩

theorem gives_localQualifiers : ∀ (n : Nat) (storage : Storage),
    Gives n 1 0 0 (localQualifiers n storage) fun _ => True
  | 0, _ => .spent
  | n + 1, storage => by
    rw [localQualifiers]
    refine .succ (.peek peeks_peekText (.pure trivial) fun text =>
      .ite ?_ (.ite ?_ (.pure trivial)))
    · exact .skip ((gives_localQualifiers n _).mono rfl)
    · exact .skip ((gives_localQualifiers n _).mono rfl)

theorem gives_localDeclaration : Gives n 1 1 0 (localDeclaration n) Stmt.Proper := by
  unfold localDeclaration
  refine .bind (gives_localQualifiers n _) rfl fun storage _ =>
    .bind (gives_typeSpec n) rfl fun type htype => ?_
  refine .ident fun name => ?_
  refine .bind (gives_declarators n storage type name htype) rfl fun ds hds => .pure ?_
  refine proper_stmt ?_ (fun e he => ?_) (forall_mem_nil _)
  · simpa [Stmt.isImproper] using fun d hd => (hds d hd).1
  · obtain ⟨d, hd, he⟩ := mem_filterMap.mp he
    exact (hds d hd).2 e (Option.mem_toList.mpr he)

theorem gives_parenthesised : Gives n 0 1 0 (parenthesised n) Expr.Proper := by
  unfold parenthesised
  refine .expect fun _ => .bind (readsExprs n).expression rfl fun e he => ?_
  exact .expect fun _ => .pure he

theorem gives_jump {s : Stmt} (h : s.Proper) : Gives n 0 1 0 (jump s) Stmt.Proper := by
  unfold jump
  exact .bind gives_skip rfl fun _ _ => .expect fun _ => .pure h

theorem gives_expressionStatement : Gives n 6 1 0 (expressionStatement n) Stmt.Proper := by
  unfold expressionStatement
  refine .bind (readsExprs n).expression rfl fun e he => .expect fun _ => .pure ?_
  exact proper_stmt rfl (forall_mem_singleton.mpr he) (forall_mem_nil _)

theorem gives_returnValue : Gives n 0 1 1 (returnValue n) Stmt.Proper := by
  unfold returnValue
  refine .skip (.punct (.pure ?_) ?_)
  · exact proper_stmt rfl (forall_mem_nil _) (forall_mem_nil _)
  · refine .bind (readsExprs n).expression rfl fun e he => .expect fun _ => .pure ?_
    exact proper_stmt rfl (forall_mem_singleton.mpr he) (forall_mem_nil _)

theorem gives_forStart : Gives n 6 0 0 (forStart n) fun o => ∀ s ∈ o.toList, s.Proper := by
  unfold forStart
  refine .punct (.pure (forall_mem_nil _)) (.look rfl fun _ => .ite ?_ ?_)
  · exact .bind (gives_localDeclaration n) rfl fun s hs => .pure (forall_mem_singleton.mpr hs)
  · exact .bind (gives_expressionStatement n) rfl fun s hs => .pure (forall_mem_singleton.mpr hs)

theorem gives_upTo (close : String) :
    Gives n 6 0 0 (upTo n close) fun o => ∀ e ∈ o.toList, e.Proper := by
  unfold upTo
  refine .look rfl fun _ => .ite (.bind gives_skip rfl fun _ _ => .pure (forall_mem_nil _)) ?_
  exact .bind (readsExprs n).expression rfl fun e he => .expect fun _ =>
    .pure (forall_mem_singleton.mpr he)

/-- A label has taken tokens, and where there is none nothing is taken. -/
theorem caseLabel_cases (s : Stream) : caseLabel n s = .ok (none, s) ∨
    Meets n 0 1 s (fun o => ∃ l, o = some l) (caseLabel n s) := by
  unfold caseLabel
  rcases takesOne_eatIdent "case" s with hno | ⟨hyes, hlength⟩
  · rw [bind_of_ok hno, if_neg Bool.false_ne_true]
    rcases takesOne_eatIdent "default" s with hneither | ⟨hyes, hlength⟩
    · exact .inl (bind_of_ok hneither)
    · have hend : Gives n (0 + 16 * 1) (1 - 1) 0 (expectPunct ":" >>= fun _ =>
          Pure.pure (some CaseLabel.default)) fun o => ∃ l, o = some l :=
        .expect fun _ => .pure ⟨_, rfl⟩
      rw [bind_of_ok hyes]
      exact .inr (.after (passes_tail hlength) (hend _ (Nat.zero_le _)))
  · rw [bind_of_ok hyes]
    have hvalue : Gives n (0 + 16 * 1) (1 - 1) 0 (conditional n >>= fun value => expectPunct ":" >>=
        fun _ => Pure.pure (some (CaseLabel.value value))) fun o => ∃ l, o = some l :=
      .bind (readsExprs n).conditional rfl fun value _ =>
        .expect fun _ => .pure ⟨_, rfl⟩
    exact .inr (.after (passes_tail hlength) (hvalue _ (Nat.zero_le _)))

theorem Gives.label {β : Type} {P : β → Prop} {c k : Nat} {f : Option CaseLabel → Parser β}
    (hsome : ∀ l, Gives n (c + 16) (k - 1) 0 (f (some l)) P) (hnone : Gives n c k 0 (f none) P) :
    Gives n c k 0 (caseLabel n >>= f) P := by
  intro s hs
  rcases caseLabel_cases n s with h | h
  · rw [bind_of_ok h]
    exact hnone s hs
  · refine .bind h (Nat.zero_le _) fun o ho => ?_
    obtain ⟨l, rfl⟩ := ho
    exact hsome l

/-- All types that the branches of a `switch` name are proper. -/
def ProperCases (cs : List Case) : Prop :=
  ∀ s ∈ cs.flatMap Case.body, s.Proper

theorem properCases_addLabel (label : CaseLabel) {cs : List Case} (h : ProperCases cs) :
    ProperCases (addLabel label cs) := by
  unfold addLabel
  split
  · exact h
  · exact h

/-- The readers of statements with a budget of `n` calls give statements with proper types. -/
structure ReadsStmts (n : Nat) : Prop where
  statement : Gives n 7 1 0 (statement n) Stmt.Proper
  block : Gives n 1 1 0 (block n) fun ss => ∀ s ∈ ss, s.Proper
  blockTail : Gives n 8 1 0 (blockTail n) fun ss => ∀ s ∈ ss, s.Proper
  switchTail : ∀ cs, ProperCases cs → Gives n 8 1 0 (switchTail n cs) ProperCases

namespace ReadsStmts

variable {n : Nat} (ih : ReadsStmts n)
include ih

theorem statement_succ : Gives (n + 1) 7 1 0 (Parser.statement (n + 1)) Stmt.Proper := by
  have hplain : ∀ {s : Stmt}, s.isImproper = false → s.operands = [] → s.children = [] →
      s.Proper := by
    grind [proper_stmt]
  have hloop : ∀ {s : Stmt} {cond : Expr} {body : Stmt}, s.isImproper = false →
      s.operands = [cond] → s.children = [body] → cond.Proper → body.Proper → s.Proper := by
    grind [proper_stmt]
  rw [Parser.statement]
  refine .succ (.peek peeks_peek (.fail rfl) fun t => .ite ?_ (.ite (.skip (.pure (hplain rfl rfl
    rfl))) ?_))
  · exact .bind ih.block rfl fun body hbody => .pure (proper_stmt rfl (forall_mem_nil _) hbody)
  split
  · refine .skip (.bind (gives_parenthesised n) rfl fun cond hcond =>
      .bind ih.statement rfl fun x hx => ?_)
    refine .word ?_ ?_
    · refine .bind ih.statement rfl fun y hy => .pure ?_
      refine proper_stmt rfl (forall_mem_singleton.mpr hcond) ?_
      exact forall_mem_cons.mpr ⟨hx, forall_mem_singleton.mpr hy⟩
    · exact .pure (hloop rfl rfl rfl hcond hx)
  · refine .skip (.expect fun _ => .bind (gives_forStart n) rfl fun start hstart => ?_)
    refine .bind (gives_upTo n _) rfl fun cond hcond => .bind (gives_upTo n _) rfl fun step hstep
      => ?_
    refine .bind ih.statement rfl fun body hbody => .pure ?_
    exact proper_stmt rfl (forall_mem_append.mpr ⟨hcond, hstep⟩)
      (forall_mem_append.mpr ⟨hstart, forall_mem_singleton.mpr hbody⟩)
  · refine .skip (.bind (gives_parenthesised n) rfl fun cond hcond => ?_)
    exact .bind ih.statement rfl fun body hbody => .pure (hloop rfl rfl rfl hcond hbody)
  · refine .skip (.bind ih.statement rfl fun body hbody => .word ?_ (.fail rfl))
    exact .bind (gives_parenthesised n) rfl fun cond hcond => .expect fun _ =>
      .pure (hloop rfl rfl rfl hcond hbody)
  · refine .skip (.bind (gives_parenthesised n) rfl fun selector hselector => ?_)
    refine .expect fun _ => ?_
    refine .bind (ih.switchTail [] (forall_mem_nil _)) rfl fun cs hcs => ?_
    exact .pure (proper_stmt rfl (forall_mem_singleton.mpr hselector) hcs)
  · exact fun s hs => (gives_returnValue n s hs).mono (by decide) (by decide)
  · exact (gives_jump n (hplain rfl rfl rfl)).mono rfl
  · exact (gives_jump n (hplain rfl rfl rfl)).mono rfl
  · exact (gives_jump n (hplain rfl rfl rfl)).mono rfl
  · exact .bind (gives_skipStatement (Nat.le_refl 1)) rfl fun _ _ => .pure (hplain rfl rfl rfl)
  · exact .look rfl fun _ => .ite ((gives_localDeclaration n).mono rfl)
      ((gives_expressionStatement n).mono rfl)

theorem blockTail_succ :
    Gives (n + 1) 8 1 0 (Parser.blockTail (n + 1)) fun ss => ∀ s ∈ ss, s.Proper := by
  rw [Parser.blockTail]
  refine .succ (.punct .nil (.look rfl fun o => ?_))
  cases o with
  | none => exact .fail rfl
  | some _ =>
    exact .bind ih.statement rfl fun s hs => .bind ih.blockTail rfl fun others hothers =>
      .cons hs hothers

theorem switchTail_succ {cs : List Case} (hcs : ProperCases cs) :
    Gives (n + 1) 8 1 0 (Parser.switchTail (n + 1) cs) ProperCases := by
  rw [Parser.switchTail.eq_def]
  dsimp only
  refine .succ (.punct (.pure fun s hs => ?_) (.label n (fun label => ?_) ?_))
  · obtain ⟨c, hc, hs⟩ := mem_flatMap.mp hs
    exact hcs s (mem_flatMap.mpr ⟨c, mem_reverse.mp hc, hs⟩)
  · exact (ih.switchTail _ (properCases_addLabel label hcs)).mono rfl
  · cases cs with
    | nil => exact .fail rfl
    | cons c earlier =>
      obtain ⟨labels, body⟩ := c
      refine .bind ih.statement rfl fun s hs => (ih.switchTail _ ?_).mono rfl
      obtain ⟨hbody, hearlier⟩ := forall_mem_append.mp hcs
      refine forall_mem_append.mpr ⟨?_, hearlier⟩
      exact forall_mem_append.mpr ⟨hbody, forall_mem_singleton.mpr hs⟩

end ReadsStmts

/-- **Statements that have been read name only proper types.** -/
theorem readsStmts : ∀ n, ReadsStmts n
  | 0 => by constructor <;> intros <;> exact .spent
  | n + 1 =>
    have ih := readsStmts n
    { statement := ih.statement_succ
      block := by
        rw [block]
        exact .succ (.expect fun _ => ih.blockTail.mono rfl)
      blockTail := ih.blockTail_succ
      switchTail := fun _ hcs => ih.switchTail_succ hcs }

/-! ## Programs -/

theorem gives_globalQualifiers : ∀ (n : Nat) (storage : Storage),
    Gives n 1 0 0 (globalQualifiers n storage) fun _ => True
  | 0, _ => .spent
  | n + 1, storage => by
    have hnext : ∀ storage, Gives n (0 + 16) (0 - 1) 0 (globalQualifiers n storage) fun _ => True :=
      fun storage => (gives_globalQualifiers n storage).mono rfl
    rw [globalQualifiers]
    refine .succ (.peek peeks_peekText (.fail rfl) fun text => ?_)
    dsimp only
    split
    case h_7 => exact .skip (.bind gives_skipParens rfl fun _ _ => (hnext _).mono rfl)
    case h_8 => exact .ite (.skip (hnext _)) (.pure trivial)
    all_goals exact .skip (hnext _)

theorem gives_paramQualifiers : ∀ (n : Nat) (passing : Passing),
    Gives n 1 0 0 (paramQualifiers n passing) fun _ => True
  | 0, _ => .spent
  | n + 1, passing => by
    have hnext : ∀ passing, Gives n 0 0 1 (skip >>= fun _ => paramQualifiers n passing) fun _ =>
      True :=
      fun passing => .skip ((gives_paramQualifiers n passing).mono rfl)
    rw [paramQualifiers]
    exact .succ (.peek peeks_peekText (.pure trivial) fun text =>
      .ite (hnext _) (.ite (hnext _) (.ite (hnext _) (.pure trivial))))

theorem gives_paramName (position : Nat) : Gives n 0 0 0 (paramName position) fun _ => True := by
  unfold paramName
  exact .peek peeks_peek (.pure trivial) fun t => .ite (.skip (.pure trivial)) (.pure trivial)

theorem gives_paramTail : ∀ n position : Nat,
    Gives n 2 1 0 (paramTail n position) fun ps => ∀ q ∈ ps, q.type.isProper = true
  | 0, _ => .spent
  | n + 1, position => by
    rw [paramTail]
    refine .succ (.bind (gives_paramQualifiers n _) rfl fun passing _ => ?_)
    refine .bind (gives_typeSpec n) rfl fun base hbase => .bind (gives_paramName n _) rfl fun name
      _ => ?_
    refine .bind ((readsExprs n).arraySuffix base hbase) rfl fun type htype => ?_
    refine .punct (.one htype) ?_
    refine .expect fun _ => ?_
    exact .bind (gives_paramTail n (position + 1)) rfl fun others hothers =>
      .cons htype hothers

theorem gives_params : Gives n 0 1 0 (params n) fun ps => ∀ q ∈ ps, q.type.isProper = true := by
  unfold params
  exact .expect fun _ => .bind gives_skipVoid rfl fun _ _ =>
    .punct .nil ((gives_paramTail n 0).mono rfl)

theorem gives_memberNames : ∀ (n : Nat) {base : ShaderType}, base.isProper = true →
    Gives n 1 1 0 (memberNames n base) fun ms => ∀ m ∈ ms, m.type.isProper = true
  | 0, _, _ => .spent
  | n + 1, base, hbase => by
    rw [memberNames]
    refine .succ (.ident fun name => ?_)
    refine .bind ((readsExprs n).arraySuffix base hbase) rfl fun type htype => ?_
    refine .punct ?_ ?_
    · exact .bind (gives_memberNames n hbase) rfl fun others hothers =>
        .cons htype hothers
    · exact .expect fun _ => .one htype

theorem gives_skipPrecisions : ∀ n : Nat, Gives n 1 0 0 (skipPrecisions n) fun _ => True
  | 0 => .spent
  | n + 1 => by
    rw [skipPrecisions]
    exact .succ (.peek peeks_peekText (.pure trivial) fun text =>
      .ite (.skip ((gives_skipPrecisions n).mono rfl)) (.pure trivial))

theorem gives_members :
    ∀ n : Nat, Gives n 2 1 0 (members n) fun ms => ∀ m ∈ ms, m.type.isProper = true
  | 0 => .spent
  | n + 1 => by
    rw [members]
    refine .succ (.punct .nil ?_)
    refine .bind (gives_skipPrecisions n) rfl fun _ _ => .bind (gives_typeSpec n) rfl fun base
      hbase => ?_
    refine .bind (gives_memberNames n hbase) rfl fun ms hms => ?_
    exact .bind (gives_members n) rfl fun others hothers =>
      .pure (forall_mem_append.mpr ⟨hms, hothers⟩)

theorem gives_declareStruct (name : String) :
    Gives n 0 0 0 (declareStruct name) fun _ => True :=
  fun _ _ => ⟨trivial, suffix_rfl, Nat.le_refl _, rfl, rfl⟩

theorem gives_structItem : Gives n 0 1 0 (structItem n) fun is => ∀ i ∈ is, i.Proper := by
  unfold structItem
  refine .bind gives_skip rfl fun _ _ => .ident fun name => ?_
  refine .expect fun _ => .bind (gives_members n) rfl fun ms hms => ?_
  refine .bind (gives_declareStruct n name) rfl fun _ _ => ?_
  refine .punct (.one hms) ?_
  refine .ident fun first => ?_
  refine .bind (gives_declarators n _ _ first rfl) rfl fun ds hds => .pure ?_
  exact forall_mem_cons.mpr ⟨hms, forall_mem_singleton.mpr hds⟩

theorem gives_item : Gives n 1 1 0 (item n) fun is => ∀ i ∈ is, i.Proper := by
  unfold item
  refine .punct .nil (.word ?_ ?_)
  · exact .bind (gives_skipStatement (Nat.zero_le 1)) rfl fun _ _ => .nil
  refine .look rfl fun _ => .ite ((gives_structItem n).mono rfl) ?_
  refine .bind (gives_globalQualifiers n _) rfl fun storage _ => ?_
  refine .bind (gives_typeSpec n) rfl fun type htype => .ident fun name => ?_
  refine .look rfl fun _ => .ite ?_ ?_
  · refine .bind (gives_params n) rfl fun ps hps => ?_
    refine .punct .nil ?_
    refine .bind (readsStmts n).block rfl fun body hbody => .pure ?_
    exact forall_mem_singleton.mpr ⟨htype, hps, hbody⟩
  · exact .bind (gives_declarators n storage type name htype) rfl fun ds hds =>
      .one hds

theorem gives_items : ∀ n : Nat, Gives n 2 0 0 (items n) fun is => ∀ i ∈ is, i.Proper
  | 0 => .spent
  | n + 1 => by
    rw [items]
    refine .succ (.look rfl fun o => ?_)
    cases o with
    | none => exact .nil
    | some _ =>
      exact .bind (gives_item n) rfl fun first hfirst => .bind (gives_items n) rfl fun others
        hothers =>
        .pure (forall_mem_append.mpr ⟨hfirst, hothers⟩)

/-! ## Progress -/

/-- What the reader gives leaves fewer tokens, the last ones of those that were there. Sixteen calls
for each token and `c` more are never too few. -/
def Proceeds {α : Type} (c : Nat) (p : Nat → Parser α) : Prop :=
  ∀ n s, (∀ a t, p n s = .ok (a, t) → t.rest <:+ s.rest ∧ t.rest.length < s.rest.length) ∧
    ∀ e, p n s = .error e → 16 * s.rest.length + c ≤ n → e.fault ≠ .budgetSpent

theorem ne_budgetSpent {fault : SyntaxFault} (h : fault.isSpent = false) :
    fault ≠ .budgetSpent := by
  rintro rfl
  cases h

theorem proceeds_of_gives {α : Type} {P : α → Prop} {c : Nat} {p : Nat → Parser α}
    (h : ∀ n, Gives n c 1 0 (p n) P) : Proceeds c p := by
  intro n s
  refine ⟨fun a t hp => ?_, fun e hp hn => ne_budgetSpent (((h n).of_error hp).2 hn)⟩
  have hst := ((h n).of_ok hp).2
  exact ⟨hst.suffix, hst.taken⟩

theorem stopsIn_streamOf {source : String} {e : SyntaxError} (h : StopsIn (streamOf source) e) :
    (∃ t ∈ Token.tokenizePlaced source, t.isTrivia = false ∧ e.line = t.line ∧ e.column = t.column)
      ∨
      (∀ t ∈ Token.tokenizePlaced source, t.isTrivia = true) ∧ e.line = 0 ∧ e.column = 0 := by
  unfold streamOf at h
  dsimp only at h
  have hmem : ∀ t ∈ (Token.tokenizePlaced source).filter fun t => !t.isTrivia,
      t ∈ Token.tokenizePlaced source ∧ t.isTrivia = false := by simp
  split at h
  · rename_i last hlast
    rcases h with ⟨t, ht, hat⟩ | hat
    · exact .inl ⟨t, (hmem t ht).1, (hmem t ht).2, hat⟩
    · have hlast := hmem last (mem_of_getLast? hlast)
      exact .inl ⟨last, hlast.1, hlast.2, hat⟩
  · rename_i hnone
    rcases h with ⟨t, ht, -⟩ | hat
    · cases ht
    · refine .inr ⟨fun t ht => ?_, hat⟩
      simpa using filter_eq_nil_iff.mp (getLast?_eq_none_iff.mp hnone) t ht

end Parser

/-- **A program that has been read names only proper types.** -/
theorem Program.proper_of_parse {source : String} {p : Program}
    (h : Program.parse source = .ok p) : p.Proper := by
  unfold Program.parse at h
  dsimp only at h
  split at h
  · rename_i is rest heq
    obtain rfl := Except.ok.inj h
    exact ((Parser.gives_items _).of_ok heq).1
  · cases h

theorem Program.exists_of_parse {source : String} {test : Program → Bool}
    (h : (Program.parse source).toOption.any test = true) :
    ∃ p, Program.parse source = .ok p ∧ test p = true := by
  cases hp : Program.parse source with
  | error e =>
    rw [hp] at h
    cases h
  | ok p =>
    rw [hp] at h
    exact ⟨p, rfl, h⟩

/-- **Reading makes progress and ends.** Whatever a reader gives, it has taken a token. It never
comes back to itself at one position, as its calls are bounded by its rank in the order of descent
and sixteen for each token that is left. So every source is read, or reading stops with an error at
one of its tokens, and at 0:0 if it has none. -/
theorem Parser.proceeds_parse :
    (Proceeds 1 item ∧ Proceeds 7 statement ∧ Proceeds 6 expression ∧ Proceeds 5 assignment ∧
      Proceeds 4 conditional ∧ (∀ strength, Proceeds 3 fun n => binary n strength) ∧
      Proceeds 2 unary ∧ (Proceeds 1 fun n => primary n >>= postfixTail n) ∧ Proceeds 1 primary) ∧
    ∀ source, (∃ p, Program.parse source = .ok p) ∨
      ∃ e, Program.parse source = .error e ∧ e.fault ≠ .budgetSpent ∧
        ((∃ t ∈ Token.tokenizePlaced source, t.isTrivia = false ∧
            e.line = t.line ∧ e.column = t.column) ∨
          (∀ t ∈ Token.tokenizePlaced source, t.isTrivia = true) ∧ e.line = 0 ∧ e.column = 0) := by
  refine ⟨⟨proceeds_of_gives gives_item, proceeds_of_gives fun n => (readsStmts n).statement,
    proceeds_of_gives fun n => (readsExprs n).expression,
    proceeds_of_gives fun n => (readsExprs n).assignment,
    proceeds_of_gives fun n => (readsExprs n).conditional,
    fun strength => proceeds_of_gives fun n => (readsExprs n).binary strength,
    proceeds_of_gives fun n => (readsExprs n).unary,
    proceeds_of_gives fun n => .bind (readsExprs n).primary rfl fun e he =>
      ((readsExprs n).postfixTail e he).mono rfl,
    proceeds_of_gives fun n => (readsExprs n).primary⟩, fun source => ?_⟩
  unfold Program.parse
  dsimp only
  cases hitems : items (budget (streamOf source)) (streamOf source) with
  | ok r => exact .inl ⟨_, rfl⟩
  | error e =>
    obtain ⟨hstops, hspent⟩ := (gives_items _).of_error hitems
    refine .inr ⟨e, rfl, ne_budgetSpent (hspent ?_), stopsIn_streamOf hstops⟩
    unfold budget
    omega

end ShaderEffect
