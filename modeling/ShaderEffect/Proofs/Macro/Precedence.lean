import Mathlib
import ShaderEffect.Macro.Condition

/-!
# Conditions and their trees

A condition is read by climbing from weak operators to strong ones. `Written` says which tokens write
an expression tree, with all the parentheses that the binding strengths of C ask for and with any
others; `Tree.value` and `Tree.Faulty` say what the tree comes to in words of 64 bits. **Whatever
tokens write a tree, they evaluate to its value, and to none exactly if some part of the tree is at
fault** (`evaluate_written`).
-/

namespace ShaderEffect.Condition

open List

/-! ## Trees -/

/-- A condition as a tree, with its literals as they are written. -/
inductive Tree where
  | int (text : String)
  | name (text : String)
  | unary (op : UnaryOp) (operand : Tree)
  | binary (op : BinOp) (lhs rhs : Tree)

def Fits (v : Int) : Prop :=
  -2 ^ 63 ≤ v ∧ v < 2 ^ 63

def unaryValue : UnaryOp → Int64 → Int64
  | .not, a => if a = 0 then 1 else 0
  | .neg, a => -a
  | .bitNot, a => ~~~a
  | _, a => a

def unaryFault : UnaryOp → Int64 → Prop
  | .neg, a => ¬ Fits (-a.toInt)
  | _, _ => False

def binaryValue : BinOp → Int64 → Int64 → Int64
  | .or, a, b => if a ≠ 0 ∨ b ≠ 0 then 1 else 0
  | .and, a, b => if a ≠ 0 ∧ b ≠ 0 then 1 else 0
  | .bitOr, a, b => a ||| b
  | .bitXor, a, b => a ^^^ b
  | .bitAnd, a, b => a &&& b
  | .eq, a, b => if a = b then 1 else 0
  | .ne, a, b => if a ≠ b then 1 else 0
  | .lt, a, b => if a < b then 1 else 0
  | .gt, a, b => if b < a then 1 else 0
  | .le, a, b => if a ≤ b then 1 else 0
  | .ge, a, b => if b ≤ a then 1 else 0
  | .shl, a, b => a <<< b
  | .shr, a, b => a >>> b
  | .add, a, b => a + b
  | .sub, a, b => a - b
  | .mul, a, b => a * b
  | .div, a, b => a / b
  | .rem, a, b => a % b
  | .xor, _, _ => 0

/-- An exact result that is no word, a division by zero, or a shift that is no shift. A remainder is
out of range if its quotient is. -/
def binaryFault : BinOp → Int64 → Int64 → Prop
  | .add, a, b => ¬ Fits (a.toInt + b.toInt)
  | .sub, a, b => ¬ Fits (a.toInt - b.toInt)
  | .mul, a, b => ¬ Fits (a.toInt * b.toInt)
  | .div, a, b | .rem, a, b => b = 0 ∨ ¬ Fits (a.toInt.tdiv b.toInt)
  | .shl, _, b | .shr, _, b => b.toInt < 0 ∨ 64 ≤ b.toInt
  | _, _, _ => False

namespace Tree

/-- The value of a tree none of whose parts is at fault. -/
def value : Tree → Int64
  | .int text => (literalValue text).getD 0
  | .name _ => 0
  | .unary op t => unaryValue op t.value
  | .binary op l r => binaryValue op l.value r.value

/-- Some part of the tree is at fault, on whichever side of `&&` and `||` it stands. -/
def Faulty : Tree → Prop
  | .int text => literalValue text = none
  | .name _ => False
  | .unary op t => t.Faulty ∨ unaryFault op t.value
  | .binary op l r => l.Faulty ∨ r.Faulty ∨ binaryFault op l.value r.value

/-- The tree with its literals read, if all of them can be. -/
def lift : Tree → Option Condition
  | .int text => (literalValue text).map .literal
  | .name text => some (.name text)
  | .unary op t => t.lift.map (.unary op)
  | .binary op l r => l.lift.bind fun a => r.lift.map (.binary op a)

end Tree

/-! ## Writing -/

def signs : List (String × UnaryOp) :=
  [("!", .not), ("-", .neg), ("+", .plus), ("~", .bitNot)]

/-- The binding strength of an operator in C. -/
def level : BinOp → Nat
  | .or => 1
  | .and => 2
  | .bitOr => 3
  | .bitXor => 4
  | .bitAnd => 5
  | .eq | .ne => 6
  | .lt | .gt | .le | .ge => 7
  | .shl | .shr => 8
  | .add | .sub => 9
  | .mul | .div | .rem => 10
  | .xor => 0

def mark (text : String) : Token :=
  ⟨.punct, text⟩

/-- The tokens write the tree at a place where operators of at least the given level may stand. An
operator takes operators of its own level on its left only; parentheses may stand anywhere. -/
inductive Written : Nat → Tree → List Token → Prop
  | int {k text} : Written k (.int text) [⟨.int, text⟩]
  | name {k text} : Written k (.name text) [⟨.ident, text⟩]
  | parens {k t ts} : Written 0 t ts → Written k t (mark "(" :: ts ++ [mark ")"])
  | unary {k text op t ts} : (text, op) ∈ signs → Written 11 t ts →
    Written k (.unary op t) (mark text :: ts)
  | binary {k op l r ls rs} : op ≠ .xor → k ≤ level op → Written (level op) l ls →
    Written (level op + 1) r rs → Written k (.binary op l r) (ls ++ mark op.symbol :: rs)

variable {op : BinOp} {sign : UnaryOp} {text : String} {t : Tree} {ts rest : List Token}
  {k least : Nat}

/-! ## Reading what is written -/

/-- From some fuel on, the reader gives the result. -/
def Settles {α : Type} (f : Nat → α) (r : α) (b : Nat) : Prop :=
  ∀ n, b ≤ n → f n = r

/-- No operator follows that is stronger than the level. -/
def Stops (k : Nat) (rest : List Token) : Prop :=
  ∀ t ∈ rest.head?, ∀ op, binOp? t = some op → level op ≤ k

theorem binOp?_mark (h : op ≠ .xor) : binOp? (mark op.symbol) = some op := by
  cases op <;> first | decide | exact absurd rfl h

theorem ne_xor_of_binOp? {u : Token} (h : binOp? u = some op) : op ≠ .xor := by
  unfold binOp? at h
  split at h
  · simpa using (Option.filter_eq_some_iff.mp h).2
  · cases h

theorem precedence_lt_iff {op' : BinOp} (h : op ≠ .xor) (h' : op' ≠ .xor) :
    op.precedence < op'.precedence ↔ level op < level op' := by
  cases op <;> cases op' <;> first | decide | exact absurd rfl h | exact absurd rfl h'

theorem unaryOp?_of_mem (h : (text, sign) ∈ signs) :
    unaryOp? text = some sign ∧ text ≠ "(" := by
  simp only [signs, mem_cons, Prod.mk.injEq, not_mem_nil, or_false] at h
  rcases h with ⟨rfl, rfl⟩ | ⟨rfl, rfl⟩ | ⟨rfl, rfl⟩ | ⟨rfl, rfl⟩ <;> decide

/-- Reading ends before an operator that is too weak. -/
theorem settles_readRest (c : Condition)
    (h : ∀ t ∈ rest.head?, ∀ op, binOp? t = some op → op.precedence < least) :
    Settles (readRest · least c rest) (some (c, rest)) 1 := by
  intro n hn
  obtain ⟨n, rfl⟩ := Nat.exists_eq_add_of_le' hn
  cases rest with
  | nil => rfl
  | cons t ts =>
    cases hop : binOp? t with
    | none => simp only [readRest, hop]
    | some op => simp only [readRest, hop, if_pos (h t rfl op hop)]

/-- The tokens are read as one operand, whatever follows. -/
def ReadsOperand (t : Tree) (ts : List Token) : Prop :=
  ∀ rest, Settles (readOperand · (ts ++ rest)) (t.lift.map (·, rest)) (3 * ts.length - 1)

/-- Reading goes on behind the tokens as if the tree had been read. -/
def ReadsFrom (k : Nat) (t : Tree) (ts : List Token) : Prop :=
  ∀ least rest r b, (∀ op, op ≠ .xor → k ≤ level op → least ≤ op.precedence) → Stops k rest →
    (∀ c, t.lift = some c → Settles (readRest · least c rest) r b) → (t.lift = none → r = none) →
      Settles (readFrom · least (ts ++ rest)) r (b + 3 * ts.length)

theorem ReadsOperand.readsFrom (h : ReadsOperand t ts) (hts : ts ≠ []) : ReadsFrom k t ts := by
  intro least rest r b _ _ hsome hnone n hn
  have hlength := length_pos_iff.mpr hts
  obtain ⟨n, rfl⟩ : ∃ m, n = m + 1 := ⟨n - 1, by omega⟩
  dsimp only
  rw [readFrom, show readOperand n (ts ++ rest) = _ from h rest n (by omega)]
  cases hc : t.lift with
  | none => exact (hnone hc).symm
  | some c => exact hsome c hc n (by omega)

theorem readsOperand_parens (h : ReadsFrom 0 t ts) :
    ReadsOperand t (mark "(" :: ts ++ [mark ")"]) := by
  intro rest n hn
  simp only [length_append, length_cons, length_nil] at hn
  obtain ⟨n, rfl⟩ : ∃ m, n = m + 1 := ⟨n - 1, by omega⟩
  have hclose : ∀ u ∈ (mark ")" :: rest).head?, ∀ op, binOp? u ≠ some op := by
    rintro _ ⟨⟩ op h
    exact absurd (h.symm.trans (by decide : binOp? (mark ")") = none)) (Option.some_ne_none op)
  have hinner := h 0 (mark ")" :: rest) (t.lift.map (·, mark ")" :: rest)) 1
    (fun _ _ _ => Nat.zero_le _) (fun u hu op hop => absurd hop (hclose u hu op))
    (fun c hc => hc ▸ settles_readRest c fun u hu op hop => absurd hop (hclose u hu op))
    (fun hc => by rw [hc]; rfl) n (by omega)
  simp only [cons_append, append_assoc, nil_append, readOperand, mark] at hinner ⊢
  rw [if_pos (by decide), hinner]
  cases t.lift <;> rfl

theorem readsOperand_unary (hop : (text, sign) ∈ signs) (h : ReadsOperand t ts) :
    ReadsOperand (.unary sign t) (mark text :: ts) := by
  intro rest n hn
  rw [length_cons] at hn
  obtain ⟨n, rfl⟩ : ∃ m, n = m + 1 := ⟨n - 1, by omega⟩
  obtain ⟨hsign, hopen⟩ := unaryOp?_of_mem hop
  simp only [cons_append, readOperand, mark, hsign, beq_iff_eq, if_neg hopen]
  rw [show readOperand n (ts ++ rest) = _ from h rest n (by omega), Tree.lift]
  cases t.lift <;> rfl

theorem readsFrom_binary {l r : Tree} {ls rs : List Token} (hop : op ≠ .xor) (hk : k ≤ level op)
    (hl : ReadsFrom (level op) l ls) (hr : ReadsFrom (level op + 1) r rs) :
    ReadsFrom k (.binary op l r) (ls ++ mark op.symbol :: rs) := by
  intro least rest out b hleast hstops hsome hnone
  have hweak : Stops (level op) rest :=
    fun u hu op' hop' => Nat.le_trans (hstops u hu op' hop') hk
  have hright := hr (op.precedence + 1) rest (r.lift.map (·, rest)) 1
    (fun op' hop' hlevel => (precedence_lt_iff hop hop').mpr hlevel)
    (fun u hu op' hop' => Nat.le_succ_of_le (hweak u hu op' hop'))
    (fun c hc => hc ▸ settles_readRest c fun u hu op' hop' => Nat.lt_succ_of_le (Nat.not_lt.mp
      fun hlt => Nat.not_lt.mpr (hweak u hu op' hop')
        ((precedence_lt_iff hop (ne_xor_of_binOp? hop')).mp hlt)))
    fun hc => by rw [hc]; rfl
  have hleft := hl least (mark op.symbol :: rs ++ rest) out (b + 3 * rs.length + 2)
    (fun op' hop' hlevel => hleast op' hop' (Nat.le_trans hk hlevel)) ?_ ?_ ?_
  · intro n hn
    rw [append_assoc]
    refine hleft n ?_
    simp only [length_append, length_cons] at hn
    omega
  · rintro _ ⟨⟩ op' hop'
    rw [binOp?_mark hop] at hop'
    exact Option.some.inj hop' ▸ Nat.le_refl _
  · intro a ha n hn
    obtain ⟨n, rfl⟩ : ∃ m, n = m + 1 := ⟨n - 1, by omega⟩
    simp only [cons_append, readRest, binOp?_mark hop]
    rw [if_neg (Nat.not_lt.mpr (hleast op hop hk)),
      show readFrom n _ (rs ++ rest) = _ from hright n (by omega)]
    cases hc : r.lift with
    | none => exact (hnone (by rw [Tree.lift, ha, hc]; rfl)).symm
    | some c => exact hsome _ (by rw [Tree.lift, ha, hc]; rfl) n (by omega)
  · intro ha
    exact hnone (by rw [Tree.lift, ha]; rfl)

/-- An operand is read at once, and an expression step by step. -/
theorem readsFrom_written (h : Written k t ts) :
    ReadsFrom k t ts ∧ (10 < k → ReadsOperand t ts) := by
  have hone : ∀ {t : Tree} {ts : List Token} {k : Nat}, ReadsOperand t ts → ts ≠ [] →
      ReadsFrom k t ts ∧ (10 < k → ReadsOperand t ts) :=
    fun h hts => ⟨h.readsFrom hts, fun _ => h⟩
  induction h with
  | @int _ text =>
    refine hone (fun rest n hn => ?_) (cons_ne_nil _ _)
    obtain ⟨n, rfl⟩ : ∃ m, n = m + 1 := ⟨n - 1, by simp at hn; omega⟩
    simp only [cons_append, nil_append, readOperand, Tree.lift]
    cases literalValue text <;> rfl
  | name =>
    refine hone (fun rest n hn => ?_) (cons_ne_nil _ _)
    obtain ⟨n, rfl⟩ : ∃ m, n = m + 1 := ⟨n - 1, by simp at hn; omega⟩
    rfl
  | parens _ ih => exact hone (readsOperand_parens ih.1) (cons_ne_nil _ _)
  | unary hop _ ih => exact hone (readsOperand_unary hop (ih.2 (by decide))) (cons_ne_nil _ _)
  | @binary _ op _ _ _ _ hop hk _ _ ihl ihr =>
    refine ⟨readsFrom_binary hop hk ihl.1 ihr.1, fun h => ?_⟩
    have : level op ≤ 10 := by cases op <;> decide
    omega

theorem read_written (h : Written 0 t ts) : read ts = t.lift := by
  have hfrom := (readsFrom_written h).1 0 [] (t.lift.map (·, [])) 1 (fun _ _ _ => Nat.zero_le _)
    (fun _ hu => by cases hu) (fun c hc => hc ▸ settles_readRest c fun _ hu => by cases hu)
    (fun hc => by rw [hc]; rfl) (3 * ts.length + 3) (by omega)
  rw [append_nil] at hfrom
  unfold read
  rw [show readFrom _ 0 ts = _ from hfrom]
  cases t.lift <;> rfl

/-! ## Evaluating what is read -/

/-- There is no value if there is a fault, and else this one. -/
def Means (o : Option Int64) (fault : Prop) (v : Int64) : Prop :=
  (fault ∧ o = none) ∨ (¬ fault ∧ o = some v)

theorem means_some (v : Int64) : Means (some v) False v :=
  .inr ⟨id, rfl⟩

theorem fits_iff (v : Int) : Text.inInt64 v = true ↔ Fits v := by
  simp only [Text.inInt64, Fits, Bool.and_eq_true, decide_eq_true_eq]
  omega

/-- A result that fits is the one that wraps around. -/
theorem means_word {v : Int} {w : Int64} (h : w.toInt = v.bmod Int64.size) :
    Means (word? v) (¬ Fits v) w := by
  unfold word?
  split
  · rename_i hv
    refine .inr ⟨not_not_intro ((fits_iff v).mp hv), congrArg some (Int64.toInt_inj.mp ?_)⟩
    rw [h, Int64.toInt_ofInt]
  · rename_i hv
    exact .inl ⟨fun hfits => hv ((fits_iff v).mpr hfits), rfl⟩

theorem means_evalUnary (h : (text, sign) ∈ signs) (a : Int64) :
    Means (evalUnary sign a) (unaryFault sign a) (unaryValue sign a) := by
  simp only [signs, mem_cons, Prod.mk.injEq, not_mem_nil, or_false] at h
  rcases h with ⟨-, rfl⟩ | ⟨-, rfl⟩ | ⟨-, rfl⟩ | ⟨-, rfl⟩
  · exact .inr ⟨id, by simp [evalUnary, unaryValue, ofBool]⟩
  · exact means_word (Int64.toInt_neg a)
  · exact means_some a
  · exact means_some (~~~a)

theorem means_shift (b w : Int64) : Means (if isShiftAmount b then some w else none)
    (b.toInt < 0 ∨ 64 ≤ b.toInt) w := by
  unfold isShiftAmount Means
  split
  · rename_i h
    simp only [Bool.and_eq_true, decide_eq_true_eq] at h
    exact .inr ⟨by omega, rfl⟩
  · rename_i h
    simp only [Bool.and_eq_true, decide_eq_true_eq] at h
    exact .inl ⟨by omega, rfl⟩

theorem means_divided {a b w : Int64} {o : Option Int64}
    (h : b ≠ 0 → Means o (¬ Fits (a.toInt.tdiv b.toInt)) w) :
    Means (if b == 0 then none else o) (b = 0 ∨ ¬ Fits (a.toInt.tdiv b.toInt)) w := by
  by_cases hb : b = 0
  · exact .inl ⟨.inl hb, if_pos (beq_iff_eq.mpr hb)⟩
  · rw [if_neg (by simpa using hb)]
    simpa only [Means, hb, false_or] using h hb

theorem means_remainder (a b : Int64) :
    Means ((word? (a.toInt.tdiv b.toInt)).bind fun _ => word? (a.toInt.tmod b.toInt))
      (¬ Fits (a.toInt.tdiv b.toInt)) (a % b) := by
  have hword : word? (a.toInt.tmod b.toInt) = some (a % b) := by
    rw [← Int64.toInt_mod, word?, if_pos, Int64.ofInt_toInt]
    exact (fits_iff _).mpr ⟨Int64.le_toInt _, Int64.toInt_lt _⟩
  rcases means_word (Int64.toInt_div a b) with ⟨hfault, hnone⟩ | ⟨hfits, hsome⟩
  · exact .inl ⟨hfault, by rw [hnone]; rfl⟩
  · exact .inr ⟨hfits, by rw [hsome]; exact hword⟩

theorem means_evalBinary (h : op ≠ .xor) (a b : Int64) :
    Means (evalBinary op a b) (binaryFault op a b) (binaryValue op a b) := by
  cases op with
  | xor => exact absurd rfl h
  | add => exact means_word (Int64.toInt_add a b)
  | sub => exact means_word (Int64.toInt_sub a b)
  | mul => exact means_word (Int64.toInt_mul a b)
  | div => exact means_divided fun _ => means_word (Int64.toInt_div a b)
  | rem => exact means_divided fun _ => means_remainder a b
  | shl | shr => exact means_shift b _
  | bitAnd | bitOr | bitXor => exact means_some _
  | _ => exact .inr ⟨id, by simp [evalBinary, binaryValue, ofBool]⟩

theorem means_lift (h : Written k t ts) : Means (t.lift.bind eval) t.Faulty t.value := by
  induction h with
  | @int _ text =>
    unfold Tree.lift Tree.Faulty Tree.value
    cases hv : literalValue text with
    | none => exact .inl ⟨rfl, rfl⟩
    | some v => exact .inr ⟨Option.some_ne_none v, rfl⟩
  | name => exact means_some 0
  | parens _ ih => exact ih
  | @unary _ _ op t _ hop _ ih =>
    have hlift : (Tree.unary op t).lift.bind eval = (t.lift.bind eval).bind (evalUnary op) := by
      rw [Tree.lift]
      cases t.lift <;> rfl
    rw [hlift]
    rcases ih with ⟨hfault, hnone⟩ | ⟨hfine, hsome⟩
    · exact .inl ⟨.inl hfault, by rw [hnone]; rfl⟩
    · rw [hsome]
      exact (means_evalUnary hop t.value).imp (.imp_left .inr)
        (.imp_left fun h => not_or.mpr ⟨hfine, h⟩)
  | @binary _ op l r _ _ hop _ _ _ ihl ihr =>
    have hlift : (Tree.binary op l r).lift.bind eval =
        (l.lift.bind eval).bind fun a => (r.lift.bind eval).bind (evalBinary op a) := by
      rw [Tree.lift]
      cases l.lift with
      | none => rfl
      | some a => cases r.lift <;> simp [eval]
    rw [hlift]
    rcases ihl with ⟨hfault, hnone⟩ | ⟨hl, hsome⟩
    · exact .inl ⟨.inl hfault, by rw [hnone]; rfl⟩
    rcases ihr with ⟨hfault, hnone⟩ | ⟨hr, hsome'⟩
    · exact .inl ⟨.inr (.inl hfault), by rw [hsome, hnone]; rfl⟩
    · rw [hsome, hsome']
      exact (means_evalBinary hop l.value r.value).imp (.imp_left (.inr ∘ .inr))
        (.imp_left fun h => not_or.mpr ⟨hl, not_or.mpr ⟨hr, h⟩⟩)

/-- **Tokens that write a tree evaluate to its value if no part of it is at fault, and to none
otherwise.** -/
theorem evaluate_written (h : Written 0 t ts) :
    (∀ v, evaluate ts = some v ↔ ¬ t.Faulty ∧ t.value = v) ∧ (evaluate ts = none ↔ t.Faulty) := by
  unfold evaluate
  rw [read_written h]
  rcases means_lift h with ⟨hfault, hnone⟩ | ⟨hfine, hsome⟩
  · rw [hnone]
    simp [hfault]
  · rw [hsome]
    simp [hfine]

/-- Minus groups to the left. -/
theorem evaluate_written_leftwards :
    evaluate [⟨.ident, "x"⟩, mark "-", ⟨.int, "1"⟩, mark "-", ⟨.int, "1"⟩] = some (-2) := by
  have hone : literalValue "1" = some 1 := by cbv
  have h : Written 0 (.binary .sub (.binary .sub (.name "x") (.int "1")) (.int "1")) _ :=
    .binary (by decide) (by decide) (.binary (by decide) (by decide) .name .int) .int
  refine ((evaluate_written h).1 (-2)).mpr ⟨?_, ?_⟩
  · simp only [Tree.Faulty, Tree.value, binaryFault, binaryValue, hone, Fits, Option.getD_some]
    decide
  · simp only [Tree.value, binaryValue, hone, Option.getD_some]
    decide

end ShaderEffect.Condition
