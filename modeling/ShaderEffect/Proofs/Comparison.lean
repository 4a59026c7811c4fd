import ShaderEffect.Proofs.Determinism

/-!
# Comparisons

What `<` and `>=` mean for values that need not have an order. `Comparison` says this of a meaning, for
operands that are evaluated from left to right. Numbers of single precision are such values: there is
**a deterministic meaning with variables that hold them** (`floating`, `floatComparison`), in which
nothing is below or above what is not a number.
-/

namespace ShaderEffect

namespace Meaning

/-- The values of two operands from left to right, or none if one of them discards the fragment. -/
def Operands (m : Meaning) (x y : Expr) (sc : m.Scope) (s : m.Store) :
    Option (m.Value × m.Value) → m.Store → Prop
  | some p, t => ∃ u, m.eval x sc s (some p.1) u ∧ m.eval y sc u (some p.2) t
  | none, t => m.eval x sc s none t ∨ ∃ v u, m.eval x sc s (some v) u ∧ m.eval y sc u none t

/-- An order of values, which two values need not have, and that `<` and `>=` mean it. -/
structure Comparison (m : Meaning) where
  compare : m.Value → m.Value → Option Ordering
  tests_lt : ∀ x y sc s r t, m.Tests (.binary .lt x y) sc s r t ↔
    ∃ p, m.Operands x y sc s p t ∧ p.map (fun p => compare p.1 p.2 == some .lt) = r
  tests_ge : ∀ x y sc s r t, m.Tests (.binary .ge x y) sc s r t ↔
    ∃ p, m.Operands x y sc s p t ∧ p.map (fun p => (compare p.1 p.2).any Ordering.isGE) = r

/-- The condition is a comparison by `<` of operands that have no order. -/
def Comparison.Unordered {m : Meaning} (cmp : Comparison m) (c : Expr) (sc : m.Scope) (s : m.Store) :
    Prop :=
  ∃ x y p t, c = .binary .lt x y ∧ m.Operands x y sc s (some p) t ∧ cmp.compare p.1 p.2 = none

/-! ## Numbers of single precision -/

/-- The order of two numbers, which they do not have if one of them is not a number. -/
def floatOrder (x y : Float32) : Option Ordering :=
  if x < y then some .lt else if y < x then some .gt else if x == y then some .eq else none

abbrev FloatValue := Float32 ⊕ Bool

/-- The order of two values; truth values have none. -/
def FloatValue.order : FloatValue → FloatValue → Option Ordering
  | .inl x, .inl y => floatOrder x y
  | _, _ => none

def FloatValue.truth : FloatValue → Bool
  | .inl _ => false
  | .inr b => b

/-- The variables after one of them has been set; a truth value is not kept. -/
def setFloat (s : String → Float32) (name : String) : FloatValue → String → Float32
  | .inl x => fun n => if n = name then x else s n
  | .inr _ => s

mutual

/-- The value of an expression and the variables after it. -/
def floated : Expr → (String → Float32) → FloatValue × (String → Float32)
  | .ident name, s => (.inl (s name), s)
  | .unary .not e, s => (.inr (!(floated e s).1.truth), (floated e s).2)
  | .binary .lt x y, s =>
    let a := floated x s
    let b := floated y a.2
    (.inr (a.1.order b.1 == some .lt), b.2)
  | .binary .ge x y, s =>
    let a := floated x s
    let b := floated y a.2
    (.inr ((a.1.order b.1).any Ordering.isGE), b.2)
  | .assign none (.ident name) rhs, s =>
    let a := floated rhs s
    (a.1, setFloat a.2 name a.1)
  | .comma items, s => (.inr true, floatedAll items s)
  | _, s => (.inr true, s)

/-- The variables after expressions in order. -/
def floatedAll : List Expr → (String → Float32) → String → Float32
  | [], s => s
  | e :: es, s => floatedAll es (floated e s).2

end

def floating : Meaning where
  Scope := Unit
  Store := String → Float32
  Value := FloatValue
  eval e _ s v t := v = some (floated e s).1 ∧ t = (floated e s).2
  declare d _ s sc t :=
    sc = some () ∧ t = (d.init.map fun e => setFloat (floated e s).2 d.name (floated e s).1).getD s
  truth := FloatValue.truth
  equals _ _ := false
  eval_not e sc s r t := by
    constructor
    · rintro ⟨v, ⟨rfl, rfl⟩, rfl⟩
      exact ⟨_, ⟨rfl, rfl⟩, rfl⟩
    · rintro ⟨v, ⟨rfl, rfl⟩, rfl⟩
      exact ⟨_, ⟨rfl, rfl⟩, rfl⟩
  eval_comma_nil sc s r t := by
    constructor
    · rintro ⟨v, ⟨rfl, rfl⟩, rfl⟩
      exact ⟨rfl, rfl⟩
    · rintro ⟨rfl, rfl⟩
      exact ⟨_, ⟨rfl, rfl⟩, rfl⟩
  eval_comma_cons e es sc s r t := by
    constructor
    · rintro ⟨v, ⟨rfl, rfl⟩, rfl⟩
      exact .inl ⟨_, _, ⟨rfl, rfl⟩, _, ⟨rfl, rfl⟩, rfl⟩
    · rintro (⟨v, u, ⟨-, rfl⟩, w, ⟨rfl, rfl⟩, rfl⟩ | ⟨⟨hnone, -⟩, -⟩)
      · exact ⟨_, ⟨rfl, rfl⟩, rfl⟩
      · cases hnone

theorem tests_floating {e : Expr} {sc : Unit} {s t : String → Float32} {r : Option Bool} :
    floating.Tests e sc s r t ↔ t = (floated e s).2 ∧ some (floated e s).1.truth = r := by
  simp [Tests, floating, and_assoc]

theorem floating_deterministic : floating.Deterministic where
  eval := by
    rintro e sc s r r' t t' ⟨rfl, rfl⟩ ⟨rfl, rfl⟩
    exact ⟨rfl, rfl⟩
  declare := by
    rintro d sc s r r' t t' ⟨rfl, rfl⟩ ⟨rfl, rfl⟩
    exact ⟨rfl, rfl⟩

theorem operands_floating {x y : Expr} {sc : Unit} {s t : String → Float32}
    {p : Option (FloatValue × FloatValue)} :
    floating.Operands x y sc s p t ↔
      p = some ((floated x s).1, (floated y (floated x s).2).1) ∧
        t = (floated y (floated x s).2).2 := by
  cases p with
  | none => simp [Operands, floating]
  | some p => simp [Operands, floating, Prod.ext_iff, and_assoc]

def floatComparison : Comparison floating where
  compare := FloatValue.order
  tests_lt x y sc s r t := by
    refine tests_floating.trans ⟨fun h => ⟨_, operands_floating.mpr ⟨rfl, h.1⟩, h.2⟩, ?_⟩
    rintro ⟨p, hp, hr⟩
    obtain ⟨rfl, ht⟩ := operands_floating.mp hp
    exact ⟨ht, hr⟩
  tests_ge x y sc s r t := by
    refine tests_floating.trans ⟨fun h => ⟨_, operands_floating.mpr ⟨rfl, h.1⟩, h.2⟩, ?_⟩
    rintro ⟨p, hp, hr⟩
    obtain ⟨rfl, ht⟩ := operands_floating.mp hp
    exact ⟨ht, hr⟩

end Meaning

end ShaderEffect
