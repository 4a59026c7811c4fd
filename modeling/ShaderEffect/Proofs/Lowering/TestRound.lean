import ShaderEffect.Proofs.Lowering.Looping

/-!
# Rounds of loops with a condition

A loop with a condition goes from round to round: up to the test, through the test, and on to the next
round. `TestRound` keeps these three parts apart, for loops of both languages, so that one can say
after how many rounds a loop leaves by its test. **Where a loop leaves by its test, its run ends**
(`run_of_testRound`).
-/

namespace ShaderEffect

open Behaviour Meaning

/-- The parts of a round of a loop with a condition. -/
structure TestRound (m : Meaning) where
  /-- From the start of the round to the test. -/
  lead : m.Store → m.State → Prop
  /-- The loop goes on if the test is true, and leaves if it is false. -/
  test : m.Scope → m.Store → Option Bool → m.Store → Prop
  /-- From a test that is true to the next round. -/
  follow : m.Store → m.Store → Prop

namespace TestRound

variable {m : Meaning} {x : TestRound m}

def Decides (x : TestRound m) (s : m.Store) (r : Option Bool) (t : m.Store) : Prop :=
  ∃ a, x.lead s a ∧ x.test a.1 a.2 r t

inductive Starts (x : TestRound m) (s : m.Store) : Nat → m.Store → Prop
  | first : Starts x s 0 s
  | next {n : Nat} {t u v : m.Store} :
      Starts x s n t → x.Decides t (some true) u → x.follow u v → Starts x s (n + 1) v

/-- The state in which the test of a round is evaluated. -/
def Meets (x : TestRound m) (s : m.Store) (n : Nat) (a : m.State) : Prop :=
  ∃ t, x.Starts s n t ∧ x.lead t a

/-- The loop leaves by the test after so many full rounds. -/
def Leaves (x : TestRound m) (s : m.Store) (n : Nat) (u : m.Store) : Prop :=
  ∃ t, x.Starts s n t ∧ x.Decides t (some false) u

structure Functional (x : TestRound m) : Prop where
  decides : ∀ {s r r' t t'}, x.Decides s r t → x.Decides s r' t' → r = r' ∧ t = t'
  follow : ∀ {s t t'}, x.follow s t → x.follow s t' → t = t'

theorem Functional.starts (hx : x.Functional) {s : m.Store} {n : Nat} {t t' : m.Store}
    (h : x.Starts s n t) (h' : x.Starts s n t') : t = t' := by
  induction h generalizing t' with
  | first =>
    cases h'
    rfl
  | next _ hdecides hfollow ih =>
    cases h' with
    | next hstart hdecides' hfollow' =>
      obtain rfl := ih hstart
      obtain ⟨-, rfl⟩ := hx.decides hdecides hdecides'
      exact hx.follow hfollow hfollow'

/-- Two loops that differ in bad rounds alone, in which the first one leaves and the second one does
not, leave after the same number of rounds exactly if there is no bad round. -/
theorem leaves_iff {y : TestRound m} (bad : m.Store → Prop)
    (hgood : ∀ t, ¬ bad t → ∀ r u, x.Decides t r u ↔ y.Decides t r u)
    (hbad : ∀ t, bad t → (∀ u, ¬ x.Decides t (some true) u) ∧ ∃ u, x.Decides t (some false) u ∧ ¬
      y.Decides t (some false) u) (hfollow : ∀ u v, x.follow u v ↔ y.follow u v)
    (hy : y.Functional) (s : m.Store) :
    (∀ n u, x.Leaves s n u ↔ y.Leaves s n u) ↔ ∀ n t, x.Starts s n t → ¬ bad t := by
  have hstarts : ∀ {n t}, x.Starts s n t → y.Starts s n t := by
    intro n t h
    induction h with
    | first => exact .first
    | @next n t u v _ hdecides hnext ih =>
      have ht : ¬ bad t := fun ht => (hbad t ht).1 u hdecides
      exact .next ih ((hgood t ht ..).mp hdecides) ((hfollow ..).mp hnext)
  constructor
  · intro hsame n t hstart ht
    obtain ⟨-, u, hleave, hstay⟩ := hbad t ht
    obtain ⟨t', hstart', hleave'⟩ := (hsame n u).mp ⟨t, hstart, hleave⟩
    obtain rfl := hy.starts hstart' (hstarts hstart)
    exact hstay hleave'
  · intro hall
    have hback : ∀ {n t}, y.Starts s n t → x.Starts s n t := by
      intro n t h
      induction h with
      | first => exact .first
      | next _ hdecides hnext ih =>
        exact .next ih ((hgood _ (hall _ _ ih) ..).mpr hdecides) ((hfollow ..).mpr hnext)
    intro n u
    constructor
    · rintro ⟨t, hstart, hdecides⟩
      exact ⟨t, hstarts hstart, (hgood t (hall n t hstart) ..).mp hdecides⟩
    · rintro ⟨t, hstart, hdecides⟩
      have ht := hback hstart
      exact ⟨t, ht, (hgood t (hall n t ht) ..).mpr hdecides⟩

theorem Leaves.run {runs : Behaviour m.Store m.Value}
    (hleave : ∀ t u, x.Decides t (some false) u → runs t u .normal)
    (hround : ∀ t u v w o, x.Decides t (some true) u → x.follow u v → runs v w o → runs t w o)
    {s u : m.Store} {n : Nat} (h : x.Leaves s n u) : runs s u .normal := by
  obtain ⟨t, hstart, hdecides⟩ := h
  have hrest : runs t u .normal := hleave t u hdecides
  clear hdecides
  induction hstart with
  | first => exact hrest
  | next _ hdecides hfollow ih => exact ih (hround _ _ _ _ _ hdecides hfollow hrest)

end TestRound

/-! ## Loops of both languages -/

namespace Stmt

/-- The condition of a loop that may be opened. -/
def condition? : Stmt → Option Expr
  | .doWhile _ cond => some cond
  | .forLoop _ cond _ _ => cond
  | _ => none

/-- A round of a loop of the target language that has its exit test behind the body, or in front of
it. -/
def exitRound? (m : Meaning) (d : Dialect) (sc : m.Scope) : Stmt → Option (TestRound m)
  | .loop body continuing (some exit) => some
    { lead := fun s b => ∃ a o, inOrder (run m d) body (sc, s) a o ∧ o.EndsRound ∧
        inOrder (run m d) continuing a b .normal
      test := fun sc s r t => m.Tests exit sc s (r.map (!·)) t
      follow := fun t s => s = t }
  | .loop (.ifElse exit (.block [.breakOut]) none :: body) continuing none => some
    { lead := fun s a => a = (sc, s)
      test := fun sc s r t => m.Tests exit sc s (r.map (!·)) t
      follow := fun t s => ∃ a o b, inOrder (run m d) body (sc, t) a o ∧ o.EndsRound ∧
        inOrder (run m d) continuing a b .normal ∧ s = b.2 }
  | _ => none

/-- A round of a loop with a condition, in the scope in which its rounds run. A block has the rounds of
the loop at its end. -/
def testRound? (m : Meaning) (d : Dialect) (sc : m.Scope) : Stmt → Option (TestRound m)
  | .doWhile body cond => some
    { lead := fun s a => ∃ o, inScope (body.run m d) (sc, s) a o ∧ o.EndsRound
      test := m.Tests cond
      follow := fun t s => s = t }
  | .forLoop _ (some cond) step body => some
    { lead := fun s a => a = (sc, s)
      test := m.Tests cond
      follow := fun t s => ∃ a o b, inScope (body.run m d) (sc, t) a o ∧ o.EndsRound ∧
        m.runOptExpr step (sc, a.2) b .normal ∧ s = b.2 }
  | .block ss => ss.getLast?.bind (exitRound? m d sc)
  | s => exitRound? m d sc s

/-- What happens before the first round of a loop. -/
def Enters (m : Meaning) (d : Dialect) : Stmt → m.State → m.State → Prop
  | .forLoop start _ _ _, a, b => inTurn (runOpt m d start) a b .normal
  | .block ss, a, b => inOrder (run m d) ss.dropLast a b .normal
  | _, a, b => b = a

variable {m : Meaning} {d : Dialect}

theorem run_of_exitRound {s : Stmt} {x : TestRound m} {a : m.State} {n : Nat} {u : m.Store}
    (hx : s.exitRound? m d a.1 = some x) (hleaves : x.Leaves a.2 n u) :
    s.run m d a (a.1, u) .normal := by
  unfold exitRound? at hx
  split at hx
  · rename_i body continuing exit
    obtain rfl := Option.some.inj hx
    rw [run, inTurn_runAll, inTurn_runAll]
    refine ⟨rfl, hleaves.run ?_ ?_⟩
    · rintro t u ⟨b, ⟨c, o, hbody, hends, hcont⟩, htest⟩
      exact .done hbody hends hcont htest
    · rintro t u v w o ⟨b, ⟨c, how, hbody, hends, hcont⟩, htest⟩ rfl hrest
      exact .next hbody hends hcont htest hrest
  · rename_i exit body continuing
    obtain rfl := Option.some.inj hx
    rw [run, inTurn_runAll, inTurn_runAll]
    refine ⟨rfl, hleaves.run ?_ ?_⟩
    · rintro t u ⟨b, rfl, htest⟩
      have hexit : inOrder (run m d) (.ifElse exit (.block [.breakOut]) none :: body) (a.1, t)
          (a.1, u) .broken :=
        .inr ⟨(Lowering.run_exit_iff ..).mpr ⟨rfl, .inr (.inl ⟨htest, rfl⟩)⟩, by simp⟩
      exact .broken hexit
    · rintro t u v w o ⟨b, rfl, htest⟩ ⟨c, how, b, hbody, hends, hcont, rfl⟩ hrest
      have hround : inOrder (run m d) (.ifElse exit (.block [.breakOut]) none :: body) (a.1, t)
          c how :=
        .inl ⟨(a.1, u), (Lowering.run_exit_iff ..).mpr ⟨rfl, .inl ⟨htest, rfl⟩⟩, hbody⟩
      exact .next hround hends hcont ⟨rfl, rfl⟩ hrest
  · cases hx

/-- **A loop that leaves by its test ends normally there.** -/
theorem run_of_testRound {s : Stmt} {x : TestRound m} {a b : m.State} {n : Nat} {u : m.Store}
    (henters : s.Enters m d a b) (hx : s.testRound? m d b.1 = some x) (hleaves : x.Leaves b.2 n u) :
    s.run m d a (a.1, u) .normal := by
  unfold testRound? at hx
  split at hx
  · obtain rfl := Option.some.inj hx
    obtain rfl : b = a := henters
    rw [run]
    refine ⟨rfl, hleaves.run ?_ ?_⟩
    · rintro t u ⟨c, ⟨o, hbody, hends⟩, htest⟩
      rw [hbody.1] at htest
      exact .done hbody hends htest
    · rintro t u v w o ⟨c, ⟨how, hbody, hends⟩, htest⟩ rfl hrest
      rw [hbody.1] at htest
      exact .next hbody hends htest hrest
  · obtain rfl := Option.some.inj hx
    rw [run]
    refine ⟨rfl, b.1, .inl ⟨b, henters, rfl, hleaves.run ?_ ?_⟩⟩
    · rintro t u ⟨c, rfl, htest⟩
      exact .done htest
    · rintro t u v w o ⟨c, rfl, htest⟩ ⟨c, how, e, hbody, hends, hstep, rfl⟩ hrest
      exact .next htest hbody hends hstep hrest
  · rename_i ss
    obtain ⟨last, hlast, hround⟩ := Option.bind_eq_some_iff.mp hx
    obtain ⟨before, rfl⟩ := List.getLast?_eq_some_iff.mp hlast
    rw [Enters, List.dropLast_concat] at henters
    rw [run, inTurn_runAll, inOrder_append, inOrder_singleton]
    exact ⟨rfl, b.1, .inl ⟨b, henters, run_of_exitRound hround hleaves⟩⟩
  · rename_i hdo hfor hblock
    have hsame : b = a := by
      cases s with
      | forLoop start cond step body => cases hx
      | block ss => exact absurd rfl (hblock ss)
      | _ => exact henters
    obtain rfl := hsame
    exact run_of_exitRound hx hleaves

end Stmt

end ShaderEffect
