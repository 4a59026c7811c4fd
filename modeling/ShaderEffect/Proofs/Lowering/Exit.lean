import ShaderEffect.Proofs.Comparison
import ShaderEffect.Proofs.Lowering.Capture
import ShaderEffect.Proofs.Lowering.TestRound

/-!
# When a lowered loop leaves

The exit test of a lowered loop is the negation of its condition, and `a < b` is negated to `a >= b`.
Both are false where the operands have no order, as numbers of which one is not a number. Everywhere
else the negation is true exactly where the condition is false (`tests_negate_unordered`).

**A loop and what it is lowered to leave after the same number of rounds and with the same store,
exactly if the test meets no operands without an order** (`leaves_lowerStmt_iff`). At the first such
test the loop leaves and the lowered loop goes on.
-/

namespace ShaderEffect

open Behaviour Meaning List

/-- A declaration matters only to expressions that use its name. -/
def Meaning.Local (m : Meaning) : Prop :=
  ∀ decl sc sc' s t, m.declare decl sc s (some sc') t → ∀ e : Expr, decl.name ∉ e.names →
    ∀ s r t, m.eval e sc' s r t ↔ m.eval e sc s r t

namespace Lowering

open Stmt

variable {m : Meaning} {d : Dialect}
variable {c : Expr} {sc : m.Scope}
variable (x z w : Float32) (r : Option Bool) (t : String → Float32)

/-! ## Negated conditions -/

theorem tests_false_of_unordered (cmp : Comparison m) {s : m.Store} (h : cmp.Unordered c sc s) :
    ∃ t, m.Tests c sc s (some false) t ∧ m.Tests (negate c) sc s (some false) t := by
  obtain ⟨x, y, p, t, rfl, hp, hnone⟩ := h
  exact ⟨t, (cmp.tests_lt ..).mpr ⟨_, hp, by simp [hnone]⟩,
    (cmp.tests_ge ..).mpr ⟨_, hp, by simp [hnone]⟩⟩

theorem tests_negate_of_ordered (cmp : Comparison m) {s : m.Store} (h : ¬ cmp.Unordered c sc s)
    (r : Option Bool) (t : m.Store) :
    m.Tests (negate c) sc s r t ↔ m.Tests c sc s (r.map (!·)) t := by
  unfold negate
  split
  · have htwice : (r.map (!·)).map (!·) = r := by cases r <;> simp
    rw [tests_not, htwice]
  · rename_i x y
    rw [cmp.tests_lt, cmp.tests_ge]
    refine exists_congr fun p => and_congr_right fun hp => ?_
    cases p with
    | none => cases r <;> simp
    | some p =>
      have hordered : cmp.compare p.1 p.2 ≠ none := fun hnone => h ⟨x, y, p, t, rfl, hp, hnone⟩
      obtain ⟨o, ho⟩ := Option.ne_none_iff_exists'.mp hordered
      rcases r with _ | _ | _ <;> cases o <;> simp [ho]
  · exact tests_not ..

/-- **The negation of a condition is true where the condition is false**, and false where it is true,
exactly if the condition compares no operands without an order. -/
theorem tests_negate_unordered (hm : m.Deterministic) (cmp : Comparison m) (c : Expr) (sc : m.Scope)
    (s : m.Store) :
    (∀ r t, m.Tests (negate c) sc s r t ↔ m.Tests c sc s (r.map (!·)) t) ↔
      ¬ cmp.Unordered c sc s := by
  refine ⟨fun hneg hunordered => ?_, tests_negate_of_ordered cmp⟩
  obtain ⟨t, hfalse, hnegated⟩ := tests_false_of_unordered cmp hunordered
  cases (hm.tests hnegated ((hneg (some true) t).mpr hfalse)).1

/-! ## A loop and what it is lowered to -/

theorem eval_behind_turns {e : Expr} {s t : m.Store} {r : Option m.Value}
    {xs : List (Behaviour m.State m.Value)} {a b : m.State} {o : Outcome m.Value}
    (hone : ∀ x ∈ xs, ∀ a b o, x a b o → (m.eval e b.1 s r t ↔ m.eval e a.1 s r t))
    (hrun : inTurn xs a b o) : m.eval e b.1 s r t ↔ m.eval e a.1 s r t := by
  induction xs generalizing a with
  | nil =>
    obtain ⟨rfl, -⟩ := hrun
    exact Iff.rfl
  | cons x xs ih =>
    rw [forall_mem_cons] at hone
    rcases hrun with ⟨c, hfirst, hrest⟩ | ⟨hfirst, -⟩
    · exact (ih hone.2 hrest).trans (hone.1 _ _ _ hfirst)
    · exact hone.1 _ _ _ hfirst

theorem eval_behind (hlocal : m.Local) {ss : List Stmt} {a b : m.State} {o : Outcome m.Value}
    (hrun : inOrder (run m d) ss a b o) {e : Expr} (he : ∀ n ∈ e.names, n ∉ ss.flatMap declNames)
    (s : m.Store) (r : Option m.Value) (t : m.Store) : m.eval e b.1 s r t ↔ m.eval e a.1 s r t := by
  refine eval_behind_turns (forall_mem_map.mpr fun st hst a b o hrun => ?_) hrun
  have hnames : ∀ n ∈ e.names, n ∉ declNames st := fun n hn hmem =>
    he n hn (mem_flatMap.mpr ⟨st, hst, hmem⟩)
  by_cases hdecl : st.isDecl = false
  · rw [keepsScope_run hdecl a b o hrun]
  · cases st with
    | decl ds =>
      rw [run] at hrun
      refine eval_behind_turns (forall_mem_map.mpr fun decl hmem a b o hdeclares => ?_) hrun
      obtain ⟨sc, hdeclare, hscope, -⟩ := hdeclares
      rw [hscope]
      cases sc with
      | none => exact Iff.rfl
      | some sc =>
        exact hlocal decl a.1 sc a.2 b.2 hdeclare e (fun hn => hnames _ hn (mem_map_of_mem hmem)) s r t
    | _ => exact absurd rfl hdecl

/-- A body in a scope of its own does what its statements do, but for what they declare. -/
theorem inScope_body (body : Stmt) :
    inScope (body.run m d) = inScope (inOrder (run m d) (statements body)) := by
  rw [← inScope_asBlock, asBlock, inScope_eq_self (keepsScope_run rfl), run, inTurn_runAll]

theorem runOptExpr_scope {step : Option Expr} {sc' : m.Scope}
    (h : ∀ e ∈ step, ∀ s r t, m.eval e sc' s r t ↔ m.eval e sc s r t) (s t : m.Store)
    (o : Outcome m.Value) :
    (∃ b, m.runOptExpr step (sc', s) b o ∧ t = b.2) ↔
      ∃ b, m.runOptExpr step (sc, s) b o ∧ t = b.2 := by
  cases step with
  | none =>
    constructor
    · rintro ⟨b, ⟨hb, rfl⟩, rfl⟩
      exact ⟨(sc, b.2), ⟨by rw [hb], rfl⟩, rfl⟩
    · rintro ⟨b, ⟨hb, rfl⟩, rfl⟩
      exact ⟨(sc', b.2), ⟨by rw [hb], rfl⟩, rfl⟩
  | some e =>
    constructor
    · rintro ⟨b, ⟨-, v, hv, rfl⟩, rfl⟩
      exact ⟨(sc, b.2), ⟨rfl, v, (h e rfl ..).mp hv, rfl⟩, rfl⟩
    · rintro ⟨b, ⟨-, v, hv, rfl⟩, rfl⟩
      exact ⟨(sc', b.2), ⟨rfl, v, (h e rfl ..).mpr hv, rfl⟩, rfl⟩

/-- A loop leaves after the same number of rounds with the negated condition as its exit test, exactly
if no test is without an order. -/
theorem leaves_negate_iff (hm : m.Deterministic) (cmp : Comparison m) {x y : TestRound m}
    (hx : x.test = m.Tests c) (hlead : ∀ t v, (∃ sc, x.lead t (sc, v)) ↔ ∃ sc, y.lead t (sc, v))
    (htest : ∀ t sc sc' v, x.lead t (sc, v) → y.lead t (sc', v) → ∀ r u, y.test sc' v r u ↔ m.Tests
      (negate c) sc v (r.map (!·)) u) (hone : ∀ t a a', x.lead t a → x.lead t a' → a = a')
    (hfollow : ∀ u v, x.follow u v ↔ y.follow u v)
    (hnext : ∀ u v v', x.follow u v → x.follow u v' → v = v') (s : m.Store) :
    (∀ n u, x.Leaves s n u ↔ y.Leaves s n u) ↔
      ∀ n a, x.Meets s n a → ¬ cmp.Unordered c a.1 a.2 := by
  have hsource : ∀ {t a}, x.lead t a → ∀ r u, x.Decides t r u ↔ m.Tests c a.1 a.2 r u := by
    intro t a ha r u
    rw [TestRound.Decides, hx]
    grind
  have htarget : ∀ {t a}, x.lead t a → ∀ r u,
      y.Decides t r u ↔ m.Tests (negate c) a.1 a.2 (r.map (!·)) u := by
    intro t a ha r u
    constructor
    · rintro ⟨a', ha', hr⟩
      obtain ⟨sc, hsc⟩ := (hlead t a'.2).mpr ⟨a'.1, ha'⟩
      obtain rfl := hone t _ _ hsc ha
      exact (htest t sc a'.1 a'.2 hsc ha' r u).mp hr
    · intro hr
      obtain ⟨sc', hsc'⟩ := (hlead t a.2).mp ⟨a.1, ha⟩
      exact ⟨(sc', a.2), hsc', (htest t a.1 sc' a.2 ha hsc' r u).mpr hr⟩
  have hreached : ∀ {t r u}, y.Decides t r u → ∃ a, x.lead t a := by
    rintro t r u ⟨a, ha, -⟩
    obtain ⟨sc, hsc⟩ := (hlead t a.2).mpr ⟨a.1, ha⟩
    exact ⟨_, hsc⟩
  have hsame : ∀ {t a}, x.lead t a → ¬ cmp.Unordered c a.1 a.2 → ∀ r u,
      x.Decides t r u ↔ y.Decides t r u := by
    intro t a ha hordered r u
    have htwice : (r.map (!·)).map (!·) = r := by cases r <;> simp
    rw [hsource ha, htarget ha, tests_negate_of_ordered cmp hordered, htwice]
  have hy : y.Functional := by
    refine ⟨fun {t r r' u u'} h h' => ?_, fun h h' =>
      hnext _ _ _ ((hfollow ..).mpr h) ((hfollow ..).mpr h')⟩
    obtain ⟨a, ha⟩ := hreached h
    obtain ⟨hr, hu⟩ := hm.tests ((htarget ha ..).mp h) ((htarget ha ..).mp h')
    exact ⟨Option.map_injective (fun _ _ => Bool.not_inj) hr, hu⟩
  refine (TestRound.leaves_iff (fun t => ∃ a, x.lead t a ∧ cmp.Unordered c a.1 a.2)
    ?_ ?_ hfollow hy s).trans ?_
  · intro t ht r u
    constructor
    · intro h
      obtain ⟨a, ha, -⟩ := id h
      exact (hsame ha (fun hun => ht ⟨a, ha, hun⟩) r u).mp h
    grind
  · rintro t ⟨a, ha, hun⟩
    obtain ⟨u, hfalse, hnegated⟩ := tests_false_of_unordered cmp hun
    refine ⟨fun u' htrue => ?_, u, (hsource ha ..).mpr hfalse, fun hleaves => ?_⟩
    · cases (hm.tests hfalse ((hsource ha ..).mp htrue)).1
    · cases (hm.tests hnegated ((htarget ha ..).mp hleaves)).1
  · constructor
    · rintro hall n a ⟨t, hstart, ha⟩ hun
      exact hall n t hstart ⟨a, ha, hun⟩
    · rintro hall n t hstart ⟨a, ha, hun⟩
      exact hall n a ⟨t, hstart, ha⟩ hun

section Opened

variable (hm : m.Deterministic) (hlocal : m.Local) (cmp : Comparison m) (d) (sc : m.Scope)
include hm hlocal

theorem leaves_doWhile_iff {body : Stmt}
    (hapart : ∀ n ∈ c.names, n ∉ (statements body).flatMap declNames) :
    ∃ x y, (Stmt.doWhile body c).testRound? m d sc = some x ∧
      (Stmt.loop (statements body) [] (some (negate c))).testRound? m d sc = some y ∧
      ∀ s, (∀ n u, x.Leaves s n u ↔ y.Leaves s n u) ↔
        ∀ n a, x.Meets s n a → ¬ cmp.Unordered c a.1 a.2 := by
  refine ⟨_, _, rfl, rfl, leaves_negate_iff hm cmp rfl ?_ ?_ ?_ (fun _ _ => Iff.rfl) ?_⟩
  · intro t v
    rw [inScope_body]
    constructor
    · rintro ⟨sc', o, ⟨-, sc'', hbody⟩, hends⟩
      exact ⟨sc'', (sc'', v), o, hbody, hends, rfl, rfl⟩
    · rintro ⟨sc', a, o, hbody, hends, ha, -⟩
      obtain rfl : (sc', v) = a := ha
      exact ⟨sc, o, ⟨rfl, sc', hbody⟩, hends⟩
  · rintro t sc₁ sc' v ⟨-, ⟨hscope, -⟩, -⟩ ⟨a, o, hbody, -, ha, -⟩ r u
    obtain rfl : (sc', v) = a := ha
    obtain rfl : sc₁ = sc := hscope
    refine exists_congr fun w => and_congr_left fun _ => ?_
    rw [← names_negate] at hapart
    exact eval_behind hlocal hbody hapart v w u
  · rintro t a a' ⟨o, hbody, -⟩ ⟨o', hbody', -⟩
    exact (functional_inScope (functional_run hm body) hbody hbody').1
  · rintro u v v' rfl rfl
    rfl

theorem leaves_openLoop_iff {start : Option Stmt} {step : Option Expr} {body : Stmt}
    (hapart : ∀ n ∈ step.elim [] Expr.names, n ∉ (statements body).flatMap declNames) :
    ∃ x y, (Stmt.forLoop start (some c) step body).testRound? m d sc = some x ∧
      (openLoop start (some c) step body).testRound? m d sc = some y ∧
      ∀ s, (∀ n u, x.Leaves s n u ↔ y.Leaves s n u) ↔
        ∀ n a, x.Meets s n a → ¬ cmp.Unordered c a.1 a.2 := by
  have hlast : (openLoop start (some c) step body).testRound? m d sc =
      (Stmt.loop (exitTest (some c) ++ statements body) (step.elim [] stepStmts) none).exitRound? m d
        sc := by
    rw [openLoop, testRound?, getLast?_concat]
    rfl
  have hstep : ∀ {a : m.State} {o : Outcome m.Value} {t : m.Store},
      inOrder (run m d) (statements body) (sc, t) a o →
        ∀ e ∈ step, ∀ s r t, m.eval e a.1 s r t ↔ m.eval e sc s r t := by
    rintro a o t hbody e rfl
    exact eval_behind hlocal hbody hapart
  refine ⟨_, _, rfl, hlast, leaves_negate_iff hm cmp rfl (fun _ _ => Iff.rfl) ?_ ?_ ?_ ?_⟩
  · grind
  · rintro t a a' rfl rfl
    rfl
  · intro u v
    rw [inScope_body, inOrder_step]
    constructor
    · rintro ⟨a, o, b, ⟨-, sc', hbody⟩, hends, hnext, rfl⟩
      obtain ⟨b', hnext', hb'⟩ :=
        (runOptExpr_scope (hstep hbody) a.2 b.2 .normal).mpr ⟨b, hnext, rfl⟩
      exact ⟨_, o, b', hbody, hends, hnext', hb'⟩
    · rintro ⟨a, o, b, hbody, hends, hnext, rfl⟩
      obtain ⟨b', hnext', hb'⟩ :=
        (runOptExpr_scope (hstep hbody) a.2 b.2 .normal).mp ⟨b, hnext, rfl⟩
      exact ⟨(sc, a.2), o, b', ⟨rfl, a.1, hbody⟩, hends, hnext', hb'⟩
  · rintro u v v' ⟨a, o, b, hbody, -, hnext, rfl⟩ ⟨a', o', b', hbody', -, hnext', rfl⟩
    obtain ⟨rfl, -⟩ := functional_inScope (functional_run hm body) hbody hbody'
    exact congrArg Prod.snd (functional_runOptExpr hm step hnext hnext').1

end Opened

/-- **When a lowered loop leaves.** The negation of a condition is true where the condition is false,
exactly if the condition compares no operands without an order. A loop that the pass opens, and whose
body declares no name that the header uses behind it, leaves by its test after as many rounds and with
the same store as the loop that it is lowered to, exactly if no test that it meets is without an order;
and where either of them leaves by its test, its run ends. -/
theorem leaves_lowerStmt_iff (hm : m.Deterministic) (hlocal : m.Local) (cmp : Comparison m) :
    (∀ c sc s, (∀ r t, m.Tests (negate c) sc s r t ↔ m.Tests c sc s (r.map (!·)) t) ↔
      ¬ cmp.Unordered c sc s) ∧
    ∀ (loop : Stmt) (c : Expr), opens loop = true → loop.condition? = some c →
      (∀ n ∈ exposedNames loop, n ∉ bodyNames loop) →
      ∀ env st d sc, ∃ low x y, (lowerStmt env loop st).1 = [low] ∧
        loop.testRound? m d sc = some x ∧ low.testRound? m d sc = some y ∧
        (∀ s, (∀ n u, x.Leaves s n u ↔ y.Leaves s n u) ↔
          ∀ n a, x.Meets s n a → ¬ cmp.Unordered c a.1 a.2) ∧
        ∀ a s n u,
          (loop.Enters m d a (sc, s) → x.Leaves s n u → loop.run m d a (a.1, u) .normal) ∧
          (low.Enters m d a (sc, s) → y.Leaves s n u → low.run m d a (a.1, u) .normal) := by
  refine ⟨tests_negate_unordered hm cmp, fun loop c hopens hcond hapart env st d sc => ?_⟩
  have hlow : ∃ low x y, (lowerStmt env loop st).1 = [low] ∧
      loop.testRound? m d sc = some x ∧ low.testRound? m d sc = some y ∧
      ∀ s, (∀ n u, x.Leaves s n u ↔ y.Leaves s n u) ↔
        ∀ n a, x.Meets s n a → ¬ cmp.Unordered c a.1 a.2 := by
    cases loop with
    | doWhile body cond =>
      obtain rfl := Option.some.inj hcond
      exact ⟨_, (leaves_doWhile_iff d hm hlocal cmp sc hapart).imp fun x => Exists.imp fun y h =>
        ⟨rfl, h⟩⟩
    | forLoop start cond step body =>
      obtain rfl : cond = some c := hcond
      exact ⟨_, (leaves_openLoop_iff d hm hlocal cmp sc hapart).imp fun x => Exists.imp fun y h =>
        ⟨lowerStmt_opened hopens env st, h⟩⟩
    | _ => cases hopens
  obtain ⟨low, x, y, hlower, hx, hy, hleaves⟩ := hlow
  exact ⟨low, x, y, hlower, hx, hy, hleaves, fun a s n u =>
    ⟨fun henters => run_of_testRound henters hx, fun henters => run_of_testRound henters hy⟩⟩

/-! ## Numbers without an order -/

theorem floating_local : floating.Local :=
  fun _ _ _ _ _ _ _ _ _ _ _ => Iff.rfl

/-- `x` is below `y`. -/
def belowY : Expr :=
  .binary .lt (.ident "x") (.ident "y")

/-- The next values of `x` and `z`. -/
def climb : Expr :=
  .comma [.assign none (.ident "x") (.ident "z"), .assign none (.ident "z") (.ident "w")]

/-- Takes the next values after each round, up to one that is not below `y`. -/
def climbingLoop : Stmt :=
  .forLoop none (some belowY) (some climb) (.block [])

def climbFrom (x z w : Float32) : String → Float32 := fun n =>
  if n = "x" then x else if n = "z" then z else if n = "w" then w else 2

theorem floated_climb : (floated climb (climbFrom x z w)).2 = climbFrom z w w := by
  funext n
  simp only [climb, floated, floatedAll, setFloat, climbFrom]
  grind

theorem runOptExpr_climb (b : floating.State) (o : Outcome FloatValue) :
    floating.runOptExpr (some climb) ((), climbFrom x z w) b o ↔
      b = ((), climbFrom z w w) ∧ o = .normal := by
  constructor
  · rintro ⟨hb, v, ⟨rfl, hstore⟩, rfl⟩
    exact ⟨Prod.ext hb (hstore.trans (floated_climb x z w)), rfl⟩
  · rintro ⟨rfl, rfl⟩
    exact ⟨rfl, some _, ⟨rfl, (floated_climb x z w).symm⟩, rfl⟩

theorem tests_climbFrom :
    floating.Tests belowY () (climbFrom x z w) r t ↔
      t = climbFrom x z w ∧ some (floatOrder x 2 == some .lt) = r :=
  tests_floating

theorem tests_negate_climbFrom :
    floating.Tests (negate belowY) () (climbFrom x z w) r t ↔
      t = climbFrom x z w ∧ some ((floatOrder x 2).any Ordering.isGE) = r :=
  tests_floating

theorem unordered_climbFrom :
    floatComparison.Unordered belowY () (climbFrom x z w) ↔
      floatOrder x 2 = none := by
  constructor
  · rintro ⟨_, _, p, t, hc, hp, hnone⟩
    obtain ⟨-, rfl, rfl⟩ := Expr.binary.inj hc
    obtain ⟨hp, -⟩ := operands_floating.mp hp
    obtain rfl := Option.some.inj hp
    exact hnone
  · intro hnone
    exact ⟨_, _, _, _, rfl, operands_floating.mpr ⟨rfl, rfl⟩, hnone⟩

theorem run_emptyBody (d : Dialect) : inScope (Stmt.run m d (.block [])) = skip := by
  rw [(interprets_run m d).block [] (forall_mem_nil _), inScope_eq_self]
  · rfl
  · exact keepsScope_skip

def climbRound : TestRound floating where
  lead s a := a = ((), s)
  test := floating.Tests belowY
  follow t s := ∃ a o b, inScope (Stmt.run floating .source (.block [])) ((), t) a o ∧ o.EndsRound ∧
    floating.runOptExpr (some climb) ((), a.2) b .normal ∧ s = b.2

theorem climbRound_decides :
    climbRound.Decides (climbFrom x z w) r t ↔
      t = climbFrom x z w ∧ some (floatOrder x 2 == some .lt) = r := by
  rw [← tests_climbFrom]
  constructor
  · rintro ⟨a, rfl, h⟩
    exact h
  · exact fun h => ⟨_, rfl, h⟩

theorem climbRound_follow : climbRound.follow (climbFrom x z w) t ↔ t = climbFrom z w w := by
  have hbody := run_emptyBody (m := floating) .source
  constructor
  · rintro ⟨a, o, b, ha, -, hb, rfl⟩
    rw [hbody] at ha
    obtain ⟨rfl, -⟩ := ha
    rw [((runOptExpr_climb x z w _ _).mp hb).1]
  · rintro rfl
    refine ⟨((), climbFrom x z w), .normal, _, ?_, .inl rfl,
      (runOptExpr_climb x z w _ _).mpr ⟨rfl, rfl⟩, rfl⟩
    rw [hbody]
    exact ⟨rfl, rfl⟩

theorem leaves_lowerStmt_iff_climbing :
    floating.Deterministic ∧ floating.Local ∧ opens climbingLoop = true ∧
    climbingLoop.condition? = some belowY ∧
    (∀ n ∈ exposedNames climbingLoop, n ∉ bodyNames climbingLoop) ∧
    ∃ low x y, (lowerStmt (emptySetting.envFor { items := [] }) climbingLoop {}).1 = [low] ∧
      climbingLoop.testRound? floating .source () = some x ∧
      low.testRound? floating .source () = some y ∧
      x.Leaves (climbFrom 0 1 3) 2 (climbFrom 3 3 3) ∧
      y.Leaves (climbFrom 0 1 3) 2 (climbFrom 3 3 3) := by
  have hopens : opens climbingLoop = true := by decide
  have hapart : ∀ n ∈ exposedNames climbingLoop, n ∉ bodyNames climbingLoop := by decide
  obtain ⟨low, x, y, hlow, hx, hy, hiff, -⟩ :=
    (leaves_lowerStmt_iff floating_deterministic floating_local floatComparison).2 climbingLoop _
      hopens rfl hapart (emptySetting.envFor { items := [] }) {} .source ()
  obtain rfl : climbRound = x := Option.some.inj hx
  have hzero : floatOrder 0 2 = some .lt := by decide
  have hone : floatOrder 1 2 = some .lt := by decide
  have hthree : floatOrder 3 2 = some .gt := by decide
  have hleaves : climbRound.Leaves (climbFrom 0 1 3) 2 (climbFrom 3 3 3) :=
    ⟨climbFrom 3 3 3,
      .next (.next .first ((climbRound_decides ..).mpr ⟨rfl, by rw [hzero]; rfl⟩)
          ((climbRound_follow ..).mpr rfl))
        ((climbRound_decides ..).mpr ⟨rfl, by rw [hone]; rfl⟩) ((climbRound_follow ..).mpr rfl),
      (climbRound_decides ..).mpr ⟨rfl, by rw [hthree]; rfl⟩⟩
  have hstarts : ∀ n t, climbRound.Starts (climbFrom 0 1 3) n t →
      ∃ x z, t = climbFrom x z 3 ∧ floatOrder x 2 ≠ none ∧ floatOrder z 2 ≠ none := by
    intro n t h
    induction h with
    | first => exact ⟨0, 1, rfl, by simp [hzero], by simp [hone]⟩
    | next _ hdecides hfollow ih =>
      obtain ⟨x, z, rfl, -, hz⟩ := ih
      obtain ⟨rfl, -⟩ := (climbRound_decides ..).mp hdecides
      exact ⟨z, 3, (climbRound_follow ..).mp hfollow, hz, by simp [hthree]⟩
  have hordered : ∀ n a, climbRound.Meets (climbFrom 0 1 3) n a →
      ¬ floatComparison.Unordered belowY a.1 a.2 := by
    rintro n a ⟨t, hstart, rfl⟩
    obtain ⟨x, z, rfl, hx, -⟩ := hstarts n t hstart
    rwa [unordered_climbFrom]
  exact ⟨floating_deterministic, floating_local, hopens, rfl, hapart, low, _, y, hlow, hx, hy,
    hleaves, ((hiff _).mpr hordered 2 _).mp hleaves⟩

/-- Where `x` is not a number the loop ends at once, and the loop that it is lowered to never ends. -/
theorem not_run_of_not_a_number :
    let s : floating.State := ((), climbFrom (0 / 0) (0 / 0) (0 / 0))
    climbingLoop.run floating .source s s .normal ∧
      ∀ env st, ∃ low, (lowerStmt env climbingLoop st).1 = [low] ∧
        ∀ b o, ¬ low.run floating .target s b o := by
  intro s
  have hnone : floatOrder (0 / 0) 2 = none := by decide
  have hends : climbRound.Leaves s.2 0 s.2 :=
    ⟨s.2, .first, (climbRound_decides ..).mpr ⟨rfl, by rw [hnone]; rfl⟩⟩
  refine ⟨run_of_testRound (x := climbRound) (b := s) ⟨rfl, rfl⟩ rfl hends, fun env st =>
    ⟨_, lowerStmt_opened (by decide) env st, ?_⟩⟩
  have hbody : ∀ a o, inOrder (run floating .target)
      (exitTest (some belowY)) s a o → a = s ∧ o = .normal := by
    intro a o h
    rw [exitTest, Option.toList_some, map_singleton, inOrder_singleton, run_exit_iff] at h
    obtain ⟨hscope, ⟨htest, rfl⟩ | ⟨htest, -⟩ | ⟨htest, -⟩⟩ := h
    · exact ⟨Prod.ext hscope ((tests_negate_climbFrom ..).mp htest).1, rfl⟩
    · have htrue := ((tests_negate_climbFrom ..).mp htest).2
      rw [hnone] at htrue
      cases htrue
    · cases ((tests_negate_climbFrom ..).mp htest).2
  have hforever : ∀ t u o, t = s.2 → ¬ LoopRuns (m := floating) ()
      (inOrder (run floating .target) (exitTest (some belowY)))
      (floating.runOptExpr (some climb)) (floating.Exits none) t u o := by
    intro t u o ht h
    induction h with
    | broken hrun =>
      subst ht
      cases (hbody _ _ hrun).2
    | leaves hrun hleaves =>
      subst ht
      exact hleaves.ne_normal (hbody _ _ hrun).2
    | continuingEnds hrun _ hcont hne =>
      subst ht
      obtain ⟨rfl, -⟩ := hbody _ _ hrun
      exact hne ((runOptExpr_climb ..).mp hcont).2
    | done _ _ _ hexit => cases hexit.2
    | exitDiscards _ _ _ hexit => cases hexit.2
    | next hrun _ hcont hexit _ ih =>
      subst ht
      obtain ⟨rfl, -⟩ := hbody _ _ hrun
      obtain ⟨rfl, -⟩ := (runOptExpr_climb ..).mp hcont
      exact ih hexit.1
  rintro b o hrun
  have hblock : Stmt.run floating .target (.block [.loop (exitTest (some belowY) ++ []) ((some climb).elim [] stepStmts) none]) s b o := hrun
  rw [run, inTurn_runAll, inOrder_singleton, run, inTurn_runAll, inTurn_runAll, append_nil,
    inOrder_step] at hblock
  obtain ⟨-, sc, -, hloop⟩ := hblock
  exact hforever _ _ _ rfl hloop

end Lowering

end ShaderEffect
