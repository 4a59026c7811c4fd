import ShaderEffect.Proofs.Execution

/-!
# Determinism

A meaning is deterministic if an expression has at most one result and leaves at most one store, and
so has a declaration. **Statements then lead from a state to at most one state and end there in one
way** (`functional_run`): each construction of behaviours keeps this, the rounds of a loop by induction
on one of two runs.
-/

namespace ShaderEffect

open List

namespace Behaviour

variable {σ ν : Type} {x y : Behaviour σ ν}

/-- Leads to at most one state, and ends there in one way. -/
def Functional (x : Behaviour σ ν) : Prop :=
  ∀ ⦃a b b' : σ⦄ ⦃o o' : Outcome ν⦄, x a b o → x a b' o' → b = b' ∧ o = o'

theorem functional_jump (how : Outcome ν) : Functional (jump how : Behaviour σ ν) := by
  rintro a b b' o o' ⟨rfl, rfl⟩ ⟨rfl, rfl⟩
  exact ⟨rfl, rfl⟩

theorem Functional.andThen (hx : x.Functional) (hy : y.Functional) : (x.andThen y).Functional := by
  rintro a c c' o o' (⟨b, hab, hbc⟩ | ⟨hac, hne⟩) (⟨b', hab', hbc'⟩ | ⟨hac', hne'⟩)
  · obtain ⟨rfl, -⟩ := hx hab hab'
    exact hy hbc hbc'
  · exact absurd (hx hab hac').2.symm hne'
  · exact absurd (hx hac hab').2 hne
  · exact hx hac hac'

theorem functional_inTurn {xs : List (Behaviour σ ν)} (h : ∀ x ∈ xs, x.Functional) :
    (inTurn xs).Functional := by
  induction xs with
  | nil => exact functional_jump _
  | cons x xs ih =>
    rw [forall_mem_cons] at h
    exact h.1.andThen (ih h.2)

theorem Functional.leaveSwitch (hx : x.Functional) : x.leaveSwitch.Functional := by
  rintro a b b' o o' ⟨how, h, rfl⟩ ⟨how', h', rfl⟩
  obtain ⟨rfl, rfl⟩ := hx h h'
  exact ⟨rfl, rfl⟩

end Behaviour

open Behaviour

namespace CaseLabel

theorem mem_of_mem_selectFrom {α : Type} {labels : α → List CaseLabel} {hit : Expr → Bool}
    {xs : List α} {x : α} (h : x ∈ selectFrom labels hit xs) : x ∈ xs := by
  unfold selectFrom at h
  split at h
  · exact (dropWhile_sublist _).mem h
  · exact (dropWhile_sublist _).mem h

end CaseLabel

namespace Meaning

/-- Expressions and declarations have one result. -/
structure Deterministic (m : Meaning) : Prop where
  eval : ∀ {e sc s r r' t t'}, m.eval e sc s r t → m.eval e sc s r' t' → r = r' ∧ t = t'
  declare : ∀ {d sc s r r' t t'}, m.declare d sc s r t → m.declare d sc s r' t' → r = r' ∧ t = t'

variable {m : Meaning} {d : Dialect}

theorem Deterministic.tests (h : m.Deterministic) {e : Expr} {sc : m.Scope} {s t t' : m.Store}
    {r r' : Option Bool} (ht : m.Tests e sc s r t) (ht' : m.Tests e sc s r' t') :
    r = r' ∧ t = t' := by
  obtain ⟨v, hv, rfl⟩ := ht
  obtain ⟨v', hv', rfl⟩ := ht'
  obtain ⟨rfl, rfl⟩ := h.eval hv hv'
  exact ⟨rfl, rfl⟩

section Parts

variable (h : m.Deterministic)
include h

theorem functional_runExpr (e : Expr) : (m.runExpr e).Functional := by
  rintro a b b' o o' ⟨hb, v, hv, rfl⟩ ⟨hb', v', hv', rfl⟩
  obtain ⟨rfl, hstore⟩ := h.eval hv hv'
  exact ⟨Prod.ext (hb.trans hb'.symm) hstore, rfl⟩

theorem functional_runOptExpr (o : Option Expr) : (m.runOptExpr o).Functional := by
  cases o with
  | none => exact functional_jump _
  | some e => exact functional_runExpr h e

theorem functional_runDecl (decl : VarDecl) : (m.runDecl decl).Functional := by
  rintro a b b' o o' ⟨r, hr, hb, rfl⟩ ⟨r', hr', hb', rfl⟩
  obtain ⟨rfl, hstore⟩ := h.declare hr hr'
  exact ⟨Prod.ext (hb.trans hb'.symm) hstore, rfl⟩

theorem functional_runReturn (value : Option Expr) : (m.runReturn value).Functional := by
  cases value with
  | none => exact functional_jump _
  | some e =>
    rintro a b b' o o' ⟨hb, v, hv, rfl⟩ ⟨hb', v', hv', rfl⟩
    obtain ⟨rfl, hstore⟩ := h.eval hv hv'
    exact ⟨Prod.ext (hb.trans hb'.symm) hstore, rfl⟩

end Parts

theorem functional_inScope {x : Behaviour m.State m.Value} (hx : x.Functional) :
    (Meaning.inScope x).Functional := by
  rintro a b b' o o' ⟨hb, sc, h⟩ ⟨hb', sc', h'⟩
  obtain ⟨hstate, rfl⟩ := hx h h'
  exact ⟨Prod.ext (hb.trans hb'.symm) (Prod.mk.inj hstate).2, rfl⟩

theorem functional_branch (h : m.Deterministic) (cond : Expr) {x y : Behaviour m.State m.Value}
    (hx : x.Functional) (hy : y.Functional) : (branch cond x y).Functional := by
  rintro a b b' o o' (⟨s, ht, hr⟩ | ⟨s, ht, hr⟩ | ⟨ht, hb, rfl⟩)
    (⟨s', ht', hr'⟩ | ⟨s', ht', hr'⟩ | ⟨ht', hb', rfl⟩)
  all_goals obtain ⟨hresult, hstore⟩ := h.tests ht ht'
  · obtain rfl := hstore
    exact functional_inScope hx hr hr'
  · cases hresult
  · cases hresult
  · cases hresult
  · obtain rfl := hstore
    exact functional_inScope hy hr hr'
  · cases hresult
  · cases hresult
  · cases hresult
  · exact ⟨Prod.ext (hb.trans hb'.symm) hstore, rfl⟩

/-! ## Loops

A round of a loop leads to the store with which the next round starts, or ends the loop. -/

/-- Where a round of a loop leads, and the end of the loop unless there is a next round. -/
abbrev Round (m : Meaning) := m.Store → Option (Outcome m.Value) → Prop

namespace Round

variable {rest : m.State → Round m} {a : m.State}

/-- Leads to one store, and either ends the loop or not. -/
def Functional (x : Round m) : Prop :=
  ∀ ⦃t t' k k'⦄, x t k → x t' k' → t = t' ∧ k = k'

def isAt (s : m.Store) (how : Option (Outcome m.Value)) : Round m := fun t k => t = s ∧ k = how

/-- Goes on as the condition says: the loop ends if it fails. -/
def afterTest (test : Option Bool → m.Store → Prop) (rest : m.Store → Round m) : Round m := fun t k =>
  ∃ r u, test r u ∧ match r with
    | none => isAt u (some .discarded) t k
    | some false => isAt u (some .normal) t k
    | some true => rest u t k

def afterBody (body : m.State → Outcome m.Value → Prop) (rest : m.State → Round m) : Round m :=
  fun t k =>
    ∃ a o, body a o ∧ match o with
      | .normal | .continued => rest a t k
      | .broken => isAt a.2 (some .normal) t k
      | .returned v => isAt a.2 (some (.returned v)) t k
      | .discarded => isAt a.2 (some .discarded) t k

/-- Goes on behind statements that end normally. -/
def afterStep (step : m.State → Outcome m.Value → Prop) (rest : m.State → Round m) : Round m :=
  fun t k =>
    ∃ a o, step a o ∧ ((o = .normal ∧ rest a t k) ∨ (o ≠ .normal ∧ isAt a.2 (some o) t k))

theorem functional_isAt (s : m.Store) (how : Option (Outcome m.Value)) : (isAt s how).Functional := by
  rintro t t' k k' ⟨rfl, rfl⟩ ⟨rfl, rfl⟩
  exact ⟨rfl, rfl⟩

theorem functional_afterTest {test : Option Bool → m.Store → Prop} {rest : m.Store → Round m}
    (htest : ∀ ⦃r r' u u'⦄, test r u → test r' u' → r = r' ∧ u = u')
    (hrest : ∀ u, (rest u).Functional) : (afterTest test rest).Functional := by
  rintro t t' k k' ⟨r, u, hr, hk⟩ ⟨r', u', hr', hk'⟩
  obtain ⟨rfl, rfl⟩ := htest hr hr'
  rcases r with _ | _ | _
  · exact functional_isAt _ _ hk hk'
  · exact functional_isAt _ _ hk hk'
  · exact hrest u hk hk'

theorem functional_afterBody {x : Behaviour m.State m.Value} (hx : x.Functional)
    (hrest : ∀ a, (rest a).Functional) : (afterBody (x a) rest).Functional := by
  rintro t t' k k' ⟨b, o, ho, hk⟩ ⟨b', o', ho', hk'⟩
  obtain ⟨rfl, rfl⟩ := hx ho ho'
  cases o with
  | normal | continued => exact hrest b hk hk'
  | broken | returned | discarded => exact functional_isAt _ _ hk hk'

theorem functional_afterStep {x : Behaviour m.State m.Value} (hx : x.Functional)
    (hrest : ∀ a, (rest a).Functional) : (afterStep (x a) rest).Functional := by
  rintro t t' k k' ⟨b, o, ho, hk⟩ ⟨b', o', ho', hk'⟩
  obtain ⟨rfl, rfl⟩ := hx ho ho'
  rcases hk with ⟨hnormal, hk⟩ | ⟨hne, hk⟩
  · rcases hk' with ⟨-, hk'⟩ | ⟨hne', -⟩
    · exact hrest b hk hk'
    · exact absurd hnormal hne'
  · rcases hk' with ⟨hnormal', -⟩ | ⟨-, hk'⟩
    · exact absurd hnormal' hne
    · exact functional_isAt _ _ hk hk'

variable {body : m.State → Outcome m.Value → Prop} {o : Outcome m.Value} (hbody : body a o)
include hbody

theorem afterBody_of_endsRound {t : m.Store} {k : Option (Outcome m.Value)} (ho : o.EndsRound)
    (hrest : rest a t k) : afterBody body rest t k := by
  refine ⟨a, o, hbody, ?_⟩
  rcases ho with rfl | rfl
  · exact hrest
  · exact hrest

theorem afterBody_of_leaves (ho : o.Leaves) : afterBody body rest a.2 (some o) := by
  refine ⟨a, o, hbody, ?_⟩
  cases o with
  | returned | discarded => exact ⟨rfl, rfl⟩
  | normal | broken | continued => exact ho.elim

end Round

/-- Round after round, until one of them ends the loop. -/
inductive Repeats (round : m.Store → Round m) : Behaviour m.Store m.Value
  | stop {s t : m.Store} {o : Outcome m.Value} : round s t (some o) → Repeats round s t o
  | next {s t u : m.Store} {o : Outcome m.Value} :
      round s t none → Repeats round t u o → Repeats round s u o

theorem functional_repeats {round : m.Store → Round m} (h : ∀ s, (round s).Functional) :
    Functional (Repeats round) := by
  intro s t t' o o' hrun hrun'
  induction hrun generalizing t' o' with
  | stop hs =>
    cases hrun' with
    | stop hs' =>
      obtain ⟨rfl, hend⟩ := h _ hs hs'
      exact ⟨rfl, Option.some.inj hend⟩
    | next hs' => cases (h _ hs hs').2
  | next hs _ ih =>
    cases hrun' with
    | stop hs' => cases (h _ hs hs').2
    | next hs' hrest =>
      obtain ⟨rfl, -⟩ := h _ hs hs'
      exact ih hrest

section Loops

open Round

variable {sc : m.Scope} {test : m.Store → Option Bool → m.Store → Prop}
  {exit : m.Scope → m.Store → Option Bool → m.Store → Prop}
  {body step continuing : Behaviour m.State m.Value} {s t : m.Store} {o : Outcome m.Value}

def forRound (sc : m.Scope) (test : m.Store → Option Bool → m.Store → Prop)
    (body step : Behaviour m.State m.Value) (s : m.Store) : Round m :=
  afterTest (test s) fun u => afterBody (body (sc, u)) fun a =>
    afterStep (step (sc, a.2)) fun b => isAt b.2 none

def doRound (sc : m.Scope) (test : m.Store → Option Bool → m.Store → Prop)
    (body : Behaviour m.State m.Value) (s : m.Store) : Round m :=
  afterBody (body (sc, s)) fun a => afterTest (test a.2) fun u => isAt u none

def loopRound (sc : m.Scope) (body continuing : Behaviour m.State m.Value)
    (exit : m.Scope → m.Store → Option Bool → m.Store → Prop) (s : m.Store) : Round m :=
  afterBody (body (sc, s)) fun a => afterStep (continuing a) fun b =>
    afterTest (fun r => exit b.1 b.2 (r.map (!·))) fun u => isAt u none

theorem repeats_of_forRuns (h : ForRuns sc test body step s t o) :
    Repeats (forRound sc test body step) s t o := by
  induction h with
  | done htest => exact .stop ⟨_, _, htest, rfl, rfl⟩
  | testDiscards htest => exact .stop ⟨_, _, htest, rfl, rfl⟩
  | broken htest hbody => exact .stop ⟨_, _, htest, _, _, hbody, rfl, rfl⟩
  | leaves htest hbody hleaves => exact .stop ⟨_, _, htest, afterBody_of_leaves hbody hleaves⟩
  | stepEnds htest hbody hends hstep hne =>
    exact .stop ⟨_, _, htest, afterBody_of_endsRound hbody hends
      ⟨_, _, hstep, .inr ⟨hne, rfl, rfl⟩⟩⟩
  | next htest hbody hends hstep _ ih =>
    exact .next ⟨_, _, htest, afterBody_of_endsRound hbody hends
      ⟨_, _, hstep, .inl ⟨rfl, rfl, rfl⟩⟩⟩ ih

theorem repeats_of_doRuns (h : DoRuns sc test body s t o) : Repeats (doRound sc test body) s t o := by
  induction h with
  | broken hbody => exact .stop ⟨_, _, hbody, rfl, rfl⟩
  | leaves hbody hleaves => exact .stop (afterBody_of_leaves hbody hleaves)
  | done hbody hends htest =>
    exact .stop (afterBody_of_endsRound hbody hends ⟨_, _, htest, rfl, rfl⟩)
  | testDiscards hbody hends htest =>
    exact .stop (afterBody_of_endsRound hbody hends ⟨_, _, htest, rfl, rfl⟩)
  | next hbody hends htest _ ih =>
    exact .next (afterBody_of_endsRound hbody hends ⟨_, _, htest, rfl, rfl⟩) ih

theorem repeats_of_loopRuns (h : LoopRuns sc body continuing exit s t o) :
    Repeats (loopRound sc body continuing exit) s t o := by
  induction h with
  | broken hbody => exact .stop ⟨_, _, hbody, rfl, rfl⟩
  | leaves hbody hleaves => exact .stop (afterBody_of_leaves hbody hleaves)
  | continuingEnds hbody hends hcont hne =>
    exact .stop (afterBody_of_endsRound hbody hends ⟨_, _, hcont, .inr ⟨hne, rfl, rfl⟩⟩)
  | done hbody hends hcont hexit =>
    exact .stop (afterBody_of_endsRound hbody hends
      ⟨_, _, hcont, .inl ⟨rfl, some false, _, hexit, rfl, rfl⟩⟩)
  | exitDiscards hbody hends hcont hexit =>
    exact .stop (afterBody_of_endsRound hbody hends
      ⟨_, _, hcont, .inl ⟨rfl, none, _, hexit, rfl, rfl⟩⟩)
  | next hbody hends hcont hexit _ ih =>
    exact .next (afterBody_of_endsRound hbody hends
      ⟨_, _, hcont, .inl ⟨rfl, some true, _, hexit, rfl, rfl⟩⟩) ih

section

variable (htest : ∀ ⦃s r r' u u'⦄, test s r u → test s r' u' → r = r' ∧ u = u')
include htest

theorem functional_forRuns (hbody : body.Functional) (hstep : step.Functional) :
    Behaviour.Functional (ForRuns sc test body step) := by
  have hround : ∀ s, (forRound sc test body step s).Functional := fun s =>
    functional_afterTest (fun _ _ _ _ h h' => htest h h') fun _ =>
      functional_afterBody hbody fun _ => functional_afterStep hstep fun _ => functional_isAt _ _
  exact fun _ _ _ _ _ h h' =>
    functional_repeats hround (repeats_of_forRuns h) (repeats_of_forRuns h')

theorem functional_doRuns (hbody : body.Functional) :
    Behaviour.Functional (DoRuns sc test body) := by
  have hround : ∀ s, (doRound sc test body s).Functional := fun s =>
    functional_afterBody hbody fun _ =>
      functional_afterTest (fun _ _ _ _ h h' => htest h h') fun _ => functional_isAt _ _
  exact fun _ _ _ _ _ h h' =>
    functional_repeats hround (repeats_of_doRuns h) (repeats_of_doRuns h')

end

theorem functional_loopRuns
    (hexit : ∀ ⦃sc s r r' u u'⦄, exit sc s r u → exit sc s r' u' → r = r' ∧ u = u')
    (hbody : body.Functional) (hcont : continuing.Functional) :
    Behaviour.Functional (LoopRuns sc body continuing exit) := by
  have hround : ∀ s, (loopRound sc body continuing exit s).Functional := fun s => by
    refine functional_afterBody hbody fun _ => functional_afterStep hcont fun _ =>
      functional_afterTest (fun r r' u u' h h' => ?_) fun _ => functional_isAt _ _
    obtain ⟨hr, hu⟩ := hexit h h'
    exact ⟨Option.map_injective (fun _ _ => Bool.not_inj) hr, hu⟩
  exact fun _ _ _ _ _ h h' =>
    functional_repeats hround (repeats_of_loopRuns h) (repeats_of_loopRuns h')

theorem functional_looped {rounds : m.Scope → Behaviour m.Store m.Value}
    (h : ∀ sc, Behaviour.Functional (rounds sc)) : (looped rounds).Functional := by
  rintro a b b' o o' ⟨hb, hrun⟩ ⟨hb', hrun'⟩
  obtain ⟨hstore, rfl⟩ := h _ hrun hrun'
  exact ⟨Prod.ext (hb.trans hb'.symm) hstore, rfl⟩

end Loops

theorem Deterministic.continues (h : m.Deterministic) (cond : Option Expr) {sc : m.Scope} ⦃s : m.Store⦄
    ⦃r r' : Option Bool⦄ ⦃u u' : m.Store⦄ (ht : m.Continues cond sc s r u)
    (ht' : m.Continues cond sc s r' u') : r = r' ∧ u = u' := by
  cases cond with
  | none => exact ⟨ht.2.trans ht'.2.symm, ht.1.trans ht'.1.symm⟩
  | some e => exact h.tests ht ht'

theorem Deterministic.exits (h : m.Deterministic) (breakIf : Option Expr) ⦃sc : m.Scope⦄ ⦃s : m.Store⦄
    ⦃r r' : Option Bool⦄ ⦃u u' : m.Store⦄ (ht : m.Exits breakIf sc s r u)
    (ht' : m.Exits breakIf sc s r' u') : r = r' ∧ u = u' := by
  cases breakIf with
  | none => exact ⟨ht.2.trans ht'.2.symm, ht.1.trans ht'.1.symm⟩
  | some e => exact h.tests ht ht'

/-! ## Branches of a `switch` -/

theorem functional_selected {hit : Expr → Bool} {bs : List (Arm m.State m.Value)}
    (h : ∀ b ∈ bs, b.2.Functional) {xs : List (Arm m.State m.Value)}
    (hxs : xs.Sublist (CaseLabel.selectFrom Prod.fst hit bs)) :
    (inTurn (xs.map Prod.snd)).leaveSwitch.Functional := by
  refine (functional_inTurn ?_).leaveSwitch
  intro x hx
  obtain ⟨b, hb, rfl⟩ := mem_map.mp hx
  exact h b (CaseLabel.mem_of_mem_selectFrom (hxs.mem hb))

theorem functional_runSwitch (hm : m.Deterministic) (selector : Expr) {bs : List (Arm m.State m.Value)}
    (h : ∀ b ∈ bs, b.2.Functional) : (runSwitch d selector bs).Functional := by
  rintro a b b' o o' (⟨v, s, hv, hrun⟩ | ⟨hv, hb, rfl⟩) (⟨v', s', hv', hrun'⟩ | ⟨hv', hb', rfl⟩)
  · obtain ⟨hvalue, rfl⟩ := hm.eval hv hv'
    obtain rfl := Option.some.inj hvalue
    cases d with
    | source => exact functional_inScope (functional_selected h (List.Sublist.refl _)) hrun hrun'
    | target => exact functional_inScope (functional_selected h (take_sublist _ _)) hrun hrun'
  · cases (hm.eval hv hv').1
  · cases (hm.eval hv hv').1
  · exact ⟨Prod.ext (hb.trans hb'.symm) (hm.eval hv hv').2, rfl⟩

end Meaning

open Meaning

namespace Stmt

variable {m : Meaning} {d : Dialect}

mutual

/-- **Statements are as deterministic as the expressions in them.** -/
theorem functional_run (h : m.Deterministic) (s : Stmt) : (s.run m d).Functional := by
  cases s with
  | decl ds =>
    rw [run]
    refine functional_inTurn fun x hx => ?_
    obtain ⟨decl, -, rfl⟩ := mem_map.mp hx
    exact functional_runDecl h decl
  | expr e => rw [run]; exact functional_runExpr h e
  | block body => rw [run]; exact functional_inScope (functional_inTurn (functional_runAll h body))
  | ifElse cond whenTrue whenFalse =>
    rw [run]
    exact functional_branch h cond (functional_run h whenTrue)
      (functional_inTurn (functional_runOpt h whenFalse))
  | forLoop start cond step body =>
    rw [run]
    exact functional_inScope ((functional_inTurn (functional_runOpt h start)).andThen
      (functional_looped fun sc => functional_forRuns (h.continues cond)
        (functional_inScope (functional_run h body)) (functional_runOptExpr h step)))
  | whileLoop cond body =>
    rw [run]
    exact functional_looped fun sc => functional_forRuns (h.continues (some cond))
      (functional_inScope (functional_run h body)) (functional_jump _)
  | doWhile body cond =>
    rw [run]
    exact functional_looped fun sc => functional_doRuns (h.continues (some cond))
      (functional_inScope (functional_run h body))
  | loop body continuing breakIf =>
    rw [run]
    exact functional_looped fun sc => functional_loopRuns (h.exits breakIf)
      (functional_inTurn (functional_runAll h body))
      (functional_inTurn (functional_runAll h continuing))
  | switch selector cases =>
    rw [run]
    exact functional_runSwitch h selector (functional_runCases h cases)
  | ret value => rw [run]; exact functional_runReturn h value
  | breakOut | continueOn | discard | empty => rw [run]; exact functional_jump _

theorem functional_runAll (h : m.Deterministic) (ss : List Stmt) :
    ∀ x ∈ runAll m d ss, x.Functional := by
  cases ss with
  | nil => rw [runAll]; exact forall_mem_nil _
  | cons s ss =>
    rw [runAll]
    exact forall_mem_cons.mpr ⟨functional_run h s, functional_runAll h ss⟩

theorem functional_runOpt (h : m.Deterministic) (o : Option Stmt) :
    ∀ x ∈ runOpt m d o, x.Functional := by
  cases o with
  | none => rw [runOpt]; exact forall_mem_nil _
  | some s =>
    rw [runOpt]
    exact forall_mem_singleton.mpr (functional_run h s)

theorem functional_runCases (h : m.Deterministic) (cases : List Case) :
    ∀ b ∈ runCases m d cases, b.2.Functional := by
  cases cases with
  | nil => rw [runCases]; exact forall_mem_nil _
  | cons c cs =>
    cases c with
    | mk labels body =>
      rw [runCases]
      exact forall_mem_cons.mpr
        ⟨functional_inTurn (functional_runAll h body), functional_runCases h cs⟩

end

end Stmt

end ShaderEffect
