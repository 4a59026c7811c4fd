import ShaderEffect.Proofs.Tree

/-!
# Courses of control

What calls are made, and in what order, as far as that can be told from the text. Operands are
evaluated from left to right, a call comes after its arguments, and of a logical operation or a
conditional expression some operands may be left out: `Expr.evaluations` lists the calls of each
possible evaluation. **A call may follow another one exactly if it stands around it or after it**
(`Expr.tells_evaluations`), where the two sides of a conditional expression exclude each other.

A `Course` follows control through statements that stand one after the other, until it goes into one
of them, leaves them, or has done them all. **A statement settles a call if it is always done after
the call, before certain other calls; whether it does can be read off the operands**
(`settledBy_iff`), where control goes straight through the statements up to it.
-/

namespace ShaderEffect

open List

variable {es : List Expr}

structure Call where
  name : String
  args : List Expr

/-! ## Evaluations -/

def oneAfter (xs ys : List (List Call)) : List (List Call) :=
  xs.flatMap fun x => ys.map (x ++ ·)

variable {cs : List Call}

@[simp] theorem mem_oneAfter {xs ys : List (List Call)} :
    cs ∈ oneAfter xs ys ↔ ∃ x ∈ xs, ∃ y ∈ ys, x ++ y = cs := by
  simp [oneAfter]

namespace Expr

mutual

/-- The calls that an evaluation may make, in order. -/
def evaluations : Expr → List (List Call)
  | .binary op lhs rhs =>
    let both := oneAfter lhs.evaluations rhs.evaluations
    if op = .and ∨ op = .or then lhs.evaluations ++ both else both
  | .conditional cond whenTrue whenFalse =>
    oneAfter cond.evaluations (whenTrue.evaluations ++ whenFalse.evaluations)
  | .call name args => oneAfter (evaluationsAll args) [[⟨name, args⟩]]
  | .assign _ x y | .index x y => oneAfter x.evaluations y.evaluations
  | .unary _ x | .field x _ | .deref x | .addrOf x => x.evaluations
  | .construct _ items | .comma items => evaluationsAll items
  | .int _ | .float _ | .bool _ | .ident _ => [[]]

/-- The calls that an evaluation of expressions in order may make. -/
def evaluationsAll : List Expr → List (List Call)
  | [] => [[]]
  | e :: es => oneAfter e.evaluations (evaluationsAll es)

end

theorem mem_evaluationsAll_append {xs ys : List Expr} :
    cs ∈ evaluationsAll (xs ++ ys) ↔
      ∃ x ∈ evaluationsAll xs, ∃ y ∈ evaluationsAll ys, x ++ y = cs := by
  induction xs generalizing cs with
  | nil => simp [evaluationsAll]
  | cons e es ih =>
    grind [evaluationsAll, mem_oneAfter]

end Expr

/-! ## The calls that may be made -/

/-- Some of the evaluations makes a call with the property. -/
def Makes (ways : List (List Call)) (p : Call → Bool) : Prop :=
  ∃ cs ∈ ways, ∃ c ∈ cs, p c = true

/-- After a call with the first property no evaluation makes one with the second. -/
def Calm (ways : List (List Call)) (p q : Call → Bool) : Prop :=
  ∀ cs ∈ ways, cs.Pairwise fun c d => p c = true → q d = false

section Ways

variable {xs ys : List (List Call)} {p q : Call → Bool}

theorem makes_append : Makes (xs ++ ys) p ↔ Makes xs p ∨ Makes ys p := by
  simp only [Makes, mem_append, or_and_right, exists_or]

theorem calm_append : Calm (xs ++ ys) p q ↔ Calm xs p q ∧ Calm ys p q :=
  forall_mem_append

theorem oneAfter_ne_nil (hx : xs ≠ []) (hy : ys ≠ []) : oneAfter xs ys ≠ [] := by
  obtain ⟨x, hx⟩ := exists_mem_of_ne_nil _ hx
  obtain ⟨y, hy⟩ := exists_mem_of_ne_nil _ hy
  exact ne_nil_of_mem (mem_oneAfter.mpr ⟨x, hx, y, hy, rfl⟩)

theorem makes_oneAfter (hx : xs ≠ []) (hy : ys ≠ []) :
    Makes (oneAfter xs ys) p ↔ Makes xs p ∨ Makes ys p := by
  constructor
  · rintro ⟨_, hcs, c, hc, hp⟩
    obtain ⟨x, hx, y, hy, rfl⟩ := mem_oneAfter.mp hcs
    rcases mem_append.mp hc with hc | hc
    · exact .inl ⟨x, hx, c, hc, hp⟩
    · exact .inr ⟨y, hy, c, hc, hp⟩
  · rintro (⟨x, hx, c, hc, hp⟩ | ⟨y, hy, c, hc, hp⟩)
    · obtain ⟨y, hy⟩ := exists_mem_of_ne_nil _ hy
      exact ⟨x ++ y, mem_oneAfter.mpr ⟨x, hx, y, hy, rfl⟩, c, mem_append_left _ hc, hp⟩
    · obtain ⟨x, hx⟩ := exists_mem_of_ne_nil _ hx
      exact ⟨x ++ y, mem_oneAfter.mpr ⟨x, hx, y, hy, rfl⟩, c, mem_append_right _ hc, hp⟩

/-- What is done one after the other is calm, if both are and the second makes no call that the first
one forbids. -/
theorem calm_oneAfter (hx : xs ≠ []) (hy : ys ≠ []) :
    Calm (oneAfter xs ys) p q ↔ Calm xs p q ∧ Calm ys p q ∧ ¬ (Makes xs p ∧ Makes ys q) := by
  constructor
  · intro h
    have hboth : ∀ x ∈ xs, ∀ y ∈ ys, (x ++ y).Pairwise fun c d => p c = true → q d = false :=
      fun x hx y hy => h _ (mem_oneAfter.mpr ⟨x, hx, y, hy, rfl⟩)
    refine ⟨fun x hx => ?_, fun y hy => ?_, ?_⟩
    · obtain ⟨y, hy⟩ := exists_mem_of_ne_nil _ hy
      exact (pairwise_append.mp (hboth x hx y hy)).1
    · obtain ⟨x, hx⟩ := exists_mem_of_ne_nil _ hx
      exact (pairwise_append.mp (hboth x hx y hy)).2.1
    · rintro ⟨⟨x, hx, c, hc, hp⟩, y, hy, d, hd, hq⟩
      grind
  · rintro ⟨hxs, hys, hnone⟩ _ hcs
    obtain ⟨x, hx, y, hy, rfl⟩ := mem_oneAfter.mp hcs
    refine pairwise_append.mpr ⟨hxs x hx, hys y hy, fun c hc d hd hp => ?_⟩
    rw [Bool.eq_false_iff]
    exact fun hq => hnone ⟨⟨x, hx, c, hc, hp⟩, y, hy, d, hd, hq⟩

/-- What can be told of the evaluations: there is one of them, some make calls, and others keep calls
from following each other. -/
structure Tells (ways : List (List Call)) (makes : (Call → Bool) → Bool)
    (calm : (Call → Bool) → (Call → Bool) → Bool) : Prop where
  ne_nil : ways ≠ []
  makes_iff : ∀ p, Makes ways p ↔ makes p = true
  calm_iff : ∀ p q, Calm ways p q ↔ calm p q = true

namespace Tells

variable {m m' : (Call → Bool) → Bool} {c c' : (Call → Bool) → (Call → Bool) → Bool}

theorem congr (h : Tells xs m c) (hm : ∀ p, m' p = m p) (hc : ∀ p q, c' p q = c p q) :
    Tells xs m' c' := by
  obtain rfl : m' = m := funext hm
  obtain rfl : c' = c := funext fun p => funext (hc p)
  exact h

theorem nothing : Tells [[]] (fun _ => false) fun _ _ => true :=
  ⟨by simp, by simp [Makes], by simp [Calm]⟩

theorem single (d : Call) : Tells [[d]] (fun p => p d) fun _ _ => true :=
  ⟨by simp, by simp [Makes], by simp [Calm]⟩

theorem append (hx : Tells xs m c) (hy : Tells ys m' c') :
    Tells (xs ++ ys) (fun p => m p || m' p) fun p q => c p q && c' p q where
  ne_nil := append_ne_nil_of_left_ne_nil hx.ne_nil _
  makes_iff := fun p => by rw [makes_append, hx.makes_iff, hy.makes_iff, Bool.or_eq_true]
  calm_iff := fun p q => by rw [calm_append, hx.calm_iff, hy.calm_iff, Bool.and_eq_true]

theorem oneAfter (hx : Tells xs m c) (hy : Tells ys m' c') :
    Tells (oneAfter xs ys) (fun p => m p || m' p)
      fun p q => c p q && c' p q && !(m p && m' q) where
  ne_nil := oneAfter_ne_nil hx.ne_nil hy.ne_nil
  makes_iff := fun p => by
    rw [makes_oneAfter hx.ne_nil hy.ne_nil, hx.makes_iff, hy.makes_iff, Bool.or_eq_true]
  calm_iff := fun p q => by
    rw [calm_oneAfter hx.ne_nil hy.ne_nil, hx.calm_iff, hy.calm_iff, hx.makes_iff, hy.makes_iff]
    grind

end Tells

end Ways

namespace Expr

def isCallWith (p : Call → Bool) : Expr → Bool
  | .call name args => p ⟨name, args⟩
  | _ => false

/-- A call with the property stands in the expression. -/
def holds (p : Call → Bool) (e : Expr) : Bool :=
  e.subexprs.any (isCallWith p)

theorem holds_eq (p : Call → Bool) (e : Expr) :
    e.holds p = (isCallWith p e || e.children.any (holds p)) := by
  rw [holds, subexprs_eq_cons, any_cons, any_flatMap]
  rfl

mutual

/-- In the expression no call with the second property stands around one with the first or after
it. -/
def calm (p q : Call → Bool) : Expr → Bool
  | .call name args => calmAll p q args && !(args.any (holds p) && q ⟨name, args⟩)
  | .conditional cond whenTrue whenFalse =>
    cond.calm p q && (whenTrue.calm p q && whenFalse.calm p q) &&
      !(cond.holds p && (whenTrue.holds q || whenFalse.holds q))
  | .binary _ x y | .assign _ x y | .index x y =>
    x.calm p q && y.calm p q && !(x.holds p && y.holds q)
  | .unary _ x | .field x _ | .deref x | .addrOf x => x.calm p q
  | .construct _ items | .comma items => calmAll p q items
  | .int _ | .float _ | .bool _ | .ident _ => true

/-- In the expressions no call with the second property stands around one with the first or after
it. -/
def calmAll (p q : Call → Bool) : List Expr → Bool
  | [] => true
  | e :: es => e.calm p q && calmAll p q es && !(e.holds p && es.any (holds q))

end

theorem tells_evaluationsAll_of (h : ∀ e ∈ es, Tells e.evaluations (holds · e) (calm · · e)) :
    Tells (evaluationsAll es) (fun p => es.any (holds p)) (calmAll · · es) := by
  induction es with
  | nil => simpa only [evaluationsAll, calmAll, any_nil] using Tells.nothing
  | cons e es ih =>
    rw [forall_mem_cons] at h
    simpa only [evaluationsAll, calmAll, any_cons] using h.1.oneAfter (ih h.2)

/-- **The calls of an expression may be made, and a call may follow another one exactly if it stands
around it or after it.** -/
theorem tells_evaluations (e : Expr) : Tells e.evaluations (holds · e) (calm · · e) := by
  induction e using byChildren with
  | node e ih =>
    have hholds : ∀ p, e.holds p = (isCallWith p e || e.children.any (holds p)) :=
      fun p => holds_eq p e
    cases e with
    | binary op x y =>
      have hx := ih x (by simp [children])
      have hboth := hx.oneAfter (ih y (by simp [children]))
      rw [evaluations]
      split
      · exact (hx.append hboth).congr (by simp [hholds, isCallWith, children])
          (by simp [calm, Bool.and_assoc])
      · exact hboth.congr (by simp [hholds, isCallWith, children]) (by simp [calm])
    | conditional c t f =>
      rw [evaluations]
      have hsides := (ih t (by simp [children])).append (ih f (by simp [children]))
      exact ((ih c (by simp [children])).oneAfter hsides).congr
        (by simp [hholds, isCallWith, children]) (by simp [calm])
    | call name args =>
      rw [evaluations]
      exact ((tells_evaluationsAll_of ih).oneAfter (.single _)).congr
        (by simp [hholds, isCallWith, children, Bool.or_comm]) (by simp [calm, children])
    | assign _ x y | index x y =>
      rw [evaluations]
      exact ((ih x (by simp [children])).oneAfter (ih y (by simp [children]))).congr
        (by simp [hholds, isCallWith, children]) (by simp [calm])
    | unary _ x | field x _ | deref x | addrOf x =>
      rw [evaluations]
      exact (ih x (by simp [children])).congr (by simp [hholds, isCallWith, children])
        (by simp [calm])
    | construct _ items | comma items =>
      rw [evaluations]
      exact (tells_evaluationsAll_of ih).congr (by simp [hholds, isCallWith, children])
        (by simp [calm, children])
    | int | float | bool | ident =>
      rw [evaluations]
      exact Tells.nothing.congr (by simp [hholds, isCallWith, children]) (by simp [calm])

theorem tells_evaluationsAll (es : List Expr) :
    Tells (evaluationsAll es) (fun p => es.any (holds p)) (calmAll · · es) :=
  tells_evaluationsAll_of fun e _ => tells_evaluations e

end Expr

/-! ## Courses -/

/-- Where control may go when a statement has evaluated its own expressions: into a statement inside
it, behind it, or to somewhere else. -/
inductive Goes
  | inside
  | behind
  | away
deriving DecidableEq

namespace Stmt

/-- Where control may go from a statement. A loop without a condition is left from inside only. -/
def goes : Stmt → List Goes
  | .decl _ | .expr _ | .empty => [.behind]
  | .block body => if body.isEmpty then [.behind] else [.inside]
  | .ifElse _ _ none => [.inside, .behind]
  | .ifElse _ _ (some _) => [.inside]
  | .switch _ cases => if cases.all (·.body.isEmpty) then [.behind] else [.inside, .behind]
  | .whileLoop .. | .doWhile .. | .forLoop _ (some _) _ _ | .loop _ _ (some _) => [.inside, .behind]
  | .forLoop _ none _ _ | .loop _ _ none => [.inside]
  | .ret _ | .breakOut | .continueOn | .discard => [.away]

/-- What a statement evaluates in one go. The step of a `for` loop comes before the next test of the
condition. -/
def rounds : Stmt → List (List Expr)
  | .forLoop _ cond step _ => [cond.toList, step.toList ++ cond.toList]
  | s => [s.operands]

/-- Control goes inside before anything is evaluated. -/
def startsInside : Stmt → Bool
  | .doWhile .. | .loop .. => true
  | .forLoop start _ _ _ => start.isSome
  | _ => false

end Stmt

/-- What happens on a course: a call is made, or the statement at a position has been done. -/
inductive Event
  | call (c : Call)
  | done (position : Nat)

def Event.calls (log : List Event) : List Call :=
  log.filterMap fun
    | .call c => some c
    | .done _ => none

/-- What may happen from where control comes to the first of the statements, or back to it from
inside, until it goes into one of them, leaves them, or has done them all. The first statement has
the given position. -/
inductive Course : Nat → List Stmt → List Event → Prop
  | arrives (n : Nat) : Course n [] []
  | passes {n : Nat} {s : Stmt} {ss : List Stmt} {es : List Expr} {cs : List Call}
      {log : List Event} : es ∈ s.rounds → cs ∈ Expr.evaluationsAll es → .behind ∈ s.goes →
      Course (n + 1) ss log → Course n (s :: ss) (cs.map .call ++ .done n :: log)
  | leaves {n : Nat} {s : Stmt} {ss : List Stmt} {es : List Expr} {cs : List Call} {g : Goes} :
      es ∈ s.rounds → cs ∈ Expr.evaluationsAll es → g ∈ s.goes → g ≠ .behind →
      Course n (s :: ss) (cs.map .call)
  | enters {n : Nat} {s : Stmt} {ss : List Stmt} : s.startsInside = true → Course n (s :: ss) []

namespace Event

@[simp] theorem calls_append (xs ys : List Event) : calls (xs ++ ys) = calls xs ++ calls ys :=
  filterMap_append

@[simp] theorem calls_map (cs : List Call) : calls (cs.map .call) = cs := by
  rw [calls, filterMap_map]
  exact filterMap_some

@[simp] theorem calls_nil : calls [] = [] := rfl

@[simp] theorem calls_done (n : Nat) (log : List Event) : calls (.done n :: log) = calls log := rfl

@[simp] theorem mem_calls {c : Call} {log : List Event} : c ∈ calls log ↔ .call c ∈ log := by
  rw [calls, mem_filterMap]
  constructor
  · rintro ⟨e, he, hc⟩
    cases e with
    | call d => cases hc; exact he
    | done => cases hc
  · exact fun h => ⟨_, h, rfl⟩

end Event

namespace Stmt

variable {s : Stmt}

theorem goes_ne_nil (s : Stmt) : s.goes ≠ [] := by
  unfold goes
  split <;> first | exact cons_ne_nil _ _ | (split <;> exact cons_ne_nil _ _)

theorem mem_operands_of_rounds {e : Expr} (hes : es ∈ s.rounds) (he : e ∈ es) : e ∈ s.operands := by
  cases s with
  | forLoop start cond step body =>
    rcases mem_cons.mp hes with rfl | hes
    · exact mem_append_left _ he
    · rw [mem_singleton.mp hes] at he
      exact mem_append.mpr (mem_append.mp he).symm
  | _ =>
    rw [mem_singleton.mp hes] at he
    exact he

theorem rounds_of_goes (h : s.goes = [.behind]) :
    s.rounds = [s.operands] ∧ s.startsInside = false := by
  cases s with
  | forLoop start cond => cases cond <;> cases h
  | loop body continuing breakIf => cases breakIf <;> cases h
  | doWhile => cases h
  | _ => exact ⟨rfl, rfl⟩

end Stmt

namespace Course

open ShaderEffect.Expr Event

variable {n : Nat} {s : Stmt} {ss pre post : List Stmt} {log : List Event}
variable {p : Call → Bool}

/-! ### Statements behind which control always goes -/

theorem cons_iff (h : s.goes = [.behind]) :
    Course n (s :: ss) log ↔ ∃ cs ∈ evaluationsAll s.operands, ∃ rest,
      Course (n + 1) ss rest ∧ log = cs.map .call ++ .done n :: rest := by
  have hs := Stmt.rounds_of_goes h
  constructor
  · intro hc
    cases hc with
    | passes hes hcs _ hrest =>
      grind
    | leaves _ _ hg hne =>
      rw [h, mem_singleton] at hg
      exact absurd hg hne
    | enters hin =>
      rw [hs.2] at hin
      cases hin
  · rintro ⟨cs, hcs, rest, hrest, rfl⟩
    have hround : s.operands ∈ s.rounds := by
      rw [hs.1]
      exact mem_singleton_self _
    have hbehind : .behind ∈ s.goes := by
      rw [h]
      exact mem_singleton_self _
    exact .passes hround hcs hbehind hrest

theorem append_iff (h : ∀ s ∈ pre, s.goes = [.behind]) :
    Course n (pre ++ post) log ↔ ∃ before after, Course n pre before ∧
      Course (n + pre.length) post after ∧ log = before ++ after := by
  induction pre generalizing n log with
  | nil =>
    constructor
    · exact fun hc => ⟨[], log, .arrives n, hc, rfl⟩
    · rintro ⟨_, after, hnil, hc, rfl⟩
      cases hnil
      exact hc
  | cons s pre ih =>
    rw [forall_mem_cons] at h
    rw [cons_append, cons_iff h.1]
    have hlength : n + (s :: pre).length = n + 1 + pre.length := by
      rw [length_cons]
      omega
    rw [hlength]
    constructor
    · rintro ⟨cs, hcs, rest, hrest, rfl⟩
      obtain ⟨before, after, hbefore, hafter, rfl⟩ := (ih h.2).mp hrest
      exact ⟨cs.map .call ++ .done n :: before, after,
        (cons_iff h.1).mpr ⟨cs, hcs, before, hbefore, rfl⟩, hafter, by simp⟩
    · rintro ⟨_, after, hcons, hafter, rfl⟩
      obtain ⟨cs, hcs, before, hbefore, rfl⟩ := (cons_iff h.1).mp hcons
      exact ⟨cs, hcs, before ++ after, (ih h.2).mpr ⟨before, after, hbefore, hafter, rfl⟩, by simp⟩

theorem calls_mem (h : ∀ s ∈ ss, s.goes = [.behind]) (hc : Course n ss log) :
    calls log ∈ evaluationsAll (ss.flatMap Stmt.operands) := by
  induction ss generalizing n log with
  | nil =>
    cases hc
    exact mem_singleton_self _
  | cons s ss ih =>
    rw [forall_mem_cons] at h
    obtain ⟨cs, hcs, rest, hrest, rfl⟩ := (cons_iff h.1).mp hc
    rw [flatMap_cons, mem_evaluationsAll_append]
    exact ⟨cs, hcs, calls rest, ih h.2 hrest, by simp⟩

theorem exists_of_mem (h : ∀ s ∈ ss, s.goes = [.behind]) (n : Nat)
    (hcs : cs ∈ evaluationsAll (ss.flatMap Stmt.operands)) :
    ∃ log, Course n ss log ∧ calls log = cs := by
  induction ss generalizing n cs with
  | nil =>
    obtain rfl := mem_singleton.mp hcs
    exact ⟨[], .arrives n, rfl⟩
  | cons s ss ih =>
    rw [forall_mem_cons] at h
    rw [flatMap_cons, mem_evaluationsAll_append] at hcs
    obtain ⟨x, hx, y, hy, rfl⟩ := hcs
    obtain ⟨rest, hrest, rfl⟩ := ih h.2 (n + 1) hy
    exact ⟨_, (cons_iff h.1).mpr ⟨x, hx, rest, hrest, rfl⟩, by simp⟩

/-! ### All courses -/

theorem exists_course (ss : List Stmt) (n : Nat) : ∃ log, Course n ss log := by
  induction ss generalizing n with
  | nil => exact ⟨[], .arrives n⟩
  | cons s ss ih =>
    obtain ⟨rest, hrest⟩ := ih (n + 1)
    obtain ⟨g, hg⟩ := exists_mem_of_ne_nil _ s.goes_ne_nil
    have hround : ∃ es, es ∈ s.rounds := by
      unfold Stmt.rounds
      split <;> exact ⟨_, mem_cons_self⟩
    obtain ⟨es, hes⟩ := hround
    obtain ⟨cs, hcs⟩ := exists_mem_of_ne_nil _ (tells_evaluationsAll es).ne_nil
    by_cases h : g = .behind
    · exact ⟨_, .passes hes hcs (h ▸ hg) hrest⟩
    · exact ⟨_, .leaves hes hcs hg h⟩

theorem position_lt (h : Course n ss log) {k : Nat} (hk : .done k ∈ log) :
    n ≤ k ∧ k < n + ss.length := by
  have hcalls : ∀ cs : List Call, Event.done k ∉ cs.map .call := by simp
  induction h with
  | arrives | enters => cases hk
  | leaves => exact absurd hk (hcalls _)
  | passes _ _ _ _ ih =>
    grind

theorem ends (hpre : ∀ s ∈ pre, s.goes = [.behind]) (hs : s.goes = [.behind])
    (h : Course n (pre ++ [s]) log) :
    ∃ before, log = before ++ [.done (n + pre.length)] ∧ .done (n + pre.length) ∉ before := by
  obtain ⟨before, _, hbefore, hlast, rfl⟩ := (append_iff hpre).mp h
  obtain ⟨cs, -, _, hnil, rfl⟩ := (cons_iff hs).mp hlast
  cases hnil
  refine ⟨before ++ cs.map .call, by simp, fun hk => ?_⟩
  rcases mem_append.mp hk with hk | hk
  · exact Nat.lt_irrefl _ (hbefore.position_lt hk).2
  · simp at hk

theorem holds_of_mem (h : Course n ss log) {c : Call} (hc : c ∈ calls log) (hp : p c = true) :
    (ss.flatMap Stmt.operands).any (holds p) = true := by
  have hround : ∀ {s : Stmt} {ss : List Stmt} {es : List Expr} {cs : List Call}, es ∈ s.rounds →
      cs ∈ evaluationsAll es → c ∈ cs → ((s :: ss).flatMap Stmt.operands).any (holds p) = true := by
    intro s ss es cs hes hcs hc
    obtain ⟨e, he, hholds⟩ :=
      any_eq_true.mp (((tells_evaluationsAll es).makes_iff _).mp ⟨cs, hcs, c, hc, hp⟩)
    grind [Stmt.mem_operands_of_rounds]
  induction h with
  | arrives | enters => cases hc
  | leaves hes hcs =>
    rw [calls_map] at hc
    exact hround hes hcs hc
  | passes hes hcs _ _ ih =>
    grind [calls_append, calls_map, calls_done]

theorem exists_makes (h : ∀ s ∈ pre, s.goes = [.behind])
    (hp : (pre.flatMap Stmt.operands).any (holds p) = true) (n : Nat) (post : List Stmt) :
    ∃ log, Course n (pre ++ post) log ∧ ∃ c ∈ calls log, p c = true := by
  obtain ⟨cs, hcs, c, hc, hpc⟩ := ((tells_evaluationsAll _).makes_iff _).mpr hp
  obtain ⟨before, hbefore, rfl⟩ := exists_of_mem h n hcs
  obtain ⟨after, hafter⟩ := exists_course post (n + pre.length)
  grind [append_iff, calls_append]

theorem exists_leaves (h : ∀ s ∈ pre, s.goes = [.behind]) (hs : s.operands ∈ s.rounds) {g : Goes}
    (hg : g ∈ s.goes) (hne : g ≠ .behind)
    (hp : ((pre ++ [s]).flatMap Stmt.operands).any (holds p) = true) (n : Nat) (post : List Stmt) :
    ∃ log, Course n (pre ++ s :: post) log ∧ (∃ c ∈ calls log, p c = true) ∧
      ∀ k, .done k ∈ log → k < n + pre.length := by
  rw [flatMap_append, flatMap_cons, flatMap_nil, append_nil] at hp
  obtain ⟨_, hcs, c, hc, hpc⟩ := ((tells_evaluationsAll _).makes_iff _).mpr hp
  obtain ⟨x, hx, y, hy, rfl⟩ := mem_evaluationsAll_append.mp hcs
  obtain ⟨before, hbefore, rfl⟩ := exists_of_mem h n hx
  refine ⟨before ++ y.map .call,
    (append_iff h).mpr ⟨before, _, hbefore, .leaves hs hy hg hne, rfl⟩, ⟨c, ?_, hpc⟩, fun k hk => ?_⟩
  · rwa [calls_append, calls_map]
  · rcases mem_append.mp hk with hk | hk
    · exact (hbefore.position_lt hk).2
    · simp at hk

end Course

/-! ## Statements that settle a call -/

/-- Every call with the first property is followed by the end of the statement at the position, and
between the two no call with the second property is made. -/
def SettledBy (k : Nat) (p q : Call → Bool) (log : List Event) : Prop :=
  ∀ before c after, log = before ++ .call c :: after → p c = true →
    ∃ between rest, after = between ++ .done k :: rest ∧ ∀ d, .call d ∈ between → q d = false

section Settled

open ShaderEffect.Expr Event

variable {k n : Nat} {p q : Call → Bool} {log rest : List Event} {s : Stmt}
  {pre post tail : List Stmt}

theorem settledBy_cons_done {j : Nat} :
    SettledBy k p q (.done j :: log) ↔ SettledBy k p q log := by
  constructor
  · rintro h before c after rfl
    exact h (.done j :: before) c after rfl
  · intro h before c after heq
    cases before with
    | nil => cases heq
    | cons e before => exact h before c after (cons.inj heq).2

theorem settledBy_cons_call {c : Call} :
    SettledBy k p q (.call c :: log) ↔
      (p c = true → ∃ between rest, log = between ++ .done k :: rest ∧
        ∀ d, .call d ∈ between → q d = false) ∧ SettledBy k p q log := by
  constructor
  · intro h
    refine ⟨h [] c log rfl, ?_⟩
    rintro before d after rfl
    exact h (.call c :: before) d after rfl
  · rintro ⟨hc, hlog⟩ before d after heq
    cases before with
    | nil =>
      cases heq
      exact hc
    | cons e before => exact hlog before d after (cons.inj heq).2

theorem subset_between {between rest' : List Event} (hk : .done k ∉ log)
    (h : log ++ .done k :: rest = between ++ .done k :: rest') : log ⊆ between := by
  rcases append_eq_append_iff.mp h with ⟨more, rfl, -⟩ | ⟨more, rfl, hmore⟩
  · exact subset_append_left _ _
  · cases more with
    | nil => rw [append_nil]; exact List.Subset.refl _
    | cons e more =>
      grind

theorem settledBy_append_done (hk : .done k ∉ log) :
    SettledBy k p q (log ++ .done k :: rest) ↔
      ((calls log).Pairwise fun c d => p c = true → q d = false) ∧ SettledBy k p q rest := by
  induction log with
  | nil =>
    rw [nil_append, settledBy_cons_done]
    exact (and_iff_right List.Pairwise.nil).symm
  | cons e log ih =>
    rw [mem_cons, not_or] at hk
    have ih := ih hk.2
    cases e with
    | done j =>
      rw [cons_append, settledBy_cons_done, ih]
      rfl
    | call c =>
      rw [cons_append, settledBy_cons_call, ih]
      show _ ↔ (c :: calls log).Pairwise _ ∧ _
      rw [pairwise_cons, and_assoc]
      refine and_congr_left fun _ => ⟨fun h d hd hp => ?_, fun h hp => ?_⟩
      · obtain ⟨between, rest', heq, hbetween⟩ := h hp
        refine hbetween d (subset_between hk.2 heq (mem_calls.mp hd))
      · exact ⟨log, rest, rfl, fun d hd => h d (mem_calls.mpr hd) hp⟩

/-- **A statement that control always comes to settles calls exactly if no forbidden call follows one
of them up to its end, and none of them is made behind it.** -/
theorem settledBy_iff (hpre : ∀ s ∈ pre, s.goes = [.behind]) (hs : s.goes = [.behind])
    (hpost : ∀ s ∈ post, s.goes = [.behind])
    (htail : (tail.flatMap Stmt.operands).any (holds p) = false) :
    (∀ log, Course n (pre ++ s :: (post ++ tail)) log → SettledBy (n + pre.length) p q log) ↔
      calmAll p q ((pre ++ [s]).flatMap Stmt.operands) = true ∧
        ((post ++ tail).flatMap Stmt.operands).any (holds p) = false := by
  have hfirst : ∀ s' ∈ pre ++ [s], s'.goes = [.behind] :=
    forall_mem_append.mpr ⟨hpre, forall_mem_singleton.mpr hs⟩
  have hsplit : pre ++ s :: (post ++ tail) = (pre ++ [s]) ++ (post ++ tail) := by simp
  have hlength : n + (pre ++ [s]).length = n + pre.length + 1 := by simp; omega
  rw [hsplit, ← (tells_evaluationsAll _).calm_iff]
  constructor
  · intro h
    have hsettled : ∀ {before after}, Course n (pre ++ [s]) before →
        Course (n + pre.length + 1) (post ++ tail) after →
        SettledBy (n + pre.length) p q (before ++ after) := fun hb ha =>
      h _ ((Course.append_iff hfirst).mpr ⟨_, _, hb, hlength ▸ ha, rfl⟩)
    refine ⟨fun cs hcs => ?_, Bool.eq_false_iff.mpr fun hholds => ?_⟩
    · obtain ⟨after, hafter⟩ := Course.exists_course (post ++ tail) (n + pre.length + 1)
      obtain ⟨_, hbefore, rfl⟩ := Course.exists_of_mem hfirst n hcs
      have hlog := hsettled hbefore hafter
      obtain ⟨before, rfl, hk⟩ := Course.ends hpre hs hbefore
      rw [append_assoc, singleton_append, settledBy_append_done hk] at hlog
      simpa using hlog.1
    · -- a call behind the statement is not followed by its end any more
      rw [flatMap_append, any_append, htail, Bool.or_false] at hholds
      obtain ⟨after, hafter, c, hc, hp⟩ :=
        Course.exists_makes hpost hholds (n + pre.length + 1) tail
      obtain ⟨before, hbefore⟩ := Course.exists_course (pre ++ [s]) n
      obtain ⟨x, y, hsplit⟩ := append_of_mem (mem_calls.mp hc)
      obtain ⟨between, rest, hrest, -⟩ := hsettled hbefore hafter (before ++ x) c y
        (by rw [hsplit, append_assoc]) hp
      have hdone : .done (n + pre.length) ∈ after := by
        rw [hsplit, hrest]
        simp
      have := (hafter.position_lt hdone).1
      omega
  · rintro ⟨hcalm, hnone⟩ log hlog
    obtain ⟨_, after, hbefore, hafter, rfl⟩ := (Course.append_iff hfirst).mp hlog
    have hcalls := hcalm _ (Course.calls_mem hfirst hbefore)
    obtain ⟨before, rfl, hk⟩ := Course.ends hpre hs hbefore
    rw [append_assoc, singleton_append, settledBy_append_done hk]
    refine ⟨by simpa using hcalls, ?_⟩
    rintro x c y rfl hp
    have hholds := hafter.holds_of_mem (c := c) (p := p) (by simp) hp
    rw [hnone] at hholds
    cases hholds

end Settled

end ShaderEffect
