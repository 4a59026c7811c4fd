import Mathlib
import ShaderEffect.Proofs.Alike
import ShaderEffect.Proofs.Lowering.Nested
import ShaderEffect.Proofs.Lowering.Stable.Lane

/-!
# Lanes of lanes

What an assignment to several lanes of a vector becomes assigns to the vector itself, and is not looked
at again. If that vector is written as several lanes of another one, as in `v.xyz.xy = e`, then what it
becomes, `v.xyz = …`, is an assignment to several lanes once more.

**Where nothing is reported, an assignment to several lanes is left exactly if the lowering meets an
assignment to lanes of lanes** (`assignsLanes_lowerLaneAssignments_iff`); bases of all other shapes,
members and elements among them, leave none.
-/

namespace ShaderEffect

open List Stmt

/-- The expression that a statement evaluates, if it does nothing else. -/
def Stmt.effect? : Stmt → Option Expr
  | .expr e => some e
  | _ => none

namespace Lowering

open Walker Env

variable {s : Stmt} {env : Env}

/-! ## Assignments to lanes -/

/-- The statement at the place assigns to several lanes of a vector. -/
def assignsLanes (q : Env × Stmt) : Bool :=
  match q.2 with
  | .expr (.assign _ target _) => isLanes q.1 target
  | _ => false

/-- The statement that is looked at assigns to several lanes of a vector, and the vector is written as
several lanes too, where the assignment stands that it becomes. -/
def chainsLanes (v : Look State) : Bool :=
  match v.stmt with
  | .expr (.assign _ (.field base name) _) =>
    isLanes v.env (.field base name) &&
      isLanes (v.env.declareStmts (lowerLaneStmt v.env v.stmt v.state).1) base
  | _ => false

theorem isLanes_congr {x y : Env} (h : Regrouped x y) (e : Expr) : isLanes x e = isLanes y e := by
  cases e with
  | field base name => rw [isLanes, h.sameTypes.typeOf, isLanes]
  | _ => rfl

theorem assignsLanes_congr {q r : Env × Stmt} (h : SamePlace Regrouped q r) :
    assignsLanes q = assignsLanes r := by
  obtain ⟨hscopes, hstmt⟩ := h
  unfold assignsLanes
  rw [hstmt]
  split
  · exact isLanes_congr hscopes _
  · rfl

theorem any_assignsLanes_congr {qs rs : List (Env × Stmt)}
    (h : List.Forall₂ (SamePlace Regrouped) qs rs) : qs.any assignsLanes = rs.any assignsLanes := by
  induction h with
  | nil => rfl
  | cons hq _ ih => rw [any_cons, any_cons, assignsLanes_congr hq, ih]

theorem assignsLanes_of_effect? (h : s.effect? = none) : assignsLanes (env, s) = false := by
  cases s with
  | expr => cases h
  | _ => rfl

theorem chainsLanes_of_effect? {a : State} (h : s.effect? = none) :
    chainsLanes ⟨env, s, a⟩ = false := by
  cases s with
  | expr => cases h
  | _ => rfl

/-! ## One statement -/

theorem lowerLaneStmt_of_effect? (h : s.effect? = none) (a : State) :
    lowerLaneStmt env s a = ([s], a) := by
  cases s with
  | expr => cases h
  | _ => rfl

theorem AssignsTo.eq_append {base value : Expr} {out : List Stmt} {a b : State}
    (h : AssignsTo base value a out b) :
    ∃ held whole, out = held ++ [.expr (.assign none base whole)] ∧ (∀ t ∈ held, ∃ ds, t = .decl ds) ∧
      b.notices = a.notices := by
  cases h with
  | whole => exact ⟨[], _, rfl, forall_mem_nil _, rfl⟩
  | held _ _ _ hnotices => exact ⟨[_], _, rfl, forall_mem_singleton.mpr ⟨_, rfl⟩, hnotices⟩

theorem any_assignsLanes_decls {ss : List Stmt} (h : ∀ t ∈ ss, ∃ ds, t = .decl ds) :
    ∀ env : Env, (Stmt.placesAll env ss).any assignsLanes = false := by
  induction ss with
  | nil => exact fun _ => rfl
  | cons s ss ih =>
    intro env
    obtain ⟨⟨ds, rfl⟩, hss⟩ := forall_mem_cons.mp h
    rw [placesAll, any_append, ih hss]
    rfl

theorem any_assignsLanes_expr (env : Env) (e : Expr) :
    (Stmt.placesAll env [.expr e]).any assignsLanes = assignsLanes (env, .expr e) :=
  Bool.or_false _

theorem any_assignsLanes_whole {held : List Stmt} (hheld : ∀ t ∈ held, ∃ ds, t = .decl ds)
    (env : Env) (base whole : Expr) :
    (Stmt.placesAll env (held ++ [.expr (.assign none base whole)])).any assignsLanes =
      isLanes (env.declareStmts (held ++ [.expr (.assign none base whole)])) base := by
  rw [placesAll_append, any_append, any_assignsLanes_decls hheld, any_assignsLanes_expr,
    declareStmts_append, Bool.false_or]
  rfl

/-- If nothing is reported, an expression that stands as a statement leaves an assignment to lanes
exactly if it is an assignment to lanes of lanes. -/
theorem unreported_lowerLaneStmt (env : Env) (e : Expr) (a : State) :
    Unreported ((Stmt.placesAll env (lowerLaneStmt env (.expr e) a).1).any assignsLanes =
      chainsLanes ⟨env, .expr e, a⟩) a (lowerLaneStmt env (.expr e) a).2 := by
  have hto := lowerLaneStmt_to env (.expr e) a
  have hchains : ∀ op base name rhs, e = .assign op (.field base name) rhs →
      chainsLanes ⟨env, .expr e, a⟩ = (isLanes env (.field base name) &&
        isLanes (env.declareStmts (lowerLaneStmt env (.expr e) a).1) base) := by
    rintro op base name rhs rfl
    rfl
  generalize lowerLaneStmt env (.expr e) a = out at hto hchains
  obtain ⟨out, b⟩ := out
  cases hto with
  | kept hother =>
    refine .of_eq rfl ((any_assignsLanes_expr env _).trans ?_)
    cases e with
    | assign op target rhs =>
      cases target with
      | field base name =>
        have hlanes := hother op base name rhs rfl
        rw [hchains op base name rhs rfl, hlanes, Bool.false_and]
        exact hlanes
      | _ => rfl
    | _ => rfl
  | noted n => exact .noted n rfl
  | @lanes op base rhs _ name _ _ hlanes _ hassign =>
    obtain ⟨held, whole, rfl, hheld, hnotices⟩ := hassign.eq_append
    rw [hchains op base name rhs rfl, hlanes.isLanes, Bool.true_and]
    exact .of_eq hnotices (any_assignsLanes_whole hheld env base whole)

/-! ## Along the walk -/

/-- The statements `ss` have been walked, and what they have become stands at the places `out`. All
expressions that stand as statements are looked at, and if nothing is reported meanwhile, lanes are
assigned to exactly if a look meets an assignment to lanes of lanes. -/
def LanesLeft (ss : List Stmt) (out : List (Env × Stmt)) (a b : State × List (Look State)) : Prop :=
  ∃ new, b.2 = a.2 ++ new ∧ new.filterMap (·.stmt.effect?) = ss.filterMap Stmt.effect? ∧
    Unreported (out.any assignsLanes = new.any chainsLanes) a.1 b.1

namespace LanesLeft

variable {ss ss' : List Stmt} {out out' : List (Env × Stmt)} {a b c : State × List (Look State)}

theorem nil (a : State × List (Look State)) : LanesLeft [] [] a a :=
  ⟨[], (append_nil _).symm, rfl, .of_eq rfl rfl⟩

theorem append (h : LanesLeft ss out a b) (h' : LanesLeft ss' out' b c) :
    LanesLeft (ss ++ ss') (out ++ out') a c := by
  obtain ⟨new, hnew, hseen, hleft⟩ := h
  obtain ⟨new', hnew', hseen', hleft'⟩ := h'
  refine ⟨new ++ new', by rw [hnew', hnew, append_assoc], ?_, (hleft.trans hleft').imp ?_⟩
  · rw [filterMap_append, filterMap_append, hseen, hseen']
  · rintro ⟨hout, hout'⟩
    rw [any_append, any_append, hout, hout']

theorem kept {s' : Stmt} {before : List Stmt} (h : LanesLeft ss out a b) (hs : s.effect? = none)
    (hs' : s'.effect? = none)
    (hout : (Stmt.placesAll env (finish before [s'])).any assignsLanes = out.any assignsLanes) :
    LanesLeft (s :: ss) (Stmt.placesAll env (finish before (lowerLaneStmt env s' b.1).1)) a
      ((lowerLaneStmt env s' b.1).2, b.2 ++ [⟨env, s', b.1⟩]) := by
  obtain ⟨new, hnew, hseen, hleft⟩ := h
  rw [lowerLaneStmt_of_effect? hs']
  refine ⟨new ++ [⟨env, s', b.1⟩], by rw [hnew, append_assoc], ?_, hleft.imp fun h => ?_⟩
  · rw [filterMap_append, hseen, filterMap_cons_none hs]
    simp [hs']
  · rw [hout, h, any_append, any_cons, chainsLanes_of_effect? hs']
    simp

end LanesLeft

def LanesLeftStmt (env : Env) (s : Stmt) (a : State × List (Look State)) (out : List Stmt)
    (b : State × List (Look State)) : Prop :=
  Regrouped env env → LanesLeft s.substmts (Stmt.placesAll env out) a b

section Walked

variable {env : Env} {a b : State × List (Look State)}

theorem lanesLeft_stmts {ss out : List Stmt} (h : StmtsTo LanesLeftStmt env ss a out b)
    (henv : Regrouped env env) :
    LanesLeft (Stmt.substmtsAll ss) (Stmt.placesAll env out) a b := by
  induction h with
  | nil _ a => exact .nil a
  | cons hs _ ih =>
    rw [placesAll_append]
    exact (hs henv).append (ih (henv.declareStmts _))

theorem lanesLeft_opt {o : Option Stmt} {out : Option (List Stmt)}
    (h : OptTo LanesLeftStmt env o a out b) (henv : Regrouped env env) :
    LanesLeft (Stmt.substmtsOpt o) (Stmt.placesAll env (out.getD [])) a b := by
  cases h with
  | none => exact .nil a
  | some hs => exact hs henv

theorem lanesLeft_cases {cs cs' : List Case} (h : CasesTo LanesLeftStmt env cs a cs' b)
    (henv : Regrouped env env) :
    LanesLeft (Stmt.substmtsCases cs) (Stmt.placesCases env cs') a b := by
  induction h with
  | nil a => exact .nil a
  | cons hbody _ ih => exact (lanesLeft_stmts hbody henv.push).append ih

theorem any_assignsLanes_ofList (henv : Regrouped env env) (out : List Stmt) :
    ((Stmt.ofList out).places env).any assignsLanes =
      (Stmt.placesAll env out).any assignsLanes := by
  unfold ofList
  split
  · rw [placesAll, placesAll, append_nil]
  · exact (any_assignsLanes_congr (Regrouped.persists.placesAll out henv.pushRight)).symm

theorem any_assignsLanes_single {inside : List (Env × Stmt)} (hs : s.effect? = none)
    (hplaces : s.places env = (env, s) :: inside) :
    (Stmt.placesAll env [s]).any assignsLanes = inside.any assignsLanes := by
  grind [placesAll, assignsLanes_of_effect?]

theorem any_assignsLanes_header (henv : Regrouped env env) (last : Stmt) (cond step : Option Expr)
    (body : Stmt) :
    (Stmt.placesAll env [.forLoop (some last) cond step body]).any assignsLanes =
      (last.places env ++ body.places (env.declareStmt last)).any assignsLanes := by
  refine (any_assignsLanes_single rfl rfl).trans (any_assignsLanes_congr ?_)
  exact rel_append (Regrouped.persists.places last henv.pushLeft)
    (Regrouped.persists.places body (henv.pushLeft.declareStmts [last]))

/-- What stands in the header of a `for` loop and in its body, wherever all but the last of the
statements of the header have gone. -/
theorem any_assignsLanes_forLoop (henv : Regrouped env env) (first : List Stmt)
    (cond step : Option Expr) (body : Stmt) :
    (Stmt.placesAll env
        (finish first.dropLast [.forLoop first.getLast? cond step body])).any assignsLanes =
      (Stmt.placesAll env.push first ++
        body.places (env.push.declareStmts first)).any assignsLanes := by
  rcases eq_nil_or_concat first with rfl | ⟨before, last, rfl⟩
  · exact any_assignsLanes_single rfl rfl
  · rw [concat_eq_append, dropLast_concat, getLast?_concat]
    unfold finish
    split
    · rename_i hbefore
      obtain rfl := isEmpty_iff.mp hbefore
      refine (any_assignsLanes_single rfl rfl).trans ?_
      rw [nil_append, placesAll, placesAll, append_nil]
      rfl
    · refine (any_assignsLanes_single rfl rfl).trans ?_
      have hinner := henv.push.declareStmts before
      rw [placesAll_append, any_append, any_assignsLanes_header hinner,
        placesAll_append, declareStmts_append, placesAll, placesAll, append_nil,
        append_assoc, any_append, any_append, any_append]
      rfl

theorem lanesLeft_node {s' : Stmt} {before : List Stmt}
    (h : NodeTo Unchanged LanesLeftStmt env s a s' before b) (henv : Regrouped env env) :
    LanesLeft s.substmts (Stmt.placesAll env (finish before (lowerLaneStmt env s' b.1).1)) a
      ((lowerLaneStmt env s' b.1).2, b.2 ++ [⟨env, s', b.1⟩]) := by
  cases h with
  | block hss =>
    exact (lanesLeft_stmts hss henv.push).kept rfl rfl (any_assignsLanes_single rfl rfl)
  | @ifElse _ _ _ _ t' f' _ _ _ _ ht hf hc =>
    obtain ⟨-, rfl⟩ := hc
    refine ((ht henv).append (lanesLeft_opt hf henv)).kept rfl rfl
      ((any_assignsLanes_single rfl rfl).trans ?_)
    rw [any_append, any_assignsLanes_ofList henv, any_append]
    cases f' with
    | none => rfl
    | some f' => exact congrArg (_ || ·) (any_assignsLanes_ofList henv f')
  | forLoop hst hb hc hstep =>
    obtain ⟨-, rfl⟩ := unchanged_option hc
    obtain ⟨-, rfl⟩ := unchanged_option hstep
    refine ((lanesLeft_opt hst henv.push).append (hb (henv.push.declareStmts _))).kept rfl rfl
      ((any_assignsLanes_forLoop henv _ _ _ _).trans ?_)
    rw [any_append, any_append, any_assignsLanes_ofList (henv.push.declareStmts _)]
  | whileLoop hb hc | doWhile hb hc =>
    obtain ⟨-, rfl⟩ := hc
    exact (hb henv).kept rfl rfl
      ((any_assignsLanes_single rfl rfl).trans (any_assignsLanes_ofList henv _))
  | loop hss hcont hbreak =>
    obtain ⟨-, rfl⟩ := unchanged_option hbreak
    exact ((lanesLeft_stmts hss henv.push).append
      (lanesLeft_stmts hcont (henv.push.declareStmts _))).kept rfl rfl
      (any_assignsLanes_single rfl rfl)
  | switch hcs hsel =>
    obtain ⟨-, rfl⟩ := hsel
    exact (lanesLeft_cases hcs henv).kept rfl rfl (any_assignsLanes_single rfl rfl)
  | decl hds =>
    obtain ⟨-, rfl⟩ := unchanged_steps hds.exprsTo.steps
    exact (LanesLeft.nil _).kept rfl rfl rfl
  | expr he =>
    obtain ⟨rfl, rfl⟩ := he
    exact ⟨[_], rfl, rfl, (unreported_lowerLaneStmt env _ _).imp fun h => h.trans (Bool.or_false _).symm⟩
  | ret hvalue =>
    obtain ⟨-, rfl⟩ := unchanged_option hvalue
    exact (LanesLeft.nil _).kept rfl rfl rfl
  | breakOut | continueOn | discard | empty => exact (LanesLeft.nil _).kept rfl rfl rfl

end Walked

/-! ## Programs -/

/-- The walker of the pass on lane assignments. -/
def laneWalker : Walker State :=
  { stmt := lowerLaneStmt }

/-- The pass on lane assignments with its looks. -/
def laneRun (st : Setting) (p : Program) (a : State) : Program × State × List (Look State) :=
  laneWalker.surveyed.walk (st.envFor p) p (a, [])

theorem lowerLaneAssignments_eq (st : Setting) (p : Program) (a : State) :
    lowerLaneAssignments st p a = ((laneRun st p a).1, (laneRun st p a).2.1) :=
  laneWalker.walk_surveyed (st.envFor p) p (a, [])

theorem establishes_lanesLeft : laneWalker.surveyed.Establishes Unchanged LanesLeftStmt where
  expr := unchanged_expr fun _ _ _ => rfl
  stmt := fun _ _ _ _ _ _ hs henv => lanesLeft_node hs henv

theorem lanesLeft_items {is js : List Item} {a b : State × List (Look State)}
    (h : ItemsTo laneWalker.surveyed Unchanged LanesLeftStmt env is a js b) :
    (∀ other : Env, js.foldl declareItem other = is.foldl declareItem other) ∧
      LanesLeft (is.flatMap Item.substmts)
        ((js.filterMap Item.function?).flatMap (Function.places env)) a b := by
  induction h with
  | nil a => exact ⟨fun _ => rfl, .nil a⟩
  | cons hi _ ih =>
    obtain ⟨hdeclared, hleft⟩ := ih
    cases hi with
    | struct => exact ⟨fun _ => hdeclared _, hleft⟩
    | globals hds =>
      obtain ⟨rfl, rfl⟩ := unchanged_globals (fun _ _ _ => rfl) hds
      exact ⟨fun _ => hdeclared _, hleft⟩
    | function hinner henter hbody =>
      subst hinner
      obtain ⟨rfl, rfl⟩ := Prod.mk.inj henter
      have hscope : ∀ x : Env, Regrouped x.push x.push := fun _ => .refl (cons_ne_nil _ _)
      exact ⟨fun _ => hdeclared _, (lanesLeft_stmts hbody (hscope _)).append hleft⟩

/-- **Which assignments to lanes are left.** All expressions of a program that stand as statements are
looked at, in order. If the lowering reports nothing, then a statement that it leaves assigns to
several lanes of a vector exactly if one of those that it has looked at assigns to several lanes of
what is written as several lanes itself. -/
theorem assignsLanes_lowerLaneAssignments_iff (st : Setting) (p : Program) (a : State)
    (h : (lowerLaneAssignments st p a).2.notices = a.notices) :
    let out := (lowerLaneAssignments st p a).1
    let looks := (laneRun st p a).2.2
    looks.filterMap (·.stmt.effect?) = (p.items.flatMap Item.substmts).filterMap effect? ∧
    ((∃ q ∈ out.places (st.envFor out), assignsLanes q = true) ↔
      ∃ v ∈ looks, chainsLanes v = true) := by
  intro out looks
  obtain ⟨hdeclared, new, hnew, hseen, hleft⟩ :=
    lanesLeft_items (establishes_lanesLeft.onItems (st.envFor p) p.items (a, []))
  rw [lowerLaneAssignments_eq] at h
  have hout : out = (laneRun st p a).1 := congrArg Prod.fst (lowerLaneAssignments_eq st p a)
  have hlooks : looks = new := hnew
  have henv : st.envFor out = st.envFor p := by
    rw [hout]
    exact congrArg (declareStruct · _ _) (hdeclared _)
  rw [hlooks, henv, ← any_eq_true, ← any_eq_true, hout]
  exact ⟨hseen, Bool.eq_iff_iff.mp (hleft.holds h)⟩

/-- `struct S { vec3 c; }; void main() { vec4 v; S s; vec3 a[2]; v.wx = vec2(1.0); if (v.x < 1.0)
s.c.zx = v.xy * 2.0; a[1].yz += v.xy; target = v.zw; }`: lanes of a variable, of a member and of an
element. -/
def laneTargets (target : Expr) : Program :=
  let v : Expr := .ident "v"
  { items := [
      .struct { name := "S", members := [{ name := "c", type := .vector .float 3 }] },
      .function {
        name := "main"
        returns := .void
        params := []
        body := [
          .decl [.var "v" (.vector .float 4) none],
          .decl [.var "s" (.struct "S") none],
          .decl [.var "a" (.array (.vector .float 3) (.fixed 2)) none],
          .expr (.assign none (.field v "wx") (.construct (.vector .float 2) [.float "1.0"])),
          .ifElse (.binary .lt (.field v "x") (.float "1.0"))
            (.expr (.assign none (.field (.field (.ident "s") "c") "zx")
              (.binary .mul (.field v "xy") (.float "2.0")))) none,
          .expr (.assign (some .add) (.field (.index (.ident "a") (.int "1")) "yz")
            (.field v "xy")),
          .expr (.assign none target (.field v "zw"))]
        isEntry := true }] }

theorem not_assignsLanes_members :
    let p := laneTargets (.field (.field (.ident "s") "c") "xy")
    let out := (lowerLaneAssignments emptySetting p {}).1
    (lowerLaneAssignments emptySetting p {}).2.notices = [] ∧
      ¬ ∃ q ∈ out.places (emptySetting.envFor out), assignsLanes q = true := by
  intro p out
  have hnotices : (lowerLaneAssignments emptySetting p {}).2.notices = [] :=
    isEmpty_iff.mp (by decide_cbv)
  have hchains : (laneRun emptySetting p {}).2.2.any chainsLanes = false := by decide_cbv
  refine ⟨hnotices, fun h => ?_⟩
  have hchain := (assignsLanes_lowerLaneAssignments_iff emptySetting p {} hnotices).2.mp h
  rw [← any_eq_true, hchains] at hchain
  exact Bool.false_ne_true hchain

/-- Of lanes of lanes the outer lanes stay, and nothing is reported. -/
theorem assignsLanes_of_chain :
    let p := laneTargets (.field (.field (.ident "v") "xyz") "xy")
    let out := (lowerLaneAssignments emptySetting p {}).1
    (lowerLaneAssignments emptySetting p {}).2.notices = [] ∧
      ∃ q ∈ out.places (emptySetting.envFor out), assignsLanes q = true :=
  ⟨isEmpty_iff.mp (by decide_cbv), any_eq_true.mp (by decide_cbv)⟩

end Lowering

end ShaderEffect
