import ShaderEffect.Proofs.Lowering.Capture
import ShaderEffect.Proofs.Lowering.Usage

/-!
# Where parameters are used

A parameter that is written back becomes a pointer, so its name may stand only where it is read through
the pointer or passed on to a call that writes it back, and one that is passed by value may not be
written to. **The pass leaves only such uses of the parameters of a program that has been read, apart
from two cases** (`paramsUsed_lowerParameters`). An argument in the header of a `for` loop that is put
into a temporary leaves the scope of the variables that the loop declares, and its names may stand for
parameters where it ends up. And what the initial value of a global variable puts aside ends up in the
function that follows.
-/

namespace ShaderEffect.Lowering

open Walker Env List Stmt

namespace Usage

variable {k : Usage} {env x y z : Env} {a b c : ParamState} {s s' : Stmt} {ss out before : List Stmt}
  {e e' : Expr}

/-! ## Places -/

theorem persists_inside : Persists fun x _ => k.Inside x where
  push := fun h => ⟨Nat.lt_succ_of_lt h.deep, h.known⟩
  declare := fun m type h => ⟨deep_declare h.deep m type, fun n hn =>
    (isLocal_declare (Nat.lt_of_succ_lt h.deep) m type n).mpr (.inl (h.known n hn))⟩

theorem Inside.push (h : k.Inside env) : k.Inside env.push :=
  persists_inside.push (y := env) h

theorem Inside.declareStmts (h : k.Inside env) (ss : List Stmt) : k.Inside (env.declareStmts ss) :=
  persists_inside.declareStmts ss (y := env) h

theorem usesFit_one (hown : k.SitesFit (env, s))
    (hinside : ∀ q ∈ (s.places env).tail, k.SitesFit q) : k.UsesFit env [s] := by
  grind [UsesFit, placesAll, places_eq_cons]

theorem places_of_usesFit (h : k.UsesFit env [s]) : ∀ q ∈ s.places env, k.SitesFit q := by
  rwa [UsesFit, placesAll, placesAll, append_nil] at h

theorem usesFit_ofList (h : k.UsesFit x out) (hxy : Covers x y) :
    ∀ q ∈ (Stmt.ofList out).places y, k.SitesFit q := by
  unfold ofList
  split
  · exact places_of_usesFit (h.mono hxy)
  · rw [places]
    refine forall_mem_cons.mpr ⟨fun _ _ h => absurd h not_mem_nil, ?_⟩
    exact h.mono hxy.pushRight

theorem usesFit_opt {o : Option (List Stmt)} (h : k.UsesFit x (o.getD [])) (hxy : Covers x y) :
    ∀ q ∈ Stmt.placesOpt y (o.map .ofList), k.SitesFit q := by
  cases o with
  | none => exact forall_mem_nil _
  | some out => exact usesFit_ofList h hxy

theorem usesFit_exprs (h : ∀ t ∈ ss, ∃ e, t = .expr e ∧ k.FitsIn env e) : k.UsesFit env ss := by
  induction ss with
  | nil => exact usesFit_nil
  | cons t ss ih =>
    obtain ⟨⟨e, rfl, he⟩, hrest⟩ := forall_mem_cons.mp h
    refine forall_mem_append.mpr ⟨forall_mem_singleton.mpr ?_, ih hrest⟩
    rintro result u hu -
    obtain rfl := mem_singleton.mp hu
    exact he

/-! ## Statements -/

/-- Nothing waits around the current statement of the function. -/
structure Idle (k : Usage) (a : ParamState) : Prop where
  pointers : a.pointers = k.pointers
  before : a.before = []
  after : a.after = []

theorem Idle.waits (h : k.Idle a) (z : Env) : k.Waits z a :=
  ⟨h.pointers, h.before ▸ usesFit_nil, h.after ▸ forall_mem_nil _⟩

/-- A statement of the source that makes the argument fail: a loop of the target language, or one that
may move a name out of its header. -/
def loses (k : Usage) (s : Stmt) : Bool :=
  s.isImproper || k.names.any (captures k.table · s)

/-- What the walk makes of a statement. A copy of a parameter stays as it is. -/
def Lays (table : RefTable) (env : Env) (s : Stmt) (a : ParamState) (out : List Stmt)
    (b : ParamState) : Prop :=
  ∀ k : Usage, k.table = table → k.Idle a → s.Avoids k.strays k.loses → k.Inside env →
    k.Idle b ∧ k.UsesFit env out ∧ (∀ n ∈ declared out.getLast?.toList, n ∈ declNames s) ∧
      ∀ m type j, s = .decl [.var m type (some (.ident j))] → j ∉ k.pointers → out = [s]

theorem lays_stmts (h : StmtsTo (Lays k.table) env ss a out b) (ha : k.Idle a)
    (hss : ∀ s ∈ ss, s.Avoids k.strays k.loses) (henv : k.Inside env) :
    k.Idle b ∧ k.UsesFit env out := by
  induction h with
  | nil => exact ⟨ha, usesFit_nil⟩
  | cons hs _ ih =>
    rw [forall_mem_cons] at hss
    obtain ⟨hb, hout, -⟩ := hs k rfl ha hss.1 henv
    obtain ⟨hc, hrest⟩ := ih hb hss.2 (henv.declareStmts _)
    exact ⟨hc, usesFit_append.mpr ⟨hout, hrest⟩⟩

theorem lays_opt {o : Option Stmt} {o' : Option (List Stmt)}
    (h : OptTo (Lays k.table) env o a o' b) (ha : k.Idle a)
    (ho : ∀ s ∈ o.toList, s.Avoids k.strays k.loses) (henv : k.Inside env) :
    k.Idle b ∧ k.UsesFit env (o'.getD []) ∧
      ∀ n ∈ declared (o'.getD []).getLast?.toList, n ∈ declared o.toList := by
  cases h with
  | none => exact ⟨ha, usesFit_nil, forall_mem_nil _⟩
  | some hs =>
    obtain ⟨hb, hout, hlast, -⟩ := hs k rfl ha (ho _ (mem_singleton_self _)) henv
    grind [declared]

theorem lays_cases {cs cs' : List Case} (h : CasesTo (Lays k.table) env cs a cs' b) (ha : k.Idle a)
    (hcs : ∀ c ∈ cs, ∀ s ∈ c.body, s.Avoids k.strays k.loses) (henv : k.Inside env) :
    k.Idle b ∧ ∀ q ∈ Stmt.placesCases env cs', k.SitesFit q := by
  induction h with
  | nil => exact ⟨ha, forall_mem_nil _⟩
  | cons hbody _ ih =>
    rw [forall_mem_cons] at hcs
    obtain ⟨hb, hout⟩ := lays_stmts hbody ha hcs.1 henv.push
    obtain ⟨hc, hrest⟩ := ih hb hcs.2
    exact ⟨hc, forall_mem_append.mpr ⟨hout, hrest⟩⟩

theorem Made.fitsIn (h : k.Made env (Temp b) e e') (henv : ∀ n, Hidden env n → Hidden y n)
    (htemp : ∀ n, Temp b n → Hidden y n) : k.FitsIn y e' :=
  h.fits.mono (fun n _ hn => .inl (henv n hn.1)) htemp

/-- What the parts of a statement come to, wherever it ends up. -/
structure Laid (k : Usage) (env : Env) (s s' : Stmt) (before : List Stmt) (b : ParamState) : Prop where
  waits : ∀ z, Covers (env.push.declareStmts before) z → k.Waits z b
  uses : ∀ z, Covers (env.push.declareStmts before) z → k.UsesFit (z.declareStmts b.before) [s']
  first : k.UsesFit env.push before
  names : declNames s' = declNames s

theorem dropLast_append_getLast (ss : List Stmt) : ss.dropLast ++ ss.getLast?.toList = ss := by
  grind [getLast?_eq_none_iff, dropLast_append_getLast?]

/-- The expressions of the statement may see more than the statement itself. -/
def seesMore : Stmt → Bool
  | .forLoop .. | .loop .. => true
  | _ => false

theorem site_of_seesMore (hs : seesMore s = false) {result : ShaderType} {u : Site}
    (hu : u ∈ s.sites result env) (hrole : u.role ≠ .label) : u.env = env ∧ u.expr ∈ s.operands := by
  cases s with
  | forLoop | loop => cases hs
  | decl ds =>
    obtain ⟨d, hd, hu⟩ := mem_flatMap.mp hu
    obtain ⟨e, he, rfl⟩ := mem_map.mp hu
    exact ⟨rfl, mem_filterMap.mpr ⟨d, hd, Option.mem_toList.mp he⟩⟩
  | switch selector cases =>
    rcases mem_cons.mp hu with rfl | hu
    · exact ⟨rfl, mem_singleton_self _⟩
    · obtain ⟨e, -, rfl⟩ := mem_map.mp hu
      exact absurd rfl hrole
  | expr | ifElse | whileLoop | doWhile =>
    obtain rfl := mem_singleton.mp hu
    exact ⟨rfl, mem_singleton_self _⟩
  | ret =>
    obtain ⟨e, he, rfl⟩ := mem_map.mp hu
    exact ⟨rfl, he⟩
  | _ => cases hu

theorem laid_operands (hto : ExprsTo (Walks k.table) env s.operands c s'.operands b) (ha : k.Idle c)
    (henv : k.Inside env) (hs : s.Avoids k.strays k.loses) (hmore : seesMore s' = false)
    (hnames : declNames s' = declNames s)
    (hinside : ∀ y, Covers env y → ∀ q ∈ (s'.places y).tail, k.SitesFit q) :
    k.Laid env s s' [] b := by
  have hwalks := fun z (hz : Covers env.push z) => walks_exprs hto (avoids_iff.mp hs).2.1 henv
    hz.right (fun _ _ n _ _ hn => hz.hidden n hn) (ha.waits z)
  refine ⟨fun z hz => (hwalks z hz).1, fun z hz => ?_, usesFit_nil, hnames⟩
  have hcovers : Covers env (z.declareStmts b.before) :=
    (Covers.trans ⟨henv.deep, hz.left, fun _ => id⟩ hz).trans (covers_declareStmts hz.right _)
  refine usesFit_one (fun result u hu hrole => ?_) (hinside _ hcovers)
  obtain ⟨hplace, hexpr⟩ := site_of_seesMore hmore hu hrole
  obtain ⟨e, -, hmade⟩ := exists_of_forall₂_right (hwalks z hz).2.2 hexpr
  rw [hplace]
  exact hmade.fitsIn hcovers.hidden fun n hn => (hidden_declareStmts n _ hz.right).mpr (.inr hn)

/-- A `for` loop. What its header puts aside stays behind the statements before the loop. -/
theorem laid_for {start : Option Stmt} {first : Option (List Stmt)}
    {cond cond' step step' : Option Expr} {body : Stmt} {body' : List Stmt} {d f : ParamState}
    (hs : (Stmt.forLoop start cond step body).Avoids k.strays k.loses) (henv : k.Inside env)
    (ha : k.Idle a) (hstart : OptTo (Lays k.table) env.push start a first b)
    (hbody : Lays k.table (env.push.declareStmts (first.getD [])) body b body' c)
    (hcond : ExprsTo (Walks k.table) (env.push.declareStmts (first.getD [])) cond.toList c
      cond'.toList d)
    (hstep : ExprsTo (Walks k.table) (env.push.declareStmts (first.getD [])) step.toList d
      step'.toList f) :
    k.Laid env (.forLoop start cond step body)
      (.forLoop (first.getD []).getLast? cond' step' (.ofList body')) (first.getD []).dropLast f := by
  obtain ⟨hloses, hoperands, hchildren⟩ := avoids_iff.mp hs
  obtain ⟨hb, hfirst, hlast⟩ := lays_opt hstart ha
    (fun s hs => hchildren s (mem_append_left _ hs)) henv.push
  have hinner := henv.push.declareStmts (first.getD [])
  obtain ⟨hc, hbody, -⟩ := hbody k rfl hb (hchildren body (mem_append_right _
    (mem_singleton_self _))) hinner
  have hsplit := dropLast_append_getLast (first.getD [])
  generalize hss : first.getD [] = ss at *
  have hinnerEnv : env.push.declareStmts ss =
      (env.push.declareStmts ss.dropLast).declareStmts ss.getLast?.toList := by
    rw [← declareStmts_append, hsplit]
  -- a name that the last of the first statements hides is not put aside
  have hheld : ∀ e ∈ cond.toList ++ step.toList, ∀ z, Covers (env.push.declareStmts ss.dropLast) z →
      ∀ n ∈ held k.table e, n ∈ k.names → Hidden (env.push.declareStmts ss) n → Hidden z n := by
    intro e he z hz n hn hname hhidden
    rw [hinnerEnv, hidden_declareStmts n _ hz.left] at hhidden
    rcases hhidden with h | h
    · exact hz.hidden n h
    · refine absurd (any_eq_true.mpr ⟨n, hname, ?_⟩)
        (Bool.eq_false_iff.mp (Bool.or_eq_false_iff.mp hloses).2)
      exact Bool.and_eq_true_iff.mpr ⟨contains_iff_mem.mpr (hlast n h),
        contains_iff_mem.mpr (mem_flatMap.mpr ⟨e, he, hn⟩)⟩
  have hwalks := fun z (hz : Covers (env.push.declareStmts ss.dropLast) z) =>
    walks_exprs (hcond.append hstep) hoperands hinner hz.right (fun e he => hheld e he z hz)
      (hc.waits z)
  refine ⟨fun z hz => (hwalks z hz).1, fun z hz => ?_, ?_, rfl⟩
  · have hcovers : Covers (env.push.declareStmts ss.dropLast) (z.declareStmts f.before).push :=
      (hz.trans (covers_declareStmts hz.right _)).pushRight
    have hheader := persists_covers.declareStmts ss.getLast?.toList hcovers
    rw [← hinnerEnv] at hheader
    refine usesFit_one (fun result u hu _ => ?_)
      (forall_mem_append.mpr ⟨?_, usesFit_ofList hbody hheader⟩)
    · obtain ⟨e', he', rfl⟩ := mem_map.mp hu
      obtain ⟨e, -, hmade⟩ := exists_of_forall₂_right (hwalks z hz).2.2 he'
      refine hmade.fitsIn hheader.hidden fun n hn => (covers_declareStmts hcovers.right _).hidden n ?_
      exact (hidden_declareStmts n _ hz.right).mpr (.inr hn)
    · rw [← hsplit, usesFit_append] at hfirst
      have hlater := hfirst.2.mono hcovers
      cases hlast : ss.getLast? with
      | none => exact forall_mem_nil _
      | some t =>
        rw [hlast] at hlater
        exact places_of_usesFit hlater
  · rw [← hsplit, usesFit_append] at hfirst
    exact hfirst.1

theorem laid_node (h : NodeTo (Walks k.table) (Lays k.table) env s a s' before b) (ha : k.Idle a)
    (hs : s.Avoids k.strays k.loses) (henv : k.Inside env) : k.Laid env s s' before b := by
  have hparts := (avoids_iff.mp hs).2.2
  cases h with
  | block hbody =>
    obtain ⟨hb, hout⟩ := lays_stmts hbody ha hparts henv.push
    exact laid_operands (.nil b) hb henv hs rfl rfl fun y hy => hout.mono (persists_covers.push hy)
  | ifElse ht hf hc =>
    obtain ⟨hb, htrue, -⟩ := ht k rfl ha (hparts _ mem_cons_self) henv
    obtain ⟨hidle, hfalse, -⟩ := lays_opt hf hb (fun s hs => hparts s (mem_cons_of_mem _ hs)) henv
    exact laid_operands (.cons hc (.nil _)) hidle henv hs rfl rfl fun y hy =>
      forall_mem_append.mpr ⟨usesFit_ofList htrue hy, usesFit_opt hfalse hy⟩
  | forLoop hstart hbody hcond hstep => exact laid_for hs henv ha hstart hbody hcond hstep
  | whileLoop hbody hc | doWhile hbody hc =>
    obtain ⟨hb, hout, -⟩ := hbody k rfl ha (hparts _ (mem_singleton_self _)) henv
    exact laid_operands (.cons hc (.nil _)) hb henv hs rfl rfl fun y hy => usesFit_ofList hout hy
  | loop => exact absurd (Bool.or_eq_false_iff.mp (avoids_iff.mp hs).1).1 Bool.true_eq_false.mp
  | switch hcs hsel =>
    obtain ⟨hb, hout⟩ := lays_cases hcs ha (fun c hc s hs => hparts s (mem_flatMap.mpr ⟨c, hc, hs⟩))
      henv
    exact laid_operands (.cons hsel (.nil _)) hb henv hs rfl rfl fun y hy =>
      sitesFit_mono hout (persists_covers.placesCases _ hy)
  | decl hds =>
    exact laid_operands hds.exprsTo ha henv hs rfl hds.map_name fun _ _ => forall_mem_nil _
  | expr he =>
    exact laid_operands (.cons he (.nil _)) ha henv hs rfl rfl fun _ _ => forall_mem_nil _
  | ret hvalue => exact laid_operands hvalue ha henv hs rfl rfl fun _ _ => forall_mem_nil _
  | breakOut | continueOn | discard | empty =>
    exact laid_operands (.nil _) ha henv hs rfl rfl fun _ _ => forall_mem_nil _

theorem copy_node {m j : String} {type : ShaderType}
    (h : NodeTo (Walks k.table) (Lays k.table) env (.decl [.var m type (some (.ident j))]) a s'
      before b) (ha : k.Idle a)
    (hs : (Stmt.decl [.var m type (some (.ident j))]).Avoids k.strays k.loses)
    (henv : k.Inside env) (hj : j ∉ k.pointers) :
    b = a ∧ s' = .decl [.var m type (some (.ident j))] ∧ before = [] := by
  have hinit := (avoids_iff.mp hs).2.1 (.ident j) (mem_singleton_self _)
  cases h with
  | decl hds =>
    cases hds with
    | @cons _ init _ _ _ _ _ hd hnil =>
      cases hnil
      cases init with
      | none => cases hd
      | some e =>
        cases hd with
        | cons he hnil =>
          cases hnil
          obtain ⟨-, -, hmade⟩ := he.1 k env rfl hinit henv henv.deep (fun _ _ _ h => h)
            (ha.waits env)
          rcases hmade.ident j rfl with rfl | ⟨hpointer, -⟩
          · refine ⟨he.2 (forall_mem_singleton.mpr rfl), rfl, rfl⟩
          · exact absurd hpointer hj

/-! ## Around statements -/

theorem Laid.wrapsTo (h : k.Laid env s s' before b) (hto : WrapsTo b s' out c)
    (hz : Covers (env.push.declareStmts before) z) : k.Idle c ∧ k.UsesFit z out ∧
      ∀ n ∈ declared out.getLast?.toList, n ∈ declNames s := by
  have hwaits := h.waits z hz
  have huses := h.uses z hz
  have hdeep := deep_declareStmts hz.right b.before
  have hown : ∀ n ∈ declared [s'], n ∈ declNames s := fun n hn => by
    rwa [declared, flatMap_singleton, h.names] at hn
  have hafter : ∀ t : Stmt, ∀ u ∈ b.after,
      ∃ e, u = .expr e ∧ k.FitsIn (z.declareStmts (b.before ++ [t])) e := fun t u hu => by
    obtain ⟨e, rfl, he⟩ := hwaits.after u hu
    rw [declareStmts_append]
    have hlater := (covers_declareStmts hdeep [t]).hidden
    exact ⟨e, rfl, he.mono (fun n _ hn => .inl (hlater n hn)) hlater⟩
  refine ⟨?_, ?_⟩
  · obtain ⟨base, -, rfl⟩ := hto.state
    exact ⟨hwaits.pointers, rfl, rfl⟩
  cases hto with
  | alone hbefore =>
    rw [hbefore] at huses
    exact ⟨huses, hown⟩
  | around =>
    refine ⟨usesFit_append.mpr ⟨usesFit_append.mpr ⟨hwaits.before, huses⟩,
      usesFit_exprs (hafter s')⟩, ?_⟩
    rw [getLast?_append]
    cases hlast : b.after.getLast? with
    | none =>
      rw [getLast?_append]
      exact hown
    | some t =>
      obtain ⟨e, rfl, -⟩ := hwaits.after t (mem_of_getLast? hlast)
      exact forall_mem_nil _
  | @result value result =>
    have hvalue : k.FitsIn (z.declareStmts b.before) value :=
      huses _ mem_cons_self .void ⟨_, _, .wanted .void, value⟩ (mem_singleton_self _)
        fun h => by cases h
    refine ⟨usesFit_append.mpr ⟨usesFit_append.mpr ⟨usesFit_append.mpr ⟨hwaits.before, ?_⟩,
      usesFit_exprs (hafter _)⟩, ?_⟩, ?_⟩
    · rintro q hq result u hu -
      obtain rfl := mem_singleton.mp hq
      obtain rfl := mem_singleton.mp hu
      exact hvalue
    · rintro q hq result u hu -
      obtain rfl := mem_singleton.mp hq
      obtain rfl := mem_singleton.mp hu
      refine fits_ident fun _ => .inl ?_
      rw [hidden_declareStmts _ _ hz.right]
      simp [declared, declNames, VarDecl.var]
    · rw [getLast?_append]
      exact forall_mem_nil _

theorem establishes_lays (st : Setting) (table : RefTable) :
    (paramWalker st table).Establishes (Walks table) (Lays table) where
  expr := fun _ _ _ _ _ hes => walks_node hes (lowerParamExpr_to ..)
  stmt := by
    rintro env s a s' before b hnode k rfl ha hs henv
    have hlaid := laid_node hnode ha hs henv
    have hto := wrapStmt_to s' b
    show k.Idle (wrapStmt s' b).2 ∧ k.UsesFit env (finish before (wrapStmt s' b).1) ∧ _
    unfold finish
    split
    · rename_i hempty
      obtain rfl := isEmpty_iff.mp hempty
      obtain ⟨hc, huses, hlast⟩ := hlaid.wrapsTo hto (covers_push henv.deep)
      refine ⟨hc, huses, hlast, ?_⟩
      rintro m type j rfl hj
      obtain ⟨rfl, rfl, -⟩ := copy_node hnode ha hs henv hj
      exact congrArg Prod.fst (hto.of_idle ha.before ha.after)
    · rename_i hempty
      have hdeep := (henv.push.declareStmts before).deep
      obtain ⟨hc, huses, -⟩ := hlaid.wrapsTo hto ⟨hdeep, hdeep, fun _ => id⟩
      refine ⟨hc, usesFit_one (fun _ _ h => absurd h not_mem_nil)
        (usesFit_append.mpr ⟨hlaid.first, huses⟩), forall_mem_nil _, ?_⟩
      grind [copy_node]

theorem copies_stmts {copies : List Stmt}
    (hcopies : ∀ s ∈ copies, ∃ m type j, s = .decl [.var m type (some (.ident j))] ∧
      j ∉ k.pointers)
    (h : StmtsTo (Lays k.table) env (copies ++ ss) a out b) (ha : k.Idle a)
    (hss : ∀ s ∈ copies ++ ss, s.Avoids k.strays k.loses) (henv : k.Inside env) :
    copies <+: out := by
  induction copies generalizing env a out with
  | nil => exact nil_prefix
  | cons s copies ih =>
    obtain ⟨⟨m, type, j, rfl, hj⟩, hrest⟩ := forall_mem_cons.mp hcopies
    rw [cons_append, forall_mem_cons] at hss
    cases h with
    | cons hs hstmts =>
      obtain ⟨hb, -, -, hcopy⟩ := hs k rfl ha hss.1 henv
      obtain rfl := hcopy m type j rfl hj
      exact cons_prefix_cons.mpr ⟨rfl, ih hrest hstmts hb hss.2 (henv.declareStmts _)⟩

end Usage

/-! ## Functions -/

/-- The copies that a function makes of the parameters that it changes for itself. -/
def paramCopies (st : Setting) (table : RefTable) (f : Function) : List Stmt :=
  (f.params.filter (needsCopy (writtenRoots table f.body))).map fun r =>
    .decl [.var r.name r.type (some (.ident (incomingName st r.name)))]

/-- No loop of the function may move the name out of its header. -/
def Uncaptured (table : RefTable) (f : Function) (n : String) : Prop :=
  ∀ s ∈ f.body, ∀ t ∈ s.substmts, captures table n t = false

instance (table : RefTable) (f : Function) (n : String) : Decidable (Uncaptured table f n) :=
  inferInstanceAs (Decidable (∀ s ∈ f.body, ∀ t ∈ s.substmts, captures table n t = false))

/-- The names under which copied parameters arrive are new to the function. -/
def FreshCopies (st : Setting) (table : RefTable) (f : Function) : Prop :=
  ∀ r ∈ f.params, incomingName st r.name ∉ f.params.map Param.name ∧
    incomingName st r.name ∉ writtenRoots table f.body

/-- What a function and its parameters become. -/
structure ParamsUsed (st : Setting) (table : RefTable) (env : Env) (f g : Function) : Prop where
  params : g = { f with
    params := f.params.map (loweredParam st (writtenRoots table f.body))
    body := g.body }
  /-- A parameter that the function changes for itself is copied before anything else. -/
  copies : paramCopies st table f <+: g.body
  /-- No parameter is written to that is passed by value. -/
  targets : ∀ u ∈ (Item.function g).sites env, u.role ≠ .label → ∀ r ∈ g.params,
    r.isByRef = false → r.name ∈ targets table u.expr → isParam u.env r.name = false
  /-- A parameter that has become a pointer does not stand for a value. -/
  values : ∀ u ∈ (Item.function g).sites env, u.role ≠ .label →
    ∀ n ∈ paramsPassed [.out, .inOut] f, Uncaptured table f n → n ∈ values table u.expr →
      isParam u.env n = false

section Functions

variable {st : Setting} {table : RefTable} {env : Env} {f : Function} {a b : ParamState}
variable {n : String} {q : Param}

/-- What is known of a function of a program. -/
def usage (table : RefTable) (f : Function) : Usage where
  table := table
  written := writtenRoots table f.body
  pointers := paramsPassed [.out, .inOut] f
  names := (paramsPassed [.out, .inOut] f).filter (Uncaptured table f ·)
  followed := fun _ => List.mem_of_mem_filter

theorem mem_names_usage : n ∈ (usage table f).names ↔
    n ∈ paramsPassed [.out, .inOut] f ∧ Uncaptured table f n := by
  rw [usage, mem_filter, decide_eq_true_eq]

theorem name_of_paramsPassed {ways : List Passing} (h : n ∈ paramsPassed ways f) :
    n ∈ f.params.map Param.name := by
  obtain ⟨r, hr, rfl⟩ := mem_map.mp h
  exact mem_map_of_mem (mem_of_mem_filter hr)

theorem avoids_body (hf : (Item.function f).Proper) :
    ∀ s ∈ f.body, s.Avoids (usage table f).strays (usage table f).loses := by
  intro s hs t ht
  obtain ⟨himproper, hoperands⟩ := hf.2.2 s hs t ht
  refine ⟨?_, fun e he x hx => ?_⟩
  · rw [Usage.loses, himproper, Bool.false_or, any_eq_false]
    intro n hn
    exact Bool.eq_false_iff.mp ((mem_names_usage.mp hn).2 s hs t ht)
  · rw [Usage.strays, hoperands e he x hx, Bool.false_or, Bool.not_eq_false', all_eq_true]
    intro n hn
    have hexpr : e ∈ t.exprs := t.exprs_eq_append ▸ mem_append_left _ he
    refine contains_iff_mem.mpr (mem_flatMap.mpr ⟨x, ?_, hn⟩ : n ∈ writtenRoots table f.body)
    exact mem_flatMap.mpr ⟨s, hs, mem_flatMap.mpr ⟨t, ht, mem_flatMap.mpr ⟨e, hexpr, hx⟩⟩⟩

theorem avoids_copies (hf : (Item.function f).Proper) :
    ∀ s ∈ paramCopies st table f, s.Avoids (usage table f).strays (usage table f).loses := by
  intro s hs
  obtain ⟨r, hr, rfl⟩ := mem_map.mp hs
  have htype := hf.2.1 r (mem_of_mem_filter hr)
  refine avoids_iff.mpr ⟨?_, forall_mem_singleton.mpr ?_, forall_mem_nil _⟩
  · simp [Usage.loses, isImproper, captures, VarDecl.var, htype]
  · exact Expr.avoids_iff.mpr ⟨rfl, forall_mem_nil _⟩

theorem Usage.Fits.not_param {k : Usage} {e : Expr} (h : k.FitsIn env e) :
    (n ∈ k.names → n ∈ values k.table e → isParam env n = false) ∧
      (n ∉ k.written → n ∈ targets k.table e → isParam env n = false) := by
  refine ⟨fun hname hn => ?_, fun hwritten hn => ?_⟩
  · obtain ⟨x, hx, hroot⟩ := mem_filterMap.mp hn
    refine isParam_of_hidden (or_self_iff.mp ?_)
    rcases mem_cons.mp hx with rfl | hx
    · exact h.own n hroot hname
    · obtain ⟨y, hy, hx⟩ := mem_flatMap.mp hx
      exact (h.nodes y hy).values x hx n hroot hname
  · obtain ⟨x, hx, hn⟩ := mem_filterMap.mp hn
    obtain ⟨y, hy, hx⟩ := mem_flatMap.mp hx
    exact isParam_of_hidden (((h.nodes y hy).targets x hx n hn).resolve_left hwritten)

theorem loweredParam_of_ref (h : q.isByRef = true) (written : List String) :
    loweredParam st written q = { q with passing := .pointer } := by
  simp [loweredParam, needsCopy, h]

theorem loweredParam_of_value (h : q.isByRef = false) (written : List String) :
    loweredParam st written q =
      if q.name ∈ written then { q with name := incomingName st q.name } else q := by
  have hrenamed : ({ q with name := incomingName st q.name } : Param).isByRef = false := h
  unfold loweredParam needsCopy
  by_cases hname : q.name ∈ written <;> simp [h, hname, hrenamed]

theorem loweredParam_keeps (written : List String) (q : Param) :
    (loweredParam st written q).isByRef = q.isByRef ∧
      (loweredParam st written q).type = q.type := by
  cases h : q.isByRef with
  | true =>
    rw [loweredParam_of_ref h]
    exact ⟨rfl, rfl⟩
  | false =>
    rw [loweredParam_of_value h]
    split <;> exact ⟨h, rfl⟩

theorem name_loweredParam (hfresh : FreshCopies st table f) (hq : q ∈ f.params)
    (hvalue : q.isByRef = false) :
    (loweredParam st (writtenRoots table f.body) q).name ∉ writtenRoots table f.body := by
  rw [loweredParam_of_value hvalue]
  split
  · exact (hfresh q hq).2
  · assumption

/-- **What becomes of a function.** -/
theorem paramsUsed_function (hf : (Item.function f).Proper) (hfresh : FreshCopies st table f)
    (henv : env.scopes.length = 1) (ha : a.before = [] ∧ a.after = []) {j : Item}
    (h : ItemTo (paramWalker st table) (Usage.Walks table) (Usage.Lays table) env (.function f) a j b) :
    ∃ g, j = .function g ∧ ParamsUsed st table env f g ∧ b.before = [] ∧ b.after = [] := by
  cases h with
  | @function _ g inner body _ c d hinner henter hbody =>
    obtain ⟨rfl, rfl⟩ : copyParams st (writtenRoots table f.body) f = g ∧
        { a with returns := f.returns, pointers := paramsPassed [.out, .inOut] f,
                 lowered := paramsPassed [.pointer] f } = c := Prod.mk.inj henter
    have hscopes : inner.scopes.length = 2 := by
      rw [hinner, length_scopes_declareParams]
      exact congrArg (· + 1) henv
    have hinside : (usage table f).Inside inner.push := by
      refine ⟨(congrArg (2 < · + 1) hscopes).mpr (by decide), fun n hn => ?_⟩
      have hname := name_of_paramsPassed (mem_names_usage.mp hn).1
      subst hinner
      exact (isLocal_declareParams n f.params (by rw [push, length_cons, henv]; decide)).mpr
        (.inr hname)
    have hidle : (usage table f).Idle { a with
        returns := f.returns, pointers := paramsPassed [.out, .inOut] f,
        lowered := paramsPassed [.pointer] f } := ⟨rfl, ha.1, ha.2⟩
    have havoids : ∀ s ∈ paramCopies st table f ++ f.body,
        s.Avoids (usage table f).strays (usage table f).loses :=
      forall_mem_append.mpr ⟨avoids_copies hf, avoids_body hf⟩
    have hincoming : ∀ s ∈ paramCopies st table f, ∃ m type j,
        s = .decl [.var m type (some (.ident j))] ∧ j ∉ paramsPassed [.out, .inOut] f := fun s hs => by
      obtain ⟨r, hr, rfl⟩ := mem_map.mp hs
      exact ⟨_, _, _, rfl, fun h =>
        (hfresh r (mem_of_mem_filter hr)).1 (name_of_paramsPassed h)⟩
    have hcopies := Usage.copies_stmts (k := usage table f) hincoming hbody hidle havoids hinside
    obtain ⟨hd, huses⟩ := Usage.lays_stmts (k := usage table f) hbody hidle havoids hinside
    have hparams := params_leaveParams st table f body a d
    have hfits : ∀ u ∈ (Item.function { f with
          params := f.params.map (loweredParam st (writtenRoots table f.body)), body := body }).sites env,
        u.role ≠ .label → (usage table f).FitsIn u.env u.expr := fun u hu hrole => by
      have hout : (env.push.declareParams
          (f.params.map (loweredParam st (writtenRoots table f.body)))).scopes.length = 2 := by
        rw [length_scopes_declareParams]
        exact congrArg (· + 1) henv
      obtain ⟨q, hq, hu⟩ := mem_flatMap.mp hu
      refine huses.mono ⟨hinside.deep, ?_, fun n hn => absurd hn (not_hidden_push hscopes n)⟩
        q hq f.returns u hu hrole
      exact (congrArg (2 < · + 1) hout).mpr (by decide)
    refine ⟨_, congrArg Item.function hparams, ⟨rfl, hcopies, ?_, ?_⟩, hd.before, hd.after⟩
    · intro u hu hrole r hr hvalue
      obtain ⟨q, hq, rfl⟩ := mem_map.mp hr
      rw [(loweredParam_keeps _ q).1] at hvalue
      exact (hfits u hu hrole).not_param.2 (name_loweredParam hfresh hq hvalue)
    · intro u hu hrole n hn hcaptured
      exact (hfits u hu hrole).not_param.1 (mem_names_usage.mpr ⟨hn, hcaptured⟩)

end Functions

/-! ## Programs -/

section

variable {st : Setting} {table : RefTable} {env : Env} {f g : Function}

theorem ParamsUsed.map_params {α : Type} {F : Param → α} (h : ParamsUsed st table env f g)
    (hF : ∀ written q, F (loweredParam st written q) = F q) : g.params.map F = f.params.map F := by
  rw [h.params, map_map]
  exact map_congr_left fun q _ => hF _ q

theorem ParamsUsed.declareFunction (h : ParamsUsed st table env f g) (x : Env) :
    x.declareFunction g = x.declareFunction f := by
  have htypes : g.paramTypes = f.paramTypes := h.map_params fun _ q => (loweredParam_keeps _ q).2
  rw [Env.declareFunction, htypes, h.params]
  rfl

theorem ParamsUsed.refs (h : ParamsUsed st table env f g) :
    (g.name, g.params.map Param.isByRef) = (f.name, f.params.map Param.isByRef) := by
  rw [h.map_params fun _ q => (loweredParam_keeps _ q).1, h.params]

end

/-- No initial value of a global variable passes an argument that is written back. -/
def PlainGlobals (p : Program) : Prop :=
  ∀ i ∈ p.items, i.function? = none → ∀ x ∈ i.subexprs, passedBack (refTable p) x = []

section Programs

variable {st : Setting} {table : RefTable} {env : Env} {a b : ParamState}

theorem globals_still {ds ds' : List VarDecl}
    (h : GlobalsTo (paramWalker st table) (Usage.Walks table) env ds a ds' b)
    (hds : ∀ e ∈ ds.filterMap VarDecl.init, ∀ x ∈ e.subexprs, passedBack table x = []) :
    b = a ∧ ∀ x : Env, x.declareAll ds' = x.declareAll ds := by
  induction h with
  | nil => exact ⟨rfl, fun _ => rfl⟩
  | @cons d init ds ds' a b c hd _ ih =>
    have hfirst : ∀ e ∈ d.init.toList, e ∈ (d :: ds).filterMap VarDecl.init := fun e he =>
      mem_filterMap.mpr ⟨d, mem_cons_self, Option.mem_toList.mp he⟩
    obtain ⟨rfl, hrest⟩ := ih fun e he => by
      grind
    exact ⟨(Usage.walks_still hd fun e he => hds e (hfirst e he)).1, fun x => hrest _⟩

/-- **What becomes of the items of a program.** -/
theorem paramsUsed_items {is js : List Item}
    (h : ItemsTo (paramWalker st table) (Usage.Walks table) (Usage.Lays table) env is a js b)
    (hproper : ∀ i ∈ is, i.Proper)
    (hplain : ∀ i ∈ is, i.function? = none → ∀ x ∈ i.subexprs, passedBack table x = [])
    (hfresh : ∀ f ∈ is.filterMap Item.function?, FreshCopies st table f)
    (henv : env.scopes.length = 1) (ha : a.before = [] ∧ a.after = []) :
    (∀ x : Env, js.foldl declareItem x = is.foldl declareItem x) ∧
      List.Forall₂ (ParamsUsed st table env) (is.filterMap Item.function?)
        (js.filterMap Item.function?) := by
  induction h with
  | nil => exact ⟨fun _ => rfl, .nil⟩
  | @cons i j is js a b c hi _ ih =>
    obtain ⟨hproper, hproper'⟩ := forall_mem_cons.mp hproper
    obtain ⟨hplain, hplain'⟩ := forall_mem_cons.mp hplain
    cases i with
    | struct d =>
      cases hi
      obtain ⟨hitems, hfunctions⟩ := ih hproper' hplain' hfresh ha
      exact ⟨fun x => hitems _, hfunctions⟩
    | globals ds =>
      cases hi with
      | globals hds =>
        obtain ⟨rfl, hnames⟩ := globals_still hds fun e he x hx =>
          hplain rfl x (mem_flatMap.mpr ⟨e, he, hx⟩)
        obtain ⟨hitems, hfunctions⟩ := ih hproper' hplain' hfresh ha
        refine ⟨fun x => (hitems _).trans ?_, hfunctions⟩
        exact congrArg (fun y : Env => is.foldl declareItem y) (hnames x)
    | function f =>
      obtain ⟨hfresh, hfresh'⟩ := forall_mem_cons.mp hfresh
      obtain ⟨g, rfl, hg, hb⟩ := paramsUsed_function hproper hfresh henv ha hi
      obtain ⟨hitems, hfunctions⟩ := ih hproper' hplain' hfresh' hb
      refine ⟨fun x => (hitems _).trans ?_, .cons hg hfunctions⟩
      exact congrArg (fun y : Env => is.foldl declareItem y) (hg.declareFunction x)

end Programs

/-- **Parameters are used as they may be**: no parameter that is passed by value is written to, one
that the body changes is copied before anything else, and one that has become a pointer stands where it
is read through or passed on, unless a loop moves its name out of its header. -/
theorem paramsUsed_lowerParameters {source : String} {p : Program} (hread : Program.parse source = .ok p)
    (st : Setting) (b : State) (hglobals : PlainGlobals p)
    (hfresh : ∀ f ∈ p.functions, FreshCopies st (refTable p) f) :
    let q := (lowerParameters st p b).1
    refTable q = refTable p ∧ st.envFor q = st.envFor p ∧
      List.Forall₂ (ParamsUsed st (refTable p) (st.envFor p)) p.functions q.functions := by
  have hwalk := (Usage.establishes_lays st (refTable p)).onItems (st.envFor p) p.items { base := b }
  have henv : (st.envFor p).scopes.length = 1 := length_scopes_declareItems p.items (ofHost st.hostTypes)
  obtain ⟨hitems, hfunctions⟩ := paramsUsed_items hwalk (Program.proper_of_parse hread) hglobals hfresh
    henv ⟨rfl, rfl⟩
  refine ⟨?_, ?_, hfunctions⟩
  · have hrefs : List.Forall₂ (· = ·)
        (p.functions.map fun f => (f.name, f.params.map Param.isByRef))
        ((lowerParameters st p b).1.functions.map fun f => (f.name, f.params.map Param.isByRef)) := by
      rw [forall₂_map_left_iff, forall₂_map_right_iff]
      exact hfunctions.imp fun f g hg => hg.refs.symm
    rw [forall₂_eq_eq_eq] at hrefs
    exact congrArg reverse hrefs.symm
  · exact congrArg (Env.declareStruct · _ _) (hitems (ofHost st.hostTypes))

instance (role : Role) : Decidable (role = .label) :=
  match role with
  | .label => .isTrue rfl
  | .operand | .wanted _ => .isFalse fun h => by cases h

instance (st : Setting) (table : RefTable) (f : Function) : Decidable (FreshCopies st table f) :=
  inferInstanceAs (Decidable (∀ r ∈ f.params, incomingName st r.name ∉ f.params.map Param.name ∧
    incomingName st r.name ∉ writtenRoots table f.body))

/-- A program with a parameter that the body changes, parameters that are written back, a variable that
hides one, and calls that write back parts of variables. -/
def writtenSource : String :=
  "float f(out float a, inout vec2 b) \x7b return f(b.x, b); \x7d " ++
  "void g(float v, inout vec2 w) \x7b for (; f(v, w) < v; ) \x7b vec2 w; f(w.x, w); \x7d \x7d"

theorem paramsUsed_writtenSource : ∃ p, Program.parse writtenSource = .ok p ∧ PlainGlobals p ∧
    (∀ f ∈ p.functions, FreshCopies emptySetting (refTable p) f) ∧
    let q := (lowerParameters emptySetting p {}).1
    List.Forall₂ (ParamsUsed emptySetting (refTable p) (emptySetting.envFor p)) p.functions
      q.functions := by
  obtain ⟨p, hp, hcheck⟩ := @Program.exists_of_parse writtenSource
    (fun p => decide ((∀ i ∈ p.items, i.function?.isSome = true) ∧
      ∀ f ∈ p.functions, FreshCopies emptySetting (refTable p) f)) (by decide +kernel)
  obtain ⟨hitems, hfresh⟩ := of_decide_eq_true hcheck
  have hplain : PlainGlobals p := fun i hi hnone => by
    have hsome := hitems i hi
    rw [hnone] at hsome
    cases hsome
  exact ⟨p, hp, hplain, hfresh, (paramsUsed_lowerParameters hp emptySetting {} hplain hfresh).2.2⟩

/-- A program with initial values of global variables and the header of a loop that write back parts of
variables, whose names stand for parameters of the functions behind or around them. -/
def leakingSource : String :=
  "float f(out float a) \x7b return a; \x7d vec2 v; float x = f(v.x); void g(float v) \x7b ; \x7d " ++
  "float y = f(v.x); void h(float z) \x7b z++; \x7d " ++
  "void k(out vec2 w) \x7b for (vec2 w; f(w.x) < 1.0; ) ; \x7d"

/-- What the initial values put aside writes to a parameter that is passed by value, and comes before
the copy of another; what the header puts aside takes a pointer for a value. -/
theorem paramsMisused_leakingSource : ∃ p, Program.parse leakingSource = .ok p ∧
    (∀ f ∈ p.functions, FreshCopies emptySetting (refTable p) f) ∧
    let q := (lowerParameters emptySetting p {}).1
    (∃ g ∈ q.functions, ∃ u ∈ (Item.function g).sites (emptySetting.envFor q), u.role ≠ .label ∧
      ∃ r ∈ g.params, r.isByRef = false ∧ r.name ∈ targets (refTable q) u.expr ∧
        isParam u.env r.name = true) ∧
    (∃ g ∈ q.functions, ∃ u ∈ (Item.function g).sites (emptySetting.envFor q), u.role ≠ .label ∧
      ∃ r ∈ g.params, r.isByRef = true ∧ r.name ∈ values (refTable q) u.expr ∧
        isParam u.env r.name = true) ∧
    ∃ f ∈ p.functions, ∃ g ∈ q.functions, g.name = f.name ∧
      ¬ paramCopies emptySetting (refTable p) f <+: g.body := by
  obtain ⟨p, hp, hcheck⟩ := @Program.exists_of_parse leakingSource (fun p =>
    let q := (lowerParameters emptySetting p {}).1
    decide ((∀ f ∈ p.functions, FreshCopies emptySetting (refTable p) f) ∧
      (∃ g ∈ q.functions, ∃ u ∈ (Item.function g).sites (emptySetting.envFor q), u.role ≠ .label ∧
        ∃ r ∈ g.params, r.isByRef = false ∧ r.name ∈ targets (refTable q) u.expr ∧
          isParam u.env r.name = true) ∧
      (∃ g ∈ q.functions, ∃ u ∈ (Item.function g).sites (emptySetting.envFor q), u.role ≠ .label ∧
        ∃ r ∈ g.params, r.isByRef = true ∧ r.name ∈ values (refTable q) u.expr ∧
          isParam u.env r.name = true) ∧
      ∃ f ∈ p.functions, ∃ g ∈ q.functions, g.name = f.name ∧
        ∃ s ∈ (paramCopies emptySetting (refTable p) f).head?,
          g.body.head?.map declNames ≠ some (declNames s))) (by decide +kernel)
  obtain ⟨hfresh, htargets, hvalues, f, hf, g, hg, hname, s, hs, hhead⟩ := of_decide_eq_true hcheck
  refine ⟨p, hp, hfresh, htargets, hvalues, f, hf, g, hg, hname, fun hprefix => hhead ?_⟩
  obtain ⟨rest, hrest⟩ := hprefix
  rw [← hrest, head?_append_of_ne_nil _ (ne_nil_of_mem (mem_of_head? hs)), hs]
  rfl

end ShaderEffect.Lowering
