import ShaderEffect.Proofs.Lowering.Call.Function
import ShaderEffect.Proofs.Lowering.Call.Node
import ShaderEffect.Proofs.Lowering.Call.Statement
import ShaderEffect.Proofs.Lowering.Stable.Name

/-!
# Which function a call reaches

Two passes rename calls: one gives functions that share a name names of their own, one moves functions
away from reserved names. Both look at the name of a call and the number of its arguments only, so
that a call which a pass brought in is renamed with the calls that the program had. A call of a name
is captured (`Captures`) if the program declares a function that can take it.
-/

namespace ShaderEffect.Lowering

open Walker List Stmt

variable (st : Setting) (p : Program) (s : State) {args : List (Option ShaderType)}
  {os : List Overload}

/-! ## The functions of a program -/

def bare (f : Function) : Function :=
  { f with body := [] }

/-- The name of a function, and whether it is the entry point. -/
def title (f : Function) : String × Bool :=
  (f.name, f.isEntry)

/-- The passes that come before calls are renamed. -/
def earlyPasses : List Pass :=
  [.declarations, .laneAliases, .conditionals, .controlFlow, .laneAssignments, .conversions,
    .operations, .sampling]

theorem bare_apply {pass : Pass} (h : pass ∈ earlyPasses) (p : Program) (s : State) :
    (pass.apply st p s).1.functions.map bare = p.functions.map bare := by
  simp only [earlyPasses, mem_cons, not_mem_nil, or_false] at h
  rcases h with rfl | rfl | rfl | rfl | rfl | rfl | rfl | rfl
  · refine (map_functions_walk bare (fun _ _ => rfl) (fun _ _ _ => rfl) (fun _ _ _ => rfl) _ _ _).trans ?_
    exact congrArg (map bare) (functions_keptItems st p.items s)
  all_goals
    exact map_functions_walk bare (fun _ _ => rfl) (fun _ _ _ => rfl) (fun _ _ _ => rfl) _ _ _

theorem bare_runPasses (st : Setting) : ∀ {passes : List Pass}, passes ⊆ earlyPasses →
    ∀ (p : Program) (s : State),
      (runPasses st passes p s).1.functions.map bare = p.functions.map bare
  | [], _, _, _ => rfl
  | pass :: passes, h, p, s => by
    rw [cons_subset] at h
    rw [runPasses_cons, bare_runPasses st h.2, bare_apply st h.1]

theorem title_lowerParameters :
    (lowerParameters st p s).1.functions.map title = p.functions.map title :=
  map_functions_walk title (fun _ _ => rfl) (fun _ _ _ => rfl) (fun _ _ _ => rfl) _ _ _

theorem title_bindHostNames :
    (bindHostNames st p s).1.functions.map title = p.functions.map title :=
  map_functions_walk title (fun _ _ => rfl) (fun _ _ _ => rfl) (fun _ _ _ => rfl) _ _ _

/-! ## Functions that share a name -/

/-- How a call of `n` with `k` arguments is named once functions have names of their own: after one of
the functions that share the name and take as many arguments, if there is one. -/
def Resolved (fs : List Function) (n : String) (k : Nat) (m : String) : Prop :=
  (∃ f ∈ fs, isOverloaded (fs.map Function.name) f = true ∧ f.name = n ∧ f.params.length = k ∧
      m = ownName f) ∨
    (m = n ∧ ∀ f ∈ fs, isOverloaded (fs.map Function.name) f = true → f.name = n →
      f.params.length ≠ k)

theorem best_eq_none_iff :
    best args os = none ↔ os = [] := by
  constructor
  · intro h
    by_contra hne
    obtain ⟨top, htop⟩ : ∃ top, (os.map (matchCount args)).max? = some top :=
      Option.isSome_iff_exists.mp (by simpa [isSome_max?_iff] using hne)
    obtain ⟨o, ho, hcount⟩ := mem_map.mp (max?_mem htop)
    have hmem : o ∈ os.filter fun o => matchCount args o == top :=
      mem_filter.mpr ⟨ho, by simp [hcount]⟩
    grind [best]
  · rintro rfl
    rfl

theorem mem_of_best {o : Overload}
    {ambiguous : Bool} (h : best args os = some (o, ambiguous)) : o ∈ os := by
  grind [best, mem_cons_self]

theorem mem_overloads {p : Program} {o : Overload} : o ∈ overloads p ↔
    ∃ f ∈ p.functions, isOverloaded p.functionNames f = true ∧ o.shared = f.name ∧
      o.name = ownName f ∧ o.params = f.paramTypes := by
  unfold overloads
  rw [mem_map]
  constructor
  · grind
  · rintro ⟨f, hf, hover, hshared, hname, hparams⟩
    exact ⟨f, mem_filter.mpr ⟨hf, hover⟩, by cases o; simp_all⟩

theorem resolveCall_eq (env : Env) (name : String) (args : List Expr) (s : State) :
    ∃ m, (resolveCall (overloads p) env name args s).1 = .call m args ∧
      Resolved p.functions name args.length m := by
  have hlength : ∀ f : Function, f.paramTypes.length = f.params.length := fun f =>
    length_map _
  -- without a function that takes as many arguments, the call keeps its name
  have hnone : ((overloads p).filter fun o => o.shared == name).filter
      (fun o => o.params.length == args.length) = [] → Resolved p.functions name args.length name := by
    intro hnil
    refine .inr ⟨rfl, fun f hf hover hname hparams => ?_⟩
    have hmem : ({ shared := f.name, name := ownName f, params := f.paramTypes } : Overload) ∈
        ((overloads p).filter fun o => o.shared == name).filter
          fun o => o.params.length == args.length := by
      refine mem_filter.mpr ⟨mem_filter.mpr ⟨mem_overloads.mpr
        ⟨f, hf, hover, rfl, rfl, rfl⟩, by simp [hname]⟩, by simp [hlength, hparams]⟩
    rw [hnil] at hmem
    exact absurd hmem not_mem_nil
  by_cases hempty : ((overloads p).filter fun o => o.shared == name).isEmpty = true
  · refine ⟨name, by simp only [resolveCall, if_pos hempty]; rfl, hnone ?_⟩
    rw [isEmpty_iff.mp hempty, filter_nil]
  · cases hbest : best (env.typesOf args) (((overloads p).filter fun o => o.shared == name).filter
        fun o => o.params.length == args.length) with
    | none =>
      refine ⟨name, ?_, hnone (best_eq_none_iff.mp hbest)⟩
      simp only [resolveCall, if_neg hempty, hbest]
      rfl
    | some choice =>
      obtain ⟨o, ambiguous⟩ := choice
      obtain ⟨hmem, hparams⟩ := mem_filter.mp (mem_of_best hbest)
      obtain ⟨hmem, hshared⟩ := mem_filter.mp hmem
      obtain ⟨f, hf, hover, hname, hown, htypes⟩ := mem_overloads.mp hmem
      refine ⟨o.name, ?_, .inl ⟨f, hf, hover, ?_, ?_, hown⟩⟩
      · simp only [resolveCall, if_neg hempty, hbest]
        cases ambiguous <;> rfl
      · rw [← hname]
        exact beq_iff_eq.mp hshared
      · rw [← hlength, ← htypes]
        exact beq_iff_eq.mp hparams

theorem evaluated_nameOverloads : (nameOverloads p).evaluated = p.evaluated := by
  unfold nameOverloads Program.evaluated
  rw [flatMap_map]
  refine flatMap_congr fun i _ => ?_
  cases i with
  | struct | globals => rfl
  | function f =>
    show Item.evaluated (.function (if _ then _ else f)) = _
    split <;> rfl

theorem follows_separateOverloads :
    (separateOverloads st p s).2.deferred = s.deferred ∧
      ∀ e ∈ (separateOverloads st p s).1.evaluated,
        Follows (Resolved p.functions) (fun _ _ => False) p.evaluated e := by
  obtain ⟨f, hcall, hother, heq⟩ := separateOverloads_eq st p
  rw [heq]
  split
  · rename_i hempty
    have hself : ∀ n k, Resolved p.functions n k n := by
      refine fun n k => .inr ⟨rfl, fun f hf hover => ?_⟩
      have hmem := mem_overloads (o := { shared := f.name, name := ownName f, params := f.paramTypes })
        |>.mpr ⟨f, hf, hover, rfl, rfl, rfl⟩
      rw [isEmpty_iff.mp hempty] at hmem
      exact absurd hmem not_mem_nil
    exact ⟨rfl, fun e he => (Follows.refl hself e).of_mem he⟩
  · have hcarries : Carries ({ expr := f } : Walker State) (fun a => a.deferred = s.deferred)
        (Resolved p.functions) (fun _ _ => False) p.evaluated := by
      refine ⟨fun env e cs a ha hcs _ => ?_,
        fun _ _ _ ha hs => ⟨ha, forall_mem_singleton.mpr hs⟩,
        fun _ _ _ ha hd => ⟨ha, hd⟩, fun _ _ _ ha hf => ⟨ha, hf⟩, fun _ _ _ ha => ⟨ha, rfl⟩⟩
      have hkind := Expr.isCall_withChildren e cs
      generalize hx : e.withChildren cs = x at hkind
      cases x with
      | call n args =>
        obtain ⟨xs, rfl, rfl⟩ := Expr.eq_call_of_withChildren hx
        obtain ⟨m, hm, hresolved⟩ := resolveCall_eq p env n cs a
        show (f env (.call n cs) a).2.deferred = _ ∧ Follows _ _ _ (f env (.call n cs) a).1
        rw [hcall]
        refine ⟨(yields_resolveCall (overloads p) env n cs a).2.deferred.trans ha, ?_⟩
        rw [hm]
        exact .of_args (hcs.length_eq ▸ hresolved) hcs
      | _ =>
        have hfollows := Follows.of_children hkind.symm hcs
        rw [hx] at hfollows
        show (f env _ a).2.deferred = _ ∧ Follows _ _ _ (f env _ a).1
        rw [hother _ _ rfl]
        exact ⟨ha, hfollows⟩
    obtain ⟨hdeferred, hout⟩ := hcarries.evaluated_walk (st.envFor (nameOverloads p))
      (p := nameOverloads p) rfl fun e he => original_of_mem (evaluated_nameOverloads p ▸ he)
    exact ⟨hdeferred, hout⟩

/-- The title of a function once those that share a name have names of their own. -/
def ownTitle (names : List String) (f : Function) : String × Bool :=
  (if isOverloaded names f then ownName f else f.name, f.isEntry)

theorem title_separateOverloads :
    (separateOverloads st p s).1.functions.map title =
      p.functions.map (ownTitle p.functionNames) := by
  unfold separateOverloads
  dsimp only
  split
  · rename_i hempty
    show p.functions.map title = _
    refine List.map_congr_left fun f hf => ?_
    have happart := (isEmpty_overloads_iff p).mp hempty f hf
    rw [ownTitle, (isOverloaded_eq_false_iff hf).mpr happart]
    rfl
  · refine (map_functions_walk title (fun _ _ => rfl) (fun _ _ _ => rfl) (fun _ _ _ => rfl) _ _
      _).trans ?_
    rw [functions_nameOverloads, map_map]
    refine List.map_congr_left fun f _ => ?_
    rw [Function.comp_apply, ownTitle]
    split <;> rfl

/-! ## Reserved names -/

/-- What a call is named once functions have moved away from reserved names. -/
def movedName (st : Setting) (p : Program) (name : String) : String :=
  if (renamableFunctions p).contains name then (nameRenames st.options.renamePrefix p).apply name
  else name

/-- How calls are named once functions have moved away from reserved names. -/
def Moved (st : Setting) (p : Program) (n : String) (_ : Nat) (n' : String) : Prop :=
  n' = movedName st p n

theorem follows_mapNodes {names : String → Nat → String → Prop} {new : String → Nat → Prop}
    {f : Expr → Expr} (hcall : ∀ n args, ∃ n', f (.call n args) = .call n' args ∧
      names n args.length n')
    (hkind : ∀ e, (f e).isCall = e.isCall) (hchildren : ∀ e, (f e).children = e.children)
    (e : Expr) : Follows names new [e] (e.mapNodes f) := by
  induction e using Expr.byChildren with
  | node e ih =>
    have hargs : List.Forall₂ (fun c c' => Follows names new [c] c') e.children
        (e.children.map (Expr.mapNodes f)) :=
      forall₂_map_right_iff.mpr (forall₂_same.mpr ih)
    rw [Expr.mapNodes_eq]
    by_cases he : e.isCall = true
    · cases e with
      | call n args =>
        obtain ⟨n', heq, hname⟩ := hcall n (args.map (Expr.mapNodes f))
        show Follows names new [.call n args] (f (.call n (args.map (Expr.mapNodes f))))
        rw [length_map] at hname
        rw [heq]
        exact .of_args hname hargs
      | _ => cases he
    · have hnode := Follows.of_children (Bool.eq_false_iff.mpr he) hargs
      refine .node ?_ ?_
      · rw [hkind, Expr.isCall_withChildren]
        exact Bool.eq_false_iff.mpr he
      · rw [hchildren]
        exact fun c hc => hnode.child hc

theorem evaluated_renameLocals (names : Renames) (s : Stmt) :
    (renameLocals names s).evaluated = s.evaluated := by
  unfold renameLocals
  split
  · rw [evaluated_decl, evaluated_decl, flatMap_map]
    refine flatMap_congr fun d _ => ?_
    show (d.init.map id).toList = _
    rw [Option.map_id_apply]
  · rfl

theorem follows_renameReserved :
    (renameReserved st p s).2.deferred = s.deferred ∧
      ∀ e ∈ (renameReserved st p s).1.evaluated,
        Follows (Moved st p) (fun _ _ => False) p.evaluated e := by
  unfold renameReserved
  dsimp only
  split
  · rename_i hempty
    rw [Bool.and_eq_true, List.isEmpty_iff] at hempty
    have hself : ∀ n k, Moved st p n k n := by
      intro n k
      unfold Moved movedName
      rw [hempty.1]
      split <;> rfl
    exact ⟨rfl, fun e he => (Follows.refl hself e).of_mem he⟩
  · refine ⟨rfl, ?_⟩
    have hexpr : ∀ e ∈ p.evaluated, Follows (Moved st p) (fun _ _ => False) p.evaluated
        (e.mapNodes (renameNode (nameRenames st.options.renamePrefix p)
          (memberRenames st.options.renamePrefix p) (valueNames p) (renamableFunctions p))) := by
      intro e he
      refine (follows_mapNodes (fun n args => ⟨_, rfl, rfl⟩) (fun e => ?_) (fun e => ?_) e).of_mem he
      · cases e <;> rfl
      · cases e <;> rfl
    refine forall_mem_flatMap.mpr (forall_mem_map.mpr fun i hi => ?_)
    have hitem := fun e he => hexpr e (mem_flatMap.mpr ⟨i, hi, he⟩)
    cases i with
    | struct d => exact forall_mem_nil _
    | globals ds =>
      refine forall_mem_flatMap.mpr (forall_mem_map.mpr fun d hd e he => ?_)
      obtain ⟨x, hx, rfl⟩ := Option.map_eq_some_iff.mp (Option.mem_toList.mp he)
      exact hitem x (mem_flatMap.mpr ⟨d, hd, Option.mem_toList.mpr hx⟩)
    | function f =>
      show ∀ e ∈ (mapTreeAll _ (renameLocals _) f.body).flatMap evaluated, _
      rw [mapTreeAll_eq_map]
      refine forall_mem_flatMap.mpr (forall_mem_map.mpr fun t ht => ?_)
      refine evaluated_mapTree (P := fun e => e ∈ (Item.function f).evaluated) hitem ?_ t
        fun e he => mem_flatMap.mpr ⟨t, ht, he⟩
      exact fun s hs => evaluated_renameLocals _ s ▸ hs

theorem names_renameReserved :
    (renameReserved st p s).1.functions.map Function.name = p.functions.map fun f =>
      if keepsName f then f.name else (nameRenames st.options.renamePrefix p).apply f.name := by
  unfold renameReserved
  dsimp only
  split
  · rename_i hempty
    rw [Bool.and_eq_true, List.isEmpty_iff] at hempty
    show p.functions.map Function.name = _
    refine List.map_congr_left fun f _ => ?_
    rw [hempty.1]
    split <;> rfl
  · show ((p.items.map _).filterMap Item.function?).map Function.name =
      (p.items.filterMap Item.function?).map _
    generalize nameRenames st.options.renamePrefix p = names
    induction p.items with
    | nil => rfl
    | cons i is ih =>
      cases i with
      | struct | globals => exact ih
      | function f => exact congrArg (_ :: ·) ih

/-! ## The entry point -/

theorem getElem?_mapFirst {test : Function → Bool} {g : Function → Function} : ∀ (is : List Item)
    {i : Nat} {f : Function}, (is.filterMap Item.function?)[i]? = some f → test f = false →
      ((mapFirst test g is).filterMap Item.function?)[i]? = some f
  | [], _, _, h, _ => h
  | .struct d :: is, _, _, h, hf => getElem?_mapFirst is h hf
  | .globals ds :: is, _, _, h, hf => getElem?_mapFirst is h hf
  | .function f' :: is, i, f, h, hf => by
    unfold mapFirst
    cases i with
    | zero =>
      have heq : f' = f := Option.some.inj h
      rw [heq, hf]
      rfl
    | succ i =>
      have h' : (is.filterMap Item.function?)[i]? = some f := h
      split
      · exact h'
      · exact getElem?_mapFirst is h' hf

theorem getElem?_makeEntryPoint {p : Program} {i : Nat} {f : Function}
    (h : p.functions[i]? = some f) (hf : f.name ≠ "main") :
    (makeEntryPoint st p s).1.functions[i]? = some f := by
  by_cases hentry : p.functions.any Function.isEntry = true
  · rw [makeEntryPoint_of_hasEntry st s hentry]
    exact h
  · by_cases hmain : p.functions.any isMain = true
    · rw [makeEntryPoint_of_main st s hentry hmain]
      refine getElem?_mapFirst p.items h ?_
      unfold isMain
      rw [beq_eq_false_iff_ne.mpr hf, Bool.false_and]
    · rw [makeEntryPoint_without_main st s hentry hmain]
      show ((p.items ++ _).filterMap Item.function?)[i]? = some f
      rw [List.filterMap_append, List.getElem?_append_left]
      · exact h
      · exact (List.getElem?_eq_some_iff.mp h).1

end ShaderEffect.Lowering
