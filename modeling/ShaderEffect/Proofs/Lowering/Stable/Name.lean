import ShaderEffect.Proofs.Lowering.Stable.Always

/-!
# When the passes on names leave a program as it is

The pass that tells overloaded functions apart leaves exactly the programs in which no two functions
but the entry point share a name (`separateOverloads_eq_self_iff`), the pass that binds the names of
the host those in which every such name already stands for itself (`bindHostNames_eq_self_iff`), and
the pass that renames reserved names those that declare none (`renameReserved_eq_self_iff`).
-/

namespace ShaderEffect.Lowering

open Walker List Stmt

variable (st : Setting) (p : Program) (b : State) (text : String)

/-! ## Overloaded functions -/

/-- Each name but that of the entry point belongs to one function. -/
def NamesApart (p : Program) : Prop :=
  ∀ f ∈ p.functions, f.name ≠ "main" → p.functionNames.count f.name = 1

theorem isOverloaded_eq_false_iff {p : Program} {f : Function} (hf : f ∈ p.functions) :
    isOverloaded p.functionNames f = false ↔
      (f.name ≠ "main" → p.functionNames.count f.name = 1) := by
  have hcount : 0 < p.functionNames.count f.name :=
    count_pos_iff.mpr (mem_map_of_mem hf)
  grind [isOverloaded]

theorem isEmpty_overloads_iff : (overloads p).isEmpty = true ↔ NamesApart p := by
  rw [overloads, List.isEmpty_iff, List.map_eq_nil_iff, List.filter_eq_nil_iff]
  refine forall_congr' fun f => forall_congr' fun hf => ?_
  rw [Bool.not_eq_true, isOverloaded_eq_false_iff hf]

theorem ownName_ne (f : Function) : ownName f ≠ f.name := by
  grind [String.length, ownName, String.length_append]

theorem functions_nameOverloads :
    (nameOverloads p).functions = p.functions.map fun f =>
      if isOverloaded p.functionNames f then { f with name := ownName f } else f := by
  unfold nameOverloads Program.functions
  generalize p.functionNames = names
  induction p.items with
  | nil => rfl
  | cons i is ih =>
    cases i with
    | struct | globals => exact ih
    | function f => exact congrArg (_ :: ·) ih

theorem functionNames_nameOverloads :
    (nameOverloads p).functionNames =
      p.functions.map fun f => if isOverloaded p.functionNames f then ownName f else f.name := by
  grind [Program.functionNames, functions_nameOverloads, map_congr_left]

/-- **The pass leaves a program as it is exactly if no two functions share a name.** -/
theorem separateOverloads_eq_self_iff : (separateOverloads st p b).1 = p ↔ NamesApart p := by
  rw [← isEmpty_overloads_iff]
  unfold separateOverloads
  dsimp only
  by_cases hall : (overloads p).isEmpty = true
  · rw [if_pos hall]
    exact iff_of_true rfl hall
  · rw [if_neg hall]
    refine iff_of_false (fun heq => hall ?_) hall
    have hnames := congrArg Program.functionNames heq
    rw [Program.functionNames, map_functions_walk Function.name (fun _ _ => rfl)
      (fun _ _ _ => rfl) (fun _ _ _ => rfl), ← Program.functionNames, functionNames_nameOverloads,
      Program.functionNames, map_inj_left] at hnames
    rw [isEmpty_overloads_iff]
    intro f hf
    rw [← isOverloaded_eq_false_iff hf]
    by_contra hover
    rw [Bool.not_eq_false] at hover
    have hname := hnames f hf
    rw [← Program.functionNames, if_pos hover] at hname
    exact ownName_ne f hname

/-! ## Names of the host -/

/-- What becomes of a node, where the colour goes to the given output of the program. -/
def boundNode (st : Setting) (outputAlias : Option String) (env : Env) : Expr → Expr
  | .ident name =>
    if env.isDeclared name then .ident name
    else (hostExpr? st outputAlias name).getD (.ident name)
  | .index base position =>
    if base.name? == some "gl_FragData" then .ident Wgsl.fragColor else .index base position
  | e => e

theorem bindNode_eq (env : Env) (e : Expr) (a : State) :
    (bindNode st env e a).1 = boundNode st a.outputAlias env e ∧
      (bindNode st env e a).2.outputAlias = a.outputAlias := by
  cases e with
  | ident name =>
    rw [bindNode, boundNode]
    split <;> exact ⟨rfl, rfl⟩
  | index base position =>
    rw [bindNode, boundNode]
    split
    · cases isZero position <;> exact ⟨rfl, rfl⟩
    · exact ⟨rfl, rfl⟩
  | _ => exact ⟨rfl, rfl⟩

theorem faithful_boundNode (outputAlias : Option String) (env : Env) :
    Expr.Faithful (boundNode st outputAlias env) := by
  refine .of_heads fun e cs hlength h => ?_
  cases e with
  | index base position =>
    grind [length_eq_two, Expr.withChildren, boundNode, Expr.children]
  | int | float | bool | ident => exact length_eq_zero_iff.mp hlength
  | call | construct | comma => exact congrArg Expr.children h
  | unary | field | deref | addrOf =>
    obtain ⟨x, rfl⟩ := length_eq_one_iff.mp hlength
    exact congrArg Expr.children h
  | binary | assign =>
    obtain ⟨x, y, rfl⟩ := length_eq_two.mp hlength
    exact congrArg Expr.children h
  | conditional =>
    obtain ⟨x, y, z, rfl⟩ := length_eq_three.mp hlength
    exact congrArg Expr.children h

/-- The node is no name of the host that stands for something else. -/
def Bound (st : Setting) (outputAlias : Option String) (env : Env) : Expr → Prop
  | .ident name =>
    env.isDeclared name = true ∨ ∀ x ∈ hostExpr? st outputAlias name, x = .ident name
  | .index base _ => base.name? ≠ some "gl_FragData"
  | _ => True

theorem boundNode_eq_self_iff (outputAlias : Option String) (env : Env) (e : Expr) :
    boundNode st outputAlias env e = e ↔ Bound st outputAlias env e := by
  cases e with
  | ident name =>
    rw [boundNode, Bound]
    by_cases hdecl : env.isDeclared name = true
    · rw [if_pos hdecl]
      exact iff_of_true rfl (.inl hdecl)
    · rw [if_neg hdecl, or_iff_right hdecl]
      cases hostExpr? st outputAlias name <;> simp
  | index base position =>
    grind [boundNode, Bound]
  | _ => exact iff_of_true rfl trivial

/-- **The pass leaves a program as it is exactly if every name of the host stands for itself.** -/
theorem bindHostNames_eq_self_iff :
    (bindHostNames st p b).1 = p ↔ p.EachNode (st.envFor p) (Bound st b.outputAlias) := by
  have hw : Walker.Rewrites { expr := bindNode st : Walker State }
      (fun _ a => a.outputAlias = b.outputAlias) { node := boundNode st b.outputAlias } :=
    rewrites_of_expr fun env e a ha => by
      grind [bindNode_eq]
  refine (hw.walk_eq_iff (st.envFor p) p rfl).trans ?_
  rw [Rewriting.fixes_node_iff (faithful_boundNode st b.outputAlias)]
  simp only [boundNode_eq_self_iff]

/-! ## Reserved names -/

/-- Nothing that the pass would rename has a reserved name. An empty prefix moves names out of the
way of each other only, so that structures and members keep theirs. -/
def ReservedFree (renamePrefix : String) (p : Program) : Prop :=
  (∀ name ∈ valueNames p ++ renamableFunctions p, Wgsl.isReserved name = false) ∧
    ( renamePrefix ≠ "" → ∀ d ∈ structDefs p, Wgsl.isReserved d.name = false ∧
      ∀ m ∈ d.members, Wgsl.isReserved m.name = false)

theorem length_le_freeName (taken : List String) : ∀ (fuel : Nat) (name : String),
    name.length ≤ (freeName taken fuel name).length
  | 0, name => Nat.le_refl _
  | fuel + 1, name => by
    rw [freeName]
    split
    · have h := length_le_freeName taken fuel (name ++ "_")
      rw [String.length_append] at h
      omega
    · exact Nat.le_refl _

theorem freeName_of_not_mem {taken : List String} {name : String} (h : name ∉ taken) (fuel : Nat) :
    freeName taken fuel name = name := by
  cases fuel with
  | zero => rfl
  | succ fuel => rw [freeName, if_neg (by rwa [contains_iff_mem])]

theorem freeName_append_ne {text : String} (h : text ≠ "") (taken : List String) (fuel : Nat)
    (name : String) : freeName taken fuel (text ++ name) ≠ name := by
  grind [length_le_freeName, String.length_eq_zero_iff, String.length_append]

/-- A name that is taken gets longer, whatever is put before it. -/
theorem freeName_ne_of_mem {taken : List String} {name : String} (h : name ∈ taken) :
    freeName taken taken.length (text ++ name) ≠ name := by
  by_cases htext : text = ""
  · obtain ⟨t, ts, hts⟩ := exists_cons_of_ne_nil (ne_nil_of_mem h)
    intro heq
    rw [htext, String.empty_append, show taken.length = ts.length + 1 by rw [hts]; rfl, freeName,
      if_pos (contains_iff_mem.mpr h)] at heq
    have hlength := length_le_freeName taken ts.length (name ++ "_")
    rw [heq, String.length_append] at hlength
    have : "_".length = 1 := rfl
    omega
  · exact freeName_append_ne htext taken taken.length name

theorem apply_map (f : String → String) (name : String) : ∀ names : List String,
    Renames.apply (names.map fun n => (n, f n)) name = if name ∈ names then f name else name
  | [] => rfl
  | n :: names => by
    have ih := apply_map f name names
    grind [Renames.apply]

theorem nameRenames_apply (name : String) :
    (nameRenames text p).apply name =
      if name ∈ valueNames p ++ renamableFunctions p ++ (structDefs p).map StructDef.name ∧
          Wgsl.isReserved name = true then
        freeName (valueNames p ++ renamableFunctions p)
          (valueNames p ++ renamableFunctions p).length (text ++ name)
      else name := by
  rw [nameRenames, apply_map]
  simp only [mem_eraseDups, mem_filter]

theorem memberRenames_apply (name : String) :
    (memberRenames text p).apply name =
      if (∃ d ∈ structDefs p, name ∈ d.members.map Member.name) ∧ Wgsl.isReserved name = true then
        text ++ name
      else name := by
  rw [memberRenames, apply_map]
  simp only [mem_eraseDups, mem_filter, mem_flatMap]

section Identity

variable {names members : Renames}

section

variable (h : ∀ n, names.apply n = n)
include h

theorem renameType_eq_self : ∀ t, renameType names t = t
  | .struct name => congrArg ShaderType.struct (h name)
  | .array elem length => by rw [renameType, renameType_eq_self elem]
  | .void | .scalar _ | .vector .. | .matrix .. | .sampler => rfl

theorem renameNode_eq_self (hm : ∀ n, members.apply n = n) (values functions : List String)
    (e : Expr) : renameNode names members values functions e = e := by
  cases e with
  | ident | call => rw [renameNode, h, ite_self]
  | construct => rw [renameNode, renameType_eq_self h]
  | field => rw [renameNode, hm, ite_self]
  | _ => rfl

theorem renameDecl_eq_self {onExpr : Expr → Expr} (hexpr : ∀ e, onExpr e = e) (d : VarDecl) :
    renameDecl names onExpr d = d := by
  have hinit : d.init.map onExpr = d.init := by
    rw [show onExpr = id from funext hexpr, Option.map_id_fun, id]
  rw [renameDecl, h, renameType_eq_self h, hinit]

theorem renameLocals_eq_self (s : Stmt) : renameLocals names s = s := by
  cases s with
  | decl ds =>
    rw [renameLocals, show renameDecl names id = id from
      funext (renameDecl_eq_self h fun _ => rfl), map_id]
  | _ => rfl

end

theorem mapTree_eq_self {f : Expr → Expr} {g : Stmt → Stmt} (hf : ∀ e, f e = e)
    (hg : ∀ s, g s = s) (s : Stmt) : s.mapTree f g = s := by
  obtain rfl : f = fun e => e := funext hf
  induction s using byChildren with
  | node s ih =>
    rw [mapTree_eq, hg, mapExprs_eq_mapRoles _ .void, mapRoles_id]
    exact mapChildren_eq_self ih

theorem renameItem_eq_self (h : ∀ n, names.apply n = n) (hm : ∀ n, members.apply n = n)
    {onExpr : Expr → Expr} (hexpr : ∀ e, onExpr e = e) (i : Item) :
    renameItem names members onExpr i = i := by
  cases i with
  | struct d =>
    have hmembers : (fun m : Member => Member.mk (members.apply m.name)
        (renameType names m.type)) = id := funext fun m => by rw [hm, renameType_eq_self h]; rfl
    rw [renameItem, h, hmembers, map_id]
  | globals ds =>
    rw [renameItem, show renameDecl names onExpr = id from funext (renameDecl_eq_self h hexpr),
      map_id]
  | function f =>
    have hparams : (fun p : Param => { p with
        name := names.apply p.name, type := renameType names p.type }) = id :=
      funext fun p => by rw [h, renameType_eq_self h]; rfl
    have hbody : mapTreeAll onExpr (renameLocals names) f.body = f.body := by
      rw [mapTreeAll_eq_map, show mapTree onExpr (renameLocals names) = id from
        funext (mapTree_eq_self hexpr (renameLocals_eq_self h)), map_id]
    rw [renameItem, h, ite_self, renameType_eq_self h, hparams, map_id, hbody]

end Identity

/-- The variables that one statement declares. -/
def declNames : Stmt → List String
  | .decl ds => ds.map VarDecl.name
  | _ => []

theorem localNames_eq_flatMap (body : List Stmt) :
    localNames body = body.flatMap fun s => s.substmts.flatMap declNames := by
  rw [localNames, substmtsAll_eq_flatMap, flatMap_assoc]
  rfl

theorem declNames_mapTree (names : Renames) (f : Expr → Expr) (s : Stmt) :
    (s.mapTree f (renameLocals names)).substmts.flatMap declNames =
      (s.substmts.flatMap declNames).map names.apply := by
  have hchildren : ∀ t : Stmt, (renameLocals names t).children = t.children := fun t => by
    cases t <;> rfl
  have hdecl : ∀ t : Stmt, declNames (renameLocals names t) = (declNames t).map names.apply :=
    fun t => by cases t <;> simp [renameLocals, renameDecl, declNames, Function.comp_def]
  have hexprs : ∀ t : Stmt, declNames (t.mapExprs f) = declNames t := fun t => by
    cases t <;> simp [mapExprs, declNames, Function.comp_def]
  have hinner : ∀ h (t : Stmt), declNames (t.mapChildren h) = declNames t := fun h t => by
    cases t <;> rfl
  induction s using byChildren with
  | node s ih =>
    rw [mapTree_eq, substmts_eq_cons, substmts_eq_cons s, flatMap_cons,
      flatMap_cons, hdecl, hexprs, hinner, hchildren, children_mapExprs,
      children_mapChildren, map_append, flatMap_assoc, flatMap_assoc,
      flatMap_map, map_flatMap]
    congr 1
    exact flatMap_congr ih

theorem localNames_mapTreeAll (names : Renames) (f : Expr → Expr) (body : List Stmt) :
    localNames (Stmt.mapTreeAll f (renameLocals names) body) =
      (localNames body).map names.apply := by
  rw [localNames_eq_flatMap, localNames_eq_flatMap, mapTreeAll_eq_map, flatMap_map,
    map_flatMap]
  exact flatMap_congr fun s _ => declNames_mapTree names f s

section Fixed

variable {names members : Renames} {onExpr : Expr → Expr} {p : Program}
  (h : ∀ i ∈ p.items, renameItem names members onExpr i = i)
include h

theorem apply_eq_of_renameItem_eq {n : String}
    (hn : n ∈ valueNames p ++ renamableFunctions p) : names.apply n = n := by
  have hmap : ∀ {ns : List String}, ns.map names.apply = ns → ∀ n ∈ ns, names.apply n = n :=
    map_eq_self_iff.mp
  rcases mem_append.mp hn with hn | hn
  · obtain ⟨i, hi, hn⟩ := mem_flatMap.mp hn
    have hitem := h i hi
    cases i with
    | struct => exact absurd hn not_mem_nil
    | globals ds =>
      refine hmap ?_ n hn
      have hds := congrArg (map VarDecl.name) (Item.globals.inj hitem)
      rw [map_map] at hds ⊢
      exact hds
    | function f =>
      have hf := Item.function.inj hitem
      rcases mem_append.mp hn with hn | hn
      · refine hmap ?_ n hn
        have hparams := congrArg (fun f : Function => f.params.map Param.name) hf
        dsimp only at hparams
        rw [map_map] at hparams ⊢
        exact hparams
      · refine hmap ?_ n hn
        have hbody := congrArg (fun f : Function => localNames f.body) hf
        dsimp only at hbody
        rw [localNames_mapTreeAll] at hbody
        exact hbody
  · obtain ⟨f, hf, rfl⟩ := mem_map.mp hn
    obtain ⟨hf, hkeeps⟩ := mem_filter.mp hf
    obtain ⟨i, hi, hfun⟩ := mem_filterMap.mp hf
    cases i with
    | function g =>
      obtain rfl : g = f := Option.some.inj hfun
      have hname := congrArg Function.name (Item.function.inj (h _ hi))
      dsimp only at hname
      rw [if_neg (by simpa using hkeeps)] at hname
      exact hname
    | struct | globals => cases hfun

theorem apply_struct_eq_of_renameItem_eq {d : StructDef} (hd : d ∈ structDefs p) :
    names.apply d.name = d.name ∧ ∀ m ∈ d.members, members.apply m.name = m.name := by
  obtain ⟨i, hi, hstruct⟩ := mem_filterMap.mp hd
  cases i with
  | struct d' =>
    obtain rfl : d' = d := Option.some.inj hstruct
    have heq := Item.struct.inj (h _ hi)
    have hmembers := congrArg (fun d : StructDef => d.members.map Member.name) heq
    dsimp only at hmembers
    rw [map_map] at hmembers
    exact ⟨congrArg StructDef.name heq, map_inj_left.mp hmembers⟩
  | globals | function => cases hstruct

end Fixed

theorem renameReserved_eq_self_iff_items :
    (renameReserved st p b).1 = p ↔ ∀ i ∈ p.items,
      renameItem (nameRenames st.options.renamePrefix p) (memberRenames st.options.renamePrefix p)
        (Expr.mapNodes (renameNode (nameRenames st.options.renamePrefix p)
          (memberRenames st.options.renamePrefix p) (valueNames p) (renamableFunctions p))) i = i := by
  unfold renameReserved
  dsimp only
  generalize nameRenames st.options.renamePrefix p = names
  generalize memberRenames st.options.renamePrefix p = members
  by_cases hempty : (names.isEmpty && members.isEmpty) = true
  · rw [if_pos hempty]
    rw [Bool.and_eq_true, List.isEmpty_iff, List.isEmpty_iff] at hempty
    obtain ⟨rfl, rfl⟩ := hempty
    refine iff_of_true rfl fun i _ => renameItem_eq_self (fun _ => rfl) (fun _ => rfl) (fun e => ?_) i
    exact Expr.mapNodes_eq_self fun x _ => renameNode_eq_self (fun _ => rfl) (fun _ => rfl) _ _ x
  · rw [if_neg hempty]
    constructor
    · intro h
      exact map_eq_self_iff.mp (congrArg Program.items h)
    · intro h
      exact congrArg Program.mk (map_eq_self_iff.mpr h)

/-- **The pass leaves a program as it is exactly if nothing that it would rename is reserved.** -/
theorem renameReserved_eq_self_iff :
    (renameReserved st p b).1 = p ↔ ReservedFree st.options.renamePrefix p := by
  rw [renameReserved_eq_self_iff_items]
  generalize st.options.renamePrefix = text
  constructor
  · intro h
    refine ⟨fun n hn => ?_, fun htext d hd => ?_⟩
    · have happly := apply_eq_of_renameItem_eq h hn
      rw [nameRenames_apply] at happly
      by_contra hreserved
      rw [Bool.not_eq_false] at hreserved
      rw [if_pos ⟨mem_append_left _ hn, hreserved⟩] at happly
      exact freeName_ne_of_mem text hn happly
    · obtain ⟨hname, hmembers⟩ := apply_struct_eq_of_renameItem_eq h hd
      rw [nameRenames_apply] at hname
      refine ⟨?_, fun m hm => ?_⟩
      · by_contra hreserved
        rw [Bool.not_eq_false] at hreserved
        rw [if_pos ⟨mem_append_right _ (mem_map_of_mem hd), hreserved⟩] at hname
        exact freeName_append_ne htext _ _ _ hname
      · have hmember := hmembers m hm
        rw [memberRenames_apply] at hmember
        by_contra hreserved
        rw [Bool.not_eq_false] at hreserved
        rw [if_pos ⟨⟨d, hd, mem_map_of_mem hm⟩, hreserved⟩] at hmember
        exact freeName_append_ne htext [] 0 m.name hmember
  · intro ⟨hnames, hstructs⟩ i hi
    have happly : ∀ n, (nameRenames text p).apply n = n := by
      intro n
      rw [nameRenames_apply]
      split
      · rename_i hcond
        obtain ⟨hn, hreserved⟩ := hcond
        have hfree : n ∉ valueNames p ++ renamableFunctions p := fun hn =>
          Bool.false_ne_true ((hnames n hn).symm.trans hreserved)
        obtain ⟨d, hd, rfl⟩ := mem_map.mp ((mem_append.mp hn).resolve_left hfree)
        by_cases htext : text = ""
        · rw [htext, String.empty_append, freeName_of_not_mem hfree]
        · exact absurd ((hstructs htext d hd).1.symm.trans hreserved) Bool.false_ne_true
      · rfl
    have hmember : ∀ n, (memberRenames text p).apply n = n := by
      intro n
      rw [memberRenames_apply]
      split
      · rename_i hcond
        obtain ⟨⟨d, hd, hn⟩, hreserved⟩ := hcond
        by_cases htext : text = ""
        · rw [htext, String.empty_append]
        · obtain ⟨m, hm, rfl⟩ := mem_map.mp hn
          exact absurd (((hstructs htext d hd).2 m hm).symm.trans hreserved) Bool.false_ne_true
      · rfl
    refine renameItem_eq_self happly hmember (fun e => ?_) i
    exact Expr.mapNodes_eq_self fun x _ => renameNode_eq_self happly hmember _ _ x

end ShaderEffect.Lowering
