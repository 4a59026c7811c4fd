import ShaderEffect.Proofs.Lowering.Call.Naming
import ShaderEffect.Proofs.Wgsl.Reserved

/-!
# Where calls end up

The passes bring calls of built-in functions into a program before they rename what it declares. So a
call of a built-in function reaches it exactly if the program declares no function that captures the
call; otherwise it becomes a call of that function, like the calls that the program had.
-/

namespace ShaderEffect.Lowering

open List

variable {i k : Nat} {name m : String} {f : Function} {p : Program}
variable (st : Setting) (text : String)

/-- A call of `n` with `k` arguments finds a function of the program: one that has the name for itself,
or one of those that share it, if it takes as many arguments. -/
def Captures (p : Program) (n : String) (k : Nat) : Prop :=
  n ≠ "main" ∧ ∃ f ∈ p.functions, f.name = n ∧
    (isOverloaded p.functionNames f = true → f.params.length = k)

/-- The function `f` of one program has become the function `g` of another one. -/
def Became (u v : Program) (f g : Function) : Prop :=
  ∃ i : Nat, u.functions[i]? = some f ∧ v.functions[i]? = some g

/-- What becomes of the name of a call: if a function captures it, the name that such a function has
now. Otherwise it stays, unless it happens to be the name that a function got to itself. -/
def Called (u v : Program) (n : String) (k : Nat) (n' : String) : Prop :=
  (n ≠ "main" ∧ ∃ f g, Became u v f g ∧ f.name = n ∧
      (isOverloaded u.functionNames f = true → f.params.length = k) ∧ g.name = n') ∨
    (¬ Captures u n k ∧ (n' = n ∨
      ∃ f g, Became u v f g ∧ isOverloaded u.functionNames f = true ∧ ownName f = n ∧ g.name = n'))

/-! ## Names that change -/

theorem freeName_eq (taken : List String) : ∀ (fuel : Nat) (name : String),
    ∃ n, (freeName taken fuel name).toList = name.toList ++ List.replicate n '_'
  | 0, name => ⟨0, by simp [freeName]⟩
  | fuel + 1, name => by
    rw [freeName]
    split
    · obtain ⟨n, hn⟩ := freeName_eq taken fuel (name ++ "_")
      refine ⟨n + 1, ?_⟩
      rw [hn, String.toList_append, append_assoc, replicate_succ]
      rfl
    · exact ⟨0, by simp⟩

theorem isReserved_of_append_eq_main {text : String} (h : text ++ name = "main") :
    Wgsl.isReserved name = false := by
  have hlist : text.toList ++ name.toList = "main".toList := by
    rw [← String.toList_append, h]
  have hname : name = String.ofList ("main".toList.drop text.toList.length) := by
    rw [← hlist, drop_left, String.ofList_toList]
  have hlength : text.toList.length < 5 := by
    grind [length_append]
  have hall : ∀ n < 5, Wgsl.isReserved (String.ofList ("main".toList.drop n)) = false := by
    decide
  rw [hname]
  exact hall _ hlength

theorem apply_ne_main (p : Program) (h : name ≠ "main") :
    (nameRenames text p).apply name ≠ "main" := by
  rw [nameRenames_apply]
  split
  · rename_i hreserved
    intro heq
    obtain ⟨n, hn⟩ := freeName_eq (valueNames p ++ renamableFunctions p)
      (valueNames p ++ renamableFunctions p).length (text ++ name)
    rw [heq] at hn
    cases n with
    | zero =>
      rw [replicate_zero, append_nil] at hn
      have hfalse := isReserved_of_append_eq_main (String.toList_injective hn).symm
      rw [hreserved.2] at hfalse
      cases hfalse
    | succ n =>
      have hmem : '_' ∈ "main".toList := by
        rw [hn]
        simp
      revert hmem
      decide
  · exact h

theorem length_le_apply (p : Program) (name : String) :
    name.length ≤ ((nameRenames text p).apply name).length := by
  grind [nameRenames_apply, length_le_freeName, String.length_append]

theorem apply_ne_self (h : name ∈ renamableFunctions p) (hreserved : Wgsl.isReserved name = true) :
    (nameRenames text p).apply name ≠ name := by
  grind [nameRenames_apply, freeName_ne_of_mem]

theorem underscore_mem_ownName (f : Function) : '_' ∈ (ownName f).toList := by
  simp [ownName]

theorem ownName_ne_main (f : Function) : ownName f ≠ "main" := by
  intro h
  have hmem := underscore_mem_ownName f
  rw [h] at hmem
  revert hmem
  decide

theorem length_lt_ownName (f : Function) : f.name.length < (ownName f).length := by
  simp only [ownName, String.length_append]
  have : "_".length = 1 := rfl
  omega

/-! ## Functions from pass to pass -/

theorem functionNames_of_bare {q : Program} (h : p.functions.map bare = q.functions.map bare) :
    p.functionNames = q.functionNames := by
  have hnames := congrArg (map Function.name) h
  rwa [map_map, map_map] at hnames

/-- The passes between those that bring in calls and the one that moves reserved names. -/
def latePasses : List Pass :=
  [.overloads, .parameters, .hostNames]

/-- The passes from the one that moves reserved names on. -/
def lastPasses : List Pass :=
  [.reservedNames, .globalInits, .entryPoint]

theorem title_runPasses {passes : List Pass} (h : passes ⊆ earlyPasses) (p : Program) (s : State) :
    (runPasses st (passes ++ latePasses) p s).1.functions.map title =
      p.functions.map (ownTitle p.functionNames) := by
  have hbare := bare_runPasses st h p s
  rw [runPasses_append, latePasses, runPasses_cons, runPasses_cons, runPasses_cons]
  simp only [Pass.apply]
  generalize runPasses st passes p s = r at hbare
  calc (bindHostNames st _ _).1.functions.map title
    _ = (lowerParameters st _ _).1.functions.map title := title_bindHostNames st _ _
    _ = (separateOverloads st _ _).1.functions.map title := title_lowerParameters st _ _
    _ = r.1.functions.map (ownTitle r.1.functionNames) := title_separateOverloads st _ _
    _ = (r.1.functions.map bare).map (ownTitle r.1.functionNames) := by rw [map_map]; rfl
    _ = p.functions.map (ownTitle p.functionNames) := by
      rw [hbare, functionNames_of_bare hbare, map_map]
      rfl

theorem getElem?_lastPasses {q : Program} (b : State) (h : q.functions[i]? = some f)
    (hf : keepsName f = false) :
    ∃ g, (runPasses st lastPasses q b).1.functions[i]? = some g ∧
      g.name = (nameRenames st.options.renamePrefix q).apply f.name := by
  have hnames := names_renameReserved st q b
  rw [lastPasses, runPasses_cons, runPasses_cons, runPasses_cons]
  simp only [Pass.apply]
  generalize renameReserved st q b = r at hnames
  have hget := congrArg (fun l => l[i]?) hnames
  simp only [getElem?_map, h, Option.map_some, hf, Bool.false_eq_true, if_false] at hget
  obtain ⟨g, hg, hname⟩ := Option.map_eq_some_iff.mp hget
  have hmain : g.name ≠ "main" := by
    grind [apply_ne_main, keepsName]
  have hinits : (deferInitialValues st r.1 r.2).1.functions = r.1.functions :=
    functions_deferItems _ _ _ _
  refine ⟨g, getElem?_makeEntryPoint st _ ?_ hmain, hname⟩
  rw [hinits]
  exact hg

/-! ## Calls from pass to pass -/

theorem passFollows_early {pass : Pass} (h : pass ∈ earlyPasses) :
    PassFollows Same Introduced (pass.apply st) := by
  simp only [earlyPasses, mem_cons, not_mem_nil, or_false] at h
  rcases h with rfl | rfl | rfl | rfl | rfl | rfl | rfl | rfl
  · exact passFollows_splitDeclarations st
  · exact passFollows_normaliseLanes st
  · exact passFollows_lowerConditionals st
  · exact passFollows_lowerControlFlow st
  · exact passFollows_lowerLaneAssignments st
  · exact passFollows_insertConversions st
  · exact passFollows_lowerOperations st
  · exact passFollows_lowerSampling st

theorem resolved_congr {fs gs : List Function} (h : fs.map bare = gs.map bare) {n : String}
    (hm : Resolved fs n k m) : Resolved gs n k m := by
  have hnames : fs.map Function.name = gs.map Function.name := by
    have hnames := congrArg (map Function.name) h
    rwa [map_map, map_map] at hnames
  have hmem : ∀ {xs ys : List Function}, xs.map bare = ys.map bare → ∀ f ∈ xs, ∃ g ∈ ys,
      bare g = bare f := fun h f hf =>
    mem_map.mp (h ▸ mem_map_of_mem (f := bare) hf)
  rcases hm with ⟨f, hf, hover, hname, hparams, hown⟩ | ⟨rfl, hnone⟩
  · obtain ⟨g, hg, hbare⟩ := hmem h f hf
    refine .inl ⟨g, hg, ?_, ?_, ?_, ?_⟩
    · grind [isOverloaded, bare]
    · show (bare g).name = n
      rw [hbare]
      exact hname
    · show (bare g).params.length = k
      rw [hbare]
      exact hparams
    · show m = ownName (bare g)
      rw [hbare]
      exact hown
  · refine .inr ⟨rfl, fun g hg hover hname => ?_⟩
    grind [isOverloaded, bare]

theorem follows_runPasses_late {passes : List Pass} (h : passes ⊆ earlyPasses) (p : Program)
    (s : State) :
    (runPasses st (passes ++ latePasses) p s).2.deferred = s.deferred ∧
      ∀ e ∈ (runPasses st (passes ++ latePasses) p s).1.evaluated,
        Follows (Resolved p.functions) (fun n k => ∃ b, Introduced b k ∧ Resolved p.functions b k n)
          p.evaluated e := by
  obtain ⟨hdeferred, hearly⟩ :=
    passFollows_runPasses (fun pass hpass => passFollows_early st (h hpass)) p s
  have hbare := bare_runPasses st h p s
  rw [runPasses_append, latePasses, runPasses_cons, runPasses_cons, runPasses_cons]
  simp only [Pass.apply]
  generalize runPasses st passes p s = r at hdeferred hearly hbare
  obtain ⟨hdeferred₁, hover⟩ := follows_separateOverloads st r.1 r.2
  generalize separateOverloads st r.1 r.2 = r₁ at hdeferred₁ hover
  obtain ⟨hdeferred₂, hparam⟩ := passFollows_lowerParameters (fun _ _ => False) st r₁.1 r₁.2
  generalize lowerParameters st r₁.1 r₁.2 = r₂ at hdeferred₂ hparam
  obtain ⟨hdeferred₃, hhost⟩ := passFollows_bindHostNames st r₂.1 r₂.2
  refine ⟨hdeferred₃.trans (hdeferred₂.trans (hdeferred₁.trans hdeferred)), fun e he => ?_⟩
  have hlate : Follows (Resolved r.1.functions) (fun _ _ => False) r.1.evaluated e :=
    .keep (fun x hx => .keep hover (hparam x hx)) (hhost e he)
  refine (Follows.trans hearly hlate).weaken ?_ ?_
  · rintro n k n' ⟨m, rfl, hm⟩
    exact resolved_congr hbare hm
  · rintro n k (hn | ⟨b, hb, hm⟩)
    · exact hn.elim
    · exact ⟨b, hb, resolved_congr hbare hm⟩

theorem follows_runPasses_last (p : Program) {s : State} (hs : s.deferred = []) :
    ∀ e ∈ (runPasses st lastPasses p s).1.evaluated,
      Follows (Moved st p) (fun n k => n = "mainImage" ∧ k = 2) p.evaluated e := by
  obtain ⟨hdeferred, hmoved⟩ := follows_renameReserved st p s
  rw [lastPasses, runPasses_cons, runPasses_cons, runPasses_cons]
  simp only [Pass.apply]
  generalize renameReserved st p s = r at hdeferred hmoved
  have hinits := follows_deferInitialValues (fun n k => n = "mainImage" ∧ k = 2) st r.1 r.2
  have hpending : pending r.1 r.2 = r.1.evaluated := by
    rw [pending, hdeferred, hs, flatMap_nil, append_nil]
  rw [hpending] at hinits
  have hmoved' : ∀ x ∈ r.1.evaluated,
      Follows (Moved st p) (fun n k => n = "mainImage" ∧ k = 2) p.evaluated x := fun x hx =>
    (hmoved x hx).weaken (fun _ _ _ h => h) (fun _ _ h => h.elim)
  intro e he
  exact .keep (fun x hx => .keep hmoved' (hinits x hx))
    (follows_makeEntryPoint ⟨rfl, rfl⟩ st _ _ e he)

/-! ## Names of calls and of functions -/

section Names

variable (st : Setting) {u q : Program} (b : State)

theorem became_moved (hu : ∀ f ∈ u.functions, f.isEntry = false)
    (hq : q.functions.map title = u.functions.map (ownTitle u.functionNames))
    (hf : u.functions[i]? = some f) (hmain : (ownTitle u.functionNames f).1 ≠ "main") :
    (ownTitle u.functionNames f).1 ∈ renamableFunctions q ∧
      ∃ g, (runPasses st lastPasses q b).1.functions[i]? = some g ∧
        g.name = movedName st q (ownTitle u.functionNames f).1 := by
  have hget := congrArg (fun l => l[i]?) hq
  simp only [getElem?_map, hf, Option.map_some] at hget
  obtain ⟨h, hh, htitle⟩ := Option.map_eq_some_iff.mp hget
  have hname : h.name = (ownTitle u.functionNames f).1 := congrArg Prod.fst htitle
  have hentry : h.isEntry = false :=
    (congrArg Prod.snd htitle).trans (hu f (mem_of_getElem? hf))
  have hkeeps : keepsName h = false := by
    grind [keepsName]
  have hmem : (ownTitle u.functionNames f).1 ∈ renamableFunctions q := by
    rw [← hname]
    refine mem_map_of_mem (mem_filter.mpr ⟨mem_of_getElem? hh, ?_⟩)
    rw [hkeeps]
    rfl
  obtain ⟨g, hg, hgname⟩ := getElem?_lastPasses st b hh hkeeps
  refine ⟨hmem, g, hg, ?_⟩
  rw [hgname, hname, movedName, if_pos (contains_iff_mem.mpr hmem)]

theorem exists_of_mem_renamable
    (hq : q.functions.map title = u.functions.map (ownTitle u.functionNames))
    (h : m ∈ renamableFunctions q) :
    m ≠ "main" ∧ ∃ (i : Nat) (f : Function), u.functions[i]? = some f ∧ (ownTitle u.functionNames f).1 = m := by
  obtain ⟨g, hg, rfl⟩ := mem_map.mp h
  obtain ⟨hg, hkeeps⟩ := mem_filter.mp hg
  refine ⟨fun heq => ?_, ?_⟩
  · rw [keepsName, heq] at hkeeps
    simp at hkeeps
  · have htitle : title g ∈ u.functions.map (ownTitle u.functionNames) :=
      hq ▸ mem_map_of_mem hg
    obtain ⟨f, hf, heq⟩ := mem_map.mp htitle
    obtain ⟨i, hi⟩ := mem_iff_getElem?.mp hf
    exact ⟨i, f, hi, congrArg Prod.fst heq⟩

theorem ownTitle_of_overloaded {names : List String} (h : isOverloaded names f = true) :
    (ownTitle names f).1 = ownName f := by
  simp [ownTitle, h]

theorem ownTitle_of_not_overloaded {names : List String} (h : isOverloaded names f = false) :
    (ownTitle names f).1 = f.name := by
  simp [ownTitle, h]

variable (hu : ∀ f ∈ u.functions, f.isEntry = false)
include hu

variable (hq : q.functions.map title = u.functions.map (ownTitle u.functionNames))
include hq

theorem called_of_resolved {n : String} (hm : Resolved u.functions n k m) :
    Called u (runPasses st lastPasses q b).1 n k (movedName st q m) := by
  rcases hm with ⟨f, hf, hover, hname, hparams, rfl⟩ | ⟨rfl, hnone⟩
  · -- one of several functions of the name takes the call
    obtain ⟨i, hi⟩ := mem_iff_getElem?.mp hf
    have hown := ownTitle_of_overloaded hover
    obtain ⟨-, g, hg, hgname⟩ := became_moved st b hu hq hi
      (hown ▸ ownName_ne_main f)
    refine .inl ⟨?_, f, g, ⟨i, hi, hg⟩, hname, fun _ => hparams, ?_⟩
    · rw [isOverloaded, Bool.and_eq_true, bne_iff_ne] at hover
      exact hname ▸ hover.2
    · rw [hgname]
      exact congrArg (movedName st q) hown
  · by_cases hcaptured : Captures u m k
    · -- the function has the name for itself
      obtain ⟨hmain, f, hf, hname, hparams⟩ := hcaptured
      have hover : isOverloaded u.functionNames f = false :=
        Bool.eq_false_iff.mpr fun hover => hnone f hf hover hname (hparams hover)
      have hown := (ownTitle_of_not_overloaded hover).trans hname
      obtain ⟨i, hi⟩ := mem_iff_getElem?.mp hf
      obtain ⟨-, g, hg, hgname⟩ := became_moved st b hu hq hi (hown ▸ hmain)
      refine .inl ⟨hmain, f, g, ⟨i, hi, hg⟩, hname, hparams, ?_⟩
      rw [hgname]
      exact congrArg (movedName st q) hown
    · refine .inr ⟨hcaptured, ?_⟩
      by_cases hmem : m ∈ renamableFunctions q
      · -- only a function that got the name to itself can move it
        obtain ⟨hmain, i, f, hi, hown⟩ := exists_of_mem_renamable hq hmem
        obtain ⟨-, g, hg, hgname⟩ := became_moved st b hu hq hi (hown ▸ hmain)
        by_cases hover : isOverloaded u.functionNames f = true
        · refine .inr ⟨f, g, ⟨i, hi, hg⟩, hover, (ownTitle_of_overloaded hover).symm.trans hown, ?_⟩
          rw [hgname]
          exact congrArg (movedName st q) hown
        · have hname := (ownTitle_of_not_overloaded (Bool.eq_false_iff.mpr hover)).symm.trans hown
          exact absurd ⟨hmain, f, mem_of_getElem? hi, hname, fun h => absurd h hover⟩ hcaptured
      · left
        rw [movedName, if_neg (by rwa [contains_iff_mem])]

theorem exists_became (hf : u.functions[i]? = some f) (hmain : f.name ≠ "main") :
    ∃ g, (runPasses st lastPasses q b).1.functions[i]? = some g := by
  have hne : (ownTitle u.functionNames f).1 ≠ "main" := by
    grind [ownTitle_of_overloaded, ownName_ne_main, ownTitle_of_not_overloaded]
  obtain ⟨-, g, hg, -⟩ := became_moved st b hu hq hf hne
  exact ⟨g, hg⟩

theorem name_ne_of_became {g : Function} (hg : Became u (runPasses st lastPasses q b).1 f g)
    (hmain : f.name ≠ "main") (hreserved : Wgsl.isReserved f.name = true) : g.name ≠ f.name := by
  obtain ⟨i, hi, hgi⟩ := hg
  by_cases hover : isOverloaded u.functionNames f = true
  · -- the name of its own is longer, and stays so
    have hown := ownTitle_of_overloaded hover
    obtain ⟨hmem, g', hg', hname⟩ := became_moved st b hu hq hi
      (hown ▸ ownName_ne_main f)
    obtain rfl : g = g' := Option.some.inj (hgi.symm.trans hg')
    rw [hown] at hname hmem
    rw [movedName, if_pos (contains_iff_mem.mpr hmem)] at hname
    intro heq
    have hlength := length_le_apply st.options.renamePrefix q (ownName f)
    rw [← hname, heq] at hlength
    exact absurd hlength (Nat.not_le_of_lt (length_lt_ownName f))
  · have hown := ownTitle_of_not_overloaded (Bool.eq_false_iff.mpr hover)
    obtain ⟨hmem, g', hg', hname⟩ := became_moved st b hu hq hi (hown ▸ hmain)
    obtain rfl : g = g' := Option.some.inj (hgi.symm.trans hg')
    rw [hown] at hname hmem
    rw [hname, movedName, if_pos (contains_iff_mem.mpr hmem)]
    exact apply_ne_self _ hmem hreserved

end Names

/-! ## All passes -/

theorem isReserved_helper (h : name.toList.take 4 = ['i', 's', 'f', '_']) :
    Wgsl.isReserved name = false := by
  grind [Wgsl.isReserved_cases, Wgsl.words_apart, prefix_iff_eq_take]

theorem isReserved_bitcast (type : ShaderType) :
    Wgsl.isReserved ("bitcast<" ++ type.wgsl ++ ">") = false := by
  have hlist : ("bitcast<" ++ type.wgsl ++ ">").toList =
      'b' :: ('i' :: 't' :: 'c' :: 'a' :: 's' :: 't' :: '<' :: (type.wgsl ++ ">").toList) := by
    rw [String.append_assoc, String.toList_append]
    rfl
  by_contra hne
  rcases Wgsl.isReserved_cases (Bool.eq_true_of_not_eq_false hne) with hprefix | hword
  · rw [hlist] at hprefix
    simp [isPrefixOf] at hprefix
  · refine (Wgsl.words_apart hword).2 ?_
    rw [hlist]
    simp

theorem underscore_not_mem_of_introduced {b : String} (h : Introduced b k)
    (hreserved : Wgsl.isReserved b = true) : '_' ∉ b.toList := by
  cases h with
  | bitcast type =>
    rw [isReserved_bitcast] at hreserved
    cases hreserved
  | vectorMod n =>
    rw [isReserved_helper (by rw [String.toList_append]; rfl)] at hreserved
    cases hreserved
  | scalarMod | flipY | flipTexel =>
    rw [isReserved_helper (by decide)] at hreserved
    cases hreserved
  | _ => decide

/-- The calls that are in the program at the end without having been there before: those that passes
brought in, named like all calls, and the call of `mainImage` in an entry point. -/
def Reached (u v : Program) (n : String) (k : Nat) : Prop :=
  (n = "mainImage" ∧ k = 2) ∨ ∃ b, Introduced b k ∧ Called u v b k n

theorem isEntry_early (hp : ∀ f ∈ p.functions, f.isEntry = false) (hi : i ≤ 8) :
    ∀ f ∈ (runPasses st (Pass.all.take i) p {}).1.functions, f.isEntry = false := by
  have hearly : ∀ i ≤ 8, Pass.all.take i ⊆ earlyPasses := by decide
  grind [bare, bare_runPasses, mem_map_of_mem]

theorem exists_separated (p : Program) (hi : i ≤ 8) :
    let u := (runPasses st (Pass.all.take i) p {}).1
    ∃ q b, q.functions.map title = u.functions.map (ownTitle u.functionNames) ∧
      (∀ e ∈ q.evaluated, Follows (Resolved u.functions)
        (fun n k => ∃ b, Introduced b k ∧ Resolved u.functions b k n) u.evaluated e) ∧
      b.deferred = [] ∧ (runPasses st Pass.all p {}).1 = (runPasses st lastPasses q b).1 := by
  have hsplit : ∀ i ≤ 8, Pass.all =
      Pass.all.take i ++ ((earlyPasses.drop i ++ latePasses) ++ lastPasses) := by decide
  have hearly : ∀ i ≤ 8, Pass.all.take i ⊆ earlyPasses := by decide
  have hall : runPasses st Pass.all p {} = runPasses st
      (Pass.all.take i ++ ((earlyPasses.drop i ++ latePasses) ++ lastPasses)) p {} := by
    rw [← hsplit i hi]
  grind [runPasses_append, follows_runPasses_late, title_runPasses]

/-- **Which function each call reaches.** Take a program after any of the passes that bring in calls,
and what all passes make of it. Each of its functions but `main` is still there, under another name if
its name is reserved. Every call comes from a call of the program, or from one that a later pass brought
in, and has the name of the function that captures that call, or else its own. So a call of a built-in
function, whichever pass wrote it, keeps that name exactly if no function captures it. -/
theorem follows_called (st : Setting) (p : Program) (hp : ∀ f ∈ p.functions, f.isEntry = false)
    (i : Nat) (hi : i ≤ 8) :
    let u := (runPasses st (Pass.all.take i) p {}).1
    let v := (runPasses st Pass.all p {}).1
    (∀ f ∈ u.functions, f.name ≠ "main" →
        ∃ g, Became u v f g ∧ (Wgsl.isReserved f.name = true → g.name ≠ f.name)) ∧
      (∀ e ∈ v.evaluated, Follows (Called u v) (Reached u v) u.evaluated e) ∧
      ∀ b k n, Introduced b k → Wgsl.isReserved b = true → Called u v b k n →
        (n = b ↔ ¬ Captures u b k) := by
  obtain ⟨q, b, hq, hcalls, hnothing, hv⟩ := exists_separated st p hi
  have hu := isEntry_early st hp hi
  rw [hv]
  generalize (runPasses st (Pass.all.take i) p {}).1 = u at hq hcalls hu
  have hcalled : ∀ {n k m}, Resolved u.functions n k m →
      Called u (runPasses st lastPasses q b).1 n k (movedName st q m) := called_of_resolved st b hu hq
  refine ⟨fun f hf hmain => ?_, fun e he => ?_, fun n k n' hn hreserved hcall => ?_⟩
  · obtain ⟨j, hj⟩ := mem_iff_getElem?.mp hf
    obtain ⟨g, hg⟩ := exists_became st b hu hq hj hmain
    exact ⟨g, ⟨j, hj, hg⟩, name_ne_of_became st b hu hq ⟨j, hj, hg⟩ hmain⟩
  · refine (Follows.trans hcalls (follows_runPasses_last st q hnothing e he)).weaken ?_ ?_
    · rintro n k n' ⟨m, hm, rfl⟩
      exact hcalled hm
    · rintro n k (hn | ⟨m, ⟨b, hb, hm⟩, rfl⟩)
      · exact .inl hn
      · exact .inr ⟨b, hb, hcalled hm⟩
  · rcases hcall with ⟨hmain, f, g, hg, rfl, hparams, rfl⟩ | ⟨hcaptured, rfl | ⟨f, g, -, -, rfl, -⟩⟩
    · have hne := name_ne_of_became st b hu hq hg hmain hreserved
      obtain ⟨j, hj, -⟩ := hg
      exact iff_of_false hne (not_not_intro ⟨hmain, f, mem_of_getElem? hj, rfl, hparams⟩)
    · exact iff_of_true rfl hcaptured
    · exact absurd (underscore_mem_ownName f) (underscore_not_mem_of_introduced hn hreserved)

/-- A function `select` beside a conditional expression. -/
def selectProgram : Program where
  items := [
    .function {
      name := "select", returns := .scalar .float
      params := [⟨"a", .scalar .float, .value⟩, ⟨"b", .scalar .float, .value⟩, ⟨"c", .scalar .bool, .value⟩]
      body := [.ret (some (.ident "a"))], isEntry := false },
    .function {
      name := "main", returns := .void, params := []
      body := [.decl [.var "x" (.scalar .float)
        (some (.conditional (.bool true) (.float "1.0") (.float "2.0")))]]
      isEntry := false }]

theorem follows_called_select :
    let st : Setting := { options := {}, header := {}, layout := {} }
    let u := (runPasses st (Pass.all.take 3) selectProgram {}).1
    let v := (runPasses st Pass.all selectProgram {}).1
    Captures u "select" 3 ∧ v.functionNames = ["isf_select", Wgsl.entryPoint] ∧
      (∀ e ∈ v.evaluated, Follows (Called u v) (Reached u v) u.evaluated e) ∧
      ∀ n, Called u v "select" 3 n → n ≠ "select" := by
  have hp : ∀ f ∈ selectProgram.functions, f.isEntry = false := by decide
  intro st u v
  obtain ⟨-, hfollows, hbuiltin⟩ := follows_called st selectProgram hp 3 (by decide)
  have hcaptures : Captures u "select" 3 := ⟨by decide, by decide +kernel⟩
  refine ⟨hcaptures, by decide +kernel, hfollows, fun n hn heq => ?_⟩
  exact (hbuiltin "select" 3 n .select (by decide) hn).mp heq hcaptures

end ShaderEffect.Lowering
