import ShaderEffect.Proofs.Lowering.Probe

/-!
# Inputs that are dropped for a field of the host

An input with the name of a host field is dropped from the layout, but the header still lists it, and
the passes look there for types, truth values and images: a read of a float field of the host is
compared with zero, if a dropped input of its name was a truth value (`emitted_ne_without_time`).
`Harmless` says what a dropped input must be like so that no pass finds out about it. **The header
with the input and the header without it give all programs the same text exactly if the input is
harmless** (`emitted_without_iff`).

In one direction the two settings agree in all that the passes read (`agrees_without`). In the other,
each way of doing harm shows in the text of a program of one expression.
-/

namespace ShaderEffect

open Layout List

/-- The header without the first input of the given name. -/
def Header.without (h : Header) (name : String) : Header :=
  { h with inputs := Layout.without h.inputs name }

namespace Lowering

variable {name : String}

/-- The setting in which an effect is compiled. -/
def Setting.ofHeader (options : Options) (header : Header) : Setting :=
  { options, header, layout := (analyze header.inputs options.renamePrefix).1 }

/-- The text of a program that is lowered for a header. -/
def emitted (options : Options) (header : Header) (p : Program) : Except Survivor String :=
  (lower (.ofHeader options header) p).1.map Program.wgsl

/-! ## What is read of the inputs of one name -/

theorem inputType_isSome (kind : InputKind) : (Setting.inputType kind).isSome = true := by
  cases kind <;> rfl

theorem lookup_inputTypes (inputs : List Input) (name : String) :
    (Setting.inputTypes inputs).reverse.lookup name =
      (named inputs name).getLast?.bind fun i => Setting.inputType i.kind := by
  induction inputs with
  | nil => rfl
  | cons i is ih =>
    obtain ⟨type, htype⟩ := Option.isSome_iff_exists.mp (inputType_isSome i.kind)
    have hcons : Setting.inputTypes (i :: is) = (i.name, type) :: Setting.inputTypes is := by
      simp [Setting.inputTypes, htype]
    rw [hcons, reverse_cons, lookup_append, ih]
    grind [named, Option.isSome_iff_exists, inputType_isSome]

theorem contains_booleanInputs (st : Setting) (name : String) :
    st.booleanInputs.contains name =
      (named st.header.inputs name).any fun i => i.kind.isBoolean := by
  grind [Setting.booleanInputs, named]

/-- The type of a name that the given inputs have: theirs comes before that of a host field. -/
def typeAmong (passes : List RenderPass) (name : String) (same : List Input) : Option ShaderType :=
  (((Setting.fragmentTypes.lookup name).or
    (same.getLast?.bind fun i => Setting.inputType i.kind)).or
      (Setting.builtinTypes.lookup name)).or ((Setting.passTypes passes).lookup name)

theorem lookup_hostTypes (st : Setting) (name : String) :
    st.hostTypes.lookup name =
      typeAmong st.header.passes name (named st.header.inputs name) := by
  grind [Setting.hostTypes, lookup_inputTypes, typeAmong]

theorem input?_eq_head? (header : Header) (name : String) :
    header.input? name = (named header.inputs name).head? := by
  rw [Header.input?, named, head?_filter]

theorem head?_names_of_passIndex? {header : Header} (hname : name ∈ hostNames) {index : Nat}
    (hindex : header.passIndex? name = some index) :
    (header.passes[index]?.bind fun pass => (pass.names index).head?) = some name := by
  obtain ⟨found, hfound, rfl⟩ := Option.map_eq_some_iff.mp hindex
  have hpass : header.passes[found.2]? = some found.1 :=
    mem_zipIdx_iff_getElem?.mp (mem_of_find?_eq_some hfound)
  have hcontains := find?_some hfound
  have hnames : name ∈ found.1.names found.2 := contains_iff_mem.mp hcontains
  have hdefault : name ≠ RenderPass.defaultName found.2 := by
    intro heq
    have hfirst : ∀ n ∈ hostNames, n.toList.head? ≠ some 'p' := by decide
    refine hfirst name hname ?_
    rw [heq, RenderPass.defaultName, String.toList_append]
    rfl
  grind [RenderPass.names]

/-! ## Inputs that can be taken away -/

/-- What a dropped input must satisfy so that no pass finds out about it, if the inputs `rest` of its
name come after it. -/
structure Harmless (header : Header) (dropped : Input) (rest : List Input) : Prop where
  /-- If there is no other input of the name, it has the type of the host field. -/
  type : rest = [] → Setting.builtinTypes.lookup dropped.name = Setting.inputType dropped.kind
  /-- If it is a truth value, so is another input of the name. -/
  boolean : dropped.kind.isBoolean = true → ∃ i ∈ rest, i.kind.isBoolean = true
  /-- It hides no image, unless a pass has the name too, or the name is never read as an image. -/
  image : ∀ next ∈ rest.head?, next.kind.isTexture = true →
    (header.passIndex? dropped.name).isSome = true ∨ ∃ i ∈ rest, i.kind.isBoolean = true
  /-- It hides no input that would claim the host's `speed`. -/
  speed : ∀ next ∈ rest.head?, ¬ (dropped.name = "speed" ∧ next.kind = .float)

section Harmless

variable {options : Options} {header : Header} {dropped : Input} {rest : List Input}

theorem named_rest (hnamed : named header.inputs dropped.name = dropped :: rest) :
    named (header.without dropped.name).inputs dropped.name = rest := by
  rw [Header.without, named_without, hnamed, tail_cons]

theorem congr_named {α : Type} (F : List Input → α)
    (hnamed : named header.inputs dropped.name = dropped :: rest)
    (h : name = dropped.name → F (dropped :: rest) = F rest) :
    F (named header.inputs name) = F (named (header.without dropped.name).inputs name) := by
  by_cases hname : name = dropped.name
  · subst hname
    rw [hnamed, named_rest hnamed]
    exact h rfl
  · exact congrArg F (named_without_of_ne hname header.inputs).symm

theorem texture?_ofHeader (options : Options) (header : Header) (name : String) :
    ((Setting.ofHeader options header).layout.texture? name).isSome =
      (named header.inputs name).head?.any fun i => i.kind.isTexture :=
  texture?_analyze ..

theorem claims_without (hnamed : named header.inputs dropped.name = dropped :: rest)
    (hcollides : Collides dropped)
    (hspeed : ∀ next ∈ rest.head?, ¬ (dropped.name = "speed" ∧ next.kind = .float)) :
    claims (header.without dropped.name).inputs = claims header.inputs := by
  refine (congr_named (fun is => is.head?.any fun i => i.kind == .float) hnamed fun hname => ?_).symm
  have hnot : (dropped.kind == .float) = false := by
    rw [beq_eq_false_iff_ne]
    exact fun hkind => hcollides.2.2 ⟨hname.symm, hkind⟩
  grind [Option.any_eq_false]

theorem fields_ofHeader_without (hnamed : named header.inputs dropped.name = dropped :: rest)
    (hcollides : Collides dropped) (h : Harmless header dropped rest) :
    (Setting.ofHeader options header).layout.fields =
      (Setting.ofHeader options (header.without dropped.name)).layout.fields :=
  (fields_without hcollides.2.1 (claims_without hnamed hcollides h.speed) options.renamePrefix).symm

theorem typeAmong_rest (h : Harmless header dropped rest) :
    typeAmong header.passes dropped.name (dropped :: rest) =
      typeAmong header.passes dropped.name rest := by
  cases hrest : rest with
  | nil =>
    obtain ⟨type, htype⟩ := Option.isSome_iff_exists.mp (inputType_isSome dropped.kind)
    have hhost := h.type hrest
    rw [htype] at hhost
    simp [typeAmong, hhost, htype]
  | cons next later => rw [typeAmong, getLast?_cons_cons, typeAmong]

theorem any_isBoolean_rest (h : Harmless header dropped rest) :
    (dropped :: rest).any (fun i => i.kind.isBoolean) = rest.any fun i => i.kind.isBoolean := by
  rw [any_cons]
  cases hbool : dropped.kind.isBoolean with
  | false => rfl
  | true =>
    rw [Bool.true_or]
    exact (any_eq_true.mpr (h.boolean hbool)).symm

theorem binding?_without (hnamed : named header.inputs dropped.name = dropped :: rest)
    (hcollides : Collides dropped) (h : Harmless header dropped rest) (env : Env)
    (hbool : rest.any (fun i => i.kind.isBoolean) = false) :
    (Setting.ofHeader options header).binding? env dropped.name =
      (Setting.ofHeader options (header.without dropped.name)).binding? env dropped.name := by
  unfold Setting.binding?
  split
  · rfl
  · rw [texture?_ofHeader, texture?_ofHeader, named_rest hnamed, hnamed, head?_cons, Option.any_some,
      hcollides.1, if_neg Bool.false_ne_true]
    split
    · -- the next input is an image, and then a pass has the name too
      rename_i himage
      rw [Option.any_eq_true] at himage
      obtain ⟨next, hnext, himage⟩ := himage
      rcases h.image next hnext himage with hpass | htruth
      · obtain ⟨index, hindex⟩ := Option.isSome_iff_exists.mp hpass
        show (header.passIndex? dropped.name).bind _ = _
        rw [hindex]
        exact head?_names_of_passIndex? hcollides.mem_hostNames hindex
      · rw [any_eq_true.mpr htruth] at hbool
        cases hbool
    · rfl

/-- **Without a harmless input the passes see no other setting.** -/
theorem agrees_without (hnamed : named header.inputs dropped.name = dropped :: rest)
    (hcollides : Collides dropped) (h : Harmless header dropped rest) :
    (Setting.ofHeader options header).Agrees
      (Setting.ofHeader options (header.without dropped.name)) := by
  have hfields : (Setting.ofHeader options header).layout.fields =
      (Setting.ofHeader options (header.without dropped.name)).layout.fields :=
    fields_ofHeader_without hnamed hcollides h
  have hfield : ∀ name, (Setting.ofHeader options header).layout.field? name =
      (Setting.ofHeader options (header.without dropped.name)).layout.field? name := by
    intro name
    rw [field?, hfields, field?]
  refine ⟨rfl, fun name => ?_, fun name => ?_, hfields, fun name => ?_, fun env name hbool => ?_⟩
  · rw [lookup_hostTypes, lookup_hostTypes]
    refine congr_named (typeAmong header.passes name) hnamed ?_
    rintro rfl
    exact typeAmong_rest h
  · rw [contains_booleanInputs, contains_booleanInputs]
    exact congr_named (any · fun i => i.kind.isBoolean) hnamed fun _ => any_isBoolean_rest h
  · rw [Setting.providesUniform, Setting.providesUniform, ← hfield]
    by_cases hname : name = dropped.name
    · subst hname
      have hhost : ((Setting.ofHeader options header).layout.field? dropped.name).isSome = true := by
        rw [Setting.ofHeader, field?_analyze hcollides.mem_hostNames]
        exact isSome_hostField? _ _ hcollides.mem_hostNames
      rw [hhost, Bool.or_true, Bool.or_true]
    · have hinput : header.input? name = (header.without dropped.name).input? name := by
        rw [input?_eq_head?, input?_eq_head?]
        exact congr_named head? hnamed fun h => absurd h hname
      show ((header.input? name).isSome || _ || _) = _
      rw [hinput]
      rfl
  · by_cases hname : name = dropped.name
    · subst hname
      refine binding?_without hnamed hcollides h env ?_
      rw [contains_booleanInputs] at hbool
      rw [← any_isBoolean_rest h, ← hnamed]
      exact hbool
    · rw [Setting.binding?, texture?_ofHeader, congr_named (fun is => is.head?.any _) hnamed
        fun h => absurd h hname, ← texture?_ofHeader options]
      rfl

end Harmless

/-! ## What texts tell -/

section Texts

variable {options : Options} {header : Header} {dropped : Input} {rest : List Input}

theorem emitted_eq (options : Options) (header : Header) (p : Program) :
    emitted options header p =
      if p.hasLabel isConditional then .error .conditional
      else .ok (runPasses (.ofHeader options header) Pass.all p {}).1.wgsl := by
  rw [emitted, lower_eq]
  split <;> rfl

theorem shown_eq_of_emitted {other : Header} {e x y : Expr}
    (h : emitted options header (mainOf e) = emitted options other (mainOf e))
    (hx : (runPasses (.ofHeader options header) Pass.all (mainOf e) {}).1 = entryOf x)
    (hy : (runPasses (.ofHeader options other) Pass.all (mainOf e) {}).1 = entryOf y) :
    shown x = shown y := by
  have hlabel : (mainOf e).hasLabel isConditional = false := rfl
  grind [emitted_eq, shown_eq_of_wgsl_eq]

theorem shows_ofHeader (hname : name ∈ hostNames) (options : Options) (header : Header) :
    Shows (.ofHeader options header) name
      ((named header.inputs name).any fun i => i.kind.isBoolean) (claims header.inputs) where
  host := hname
  boolean := contains_booleanInputs _ name
  field := field?_analyze hname header.inputs options.renamePrefix

theorem truth_eq_of_emitted {other : Header} (hname : name ∈ hostNames)
    (h : emitted options header (mainOf (.ident name)) = emitted options other (mainOf (.ident
      name))) :
    ((named header.inputs name).any fun i => i.kind.isBoolean) =
        ((named other.inputs name).any fun i => i.kind.isBoolean) ∧
      (name = "speed" → claims header.inputs = claims other.inputs) :=
  (eq_of_shown name hname).1 _ _ _ _ (shown_eq_of_emitted h
    (runPasses_ident (shows_ofHeader hname options header))
    (runPasses_ident (shows_ofHeader hname options other)))

theorem lookup_passTypes (passes : List RenderPass) (name : String) :
    (Setting.passTypes passes).lookup name = some .sampler ∨
      (Setting.passTypes passes).lookup name = none := by
  unfold Setting.passTypes
  induction passes.zipIdx.flatMap fun p => p.1.names p.2 with
  | nil => exact .inr rfl
  | cons n ns ih =>
    rw [map_cons, lookup_cons]
    split
    · exact .inl rfl
    · exact ih

theorem inputType_mem {kind : InputKind} (htexture : kind.isTexture = false)
    (hbool : kind.isBoolean = false) :
    Setting.inputType kind ∈ valueTypes := by
  cases kind with
  | float | long | point2D | color => decide
  | unknown text => exact mem_cons_self
  | bool | event => cases hbool
  | image | audio | audioFft => cases htexture

theorem typeAmong_host (hname : name ∈ hostNames) (passes : List RenderPass) (same : List Input) :
    typeAmong passes name same =
      ((same.getLast?.bind fun i => Setting.inputType i.kind).or
        (Setting.builtinTypes.lookup name)).or ((Setting.passTypes passes).lookup name) := by
  have hfragment : ∀ n ∈ hostNames, Setting.fragmentTypes.lookup n = none := by decide
  rw [typeAmong, hfragment name hname, Option.none_or]

theorem typeAmong_nil_mem (hname : name ∈ hostNames) (passes : List RenderPass) :
    typeAmong passes name [] ∈ fieldTypes := by
  have hbuiltin : ∀ n ∈ hostNames, Setting.builtinTypes.lookup n ∈ fieldTypes := by decide
  rw [typeAmong_host hname, getLast?_nil, Option.bind_none, Option.none_or]
  cases htype : Setting.builtinTypes.lookup name with
  | some type =>
    rw [Option.some_or, ← htype]
    exact hbuiltin name hname
  | none =>
    rw [Option.none_or]
    rcases lookup_passTypes passes name with heq | heq <;> rw [heq] <;> decide

/-- The texts show the type of the input, unless the host field has the same. -/
theorem lookup_of_emitted (hcollides : Collides dropped)
    (hnamed : named header.inputs dropped.name = [dropped])
    (hbool : dropped.kind.isBoolean = false)
    (h : emitted options header (mainOf (shiftProbe dropped.name)) =
      emitted options (header.without dropped.name) (mainOf (shiftProbe dropped.name))) :
    Setting.builtinTypes.lookup dropped.name = Setting.inputType dropped.kind := by
  have hname := hcollides.mem_hostNames
  have hafter := named_rest hnamed
  have hshows := shows_ofHeader hname options header
  have hshows' := shows_ofHeader hname options (header.without dropped.name)
  have hclaims : claims (header.without dropped.name).inputs = claims header.inputs :=
    claims_without hnamed hcollides fun _ hnext => absurd hnext (Option.not_mem_none _)
  rw [hnamed, any_cons, hbool, any_nil, Bool.or_false] at hshows
  rw [hafter, any_nil, hclaims] at hshows'
  have htype : (Setting.ofHeader options header).hostTypes.lookup dropped.name =
      Setting.inputType dropped.kind := by
    rw [lookup_hostTypes]
    show typeAmong header.passes dropped.name (named header.inputs dropped.name) = _
    grind [Option.isSome_iff_exists, inputType_isSome, typeAmong_host]
  have htype' : (Setting.ofHeader options (header.without dropped.name)).hostTypes.lookup
      dropped.name = typeAmong header.passes dropped.name [] := by
    rw [lookup_hostTypes, ← hafter]
    rfl
  have hmem := inputType_mem hcollides.1 hbool
  have hshown := shown_eq_of_emitted h
    (hshows.runPasses_shift htype (mem_append_left _ hmem))
    (hshows'.runPasses_shift htype' (typeAmong_nil_mem hname _))
  have heq := (eq_of_shown _ hname).2 _ _ hmem _ (typeAmong_nil_mem hname _) hshown
  rw [typeAmong_host hname, getLast?_nil, Option.bind_none, Option.none_or] at heq
  cases hlookup : Setting.builtinTypes.lookup dropped.name with
  | some type => rw [heq, hlookup, Option.some_or]
  | none =>
    -- a pass of the name would have the type of an image, and no input is left with that
    rw [hlookup, Option.none_or] at heq
    rcases lookup_passTypes header.passes dropped.name with hpass | hpass <;>
      rw [heq, hpass] at hmem <;> exact absurd hmem (by decide)

/-- The texts show the image that the input hides, unless a pass has the name. -/
theorem passIndex?_of_emitted {next : Input} {later : List Input} (hcollides : Collides dropped)
    (hnamed : named header.inputs dropped.name = dropped :: next :: later)
    (hbool : (dropped :: next :: later).any (fun i => i.kind.isBoolean) = false)
    (himage : next.kind.isTexture = true)
    (h : emitted options header (mainOf (sizeProbe dropped.name)) =
      emitted options (header.without dropped.name) (mainOf (sizeProbe dropped.name))) :
    (header.passIndex? dropped.name).isSome = true := by
  have hafter := named_rest hnamed
  have hshows := shows_ofHeader hcollides.mem_hostNames options header
  rw [hnamed, hbool] at hshows
  have hbool' : (Setting.ofHeader options
      (header.without dropped.name)).booleanInputs.contains dropped.name = false := by
    rw [contains_booleanInputs]
    show (named (header.without dropped.name).inputs dropped.name).any _ = false
    rw [hafter]
    exact (Bool.or_eq_false_iff.mp hbool).2
  have hbinding' : (Setting.ofHeader options (header.without dropped.name)).binding?
      (bodyEnv (Setting.ofHeader options (header.without dropped.name))) dropped.name =
        some dropped.name := by
    have htexture : ((Setting.ofHeader options (header.without dropped.name)).layout.texture?
        dropped.name).isSome = true := by
      rw [texture?_ofHeader, hafter]
      exact himage
    rw [Setting.binding?, htexture]
    rfl
  cases hpass : header.passIndex? dropped.name with
  | some index => rfl
  | none =>
    have hbinding : (Setting.ofHeader options header).binding?
        (bodyEnv (Setting.ofHeader options header)) dropped.name = none := by
      have htexture : ((Setting.ofHeader options header).layout.texture?
          dropped.name).isSome = false := by
        rw [texture?_ofHeader, hnamed]
        exact hcollides.1
      grind [Setting.ofHeader, Setting.binding?]
    obtain ⟨texture, hsize⟩ := runPasses_size_some hbool' hbinding'
    have hshown := shown_eq_of_emitted h (hshows.runPasses_size_none hbinding) hsize
    exact absurd hshown (shown_size_ne _ _)

end Texts

/-! ## The whole effect -/

/-- **A dropped input can be taken away without a change to the text of any program exactly if it is
harmless.** -/
theorem emitted_without_iff {options : Options} {header : Header} {name : String}
    (hdropped : .builtinCollision name ∈ (analyze header.inputs options.renamePrefix).2) :
    (∀ source p, Program.parse source = .ok p →
        emitted options header p = emitted options (header.without name) p) ↔
      ∃ dropped rest, named header.inputs name = dropped :: rest ∧ Harmless header dropped rest := by
  obtain ⟨dropped, rest, hnamed, hcollides⟩ := collides_of_mem hdropped
  obtain rfl : dropped.name = name :=
    name_of_mem_named (hnamed ▸ mem_cons_self : dropped ∈ named header.inputs name)
  constructor
  · intro hall
    have hname := hcollides.mem_hostNames
    have hafter := named_rest hnamed
    obtain ⟨hbool, hclaims⟩ :=
      truth_eq_of_emitted hname (hall _ _ (parse_of_readsAs (readsAs_probes _ hname).1))
    rw [hnamed, hafter] at hbool
    refine ⟨dropped, rest, hnamed, ?_, ?_, ?_, ?_⟩
    · rintro rfl
      refine lookup_of_emitted hcollides hnamed ?_
        (hall _ _ (parse_of_readsAs (readsAs_probes _ hname).2.1))
      simpa using hbool
    · intro htruth
      rw [any_cons, htruth, Bool.true_or] at hbool
      exact any_eq_true.mp hbool.symm
    · intro next hnext himage
      by_cases htruth : ∃ i ∈ rest, i.kind.isBoolean = true
      · exact .inr htruth
      · obtain ⟨later, rfl⟩ := head?_eq_some_iff.mp hnext
        refine .inl (passIndex?_of_emitted hcollides hnamed ?_ himage
          (hall _ _ (parse_of_readsAs (readsAs_probes _ hname).2.2)))
        rw [hbool, Bool.eq_false_iff, Ne, any_eq_true]
        exact htruth
    · rintro next hnext ⟨hspeed, hfloat⟩
      have hbefore : claims header.inputs = false := by
        rw [claims, ← hspeed, hnamed, head?_cons, Option.any_some, beq_eq_false_iff_ne]
        exact fun hkind => hcollides.2.2 ⟨hspeed, hkind⟩
      have hlater : claims (header.without dropped.name).inputs = true := by
        rw [claims, ← hspeed, hafter, hnext, Option.any_some, beq_iff_eq]
        exact hfloat
      have hsame := hclaims hspeed
      rw [hbefore, hlater] at hsame
      cases hsame
  · rintro ⟨dropped', rest', hnamed', hharmless⟩ - p -
    obtain ⟨rfl, rfl⟩ := cons.inj (hnamed.symm.trans hnamed')
    rw [emitted_eq, emitted_eq, runPasses_congr (agrees_without hnamed hcollides hharmless)]


/-- A header with an input that has the name of the host's time. -/
def timeHeader (kind : InputKind) : Header :=
  { inputs := [{ name := "TIME", kind := kind }] }

theorem emitted_without_iff_time :
    .builtinCollision "TIME" ∈ (analyze (timeHeader .float).inputs ({} : Options).renamePrefix).2 ∧
      ∀ source p, Program.parse source = .ok p →
        emitted {} (timeHeader .float) p = emitted {} ((timeHeader .float).without "TIME") p := by
  have hdropped : .builtinCollision "TIME" ∈
      (analyze (timeHeader .float).inputs ({} : Options).renamePrefix).2 := by decide
  have hharmless : Harmless (timeHeader .float) { name := "TIME", kind := .float } [] := by
    refine ⟨fun _ => rfl, fun htruth => ?_, ?_, ?_⟩
    · cases htruth
    · rintro next ⟨⟩
    · rintro next ⟨⟩
  exact ⟨hdropped, (emitted_without_iff hdropped).mpr ⟨_, [], rfl, hharmless⟩⟩

/-- **A dropped input may change the text**: reads of the host's time are compared with zero, if an
input of that name was a truth value. -/
theorem emitted_ne_without_time :
    .builtinCollision "TIME" ∈ (analyze (timeHeader .bool).inputs ({} : Options).renamePrefix).2 ∧
      ∃ source p, Program.parse source = .ok p ∧
        emitted {} (timeHeader .bool) p ≠ emitted {} ((timeHeader .bool).without "TIME") p := by
  have hname : "TIME" ∈ hostNames := by decide
  have hparse : Program.parse (sourceOf "TIME") = .ok (mainOf (.ident "TIME")) :=
    parse_of_readsAs (readsAs_probes "TIME" hname).1
  refine ⟨by decide, _, _, hparse, ?_⟩
  intro h
  obtain ⟨htruth, -⟩ := truth_eq_of_emitted hname h
  revert htruth
  decide

end Lowering

end ShaderEffect
