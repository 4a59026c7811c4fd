import ShaderEffect.Proofs.Layout.Binding
import ShaderEffect.Proofs.Lowering.Written
import ShaderEffect.Proofs.Trace

/-!
# Every image that is read is bound

The name of a pass is looked up twice: when a read of it is lowered, among the passes of the header,
and when the passes are bound, among the names that were recorded. Both find the same name, since a
read records the first name of its pass, and a pass is bound under the first of its names that was
recorded.

`Reads` says that an expression is another one in which some of the calls that read an image have
become reads of a texture. **All textures that are read so are bound, and every pass that is bound
is read** (`reads_lowerSampling`).
-/

namespace ShaderEffect

open List

variable {referenced : List String}

namespace Layout

/-! ## The bindings of passes -/

theorem getElem?_passNames : ∀ (ps : List RenderPass) (index k : Nat),
    (passNames index ps)[k]? = ps[k]?.map (RenderPass.names (index + k))
  | [], _, _ => by simp [passNames]
  | p :: ps, index, 0 => by simp [passNames]
  | p :: ps, index, k + 1 => by
    have hindex : index + 1 + k = index + (k + 1) := by omega
    rw [passNames, getElem?_cons_succ, getElem?_cons_succ,
      getElem?_passNames ps (index + 1) k, hindex]

theorem mem_bindingNames_of_head (l : Layout) {passes : List RenderPass} {index : Nat}
    {pass : RenderPass} {name : String} (hpass : passes[index]? = some pass)
    (hhead : (pass.names index).head? = some name) (hname : name ∈ referenced) :
    name ∈ (l.bindPasses passes referenced).bindingNames := by
  have hnames : (passNames 0 passes)[index]? = some (pass.names index) := by
    simp [getElem?_passNames, hpass]
  have hbound : bound? referenced (pass.names index) = some name := by
    grind [head?_eq_some_iff, bound?]
  refine mem_append_right _ ?_
  show name ∈ (bindFrom referenced l.textures.length 0 passes).map PassBinding.name
  grind [names_bindFrom]

theorem mem_referenced_of_mem_passes {l : Layout} {passes : List RenderPass} {b : PassBinding}
    (h : b ∈ (l.bindPasses passes referenced).passes) : b.name ∈ referenced := by
  have hmem : b.name ∈ (bindFrom referenced l.textures.length 0 passes).map PassBinding.name :=
    mem_map_of_mem h
  rw [names_bindFrom] at hmem
  obtain ⟨names, -, hbound⟩ := mem_filterMap.mp hmem
  exact (mem_of_bound? hbound).2

theorem exists_line_of_mem_bindingVars {l : Layout} {var : String} (h : var ∈ l.bindingVars) :
    ∃ line ∈ Wgsl.allBindingLines l, Wgsl.DeclaresBinding var line := by
  have hlines := forall₂_declaresBinding l
  generalize l.bindingVars = vars at h hlines
  generalize Wgsl.allBindingLines l = lines at hlines
  induction hlines with
  | nil => exact absurd h not_mem_nil
  | @cons v line vars lines hv _ ih =>
    grind

end Layout

namespace Lowering

variable (st : Setting)

/-! ## What a read does -/

/-- In every state, the step gives the expression `x`, defers nothing and records the names `ns`. -/
def Records (m : LowerM Expr) (x : Expr) (ns : List String) : Prop :=
  ∀ s, (m s).1 = x ∧ (m s).2.Since s ∧ ns ++ s.textures ⊆ (m s).2.textures

theorem records_pure (x : Expr) : Records (pure x) x [] :=
  fun s => ⟨rfl, .refl s, Subset.refl _⟩

theorem Records.after_note {m : LowerM Expr} {x : Expr} {ns : List String} {n : LoweringNotice}
    (h : Records m x ns) : Records (do note n; m) x ns := by
  intro s
  obtain ⟨hx, ⟨hdeferred, htemps⟩, htextures⟩ := h { s with notices := s.notices ++ [n] }
  exact ⟨hx, ⟨hdeferred, htemps⟩, htextures⟩

theorem Records.after_reference {m : LowerM Expr} {x : Expr} (h : Records m x []) (n : String) :
    Records (do reference n; m) x [n] := by
  intro s
  have hreference : [n] ++ s.textures ⊆ (reference n s).2.textures := by
    show n :: s.textures ⊆ State.textures (if s.textures.contains n then s else _)
    grind
  obtain ⟨hx, hsince, htextures⟩ := h (reference n s).2
  exact ⟨hx, hsince.trans ((Yields.reference n) s).2, Subset.trans hreference htextures⟩

theorem lowerAccess_cases (env : Env) (access : Access) (name : String) (args : List Expr) :
    (∃ ns, Records (lowerAccess st env access name args) (.call name args) ns) ∨
      ∃ target rest n x, args = .ident target :: rest ∧ st.binding? env target = some n ∧
        access.read env st.options.flipTextures n rest = some x ∧
        Records (lowerAccess st env access name args) x [n] := by
  unfold lowerAccess
  split
  · rename_i target rest
    cases hbinding : st.binding? env target with
    | none => exact .inl ⟨[], (records_pure _).after_note⟩
    | some n =>
      dsimp only
      cases hread : access.read env st.options.flipTextures n rest with
      | none =>
        refine .inl ⟨[n], .after_reference ?_ n⟩
        dsimp only
        split
        · exact (records_pure _).after_note.after_note
        · exact (records_pure _).after_note
      | some x =>
        refine .inr ⟨target, rest, n, x, rfl, hbinding, hread, .after_reference ?_ n⟩
        dsimp only
        split
        · exact (records_pure _).after_note
        · exact records_pure _
  · exact .inl ⟨[], (records_pure _).after_note⟩

/-- **What becomes of a node**: it stays, or it is a call that reads an image and becomes a read of
the texture that the image is bound to, whose name is recorded. -/
theorem lowerRead_cases (env : Env) (e : Expr) :
    (∃ ns, Records (lowerRead st env e) e ns) ∨
      ∃ access name target rest n x, e = .call name (.ident target :: rest) ∧
        Access.ofName name = some access ∧ st.binding? env target = some n ∧
        access.read env st.options.flipTextures n rest = some x ∧
        Records (lowerRead st env e) x [n] := by
  unfold lowerRead
  grind [records_pure, lowerAccess_cases]

theorem mem_bindingNames_of_binding? {st : Setting} {env : Env} {target n : String}
    (h : st.binding? env target = some n) (hn : n ∈ referenced) :
    n ∈ (st.layout.bindPasses st.header.passes referenced).bindingNames := by
  unfold Setting.binding? at h
  split at h
  · cases h
  · split at h
    · rename_i htexture
      obtain rfl := Option.some.inj h
      obtain ⟨t, ht⟩ := Option.isSome_iff_exists.mp htexture
      have hname : t.name = target := by
        simpa using find?_some ht
      refine mem_append_left _ ?_
      rw [← hname]
      exact mem_map_of_mem (mem_of_find?_eq_some ht)
    grind [Option.bind_eq_some_iff, Layout.mem_bindingNames_of_head]

/-! ## Expressions with reads of textures -/

/-- The second expression is the first one, in which some calls that read an image have become reads
of textures with names in `bound`. -/
inductive Reads (bound : String → Prop) : Expr → Expr → Prop
  | node {e : Expr} {es : List Expr} :
      List.Forall₂ (Reads bound) e.children es → Reads bound e (e.withChildren es)
  | read {name n : String} {image x : Expr} {rest rest' : List Expr} {access : Access} {env : Env}
      {flip : Bool} :
      Access.ofName name = some access → bound n → List.Forall₂ (Reads bound) rest rest' →
      access.read env flip n rest' = some x → Reads bound (.call name (image :: rest)) x

/-- The variables of an expression with reads of textures: those that it had before, the coordinate
of the fragment, and the variables of the textures. -/
theorem Reads.ident_cases {bound : String → Prop} {e e' : Expr} (h : Reads bound e e')
    {var : String} (hvar : .ident var ∈ e'.subexprs) :
    .ident var ∈ e.subexprs ∨ var = Wgsl.fragNormCoord ∨
      ∃ n, bound n ∧ var ∈ [Wgsl.textureVar n, Wgsl.samplerVar n] := by
  induction e using Expr.byChildren generalizing e' var with
  | node e ih =>
    cases h with
    | @node _ es hes =>
      have hlength : es.length = e.children.length := hes.length_eq.symm
      rw [Expr.subexprs_eq_cons, Expr.children_withChildren hlength, mem_cons,
        mem_flatMap] at hvar
      rcases hvar with hself | ⟨x, hx, hvar⟩
      · -- a single variable has no operands, so it is the node itself
        have hident : e.withChildren es = e := by
          have hnil : es = [] := by
            have hchildren := Expr.children_withChildren hlength
            rw [← hself] at hchildren
            exact hchildren.symm
          grind [Expr.withChildren_children]
        grind [Expr.mem_subexprs_self]
      · obtain ⟨c, hc, hreads⟩ := exists_of_forall₂_right hes hx
        exact (ih c hc hreads hvar).imp_left fun h => Expr.subexprs_subset hc h
    | @read name n image _ rest rest' access env flip _ hn hrest hread =>
      have hall : e'.All fun x => ∀ var, x = .ident var →
          .ident var ∈ (Expr.call name (image :: rest)).subexprs ∨ var = Wgsl.fragNormCoord ∨
            ∃ n, bound n ∧ var ∈ [Wgsl.textureVar n, Wgsl.samplerVar n] := by
        refine (composed_read (fun _ => .given) hread).all (fun _ _ _ _ => nofun) (fun v hv w hw => ?_)
          (fun x _ hx w hw => ?_) ?_
        · grind [IsReadVar]
        · exact absurd hw (hx w)
        · intro y hy x hx w hw
          subst hw
          obtain ⟨c, hc, hreads⟩ := exists_of_forall₂_right hrest hy
          have hmem : c ∈ (Expr.call name (image :: rest)).children := mem_cons_of_mem _ hc
          exact (ih c hmem hreads hx).imp_left fun h => Expr.subexprs_subset hmem h
      exact hall _ hvar var rfl

/-! ## The pass -/

theorem traces_lowerRead (p : Program) (names : List String) {bound : String → Prop}
    (hbound : ∀ env target n, st.binding? env target = some n → n ∈ names → bound n) :
    ({ expr := lowerRead st } : Walker State).Traces (fun _ => True)
      (fun s => s.textures ⊆ names) (· ∈ p.evaluated) (fun _ => True) (Reads bound)
      (fun e' => ∃ e ∈ p.evaluated, Reads bound e e') where
  expr := by
    intro env e es a _ _ hes
    refine ⟨trivial, fun hafter => ?_⟩
    obtain ⟨ns, hx⟩ | ⟨access, name, target, rest, n, x, hcall, haccess, hbinding, hread, hx⟩ :=
      lowerRead_cases st env (e.withChildren es)
    · obtain ⟨hx, -, htextures⟩ := hx a
      have ha : a.textures ⊆ names := fun n hn => hafter (htextures (mem_append_right _ hn))
      refine ⟨ha, ?_⟩
      show Reads bound e (lowerRead st env (e.withChildren es) a).1
      rw [hx]
      exact .node (hes ha)
    · obtain ⟨hx, -, htextures⟩ := hx a
      have ha : a.textures ⊆ names := fun n hn => hafter (htextures (mem_append_right _ hn))
      obtain ⟨args, rfl, rfl⟩ := Expr.eq_call_of_withChildren hcall
      refine ⟨ha, ?_⟩
      show Reads bound (.call name args) (lowerRead st env _ a).1
      rw [hx]
      cases hes ha with
      | cons _ hrest =>
        exact .read haccess (hbound env target n hbinding (hafter (htextures mem_cons_self))) hrest
          hread
  stmt := fun _ _ _ _ _ _ _ _ _ _ _ hs => ⟨trivial, fun hafter =>
    ⟨hafter, forall_mem_singleton.mpr (Stmt.forall_mem_evaluated.mpr (hs hafter))⟩⟩
  global := fun _ _ _ _ hd => ⟨trivial, fun hafter => ⟨hafter, hd hafter⟩⟩
  enter := fun _ _ _ _ hf => ⟨trivial, fun hafter => hafter, hf⟩
  leave := fun _ _ _ _ => ⟨trivial, fun hafter => hafter, id⟩
  parts := fun _ => Stmt.forall_mem_evaluated.mp
  part_of_whole := fun _ _ => trivial
  part_of_child := fun _ _ _ _ => trivial
  holds := fun e _ he hreads => ⟨e, he, hreads⟩
  block := Walker.ofBlocks_evaluated _

theorem mem_sampled {s : State} {n : String} : n ∈ s.sampled ↔ n ∈ s.textures :=
  mem_mergeSort

/-- **Every image that a lowered program reads is bound.** Its expressions are those of the program
before, with calls that read an image in place of which a texture is read that the layout binds; the
variables of the texture are declared in the module, and the case labels stay as they are. Every
pass that is bound is one whose name was recorded. -/
theorem reads_lowerSampling (st : Setting) (p : Program) (s : State) :
    let out := lowerSampling st p s
    let l := st.layout.bindPasses st.header.passes out.2.sampled
    (∀ e' ∈ out.1.evaluated, ∃ e ∈ p.evaluated, Reads (· ∈ l.bindingNames) e e' ∧
      ∀ var, .ident var ∈ e'.subexprs → .ident var ∈ e.subexprs ∨ var = Wgsl.fragNormCoord ∨
        ∃ line ∈ Wgsl.allBindingLines l, Wgsl.DeclaresBinding var line) ∧
    (∀ kind, out.1.hasLabel kind = p.hasLabel kind) ∧
    ∀ b ∈ l.passes, b.name ∈ out.2.textures := by
  intro out l
  refine ⟨fun e' he' => ?_, fun kind => ?_, fun b hb => ?_⟩
  · have hbound : ∀ env target n, st.binding? env target = some n → n ∈ out.2.textures →
        n ∈ l.bindingNames := by
      intro env target n hbinding hn
      exact mem_bindingNames_of_binding? hbinding (mem_sampled.mpr hn)
    obtain ⟨-, hwalk⟩ := Walker.Traces.evaluated_walk
      (traces_lowerRead st p out.2.textures hbound) (st.envFor p) (p := p) (a := s) trivial fun e he => he
    obtain ⟨-, hevaluated⟩ := hwalk fun n hn => hn
    obtain ⟨e, he, hreads⟩ := hevaluated e' he'
    refine ⟨e, he, hreads, fun var hvar => ?_⟩
    refine (hreads.ident_cases hvar).imp_right (Or.imp_right ?_)
    rintro ⟨n, hn, hvar⟩
    refine Layout.exists_line_of_mem_bindingVars ?_
    exact mem_flatMap.mpr ⟨n, hn, hvar⟩
  · have hkeeps : ({ expr := lowerRead st } : Walker State).KeepsLabels (fun _ => True) kind :=
      ⟨fun _ _ _ _ => trivial, fun _ _ _ _ => ⟨Bool.or_false _, trivial⟩,
        fun _ _ _ _ => trivial, fun _ _ _ _ => ⟨rfl, trivial⟩, fun _ _ _ _ => ⟨rfl, trivial⟩⟩
    exact (hkeeps.hasLabel_walk (st.envFor p) p trivial).1
  · exact mem_sampled.mp (Layout.mem_referenced_of_mem_passes hb)

end Lowering

end ShaderEffect
