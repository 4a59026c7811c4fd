import ShaderEffect.Layout.Bind
import ShaderEffect.Proofs.Layout.Uniform

/-!
# The numbers of bindings

Passes may be bound again and again, each time others. **After every such call the bindings have the
numbers from zero on, without a gap**: the images first, in the order of their declaration, then the
passes in their order (`slots_bindPasses`). Nothing is left of earlier calls.
-/

namespace ShaderEffect.Layout

open List

/-- The texture and sampler numbers of the bindings, in order. -/
def slots (l : Layout) : List Nat :=
  l.textures.flatMap (fun t => [t.texture, t.sampler]) ++
    l.passes.flatMap fun p => [p.texture, p.sampler]

/-- The textures have the numbers from zero on. -/
def Numbered (ts : List TextureBinding) : Prop :=
  ts.flatMap (fun t => [t.texture, t.sampler]) = range (2 * ts.length)

theorem numbered_addInput {renamePrefix : String} {d : Draft} (h : Numbered d.textures) (i : Input) :
    Numbered (Draft.addInput renamePrefix d i).textures := by
  by_cases hseen : i.name ∈ d.seen
  · rw [Draft.addInput_of_mem hseen]
    exact h
  · cases @Draft.adds_addInput renamePrefix d i hseen with
    | image _ _ _ htextures =>
      rw [htextures, Numbered, Draft.addTexture, flatMap_append, h, length_append, length_singleton,
        Nat.mul_add 2, Nat.mul_one, range_succ, range_succ, append_assoc, Nat.mul_comm 2]
      rfl
    | host _ _ _ _ htextures | field _ _ _ _ _ htextures => rwa [htextures]

theorem numbered_analyze (inputs : List Input) (renamePrefix : String) :
    Numbered (analyze inputs renamePrefix).1.textures := by
  have hrun : ∀ (is : List Input) (d : Draft), Numbered d.textures →
      Numbered (is.foldl (Draft.addInput renamePrefix) d).textures := by
    intro is
    induction is with
    | nil => exact fun _ h => h
    | cons i is ih => exact fun d h => ih _ (numbered_addInput h i)
  exact hrun inputs Draft.initial rfl

/-- The passes from position `index` on get the numbers from `slot` on, in their order. -/
theorem slots_bindFrom (referenced : List String) (slot index : Nat) (ps : List RenderPass) :
    ((bindFrom referenced slot index ps).flatMap fun p => [p.texture, p.sampler]) =
        range' (slot * 2) (2 * (bindFrom referenced slot index ps).length) ∧
      (bindFrom referenced slot index ps).Pairwise (fun p q => p.passIndex < q.passIndex) ∧
      ∀ p ∈ bindFrom referenced slot index ps, index ≤ p.passIndex := by
  induction ps generalizing slot index with
  | nil => exact ⟨rfl, .nil, forall_mem_nil _⟩
  | cons p ps ih =>
    rw [bindFrom]
    split
    · obtain ⟨hslots, hsorted, hle⟩ := ih (slot + 1) (index + 1)
      refine ⟨?_, pairwise_cons.mpr ⟨hle, hsorted⟩,
        forall_mem_cons.mpr ⟨Nat.le_refl _, fun q hq => Nat.le_of_succ_le (hle q hq)⟩⟩
      rw [flatMap_cons, hslots, length_cons, Nat.mul_add 2, Nat.add_mul slot, range'_succ, range'_succ]
      rfl
    · obtain ⟨hslots, hsorted, hle⟩ := ih slot (index + 1)
      exact ⟨hslots, hsorted, fun q hq => Nat.le_of_succ_le (hle q hq)⟩

/-- A call to bind passes: the passes, and the names that are referred to. -/
abbrev BindCall : Type := List RenderPass × List String

def bindAll (l : Layout) (calls : List BindCall) : Layout :=
  calls.foldl (fun l c => l.bindPasses c.1 c.2) l

theorem bindAll_eq (l : Layout) (calls : List BindCall) : ∃ ps, l.bindAll calls = { l with passes := ps } := by
  unfold bindAll
  induction calls generalizing l with
  | nil => exact ⟨l.passes, rfl⟩
  | cons c calls ih => exact ih (l.bindPasses c.1 c.2)

/-- **After any calls to bind passes the numbers of all bindings are those from zero on**, with the
images first and each pass behind those before it. The calls change neither fields nor images, and of
the passes only the last call counts. -/
theorem slots_bindPasses (inputs : List Input) (renamePrefix : String) (calls : List BindCall)
    (passes : List RenderPass) (referenced : List String) :
    let fresh := (analyze inputs renamePrefix).1
    let l := (fresh.bindAll calls).bindPasses passes referenced
    l.slots = range (2 * (l.textures.length + l.passes.length)) ∧
      l.textures.map TextureBinding.name = (images inputs).map Input.name ∧
      l.passes.Pairwise (fun p q => p.passIndex < q.passIndex) ∧
      l.fields = fresh.fields ∧ l.size = fresh.size ∧ l.textures = fresh.textures ∧
      l.passes = (fresh.bindPasses passes referenced).passes := by
  intro fresh l
  have hl : l = fresh.bindPasses passes referenced := by
    obtain ⟨ps, hps⟩ := bindAll_eq fresh calls
    show (fresh.bindAll calls).bindPasses passes referenced = _
    rw [hps]
    rfl
  rw [hl]
  obtain ⟨hslots, hsorted, -⟩ := slots_bindFrom referenced fresh.textures.length 0 passes
  refine ⟨?_, textures_analyze inputs renamePrefix, hsorted, rfl, rfl, rfl, rfl⟩
  have htextures : fresh.textures.flatMap (fun t => [t.texture, t.sampler]) =
      range (2 * fresh.textures.length) := numbered_analyze inputs renamePrefix
  unfold slots bindPasses
  rw [htextures, hslots, Nat.mul_comm _ 2, range_eq_range', range_eq_range', Nat.mul_add,
    ← range'_append_1, Nat.zero_add]

end ShaderEffect.Layout
