import ShaderEffect.Proofs.Macro.Settling

/-!
# Macros without parameters

What a macro makes room for is hidden from this macro too, so with each round the tokens that can
still be expanded are hidden from one macro more (`Shielded.round`). **Where no macro has parameters,
expansion settles in one round more than there are macros** (`expand_objects`), however the macros
refer to each other.
-/

namespace ShaderEffect

open List

variable {table : MacroTable} {ts : List Marked}

/-- A token that can be expanded is hidden from at least `n` of the macros. -/
def Shielded (table : MacroTable) (n : Nat) (ts : List Marked) : Prop :=
  ∀ t ∈ ts, table.expands? t ≠ none → n + rank table t.hidden ≤ table.length

theorem shielded_zero (table : MacroTable) (ts : List Marked) : Shielded table 0 ts := by
  intro t _ _
  rw [Nat.zero_add]
  exact length_filter_le _ _

theorem Shielded.inert (h : Shielded table table.length ts) :
    ∀ t ∈ ts, table.expands? t = none := by
  intro t ht
  by_contra hexpands
  obtain ⟨m, hm⟩ := Option.ne_none_iff_exists'.mp hexpands
  obtain ⟨hmem, -, -, hvisible⟩ := MacroTable.mem_of_expands? hm
  have hrank := rank_lt hmem hvisible
  have hbound := h t ht hexpands
  omega

theorem steady_of_inert (h : ∀ t ∈ ts, table.expands? t = none) : Steady table ts := by
  have hround := expandOnce_inert h []
  rw [append_nil, expandOnce_nil] at hround
  rw [Steady, hround]
  rfl

section Objects

variable (hobjects : ∀ m ∈ table, m.params = none)
include hobjects

theorem mem_round {u : Marked} (hu : u ∈ round table ts) :
    ∃ t ∈ ts, (u = t ∧ table.expands? t = none) ∨
      ∃ m, table.expands? t = some m ∧ u.hidden = m.name :: t.hidden := by
  induction ts with
  | nil =>
    rw [round_nil] at hu
    cases hu
  | cons t ts ih =>
    cases hexpands : table.expands? t with
    | none =>
      rw [round_cons hexpands] at hu
      rcases mem_cons.mp hu with rfl | hu
      · exact ⟨u, mem_cons_self, .inl ⟨rfl, hexpands⟩⟩
      · obtain ⟨t', ht', h⟩ := ih hu
        exact ⟨t', mem_cons_of_mem t ht', h⟩
    | some m =>
      have hm := hobjects m (MacroTable.mem_of_expands? hexpands).1
      rw [round, expandOnce_object hexpands hm] at hu
      rcases mem_append.mp hu with hu | hu
      · obtain ⟨b, -, rfl⟩ := mem_map.mp hu
        exact ⟨t, mem_cons_self, .inr ⟨m, hexpands, rfl⟩⟩
      · obtain ⟨t', ht', h⟩ := ih hu
        exact ⟨t', mem_cons_of_mem t ht', h⟩

theorem Shielded.round {n : Nat} (h : Shielded table n ts) :
    Shielded table (n + 1) (round table ts) := by
  intro u hu hexpands
  obtain ⟨t, ht, ⟨rfl, hnone⟩ | ⟨m, hm, hhidden⟩⟩ := mem_round hobjects hu
  · exact absurd hnone hexpands
  · obtain ⟨hmem, -, -, hvisible⟩ := MacroTable.mem_of_expands? hm
    have hbound := h t ht (by simp [hm])
    have hrank := rank_lt hmem hvisible
    rw [hhidden]
    omega

theorem inert_iterate (ts : List Marked) :
    ∀ t ∈ (ShaderEffect.round table)^[table.length] ts, table.expands? t = none := by
  have hrounds : ∀ n, Shielded table n ((ShaderEffect.round table)^[n] ts) := by
    intro n
    induction n with
    | zero => exact shielded_zero table ts
    | succ n ih =>
      rw [Function.iterate_succ_apply']
      exact ih.round hobjects
  exact (hrounds table.length).inert

end Objects

/-- **Macros without parameters settle in one round more than there are macros**: no limit from there
on is reported or changes the outcome, and in the outcome each name of a macro is hidden from this
macro. -/
theorem expand_objects (table : MacroTable) (hobjects : ∀ m ∈ table, m.params = none)
    (ts : List Token) (limit : Nat) (hlimit : table.length + 1 ≤ limit) :
    (∀ passes, MacroNotice.unsettled passes ∉ (expand table limit ts).2) ∧
      (∀ other, table.length + 1 ≤ other → (expand table other ts).1 = (expand table limit ts).1) ∧
      ∀ t ∈ (expandMarked table limit ts).1, t.token.kind = .ident →
        table.defines t.token.text = true → t.token.text ∈ t.hidden := by
  have hinert := inert_iterate hobjects (ts.map Marked.plain)
  have hsteady := steady_of_inert hinert
  have hiterate : ∀ other, table.length + 1 ≤ other → (round table)^[other] (ts.map Marked.plain) =
      (round table)^[table.length] (ts.map Marked.plain) := fun other hother =>
    hsteady.iterate_of_le (Nat.le_of_succ_le hother)
  refine ⟨settled_of_steady hlimit hsteady, fun other hother => ?_, fun t ht hkind hdefines => ?_⟩
  · rw [expand_fst, expand_fst, hiterate other hother, hiterate limit hlimit]
  · rw [expandMarked_eq_iterate, hiterate limit hlimit] at ht
    obtain ⟨m, hm⟩ := Option.isSome_iff_exists.mp hdefines
    have hname : m.name = t.token.text := by simpa using find?_some hm
    have hnone := hinert t ht
    rw [MacroTable.expands?, if_pos (by simp [hkind]), hm] at hnone
    simpa [Option.filter, hname] using hnone

/-- Three macros that refer to each other in a circle, and one to itself. -/
def circle : MacroTable :=
  [{ name := "A", params := none, body := Token.tokenize "B + X" },
   { name := "B", params := none, body := Token.tokenize "C * A" },
   { name := "C", params := none, body := Token.tokenize "A B" },
   { name := "X", params := none, body := Token.tokenize "X + 1" }]

theorem expand_objects_circle :
    (∀ passes, MacroNotice.unsettled passes ∉ (expand circle 5 (Token.tokenize "A + B")).2) ∧
      (∀ other, 5 ≤ other → (expand circle other (Token.tokenize "A + B")).1 =
        (expand circle 5 (Token.tokenize "A + B")).1) ∧
      ∀ t ∈ (expandMarked circle 5 (Token.tokenize "A + B")).1, t.token.kind = .ident →
        circle.defines t.token.text = true → t.token.text ∈ t.hidden :=
  expand_objects circle (by decide) (Token.tokenize "A + B") 5 (by decide)

end ShaderEffect
