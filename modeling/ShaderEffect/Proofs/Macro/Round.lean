import Mathlib.Logic.Function.Iterate
import ShaderEffect.Macro.Expansion

/-!
# Rounds of expansion

What a round does is said by its first token: a token that names no macro stays (`expandOnce_stay`), a
macro without parameters makes room for its body (`expandOnce_object`), and a macro with parameters
stays or takes the brackets behind it along (`expandOnce_open`, `expandOnce_misfit`,
`expandOnce_fits`). A round that changes nothing gives back its tokens (`out_of_unchanged`), so the
result of expansion is that of as many rounds as there may be (`expandMarked_eq_iterate`).
-/

namespace ShaderEffect

open List

variable {table : MacroTable}

/-! ## The first token of a round -/

theorem Marked.not_isTrivia_of_isPunct {o : Marked} {text : String}
    (h : o.token.isPunct text = true) : o.isTrivia = false := by
  unfold Token.isPunct at h
  rw [Bool.and_eq_true, beq_iff_eq] at h
  unfold Marked.isTrivia Token.isTrivia
  rw [h.1]

section First

variable {table : MacroTable} {t o : Marked} {m : Macro} {params : List String}
  {ts gap rest after : List Marked} {args : MacroArgs}

theorem MacroTable.mem_of_expands? (h : table.expands? t = some m) :
    m ∈ table ∧ t.token.text = m.name ∧ t.token.kind = .ident ∧ m.name ∉ t.hidden := by
  unfold MacroTable.expands? at h
  split at h
  · rename_i hkind
    obtain ⟨hnamed, hhidden⟩ := Option.filter_eq_some_iff.mp h
    have hname := find?_some hnamed
    rw [beq_iff_eq] at hname hkind
    exact ⟨mem_of_find?_eq_some hnamed, hname.symm, hkind, by simpa using hhidden⟩
  · cases h

theorem expandOnce_nil : expandOnce table [] = {} := by
  rw [expandOnce]

theorem expandOnce_stay (h : table.expands? t = none) :
    expandOnce table (t :: ts) = (expandOnce table ts).keep [t] := by
  rw [expandOnce, h]

theorem expandOnce_object (h : table.expands? t = some m) (hm : m.params = none) :
    expandOnce table (t :: ts) = (expandOnce table ts).replace
      (m.body.map fun b => { token := b, hidden := m.name :: t.hidden }) := by
  rw [expandOnce, h]
  dsimp only
  rw [hm]

theorem dropWhile_gap (hgap : ∀ g ∈ gap, g.isTrivia = true) (ho : o.token.isPunct "(" = true) :
    (gap ++ o :: rest).dropWhile Marked.isTrivia = o :: rest := by
  rw [dropWhile_append_of_pos hgap,
    dropWhile_cons_of_neg (by simp [Marked.not_isTrivia_of_isPunct ho])]

variable (h : table.expands? t = some m)
include h

variable (hm : m.params = some params)
include hm

/-- What becomes of a macro with parameters and a bracket behind it. -/
theorem expandOnce_call (hgap : ∀ g ∈ gap, g.isTrivia = true) (ho : o.token.isPunct "(" = true) :
    expandOnce table (t :: (gap ++ o :: rest)) =
      match readArgs 1 rest with
      | none => ((expandOnce table (gap ++ o :: rest)).keep [t]).report (.callOpen m.name)
      | some (args, after) =>
        if fits params args.toList then
          (expandOnce table after).replace
            (substitute (params.zip args.toList) (m.name :: t.hidden) [] false m.body)
        else
          ((expandOnce table after).keep ((t :: (gap ++ o :: rest)).take
              ((t :: (gap ++ o :: rest)).length - after.length))).report
            (.arity m.name params.length args.toList.length) := by
  have hdrop : (gap ++ o :: rest).dropWhile Marked.isTrivia = o :: rest := dropWhile_gap hgap ho
  rw [expandOnce, h]
  dsimp only
  rw [hm]
  dsimp only
  split
  · rename_i hnil
    rw [hdrop] at hnil
    cases hnil
  · rename_i o' rest' hcons
    rw [hdrop] at hcons
    obtain ⟨rfl, rfl⟩ := cons.inj hcons
    rw [if_pos ho]
    split
    · rename_i hnone
      rw [hnone]
    · rename_i hsome
      rw [hsome]

theorem expandOnce_open (hgap : ∀ g ∈ gap, g.isTrivia = true) (ho : o.token.isPunct "(" = true)
    (hargs : readArgs 1 rest = none) :
    expandOnce table (t :: (gap ++ o :: rest)) =
      ((expandOnce table (gap ++ o :: rest)).keep [t]).report (.callOpen m.name) := by
  rw [expandOnce_call h hm hgap ho, hargs]

theorem expandOnce_fits (hgap : ∀ g ∈ gap, g.isTrivia = true) (ho : o.token.isPunct "(" = true)
    (hargs : readArgs 1 rest = some (args, after)) (hfits : fits params args.toList = true) :
    expandOnce table (t :: (gap ++ o :: rest)) = (expandOnce table after).replace
      (substitute (params.zip args.toList) (m.name :: t.hidden) [] false m.body) := by
  rw [expandOnce_call h hm hgap ho, hargs]
  exact if_pos hfits

theorem expandOnce_misfit (hgap : ∀ g ∈ gap, g.isTrivia = true) (ho : o.token.isPunct "(" = true)
    {call : List Marked} (hargs : readArgs 1 (call ++ after) = some (args, after))
    (hfits : fits params args.toList = false) :
    expandOnce table (t :: (gap ++ o :: (call ++ after))) =
      ((expandOnce table after).keep (t :: (gap ++ o :: call))).report
        (.arity m.name params.length args.toList.length) := by
  have htake : (t :: (gap ++ o :: (call ++ after))).take
      ((t :: (gap ++ o :: (call ++ after))).length - after.length) = t :: (gap ++ o :: call) := by
    have happend : t :: (gap ++ o :: (call ++ after)) = (t :: (gap ++ o :: call)) ++ after := by simp
    rw [happend, length_append, Nat.add_sub_cancel, take_left]
  rw [expandOnce_call h hm hgap ho, hargs]
  dsimp only
  rw [if_neg (by simp [hfits]), htake]

end First

/-! ## Rounds that change nothing -/

theorem parts_of_readArgs {depth : Nat} {ts : List Marked} {r : MacroArgs × List Marked}
    (h : readArgs depth ts = some r) : r.1.toList.flatten ⊆ ts ∧ r.2 <:+ ts := by
  have cons : ∀ {d : Nat} {t : Marked} {ts : List Marked} {r : MacroArgs × List Marked},
      (∀ {r}, readArgs d ts = some r → r.1.toList.flatten ⊆ ts ∧ r.2 <:+ ts) →
      (readArgs d ts).map (fun r => (r.1.cons t, r.2)) = some r →
      r.1.toList.flatten ⊆ t :: ts ∧ r.2 <:+ t :: ts := by
    intro d t ts r ih h
    obtain ⟨s, hs, rfl⟩ := Option.map_eq_some_iff.mp h
    exact ⟨cons_subset_cons t (ih hs).1, (ih hs).2.trans (suffix_cons t ts)⟩
  fun_induction readArgs depth ts generalizing r with
  | case1 => cases h
  | case2 _ _ _ _ ih => exact cons ih h
  | case3 => cases h; exact ⟨nil_subset _, suffix_cons _ _⟩
  | case4 _ _ _ _ _ _ ih => exact cons ih h
  | case5 _ _ _ _ _ _ ih =>
    obtain ⟨s, hs, rfl⟩ := Option.map_eq_some_iff.mp h
    obtain ⟨hsubset, hsuffix⟩ := ih hs
    exact ⟨subset_cons_of_subset _ hsubset, hsuffix.trans (suffix_cons _ _)⟩
  | case6 _ _ _ _ _ _ _ ih =>
    exact ⟨subset_cons_of_subset _ (ih h).1, (ih h).2.trans (suffix_cons _ _)⟩
  | case7 _ _ _ _ _ _ _ ih => exact cons ih h

theorem take_append_after {t o : Marked} {ts rest after : List Marked} {args : MacroArgs}
    (hd : ts.dropWhile Marked.isTrivia = o :: rest) (ha : readArgs 1 rest = some (args, after)) :
    (t :: ts).take ((t :: ts).length - after.length) ++ after = t :: ts := by
  have hsuffix : after <:+ t :: ts :=
    (parts_of_readArgs ha).2.trans <| (suffix_cons o rest).trans <|
      (hd ▸ dropWhile_suffix Marked.isTrivia).trans (suffix_cons t ts)
  obtain ⟨call, hcall⟩ := hsuffix
  rw [← hcall, length_append, Nat.add_sub_cancel, take_left]

theorem out_of_unchanged {ts : List Marked} (h : (expandOnce table ts).changed = false) :
    (expandOnce table ts).out = ts := by
  fun_induction expandOnce table ts with
  | case1 => rfl
  | case2 t ts _ ih => exact congrArg (t :: ·) (ih h)
  | case3 => cases h
  | case4 t ts _ _ _ _ _ ih => exact congrArg (t :: ·) (ih h)
  | case5 t ts _ _ _ _ _ _ _ _ _ ih => exact congrArg (t :: ·) (ih h)
  | case6 => cases h
  | case7 t ts m hm params hp o rest hd ho args after ha _ _ _ ih =>
    exact (congrArg (_ ++ ·) (ih h)).trans (take_append_after hd ha)
  | case8 t ts _ _ _ _ _ _ _ _ ih => exact congrArg (t :: ·) (ih h)

theorem notices_expandOnce {ts : List Marked} {passes : Nat} :
    MacroNotice.unsettled passes ∉ (expandOnce table ts).notices := by
  fun_induction expandOnce table ts with
  | case1 => exact not_mem_nil
  | case2 t ts _ ih => exact ih
  | case3 _ _ _ _ _ _ ih => exact ih
  | case4 t ts _ _ _ _ _ ih => exact ih
  | case5 t ts _ _ _ _ _ _ _ _ _ ih => simpa [Round.report, Round.keep] using ih
  | case6 _ _ _ _ _ _ _ _ _ _ _ _ _ _ _ _ ih => exact ih
  | case7 t ts m hm params hp o rest hd ho args after ha _ _ _ ih =>
    simpa [Round.report, Round.keep] using ih
  | case8 t ts _ _ _ _ _ _ _ _ ih => exact ih

/-! ## Many rounds -/

def round (table : MacroTable) (ts : List Marked) : List Marked :=
  (expandOnce table ts).out

def Steady (table : MacroTable) (ts : List Marked) : Prop :=
  (expandOnce table ts).changed = false

/-- Round after round the tokens come to rest. -/
def Settles (table : MacroTable) (ts : List Marked) : Prop :=
  ∃ n, Steady table ((round table)^[n] ts)

theorem Steady.round_eq {ts : List Marked} (h : Steady table ts) : round table ts = ts :=
  out_of_unchanged h

theorem Steady.iterate {ts : List Marked} (h : Steady table ts) (n : Nat) :
    (round table)^[n] ts = ts :=
  Function.iterate_fixed h.round_eq n

theorem Steady.iterate_of_le {ts : List Marked} {m n : Nat} (hmn : m ≤ n)
    (h : Steady table ((round table)^[m] ts)) : (round table)^[n] ts = (round table)^[m] ts := by
  obtain ⟨k, rfl⟩ := Nat.exists_eq_add_of_le hmn
  rw [Nat.add_comm, Function.iterate_add_apply, h.iterate]

theorem settle_fst (table : MacroTable) (limit fuel : Nat) (ts : List Marked) :
    (settle table limit fuel ts).1 = (round table)^[fuel] ts := by
  induction fuel generalizing ts with
  | zero => rfl
  | succ fuel ih =>
    rw [settle, Function.iterate_succ_apply]
    dsimp only
    split
    · exact ih _
    · rename_i hsteady
      have hsteady : Steady table ts := Bool.eq_false_iff.mpr hsteady
      have hround := hsteady.round_eq
      rw [hround, hsteady.iterate]
      exact hround

theorem expandMarked_eq_iterate (table : MacroTable) (limit : Nat) (ts : List Token) :
    (expandMarked table limit ts).1 = (round table)^[limit] (ts.map Marked.plain) :=
  settle_fst table limit limit _

theorem expand_fst (table : MacroTable) (limit : Nat) (ts : List Token) :
    (expand table limit ts).1 =
      ((round table)^[limit] (ts.map Marked.plain)).map Marked.token := by
  rw [← expandMarked_eq_iterate]
  rfl

theorem settled_of_steady {limit fuel n : Nat} {ts : List Marked} (hn : n < fuel)
    (h : Steady table ((round table)^[n] ts)) (passes : Nat) :
    MacroNotice.unsettled passes ∉ (settle table limit fuel ts).2 := by
  induction fuel generalizing n ts with
  | zero => cases hn
  | succ fuel ih =>
    rw [settle]
    dsimp only
    split
    · rename_i hchanged
      cases n with
      | zero =>
        have hsteady : Steady table ts := h
        rw [hsteady] at hchanged
        cases hchanged
      | succ n =>
        have hrest := @ih n (expandOnce table ts).out (Nat.lt_of_succ_lt_succ hn) h
        simpa [notices_expandOnce] using hrest
    · exact notices_expandOnce

end ShaderEffect
