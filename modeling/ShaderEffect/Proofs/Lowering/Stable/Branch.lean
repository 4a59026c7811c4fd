import ShaderEffect.Proofs.Lowering.Stable.Effect
import ShaderEffect.Proofs.Settle

/-!
# Branches that stay apart

The branches of a `switch` are left alone exactly if none is a lone block, none ends in a `break`,
and one that runs on finds empty branches only (`separated_eq_self_iff`).

In a walk the statements of the branches change before the branches are separated, and the two
changes could make up for each other. They do not: branches that come out as they went in have been
left by both (`cases_eq_of_separated`). What a walk makes of one statement is traced by `Traced`,
which says just enough for that: a statement vanishes only if it is a comma, and no statement comes
out inside of itself.
-/

namespace ShaderEffect.Lowering

open Walker List Stmt

variable {body : List Stmt} {cs : List Case}

/-! ## Branches that are left alone -/

/-- What runs from the first of the branches on. -/
def runOn (cs : List Case) : List Stmt :=
  (runThrough (cs.map fun c => caseBody c.body)).1

/-- What runs after a branch with the given statements, of those that follow it. -/
def runAfter (body : List Stmt) (cs : List Case) : List Stmt :=
  if endsInJump body then [] else runOn cs

theorem runOn_cons (c : Case) (cs : List Case) :
    runOn (c :: cs) = caseBody c.body ++ runAfter (caseBody c.body) cs := by
  rw [runOn, map_cons, runThrough, runAfter]
  split
  · rw [append_nil]
  · rfl

/-- The branches, of which none runs into the next. -/
def separated : List Case → List Case
  | [] => []
  | c :: cs => .mk c.labels (dropBreak (runOn (c :: cs))) :: separated cs

theorem separateCases_fst : ∀ (cs : List Case) (a : State), (separateCases cs a).1 = separated cs
  | [], _ => rfl
  | c :: cs, a => by
    obtain ⟨b, hcases, -⟩ := separateCases_cons c cs a
    rw [hcases, separateCases_fst cs b]
    rfl

theorem length_separated : ∀ cs : List Case, (separated cs).length = cs.length
  | [] => rfl
  | _ :: cs => congrArg (· + 1) (length_separated cs)

/-- No branch is a lone block or ends in a `break`, and one that does not end in a jump is followed
by empty branches only. -/
structure BranchesApart (cs : List Case) : Prop where
  bare : ∀ c ∈ cs, ∀ body, c.body ≠ [.block body]
  unbroken : ∀ c ∈ cs, c.body.getLast? ≠ some .breakOut
  apart : cs.Pairwise fun c d => endsInJump c.body = true ∨ d.body = []

theorem caseBody_of_bare (h : ∀ inner, body ≠ [.block inner]) : caseBody body = body := by
  unfold caseBody
  split
  · exact absurd rfl (h _)
  · rfl

theorem dropBreak_of_unbroken (h : body.getLast? ≠ some .breakOut) : dropBreak body = body := by
  unfold dropBreak
  split
  · rename_i hlast
    exact absurd hlast h
  · rfl

theorem dropBreak_cases (body : List Stmt) :
    (body.getLast? ≠ some .breakOut ∧ dropBreak body = body) ∨
      body = dropBreak body ++ [.breakOut] := by
  grind [dropBreak, dropLast_append_getLast?]

theorem dropBreak_append (body : List Stmt) {rest : List Stmt} (h : rest ≠ []) :
    dropBreak (body ++ rest) = body ++ dropBreak rest := by
  unfold dropBreak
  rw [getLast?_append_of_ne_nil _ h, dropLast_append_of_ne_nil h]
  split <;> rfl

namespace BranchesApart

variable {c : Case} {cs : List Case}

theorem tail (h : BranchesApart (c :: cs)) : BranchesApart cs where
  bare := fun d hd => h.bare d (mem_cons_of_mem _ hd)
  unbroken := fun d hd => h.unbroken d (mem_cons_of_mem _ hd)
  apart := (pairwise_cons.mp h.apart).2

theorem runOn_eq_nil : ∀ {cs : List Case}, (∀ d ∈ cs, d.body = []) → runOn cs = []
  | [], _ => rfl
  | c :: cs, h => by
    rw [forall_mem_cons] at h
    rw [runOn_cons, h.1]
    exact runOn_eq_nil h.2

theorem runOn_cons_eq (h : BranchesApart (c :: cs)) : runOn (c :: cs) = c.body := by
  have hbody := caseBody_of_bare (h.bare c mem_cons_self)
  rw [runOn_cons, hbody, runAfter]
  split
  · exact append_nil _
  · rename_i hjump
    have hnext : ∀ d ∈ cs, d.body = [] := fun d hd =>
      ((pairwise_cons.mp h.apart).1 d hd).resolve_left hjump
    rw [runOn_eq_nil hnext, append_nil]

theorem runAfter_cases (h : BranchesApart cs) (body : List Stmt) :
    runAfter body cs = [] ∨ runAfter body cs ≠ [] ∧ ∃ d ∈ cs, runAfter body cs = d.body := by
  unfold runAfter
  split
  · exact .inl rfl
  · cases cs with
    | nil => exact .inl rfl
    | cons d cs =>
      rw [h.runOn_cons_eq]
      grind

theorem of_runAfter_eq_nil (h : BranchesApart cs) (hnil : runAfter body cs = []) :
    ∀ d ∈ cs, endsInJump body = true ∨ d.body = [] := by
  intro d hd
  by_cases hjump : endsInJump body = true
  · exact .inl hjump
  · rw [runAfter, if_neg hjump] at hnil
    cases cs with
    | nil => cases hd
    | cons c cs =>
      rw [h.runOn_cons_eq] at hnil
      refine .inr ?_
      rcases mem_cons.mp hd with rfl | hd
      · exact hnil
      · refine ((pairwise_cons.mp h.apart).1 d hd).resolve_left ?_
        rw [hnil]
        exact Bool.false_ne_true

theorem cons_of_eq (h : BranchesApart cs) (heq : dropBreak (runOn (c :: cs)) = c.body) :
    BranchesApart (c :: cs) := by
  rw [runOn_cons] at heq
  have hbare : ∀ inner, c.body ≠ [.block inner] := by
    intro inner hinner
    rw [hinner, caseBody] at heq
    cases inner with
    | cons s inner =>
      -- the block would be the first statement inside of itself
      have hhead : s = .block (s :: inner) := by
        rcases dropBreak_cases (s :: inner ++ runAfter (s :: inner) cs) with ⟨-, hsame⟩ | hsame
        · rw [hsame] at heq
          exact (cons.inj heq).1
        · rw [heq] at hsame
          exact (cons.inj hsame).1
      have hsize := sizeOf_lt_of_mem_children
        (show s ∈ (block (s :: inner)).children from mem_cons_self)
      rw [← hhead] at hsize
      exact absurd hsize (Nat.lt_irrefl _)
    | nil =>
      rw [nil_append] at heq
      rcases h.runAfter_cases [] with hnil | ⟨-, d, hd, hrest⟩
      · rw [hnil] at heq
        cases heq
      · rw [hrest, dropBreak_of_unbroken (h.unbroken d hd)] at heq
        exact h.bare d hd _ heq
  rw [caseBody_of_bare hbare] at heq
  have hnil : runAfter c.body cs = [] := by
    rcases h.runAfter_cases c.body with hnil | ⟨hne, d, hd, hrest⟩
    · exact hnil
    · rw [dropBreak_append _ hne, hrest, dropBreak_of_unbroken (h.unbroken d hd)] at heq
      rw [hrest]
      exact append_cancel_left (heq.trans (append_nil _).symm)
  rw [hnil, append_nil] at heq
  have hunbroken : c.body.getLast? ≠ some .breakOut := by
    rcases dropBreak_cases c.body with ⟨hne, -⟩ | hsame
    · exact hne
    · rw [heq] at hsame
      cases append_cancel_left ((append_nil _).trans hsame)
  exact ⟨forall_mem_cons.mpr ⟨hbare, h.bare⟩,
    forall_mem_cons.mpr ⟨hunbroken, h.unbroken⟩,
    pairwise_cons.mpr ⟨h.of_runAfter_eq_nil hnil, h.apart⟩⟩

end BranchesApart

/-- **Branches are left alone exactly if they are apart.** -/
theorem separated_eq_self_iff : separated cs = cs ↔ BranchesApart cs := by
  induction cs with
  | nil => exact ⟨fun _ => ⟨nofun, nofun, .nil⟩, fun _ => rfl⟩
  | cons c cs ih =>
    obtain ⟨labels, body⟩ := c
    rw [separated, cons.injEq, ih, Case.mk.injEq, Case.labels_mk, eq_self, true_and]
    constructor
    · rintro ⟨heq, h⟩
      exact h.cons_of_eq heq
    · intro h
      rw [h.runOn_cons_eq]
      exact ⟨dropBreak_of_unbroken (h.unbroken _ mem_cons_self), h.tail⟩

-- a branch that has lost its `break` runs on into the next one
example :
    let f : Stmt := .expr (.call "f" [])
    let g : Stmt := .expr (.call "g" [])
    let once := separated [.mk [.value (.int "0")] [f, .breakOut], .mk [.default] [g]]
    once.map Case.body = [[f], [g]] ∧ (separated once).map Case.body = [[f, g], [g]] :=
  ⟨rfl, rfl⟩

/-! ## What becomes of a statement -/

/-- What is known about the outcome of a statement: it vanishes only if it is a comma, commas come
from heavier ones, a block that was none before holds more than commas, and the statement is not
deeper inside its outcome. -/
structure Traced (s : Stmt) (out : List Stmt) : Prop where
  ne_nil : commaWeight s = 0 → out ≠ []
  lighter : ∀ t ∈ out, 0 < commaWeight t → commaWeight t < commaWeight s
  opened : ∀ body, out = [.block body] →
    (∃ body', s = .block body') ∨ ∃ t ∈ body, commaWeight t = 0
  self : s ∈ Stmt.substmtsAll out → s ∈ out

/-- What a walk that settles makes of a statement, with what is known about the outcome. -/
abbrev TracedTo (K : Env → Stmt → Prop) : Env → Stmt → State → List Stmt → State → Prop :=
  StmtSettles K fun _ s _ out _ => Traced s out

section Traces

variable {K : Env → Stmt → Prop} {env : Env} {ss out : List Stmt} {a b : State}

variable (h : StmtsTo (TracedTo K) env ss a out b)
include h

theorem exists_heavier {t : Stmt} (ht : t ∈ out) (hpos : 0 < commaWeight t) :
    ∃ s ∈ ss, commaWeight t < commaWeight s := by
  induction h with
  | nil => cases ht
  | cons hs _ ih =>
    rcases mem_append.mp ht with ht | ht
    · exact ⟨_, mem_cons_self, hs.extra.lighter t ht hpos⟩
    grind

theorem length_le_of_no_comma (hss : ∀ s ∈ ss, commaWeight s = 0) : ss.length ≤ out.length := by
  induction h with
  | nil => exact Nat.le_refl 0
  | cons hs _ ih =>
    rw [forall_mem_cons] at hss
    have hpos := length_pos_iff.mpr (hs.extra.ne_nil hss.1)
    have hle := ih hss.2
    rw [length_cons, length_append]
    omega

theorem comma_of_vanished (hout : out = []) : ∀ s ∈ ss, 0 < commaWeight s := by
  induction h with
  | nil => exact forall_mem_nil _
  | cons hs _ ih =>
    obtain ⟨hnil, hrest⟩ := append_eq_nil_iff.mp hout
    refine forall_mem_cons.mpr ⟨Nat.pos_of_ne_zero fun hzero => ?_, ih hrest⟩
    exact hs.extra.ne_nil hzero hnil

theorem exists_origin {t : Stmt} (hout : out = [t]) :
    ∃ l s r, ss = l ++ s :: r ∧ Traced s [t] ∧ ∀ x ∈ l ++ r, 0 < commaWeight x := by
  induction h with
  | nil => cases hout
  | @cons _ s ss _ _ _ _ _ hs hrest ih =>
    rcases append_eq_singleton_iff.mp hout with ⟨hnil, hothers⟩ | ⟨hself, hothers⟩
    · obtain ⟨l, w, r, rfl, hw, hvanish⟩ := ih hothers
      refine ⟨s :: l, w, r, rfl, hw, forall_mem_cons.mpr ⟨?_, hvanish⟩⟩
      exact Nat.pos_of_ne_zero fun hzero => hs.extra.ne_nil hzero hnil
    · refine ⟨[], s, ss, rfl, ?_, comma_of_vanished hrest hothers⟩
      rw [← hself]
      exact hs.extra

end Traces

theorem no_comma_of_ascent {ss : List Stmt}
    (h : ∀ s ∈ ss, 0 < commaWeight s → ∃ t ∈ ss, commaWeight s < commaWeight t) :
    ∀ s ∈ ss, commaWeight s = 0 := by
  intro s hs
  by_contra hzero
  have hclimb : ∀ n, ∃ t ∈ ss, n < commaWeight t := by
    intro n
    induction n with
    | zero => exact ⟨s, hs, Nat.pos_of_ne_zero hzero⟩
    | succ n ih =>
      grind
  obtain ⟨t, ht, hlt⟩ := hclimb (ss.map commaWeight).sum
  have hle : commaWeight t ≤ (ss.map commaWeight).sum :=
    single_le_sum (fun _ _ => Nat.zero_le _) _ (mem_map_of_mem ht)
  exact absurd hlt (Nat.not_lt.mpr hle)

/-! ## Branches in a walk -/

variable {K : Env → Stmt → Prop}

theorem settled_of_mem_cases {env : Env} (h : ∀ q ∈ Stmt.placesCases env cs, K q.1 q.2) {c : Case}
    (hc : c ∈ cs) {s : Stmt} (hs : s ∈ c.body) : ∃ around, K around s := by
  have hmem : s ∈ (placesCases env cs).map Prod.snd := by
    rw [map_snd_placesCases, substmtsCases_eq_flatMap]
    exact mem_flatMap.mpr ⟨s, mem_flatMap.mpr ⟨c, hc, hs⟩, mem_substmts_self s⟩
  obtain ⟨q, hq, rfl⟩ := mem_map.mp hmem
  exact ⟨q.1, h q hq⟩

section Bodies

variable {env : Env} {body body' rest : List Stmt} {a b : State}

theorem not_mem_of_traced {s : Stmt} {inner : List Stmt} (h : Traced s [.block inner]) :
    s ∉ inner := by
  intro hmem
  have hin : s ∈ (block inner).substmts :=
    mem_substmts.mpr (.inr (mem_substmtsAll.mpr ⟨s, hmem, mem_substmts_self s⟩))
  have hsize := sizeOf_lt_of_mem_children (show s ∈ (block inner).children from hmem)
  have hself := h.self (mem_substmtsAll.mpr ⟨_, mem_cons_self, hin⟩)
  rw [mem_singleton.mp hself] at hsize
  exact absurd hsize (Nat.lt_irrefl _)

/-- The statements of a branch do not come out as a lone block: it would hold all of them but one,
and the one that it is made of would be the next branch. -/
theorem ne_lone_block {inner : List Stmt} (h : StmtsTo (TracedTo K) env body a [.block inner] b)
    (hunbroken : rest.getLast? ≠ some .breakOut) (hbare : ∀ inner, rest ≠ [.block inner])
    (hcomma : ∀ s ∈ rest, commaWeight s = 0) : dropBreak (inner ++ rest) ≠ body := by
  intro heq
  obtain ⟨l, w, r, hbody, hw, hvanish⟩ := exists_origin h rfl
  rw [forall_mem_append] at hvanish
  have houter := not_mem_of_traced hw
  have hne : rest ≠ [] := by
    rintro rfl
    rw [append_nil] at heq
    refine houter (dropBreak_subset _ ?_)
    rw [heq, hbody]
    simp
  rw [dropBreak_append _ hne, dropBreak_of_unbroken hunbroken, hbody] at heq
  -- what vanishes is a comma, and no comma stands in the next branch
  have hnone : ∀ {xs : List Stmt}, xs ⊆ rest → (∀ x ∈ xs, 0 < commaWeight x) → xs = [] :=
    fun hsub hpos => eq_nil_iff_forall_not_mem.mpr fun x hx =>
      absurd (hcomma x (hsub hx)) (hpos x hx).ne'
  have hrest : rest = [w] ∧ inner = l := by
    rcases append_eq_append_iff.mp heq with ⟨left, hl, hrest⟩ | ⟨left, hinner, hrest⟩
    · have hleft : left = [] := hnone (hrest ▸ subset_append_left _ _) fun x hx =>
        hvanish.1 x (hl ▸ mem_append_right _ hx)
      have hr : r = [] := hnone (hrest ▸ fun x hx => by simp [hx]) hvanish.2
      subst hleft hr
      rw [append_nil] at hl
      exact ⟨hrest, hl.symm⟩
    · cases left with
      | nil =>
        rw [append_nil] at hinner
        rw [nil_append] at hrest
        have hr : r = [] := hnone (hrest ▸ subset_cons_self _ _) hvanish.2
        subst hr
        exact ⟨hrest.symm, hinner⟩
      | cons x left =>
        obtain ⟨rfl, -⟩ := cons.inj hrest
        exact absurd (hinner ▸ mem_append_right _ mem_cons_self) houter
  obtain ⟨rfl, rfl⟩ := hrest
  rcases hw.opened inner rfl with ⟨body', rfl⟩ | ⟨t, ht, hzero⟩
  · exact hbare body' rfl
  · exact absurd hzero (hvanish.1 t ht).ne'

/-- The statements of a branch that come out as they went in, with those that run after it, have
been left: where nothing vanishes, nothing can run after them. -/
theorem body_eq_of_dropBreak (h : StmtsTo (TracedTo K) env body a body' b)
    (heq : dropBreak (body' ++ rest) = body) (hunbroken : rest.getLast? ≠ some .breakOut)
    (hcomma : ∀ s ∈ rest, commaWeight s = 0) : body' = body := by
  by_cases hnil : rest = []
  · subst hnil
    rw [append_nil] at heq
    rcases dropBreak_cases body' with ⟨-, hsame⟩ | hsame
    · exact hsame.symm.trans heq
    · rw [heq] at hsame
      cases ((Stepwise.settling K _).onAppend h trivial hsame).1
  · rw [dropBreak_append _ hnil, dropBreak_of_unbroken hunbroken] at heq
    have hnone : ∀ s ∈ body, commaWeight s = 0 := no_comma_of_ascent fun s hs hpos => by
      grind [exists_heavier]
    have hle := length_le_of_no_comma h hnone
    grind [length_eq_zero_iff]

end Bodies

/-- **Branches that come out of a walk as they went in have been left on the way.** The induction is
from the last branch to the first, since a branch may run on into those that follow. -/
theorem cases_eq_of_separated (hK : ∀ env s, K env s → commaWeight s = 0) {env : Env}
    {cs' : List Case} {a b : State} (h : CasesTo (TracedTo K) env cs a cs' b)
    (heq : separated cs' = cs) : cs' = cs := by
  induction h with
  | nil => rfl
  | @cons labels body body' cs cs' a b c hbody hcs ih =>
    obtain ⟨hhead, htail⟩ := cons.inj heq
    obtain rfl := ih htail
    have hsettled := ((Stepwise.settling K _).onCases hcs trivial).1.mp rfl
    have hapart := separated_eq_self_iff.mp htail
    have hhead : dropBreak (runOn (.mk labels body' :: cs')) = body := (Case.mk.inj hhead).2
    rw [runOn_cons, Case.body_mk] at hhead
    have hrest : (runAfter (caseBody body') cs').getLast? ≠ some .breakOut ∧
        (∀ inner, runAfter (caseBody body') cs' ≠ [.block inner]) ∧
        ∀ s ∈ runAfter (caseBody body') cs', commaWeight s = 0 := by
      rcases hapart.runAfter_cases (caseBody body') with hnil | ⟨-, d, hd, hrest⟩
      · rw [hnil]
        exact ⟨nofun, nofun, forall_mem_nil _⟩
      · rw [hrest]
        refine ⟨hapart.unbroken d hd, hapart.bare d hd, fun s hs => ?_⟩
        obtain ⟨around, hs⟩ := settled_of_mem_cases hsettled hd hs
        exact hK around s hs
    have hbare : ∀ inner, body' ≠ [.block inner] := by
      rintro inner rfl
      exact ne_lone_block hbody hrest.1 hrest.2.1 hrest.2.2 hhead
    grind [caseBody_of_bare, body_eq_of_dropBreak]

end ShaderEffect.Lowering
