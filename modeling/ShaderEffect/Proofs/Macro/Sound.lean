import ShaderEffect.Proofs.Macro.Branch
import ShaderEffect.Proofs.Macro.Settling
import ShaderEffect.Proofs.Token.Legible

/-!
# The tokens of a preprocessed body

Each token of a preprocessed body is a line feed, a piece of blanks, or starts with another character
(`sound_tokens`). Expansion makes tokens of its own only where it puts two together: the first of them is
never trivia, so the result starts as it does (`sound_pasted`).
-/

namespace ShaderEffect

open List

open Token (Sound)

/-! ## Tokens that are put together -/

theorem sound_pasted {left right : Token} (hleft : left.Sound) (hlayout : left.isLayout = false) :
    Sound { kind := pastedKind (left.text ++ right.text), text := left.text ++ right.text } := by
  obtain ⟨c, cs, htext, hc⟩ := hleft.first_of_solid hlayout
  have hchars : (left.text ++ right.text).toList = c :: (cs ++ right.text.toList) := by
    rw [String.toList_append, htext, cons_append]
  refine .solid ?_ hchars hc
  -- the class is that of the first token of the text, which starts with the same character
  grind [pastedKind, Token.tokenize, Token.tokenizeChars, Token.isLayout_next, Token.isLayout]

theorem not_isLayout_of_not_isTrivia {t : Token} (h : t.isTrivia = false) : t.isLayout = false := by
  grind [Token.isTrivia_of_isLayout]

section Paste

variable {args : List (String × List Marked)} {hidden : List String}

theorem sound_paste {soFar piece : List Marked} (hsoFar : ∀ t ∈ soFar, t.token.Sound)
    (hpiece : ∀ t ∈ piece, t.token.Sound)
    (hlast : ∀ t, soFar.getLast? = some t → t.isTrivia = false) :
    ∀ t ∈ paste hidden soFar piece, t.token.Sound := by
  intro t ht
  unfold paste at ht
  split at ht
  · rename_i left right rest hleft
    rcases mem_append.mp ht with ht | ht
    · exact hsoFar t (dropLast_subset soFar ht)
    · rcases mem_cons.mp ht with rfl | ht
      · exact sound_pasted (hsoFar left (mem_of_getLast? hleft))
          (not_isLayout_of_not_isTrivia (hlast left hleft))
      · exact hpiece t (mem_cons_of_mem right ht)
  grind

theorem sound_bodyPiece (hargs : ∀ a ∈ args, ∀ t ∈ a.2, t.token.Sound) {b : Token} (hb : b.Sound) :
    ∀ t ∈ bodyPiece args hidden b, t.token.Sound := by
  intro t ht
  rcases bodyPiece_cases args hidden b with ⟨a, ha, hpiece⟩ | ⟨hpiece, -⟩
  · obtain ⟨front, back, -, hsplit⟩ := exists_trimTrivia a.2
    grind
  · rw [hpiece, mem_singleton] at ht
    rw [ht]
    exact hb

theorem sound_substitute (hargs : ∀ a ∈ args, ∀ t ∈ a.2, t.token.Sound) {body : List Token}
    (hbody : ∀ b ∈ body, b.Sound) {soFar : List Marked} {pasting : Bool}
    (hsoFar : ∀ t ∈ soFar, t.token.Sound)
    (hlast : pasting = true → ∀ t, soFar.getLast? = some t → t.isTrivia = false) :
    ∀ t ∈ substitute args hidden soFar pasting body, t.token.Sound := by
  induction body generalizing soFar pasting with
  | nil => exact hsoFar
  | cons b body ih =>
    have hrest : ∀ u ∈ body, u.Sound := fun u hu => hbody u (mem_cons_of_mem b hu)
    have hpiece : ∀ t ∈ bodyPiece args hidden b, t.token.Sound :=
      sound_bodyPiece hargs (hbody b mem_cons_self)
    grind [substitute, dropWhile_subset, head?_dropWhile_not, sound_paste]

end Paste

/-! ## Rounds -/

section Rounds

variable {table : MacroTable}

theorem sound_round (htable : ∀ m ∈ table, ∀ b ∈ m.body, b.Sound) {ts : List Marked}
    (hts : ∀ t ∈ ts, t.token.Sound) : ∀ t ∈ round table ts, t.token.Sound := by
  unfold round
  have stay : ∀ {t : Marked} {ts : List Marked},
      ((∀ u ∈ ts, u.token.Sound) → ∀ u ∈ (expandOnce table ts).out, u.token.Sound) →
      (∀ u ∈ t :: ts, u.token.Sound) → ∀ u ∈ t :: (expandOnce table ts).out, u.token.Sound :=
    fun ih hts => forall_mem_cons.mpr
      ⟨hts _ mem_cons_self, ih fun u hu => hts u (mem_cons_of_mem _ hu)⟩
  -- what stands behind the name of a call
  have behind : ∀ {t o : Marked} {ts rest : List Marked},
      ts.dropWhile Marked.isTrivia = o :: rest → (∀ u ∈ t :: ts, u.token.Sound) →
      ∀ u ∈ rest, u.token.Sound := by
    intro t o ts rest hd hts u hu
    have hmem : u ∈ ts.dropWhile Marked.isTrivia := hd ▸ mem_cons_of_mem o hu
    exact hts u (mem_cons_of_mem t (dropWhile_subset _ hmem))
  fun_induction expandOnce table ts with
  | case1 => exact hts
  | case2 t ts _ ih => exact stay ih hts
  | case3 t ts m hm hidden hp ih =>
    refine forall_mem_append.mpr ⟨fun u hu => ?_, fun u hu => ?_⟩
    · obtain ⟨b, hb, rfl⟩ := mem_map.mp hu
      exact htable m (MacroTable.mem_of_expands? hm).1 b hb
    · exact ih (fun v hv => hts v (mem_cons_of_mem t hv)) u hu
  | case4 t ts _ _ _ _ _ ih => exact stay ih hts
  | case5 t ts _ _ _ _ _ _ _ _ _ ih => exact stay ih hts
  | case6 t ts m hm hidden params hp o rest hd ho args after ha hlt hfits ih =>
    have hrest := behind hd hts
    refine forall_mem_append.mpr ⟨?_, ih fun u hu => hrest u ((parts_of_readArgs ha).2.subset hu)⟩
    refine sound_substitute (fun a hmem u hu => hrest u ((parts_of_readArgs ha).1 ?_))
      (htable m (MacroTable.mem_of_expands? hm).1) (forall_mem_nil _)
      fun h => absurd h Bool.false_ne_true
    exact mem_flatten.mpr ⟨a.2, (of_mem_zip hmem).2, hu⟩
  | case7 t ts m hm params hp o rest hd ho args after ha hlt hfits call ih =>
    have hrest := behind hd hts
    refine forall_mem_append.mpr ⟨fun u hu => hts u (mem_of_mem_take hu), ?_⟩
    exact ih fun u hu => hrest u ((parts_of_readArgs ha).2.subset hu)
  | case8 t ts _ _ _ _ _ _ _ _ ih => exact stay ih hts

theorem sound_expand (htable : ∀ m ∈ table, ∀ b ∈ m.body, b.Sound) (limit : Nat) {ts : List Token}
    (hts : ∀ t ∈ ts, t.Sound) : ∀ t ∈ (expand table limit ts).1, t.Sound := by
  have hiterate : ∀ n, ∀ t ∈ (round table)^[n] (ts.map Marked.plain), t.token.Sound := by
    intro n
    induction n with
    | zero =>
      intro t ht
      obtain ⟨u, hu, rfl⟩ := mem_map.mp ht
      exact hts u hu
    | succ n ih =>
      rw [Function.iterate_succ_apply']
      exact sound_round htable ih
  grind [expand_fst]

end Rounds

/-! ## Lines -/

theorem trimTrivia_subset (ts : List Token) : Token.trimTrivia ts ⊆ ts := by
  intro t ht
  have hreverse := mem_reverse.mp (dropWhile_subset _ ht)
  exact mem_reverse.mp (dropWhile_subset _ hreverse)

theorem readParams_subset {ts body : List Token} {params : Option (List String)}
    (h : readParams ts = some (params, body)) : body ⊆ ts := by
  unfold readParams at h
  grind [dropWhile_subset]

theorem body_subset {inputs : List String} {rest : List Token} {m : Macro}
    (h : readMacro inputs rest = .ok m) : m.body ⊆ rest := by
  unfold readMacro at h
  split at h
  · cases h
  · rename_i name after hdrop
    split at h
    · cases h
    · split at h
      · cases h
      · rename_i params body hparams
        split at h
        · cases h
        · cases h
          intro t ht
          have hbody := (mem_filter.mp (trimTrivia_subset _ ht)).1
          have hafter := mem_cons_of_mem name (readParams_subset hparams hbody)
          rw [← hdrop] at hafter
          exact dropWhile_subset _ hafter

theorem define_subset {line rest : List Token} (h : Directive.ofLine? line = some (.define rest)) :
    rest ⊆ line := by
  unfold Directive.ofLine? at h
  split at h
  · rename_i hash after hdrop
    split at h
    · have hafter : Token.trimTrivia (after.filter fun t => t.kind != .newline) ⊆ line := by
        grind [trimTrivia_subset, dropWhile_subset]
      have hdefine := Option.some.inj h
      unfold Directive.ofTokens at hdefine
      grind
    · cases h
  · cases h

namespace Preprocessor

variable {inputs : List String} {limit : Nat} {p : Preprocessor} {line : List Token}

theorem undefine_subset (table : MacroTable) (name : String) : table.undefine name ⊆ table :=
  filter_sublist.subset

/-- **What a directive can do**: it leaves the text alone, and a macro that is new is the one that it
defines. -/
theorem obey_cases (inputs : List String) (limit : Nat) (d : Directive) (p : Preprocessor) :
    (p.obey inputs limit d).out = p.out ∧ (p.obey inputs limit d).waiting = p.waiting ∧
      ∀ m ∈ (p.obey inputs limit d).table,
        m ∈ p.table ∨ ∃ rest, d = .define rest ∧ readMacro inputs rest = .ok m := by
  have same : ∀ {q : Preprocessor}, q.out = p.out → q.waiting = p.waiting → q.table = p.table →
      q.out = p.out ∧ q.waiting = p.waiting ∧
        ∀ m ∈ q.table, m ∈ p.table ∨ ∃ rest, d = .define rest ∧ readMacro inputs rest = .ok m :=
    fun hout hwaiting htable => ⟨hout, hwaiting, fun m hm => .inl (htable ▸ hm)⟩
  unfold obey
  split
  · exact same rfl rfl rfl
  · unfold turnBranch
    split <;> exact same rfl rfl rfl
  · unfold otherwise
    split <;> exact same rfl rfl rfl
  · unfold close
    split <;> exact same rfl rfl rfl
  · split
    · unfold obeyActive
      split
      · unfold define
        split
        · rename_i m hread
          refine ⟨rfl, rfl, fun k hk => ?_⟩
          rcases mem_cons.mp hk with rfl | hk
          · exact .inr ⟨_, rfl, hread⟩
          · exact .inl (undefine_subset _ _ hk)
        · exact same rfl rfl rfl
      · exact ⟨rfl, rfl, fun k hk => .inl (undefine_subset _ _ hk)⟩
      · exact same rfl rfl rfl
      · exact same rfl rfl rfl
    · exact same rfl rfl rfl

/-- The tokens that the preprocessor holds are sound. -/
structure Sound (p : Preprocessor) : Prop where
  table : ∀ m ∈ p.table, ∀ b ∈ m.body, b.Sound
  waiting : ∀ t ∈ p.waiting, t.Sound
  out : ∀ t ∈ p.out, t.Sound

theorem Sound.flush (h : p.Sound) (limit : Nat) : (p.flush limit).Sound where
  table := h.table
  waiting := forall_mem_nil _
  out := forall_mem_append.mpr ⟨h.out, sound_expand h.table limit h.waiting⟩

theorem Sound.blank (h : p.Sound) (lines : List (List Token)) : (p.blank lines).Sound where
  table := h.table
  waiting := h.waiting
  out := by
    refine forall_mem_append.mpr ⟨h.out, fun t ht => ?_⟩
    obtain ⟨line, -, ht⟩ := mem_flatMap.mp ht
    rw [eq_of_mem_replicate ht]
    exact .line

theorem Sound.obey (h : p.Sound) {d : Directive} (hline : ∀ t ∈ line, t.Sound)
    (hreads : Directive.ofLine? line = some d) : (p.obey inputs limit d).Sound := by
  obtain ⟨hout, hwaiting, htable⟩ := obey_cases inputs limit d p
  refine ⟨fun m hm b hb => ?_, hwaiting ▸ h.waiting, hout ▸ h.out⟩
  rcases htable m hm with hm | ⟨rest, rfl, hread⟩
  · exact h.table m hm b hb
  · exact hline b (define_subset hreads (body_subset hread hb))

theorem Sound.addLine (h : p.Sound) (hline : ∀ t ∈ line, t.Sound) :
    (p.addLine inputs limit line).Sound := by
  cases hreads : Directive.ofLine? line with
  | some d =>
    rw [addLine_directive hreads]
    exact ((h.flush limit).obey hline hreads).blank [line]
  | none =>
    cases hactive : p.isActive with
    | true =>
      rw [addLine_text hreads hactive]
      exact ⟨h.table, forall_mem_append.mpr ⟨h.waiting, hline⟩, h.out⟩
    | false =>
      rw [addLine_text_inactive hreads hactive]
      exact h.blank [line]

theorem Sound.addLines (inputs : List String) (limit : Nat) (h : p.Sound)
    {lines : List (List Token)} (hlines : ∀ line ∈ lines, ∀ t ∈ line, t.Sound) :
    (lines.foldl (Preprocessor.addLine inputs limit) p).Sound := by
  induction lines generalizing p with
  | nil => exact h
  | cons line lines ih =>
    exact ih (h.addLine (hlines line mem_cons_self))
      fun l hl => hlines l (mem_cons_of_mem line hl)

theorem out_finish (limit : Nat) (p : Preprocessor) : (p.finish limit).out = (p.flush limit).out := by
  unfold finish
  dsimp only
  split <;> rfl

end Preprocessor

theorem flatten_tokenLines (ts : List Token) : (tokenLines ts).flatten = ts := by
  fun_induction tokenLines ts with
  | case1 => rfl
  | case2 t ts _ ih => rw [flatten_cons, ih, singleton_append]
  | case3 t ts _ hnil ih =>
    rw [hnil] at ih
    rw [← ih]
    rfl
  | case4 t ts _ l ls hcons ih =>
    rw [hcons] at ih
    rw [← ih]
    rfl

/-- **The tokens of a preprocessed body are sound.** -/
theorem sound_tokens (inputs : List String) (limit : Nat) (body : String) :
    ∀ t ∈ (preprocess inputs limit body).tokens, t.Sound := by
  have hempty : Preprocessor.Sound {} :=
    ⟨forall_mem_nil _, forall_mem_nil _, forall_mem_nil _⟩
  have hlines : ∀ line ∈ tokenLines (Token.tokenize (joinContinued body)), ∀ t ∈ line, t.Sound := by
    intro line hline t ht
    have hmem := mem_flatten.mpr ⟨line, hline, ht⟩
    rw [flatten_tokenLines] at hmem
    exact Token.sound_of_mem_tokenizeChars hmem
  have hrun := ((hempty.addLines inputs (max limit 1) hlines).flush (max limit 1)).out
  rw [← Preprocessor.out_finish] at hrun
  exact hrun

end ShaderEffect
