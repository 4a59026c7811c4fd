import ShaderEffect.Proofs.Macro.Call

/-!
# Expansion that settles

A macro is direct if its body is complete, the arguments of its parameters apart, and does not put
tokens together. Complete tokens stay complete under direct macros (`Closed.closed_round`), so the parts of a
text settle on their own (`settles_append`). What comes out of a macro is marked with its name, and
its arguments have settled by themselves; since a table has only so many names, every body settles
(`settles_fill`).
-/

namespace ShaderEffect

open Marked List

variable {t : Marked} {ts : List Token} {params : List String}

/-! ## Direct macros -/

abbrev Marked.under (hidden : List String) (t : Token) : Marked :=
  { token := t, hidden := hidden }

/-- The body with its arguments put in, where nothing is put together. -/
def fill (args : List (String × List Marked)) (hidden : List String) (body : List Token) :
    List Marked :=
  body.flatMap (bodyPiece args hidden)

section Fill

variable {args : List (String × List Marked)} {hidden : List String} {t : Token} {body : List Token}

@[simp] theorem fill_nil : fill args hidden [] = [] := rfl

@[simp] theorem fill_cons : fill args hidden (t :: body) = bodyPiece args hidden t ++ fill args hidden body :=
  rfl

@[simp] theorem fill_append (as bs : List Token) :
    fill args hidden (as ++ bs) = fill args hidden as ++ fill args hidden bs :=
  flatMap_append

theorem substitute_eq_fill (h : ∀ t ∈ body, t.isPunct "##" = false) (soFar : List Marked) :
    substitute args hidden soFar false body = soFar ++ fill args hidden body := by
  induction body generalizing soFar with
  | nil => exact (append_nil soFar).symm
  | cons t body ih =>
    grind [substitute, fill_cons]

theorem bodyPiece_cases (args : List (String × List Marked)) (hidden : List String) (t : Token) :
    (∃ a ∈ args, bodyPiece args hidden t = trimTrivia a.2) ∨
      (bodyPiece args hidden t = [under hidden t] ∧
        (t.kind = .ident → t.text ∉ args.map Prod.fst)) := by
  grind [bodyPiece, Token.isIdent]

theorem bodyPiece_of_not_param (h : t.kind = .ident → t.text ∉ args.map Prod.fst) :
    bodyPiece args hidden t = [under hidden t] := by
  grind [Token.isIdent, bodyPiece]

theorem bodyPiece_of_kind (h : t.kind ≠ .ident) :
    bodyPiece args hidden t = [under hidden t] :=
  bodyPiece_of_not_param fun hkind => absurd hkind h

theorem bodyPiece_punct (h : t.kind = .punct) :
    bodyPiece args hidden t = [under hidden t] :=
  bodyPiece_of_kind (h.trans_ne (by decide))

theorem fill_of_trivia {gap : List Token} (h : ∀ g ∈ gap, g.isTrivia = true) :
    fill args hidden gap = gap.map (under hidden) := by
  induction gap with
  | nil => rfl
  | cons g gap ih =>
    grind [fill_cons, bodyPiece_of_kind, Token.isTrivia_kind]

theorem fill_no_args : fill [] hidden body = body.map (under hidden) := by
  induction body with
  | nil => rfl
  | cons t body ih =>
    rw [fill_cons, ih, map_cons]
    rfl

end Fill

/-- The given names but for those of parameters. -/
def without (names : String → Bool) (params : List String) (name : String) : Bool :=
  names name && !params.contains name

/-- A token that is no parameter is a name or not whatever the parameters are. -/
theorem isNameIn_without {names : String → Bool} {t : Token}
    (h : t.kind = .ident → t.text ∉ params) :
    t.isNameIn (without names params) = t.isNameIn names := by
  grind [Token.isNameIn, without]

theorem isNameIn_of_without {names : String → Bool} {t : Token}
    (h : t.isNameIn (without names params) = true) : t.isNameIn names = true ∧ t.text ∉ params := by
  grind [Token.isNameIn, without]

section Opens

variable {args : List (String × List Marked)} (hidden : List String) {names : String → Bool}
  {lead : List Token}

theorem fill_opens (h : Opens id (without names (args.map Prod.fst)) lead) :
    fill args hidden lead = lead.map (under hidden) ∧ Opens token names (lead.map (under hidden)) := by
  cases h with
  | @bracket o ho =>
    rw [fill_cons, bodyPiece_punct (t := o) (Token.kind_of_isOpening ho)]
    exact ⟨rfl, .bracket ho⟩
  | @call t o gap hname hgap ho =>
    obtain ⟨hname, hparam⟩ := isNameIn_of_without hname
    rw [fill_cons, fill_append, fill_of_trivia hgap, fill_cons,
      bodyPiece_punct (t := o) (Token.kind_of_isPunct ho).1,
      bodyPiece_of_not_param (t := t) fun _ => hparam, map_cons, map_append]
    exact ⟨rfl, .call hname (by simpa using hgap) ho⟩

theorem fill_group {inner ts : List Token} (c : Token)
    (ho : Opens id (without names (args.map Prod.fst)) lead) (hc : c.isClosing = true) :
    fill args hidden (lead ++ (inner ++ c :: ts)) = lead.map (under hidden) ++
      (fill args hidden inner ++ under hidden c :: fill args hidden ts) := by
  rw [fill_append, fill_append, fill_cons, (fill_opens hidden ho).1,
    bodyPiece_punct (Token.kind_of_isClosing hc)]
  rfl

end Opens

/-- A macro whose body is complete, its parameters apart. The body of one with parameters does not put
tokens together. -/
structure Macro.Direct (table : MacroTable) (m : Macro) : Prop where
  complete : Complete id (without table.takesArgs (m.params.getD [])) m.body
  plain : m.params.isSome = true → ∀ t ∈ m.body, t.isPunct "##" = false

theorem Complete.closed_fill {table : MacroTable} {args : List (String × List Marked)}
    {hidden : List String} {body : List Token}
    (h : Complete id (without table.takesArgs (args.map Prod.fst)) body)
    (hargs : ∀ a ∈ args, Closed table a.2) : Closed table (fill args hidden body) := by
  induction h with
  | nil => exact .nil
  | @single t ts hopen hclose hname _ ih =>
    rw [fill_cons]
    rcases bodyPiece_cases args hidden t with ⟨a, ha, hpiece⟩ | ⟨hpiece, hparam⟩
    · rw [hpiece]
      exact (Closed.trimTrivia (hargs a ha)).append ih
    · rw [hpiece]
      exact .single hopen hclose ((isNameIn_without hparam).symm.trans hname) ih
  | @group _ _ _ c hopen hclose _ _ ihin ih =>
    rw [fill_group hidden c hopen hclose]
    exact .group (fill_opens hidden hopen).2 hclose ihin ih

section Direct

variable {table : MacroTable}

theorem params_of_fits {args : List (List Marked)} (h : fits params args = true) :
    (params.zip args).map Prod.fst = params := by
  grind [fits, List.map_fst_zip]

namespace Macro.Direct

variable {m : Macro} {params : List String} {args : List (List Marked)}

theorem substitute_eq (h : m.Direct table) (hparams : m.params = some params)
    (args : List (String × List Marked)) (hidden : List String) :
    substitute args hidden [] false m.body = fill args hidden m.body := by
  rw [substitute_eq_fill (h.plain (by rw [hparams]; rfl)), nil_append]

theorem complete_call (h : m.Direct table) (hparams : m.params = some params)
    (hfits : fits params args = true) :
    Complete id (without table.takesArgs ((params.zip args).map Prod.fst)) m.body := by
  have hcomplete := h.complete
  rwa [hparams, Option.getD_some, ← params_of_fits hfits] at hcomplete

theorem complete_body (h : m.Direct table) (hparams : m.params = none) :
    Complete id (without table.takesArgs (([] : List (String × List Marked)).map Prod.fst)) m.body := by
  have hcomplete := h.complete
  rwa [hparams] at hcomplete

end Macro.Direct

/-! ## Rounds of complete tokens -/

theorem Closed.round_append {as : List Marked} (h : Closed table as) (bs : List Marked) :
    round table (as ++ bs) = round table as ++ round table bs :=
  congrArg Round.out (h.apart bs)

theorem expandOnce_inert {us : List Marked} (h : ∀ u ∈ us, table.expands? u = none)
    (ts : List Marked) : expandOnce table (us ++ ts) = (expandOnce table ts).keep us := by
  induction us with
  | nil => rfl
  | cons u us ih =>
    rw [cons_append, expandOnce_stay (h u mem_cons_self),
      ih fun v hv => h v (mem_cons_of_mem u hv)]
    rfl

theorem round_inert {us : List Marked} (h : ∀ u ∈ us, table.expands? u = none) (ts : List Marked) :
    round table (us ++ ts) = us ++ round table ts :=
  congrArg Round.out (expandOnce_inert h ts)

theorem round_nil : round table [] = [] := by
  rw [round, expandOnce_nil]

theorem round_cons (h : table.expands? t = none) (ts : List Marked) :
    round table (t :: ts) = t :: round table ts :=
  congrArg Round.out (expandOnce_stay h)

theorem round_object {m : Macro} (h : table.expands? t = some m) (hm : m.params = none) :
    round table [t] = fill [] (m.name :: t.hidden) m.body := by
  have hround := congrArg Round.out (@expandOnce_object table t m [] h hm)
  rw [expandOnce_nil] at hround
  rw [fill_no_args]
  exact hround.trans (append_nil _)

theorem round_group {c : Marked} {lead inner ts : List Marked}
    (h : ∀ u ∈ lead, table.expands? u = none) (hc : c.token.isClosing = true)
    (hin : Closed table inner) : round table (lead ++ (inner ++ c :: ts)) =
      lead ++ (round table inner ++ c :: round table ts) := by
  rw [round_inert h, hin.round_append, round_cons (expands?_punct (Token.kind_of_isClosing hc))]

/-- **A round keeps complete tokens complete.** -/
theorem Closed.closed_round (hdirect : ∀ m ∈ table, m.Direct table) {ts : List Marked} (h : Closed table ts) :
    Closed table (round table ts) := by
  induction h with
  | nil =>
    rw [round_nil]
    exact .nil
  | @single t ts hopen hclose hname _ ih =>
    have ht : Closed table [t] := .single hopen hclose hname .nil
    rw [← singleton_append, ht.round_append]
    refine Complete.append ?_ ih
    cases hexpands : table.expands? t with
    | none =>
      rw [round_cons hexpands, round_nil]
      exact ht
    | some m =>
      have hparams := params_of_not_takesArgs hexpands hname
      have hm := (MacroTable.mem_of_expands? hexpands).1
      rw [round_object hexpands hparams]
      exact ((hdirect m hm).complete_body hparams).closed_fill (forall_mem_nil _)
  | @group lead inner ts c hopen hclose hin _ ihin ih =>
    cases callOutcome hopen hclose hin with
    | inert h =>
      rw [round_group h hclose hin]
      exact .group hopen hclose ihin ih
    | @fits t m params args _ hexpands hparams _ hclosed hfits step =>
      have hm := hdirect m (MacroTable.mem_of_expands? hexpands).1
      have hbody : Closed table (fill (params.zip args.toList) (m.name :: t.hidden) m.body) :=
        (hm.complete_call hparams hfits).closed_fill fun a ha => hclosed a.2 (of_mem_zip ha).2
      rw [← hm.substitute_eq hparams] at hbody
      have hround : round table (lead ++ (inner ++ c :: ts)) = _ ++ _ :=
        congrArg Round.out (step ts)
      rw [hround]
      exact hbody.append ih
    | misfit step =>
      have hround : round table (lead ++ (inner ++ c :: ts)) = _ ++ _ :=
        congrArg Round.out (step ts)
      rw [hround]
      exact (Complete.group hopen hclose hin .nil).append ih

end Direct

/-! ## Settling part by part -/

section Parts

variable {table : MacroTable} {as bs ts us : List Marked} {t : Marked}

theorem Closed.iterate (hdirect : ∀ m ∈ table, m.Direct table) (h : Closed table ts) (n : Nat) :
    Closed table ((round table)^[n] ts) := by
  induction n with
  | zero => exact h
  | succ n ih =>
    rw [Function.iterate_succ_apply']
    exact ih.closed_round hdirect

theorem Closed.iterate_append (hdirect : ∀ m ∈ table, m.Direct table) (h : Closed table as)
    (bs : List Marked) (n : Nat) :
    (round table)^[n] (as ++ bs) = (round table)^[n] as ++ (round table)^[n] bs := by
  induction n with
  | zero => rfl
  | succ n ih =>
    rw [Function.iterate_succ_apply', ih, (h.iterate hdirect n).round_append,
      ← Function.iterate_succ_apply' (round table), ← Function.iterate_succ_apply' (round table)]

theorem Closed.steady_append (h : Closed table as) :
    Steady table (as ++ bs) ↔ Steady table as ∧ Steady table bs := by
  unfold Steady
  rw [h.apart bs]
  exact Bool.or_eq_false_iff

theorem Closed.settles_append (hdirect : ∀ m ∈ table, m.Direct table) (h : Closed table as) :
    Settles table (as ++ bs) ↔ Settles table as ∧ Settles table bs := by
  constructor
  · rintro ⟨n, hn⟩
    rw [h.iterate_append hdirect, Closed.steady_append (h.iterate hdirect n)] at hn
    exact ⟨⟨n, hn.1⟩, ⟨n, hn.2⟩⟩
  · rintro ⟨⟨m, hm⟩, ⟨n, hn⟩⟩
    refine ⟨max m n, ?_⟩
    rw [h.iterate_append hdirect, Closed.steady_append (h.iterate hdirect _),
      hm.iterate_of_le (Nat.le_max_left m n), hn.iterate_of_le (Nat.le_max_right m n)]
    exact ⟨hm, hn⟩

theorem settles_inert (h : ∀ u ∈ us, table.expands? u = none) :
    Settles table (us ++ ts) ↔ Settles table ts := by
  have hiterate : ∀ n, (round table)^[n] (us ++ ts) = us ++ (round table)^[n] ts := by
    intro n
    induction n with
    | zero => rfl
    | succ n ih =>
      rw [Function.iterate_succ_apply', ih, round_inert h, ← Function.iterate_succ_apply' (round table)]
  unfold Settles
  refine exists_congr fun n => ?_
  rw [hiterate, Steady, expandOnce_inert h]
  exact Iff.rfl

theorem settles_cons (h : table.expands? t = none) : Settles table (t :: ts) ↔ Settles table ts := by
  have hinert : ∀ u ∈ [t], table.expands? u = none := by simpa using h
  exact settles_inert hinert

theorem Settles.of_round (h : Settles table (round table ts)) : Settles table ts := by
  obtain ⟨n, hn⟩ := h
  exact ⟨n + 1, hn⟩

theorem Steady.settles (h : Steady table ts) : Settles table ts :=
  ⟨0, h⟩

theorem settles_nil : Settles table [] := by
  refine Steady.settles ?_
  rw [Steady, expandOnce_nil]

theorem Joined.settles (hdirect : ∀ m ∈ table, m.Direct table) {pieces : List (List Marked)}
    (h : Joined pieces ts) (hclosed : ∀ a ∈ pieces, Closed table a) (hts : Settles table ts) :
    ∀ a ∈ pieces, Settles table a := by
  induction h with
  | last a =>
    intro b hb
    rwa [mem_singleton.mp hb]
  | comma a hc _ ih =>
    obtain ⟨ha, hrest⟩ := ((hclosed a mem_cons_self).settles_append hdirect).mp hts
    grind [settles_cons, expands?_punct, Token.kind_of_isPunct]

theorem Joined.mem_of_mem {pieces : List (List Marked)} (h : Joined pieces ts) {a : List Marked}
    (ha : a ∈ pieces) (hu : t ∈ a) : t ∈ ts := by
  induction h with
  | last => rwa [mem_singleton.mp ha] at hu
  | comma b _ _ ih =>
    grind

end Parts

/-! ## Arguments that have settled -/

structure Tame (table : MacroTable) (a : List Marked) : Prop where
  closed : Closed table a
  settles : Settles table a
  plain : ∀ t ∈ a, t.token.kind ≠ .comment

theorem exists_trimTrivia (ts : List Marked) :
    ∃ front back, (∀ t ∈ front ++ back, t.isTrivia = true) ∧
      ts = front ++ (trimTrivia ts ++ back) := by
  refine ⟨((ts.reverse.dropWhile isTrivia).reverse).takeWhile isTrivia,
    (ts.reverse.takeWhile isTrivia).reverse, ?_, ?_⟩
  · grind [all_takeWhile]
  grind [trimTrivia, takeWhile_append_dropWhile]

section Tame

variable {table : MacroTable} {args : List (String × List Marked)} {hidden : List String}

theorem Tame.trimTrivia (hdirect : ∀ m ∈ table, m.Direct table) {a : List Marked} (h : Tame table a) :
    Tame table (trimTrivia a) := by
  obtain ⟨front, back, htrivia, ha⟩ := exists_trimTrivia a
  have hclosed : Closed table (Marked.trimTrivia a) := Closed.trimTrivia h.closed
  refine ⟨hclosed, ?_, fun t ht => h.plain t ?_⟩
  · have hsettles := h.settles
    have hfront : ∀ u ∈ front, table.expands? u = none := fun u hu =>
      expands?_trivia (htrivia u (mem_append_left _ hu))
    rw [ha, settles_inert hfront, hclosed.settles_append hdirect] at hsettles
    exact hsettles.1
  · rw [ha]
    exact mem_append_right _ (mem_append_left _ ht)

theorem dropComments_fill (hargs : ∀ a ∈ args, ∀ t ∈ a.2, t.token.kind ≠ .comment)
    (body : List Token) :
    dropComments (fill args hidden body) =
      fill args hidden (body.filter fun t => t.kind != .comment) := by
  induction body with
  | nil => rfl
  | cons t body ih =>
    rw [fill_cons, dropComments_append, ih]
    by_cases hkind : t.kind = .comment
    · grind [bodyPiece_of_kind, dropComments]
    · rw [filter_cons_of_pos (by simpa using hkind), fill_cons]
      congr 1
      rw [dropComments, filter_eq_self]
      intro u hu
      rcases bodyPiece_cases args hidden t with ⟨a, ha, hpiece⟩ | ⟨hpiece, -⟩
      · obtain ⟨front, back, -, hsplit⟩ := exists_trimTrivia a.2
        grind
      grind

/-- The number of macros that are not hidden. -/
def rank (table : MacroTable) (hidden : List String) : Nat :=
  (table.filter fun m => !hidden.contains m.name).length

theorem rank_lt {m : Macro} (hm : m ∈ table) (h : m.name ∉ hidden) :
    rank table (m.name :: hidden) < rank table hidden := by
  have hfilter : table.filter (fun k => !(m.name :: hidden).contains k.name) =
      (table.filter fun k => !hidden.contains k.name).filter fun k => k.name != m.name := by
    rw [filter_filter]
    refine filter_congr fun k _ => ?_
    simp [bne, Bool.beq_eq_decide_eq]
  rw [rank, rank, hfilter, length_filter_lt_length_iff_exists]
  exact ⟨m, mem_filter.mpr ⟨hm, by simpa using h⟩, by simp⟩

end Tame

/-! ## Bodies that settle -/

section Bodies

variable {table : MacroTable} {args : List (String × List Marked)} {hidden : List String}

/-- The macros that are not hidden settle in what they make room for. -/
def SettlesBelow (table : MacroTable) (hidden : List String) : Prop :=
  ∀ m ∈ table, m.name ∉ hidden → ∀ args : List (String × List Marked),
    (∀ a ∈ args, Tame table a.2) → Complete id (without table.takesArgs (args.map Prod.fst)) m.body →
      Settles table (fill args (m.name :: hidden) m.body)

variable (hdirect : ∀ m ∈ table, m.Direct table)
include hdirect

theorem settles_piece (hbelow : SettlesBelow table hidden) (hargs : ∀ a ∈ args, Tame table a.2)
    {t : Token} (hname : t.isNameIn (without table.takesArgs (args.map Prod.fst)) = false) :
    Settles table (bodyPiece args hidden t) := by
  rcases bodyPiece_cases args hidden t with ⟨a, ha, hpiece⟩ | ⟨hpiece, hparam⟩
  · rw [hpiece]
    exact ((hargs a ha).trimTrivia hdirect).settles
  · rw [hpiece]
    rw [isNameIn_without hparam] at hname
    cases hexpands : table.expands? (under hidden t) with
    | none => exact (settles_cons hexpands).mpr settles_nil
    | some m =>
      obtain ⟨hm, -, -, hhidden⟩ := MacroTable.mem_of_expands? hexpands
      have hparams : m.params = none := params_of_not_takesArgs hexpands hname
      refine Settles.of_round ?_
      rw [round_object hexpands hparams]
      exact hbelow m hm hhidden [] (forall_mem_nil _) ((hdirect m hm).complete_body hparams)

theorem settles_group {c : Marked} {lead inner : List Marked}
    (hbelow : ∀ t ∈ lead, SettlesBelow table t.hidden) (hopen : Opens token table.takesArgs lead)
    (hclose : c.token.isClosing = true) (hin : Closed table inner) (hsettles : Settles table inner)
    (hplain : Settles table (dropComments inner)) :
    Settles table (lead ++ (inner ++ [c])) := by
  cases callOutcome hopen hclose hin with
  | inert h =>
    rw [settles_inert h, hin.settles_append hdirect,
      settles_cons (expands?_punct (Token.kind_of_isClosing hclose))]
    exact ⟨hsettles, settles_nil⟩
  | @fits t m params args ht hexpands hparams hjoined hclosed hfits step =>
    obtain ⟨hm, -, -, hhidden⟩ := MacroTable.mem_of_expands? hexpands
    have hround : round table (lead ++ (inner ++ [c])) = _ ++ _ :=
      congrArg Round.out (step [])
    refine Settles.of_round ?_
    rw [hround, expandOnce_nil, append_nil, (hdirect m hm).substitute_eq hparams]
    refine hbelow t ht m hm hhidden _ (fun a ha => ?_) ((hdirect m hm).complete_call hparams hfits)
    have hmem := (of_mem_zip ha).2
    refine ⟨hclosed a.2 hmem, hjoined.settles hdirect hclosed hplain a.2 hmem, fun u hu => ?_⟩
    exact bne_iff_ne.mp (mem_filter.mp (hjoined.mem_of_mem hmem hu)).2
  | misfit step =>
    refine Steady.settles ?_
    rw [Steady, step, expandOnce_nil]
    rfl

/-- Complete tokens settle with arguments put in, if what comes out of them does. Arguments are read
without their comments, so the induction is on the number of tokens. -/
theorem settles_fill_of_below (hbelow : SettlesBelow table hidden)
    (hargs : ∀ a ∈ args, Tame table a.2) {body : List Token}
    (h : Complete id (without table.takesArgs (args.map Prod.fst)) body) :
    Settles table (fill args hidden body) := by
  have hclosed : ∀ {ts : List Token}, Complete id (without table.takesArgs (args.map Prod.fst)) ts →
      Closed table (fill args hidden ts) := fun h => h.closed_fill fun a ha => (hargs a ha).closed
  induction hn : body.length using Nat.strongRecOn generalizing body with
  | _ n ih =>
    cases h with
    | nil => exact settles_nil
    | @single t ts hopen hclose hname hts =>
      have ht : Closed table (bodyPiece args hidden t) := by
        simpa using hclosed (.single hopen hclose hname .nil)
      rw [fill_cons, ht.settles_append hdirect]
      exact ⟨settles_piece hdirect hbelow hargs hname, ih _ (by simp [← hn]) hts rfl⟩
    | @group lead inner ts c hopen hclose hin hts =>
      have hlength : inner.length < n ∧ ts.length < n := by
        simp only [← hn, length_cons, length_append]
        omega
      have hplain : Settles table (dropComments (fill args hidden inner)) := by
        rw [dropComments_fill fun a ha => (hargs a ha).plain]
        exact ih _ (Nat.lt_of_le_of_lt (length_filter_le _ inner) hlength.1)
          hin.filter_comments rfl
      have hopens := (fill_opens hidden hopen).2
      have hgroup : Closed table
          (lead.map (under hidden) ++ (fill args hidden inner ++ [under hidden c])) :=
        .group hopens hclose (hclosed hin) .nil
      have hsettles := settles_group hdirect (c := under hidden c)
        (forall_mem_map.mpr fun _ _ => hbelow) hopens hclose (hclosed hin)
        (ih _ hlength.1 hin rfl) hplain
      have hboth := (hgroup.settles_append hdirect).mpr ⟨hsettles, ih _ hlength.2 hts rfl⟩
      rw [fill_group hidden c hopen hclose]
      simpa using hboth

/-- **What a macro makes room for settles**, since every macro on the way takes a name away. -/
theorem settlesBelow (hidden : List String) : SettlesBelow table hidden := by
  induction hn : rank table hidden using Nat.strongRecOn generalizing hidden with
  | _ n ih =>
    intro m hm hhidden args hargs hcomplete
    exact settles_fill_of_below hdirect (ih _ (hn ▸ rank_lt hm hhidden) _ rfl) hargs hcomplete

theorem settles_of_complete (h : Complete id table.takesArgs ts) :
    Settles table (ts.map plain) := by
  have hnames : without table.takesArgs [] = table.takesArgs := by
    funext name
    simp [without]
  rw [← hnames] at h
  have hargs : ∀ a ∈ ([] : List (String × List Marked)), Tame table a.2 :=
    forall_mem_nil _
  have hfill := settles_fill_of_below hdirect (settlesBelow hdirect []) hargs h
  rwa [fill_no_args] at hfill

end Bodies

end ShaderEffect
