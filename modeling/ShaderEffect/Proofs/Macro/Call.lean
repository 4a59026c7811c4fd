import ShaderEffect.Proofs.Macro.Complete
import ShaderEffect.Proofs.Macro.Round

/-!
# Complete calls

Complete tokens keep to themselves. Where they are the arguments of a call, each argument is complete
again (`Closed.exists_args`), and a round expands them alike whatever follows
(`Closed.apart`).
-/

namespace ShaderEffect

open List

variable {t : Marked} {ts : List Marked} {table : MacroTable}

/-! ## Marked tokens -/

/-- The name is that of a macro with parameters. -/
def MacroTable.takesArgs (table : MacroTable) (name : String) : Bool :=
  (table.named? name).any fun m => m.params.isSome

/-- Complete tokens in the middle of expansion, as far as the macros of the table go. -/
abbrev Closed (table : MacroTable) (ts : List Marked) : Prop :=
  Complete Marked.token table.takesArgs ts

theorem Closed.trimTrivia (h : Closed table ts) : Closed table (Marked.trimTrivia ts) := by
  have hfront : ∀ us : List Marked, Closed table us → Closed table (us.dropWhile Marked.isTrivia) := by
    intro us hus
    induction us with
    | nil => exact hus
    | cons u us ih =>
      rw [dropWhile_cons]
      split
      · rename_i hu
        exact ih (hus.tail hu)
      · exact hus
  refine hfront _ ?_
  induction ts using reverseRecOn with
  | nil => exact h
  | append_singleton ts t ih =>
    rw [reverse_append, reverse_singleton, singleton_append, dropWhile_cons]
    split
    · rename_i ht
      exact ih (h.init ht)
    · simpa using h

theorem expands?_of_kind (h : t.token.kind ≠ .ident) : table.expands? t = none := by
  simp [MacroTable.expands?, h]

theorem expands?_trivia (h : t.token.isTrivia = true) : table.expands? t = none :=
  expands?_of_kind (Token.isTrivia_kind h).2

theorem expands?_punct (h : t.token.kind = .punct) : table.expands? t = none :=
  expands?_of_kind (h.trans_ne (by decide))

theorem expands?_gap {o : Marked} {gap : List Marked} (hgap : ∀ g ∈ gap, g.token.isTrivia = true)
    (ho : o.token.isPunct "(" = true) : ∀ u ∈ gap ++ [o], table.expands? u = none :=
  forall_mem_append.mpr ⟨fun g hg => expands?_trivia (hgap g hg),
    forall_mem_singleton.mpr (expands?_punct (Token.kind_of_isPunct ho).1)⟩

theorem params_of_not_takesArgs {m : Macro} (h : table.expands? t = some m)
    (hname : t.token.isNameIn table.takesArgs = false) : m.params = none := by
  unfold MacroTable.expands? at h
  split at h
  · rename_i hkind
    obtain ⟨hnamed, -⟩ := Option.filter_eq_some_iff.mp h
    simpa [Token.isNameIn, MacroTable.takesArgs, hkind, hnamed] using hname
  · cases h

theorem params_of_takesArgs {m : Macro} (h : table.expands? t = some m)
    (hname : t.token.isNameIn table.takesArgs = true) : ∃ params, m.params = some params := by
  grind [MacroTable.expands?, Option.filter_eq_some_iff, Option.isSome_iff_exists, Token.isNameIn,
      MacroTable.takesArgs]

/-! ## Arguments -/

/-- The tokens that an argument keeps: all but comments. -/
def Marked.dropComments (ts : List Marked) : List Marked :=
  ts.filter fun t => t.token.kind != .comment

@[simp] theorem Marked.dropComments_append (as bs : List Marked) :
    dropComments (as ++ bs) = dropComments as ++ dropComments bs :=
  filter_append _ _

theorem Marked.dropComments_cons (h : t.token.kind ≠ .comment) :
    dropComments (t :: ts) = t :: dropComments ts :=
  filter_cons_of_pos (by simpa using h)

/-- The arguments with tokens before the first one. -/
def MacroArgs.prepend (ts : List Marked) (a : MacroArgs) : MacroArgs :=
  { a with first := ts ++ a.first }

theorem MacroArgs.prepend_prepend (as bs : List Marked) (a : MacroArgs) :
    (a.prepend bs).prepend as = a.prepend (as ++ bs) := by
  simp [prepend]

/-- At this depth the tokens go to one argument. -/
def Taken (depth : Nat) (ts : List Marked) : Prop :=
  ∀ tail, readArgs depth (ts ++ tail) =
    (readArgs depth tail).map fun r => (r.1.prepend (Marked.dropComments ts), r.2)

section Args

open Marked

variable {t o c : Marked} {as bs gap inner lead : List Marked} {d : Nat}

theorem taken_nil (d : Nat) : Taken d [] :=
  fun _ => Option.map_id'.symm

theorem Taken.append (ha : Taken d as) (hb : Taken d bs) : Taken d (as ++ bs) := by
  intro tail
  rw [append_assoc, ha, hb, Option.map_map]
  congr 1
  funext r
  rw [Function.comp_apply, MacroArgs.prepend_prepend, dropComments_append]

/-- A token that is neither bracket nor comma goes to its argument, unless it is a comment. -/
theorem taken_single (hopen : t.token.isOpening = false) (hclose : t.token.isClosing = false)
    (hcomma : (d == 1 && t.token.isPunct ",") = false) : Taken d [t] := by
  have hopen' : t.isOpening = false := hopen
  have hclose' : t.isClosing = false := hclose
  intro tail
  rw [singleton_append, readArgs, if_neg (by simp [hopen']), if_neg (by simp [hclose']),
    if_neg (by simp [hcomma])]
  split
  · rename_i hcomment
    have hdrop : dropComments [t] = [] := by simpa [dropComments] using hcomment
    rw [hdrop]
    exact Option.map_id'.symm
  · rename_i hcomment
    rw [dropComments_cons (by simpa using hcomment)]
    rfl

theorem taken_of_kind (h : t.token.kind ≠ .punct) : Taken d [t] :=
  taken_single (Token.isOpening_of_kind h) (Token.isClosing_of_kind h) (by simp [Token.isPunct, h])

theorem taken_trivia (h : ∀ g ∈ gap, g.token.isTrivia = true) : Taken d gap := by
  induction gap with
  | nil => exact taken_nil d
  | cons g gap ih =>
    have hg : Taken d [g] := taken_of_kind (Token.isTrivia_kind (h g mem_cons_self)).1
    exact hg.append (ih fun u hu => h u (mem_cons_of_mem g hu))

theorem taken_bracket (ho : o.token.isOpening = true) (hc : c.token.isClosing = true)
    (h : Taken (d + 2) inner) : Taken (d + 1) (o :: (inner ++ [c])) := by
  have hopen : o.isOpening = true := ho
  have hopen' : c.isOpening = false := Token.not_isOpening_of_isClosing hc
  have hclose : c.isClosing = true := hc
  have hkind : ∀ {u : Marked}, u.token.kind = .punct → u.token.kind ≠ .comment :=
    fun hu => hu.trans_ne (by decide)
  intro tail
  rw [cons_append, append_assoc, singleton_append, readArgs, if_pos hopen, h, readArgs,
    if_neg (by simp [hopen']), if_pos hclose, if_neg (by omega), Option.map_map, Option.map_map,
    dropComments_cons (hkind (Token.kind_of_isOpening ho)), dropComments_append,
    dropComments_cons (hkind (Token.kind_of_isClosing hc))]
  congr 1
  funext r
  simp [MacroArgs.prepend, MacroArgs.cons, dropComments]

theorem taken_group {names : String → Bool} (ho : Opens token names lead)
    (hc : c.token.isClosing = true) (h : Taken (d + 2) inner) :
    Taken (d + 1) (lead ++ (inner ++ [c])) := by
  cases ho with
  | bracket ho => exact taken_bracket ho hc h
  | @call t o gap hname hgap ho =>
    have ht : Taken (d + 1) [t] := taken_of_kind ((Token.kind_of_isNameIn hname).trans_ne (by decide))
    have hgroup := taken_bracket (Token.isOpening_of_isPunct ho) hc h
    simpa using (ht.append (taken_trivia hgap)).append hgroup

variable {table : MacroTable}

theorem Closed.taken (h : Closed table inner) (d : Nat) : Taken (d + 2) inner := by
  induction h generalizing d with
  | nil => exact taken_nil _
  | single hopen hclose _ _ ih => exact (taken_single hopen hclose (by simp)).append (ih d)
  | group hopen hclose _ _ ihin ihrest =>
    simpa using (taken_group hopen hclose (ihin (d + 1))).append (ihrest d)

inductive Joined : List (List Marked) → List Marked → Prop
  | last (a : List Marked) : Joined [a] a
  | comma (a : List Marked) {c : Marked} {as : List (List Marked)} {ts : List Marked}
      (hc : c.token.isPunct "," = true) (h : Joined as ts) : Joined (a :: as) (a ++ c :: ts)

theorem Joined.prepend {a : MacroArgs} (h : Joined a.toList ts) (us : List Marked) :
    Joined (a.prepend us).toList (us ++ ts) := by
  obtain ⟨first, others⟩ := a
  change Joined (first :: others) ts at h
  change Joined ((us ++ first) :: others) (us ++ ts)
  cases h with
  | last => exact .last _
  | comma _ hc h =>
    rw [← append_assoc]
    exact .comma _ hc h

/-- The tokens are read as arguments, or as the front of some: what follows them up to the end of the
call gives `args`, and `f args` are the arguments with the tokens in front. -/
structure Reading (table : MacroTable) (ts : List Marked) (f : MacroArgs → MacroArgs) : Prop where
  read : ∀ tail, readArgs 1 (ts ++ tail) = (readArgs 1 tail).map fun r => (f r.1, r.2)
  joined : ∀ {args us}, Joined args.toList us → Joined (f args).toList (dropComments ts ++ us)
  closed : ∀ {args}, (∀ a ∈ args.toList, Closed table a) → ∀ a ∈ (f args).toList, Closed table a

theorem Reading.append {f g : MacroArgs → MacroArgs} (hf : Reading table as f)
    (hg : Reading table bs g) : Reading table (as ++ bs) (f ∘ g) where
  read tail := by
    rw [append_assoc, hf.read, hg.read, Option.map_map]
    rfl
  joined h := by
    rw [dropComments_append, append_assoc]
    exact hf.joined (hg.joined h)
  closed h := hf.closed (hg.closed h)

theorem Taken.reading (h : Taken 1 as) (hclosed : Closed table as) :
    Reading table as (MacroArgs.prepend (dropComments as)) where
  read := h
  joined hargs := hargs.prepend _
  closed := by
    intro args hargs a ha
    rcases mem_cons.mp ha with rfl | ha
    · exact hclosed.filter_comments.append (hargs _ mem_cons_self)
    · exact hargs a (mem_cons_of_mem _ ha)

theorem reading_comma (h : t.token.isPunct "," = true) : Reading table [t] MacroArgs.next where
  read tail := by
    grind [Marked.isOpening, Token.isPunct, Marked.isClosing, readArgs]
  joined hargs := by
    have hkind : t.token.kind ≠ .comment := (Token.kind_of_isPunct h).1.trans_ne (by decide)
    rw [dropComments_cons hkind]
    exact .comma [] h hargs
  closed := by
    intro args hargs a ha
    rcases mem_cons.mp ha with rfl | ha
    · exact .nil
    · exact hargs a ha

theorem Closed.exists_reading (h : Closed table inner) : ∃ f, Reading table inner f := by
  induction h with
  | nil => exact ⟨_, (taken_nil 1).reading .nil⟩
  | @single t ts hopen hclose hname _ ih =>
    obtain ⟨f, hf⟩ := ih
    by_cases hcomma : t.token.isPunct "," = true
    · exact ⟨_, (reading_comma hcomma).append hf⟩
    · have ht : Taken 1 [t] := taken_single hopen hclose (by simp [hcomma])
      exact ⟨_, (ht.reading (.single hopen hclose hname .nil)).append hf⟩
  | group hopen hclose hin _ _ ih =>
    obtain ⟨f, hf⟩ := ih
    have hgroup := taken_group hopen hclose (Closed.taken hin 0)
    have happend := (hgroup.reading (.group hopen hclose hin .nil)).append hf
    exact ⟨_, by simpa using happend⟩

theorem Closed.exists_args (h : Closed table inner) (hc : c.token.isClosing = true) :
    ∃ args : MacroArgs, (∀ tail, readArgs 1 (inner ++ c :: tail) = some (args, tail)) ∧
      Joined args.toList (dropComments inner) ∧ ∀ a ∈ args.toList, Closed table a := by
  obtain ⟨f, hf⟩ := h.exists_reading
  have hopen : c.isOpening = false := Token.not_isOpening_of_isClosing hc
  have hclose : c.isClosing = true := hc
  refine ⟨f { first := [], others := [] }, ?_, ?_, ?_⟩
  · intro tail
    rw [hf.read, readArgs, if_neg (by simp [hopen]), if_pos hclose, if_pos (Nat.le_refl 1)]
    rfl
  · have hlast : Joined (MacroArgs.toList { first := [], others := [] }) [] := .last []
    have hjoined := hf.joined hlast
    rwa [append_nil] at hjoined
  · refine hf.closed ?_
    intro a ha
    rw [mem_singleton.mp ha]
    exact .nil

end Args

/-! ## Rounds -/

def Round.append (r s : Round) : Round :=
  { out := r.out ++ s.out, changed := r.changed || s.changed, notices := r.notices ++ s.notices }

theorem Round.append_assoc (r s u : Round) : (r.append s).append u = r.append (s.append u) := by
  simp [append, Bool.or_assoc]

/-- A round expands the tokens alike whatever follows them. -/
def Apart (table : MacroTable) (ts : List Marked) : Prop :=
  ∀ tail, expandOnce table (ts ++ tail) = (expandOnce table ts).append (expandOnce table tail)

section Rounds

open Marked

variable {table : MacroTable} {t c : Marked} {as bs inner lead ts : List Marked}

theorem apart_of_append (r : Round)
    (h : ∀ tail, expandOnce table (ts ++ tail) = r.append (expandOnce table tail)) :
    Apart table ts := by
  have hr : expandOnce table ts = r := by
    have hnil := h []
    rw [append_nil, expandOnce_nil] at hnil
    simpa [Round.append] using hnil
  intro tail
  rw [h, hr]

theorem apart_nil : Apart table [] :=
  apart_of_append {} fun _ => rfl

theorem Apart.append (ha : Apart table as) (hb : Apart table bs) : Apart table (as ++ bs) := by
  intro tail
  rw [append_assoc, ha, hb, ha, Round.append_assoc]

theorem apart_stay (h : table.expands? t = none) : Apart table [t] :=
  apart_of_append { out := [t] } fun _ => expandOnce_stay h

theorem apart_inert (h : ∀ t ∈ ts, table.expands? t = none) : Apart table ts := by
  induction ts with
  | nil => exact apart_nil
  | cons t ts ih =>
    rw [forall_mem_cons] at h
    exact (apart_stay h.1).append (ih h.2)

/-- What a round does with brackets: it leaves them, or they belong to a call. -/
inductive CallOutcome (table : MacroTable) (lead inner : List Marked) (c : Marked) : Prop
  | inert (h : ∀ u ∈ lead, table.expands? u = none)
  | fits {t : Marked} {m : Macro} {params : List String} {args : MacroArgs} (mem : t ∈ lead)
      (expands : table.expands? t = some m) (hparams : m.params = some params)
      (joined : Joined args.toList (dropComments inner))
      (closed : ∀ a ∈ args.toList, Closed table a) (hfits : fits params args.toList = true)
      (step : ∀ tail, expandOnce table (lead ++ (inner ++ c :: tail)) =
        (expandOnce table tail).replace
          (substitute (params.zip args.toList) (m.name :: t.hidden) [] false m.body))
  | misfit {n : MacroNotice}
      (step : ∀ tail, expandOnce table (lead ++ (inner ++ c :: tail)) =
        ((expandOnce table tail).keep (lead ++ (inner ++ [c]))).report n)

theorem callOutcome (ho : Opens token table.takesArgs lead) (hc : c.token.isClosing = true)
    (hin : Closed table inner) : CallOutcome table lead inner c := by
  cases ho with
  | bracket ho =>
    exact .inert (forall_mem_singleton.mpr (expands?_punct (Token.kind_of_isOpening ho)))
  | @call t o gap hname hgap ho =>
    have hassoc : ∀ us : List Marked, t :: (gap ++ [o]) ++ us = t :: (gap ++ o :: us) := by simp
    cases hexpands : table.expands? t with
    | none => exact .inert (forall_mem_cons.mpr ⟨hexpands, expands?_gap hgap ho⟩)
    | some m =>
      obtain ⟨params, hparams⟩ := params_of_takesArgs hexpands hname
      obtain ⟨args, hread, hjoined, hclosed⟩ := hin.exists_args hc
      cases hfits : fits params args.toList with
      | true =>
        refine .fits mem_cons_self hexpands hparams hjoined hclosed hfits fun tail => ?_
        rw [hassoc]
        exact expandOnce_fits hexpands hparams hgap ho (hread tail) hfits
      | false =>
        refine .misfit (n := .arity m.name params.length args.toList.length) fun tail => ?_
        have hcall : inner ++ c :: tail = (inner ++ [c]) ++ tail := by simp
        rw [hassoc, hassoc, hcall]
        exact expandOnce_misfit hexpands hparams hgap ho (by rw [← hcall, hread]) hfits

theorem CallOutcome.apart (h : CallOutcome table lead inner c) (hc : c.token.isClosing = true)
    (hin : Apart table inner) : Apart table (lead ++ (inner ++ [c])) := by
  have happend : ∀ tail, lead ++ (inner ++ [c]) ++ tail = lead ++ (inner ++ c :: tail) := by simp
  cases h with
  | inert h =>
    exact (apart_inert h).append
      (hin.append (apart_stay (expands?_punct (Token.kind_of_isClosing hc))))
  | fits _ _ _ _ _ _ step =>
    exact apart_of_append { out := _, changed := true } fun tail =>
      (congrArg (expandOnce table) (happend tail)).trans (step tail)
  | @misfit n step =>
    exact apart_of_append { out := _, notices := [n] } fun tail =>
      (congrArg (expandOnce table) (happend tail)).trans (step tail)

/-- **Complete tokens are expanded alike whatever follows them.** -/
theorem Closed.apart (h : Closed table ts) : Apart table ts := by
  induction h with
  | nil => exact apart_nil
  | @single t ts _ _ hname _ ih =>
    have ht : Apart table [t] := by
      cases hexpands : table.expands? t with
      | none => exact apart_stay hexpands
      | some m =>
        have hparams := params_of_not_takesArgs hexpands hname
        exact apart_of_append { out := _, changed := true } fun _ => expandOnce_object hexpands hparams
    exact ht.append ih
  | group hopen hclose hin _ ihin ih =>
    simpa using ((callOutcome hopen hclose hin).apart hclose ihin).append ih

end Rounds

end ShaderEffect
