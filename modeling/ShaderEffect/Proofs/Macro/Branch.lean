import Mathlib
import ShaderEffect.Macro.Preprocess

/-!
# Nested branches

The preprocessor goes through lines one by one with a stack of open branches. Where the groups of
branches are nested in each other there is a reading without a stack: `Nested.select` follows the
nesting, goes into the first branch of a group whose condition holds, or into the last one if none
does, and takes no more than the line breaks of all the others. It never looks at a condition behind
the branch that it took, nor at one inside a branch that it left out.

**On nested lines the preprocessor does what this reading does** (`preprocess_nested`): the same lines
reach expansion, the same macros are defined and removed, and the same notices are made.
-/

namespace ShaderEffect

open List

variable (lines : List (List Token)) (bs : List Branch) (condition : List Token)
  (test : BranchTest) {f : Preprocessor → Preprocessor}

/-- The directive opens, turns or closes a group of branches. -/
def Directive.isBranching : Directive → Bool
  | .opens _ | .turns _ | .otherwise | .closes => true
  | _ => false

mutual

/-- Lines in which the groups of branches are nested: a group that is opened is closed again. Every
line stands with what it reads as. -/
inductive Nested where
  | done
  | text (line : List Token) (reads : Directive.ofLine? line = none) (rest : Nested)
  | order (line : List Token) (d : Directive) (reads : Directive.ofLine? line = some d)
      (plain : d.isBranching = false) (rest : Nested)
  | group (line : List Token) (test : BranchTest)
      (reads : Directive.ofLine? line = some (.opens test)) (first : Nested)
      (others : Alternatives) (rest : Nested)

/-- What follows the first branch of a group, up to the line that closes the group. -/
inductive Alternatives where
  | close (line : List Token) (reads : Directive.ofLine? line = some .closes)
  | turn (line condition : List Token) (reads : Directive.ofLine? line = some (.turns condition))
      (branch : Nested) (others : Alternatives)
  | otherwise (line : List Token) (reads : Directive.ofLine? line = some .otherwise)
      (branch : Nested) (last : List Token) (closes : Directive.ofLine? last = some .closes)

end

mutual

def Nested.lines : Nested → List (List Token)
  | .done => []
  | .text line _ rest => line :: rest.lines
  | .order line _ _ _ rest => line :: rest.lines
  | .group line _ _ first others rest => line :: (first.lines ++ (others.lines ++ rest.lines))

def Alternatives.lines : Alternatives → List (List Token)
  | .close line _ => [line]
  | .turn line _ _ branch others => line :: (branch.lines ++ others.lines)
  | .otherwise line _ branch last _ => line :: (branch.lines ++ [last])

end

namespace Preprocessor

/-- Goes past lines of which only the line breaks stay. -/
def blank (lines : List (List Token)) (p : Preprocessor) : Preprocessor :=
  { p with out := p.out ++ lines.flatMap lineBreaks }

def wait (line : List Token) (p : Preprocessor) : Preprocessor :=
  { p with waiting := p.waiting ++ line }

end Preprocessor

/-! ## The reading that follows the nesting -/

section Reading

variable (inputs : List String) (limit : Nat)

mutual

/-- Reads lines that are selected. Of a group, the first branch is read if its test holds, and the
others are left out then; otherwise it is left out itself. -/
def Nested.select : Nested → Preprocessor → Preprocessor
  | .done, p => p
  | .text line _ rest, p => rest.select (p.wait line)
  | .order line d _ _ rest, p =>
    rest.select (((p.flush limit).obeyActive inputs d).blank [line])
  | .group line test _ first others rest, p =>
    let p := p.flush limit
    let verdict := test.decide p.table limit
    let p := (p.report verdict.2).blank [line]
    rest.select <|
      if verdict.1 then ((first.select p).flush limit).blank others.lines
      else others.select (p.blank first.lines)

/-- Reads the alternatives of a group of which no branch was selected yet. -/
def Alternatives.select : Alternatives → Preprocessor → Preprocessor
  | .close line _, p => p.blank [line]
  | .turn line condition _ branch others, p =>
    let verdict := conditionHolds p.table limit condition
    let p := (p.report verdict.2).blank [line]
    if verdict.1 then ((branch.select p).flush limit).blank others.lines
    else others.select (p.blank branch.lines)
  | .otherwise line _ branch last _, p =>
    ((branch.select (p.blank [line])).flush limit).blank [last]

end

end Reading

/-! ## Steps of the preprocessor -/

namespace Preprocessor

variable {inputs : List String} {limit : Nat} {p : Preprocessor} {b : Branch}

def within (bs : List Branch) (p : Preprocessor) : Preprocessor :=
  { p with branches := bs }

def enter (b : Branch) (p : Preprocessor) : Preprocessor :=
  { p with branches := b :: p.branches }

theorem isActive_enter : (p.enter b).isActive = (b.taking && p.isActive) := rfl

theorem table_within : (p.within bs).table = p.table := rfl

theorem flush_within :
    (p.within bs).flush limit = (p.flush limit).within bs := rfl

theorem blank_within :
    (p.within bs).blank lines = (p.blank lines).within bs := rfl

theorem report_within (notices : List MacroNotice) (bs : List Branch) :
    (p.within bs).report notices = (p.report notices).within bs := rfl

theorem wait_within (line : List Token) (bs : List Branch) :
    (p.within bs).wait line = (p.wait line).within bs := rfl

theorem obeyActive_within (d : Directive) (bs : List Branch) :
    (p.within bs).obeyActive inputs d = (p.obeyActive inputs d).within bs := by
  unfold obeyActive
  split
  · unfold define
    split <;> rfl
  · rfl
  · rfl
  · rfl

theorem branches_of_within
    (h : ∀ p bs, f (p.within bs) = (f p).within bs) (p : Preprocessor) :
    (f p).branches = p.branches := by
  have hown := congrArg branches (h p p.branches)
  exact hown

theorem enter_of_within
    (h : ∀ p bs, f (p.within bs) = (f p).within bs) (p : Preprocessor) (b : Branch) :
    f (p.enter b) = (f p).enter b := by
  rw [enter, enter, branches_of_within h]
  exact h p (b :: p.branches)

theorem isActive_of_within
    (h : ∀ p bs, f (p.within bs) = (f p).within bs) (hp : p.isActive = true) :
    (f p).isActive = true := by
  rw [isActive, branches_of_within h]
  exact hp

theorem blank_nil : p.blank [] = p := by
  simp [blank]

theorem blank_blank (as bs : List (List Token)) : (p.blank as).blank bs = p.blank (as ++ bs) := by
  simp [blank, append_assoc]

theorem flush_enter : (p.enter b).flush limit = (p.flush limit).enter b := rfl

theorem blank_enter :
    (p.enter b).blank lines = (p.blank lines).enter b := rfl

theorem flush_of_waiting_nil (hlimit : 0 < limit) (h : p.waiting = []) : p.flush limit = p := by
  have hexpand : expand p.table limit [] = ([], []) := by
    cases limit with
    | zero => cases hlimit
    | succ fuel => simp [expand, expandMarked, settle, expandOnce]
  obtain ⟨table, branches, waiting, out, notices⟩ := p
  obtain rfl : waiting = [] := h
  simp [flush, hexpand]

/-! What a line does, by what it reads as. -/

variable {line : List Token}

theorem addLine_text (h : Directive.ofLine? line = none) (hp : p.isActive = true) :
    p.addLine inputs limit line = p.wait line := by
  rw [addLine, h]
  simp only [hp, if_true]
  rfl

theorem addLine_text_inactive (h : Directive.ofLine? line = none) (hp : p.isActive = false) :
    p.addLine inputs limit line = p.blank [line] := by
  rw [addLine, h]
  simp [hp, blank]

theorem addLine_directive {d : Directive} (h : Directive.ofLine? line = some d) :
    p.addLine inputs limit line = ((p.flush limit).obey inputs limit d).blank [line] := by
  rw [addLine, h]
  simp [blank]

theorem obey_order {d : Directive} (h : d.isBranching = false) :
    p.obey inputs limit d = if p.isActive then p.obeyActive inputs d else p := by
  cases d <;> first | rfl | cases h

theorem openBranch_active (hp : p.isActive = true) :
    p.openBranch limit test =
      (p.report (test.decide p.table limit).2).enter
        ⟨true, (test.decide p.table limit).1, (test.decide p.table limit).1⟩ := by
  simp only [openBranch, hp, if_true]
  rfl

theorem openBranch_inactive (hp : p.isActive = false) :
    p.openBranch limit test = p.enter ⟨false, false, false⟩ := by
  simp [openBranch, hp, enter]

/-- A group is spent if none of its further branches can be selected. -/
def Spent (b : Branch) : Prop :=
  (b.outer && !b.taken) = false

theorem turnBranch_spent (hb : Spent b) :
    (p.enter b).turnBranch limit condition = p.enter { b with taking := false } := by
  unfold Spent at hb
  simp [turnBranch, enter, hb]

theorem turnBranch_open :
    (p.enter ⟨true, false, false⟩).turnBranch limit condition =
      (p.report (conditionHolds p.table limit condition).2).enter
        ⟨true, (conditionHolds p.table limit condition).1,
          (conditionHolds p.table limit condition).1⟩ := rfl

theorem otherwise_spent (hb : Spent b) :
    (p.enter b).otherwise = p.enter { b with taking := false, taken := true } := by
  unfold Spent at hb
  simp [otherwise, enter, hb]

theorem otherwise_open :
    (p.enter ⟨true, false, false⟩).otherwise = p.enter ⟨true, true, true⟩ := rfl

theorem close_enter : (p.enter b).close = p := rfl

end Preprocessor

/-! ## Lines that are left out -/

section Run

open Preprocessor

variable (inputs : List String) {limit : Nat} (hlimit : 0 < limit)

include hlimit

mutual

theorem Nested.run_inactive : ∀ (n : Nested) (p : Preprocessor), p.isActive = false →
    p.waiting = [] → n.lines.foldl (addLine inputs limit) p = p.blank n.lines
  | .done, p, _, _ => p.blank_nil.symm
  | .text line reads rest, p, hp, hw => by
    rw [Nested.lines, foldl_cons, addLine_text_inactive reads hp,
      rest.run_inactive (p.blank [line]) hp hw, blank_blank]
    rfl
  | .order line d reads plain rest, p, hp, hw => by
    rw [Nested.lines, foldl_cons, addLine_directive reads, flush_of_waiting_nil hlimit hw,
      obey_order plain, hp, if_neg Bool.false_ne_true, rest.run_inactive (p.blank [line]) hp hw,
      blank_blank]
    rfl
  | .group line test reads first others rest, p, hp, hw => by
    -- the group is open while its lines go by, but nothing of it is active
    have hspent : Spent ⟨false, false, false⟩ := rfl
    have hin : ((p.blank [line]).enter ⟨false, false, false⟩).isActive = false := by
      rw [isActive_enter, Bool.false_and]
    have hopen : p.addLine inputs limit line = (p.blank [line]).enter ⟨false, false, false⟩ := by
      rw [addLine_directive reads, flush_of_waiting_nil hlimit hw, obey,
        openBranch_inactive test hp, blank_enter]
    have hflush : ((p.blank [line]).blank first.lines).flush limit =
        (p.blank [line]).blank first.lines := flush_of_waiting_nil hlimit hw
    have hrest := rest.run_inactive (((p.blank [line]).blank first.lines).blank others.lines) hp hw
    rw [Nested.lines, foldl_cons, foldl_append, foldl_append, hopen,
      first.run_inactive _ hin hw, blank_enter, others.run_spent _ _ hspent, hflush, hrest,
      blank_blank, blank_blank, blank_blank]
    simp

/-- Behind the branch that was taken, or in a group inside a branch that is not taken, only line
breaks stay. -/
theorem Alternatives.run_spent : ∀ (as : Alternatives) (p : Preprocessor) (b : Branch), Spent b →
    as.lines.foldl (addLine inputs limit) (p.enter b) = (p.flush limit).blank as.lines
  | .close line reads, p, b, _ => by
    rw [Alternatives.lines, foldl_cons, foldl_nil, addLine_directive reads, flush_enter,
      obey, close_enter]
  | .turn line condition reads branch others, p, b, hb => by
    have hspent : Spent { b with taking := false } := hb
    have hturn : (p.enter b).addLine inputs limit line =
        ((p.flush limit).blank [line]).enter { b with taking := false } := by
      rw [addLine_directive reads, flush_enter, obey, turnBranch_spent condition hb, blank_enter]
    have hbranch := branch.run_inactive
      (((p.flush limit).blank [line]).enter { b with taking := false }) rfl rfl
    rw [Alternatives.lines, foldl_cons, foldl_append, hturn, hbranch, blank_enter,
      others.run_spent _ _ hspent, flush_of_waiting_nil hlimit rfl, blank_blank, blank_blank]
    rfl
  | .otherwise line reads branch last closes, p, b, hb => by
    have hturn : (p.enter b).addLine inputs limit line =
        ((p.flush limit).blank [line]).enter { b with taking := false, taken := true } := by
      rw [addLine_directive reads, flush_enter, obey, otherwise_spent hb, blank_enter]
    have hbranch := branch.run_inactive
      (((p.flush limit).blank [line]).enter { b with taking := false, taken := true }) rfl rfl
    rw [Alternatives.lines, foldl_cons, foldl_append, hturn, hbranch, blank_enter,
      foldl_cons, foldl_nil, addLine_directive closes, flush_enter, obey, close_enter,
      flush_of_waiting_nil hlimit rfl, blank_blank, blank_blank]
    rfl

end

omit hlimit

/-! ## Lines that are selected -/

mutual

theorem Nested.select_within : ∀ (n : Nested) (p : Preprocessor) (bs : List Branch),
    n.select inputs limit (p.within bs) = (n.select inputs limit p).within bs
  | .done, _, _ => rfl
  | .text line _ rest, p, bs => by
    rw [Nested.select, Nested.select, wait_within, rest.select_within]
  | .order line d _ _ rest, p, bs => by
    rw [Nested.select, Nested.select, flush_within, obeyActive_within, blank_within,
      rest.select_within]
  | .group line test _ first others rest, p, bs => by
    simp only [Nested.select, flush_within, table_within, report_within, blank_within,
      first.select_within, others.select_within, ← apply_ite (within bs), rest.select_within]

theorem Alternatives.select_within : ∀ (as : Alternatives) (p : Preprocessor) (bs : List Branch),
    as.select inputs limit (p.within bs) = (as.select inputs limit p).within bs
  | .close _ _, _, _ => rfl
  | .turn line condition _ branch others, p, bs => by
    simp only [Alternatives.select, table_within, report_within, blank_within,
      branch.select_within, flush_within, others.select_within, ← apply_ite (within bs)]
  | .otherwise line _ branch last _, p, bs => by
    rw [Alternatives.select, Alternatives.select, blank_within, branch.select_within,
      flush_within, blank_within]

end

include hlimit

theorem run_verdict {branch : Nested} {others : Alternatives} {q : Preprocessor} (v : Bool)
    (hq : q.isActive = true) (hw : q.waiting = [])
    (hbranch : ∀ p : Preprocessor, p.isActive = true →
      branch.lines.foldl (addLine inputs limit) p = branch.select inputs limit p)
    (hothers : ∀ p : Preprocessor, p.isActive = true → p.waiting = [] →
      others.lines.foldl (addLine inputs limit) (p.enter ⟨true, false, false⟩) =
        others.select inputs limit p) :
    (branch.lines ++ others.lines).foldl (addLine inputs limit) (q.enter ⟨true, v, v⟩) =
      if v then ((branch.select inputs limit q).flush limit).blank others.lines
      else others.select inputs limit (q.blank branch.lines) := by
  rw [foldl_append]
  cases v with
  | true =>
    -- the branch is taken, so what is left of the group is spent
    have hspent : Spent ⟨true, true, true⟩ := rfl
    rw [hbranch (q.enter ⟨true, true, true⟩) hq, enter_of_within (branch.select_within inputs),
      others.run_spent inputs hlimit _ _ hspent, if_pos rfl]
  | false =>
    rw [branch.run_inactive inputs hlimit (q.enter ⟨true, false, false⟩) rfl hw, blank_enter,
      hothers (q.blank branch.lines) hq hw, if_neg Bool.false_ne_true]

include hlimit

mutual

/-- **Line by line, with the stack of branches, nested lines are read as their nesting says.** -/
theorem Nested.run_active : ∀ (n : Nested) (p : Preprocessor), p.isActive = true →
    n.lines.foldl (addLine inputs limit) p = n.select inputs limit p
  | .done, _, _ => rfl
  | .text line reads rest, p, hp => by
    rw [Nested.lines, foldl_cons, addLine_text reads hp, rest.run_active (p.wait line) hp,
      Nested.select]
  | .order line d reads plain rest, p, hp => by
    have hflush : (p.flush limit).isActive = true := hp
    have hobeyed : ((p.flush limit).obeyActive inputs d).isActive = true :=
      isActive_of_within (fun _ => obeyActive_within d) hflush
    have hrest := rest.run_active (((p.flush limit).obeyActive inputs d).blank [line]) hobeyed
    rw [Nested.lines, foldl_cons, addLine_directive reads, obey_order plain, hflush, if_pos rfl,
      hrest, Nested.select]
  | .group line test reads first others rest, p, hp => by
    obtain ⟨q, hq⟩ : ∃ q, q =
      ((p.flush limit).report (test.decide (p.flush limit).table limit).2).blank [line] := ⟨_, rfl⟩
    obtain ⟨v, hv⟩ : ∃ v, v = (test.decide (p.flush limit).table limit).1 := ⟨_, rfl⟩
    have hqactive : q.isActive = true := by rw [hq]; exact hp
    have hqwaiting : q.waiting = [] := by rw [hq]; rfl
    have hflush : (p.flush limit).isActive = true := hp
    have hopen : p.addLine inputs limit line = q.enter ⟨true, v, v⟩ := by
      rw [addLine_directive reads, obey, openBranch_active test hflush, blank_enter, hq, hv]
    rw [Nested.lines, foldl_cons, ← append_assoc, foldl_append, hopen,
      run_verdict inputs hlimit v hqactive hqwaiting first.run_active others.run_open, Nested.select,
      ← hq, ← hv]
    refine rest.run_active _ ?_
    have hfirst : (first.select inputs limit q).isActive = true :=
      isActive_of_within (first.select_within inputs) hqactive
    split
    · exact hfirst
    · exact isActive_of_within (others.select_within inputs) hqactive

theorem Alternatives.run_open : ∀ (as : Alternatives) (p : Preprocessor), p.isActive = true →
    p.waiting = [] →
    as.lines.foldl (addLine inputs limit) (p.enter ⟨true, false, false⟩) = as.select inputs limit p
  | .close line reads, p, _, hw => by
    rw [Alternatives.lines, foldl_cons, foldl_nil, addLine_directive reads, flush_enter,
      obey, close_enter, flush_of_waiting_nil hlimit hw, Alternatives.select]
  | .turn line condition reads branch others, p, hp, hw => by
    obtain ⟨q, hq⟩ : ∃ q, q =
      (p.report (conditionHolds p.table limit condition).2).blank [line] := ⟨_, rfl⟩
    obtain ⟨v, hv⟩ : ∃ v, v = (conditionHolds p.table limit condition).1 := ⟨_, rfl⟩
    have hqactive : q.isActive = true := by rw [hq]; exact hp
    have hqwaiting : q.waiting = [] := by rw [hq]; exact hw
    have hturn : (p.enter ⟨true, false, false⟩).addLine inputs limit line =
        q.enter ⟨true, v, v⟩ := by
      rw [addLine_directive reads, flush_enter, flush_of_waiting_nil hlimit hw, obey,
        turnBranch_open, blank_enter, hq, hv]
    rw [Alternatives.lines, foldl_cons, hturn, Alternatives.select, ← hq, ← hv]
    exact run_verdict inputs hlimit v hqactive hqwaiting branch.run_active others.run_open
  | .otherwise line reads branch last closes, p, hp, hw => by
    have hturn : (p.enter ⟨true, false, false⟩).addLine inputs limit line =
        (p.blank [line]).enter ⟨true, true, true⟩ := by
      rw [addLine_directive reads, flush_enter, flush_of_waiting_nil hlimit hw, obey,
        otherwise_open, blank_enter]
    rw [Alternatives.lines, foldl_cons, foldl_append, hturn,
      branch.run_active ((p.blank [line]).enter ⟨true, true, true⟩) hp,
      enter_of_within (branch.select_within inputs),
      foldl_cons, foldl_nil, addLine_directive closes, flush_enter, obey, close_enter,
      Alternatives.select]

end

end Run

/-- What the reading of all lines of a body gives. -/
def Nested.read (inputs : List String) (limit : Nat) (n : Nested) : Preprocessed :=
  let p := (n.select inputs limit {}).flush limit
  { tokens := p.out, macros := p.table.sorted, notices := p.notices }

/-- **A body whose branches are nested is preprocessed as the nesting says.** -/
theorem preprocess_nested (inputs : List String) (limit : Nat) (body : String) (n : Nested)
    (h : n.lines = tokenLines (Token.tokenize (joinContinued body))) :
    preprocess inputs limit body = n.read inputs (max limit 1) := by
  have hlimit : 0 < max limit 1 := Nat.lt_of_lt_of_le Nat.one_pos (Nat.le_max_right _ _)
  have hrun := n.run_active inputs hlimit {} rfl
  have hfinish : (n.select inputs (max limit 1) {}).finish (max limit 1) =
      (n.select inputs (max limit 1) {}).flush (max limit 1) := by
    have hclosed : ((n.select inputs (max limit 1) {}).flush (max limit 1)).branches = [] :=
      Preprocessor.branches_of_within (n.select_within inputs) {}
    exact if_pos (by rw [hclosed]; rfl)
  unfold preprocess Nested.read
  simp only [← h, hrun, hfinish]

/-- The condition `1/0` has no value, but it stands inside a branch that is left out. -/
theorem preprocess_nested_left_out :
    ∃ n : Nested,
      n.lines = tokenLines (Token.tokenize (joinContinued
        "#if 0\n#if 1/0\na\n#endif\n#elif 1\nb\n#elif 1/0\nc\n#else\nd\n#endif\n")) ∧
      preprocess [] 32
        "#if 0\n#if 1/0\na\n#endif\n#elif 1\nb\n#elif 1/0\nc\n#else\nd\n#endif\n" =
          n.read [] 32 ∧
      (n.read [] 32).text = "\n\n\n\n\nb\n\n\n\n\n\n" ∧ (n.read [] 32).notices = [] := by
  let hash : Token := ⟨.punct, "#"⟩
  let gap : Token := ⟨.space, " "⟩
  let zero : Token := ⟨.int, "0"⟩
  let one : Token := ⟨.int, "1"⟩
  let slash : Token := ⟨.punct, "/"⟩
  let line : Token := ⟨.newline, "\n"⟩
  let word (text : String) : Token := ⟨.ident, text⟩
  let n : Nested :=
    .group [hash, word "if", gap, zero, line] _ rfl
      (.group [hash, word "if", gap, one, slash, zero, line] _ rfl
        (.text [word "a", line] rfl .done) (.close [hash, word "endif", line] rfl) .done)
      (.turn [hash, word "elif", gap, one, line] _ rfl (.text [word "b", line] rfl .done)
        (.turn [hash, word "elif", gap, one, slash, zero, line] _ rfl
          (.text [word "c", line] rfl .done)
          (.otherwise [hash, word "else", line] rfl (.text [word "d", line] rfl .done)
            [hash, word "endif", line] rfl)))
      .done
  have hlines : n.lines = tokenLines (Token.tokenize (joinContinued
      "#if 0\n#if 1/0\na\n#endif\n#elif 1\nb\n#elif 1/0\nc\n#else\nd\n#endif\n")) := by
    decide_cbv
  exact ⟨n, hlines, preprocess_nested [] 32 _ n hlines, by decide_cbv, by decide_cbv⟩

end ShaderEffect
