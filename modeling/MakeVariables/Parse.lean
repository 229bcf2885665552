import MakeVariables.Model.Parse
import Mathlib.Tactic.LiftLets
import Mathlib.Tactic.Set
/-!
# Parsing a definition — what the loop accepts and what it reads

Two paths of the loop of `parse_variable_definition` take a character
after a `?` without the tests the loop puts every other character to.

When that character is no operator character, the pass ends in `other`
with `end` still unset, so the character joins the name: `a? = b` is
accepted with the name `a? `, blank included, and `a?# = b` with the name
`a?#` (`question_mark_blank_in_name`).

When the `?` is the last character of the line, that character is the
terminating NUL, and the test `*p == '='` then reads the byte after it
(`trailing_question_mark_reads_past_nul`).

That read is the only one beyond the NUL: on every line, the loop ends
within its fuel, and every other read, the `:`, `+` and `!` look-aheads
included, stays within the line (`parse_variable_definition_reads_within`).
Each pass is summed up once (`StepWithin`), and the loop is an induction
on its fuel with the distance to the NUL as the measure.
-/

namespace MakeVariables

/-- `a? = b` is the name `a?`, a blank, `=` and `b`; it is accepted with
the name `a? `, three characters. `a?# = b` is accepted with the name
`a?#`, a comment character in it. -/
theorem question_mark_blank_in_name (skip : List Char → Nat → Nat) :
    parseVariableDefinition (stopcharContext skip) "a? = b".toList =
        .ok (some ⟨0, 3, 5, .recursive, false, 4⟩) ∧
      ParsedDefinition.nameText ⟨0, 3, 5, .recursive, false, 4⟩ "a? = b".toList = "a? ".toList ∧
      parseVariableDefinition (stopcharContext skip) "a?# = b".toList =
        .ok (some ⟨0, 3, 6, .recursive, false, 5⟩) ∧
      ParsedDefinition.nameText ⟨0, 3, 6, .recursive, false, 5⟩ "a?# = b".toList = "a?#".toList :=
  ⟨rfl, rfl, rfl, rfl⟩

/-- `a?`: after the `?`, `c = *p++` reads the NUL at index 2, and
`*p == '='` reads index 3, past it. -/
theorem trailing_question_mark_reads_past_nul (skip : List Char → Nat → Nat) :
    parseVariableDefinition (stopcharContext skip) "a?".toList = .error (.readPastEnd 3) :=
  rfl


/-! ## Every other read stays within the line -/

section reads

variable {ctx : ParseContext} {line : List Char}

theorem except_ok_bind {ε α β : Type} (a : α) (f : α → Except ε β) : (Except.ok a >>= f) = f a :=
  rfl

theorem readAt_of_le {p : Nat} (hp : p ≤ line.length) :
    readAt line p = .ok (line.getD p '\x00') :=
  if_pos hp

/-- A character other than the NUL is read from within the line. -/
theorem lt_length_of_getD {i : Nat} {c : Char} (h : line.getD i '\x00' = c) (hc : c ≠ '\x00') :
    i < line.length :=
  Nat.lt_of_not_le fun hi => hc <| by
    rw [← h, List.getD_eq_getElem?_getD, List.getElem?_eq_none hi, Option.getD_none]

theorem getLast?_of_getD {p : Nat} {c : Char} (h : line.getD p '\x00' = c)
    (hp : p + 1 = line.length) : line.getLast? = some c := by
  rw [List.getLast?_eq_getElem?, ← h, List.getD_eq_getElem?_getD, ← hp, Nat.add_sub_cancel,
    List.getElem?_eq_getElem (by omega), Option.getD_some]

/-- What a pass of the loop from `p` may lead to: a further pass from a
later position within the line, an operator ending within it, `return
NULL`, or the read of the character just beyond the NUL, after a final `?`. -/
def StepWithin (line : List Char) (p : Nat) : Except ScanFault LoopStep → Prop
  | .ok (.next q _ _) => p < q ∧ q ≤ line.length
  | .ok (.found q _ _ _) => q ≤ line.length
  | .ok .notDefinition => True
  | .error e => e = .readPastEnd (line.length + 1) ∧ line.getLast? = some '?'

/-- `NEXT_TOKEN` stops at the NUL at the latest, within its fuel. -/
theorem nextTokenFrom_within {isSpace : Char → Bool} (hsp : isSpace '\x00' = false) :
    ∀ fuel p, p ≤ line.length → line.length - p < fuel →
      ∃ q, nextTokenFrom isSpace line fuel p = .ok q ∧ p ≤ q ∧ q ≤ line.length
  | 0, _, _, h => absurd h (Nat.not_lt_zero _)
  | fuel + 1, p, hp, hf => by
    rw [nextTokenFrom, readAt_of_le hp, except_ok_bind]
    by_cases hs : isSpace (line.getD p '\x00') = true
    · have hlt := lt_length_of_getD rfl fun h => by rw [h, hsp] at hs; exact Bool.false_ne_true hs
      obtain ⟨q, hq, h1, h2⟩ := nextTokenFrom_within hsp fuel (p + 1) hlt (by omega)
      exact ⟨q, by rw [if_pos hs, hq], by omega, h2⟩
    · exact ⟨p, by rw [if_neg hs]; rfl, Nat.le_refl p, hp⟩

theorem nextToken_within {isSpace : Char → Bool} (hsp : isSpace '\x00' = false) {p : Nat}
    (hp : p ≤ line.length) : ∃ q, nextToken isSpace line p = .ok q ∧ p ≤ q ∧ q ≤ line.length :=
  nextTokenFrom_within hsp _ p hp (by omega)

/-- After a `:` within the line, each look-ahead follows a `:` and so
stays within it. -/
theorem colonOperator_within (p : Nat) {q e : Nat} {c : Bool} (hq : q ≤ line.length) :
    StepWithin line p (colonOperator line q e c) := by
  rw [colonOperator, readAt_of_le hq, except_ok_bind]
  split_ifs with h1 h2
  · exact lt_length_of_getD h1 (by decide)
  · rw [readAt_of_le (lt_length_of_getD h2 (by decide)), except_ok_bind]
    split_ifs with h3 h4
    · exact lt_length_of_getD h3 (by decide)
    · rw [readAt_of_le (lt_length_of_getD h4 (by decide)), except_ok_bind]
      split_ifs with h5
      · exact lt_length_of_getD h5 (by decide)
      · trivial
    · trivial
  · trivial

section step

variable (hsp : ctx.isSpace '\x00' = false)
  (hskip : ∀ q ≤ line.length, q ≤ ctx.skipReference line q ∧ ctx.skipReference line q ≤ line.length)
include hsp hskip

/-- **One pass.** From a position within the line, a pass of the loop
leads to one of the outcomes `StepWithin` allows. -/
theorem parseStep_within {p : Nat} (hp : p ≤ line.length) (e : Option Nat) (cond : Bool) :
    StepWithin line p (parseStep ctx line p e cond) := by
  rw [parseStep, readAt_of_le hp, except_ok_bind]
  by_cases h0 : (ctx.isComment (line.getD p '\x00') || line.getD p '\x00' = '\x00') = true
  · rw [if_pos h0]
    trivial
  rw [if_neg h0]
  have hlt : p < line.length := lt_length_of_getD rfl fun h => h0 (by rw [h]; simp)
  by_cases h1 : ctx.isBlank (line.getD p '\x00') = true
  · rw [if_pos h1]
    cases e with
    | some _ => trivial
    | none =>
      obtain ⟨q, hq, h3, h4⟩ := nextToken_within hsp hlt
      show StepWithin line p (nextToken ctx.isSpace line (p + 1) >>= _)
      rw [hq, except_ok_bind]
      exact ⟨by omega, h4⟩
  rw [if_neg h1]
  lift_lets
  intro jp
  -- the rest of the pass, from the operator character `c` read at `q - 1`
  have hjp : ∀ c q cond', p < q → (c ≠ '\x00' → q ≤ line.length) →
      (line.length < q → q = line.length + 1 ∧ line.getLast? = some '?') →
      StepWithin line p (jp (c, q, cond')) := by
    intro c q cond' hpq hq hpast
    simp only [jp]
    by_cases h3 : c = '='
    · rw [if_pos h3]
      exact hq (by rw [h3]; decide)
    rw [if_neg h3]
    by_cases h4 : c = ':'
    · rw [if_pos h4]
      exact colonOperator_within p (hq (by rw [h4]; decide))
    rw [if_neg h4]
    by_cases hql : q ≤ line.length
    · rw [readAt_of_le hql, except_ok_bind]
      by_cases h5 : line.getD q '\x00' = '=' ∧ c = '+'
      · rw [if_pos h5]
        exact lt_length_of_getD h5.1 (by decide)
      rw [if_neg h5]
      by_cases h6 : line.getD q '\x00' = '=' ∧ c = '!'
      · rw [if_pos h6]
        exact lt_length_of_getD h6.1 (by decide)
      rw [if_neg h6]
      cases e with
      | some _ => trivial
      | none =>
        by_cases h7 : c = '$'
        · rw [if_pos h7]
          exact ⟨Nat.lt_of_lt_of_le hpq (hskip q hql).1, (hskip q hql).2⟩
        · rw [if_neg h7]
          exact ⟨hpq, hql⟩
    · obtain ⟨hq1, hl⟩ := hpast (Nat.lt_of_not_le hql)
      rw [readAt, if_neg hql]
      exact ⟨by rw [hq1], hl⟩
  by_cases hq : line.getD p '\x00' = '?'
  · rw [if_pos hq, readAt_of_le hlt]
    exact hjp _ _ _ (by omega) (lt_length_of_getD rfl) fun h =>
      ⟨by omega, getLast?_of_getD hq (by omega)⟩
  · rw [if_neg hq]
    exact hjp _ _ _ (by omega) (fun _ => hlt) fun h => absurd h (by omega)

/-- **The loop.** With more fuel than the distance to the NUL, the loop
returns a position within the line, `NULL`, or the read after a final
`?`: each pass moves forward. -/
theorem parseLoop_within :
    ∀ fuel p e cond, p ≤ line.length → line.length - p < fuel →
      (∃ r, parseLoop ctx line fuel p e cond = .ok r ∧ ∀ x ∈ r, x.1 ≤ line.length) ∨
      (line.getLast? = some '?' ∧
        parseLoop ctx line fuel p e cond = .error (.readPastEnd (line.length + 1)))
  | 0, _, _, _, _, h => absurd h (Nat.not_lt_zero _)
  | fuel + 1, p, e, cond, hp, hf => by
    have hs := parseStep_within hsp hskip hp e cond
    rw [parseLoop]
    cases h : parseStep ctx line p e cond with
    | error err =>
      rw [h] at hs
      obtain ⟨rfl, hl⟩ := hs
      exact .inr ⟨hl, rfl⟩
    | ok r =>
      rw [h] at hs
      rw [except_ok_bind]
      cases r with
      | next q e' c' =>
        obtain ⟨hpq, hq⟩ := hs
        exact parseLoop_within fuel q e' c' hq (by omega)
      | found q e' f c' => exact .inl ⟨_, rfl, fun x hx => by cases hx; exact hs⟩
      | notDefinition => exact .inl ⟨none, rfl, fun _ hx => nomatch hx⟩

end step

/-- **Only a final `?` makes the loop read past the NUL.** On every line,
where `ISSPACE` does not hold of the NUL and `skip_reference` moves
forward without passing it, `parse_variable_definition` ends within its
fuel and fails only by reading the character after the NUL, on a line
whose last character is `?`; the value it finds starts after the
operator and within the line. -/
theorem parse_variable_definition_reads_within (ctx : ParseContext) (line : List Char)
    (hsp : ctx.isSpace '\x00' = false)
    (hskip : ∀ q ≤ line.length, q ≤ ctx.skipReference line q ∧ ctx.skipReference line q ≤ line.length) :
    (∃ r, parseVariableDefinition ctx line = .ok r ∧
        ∀ d ∈ r, d.next ≤ d.value ∧ d.value ≤ line.length) ∨
      (line.getLast? = some '?' ∧
        parseVariableDefinition ctx line = .error (.readPastEnd (line.length + 1))) := by
  obtain ⟨name, hname, -, hnl⟩ := nextToken_within hsp (Nat.zero_le line.length)
  rw [parseVariableDefinition, hname, except_ok_bind]
  rcases parseLoop_within hsp hskip (line.length + 2) name none false hnl (by omega) with
    ⟨r, hr, hle⟩ | ⟨hl, hr⟩
  · rw [hr, except_ok_bind]
    rcases r with _ | ⟨p, e, f, c⟩
    · exact .inl ⟨none, rfl, fun _ hd => nomatch hd⟩
    · obtain ⟨v, hv, h1, h2⟩ := nextToken_within hsp (hle (p, e, f, c) rfl : p ≤ line.length)
      dsimp only
      rw [hv, except_ok_bind]
      exact .inl ⟨_, rfl, fun d hd => by cases hd; exact ⟨h1, h2⟩⟩
  · rw [hr]
    exact .inr ⟨hl, rfl⟩

end reads

/-- The classes of the C locale, and a `skip_reference` that skips
nothing. -/
def plainParseContext : ParseContext := stopcharContext fun _ q => q

theorem parse_variable_definition_reads_within_x :
    plainParseContext.isSpace '\x00' = false ∧
      (∀ q ≤ "x := $y".toList.length, q ≤ plainParseContext.skipReference "x := $y".toList q ∧
        plainParseContext.skipReference "x := $y".toList q ≤ "x := $y".toList.length) ∧
      ((∃ r, parseVariableDefinition plainParseContext "x := $y".toList = .ok r ∧
          ∀ d ∈ r, d.next ≤ d.value ∧ d.value ≤ "x := $y".toList.length) ∨
        ("x := $y".toList.getLast? = some '?' ∧ parseVariableDefinition plainParseContext
          "x := $y".toList = .error (.readPastEnd ("x := $y".toList.length + 1)))) :=
  ⟨rfl, fun _ h => ⟨Nat.le_refl _, h⟩,
    parse_variable_definition_reads_within _ _ rfl fun _ h => ⟨Nat.le_refl _, h⟩⟩

/-! ## What the loop accepts

A line made of spaces, a name, blanks, an operator, with or without a
`?` in front, and the rest, is accepted with exactly that name, the
flavor the operator spells and the value after the spaces that follow it
(`parseVariableDefinition_grammar`). The name holds no blank, `#`, `$`,
operator character or NUL, and it does not start with a space, which
`NEXT_TOKEN` would skip. The loop passes over the name one character at
a time, over the blanks in one pass, and stops at the operator. -/

/-- Modelled from the spec: the assignment operators of a definition,
`=`, `:=`, `::=`, `:::=`, `+=` and `!=`. -/
inductive AssignOp
  | recursive
  | simple
  | posix
  | expand
  | append
  | shell
  deriving DecidableEq, Repr

/-- Modelled from the spec: the characters of an operator. -/
def AssignOp.text : AssignOp → List Char
  | .recursive => ['=']
  | .simple => [':', '=']
  | .posix => [':', ':', '=']
  | .expand => [':', ':', ':', '=']
  | .append => ['+', '=']
  | .shell => ['!', '=']

/-- Modelled from the spec: the flavor an operator spells. -/
def AssignOp.flavor : AssignOp → VariableFlavor
  | .recursive => .recursive
  | .simple => .simple
  | .posix => .simple
  | .expand => .expand
  | .append => .append
  | .shell => .shell

/-- Modelled from the spec: a character a name may hold, no blank, `#`,
operator character, `$` or NUL. -/
def nameChar (c : Char) : Bool := c ∉ [' ', '\t', '#', ':', '=', '$', '?', '+', '!', '\x00']

section accepts

variable (skip : List Char → Nat → Nat)

theorem readAt_append_add (A T : List Char) (i : Nat) (hi : i ≤ T.length) :
    readAt (A ++ T) (A.length + i) = pure (T.getD i '\x00') := by
  rw [readAt_of_le (by simpa using hi)]
  simp [List.getElem?_append_right, Nat.add_sub_cancel_left]
  rfl

theorem readAt_append_self (A T : List Char) :
    readAt (A ++ T) A.length = pure (T.getD 0 '\x00') :=
  readAt_append_add A T 0 (Nat.zero_le _)

theorem readAt_append_cons (A T : List Char) (c : Char) : readAt (A ++ c :: T) A.length = pure c :=
  readAt_append_self A (c :: T)

/-- `NEXT_TOKEN` over a run of spaces stops at the first character after
it. -/
theorem nextTokenFrom_spaces {isSpace : Char → Bool} (B C : List Char)
    (hB : ∀ c ∈ B, isSpace c = true) (hC : isSpace (C.getD 0 '\x00') = false) :
    ∀ (A : List Char) (fuel : Nat), B.length < fuel →
      nextTokenFrom isSpace (A ++ B ++ C) fuel A.length = .ok (A.length + B.length) := by
  induction B with
  | nil =>
    intro A fuel hf
    cases fuel with
    | zero => exact absurd hf (Nat.not_lt_zero _)
    | succ fuel =>
      rw [nextTokenFrom, List.append_nil, readAt_append_self, pure_bind, hC]
      rfl
  | cons b B ih =>
    intro A fuel hf
    cases fuel with
    | zero => exact absurd hf (Nat.not_lt_zero _)
    | succ fuel =>
      have := ih (fun c hc => hB c (List.mem_cons_of_mem _ hc)) (A ++ [b]) fuel
        (Nat.lt_of_succ_lt_succ hf)
      rw [nextTokenFrom, List.append_assoc, List.cons_append, readAt_append_cons, pure_bind,
        if_pos (hB b (List.mem_cons_self _ _))]
      simpa [Nat.add_assoc, Nat.add_comm 1] using this

theorem isSpace_dropWhile (rest : List Char) :
    (stopcharContext skip).isSpace
      ((rest.dropWhile (stopcharContext skip).isSpace).getD 0 '\x00') = false := by
  cases h : rest.dropWhile (stopcharContext skip).isSpace with
  | nil => rfl
  | cons x xs =>
    have := List.head_dropWhile_not (stopcharContext skip).isSpace rest (by simp [h])
    simpa [h] using this

/-- A pass over a character of a name moves to the next one, with no `end`
and `var->conditional` cleared. -/
theorem parseStep_nameChar (A T : List Char) {c : Char} (hc : nameChar c = true) :
    parseStep (stopcharContext skip) (A ++ c :: T) A.length none false =
      .ok (.next (A.length + 1) none false) := by
  simp only [nameChar, List.mem_cons, List.mem_singleton, not_or, decide_eq_true_eq,
    List.not_mem_nil, or_false] at hc
  obtain ⟨h1, h2, h3, h4, h5, h6, h7, h8, h9, h10⟩ := hc
  rw [parseStep, readAt_append_cons, pure_bind]
  simp [stopcharContext, h1, h2, h3, h4, h5, h6, h7, h8, h9, h10,
    readAt_append_add A (c :: T) 1 (by simp)]
  rfl

theorem parseLoop_nameChars (name C : List Char) (hname : ∀ c ∈ name, nameChar c = true) :
    ∀ (A : List Char) (fuel : Nat),
      parseLoop (stopcharContext skip) (A ++ name ++ C) (fuel + name.length) A.length none false =
        parseLoop (stopcharContext skip) (A ++ name ++ C) fuel (A.length + name.length) none false := by
  induction name with
  | nil => intro A fuel; rfl
  | cons c name ih =>
    intro A fuel
    have h := ih (fun x hx => hname x (List.mem_cons_of_mem _ hx)) (A ++ [c]) fuel
    rw [List.append_assoc, List.cons_append, List.length_cons, ← Nat.add_assoc, parseLoop,
      parseStep_nameChar skip A _ (hname c (List.mem_cons_self _ _)), except_ok_bind]
    simpa [Nat.add_assoc, Nat.add_comm 1] using h

/-- A run of blanks after the name is one pass: `end` is set at its first
blank, and `NEXT_TOKEN` skips the rest. -/
theorem parseStep_blank (A mid T : List Char) {b : Char} (hb : b = ' ' ∨ b = '\t')
    (hmid : ∀ c ∈ mid, c = ' ' ∨ c = '\t')
    (hT : (stopcharContext skip).isSpace (T.getD 0 '\x00') = false) :
    parseStep (stopcharContext skip) (A ++ b :: mid ++ T) A.length none false =
      .ok (.next (A.length + 1 + mid.length) (some A.length) false) := by
  have hsp : ∀ c ∈ mid, (stopcharContext skip).isSpace c = true := fun c hc => by
    rcases hmid c hc with rfl | rfl <;> rfl
  have hnext : nextToken (stopcharContext skip).isSpace (A ++ b :: (mid ++ T)) (A.length + 1) =
      .ok (A.length + 1 + mid.length) := by
    have := nextTokenFrom_spaces mid T hsp hT (A ++ [b]) ((A ++ b :: (mid ++ T)).length + 2)
      (by simp; omega)
    simpa [nextToken] using this
  rw [parseStep, List.append_assoc, List.cons_append, readAt_append_cons, pure_bind, hnext,
    except_ok_bind]
  rcases hb with rfl | rfl <;> rfl

/-- The pass at an operator, with or without a `?` in front, ends after it
with the flavor it spells. -/
theorem parseStep_op (A rest : List Char) (question : Bool) (op : AssignOp) (e : Option Nat) :
    parseStep (stopcharContext skip) (A ++ ((if question then ['?'] else []) ++ op.text ++ rest))
        A.length e false =
      .ok (.found (A.length + (if question then 1 else 0) + op.text.length) (e.getD A.length)
        op.flavor question) := by
  cases question <;> cases op <;>
    simp only [AssignOp.text, AssignOp.flavor, Bool.false_eq_true, ↓reduceIte, List.cons_append,
      List.nil_append, parseStep, colonOperator, readAt_append_cons, readAt_append_add, pure_bind,
      map_pure, List.length_cons, Nat.add_assoc, Nat.reduceAdd, Nat.reduceLeDiff] <;> rfl

/-- The parse of a line of the definition grammar. -/
theorem parseVariableDefinition_grammar (pre name mid rest : List Char) (question : Bool)
    (op : AssignOp) (hpre : ∀ c ∈ pre, (stopcharContext skip).isSpace c = true) (hne : name ≠ [])
    (hname : ∀ c ∈ name, nameChar c = true)
    (hhead : ∀ c ∈ name.head?, (stopcharContext skip).isSpace c = false)
    (hmid : ∀ c ∈ mid, c = ' ' ∨ c = '\t') :
    parseVariableDefinition (stopcharContext skip)
        (pre ++ name ++ mid ++ ((if question then ['?'] else []) ++ op.text ++ rest)) =
      .ok (some ⟨pre.length, name.length,
        (pre ++ name ++ mid ++ (if question then ['?'] else []) ++ op.text).length +
          (rest.takeWhile (stopcharContext skip).isSpace).length,
        op.flavor, question,
        (pre ++ name ++ mid ++ (if question then ['?'] else []) ++ op.text).length⟩) := by
  obtain ⟨n0, ns, rfl⟩ := List.exists_cons_of_ne_nil hne
  set X := (if question then ['?'] else []) ++ op.text ++ rest with hX
  set line := pre ++ (n0 :: ns) ++ mid ++ X with hline
  -- `NEXT_TOKEN` skips the leading spaces and stops at the name
  have hstart : nextToken (stopcharContext skip).isSpace line 0 = .ok pre.length := by
    have := nextTokenFrom_spaces pre (n0 :: ns ++ mid ++ X) hpre (hhead n0 rfl) []
      (line.length + 2) (by simp [hline]; omega)
    simpa [nextToken, hline, List.append_assoc] using this
  -- the loop runs over the name, then the blanks, then the operator
  have hT : (stopcharContext skip).isSpace (X.getD 0 '\x00') = false := by
    rw [hX]
    cases question <;> cases op <;> rfl
  have hloop : parseLoop (stopcharContext skip) line (line.length + 2) pre.length none false =
      .ok (some ((pre ++ n0 :: ns ++ mid).length + (if question then 1 else 0) + op.text.length,
        (pre ++ n0 :: ns).length, op.flavor, question)) := by
    obtain ⟨f, hf⟩ : ∃ f, line.length + 2 = f + 2 + (n0 :: ns).length :=
      ⟨line.length - (n0 :: ns).length, by simp [hline]; omega⟩
    have hrun := parseLoop_nameChars skip (n0 :: ns) (mid ++ X) hname pre (f + 2)
    rw [← List.append_assoc, ← hline, ← List.length_append] at hrun
    rw [hf, hrun]
    cases mid with
    | nil =>
      have hop := parseStep_op skip (pre ++ n0 :: ns ++ []) rest question op none
      rw [← hX, ← hline, List.append_nil] at hop
      rw [parseLoop, List.append_nil, hop, except_ok_bind]
      rfl
    | cons b mid' =>
      have hblank := parseStep_blank skip (pre ++ n0 :: ns) mid' X (hmid b (List.mem_cons_self _ _))
        (fun c hc => hmid c (List.mem_cons_of_mem _ hc)) hT
      rw [← hline] at hblank
      have hop := parseStep_op skip (pre ++ n0 :: ns ++ b :: mid') rest question op
        (some (pre ++ n0 :: ns).length)
      rw [← hX, ← hline] at hop
      rw [parseLoop, hblank, except_ok_bind]
      dsimp only
      rw [parseLoop, show (pre ++ n0 :: ns).length + 1 + mid'.length =
        (pre ++ n0 :: ns ++ b :: mid').length by simp; omega, hop, except_ok_bind]
      rfl
  -- the value starts after the spaces that follow the operator
  have hN : (pre ++ n0 :: ns ++ mid).length + (if question then 1 else 0) + op.text.length =
      (pre ++ n0 :: ns ++ mid ++ (if question then ['?'] else []) ++ op.text).length := by
    cases question <;> simp <;> omega
  have hvalue : nextToken (stopcharContext skip).isSpace line
      (pre ++ n0 :: ns ++ mid ++ (if question then ['?'] else []) ++ op.text).length =
        .ok ((pre ++ n0 :: ns ++ mid ++ (if question then ['?'] else []) ++ op.text).length +
          (rest.takeWhile (stopcharContext skip).isSpace).length) := by
    have hlen := (List.takeWhile_sublist (stopcharContext skip).isSpace (l := rest)).length_le
    have := nextTokenFrom_spaces (rest.takeWhile (stopcharContext skip).isSpace) _
      (fun c hc => List.all_eq_true.1 List.all_takeWhile c hc) (isSpace_dropWhile skip rest)
      (pre ++ n0 :: ns ++ mid ++ (if question then ['?'] else []) ++ op.text)
      (line.length + 2) (by simp [hline, hX]; omega)
    rw [nextToken, ← this, hline, hX]
    simp only [List.append_assoc, List.takeWhile_append_dropWhile]
  rw [parseVariableDefinition, hstart, except_ok_bind, hloop, except_ok_bind]
  dsimp only
  rw [hN, hvalue, except_ok_bind, List.length_append pre, Nat.add_sub_cancel_left]
  rfl

end accepts

end MakeVariables
