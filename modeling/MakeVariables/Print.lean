import MakeVariables.Model.Print
import MakeVariables.TryDefinition
import MakeVariables.Definition
/-!
# The database printout reads back

`print_variable` writes two lines for a record: a comment naming its
origin, then, after the prefix, a definition in makefile syntax. This file
reads the two lines back through `try_variable_definition`. The comment
is no definition (`tryVariableDefinition_comment`). The definition of a
record whose name is a plain name and whose value is one line that does
not start with a blank binds the name again, with the record's value and
flavor (`print_variable_reads_back`): a recursive value is written as it
is under `=`, a simple one with its `$` doubled under `:=`, which the
expansion of the read undoes.

The records this leaves out are written so that they do not read back
as they were: a recursive value holding a newline as a `define`, a value
of blanks only as `$(subst ,,…)`, and a value that starts with a blank
loses the blank to `try_variable_definition`, which skips it.

The read is `try_variable_definition` on the line as `print_variable`
writes it. The reader of makefiles (`read.c`, outside the sources) first
removes comments and joins a line that ends in `\` to the next, and
`print_variable` escapes neither: a value that holds `#`, or ends in `\`,
is cut or joined before it gets there.
-/

namespace MakeVariables

section comment

variable (skip : List Char → Nat → Nat)

/-- A line that starts with `#` is no definition. -/
theorem parseVariableDefinition_comment (rest : List Char) :
    parseVariableDefinition (stopcharContext skip) ('#' :: rest) = .ok none := by
  have h0 : nextToken (stopcharContext skip).isSpace ('#' :: rest) 0 = .ok 0 :=
    nextTokenFrom_spaces [] ('#' :: rest) (by simp) rfl [] _ (by simp)
  simp only [parseVariableDefinition, h0, except_ok_bind, List.length_cons]
  rfl

theorem tryVariableDefinition_comment (cx : Context) (flocp : Option Floc) (rest : List Char)
    (origin : VariableOrigin) (scope : VariableScope) (st : State) :
    tryVariableDefinition cx (stopcharContext skip) flocp ('#' :: rest) origin scope st =
      .ok .notDefinition := by
  simp only [tryVariableDefinition, assignVariableDefinition, parseVariableDefinition_comment,
    except_ok_bind]
  rfl

end comment

/-! ## The definition line of a plain record -/

section plain

variable {skip : List Char → Nat → Nat} {v : Variable}

theorem cText_of_ne_nul {s : String} (h : ∀ c ∈ s.toList, c ≠ '\x00') : cText s = s.toList :=
  List.takeWhile_eq_self_iff.2 (by simpa using h)

/-- After the blank behind the operator, a value with no NUL that does
not start with a space is read whole. -/
theorem readBack_value {P : List Char} (hP : ∀ c ∈ P, c ≠ '\x00')
    (hh : ∀ c ∈ P.head?, (stopcharContext skip).isSpace c = false) :
    ((' ' :: P).dropWhile (stopcharContext skip).isSpace).takeWhile (fun c => c != '\x00') = P := by
  have hdrop : P.dropWhile (stopcharContext skip).isSpace = P := by
    cases P with
    | nil => rfl
    | cons c P => exact List.dropWhile_cons_of_neg (by simpa using hh c rfl)
  rw [List.dropWhile_cons_of_pos (by rfl), hdrop]
  exact List.takeWhile_eq_self_iff.2 (by simpa using hP)

/-- The doubled value has no newline and no NUL, and starts with no space,
when the value does not. -/
theorem doubled_readable {V : List Char} (hV : ∀ c ∈ V, c ≠ '\n' ∧ c ≠ '\x00')
    (hh : ∀ c ∈ V.head?, (stopcharContext skip).isSpace c = false) :
    (∀ c ∈ V.flatMap (fun c => if c = '$' then ['$', '$'] else [c]), c ≠ '\n' ∧ c ≠ '\x00') ∧
      ∀ c ∈ (V.flatMap fun c => if c = '$' then ['$', '$'] else [c]).head?,
        (stopcharContext skip).isSpace c = false := by
  refine ⟨fun c hc => ?_, ?_⟩
  · obtain ⟨a, ha, hc⟩ := List.mem_flatMap.1 hc
    split at hc
    · obtain rfl : c = '$' := by simpa using hc
      decide
    · rw [List.mem_singleton.1 hc]; exact hV a ha
  · cases V with
    | nil => simp
    | cons a V =>
      by_cases ha : a = '$'
      · subst ha; simp [stopcharContext]
      · simpa [ha] using hh a rfl

/-- **The definition line of a plain record.** Its text is the name, a
blank, an operator other than `+=`, a blank and a value text of one line
that reads back whole, and the operator stores that text as the record's
value, deferred exactly when the record is recursive. -/
theorem definitionText_plain (cx : Context) (st : State)
    (hname : ∀ c ∈ v.name.toList, nameChar c = true)
    (hvalue : ∀ c ∈ v.value.toList, c ≠ '\n' ∧ c ≠ '\x00')
    (hvhead : ∀ c ∈ v.value.toList.head?, (stopcharContext skip).isSpace c = false)
    (happ : v.recursive = true → v.append = false)
    (hdbl : v.recursive = false → cx.expand st (doubleDollars v.value) = v.value) :
    ∃ (op : AssignOp) (P : List Char), definitionText (stopcharContext skip).isSpace v =
        v.name.toList ++ [' '] ++ (op.text ++ ' ' :: P) ++ ['\n'] ∧ op ≠ .append ∧ '\n' ∉ P ∧
      ((' ' :: P).dropWhile (stopcharContext skip).isSpace).takeWhile (fun c => c != '\x00') = P ∧
      op.storedValue cx st (String.mk P) = v.value ∧ op.deferred = v.recursive := by
  have hcn : cText v.name = v.name.toList :=
    cText_of_ne_nul fun c hc h => by have := hname c hc; subst h; exact absurd this (by decide)
  have hcv : cText v.value = v.value.toList := cText_of_ne_nul fun c hc => (hvalue c hc).2
  have hnl : ¬(v.recursive ∧ '\n' ∈ cText v.value) := fun h => (hvalue _ (hcv ▸ h.2)).1 rfl
  have hblank : blankValue (stopcharContext skip).isSpace (cText v.value) = false := by
    rw [hcv]
    cases hV : v.value.toList with
    | nil => rfl
    | cons a V =>
      rw [hV] at hvhead
      simp [blankValue, List.dropWhile_cons_of_neg (by simpa using hvhead a rfl)]
  have hdt : definitionText (stopcharContext skip).isSpace v = v.name.toList ++ [' '] ++
      operatorText v ++ "= ".toList ++
      (if v.recursive then v.value.toList
        else v.value.toList.flatMap fun c => if c = '$' then ['$', '$'] else [c]) ++ ['\n'] := by
    rw [definitionText, if_neg hnl, printedValue, hblank]
    simp only [Bool.false_eq_true, ↓reduceIte, hcn, hcv]
  cases hrec : v.recursive with
  | false =>
    obtain ⟨hD, hDh⟩ := doubled_readable hvalue hvhead
    refine ⟨.simple, _, ?_, nofun, fun h => (hD _ h).1 rfl, readBack_value (fun c hc => (hD c hc).2) hDh,
      hdbl hrec, rfl⟩
    simp [hdt, operatorText, hrec, AssignOp.text]
  | true =>
    refine ⟨.recursive, v.value.toList, ?_, nofun, fun h => (hvalue _ h).1 rfl,
      readBack_value (fun c hc => (hvalue c hc).2) hvhead, rfl, rfl⟩
    simp [hdt, operatorText, hrec, happ hrec, AssignOp.text]

/-- **A definition line in that form binds the name**: through
`try_variable_definition`, in a state whose expansion gives the name back,
it binds the name with the value the operator stores, under the origin
gate of the set the scope selects. -/
theorem definitionLine_reads (cx : Context) (flocp : Option Floc) (origin : VariableOrigin)
    {scope : VariableScope} {s : SetId} {st : State} {op : AssignOp} {P : List Char}
    (hname : ∀ c ∈ v.name.toList, nameChar c = true) (hne : v.name.toList ≠ [])
    (hhead : ∀ c ∈ v.name.toList.head?, (stopcharContext skip).isSpace c = false)
    (hexp : cx.expand st v.name = v.name) (hop : op ≠ .append)
    (hback : ((' ' :: P).dropWhile (stopcharContext skip).isSpace).takeWhile (fun c => c != '\x00') = P)
    (hs : (scope = .global ∧ s = globalVariableSet) ∨
      (scope ≠ .global ∧ (st.current.bind st.lists).map SetList.set = some s))
    (hwf : TableWF st s) :
    ∃ r st', tryVariableDefinition cx (stopcharContext skip) flocp
        (v.name.toList ++ [' '] ++ (op.text ++ ' ' :: P)) origin scope st = .ok (.defined (some (r, st'))) ∧
      BlockFrame st st' ∧ TableWF st' s ∧
      st'.read s = refDefine cx.envOverrides v.name (op.storedValue cx st (String.mk P)) origin op.deferred
        (st.read s) := by
  have hmk : String.mk v.name.toList = v.name := rfl
  have htry := tryVariableDefinition_grammar skip cx flocp origin scope st [] v.name.toList [' ']
    (' ' :: P) false op (by simp) hne hname hhead (by simp)
  simp only [Bool.false_eq_true, ↓reduceIte, List.nil_append, hback, hmk, hexp] at htry
  have hE : v.name ≠ "" := fun h => hne (by rw [h]; rfl)
  obtain ⟨r, st', hdo, hframe, hwf', hread⟩ :=
    doVariableDefinition_binds hs hwf hop cx flocp v.name (String.mk P) origin false nofun
  exact ⟨r, st', by rw [htry, if_neg hE, hdo], hframe, hwf', hread⟩

end plain

/-- Modelled from the spec: the reference evaluator on a text whose only
references are `$$`, each of which gives one `$`. -/
def dollarContext : Context := ⟨fun _ t => String.mk (undouble t.toList), fun _ t => t, false⟩

/-- **`print_variable` reads back.** Of the two lines `print_variable`
writes for a record with an empty prefix, the comment is no definition,
and the definition, read by `try_variable_definition` in a state whose
expansion gives the name back and undoes the doubling of `$`, binds the
name with the record's value, deferred exactly when the record is
recursive, under the origin gate of the set it lands in. The record must
have a plain name, a value of one line with no leading blank, and not be
a `+=` record. -/
theorem print_variable_reads_back (skip : List Char → Nat → Nat) (cx : Context)
    (flocp : Option Floc) (origin : VariableOrigin) (scope : VariableScope) (s : SetId)
    (st : State) (v : Variable)
    (hname : ∀ c ∈ v.name.toList, nameChar c = true) (hne : v.name.toList ≠ [])
    (hhead : ∀ c ∈ v.name.toList.head?, (stopcharContext skip).isSpace c = false)
    (hvalue : ∀ c ∈ v.value.toList, c ≠ '\n' ∧ c ≠ '\x00')
    (hvhead : ∀ c ∈ v.value.toList.head?, (stopcharContext skip).isSpace c = false)
    (happ : v.recursive = true → v.append = false)
    (hexp : cx.expand st v.name = v.name)
    (hdbl : v.recursive = false → cx.expand st (doubleDollars v.value) = v.value)
    (hs : (scope = .global ∧ s = globalVariableSet) ∨
      (scope ≠ .global ∧ (st.current.bind st.lists).map SetList.set = some s))
    (hwf : TableWF st s) :
    tryVariableDefinition cx (stopcharContext skip) flocp (commentLine v) origin scope st =
        .ok .notDefinition ∧
      ∃ line, printVariable (stopcharContext skip).isSpace v [] = commentLine v ++ line ++ ['\n'] ∧
        ∃ r st', tryVariableDefinition cx (stopcharContext skip) flocp line origin scope st =
            .ok (.defined (some (r, st'))) ∧
          BlockFrame st st' ∧ TableWF st' s ∧
          st'.read s = refDefine cx.envOverrides v.name v.value origin v.recursive (st.read s) := by
  obtain ⟨rest, hrest⟩ : ∃ rest, commentLine v = '#' :: rest := ⟨_, rfl⟩
  refine ⟨hrest ▸ tryVariableDefinition_comment skip cx flocp rest origin scope st, ?_⟩
  obtain ⟨op, P, hdef, hop, -, hback, hstored, hdeferred⟩ :=
    definitionText_plain cx st hname hvalue hvhead happ hdbl
  refine ⟨v.name.toList ++ [' '] ++ (op.text ++ ' ' :: P), by simp [printVariable, hdef], ?_⟩
  obtain ⟨r, st', htry, hframe, hwf', hread⟩ :=
    definitionLine_reads cx flocp origin hname hne hhead hexp hop hback hs hwf
  exact ⟨r, st', htry, hframe, hwf', by rw [hread, hstored, hdeferred]⟩

/-- A simple variable whose value holds a `$`, defined in a makefile. -/
def printDemo : Variable :=
  ⟨"X", "a$b", ⟨some "Makefile", 3, 0⟩, .file, .simple, false, false, false, false, false, true,
    .default, false⟩

theorem print_variable_reads_back_demo :
    (∀ c ∈ printDemo.name.toList, nameChar c = true) ∧ printDemo.name.toList ≠ [] ∧
      (∀ c ∈ printDemo.name.toList.head?, (stopcharContext fun _ q => q).isSpace c = false) ∧
      (∀ c ∈ printDemo.value.toList, c ≠ '\n' ∧ c ≠ '\x00') ∧
      (∀ c ∈ printDemo.value.toList.head?, (stopcharContext fun _ q => q).isSpace c = false) ∧
      (printDemo.recursive = true → printDemo.append = false) ∧
      dollarContext.expand State.initial printDemo.name = printDemo.name ∧
      (printDemo.recursive = false →
        dollarContext.expand State.initial (doubleDollars printDemo.value) = printDemo.value) ∧
      ((VariableScope.global = .global ∧ globalVariableSet = globalVariableSet) ∨
        (VariableScope.global ≠ .global ∧
          (State.initial.current.bind State.initial.lists).map SetList.set = some globalVariableSet)) ∧
      TableWF State.initial globalVariableSet ∧
      (tryVariableDefinition dollarContext (stopcharContext fun _ q => q) none (commentLine printDemo)
          .file .global State.initial = .ok .notDefinition ∧
        ∃ line, printVariable (stopcharContext fun _ q => q).isSpace printDemo [] =
            commentLine printDemo ++ line ++ ['\n'] ∧
          ∃ r st', tryVariableDefinition dollarContext (stopcharContext fun _ q => q) none line
              .file .global State.initial = .ok (.defined (some (r, st'))) ∧
            BlockFrame State.initial st' ∧ TableWF st' globalVariableSet ∧
            st'.read globalVariableSet = refDefine dollarContext.envOverrides printDemo.name
              printDemo.value .file printDemo.recursive (State.initial.read globalVariableSet)) :=
  ⟨by decide, by decide, by decide, by decide, by decide, by decide, by decide, by decide,
    .inl ⟨rfl, rfl⟩, tableWF_initial,
    print_variable_reads_back (fun _ q => q) dollarContext none .file .global globalVariableSet
      State.initial printDemo (by decide) (by decide) (by decide) (by decide) (by decide) (by decide)
      (by decide) (by decide) (.inl ⟨rfl, rfl⟩) tableWF_initial⟩

end MakeVariables
