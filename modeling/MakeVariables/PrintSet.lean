import MakeVariables.Print
import MakeVariables.Json
import MakeVariables.Reader
/-!
# The printout of a set reads back

`print_variable_data_base` opens with `print_variable_set` of the global
set: for each record, in table order, the two lines of `print_variable`,
then two comment lines of hash-table statistics. This file reads that text
back as the reader of makefiles would, one line at a time through
`try_variable_definition` at the global scope (`readDefinitions`), into a
state whose global set is empty.

When every record is plain (`PlainRecord`: the conditions under which
`print_variable`'s definition line reads back, with no newline in the name
or in the file name of the comment), the comments define nothing and each
definition line binds its name once more (`readDefinitions_printVariable`),
so that the reading rebuilds the set (`print_variable_set_reads_back`):
every name is bound again with its record's value and flavor. Only the
origin is not read back: the comment that names it is a comment, and the
reader gives its own.
-/

namespace MakeVariables

/-! ## The lines of a record -/

theorem newline_not_mem_toDigits (n : Nat) : '\n' ∉ Nat.toDigits 10 n := by
  obtain ⟨c, pre, heq, hc, hpre, -⟩ := Json.toDigitsCore_digits (n + 1) n [] (Nat.lt_succ_self n)
  rw [Nat.toDigits, heq, List.append_nil]
  rintro (_ | ⟨_, h⟩)
  · exact absurd hc (by decide)
  · exact absurd (hpre _ h) (by decide)

/-- The comment `print_variable` writes is one line starting with `#`,
when the file name it quotes holds no newline. -/
theorem commentLine_split (v : Variable) (hf : ∀ f ∈ v.fileinfo.filenm, '\n' ∉ cText f)
    (T : List Char) : ∃ rest, splitLines (commentLine v ++ T) = ('#' :: rest) :: splitLines T := by
  have hA : '\n' ∉ (originName v.origin).toList := by cases v.origin <;> decide
  have hB : '\n' ∉ if v.privateVar then " private".toList else [] := by split <;> decide
  cases hfile : v.fileinfo.filenm with
  | none =>
    refine ⟨' ' :: ((originName v.origin).toList ++ if v.privateVar then " private".toList else []), ?_⟩
    rw [← splitLines_append _ T (by simp only [List.mem_cons, List.mem_append, not_or]; exact ⟨by decide, by decide, hA, hB⟩)]
    simp only [commentLine, hfile, List.append_assoc, List.cons_append, List.nil_append,
      List.singleton_append]
    rfl
  | some f =>
    have hC : '\n' ∉ cText f := hf f hfile
    refine ⟨' ' :: ((originName v.origin).toList ++ (if v.privateVar then " private".toList else []) ++
      " (from '".toList ++ cText f ++ "', line ".toList ++
      Nat.toDigits 10 (v.fileinfo.lineno + v.fileinfo.offset) ++ [')']), ?_⟩
    rw [← splitLines_append _ T (by
      simp only [List.append_assoc, List.mem_cons, List.mem_append, List.mem_nil_iff, or_false, not_or]
      exact ⟨by decide, by decide, hA, hB, by decide, hC, by decide, newline_not_mem_toDigits _, by decide⟩)]
    simp only [commentLine, hfile, List.append_assoc, List.cons_append, List.nil_append,
      List.singleton_append]
    rfl

/-- **A record `print_variable` writes so that it reads back**: a plain
name with no newline, not starting with a blank, that the expansion gives
back; a value of one line with no NUL, not starting with a blank, that a
simple record's expansion gets back from its doubled `$`; not a `+=`
record; and no newline in the file name its comment quotes. -/
structure PlainRecord (skip : List Char → Nat → Nat) (cx : Context) (v : Variable) : Prop where
  name : ∀ c ∈ v.name.toList, nameChar c = true
  name_ne : v.name.toList ≠ []
  name_head : ∀ c ∈ v.name.toList.head?, (stopcharContext skip).isSpace c = false
  name_line : '\n' ∉ v.name.toList
  value : ∀ c ∈ v.value.toList, c ≠ '\n' ∧ c ≠ '\x00'
  value_head : ∀ c ∈ v.value.toList.head?, (stopcharContext skip).isSpace c = false
  append : v.recursive = true → v.append = false
  expand_name : ∀ st, cx.expand st v.name = v.name
  expand_value : ∀ st, v.recursive = false → cx.expand st (doubleDollars v.value) = v.value
  file : ∀ f ∈ v.fileinfo.filenm, '\n' ∉ cText f

section record

variable {skip : List Char → Nat → Nat} {cx : Context} (flocp : Option Floc)
  (origin : VariableOrigin)

/-- **The two lines of a plain record**: the comment defines nothing and
the definition binds the name under the origin gate of the global set;
the reading goes on from there. -/
theorem readDefinitions_printVariable {v : Variable} (hv : PlainRecord skip cx v) {st : State}
    (hwf : TableWF st globalVariableSet) :
    ∃ st', TableWF st' globalVariableSet ∧
      st'.read globalVariableSet =
        refDefine cx.envOverrides v.name v.value origin v.recursive (st.read globalVariableSet) ∧
      ∀ T, readDefinitions cx (stopcharContext skip) flocp origin
          (splitLines (printVariable (stopcharContext skip).isSpace v [] ++ T)) st =
        readDefinitions cx (stopcharContext skip) flocp origin (splitLines T) st' := by
  obtain ⟨op, P, hdef, hop, hP, hback, hstored, hdeferred⟩ :=
    definitionText_plain cx st hv.name hv.value hv.value_head hv.append (hv.expand_value st)
  obtain ⟨r, st', htry, -, hwf', hread⟩ := definitionLine_reads cx flocp origin hv.name hv.name_ne
    hv.name_head (hv.expand_name st) hop hback (.inl ⟨rfl, rfl⟩) hwf
  refine ⟨st', hwf', by rw [hread, hstored, hdeferred], fun T => ?_⟩
  have hop : '\n' ∉ op.text := by cases op <;> decide
  have hline : '\n' ∉ v.name.toList ++ [' '] ++ (op.text ++ ' ' :: P) := by
    simpa using ⟨hv.name_line, hop, hP⟩
  obtain ⟨rest, hc⟩ := commentLine_split v hv.file (definitionText (stopcharContext skip).isSpace v ++ T)
  rw [printVariable, List.append_nil, List.append_assoc, hc, hdef, List.append_assoc _ ['\n'], List.singleton_append,
    splitLines_append _ T hline, readDefinitions_notDefinition (tryVariableDefinition_comment skip _ _ _ _ _ _),
    readDefinitions_defined htry]

/-- **The run**: the lines of plain records, read in order, bind their
names one after the other. -/
theorem readDefinitions_records :
    ∀ (vs : List Variable), (∀ v ∈ vs, PlainRecord skip cx v) → ∀ (st : State),
      TableWF st globalVariableSet →
      ∃ st', TableWF st' globalVariableSet ∧
        st'.read globalVariableSet = vs.foldl (fun m v =>
          refDefine cx.envOverrides v.name v.value origin v.recursive m) (st.read globalVariableSet) ∧
        ∀ T, readDefinitions cx (stopcharContext skip) flocp origin
            (splitLines (vs.flatMap (fun v => printVariable (stopcharContext skip).isSpace v []) ++ T)) st =
          readDefinitions cx (stopcharContext skip) flocp origin (splitLines T) st'
  | [], _, st, hwf => ⟨st, hwf, rfl, fun _ => rfl⟩
  | v :: vs, hvs, st, hwf => by
    obtain ⟨st1, hwf1, hread1, hrun1⟩ :=
      readDefinitions_printVariable flocp origin (hvs v (List.mem_cons_self v vs)) hwf
    obtain ⟨st2, hwf2, hread2, hrun2⟩ :=
      readDefinitions_records vs (fun w hw => hvs w (List.mem_cons_of_mem v hw)) st1 hwf1
    refine ⟨st2, hwf2, by rw [hread2, hread1, List.foldl_cons], fun T => ?_⟩
    rw [List.flatMap_cons, List.append_assoc, hrun1, hrun2]

/-- The statistics lines are comments. -/
theorem readDefinitions_stats (stats : List Char) (hstats : '\n' ∉ stats) (st : State) :
    readDefinitions cx (stopcharContext skip) flocp origin
      (splitLines ("# variable set hash-table stats:\n".toList ++ "# ".toList ++ stats ++ ['\n'])) st =
        some st := by
  have hsplit : splitLines ("# variable set hash-table stats:\n".toList ++ "# ".toList ++ stats ++ ['\n']) =
      ('#' :: " variable set hash-table stats:".toList) :: ('#' :: ' ' :: stats) :: [] := by
    rw [show "# variable set hash-table stats:\n".toList ++ "# ".toList ++ stats ++ ['\n'] =
        ('#' :: " variable set hash-table stats:".toList) ++ '\n' :: (('#' :: ' ' :: stats) ++ '\n' :: [])
        from by simp,
      splitLines_append _ _ (by decide), splitLines_append _ _ (by simpa using hstats)]
    rfl
  rw [hsplit, readDefinitions_notDefinition (tryVariableDefinition_comment skip _ _ _ _ _ _),
    readDefinitions_notDefinition (tryVariableDefinition_comment skip _ _ _ _ _ _)]
  rfl

end record

/-! ## The set read back -/

/-- The reading of a set is the first of its records, in table order,
that bears the name. -/
theorem read_eq_find (st : State) (s : SetId) (n : String) :
    st.read s n = ((setRecords st s).find? fun x => x.name = n).map Variable.binding := by
  simp only [State.read, State.findSlot, setRecords]
  induction st.table s with
  | nil => rfl
  | cons u t ih =>
    simp only [List.findSome?_cons, List.filterMap_cons, State.slotOf]
    cases st.vars u with
    | none => exact ih
    | some x => by_cases h : x.name = n <;> simp [h, ih]

/-- The records of a well-formed table bear distinct names. -/
theorem TableWF.names_nodup {st : State} {s : SetId} (h : TableWF st s) :
    ((setRecords st s).map Variable.name).Nodup := by
  rw [setRecords, List.map_filterMap]
  refine (h.nodup.imp_of_mem (S := fun u w => u ∈ st.table s ∧ w ∈ st.table s ∧ u ≠ w)
    fun hu hw hne => ⟨hu, hw, hne⟩).filterMap _ ?_
  rintro u w ⟨hu, hw, hne⟩ _ hb _ hb' rfl
  simp only [Option.mem_def, Option.map_eq_some'] at hb hb'
  obtain ⟨x, hx, rfl⟩ := hb
  obtain ⟨y, hy, hxy⟩ := hb'
  exact hne (h.name_inj u hu w hw x y hx hy hxy.symm)

/-- Defining records of distinct names into a map that binds none of them
binds each with the record's value and flavor, at the origin given. -/
theorem foldl_refDefine_fresh (eo : Bool) (origin : VariableOrigin) :
    ∀ (vs : List Variable) (m : TableMap), (vs.map Variable.name).Nodup →
      (∀ v ∈ vs, m v.name = none) → ∀ n,
      vs.foldl (fun m v => refDefine eo v.name v.value origin v.recursive m) m n =
        ((vs.find? fun v => v.name = n).map fun v =>
          (⟨v.value, normalizeOrigin eo origin, v.recursive⟩ : Binding)).or (m n)
  | [], _, _, _, _ => by simp
  | v :: vs, m, hnd, hm, n => by
    rw [List.map_cons, List.nodup_cons] at hnd
    have hfresh : ∀ w ∈ vs, refDefine eo v.name v.value origin v.recursive m w.name = none := by
      intro w hw
      have hne : w.name ≠ v.name := fun h => hnd.1 (h ▸ List.mem_map_of_mem Variable.name hw)
      rw [refDefine_ne hne, hm w (List.mem_cons_of_mem v hw)]
    rw [List.foldl_cons, foldl_refDefine_fresh eo origin vs _ hnd.2 hfresh n]
    by_cases hn : v.name = n
    · subst hn
      have hnone : (vs.find? fun w => w.name = v.name) = none :=
        List.find?_eq_none.2 fun w hw h => hnd.1 (by simpa [of_decide_eq_true h] using List.mem_map_of_mem Variable.name hw)
      rw [hnone, refDefine_self fun b hb => absurd hb (by simp [hm v (List.mem_cons_self v vs)])]
      simp
    · rw [refDefine_ne (Ne.symm hn)]
      simp [hn]

/-- **The printout of the global set reads back.** Read line by line
through `try_variable_definition` into a state whose global set is empty,
the text `print_variable_set` writes for the global set, with no prefix,
rebuilds it: every name the set binds is bound again with its value and
flavor, at the origin the reader gives, and no other name is bound. Every
record must be plain, and the statistics line one line. -/
theorem print_variable_set_reads_back (skip : List Char → Nat → Nat) (cx : Context)
    (flocp : Option Floc) (origin : VariableOrigin) (stats : SetId → List Char) (st st0 : State)
    (hwf : TableWF st globalVariableSet)
    (hplain : ∀ v ∈ setRecords st globalVariableSet, PlainRecord skip cx v)
    (hstats : '\n' ∉ stats globalVariableSet)
    (hwf0 : TableWF st0 globalVariableSet) (hempty : ∀ n, st0.read globalVariableSet n = none) :
    ∃ st', readDefinitions cx (stopcharContext skip) flocp origin
        (splitLines (printVariableSet (stopcharContext skip).isSpace stats st globalVariableSet [] false))
        st0 = some st' ∧
      TableWF st' globalVariableSet ∧
      ∀ n, st'.read globalVariableSet n = (st.read globalVariableSet n).map fun b =>
        ⟨b.value, normalizeOrigin cx.envOverrides origin, b.recursive⟩ := by
  obtain ⟨st', hwf', hread, hrun⟩ :=
    readDefinitions_records flocp origin _ hplain st0 hwf0
  refine ⟨st', ?_, hwf', fun n => ?_⟩
  · have htext : printVariableSet (stopcharContext skip).isSpace stats st globalVariableSet [] false =
        (setRecords st globalVariableSet).flatMap (fun v => printVariable (stopcharContext skip).isSpace v []) ++
          ("# variable set hash-table stats:\n".toList ++ "# ".toList ++ stats globalVariableSet ++ ['\n']) := by
      simp only [printVariableSet, Bool.false_eq_true, ↓reduceIte, List.append_assoc]
    rw [htext, hrun, readDefinitions_stats flocp origin _ hstats]
  · rw [hread, foldl_refDefine_fresh _ _ _ _ hwf.names_nodup (fun v _ => hempty _), hempty,
      Option.or_none, read_eq_find, Option.map_map]
    rfl

/-- Two records of the global set: a simple one whose value holds a `$`,
from line 3 of a makefile, and a recursive one from the environment. -/
def printSetDemo : State :=
  let st := (defineVariableInSet false "X" "a$b" .file false (some globalVariableSet)
    (some ⟨some "Makefile", 3, 0⟩) State.initial).2
  (defineVariableInSet false "Y" "$(X) c" .env true (some globalVariableSet) none st).2

theorem printSetDemo_wf : TableWF printSetDemo globalVariableSet :=
  (defineVariableInSet_spec false "Y" "$(X) c" .env true none
    (defineVariableInSet_spec false "X" "a$b" .file false _ tableWF_initial).1).1

theorem printSetDemo_plain :
    ∀ v ∈ setRecords printSetDemo globalVariableSet, PlainRecord (fun _ q => q) dollarContext v := by
  have hrec : setRecords printSetDemo globalVariableSet =
      [⟨"X", "a$b", ⟨some "Makefile", 3, 0⟩, .file, .bogus, false, false, false, false, false, true,
        .default, false⟩,
       ⟨"Y", "$(X) c", Floc.zero, .env, .bogus, true, false, false, false, false, true, .default, false⟩] :=
    rfl
  rw [hrec]
  rintro v (_ | ⟨_, _ | ⟨_, ⟨⟩⟩⟩)
  · exact ⟨by decide, by decide, by decide, by decide, by decide, by decide, by decide, fun _ => rfl,
      fun _ _ => rfl, by decide⟩
  · exact ⟨by decide, by decide, by decide, by decide, by decide, by decide, by decide, fun _ => rfl,
      nofun, by decide⟩

theorem print_variable_set_reads_back_demo :
    TableWF printSetDemo globalVariableSet ∧
      (∀ v ∈ setRecords printSetDemo globalVariableSet, PlainRecord (fun _ q => q) dollarContext v) ∧
      '\n' ∉ "Load=2/512=0%, Rehash=0, Collisions=0/2=0%".toList ∧
      TableWF State.initial globalVariableSet ∧ (∀ n, State.initial.read globalVariableSet n = none) ∧
      ∃ st', readDefinitions dollarContext (stopcharContext fun _ q => q) none .file
          (splitLines (printVariableSet (stopcharContext fun _ q => q).isSpace
            (fun _ => "Load=2/512=0%, Rehash=0, Collisions=0/2=0%".toList) printSetDemo globalVariableSet
            [] false)) State.initial = some st' ∧
        TableWF st' globalVariableSet ∧
        ∀ n, st'.read globalVariableSet n = (printSetDemo.read globalVariableSet n).map fun b =>
          ⟨b.value, normalizeOrigin dollarContext.envOverrides .file, b.recursive⟩ :=
  ⟨printSetDemo_wf, printSetDemo_plain, by decide, tableWF_initial, fun _ => rfl,
    print_variable_set_reads_back (fun _ q => q) dollarContext none .file
      (fun _ => "Load=2/512=0%, Rehash=0, Collisions=0/2=0%".toList) printSetDemo State.initial
      printSetDemo_wf printSetDemo_plain (by decide) tableWF_initial fun _ => rfl⟩

end MakeVariables
