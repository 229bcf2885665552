import MakeVariables.PatternSet
import MakeVariables.Parse
/-!
# A definition line, end to end — `try_variable_definition`

`try_variable_definition` parses a line, expands the name it delimits,
and hands the rest of the line, from `v.value` to the NUL, to
`do_variable_definition`. This file follows one line of the grammar of
`parseVariableDefinition_grammar` through the whole path.

Without a `?` and with an operator other than `+=`, the line binds the
expanded name in the set its scope selects (the global set for a global
definition, the current set otherwise), with the value the operator's
flavor computes and as a deferred binding exactly when the flavor table
says so (`try_variable_definition_binds`); an empty expanded name is the
fatal error instead. With a `?`, a record that `lookup_variable` finds
through the current chain is returned and nothing is bound; with none, the
line binds as without the `?` (`try_conditional_definition`).

The path is cut at the functions it calls: the parse
(`parseVariableDefinition_grammar`), `assign_variable_definition` and
`try_variable_definition` on a parsed line
(`tryVariableDefinition_of_parse`, then `tryVariableDefinition_grammar`
on a line of the grammar), and `do_variable_definition` down to its tail
(`doVariableDefinition_binds`).
-/

namespace MakeVariables

/-- Modelled from the spec: the value an operator stores for the raw text
after it, by the flavor table of the definition engine. `=` keeps the
text, `:=` and `::=` resolve it, `:::=` resolves it and doubles every `$`,
`!=` hands the resolved text to the shell; `+=` merges, and the text here
is only what it binds when nothing is there yet. -/
def AssignOp.storedValue (cx : Context) (st : State) (raw : String) : AssignOp → String
  | .recursive | .append => raw
  | .simple | .posix => cx.expand st raw
  | .expand => doubleDollars (cx.expand st raw)
  | .shell => cx.shellResult st (cx.expand st raw)

/-- Modelled from the spec: whether the binding an operator stores is
deferred, that is resolved again at each reference. -/
def AssignOp.deferred : AssignOp → Bool
  | .simple | .posix => false
  | _ => true

variable {st : State}

/-- The tail of `do_variable_definition` always returns a record. -/
theorem storeDefinition_isSome (cx : Context) (flocp : Option Floc) (name : String)
    (origin : VariableOrigin) (cond : Bool) (target : Option SetId) (newval : String)
    (flavor : VariableFlavor) (app : Bool) (st : State) :
    (storeDefinition cx flocp name origin cond target newval flavor app st).isSome := by
  unfold storeDefinition
  split
  dsimp only
  split_ifs <;> rfl

/-- The tail of a definition into the set `s`, or into `NULL` for the
global set, binds the name there as `refDefine` says. -/
theorem storeDefinition_binds {s : SetId} {t : Option SetId}
    (ht : t = some s ∨ t = none ∧ s = globalVariableSet) (hwf : TableWF st s) (cx : Context)
    (flocp : Option Floc) (name : String) (origin : VariableOrigin) (cond : Bool) (newval : String)
    (flavor : VariableFlavor) :
    ∃ v st', storeDefinition cx flocp name origin cond t newval flavor false st = some (v, st') ∧
      BlockFrame st st' ∧ TableWF st' s ∧
      st'.read s = refDefine cx.envOverrides name newval origin
        (flavor = .recursive ∨ flavor = .expand) (st.read s) := by
  obtain ⟨⟨v, st'⟩, h⟩ := Option.isSome_iff_exists.1
    (storeDefinition_isSome cx flocp name origin cond (some s) newval flavor false st)
  have key := storeDefinition_spec hwf h
  rcases ht with rfl | ⟨rfl, rfl⟩
  · exact ⟨v, st', h, key⟩
  · exact ⟨v, st', h, key⟩

/-- Without `conditional`, or with it and no record found, the flavor of
an operator other than `+=` takes `do_variable_definition` straight to its
tail, with the value and the deferred flag of the flavor table. -/
theorem doVariableDefinition_binds {scope : VariableScope} {op : AssignOp} {s : SetId}
    (hs : (scope = .global ∧ s = globalVariableSet) ∨
      (scope ≠ .global ∧ (st.current.bind st.lists).map SetList.set = some s))
    (hwf : TableWF st s) (hop : op ≠ .append) (cx : Context) (flocp : Option Floc)
    (name raw : String) (origin : VariableOrigin) (cond : Bool)
    (hlook : cond = true → lookupVariable name st = some (none, st)) :
    ∃ v st', doVariableDefinition cx flocp name raw origin op.flavor cond scope st = some (v, st') ∧
      BlockFrame st st' ∧ TableWF st' s ∧
      st'.read s = refDefine cx.envOverrides name (op.storedValue cx st raw) origin op.deferred
        (st.read s) := by
  have hfirst : (if cond = true then lookupVariable name st else some (none, st)) = some (none, st) := by
    cases cond
    · rfl
    · exact hlook rfl
  simp only [doVariableDefinition, hfirst, Option.some_bind]
  rcases hs with ⟨rfl, rfl⟩ | ⟨hsc, hcur⟩
  · cases op
    case append => exact absurd rfl hop
    all_goals exact storeDefinition_binds (.inr ⟨rfl, rfl⟩) hwf cx flocp name origin cond _ _
  · obtain ⟨n, hn, rfl⟩ := Option.map_eq_some'.1 hcur
    cases scope with
    | global => exact absurd rfl hsc
    | target | pattern =>
      simp only [hn, Option.map_some', Option.some_bind]
      cases op
      case append => exact absurd rfl hop
      all_goals exact storeDefinition_binds (.inl rfl) hwf cx flocp name origin cond _ _

/-- `try_variable_definition` on a line that parses: the fatal error on an
empty expanded name, and `do_variable_definition` on the parsed fields
otherwise. -/
theorem tryVariableDefinition_of_parse {cx : Context} {ctx : ParseContext} {flocp : Option Floc}
    {line : List Char} {origin : VariableOrigin} {scope : VariableScope} {d : ParsedDefinition}
    (h : parseVariableDefinition ctx line = .ok (some d)) :
    tryVariableDefinition cx ctx flocp line origin scope st =
      .ok (if cx.expand st (String.mk (d.nameText line)) = "" then .fatal "empty variable name"
        else .defined (doVariableDefinition cx flocp (cx.expand st (String.mk (d.nameText line)))
          (cStringAt line d.value) origin d.flavor d.conditional scope st)) := by
  simp only [tryVariableDefinition, assignVariableDefinition, h, except_ok_bind]
  split_ifs <;> rfl

/-- The value starts after the spaces that follow the operator and runs to
the first NUL. -/
theorem cStringAt_after (A rest : List Char) (p : Char → Bool) :
    cStringAt (A ++ rest) (A.length + (rest.takeWhile p).length) =
      String.mk ((rest.dropWhile p).takeWhile fun c => c != '\x00') := by
  have hdrop : rest.drop (rest.takeWhile p).length = rest.dropWhile p := calc
    rest.drop (rest.takeWhile p).length
        = (rest.takeWhile p ++ rest.dropWhile p).drop (rest.takeWhile p).length := by
          rw [List.takeWhile_append_dropWhile]
    _ = rest.dropWhile p := List.drop_left _ _
  rw [cStringAt, List.drop_append, hdrop]

/-- The whole path on a line of the grammar: the fatal error on an empty
expanded name, and otherwise `do_variable_definition` on the expanded
name, the text after the operator's trailing spaces up to the NUL, the
operator's flavor and the `?`. -/
theorem tryVariableDefinition_grammar (skip : List Char → Nat → Nat) (cx : Context)
    (flocp : Option Floc) (origin : VariableOrigin) (scope : VariableScope) (st : State)
    (pre name mid rest : List Char) (question : Bool) (op : AssignOp)
    (hpre : ∀ c ∈ pre, (stopcharContext skip).isSpace c = true) (hne : name ≠ [])
    (hname : ∀ c ∈ name, nameChar c = true)
    (hhead : ∀ c ∈ name.head?, (stopcharContext skip).isSpace c = false)
    (hmid : ∀ c ∈ mid, c = ' ' ∨ c = '\t') :
    tryVariableDefinition cx (stopcharContext skip) flocp
        (pre ++ name ++ mid ++ ((if question then ['?'] else []) ++ op.text ++ rest)) origin scope st =
      .ok (if cx.expand st (String.mk name) = "" then .fatal "empty variable name"
        else .defined (doVariableDefinition cx flocp (cx.expand st (String.mk name))
          (String.mk ((rest.dropWhile (stopcharContext skip).isSpace).takeWhile fun c => c != '\x00'))
          origin op.flavor question scope st)) := by
  have hN : ((pre ++ name ++ mid ++ ((if question then ['?'] else []) ++ op.text ++ rest)).drop
      pre.length).take name.length = name := by
    simp
  have hline : pre ++ name ++ mid ++ ((if question then ['?'] else []) ++ op.text ++ rest) =
      pre ++ name ++ mid ++ (if question then ['?'] else []) ++ op.text ++ rest := by
    simp
  rw [tryVariableDefinition_of_parse
    (parseVariableDefinition_grammar skip pre name mid rest question op hpre hne hname hhead hmid)]
  simp only [ParsedDefinition.nameText, hN]
  rw [hline, cStringAt_after]

/-- A walk of `lookup_variable` that finds nothing leaves the state as it
is. -/
theorem lookupVariable_none {name : String} {st1 : State}
    (h : lookupVariable name st = some (none, st1)) : st1 = st := by
  obtain ⟨r, -, he⟩ := Option.map_eq_some'.1 h
  cases r with
  | none => exact (Prod.mk.inj he).2.symm
  | some v => dsimp only at he; split_ifs at he <;> cases he

/-- **A definition line binds its name.** A line of spaces, a name, blanks,
an operator other than `+=` without `?`, and the rest: if the name expands
to nothing, `try_variable_definition` stops with the fatal error;
otherwise it binds the expanded name in the set the scope selects, as
`refDefine` says (the origin gate included), to the value the operator
computes from the rest of the line after its leading spaces and up to the
first NUL, deferred exactly for `=`, `:::=` and `!=`. Nothing else in the
set changes, and the set stays well formed. -/
theorem try_variable_definition_binds (skip : List Char → Nat → Nat) (cx : Context)
    (flocp : Option Floc) (origin : VariableOrigin) (scope : VariableScope) (s : SetId)
    (st : State) (pre name mid rest : List Char) (op : AssignOp) (hop : op ≠ .append)
    (hpre : ∀ c ∈ pre, (stopcharContext skip).isSpace c = true) (hne : name ≠ [])
    (hname : ∀ c ∈ name, nameChar c = true)
    (hhead : ∀ c ∈ name.head?, (stopcharContext skip).isSpace c = false)
    (hmid : ∀ c ∈ mid, c = ' ' ∨ c = '\t')
    (hs : (scope = .global ∧ s = globalVariableSet) ∨
      (scope ≠ .global ∧ (st.current.bind st.lists).map SetList.set = some s))
    (hwf : TableWF st s) :
    (cx.expand st (String.mk name) = "" →
      tryVariableDefinition cx (stopcharContext skip) flocp (pre ++ name ++ mid ++ (op.text ++ rest))
        origin scope st = .ok (.fatal "empty variable name")) ∧
    (cx.expand st (String.mk name) ≠ "" →
      ∃ v st', tryVariableDefinition cx (stopcharContext skip) flocp
          (pre ++ name ++ mid ++ (op.text ++ rest)) origin scope st = .ok (.defined (some (v, st'))) ∧
        BlockFrame st st' ∧ TableWF st' s ∧
        st'.read s = refDefine cx.envOverrides (cx.expand st (String.mk name))
          (op.storedValue cx st
            (String.mk ((rest.dropWhile (stopcharContext skip).isSpace).takeWhile fun c => c != '\x00')))
          origin op.deferred (st.read s)) := by
  have htry := tryVariableDefinition_grammar skip cx flocp origin scope st pre name mid rest false op
    hpre hne hname hhead hmid
  simp only [Bool.false_eq_true, ↓reduceIte, List.nil_append] at htry
  refine ⟨fun hE => by rw [htry, if_pos hE], fun hE => ?_⟩
  obtain ⟨v, st', hdo, hbind⟩ := doVariableDefinition_binds hs hwf hop cx flocp
    (cx.expand st (String.mk name))
    (String.mk ((rest.dropWhile (stopcharContext skip).isSpace).takeWhile fun c => c != '\x00'))
    origin false nofun
  exact ⟨v, st', by rw [htry, if_neg hE, hdo], hbind⟩

/-- `X := a` as a global definition in the initial state. -/
theorem try_variable_definition_binds_x :
    AssignOp.simple ≠ .append ∧ (∀ c ∈ ([] : List Char), (stopcharContext fun _ q => q).isSpace c = true) ∧
      ['X'] ≠ [] ∧ (∀ c ∈ ['X'], nameChar c = true) ∧
      (∀ c ∈ ['X'].head?, (stopcharContext fun _ q => q).isSpace c = false) ∧
      (∀ c ∈ ([] : List Char), c = ' ' ∨ c = '\t') ∧
      ((VariableScope.global = .global ∧ globalVariableSet = globalVariableSet) ∨
        (VariableScope.global ≠ .global ∧
          (State.initial.current.bind State.initial.lists).map SetList.set = some globalVariableSet)) ∧
      TableWF State.initial globalVariableSet ∧
      (plainContext.expand State.initial (String.mk ['X']) = "" →
        tryVariableDefinition plainContext (stopcharContext fun _ q => q) none
            ([] ++ ['X'] ++ [] ++ (AssignOp.simple.text ++ [' ', 'a'])) .file .global State.initial =
          .ok (.fatal "empty variable name")) ∧
      (plainContext.expand State.initial (String.mk ['X']) ≠ "" →
        ∃ v st', tryVariableDefinition plainContext (stopcharContext fun _ q => q) none
            ([] ++ ['X'] ++ [] ++ (AssignOp.simple.text ++ [' ', 'a'])) .file .global State.initial =
              .ok (.defined (some (v, st'))) ∧
          BlockFrame State.initial st' ∧ TableWF st' globalVariableSet ∧
          st'.read globalVariableSet = refDefine plainContext.envOverrides
            (plainContext.expand State.initial (String.mk ['X']))
            (AssignOp.simple.storedValue plainContext State.initial
              (String.mk (([' ', 'a'].dropWhile (stopcharContext fun _ q => q).isSpace).takeWhile
                fun c => c != '\x00')))
            .file AssignOp.simple.deferred (State.initial.read globalVariableSet)) :=
  ⟨by decide, by decide, by decide, by decide, by decide, by decide, .inl ⟨rfl, rfl⟩,
    tableWF_initial,
    try_variable_definition_binds _ plainContext none .file .global _ State.initial [] ['X'] []
      [' ', 'a'] .simple (by decide) (by decide) (by decide) (by decide) (by decide) (by decide)
      (.inl ⟨rfl, rfl⟩) tableWF_initial⟩

/-- **A conditional definition line.** With `?` before an operator other
than `+=`, and a name that expands to something: when `lookup_variable`
finds a record through the current chain, `try_variable_definition`
returns that record and binds nothing, the name's own binding apart, which
`lookup_special_var` may refresh; when it finds none, the line binds the
name as it would without the `?`. -/
theorem try_conditional_definition (skip : List Char → Nat → Nat) (cx : Context)
    (flocp : Option Floc) (origin : VariableOrigin) (scope : VariableScope) (s : SetId)
    (st : State) (pre name mid rest : List Char) (op : AssignOp) (hop : op ≠ .append)
    (hpre : ∀ c ∈ pre, (stopcharContext skip).isSpace c = true) (hne : name ≠ [])
    (hname : ∀ c ∈ name, nameChar c = true)
    (hhead : ∀ c ∈ name.head?, (stopcharContext skip).isSpace c = false)
    (hmid : ∀ c ∈ mid, c = ' ' ∨ c = '\t')
    (hs : (scope = .global ∧ s = globalVariableSet) ∨
      (scope ≠ .global ∧ (st.current.bind st.lists).map SetList.set = some s))
    (hwf : TableWF st s) (hE : cx.expand st (String.mk name) ≠ "") :
    (∀ v st1, lookupVariable (cx.expand st (String.mk name)) st = some (some v, st1) →
      tryVariableDefinition cx (stopcharContext skip) flocp
          (pre ++ name ++ mid ++ ('?' :: (op.text ++ rest))) origin scope st =
        .ok (.defined (some (v, st1))) ∧
      BlockFrame st st1 ∧ TableWF st1 s ∧
      ∀ M, M ≠ cx.expand st (String.mk name) → st1.read s M = st.read s M) ∧
    (∀ st1, lookupVariable (cx.expand st (String.mk name)) st = some (none, st1) →
      ∃ v st', tryVariableDefinition cx (stopcharContext skip) flocp
          (pre ++ name ++ mid ++ ('?' :: (op.text ++ rest))) origin scope st =
          .ok (.defined (some (v, st'))) ∧
        BlockFrame st st' ∧ TableWF st' s ∧
        st'.read s = refDefine cx.envOverrides (cx.expand st (String.mk name))
          (op.storedValue cx st
            (String.mk ((rest.dropWhile (stopcharContext skip).isSpace).takeWhile fun c => c != '\x00')))
          origin op.deferred (st.read s)) := by
  have htry := tryVariableDefinition_grammar skip cx flocp origin scope st pre name mid rest true op
    hpre hne hname hhead hmid
  simp only [↓reduceIte, List.singleton_append, List.cons_append, List.nil_append, hE] at htry
  refine ⟨fun v st1 hl => ⟨?_, lookupVariable_spec hl hwf⟩, fun st1 hl => ?_⟩
  · rw [htry]
    simp only [doVariableDefinition, ↓reduceIte, hl, Option.some_bind]
  · rw [lookupVariable_none hl] at hl
    obtain ⟨v, st', hdo, hbind⟩ := doVariableDefinition_binds hs hwf hop cx flocp
      (cx.expand st (String.mk name))
      (String.mk ((rest.dropWhile (stopcharContext skip).isSpace).takeWhile fun c => c != '\x00'))
      origin true fun _ => hl
    exact ⟨v, st', by rw [htry, hdo], hbind⟩

/-- `X ?= a` as a global definition where `X = a` is defined: the lookup
finds `X`'s record, `1`. -/
theorem try_conditional_definition_x :
    lookupVariable "X" definedX = some (some 1, definedX) ∧
    AssignOp.recursive ≠ .append ∧
      (∀ c ∈ ([] : List Char), (stopcharContext fun _ q => q).isSpace c = true) ∧
      ['X'] ≠ [] ∧ (∀ c ∈ ['X'], nameChar c = true) ∧
      (∀ c ∈ ['X'].head?, (stopcharContext fun _ q => q).isSpace c = false) ∧
      (∀ c ∈ ([] : List Char), c = ' ' ∨ c = '\t') ∧
      ((VariableScope.global = .global ∧ globalVariableSet = globalVariableSet) ∨
        (VariableScope.global ≠ .global ∧
          (definedX.current.bind definedX.lists).map SetList.set = some globalVariableSet)) ∧
      TableWF definedX globalVariableSet ∧
      plainContext.expand definedX (String.mk ['X']) ≠ "" ∧
      (∀ v st1, lookupVariable (plainContext.expand definedX (String.mk ['X'])) definedX =
          some (some v, st1) →
        tryVariableDefinition plainContext (stopcharContext fun _ q => q) none
            ([] ++ ['X'] ++ [] ++ ('?' :: (AssignOp.recursive.text ++ [' ', 'a']))) .file .global
            definedX = .ok (.defined (some (v, st1))) ∧
        BlockFrame definedX st1 ∧ TableWF st1 globalVariableSet ∧
        ∀ M, M ≠ plainContext.expand definedX (String.mk ['X']) →
          st1.read globalVariableSet M = definedX.read globalVariableSet M) ∧
      (∀ st1, lookupVariable (plainContext.expand definedX (String.mk ['X'])) definedX =
          some (none, st1) →
        ∃ v st', tryVariableDefinition plainContext (stopcharContext fun _ q => q) none
            ([] ++ ['X'] ++ [] ++ ('?' :: (AssignOp.recursive.text ++ [' ', 'a']))) .file .global
            definedX = .ok (.defined (some (v, st'))) ∧
          BlockFrame definedX st' ∧ TableWF st' globalVariableSet ∧
          st'.read globalVariableSet = refDefine plainContext.envOverrides
            (plainContext.expand definedX (String.mk ['X']))
            (AssignOp.recursive.storedValue plainContext definedX
              (String.mk (([' ', 'a'].dropWhile (stopcharContext fun _ q => q).isSpace).takeWhile
                fun c => c != '\x00')))
            .file AssignOp.recursive.deferred (definedX.read globalVariableSet)) :=
  ⟨rfl, by decide, by decide, by decide, by decide, by decide, by decide, .inl ⟨rfl, rfl⟩,
    tableWF_definedX, by decide,
    try_conditional_definition _ plainContext none .file .global _ definedX [] ['X'] []
      [' ', 'a'] .recursive (by decide) (by decide) (by decide) (by decide) (by decide) (by decide)
      (.inl ⟨rfl, rfl⟩) tableWF_definedX (by decide)⟩

end MakeVariables
