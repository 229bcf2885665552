import MakeVariables.TryDefinition
/-!
# The reader — a makefile's lines through `try_variable_definition`

The reader of makefiles (`read.c`, outside the sources) cuts its text into
lines and hands each to `try_variable_definition` at the global scope.
It is modelled here from the spec (`splitLines`, `readDefinitions`), as
the run of `try_variable_definition` the variable engine sees.

What any reading keeps (`read_definitions_keep_stronger`): the global set
stays well formed, and a binding whose origin outranks the reading's, as
the gate of `define_variable_in_set` compares origins, reads the same
after any lines, whatever their operators, `?=` and `+=` included. One
step keeps it (`KeepsStronger`) on every path through
`do_variable_definition`: the lookups of `?=` and `+=`, the tail, and the
append case. The one name this leaves out is `.VARIABLES`, whose value
`lookup_special_var` rebuilds whenever a line looks it up.
-/

namespace MakeVariables

/-! ## The reader -/

/-- Modelled from the spec: the reader of makefiles cuts its text into
lines at each newline; the newline that ends the text opens no line. -/
def splitLines : List Char → List (List Char)
  | [] => []
  | c :: cs =>
    if c = '\n' then [] :: splitLines cs
    else match splitLines cs with
      | [] => [[c]]
      | l :: ls => (c :: l) :: ls

/-- A line with no newline, and the newline behind it, make one line. -/
theorem splitLines_append (l rest : List Char) (h : '\n' ∉ l) :
    splitLines (l ++ '\n' :: rest) = l :: splitLines rest := by
  induction l with
  | nil => simp [splitLines]
  | cons c l ih =>
    have hc : c ≠ '\n' := fun hc => h (hc ▸ List.mem_cons_self c l)
    rw [List.cons_append, splitLines, if_neg hc, ih (fun hl => h (List.mem_cons_of_mem c hl))]

/-- Modelled from the spec: the reader's loop over the lines of a text,
each given to `try_variable_definition` at the global scope. A line that
is no definition leaves the state as it is; a line that fails, or whose
definition is not made, stops the reading. -/
def readDefinitions (cx : Context) (ctx : ParseContext) (flocp : Option Floc)
    (origin : VariableOrigin) : List (List Char) → State → Option State
  | [], st => some st
  | line :: lines, st =>
    match tryVariableDefinition cx ctx flocp line origin .global st with
    | .ok .notDefinition => readDefinitions cx ctx flocp origin lines st
    | .ok (.defined (some (_, st'))) => readDefinitions cx ctx flocp origin lines st'
    | _ => none

section reader

variable {cx : Context} {ctx : ParseContext} {flocp : Option Floc} {origin : VariableOrigin}
  {line : List Char} {lines : List (List Char)} {st st' : State}

theorem readDefinitions_notDefinition
    (h : tryVariableDefinition cx ctx flocp line origin .global st = .ok .notDefinition) :
    readDefinitions cx ctx flocp origin (line :: lines) st =
      readDefinitions cx ctx flocp origin lines st := by
  rw [readDefinitions, h]

theorem readDefinitions_defined {r : VarId}
    (h : tryVariableDefinition cx ctx flocp line origin .global st = .ok (.defined (some (r, st')))) :
    readDefinitions cx ctx flocp origin (line :: lines) st =
      readDefinitions cx ctx flocp origin lines st' := by
  rw [readDefinitions, h]

/-- A line that defines went through `do_variable_definition`, on the
fields its parse gave. -/
theorem tryVariableDefinition_defined {scope : VariableScope} {r : VarId}
    (h : tryVariableDefinition cx ctx flocp line origin scope st = .ok (.defined (some (r, st')))) :
    ∃ name value flavor cond,
      doVariableDefinition cx flocp name value origin flavor cond scope st = some (r, st') := by
  cases hp : parseVariableDefinition ctx line with
  | error e =>
    simp only [tryVariableDefinition, assignVariableDefinition, hp] at h
    cases h
  | ok d =>
    cases d with
    | none =>
      simp only [tryVariableDefinition, assignVariableDefinition, hp, except_ok_bind] at h
      cases h
    | some d =>
      rw [tryVariableDefinition_of_parse hp] at h
      split_ifs at h
      · cases h
      · exact ⟨_, _, _, _, TryOutcome.defined.inj (Except.ok.inj h)⟩

end reader

/-! ## What a reading keeps -/

/-- The global set as the gate of `define_variable_in_set` compares it:
each binding with its origin normalised. -/
def gateRead (envOverrides : Bool) (st : State) (N : String) : Option Binding :=
  (st.read globalVariableSet N).map fun b => { b with origin := normalizeOrigin envOverrides b.origin }

/-- **What a step of a reading at origin `o` keeps**: the global set well
formed, and every binding other than `.VARIABLES` that the gate ranks
above `o`. -/
structure KeepsStronger (envOverrides : Bool) (o : VariableOrigin) (st st' : State) : Prop where
  wf : TableWF st' globalVariableSet
  keep : ∀ N b, N ≠ ".VARIABLES" → gateRead envOverrides st N = some b →
    (normalizeOrigin envOverrides o).toNat < b.origin.toNat → gateRead envOverrides st' N = some b

namespace KeepsStronger

variable {e : Bool} {o : VariableOrigin} {st st1 st2 : State}

theorem refl (h : TableWF st globalVariableSet) : KeepsStronger e o st st :=
  ⟨h, fun _ _ _ hb _ => hb⟩

theorem trans (h1 : KeepsStronger e o st st1) (h2 : KeepsStronger e o st1 st2) :
    KeepsStronger e o st st2 :=
  ⟨h2.wf, fun N b hN hb hlt => h2.keep N b hN (h1.keep N b hN hb hlt) hlt⟩

/-- A step that reads every name but `.VARIABLES` the same keeps it. -/
theorem of_read (hwf : TableWF st1 globalVariableSet)
    (h : ∀ N, N ≠ ".VARIABLES" → st1.read globalVariableSet N = st.read globalVariableSet N) :
    KeepsStronger e o st st1 :=
  ⟨hwf, fun N _ hN hb _ => by rw [gateRead, h N hN]; exact hb⟩

/-- A step that is the gate at origin `o` keeps it: the gate refuses a
definition under a stronger binding, and only normalises its origin. -/
theorem of_refDefine {name value : String} {rec : Bool} (hwf : TableWF st1 globalVariableSet)
    (h : st1.read globalVariableSet = refDefine e name value o rec (st.read globalVariableSet)) :
    KeepsStronger e o st st1 := by
  refine ⟨hwf, fun N b _ hb hlt => ?_⟩
  rw [gateRead, h]
  by_cases hN : N = name
  · subst hN
    obtain ⟨b0, hb0, rfl⟩ := Option.map_eq_some'.1 hb
    simp only [refDefine, Function.update_same, hb0, if_neg (Nat.not_le.2 hlt), Option.map_some',
      normalizeOrigin_idem]
  · rw [refDefine_ne hN]
    exact hb

end KeepsStronger

section steps

variable {cx : Context} {flocp : Option Floc} {name value : String} {o : VariableOrigin}
  {flavor : VariableFlavor} {cond : Bool} {st st' : State} {v : VarId}

/-- `lookup_variable` rebuilds the value of `.VARIABLES` at most: every
other name reads the same. -/
theorem lookupVariable_read_other {s : SetId} {r : Option VarId} (h : lookupVariable name st = some (r, st'))
    (hwf : TableWF st s) {N : String} (hN : N ≠ ".VARIABLES") : st'.read s N = st.read s N := by
  obtain ⟨r0, -, hr⟩ := Option.map_eq_some'.1 h
  cases r0 with
  | none => cases hr; rfl
  | some u =>
    have hsp : (lookupSpecialVar u st).read s N = st.read s N := by
      unfold lookupSpecialVar
      cases hx : st.vars u with
      | none => rfl
      | some x =>
        dsimp only
        split_ifs with hc
        · exact (hwf.setVar_name (y := { x with value := " ".intercalate st.globalNames }) hx rfl).2 N
            (hc.2 ▸ hN)
        · rfl
    simp only at hr
    split_ifs at hr <;> cases hr
    · exact hsp
    · rfl

theorem lookupVariable_keeps {r : Option VarId} (h : lookupVariable name st = some (r, st'))
    (hwf : TableWF st globalVariableSet) : KeepsStronger cx.envOverrides o st st' :=
  .of_read (lookupVariable_spec h hwf).2.1 fun _ hN => lookupVariable_read_other h hwf hN

/-- The tail of a global definition is the gate on the global set. -/
theorem storeDefinition_keeps {app : Bool} {newval : String} (hwf : TableWF st globalVariableSet)
    (h : storeDefinition cx flocp name o cond none newval flavor app st = some (v, st')) :
    KeepsStronger cx.envOverrides o st st' :=
  let ⟨_, hwf', hread⟩ := storeDefinition_spec (s := globalVariableSet) hwf h
  .of_refDefine hwf' hread

/-- The append case of a global definition: the lookup of the old record,
then the tail, or nothing for an empty new text. -/
theorem appendDefinition_keeps (hwf : TableWF st globalVariableSet)
    (h : appendDefinition cx flocp name value o flavor cond .global none st = some (v, st')) :
    KeepsStronger cx.envOverrides o st st' := by
  unfold appendDefinition at h
  obtain ⟨⟨old, app, ov, st1⟩, h1, h⟩ := Option.bind_eq_some.1 h
  dsimp only at h1
  obtain ⟨⟨r, st1'⟩, hl, hr⟩ := Option.map_eq_some'.1 h1
  cases hr
  have k1 : KeepsStronger cx.envOverrides o st _ := lookupVariable_keeps hl hwf
  cases r with
  | none => exact k1.trans (storeDefinition_keeps k1.wf h)
  | some w =>
    simp only [Bool.false_eq_true, ↓reduceIte] at h
    split at h
    · cases h
    · rename_i x _
      generalize (if x.recursive = true then VariableFlavor.recursive else flavor) = fl at h
      generalize (if x.recursive = true ∨ fl = .appendValue then value else cx.expand st1' value) = u at h
      by_cases hu : u = ""
      · -- an empty new text returns the old record
        rw [if_pos hu] at h
        split_ifs at h <;> obtain ⟨-, rfl⟩ := Prod.mk.inj (Option.some.inj h) <;> exact k1
      · rw [if_neg hu] at h
        exact k1.trans (storeDefinition_keeps k1.wf h)

/-- **One global definition keeps every stronger binding**, whatever its
flavor and whether conditional. -/
theorem doVariableDefinition_keeps (hwf : TableWF st globalVariableSet)
    (h : doVariableDefinition cx flocp name value o flavor cond .global st = some (v, st')) :
    KeepsStronger cx.envOverrides o st st' := by
  unfold doVariableDefinition at h
  obtain ⟨⟨found, st1⟩, h1, h⟩ := Option.bind_eq_some.1 h
  have k1 : KeepsStronger cx.envOverrides o st st1 := by
    split_ifs at h1
    · exact lookupVariable_keeps h1 hwf
    · cases h1; exact .refl hwf
  cases found with
  | some w => cases h; exact k1
  | none =>
    simp only [Option.some_bind] at h
    cases flavor with
    | bogus | conditional => cases h
    | simple | expand | shell | recursive => exact k1.trans (storeDefinition_keeps k1.wf h)
    | append | appendValue => exact k1.trans (appendDefinition_keeps k1.wf h)

end steps

/-- **The run**: a reading that ends keeps every stronger binding. -/
theorem readDefinitions_keeps {cx : Context} {ctx : ParseContext} {flocp : Option Floc}
    {o : VariableOrigin} {st' : State} :
    ∀ (lines : List (List Char)) (st : State), TableWF st globalVariableSet →
      readDefinitions cx ctx flocp o lines st = some st' → KeepsStronger cx.envOverrides o st st'
  | [], st, hwf, h => by cases h; exact .refl hwf
  | line :: lines, st, hwf, h => by
    rw [readDefinitions] at h
    split at h
    · exact readDefinitions_keeps lines st hwf h
    · rename_i r st1 htry
      obtain ⟨_, _, _, _, hdo⟩ := tryVariableDefinition_defined htry
      have k1 := doVariableDefinition_keeps hwf hdo
      exact k1.trans (readDefinitions_keeps lines st1 k1.wf h)
    · cases h

/-- **A makefile cannot override a stronger variable.** Whatever lines a
reading at origin `origin` gives to `try_variable_definition` (any
operator, `?=` and `+=` included), when the reading ends the global set is
well formed, and every name other than `.VARIABLES` bound with an origin
that the gate ranks above `origin` (a command-line variable under a
makefile, say) reads as it did, origins as the gate compares them. -/
theorem read_definitions_keep_stronger (cx : Context) (ctx : ParseContext) (flocp : Option Floc)
    (origin : VariableOrigin) (lines : List (List Char)) (st st' : State)
    (hwf : TableWF st globalVariableSet)
    (hread : readDefinitions cx ctx flocp origin lines st = some st')
    (N : String) (hN : N ≠ ".VARIABLES") (b : Binding) (hb : st.read globalVariableSet N = some b)
    (hlt : (normalizeOrigin cx.envOverrides origin).toNat < (normalizeOrigin cx.envOverrides b.origin).toNat) :
    TableWF st' globalVariableSet ∧ gateRead cx.envOverrides st' N = gateRead cx.envOverrides st N := by
  have k := readDefinitions_keeps lines st hwf hread
  have hg : gateRead cx.envOverrides st N = some { b with origin := normalizeOrigin cx.envOverrides b.origin } := by
    rw [gateRead, hb]; rfl
  exact ⟨k.wf, (k.keep N _ hN hg hlt).trans hg.symm⟩

/-- A command-line `X`, under a makefile that assigns it, appends to it,
assigns it conditionally and reads it. -/
def precedenceDemo : State :=
  (defineVariableInSet false "X" "1" .command false (some globalVariableSet) none State.initial).2

def precedenceLines : List (List Char) :=
  ["X = 2".toList, "X += 3".toList, "X ?= 4".toList, "Y := $(X)".toList]

theorem read_definitions_keep_stronger_command :
    ∃ st', readDefinitions plainContext (stopcharContext fun _ q => q) none .file precedenceLines
        precedenceDemo = some st' ∧
      TableWF precedenceDemo globalVariableSet ∧ "X" ≠ ".VARIABLES" ∧
      precedenceDemo.read globalVariableSet "X" = some ⟨"1", .command, false⟩ ∧
      (normalizeOrigin plainContext.envOverrides .file).toNat <
        (normalizeOrigin plainContext.envOverrides VariableOrigin.command).toNat ∧
      TableWF st' globalVariableSet ∧
      gateRead plainContext.envOverrides st' "X" = gateRead plainContext.envOverrides precedenceDemo "X" :=
  have hwf : TableWF precedenceDemo globalVariableSet :=
    (defineVariableInSet_spec false "X" "1" .command false none tableWF_initial).1
  ⟨_, rfl, hwf, by decide, rfl, by decide,
    read_definitions_keep_stronger plainContext (stopcharContext fun _ q => q) none .file precedenceLines
      precedenceDemo _ hwf rfl "X" (by decide) _ rfl (by decide)⟩

end MakeVariables
