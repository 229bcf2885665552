import MakeVariables.Model.Special
import MakeVariables.Model.Pattern
/-!
# Definitions — `do_variable_definition` and `initialize_file_variables`

How an assignment's flavor turns its text into the value stored, and how a
file's chain is built: its own set, the pattern-specific set holding every
matching pattern variable, then the parent's chain.

The reference evaluator (`allocated_expand_string`) and the shell
(`shell_result`) are external: they are parameters that read the state and
do not change it. `set_special_var` acts on flags outside this state
(`reset_makeflags`, `cmd_prefix`, the warning actions) and leaves it as it
is. The `MK_OS_DOS` and `MK_OS_W32` branches for `SHELL` are not modelled.
-/

namespace MakeVariables

/-- What `variable.c` reads but does not own: the reference evaluator, the
shell, and `env_overrides` (`-e`). -/
structure Context where
  expand : State → String → String
  shellResult : State → String → String
  envOverrides : Bool

/-- The reference evaluator and the shell as the identity, without `-e`:
the context of a run whose values hold no references. -/
def plainContext : Context := ⟨fun _ s => s, fun _ s => s, false⟩

/-- Modelled from the spec: `enum variable_scope` of `variable.h`, whose
declaration is missing: a global definition, a target-specific one, or a
pattern-specific one. -/
inductive VariableScope
  | global
  | target
  | pattern
  deriving DecidableEq, Repr

/-- Modelled from the spec: `MAKEFLAGS_NAME`, declared outside the sources;
the flags-propagation variable. -/
def makeflagsName : String := "MAKEFLAGS"

/-- `strstr (s, sep)`, as the text before the first occurrence of `sep`. -/
def prefixBefore (sep : List Char) : List Char → Option (List Char)
  | [] => if sep = [] then some [] else none
  | c :: cs => if sep.isPrefixOf (c :: cs) then some [] else (prefixBefore sep cs).map (c :: ·)

/-- The `:::=` loop: every `$` of the expanded text doubled. -/
def doubleDollars (t : String) : String :=
  String.mk (t.toList.flatMap fun c => if c = '$' then ['$', '$'] else [c])

/-- The value the append path of `do_variable_definition` pastes together:
the old value (cut before `" -- "` for `MAKEFLAGS`) and a space when it is
not empty, then the new text. -/
def appendValue (varname old new : String) : String :=
  if old = "" then new
  else
    let kept := if varname = makeflagsName then
        ((prefixBefore " -- ".toList old.toList).map String.mk).getD old
      else old
    kept ++ " " ++ new

/-- The record `do_variable_definition` ends with: `set_special_var` acts
outside the modelled state. -/
def setSpecialVar (v : VarId) (st : State) : VarId × State := (v, st)

/-- The flag fields `do_variable_definition` sets on the record it defined. -/
def State.markDefined (st : State) (v : VarId) (append conditional : Bool) : State :=
  match st.vars v with
  | none => st
  | some x => st.setVar v { x with append := append, conditional := conditional }

/-- The tail of `do_variable_definition`: define the name with the value
the flavor produced in the target set (`NULL`, the global set, for a
global definition), set the `append` and `conditional` flags, and hand a
special variable to `set_special_var`. -/
def storeDefinition (cx : Context) (flocp : Option Floc) (varname : String)
    (origin : VariableOrigin) (conditional : Bool) (target : Option SetId) (newval : String)
    (flavor : VariableFlavor) (append : Bool) (st : State) : Option (VarId × State) :=
  let (v, st) := defineVariableInSet cx.envOverrides varname newval origin
    (flavor = .recursive ∨ flavor = .expand) target flocp st
  let st := st.markDefined v append conditional
  if ((st.vars v).map Variable.special).getD false then pure (setSpecialVar v st)
  else pure (v, st)

/-- The `f_append` and `f_append_value` case of `do_variable_definition`:
the old record (in the current set for a target or pattern definition,
through `lookup_variable` for a global one), the `append` flag, the
command-line or `-e` override of a pattern append, then the value pasted
together; an empty new text leaves the old record as it is. -/
def appendDefinition (cx : Context) (flocp : Option Floc) (varname value : String)
    (origin : VariableOrigin) (flavor : VariableFlavor) (conditional : Bool)
    (scope : VariableScope) (target : Option SetId) (st : State) : Option (VarId × State) :=
  let finish := storeDefinition cx flocp varname origin conditional target
  let old : Option (Option VarId × Bool × Bool × State) := match scope, target with
    | .global, _ => (lookupVariable varname st).map fun (v, st) => (v, false, false, st)
    | _, some s =>
      match lookupVariableInSet varname s st with
      | none => some (none, true, false, st)
      | some v =>
        let x := st.vars v
        let ov : Bool := scope == .pattern &&
          (x.map Variable.origin == some .envOverride || x.map Variable.origin == some .command)
        some (some v, if ov then true else ((x.map Variable.append).getD false), ov, st)
    | _, none => none
  old.bind fun (old, append, override, st) =>
    match old with
    | none => finish value .recursive append st
    | some v =>
      if override then finish value .recursive append st
      else
        match st.vars v with
        | none => none
        | some x =>
          let flavor := if x.recursive then VariableFlavor.recursive else flavor
          let val := if x.recursive ∨ flavor = .appendValue then value else cx.expand st value
          if val = "" then
            if x.special then some (setSpecialVar v st) else some (v, st)
          else finish (appendValue varname x.value val) flavor append st

/-- `do_variable_definition`. `none` when the C code aborts (a bogus
flavor, `NULL` current chain) or a lookup it makes does not end. Returns
the record with the state. -/
def doVariableDefinition (cx : Context) (flocp : Option Floc) (varname value : String)
    (origin : VariableOrigin) (flavor : VariableFlavor) (conditional : Bool)
    (scope : VariableScope) (st : State) : Option (VarId × State) :=
  -- Conditional variable definition: only set if the var is not defined.
  (if conditional then lookupVariable varname st else some (none, st)).bind fun (found, st) =>
  match found with
  | some v => some (v, st)
  | none =>
  let target : Option (Option SetId) := match scope with
    | .global => some none
    | _ => (st.current.bind st.lists).map fun n => some n.set
  target.bind fun target =>
  let finish := storeDefinition cx flocp varname origin conditional target
  match flavor with
  | .simple => finish (cx.expand st value) flavor false st
  | .expand => finish (doubleDollars (cx.expand st value)) flavor false st
  | .shell => finish (cx.shellResult st (cx.expand st value)) .recursive false st
  | .recursive => finish value flavor false st
  | .append | .appendValue =>
    appendDefinition cx flocp varname value origin flavor conditional scope target st
  | .bogus | .conditional => none

/-- `v->flavor = flavor` on a live record. -/
def State.setFlavor (st : State) (v : VarId) (flavor : VariableFlavor) : State :=
  match st.vars v with
  | none => st
  | some x => st.setVar v { x with flavor := flavor }

/-- `define_variable_loc` into the current set, as `initialize_file_variables`
calls it for a `:=` pattern variable. -/
def defineVariableLoc (cx : Context) (name value : String) (origin : VariableOrigin)
    (recursive : Bool) (flocp : Option Floc) (st : State) : Option (VarId × State) :=
  (st.current.bind st.lists).map fun n =>
    defineVariableInSet cx.envOverrides name value origin recursive (some n.set) flocp st

/-- One turn of the pattern loop of `initialize_file_variables`: define the
entry's variable in the current set, then copy `per_target`, `export` and
`private_var` onto the record defined. -/
def definePatternVar (cx : Context) (p : PatternVar) (st : State) : Option State :=
  let defined :=
    if p.var.flavor = .simple then
      (defineVariableLoc cx p.var.name p.var.value p.var.origin false (some p.var.fileinfo) st).map
        fun r => (r.1, r.2.setFlavor r.1 .simple)
    else
      doVariableDefinition cx (some p.var.fileinfo) p.var.name p.var.value p.var.origin
        p.var.flavor p.var.conditional .pattern st
  defined.bind fun (v, st) =>
    (st.vars v).map fun x =>
      st.setVar v { x with perTarget := p.var.perTarget, exportStatus := p.var.exportStatus,
                           privateVar := p.var.privateVar }

/-- The `do … while` of `initialize_file_variables`: define entry `a`, then
move to the next entry matching the target. -/
def patternLoop (cx : Context) (pv : PatternVars) (target : String) :
    Nat → Nat → State → Option State
  | 0, _, _ => none
  | fuel + 1, a, st => do
    let p ← pv.get a
    let st ← definePatternVar cx p st
    match lookupPatternVar pv (some a) target with
    | none => pure st
    | some b => patternLoop cx pv target fuel b st

/-- The pattern search of `initialize_file_variables`, for a target not
searched yet: when some pattern matches its name, a new set, made current
for the time of the loop, gathers every matching pattern variable and
becomes `pat_variables`; `pat_searched` is set either way. -/
def searchPatternVars (cx : Context) (pv : PatternVars) (f : FileId) (st : State) :
    Option State := do
  let file ← st.files f
  if file.patSearched then pure st
  else
    let st ← match lookupPatternVar pv none file.name with
      | none => pure st
      | some p => do
        let saved := st.current
        let (pl, st) := createNewVariableSet st
        let st := { st.setFile f { file with patVariables := some pl } with current := some pl }
        let st ← patternLoop cx pv file.name pv.order.length p st
        pure { st with current := saved }
    let file ← st.files f
    pure (st.setFile f { file with patSearched := true })

/-- The splice of `initialize_file_variables`: the pattern-specific set
goes between the target's link `l` and what followed it, and takes over
its `next_is_parent`. -/
def splicePatternVars (f : FileId) (l : ListId) (st : State) : Option State := do
  let file ← st.files f
  match file.patVariables with
  | none => pure st
  | some pl => do
    let n ← st.lists l
    let pn ← st.lists pl
    let st := st.setList pl { pn with next := n.next, nextIsParent := n.nextIsParent }
    pure (st.setList l { n with next := some pl, nextIsParent := false })

/-- The rest of `initialize_file_variables`, after the double-colon case:
link `file`'s link `l` to the parent's chain (or `global_setlist`), search
the pattern variables unless reading makefiles, and splice the
pattern-specific set in. `initParent` is the recursive call on the
parent. -/
def initializeParent (cx : Context) (pv : PatternVars)
    (initParent : FileId → Bool → State → Option State) (f : FileId) (reading : Bool)
    (l : ListId) (file : File) (st : State) : Option State :=
  let parentRun := match file.parent with
    | none => some st
    | some par => initParent par reading st
  parentRun.bind fun st =>
  let next := match file.parent with
    | none => some globalSetlist
    | some par => (st.files par).bind File.variablesList
  (st.lists l).bind fun n =>
  let st := st.setList l { n with next := next, nextIsParent := true }
  (if reading then some st else searchPatternVars cx pv f st).bind (splicePatternVars f l)

/-- The first lines of `initialize_file_variables`: the file's own link,
created with a new empty set on first use. -/
def fileSetList (f : FileId) (file : File) (st : State) : ListId × State :=
  match file.variablesList with
  | some l => (l, st)
  | none =>
    (st.fresh, ((st.alloc.setTable st.fresh []).setList st.fresh
      ⟨none, st.fresh, false⟩).setFile f { file with variablesList := some st.fresh })

/-- `initialize_file_variables (file, reading)`, recursing through the
`double_colon` root or the parent; `fuel` bounds that recursion and `none`
is a recursion that would not end (or a loop above that would not). -/
def initializeFileVariables (cx : Context) (pv : PatternVars) :
    Nat → FileId → Bool → State → Option State
  | 0, _, _, _ => none
  | fuel + 1, f, reading, st =>
    (st.files f).bind fun file =>
    let l := (fileSetList f file st).1
    let st := (fileSetList f file st).2
    match file.doubleColon with
    | some dc =>
      if dc ≠ f then
        (initializeFileVariables cx pv fuel dc reading st).bind fun st =>
        (st.lists l).map fun n =>
          st.setList l { n with next := (st.files dc).bind File.variablesList, nextIsParent := false }
      else initializeParent cx pv (initializeFileVariables cx pv fuel) f reading l file st
    | none => initializeParent cx pv (initializeFileVariables cx pv fuel) f reading l file st

end MakeVariables
