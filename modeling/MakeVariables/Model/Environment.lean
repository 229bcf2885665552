import MakeVariables.Model.Definition
/-!
# The environment — `should_export` and `target_environment`

`target_environment` walks a chain from its first link to `NULL` and
accumulates one record per name, most specific first, into a table of its
own: a private record counts only in the first link, a record of
`global_variable_set` only if `should_export` accepts it, and a record met
when its name is already kept passes its export status to the kept one if
that one's is still `v_default`. A second loop then writes `name=value`
for each kept record `should_export` accepts, expanding deferred values,
and handles `SHELL`, `MAKELEVEL`, `MAKEFLAGS` and `MFLAGS`.

The accumulation table is the list of the records it holds, in insertion
order (the hash table's slot order is not modelled). What the function
reads from outside `variable.c` is an `EnvContext`; `makelevel + 1` is the
`unsigned` sum `%u` prints, which wraps to `0` at `UINT_MAX`.
-/

namespace MakeVariables

/-- What `target_environment` reads from outside `variable.c`. -/
structure EnvContext where
  /-- `export_all_variables`. -/
  exportAllVariables : Bool
  /-- `makelevel`, an `unsigned int`. -/
  makelevel : UInt32
  /-- `shell_var.value`; `none` when the environment gave no `SHELL`. -/
  shellValue : Option String
  /-- `jobserver_auth` is set. -/
  jobserverAuth : Bool
  /-- What `jobserver_get_invalid_auth` returns. -/
  invalidAuth : Option String
  /-- `JOBSERVER_AUTH_OPT`. -/
  authOpt : String
  /-- `recursively_expand_for_file (v, file)`. -/
  expandFor : State → Option FileId → Variable → String

/-- Modelled from the spec: `MAKELEVEL_NAME`, declared outside the sources;
the build-recursion-depth counter the comment of `target_environment`
calls the child's `MAKELEVEL`. -/
def makelevelName : String := "MAKELEVEL"

/-- `should_export`. -/
def shouldExport (exportAllVariables : Bool) (v : Variable) : Bool :=
  match v.exportStatus with
  | .export => true
  | .noexport => false
  | .ifset => v.origin ≠ .default
  | .default =>
    if v.origin = .default ∨ v.origin = .automatic then false
    else if !v.exportable then false
    else if !exportAllVariables ∧ v.origin ≠ .command ∧ v.origin ≠ .env ∧
        v.origin ≠ .envOverride then false
    else true

/-- `hash_find_slot` on the accumulation table: the kept record of the name. -/
def accFind (st : State) (acc : List VarId) (name : String) : Option VarId :=
  acc.find? fun w => (st.vars w).map Variable.name == some name

/-- One slot of one set in the accumulation loop of `target_environment`. -/
def accumulateVar (exportAll islocal isglobal : Bool) (p : List VarId × State) (u : VarId) :
    List VarId × State :=
  match p.2.vars u with
  | none => p
  | some v =>
    if !islocal && v.privateVar then p
    else
      match accFind p.2 p.1 v.name with
      | none => if !isglobal || shouldExport exportAll v then (p.1 ++ [u], p.2) else p
      | some w =>
        match p.2.vars w with
        | some x =>
          if x.exportStatus = .default then
            (p.1, p.2.setVar w { x with exportStatus := v.exportStatus })
          else p
        | none => p

/-- The accumulation loop: every link from `l` to `NULL`; `islocal` is
`s == set_list`. `none` when the walk does not end within `fuel` links or
meets a freed link. -/
def accumulateChain (exportAll : Bool) (setList : Option ListId) :
    Nat → Option ListId → List VarId × State → Option (List VarId × State)
  | _, none, p => some p
  | 0, some _, _ => none
  | fuel + 1, some l, p =>
    match p.2.lists l with
    | none => none
    | some n =>
      accumulateChain exportAll setList fuel n.next
        ((p.2.table n.set).foldl
          (accumulateVar exportAll (some l == setList) (n.set == globalVariableSet)) p)

/-- The flags of the second loop of `target_environment`. -/
structure EnvFlags where
  addedShell : Bool
  foundMakelevel : Bool
  foundMflags : Bool
  foundMakeflags : Bool
  invalid : Option String

/-- `strstr (s, sub) != NULL`. -/
def containsStr (sub s : String) : Bool := (prefixBefore sub.toList s.toList).isSome

/-- One kept record in the second loop: the entry it writes, if any, and
the flags after it. -/
def envEntry (ec : EnvContext) (file : Option FileId) (st : State) (v : Variable)
    (fl : EnvFlags) : Option String × EnvFlags :=
  if !shouldExport ec.exportAllVariables v then (none, fl)
  else
    let value :=
      if v.recursive ∧ ((v.origin ≠ .env ∧ v.origin ≠ .envOverride) ∨ v.name = makeflagsName) then
        ec.expandFor st file v
      else v.value
    let setit (value : String) (fl : EnvFlags) : Option String × EnvFlags :=
      (some (v.name ++ "=" ++ value), fl)
    if !fl.addedShell ∧ v.name = "SHELL" then setit value { fl with addedShell := true }
    else if !fl.foundMakelevel ∧ v.name = makelevelName then
      setit (toString (ec.makelevel + 1).toNat) { fl with foundMakelevel := true }
    else
      match fl.invalid with
      | none => setit value fl
      | some inv =>
        let opt := " --" ++ ec.authOpt ++ "="
        if !fl.foundMakeflags ∧ v.name = makeflagsName then
          let fl := { fl with foundMakeflags := true }
          if !containsStr opt value then setit value fl
          else
            let mf := match prefixBefore " -- ".toList value.toList with
              | none => value ++ inv
              | some pre => String.mk pre ++ inv ++ String.mk (value.toList.drop pre.length)
            setit mf (if fl.foundMflags then { fl with invalid := none } else fl)
        else if !fl.foundMflags ∧ v.name = "MFLAGS" then
          let fl := { fl with foundMflags := true }
          if !containsStr opt value then setit value fl
          else if v.origin ≠ .env then setit value fl
          else setit (value ++ inv) (if fl.foundMakeflags then { fl with invalid := none } else fl)
        else setit value fl

/-- The chain `target_environment` walks: the file's, or the current one
for `$(shell …)` (`file == NULL`). -/
def envChain (file : Option FileId) (st : State) : Option ListId :=
  match file with
  | some f => (st.files f).bind File.variablesList
  | none => st.current

/-- The first loop of `target_environment`: the kept records, in table
order, and the state after the export statuses it passed on. -/
def environmentTable (exportAll : Bool) (file : Option FileId) (st : State) :
    Option (List VarId × State) :=
  let setList := envChain file st
  accumulateChain exportAll setList (st.fresh + 1) setList ([], st)

/-- `target_environment (file, recursive)`: the entries of the kept
records in table order, then `SHELL` and `MAKELEVEL` when no kept record
wrote them, with the state the accumulation left. `none` when the walk of
the chain does not end. -/
def targetEnvironment (ec : EnvContext) (file : Option FileId) (recursive : Bool) (st : State) :
    Option (List String × State) := do
  let (acc, st) ← environmentTable ec.exportAllVariables file st
  let invalid := if !recursive && ec.jobserverAuth then ec.invalidAuth else none
  let fl0 : EnvFlags := ⟨ec.shellValue.isNone, false, false, false, invalid⟩
  let (entries, fl) := acc.foldl (fun (out, fl) u =>
      match st.vars u with
      | none => (out, fl)
      | some v =>
        let (e, fl) := envEntry ec file st v fl
        (out ++ e.toList, fl)) ([], fl0)
  let shell := if !fl.addedShell then ["SHELL=" ++ ec.shellValue.getD ""] else []
  let level := if !fl.foundMakelevel then [makelevelName ++ "=" ++ toString (ec.makelevel + 1).toNat]
    else []
  pure (entries ++ shell ++ level, st)

end MakeVariables
