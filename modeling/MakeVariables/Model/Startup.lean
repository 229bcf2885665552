import MakeVariables.Model.Environment
import MakeVariables.Model.Jprint
/-!
# `variable.c` — the variables made at start-up

`define_automatic_variables`, in the build for a POSIX host (neither
`MK_OS_DOS`, `MK_OS_OS2` nor `MK_OS_W32`): `MAKELEVEL`, `MAKE_VERSION`,
`MAKE_HOST`, `SHELL` (never taken from the environment), `MAKEFILES`
(exported when set) and the `D` and `F` variants of the automatic
variables. Then `reset_env_override`, which moves the environment's
variables of the global set to the rank `-e` gives them, or back.

The definitions go through `define_variable_cname`, whose declaration
(`variable.h`) is missing: it is `define_variable_in_set` into the set of
the current link, with no `floc`, as `defineVariableLoc` models it.
-/

namespace MakeVariables

/-- What `define_automatic_variables` reads from outside `variable.c`:
`makelevel`, `version_string`, `remote_description` (`none` for `NULL`),
`make_host` and `default_shell`. -/
structure StartupContext where
  makelevel : UInt32
  versionString : String
  remoteDescription : Option String
  makeHost : String
  defaultShell : String

/-- Modelled from the spec: `define_variable_cname (name, value, origin,
recursive)` of `variable.h`. -/
def defineVariableCname (cx : Context) (name value : String) (origin : VariableOrigin)
    (recursive : Bool) (st : State) : Option (VarId × State) :=
  defineVariableLoc cx name value origin recursive none st

/-- `sprintf (buf, "%s%s%s", version_string, "-" or "", remote_description
or "")`: the remote description, behind a dash, when it is set and not
empty. -/
def versionText (sc : StartupContext) : List Char :=
  let remote := (sc.remoteDescription.map cText).getD []
  cText sc.versionString ++ (if remote = [] then [] else ['-']) ++ remote

/-- The `D` and `F` variants of the automatic variables, in the order they
are defined. -/
def automaticDefinitions : List (String × String) :=
  [("@D", "$(patsubst %/,%,$(dir $@))"), ("%D", "$(patsubst %/,%,$(dir $%))"),
   ("*D", "$(patsubst %/,%,$(dir $*))"), ("<D", "$(patsubst %/,%,$(dir $<))"),
   ("?D", "$(patsubst %/,%,$(dir $?))"), ("^D", "$(patsubst %/,%,$(dir $^))"),
   ("+D", "$(patsubst %/,%,$(dir $+))"),
   ("@F", "$(notdir $@)"), ("%F", "$(notdir $%)"), ("*F", "$(notdir $*)"), ("<F", "$(notdir $<)"),
   ("?F", "$(notdir $?)"), ("^F", "$(notdir $^)"), ("+F", "$(notdir $+)")]

/-- The test that keeps `SHELL` out of the environment: an empty value, or
an origin of the environment. -/
def shellFromEnvironment (x : Variable) : Bool :=
  cText x.value = [] || x.origin = .env || x.origin = .envOverride

/-- `define_automatic_variables ()`. `none` when the version text does not
fit the 200 bytes of `buf` (`sprintf` would write past it), or when there
is no current set. -/
def defineAutomaticVariables (cx : Context) (sc : StartupContext) (st : State) : Option State := do
  let (_, st) ← defineVariableCname cx makelevelName (toString sc.makelevel.toNat) .env false st
  if (String.mk (versionText sc)).utf8ByteSize < 200 then
    let (_, st) ← defineVariableCname cx "MAKE_VERSION" (String.mk (versionText sc)) .default false st
    let (_, st) ← defineVariableCname cx "MAKE_HOST" sc.makeHost .default false st
    let (v, st) ← defineVariableCname cx "SHELL" sc.defaultShell .default false st
    let x ← st.vars v
    let st := if shellFromEnvironment x then
        st.setVar v { x with origin := .file, value := sc.defaultShell } else st
    let (v, st) ← defineVariableCname cx "MAKEFILES" "" .default false st
    let x ← st.vars v
    let st := st.setVar v { x with exportStatus := .ifset }
    automaticDefinitions.foldlM
      (fun st d => Prod.snd <$> defineVariableCname cx d.1 d.2 .automatic true st) st
  else none

/-- `set_env_override (v)`: with `-e`, an `o_env` record becomes
`o_env_override`; without, an `o_env_override` record becomes `o_env`. -/
def setEnvOverride (envOverrides : Bool) (st : State) (u : VarId) : State :=
  match st.vars u with
  | some x =>
    if x.origin = (if envOverrides then .env else .envOverride) then
      st.setVar u { x with origin := if envOverrides then .envOverride else .env }
    else st
  | none => st

/-- `reset_env_override ()`: `set_env_override` over the records of
`global_variable_set`, in table order. -/
def resetEnvOverride (envOverrides : Bool) (st : State) : State :=
  (st.table globalVariableSet).foldl (setEnvOverride envOverrides) st

end MakeVariables
