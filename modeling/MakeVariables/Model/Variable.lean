import Mathlib.Logic.Function.Basic
/-!
# Variables — the record and its enums

`struct variable` as `variable.c` reads and writes it, with the three
enums it carries. Only the fields some modelled function reads or writes
are kept: `length` is the length of `name`, which the string carries, and
`expanding` and `exp_count` belong to the reference evaluator. The enums
are declared in `variable.h`, which is not among the sources, so their
members carry the names the source uses and the order of
`enum variable_origin` is taken from the spec.
-/

namespace MakeVariables

/-- Modelled from the spec: `enum variable_origin` of `variable.h`, whose
declaration is missing. The constructors follow the precedence ladder of
§4.1 (automatic < default < environment < makefile < environment under
`-e` < command line < `override`), which is also the order in which
`jprint_variable` lists them. `o_invalid` is never stored and is left out. -/
inductive VariableOrigin
  | automatic
  | default
  | env
  | file
  | envOverride
  | command
  | override
  deriving DecidableEq, Repr

namespace VariableOrigin

/-- The integer value of the enum constant, which `(int) origin` reads. -/
def toNat : VariableOrigin → Nat
  | automatic => 0
  | default => 1
  | env => 2
  | file => 3
  | envOverride => 4
  | command => 5
  | override => 6

end VariableOrigin

/-- Modelled from the spec: `enum variable_flavor` of `variable.h`, whose
declaration is missing; the members are the `f_…` constants the source
names. -/
inductive VariableFlavor
  | bogus
  | simple
  | recursive
  | expand
  | append
  | conditional
  | shell
  | appendValue
  deriving DecidableEq, Repr

/-- Modelled from the spec: `enum variable_export` of `variable.h`, whose
declaration is missing; the members are the `v_…` constants the source
names. -/
inductive VariableExport
  | default
  | export
  | noexport
  | ifset
  deriving DecidableEq, Repr

/-- `floc`: where a definition was read. `filenm` is a nullable pointer. -/
structure Floc where
  filenm : Option String
  lineno : Nat
  offset : Nat
  deriving DecidableEq, Repr

/-- The `floc` of a zero-filled record, as `xcalloc` leaves it. -/
def Floc.zero : Floc := ⟨none, 0, 0⟩

/-- `struct variable`, restricted to the fields the modelled functions use. -/
structure Variable where
  name : String
  value : String
  fileinfo : Floc
  origin : VariableOrigin
  flavor : VariableFlavor
  recursive : Bool
  append : Bool
  conditional : Bool
  perTarget : Bool
  special : Bool
  exportable : Bool
  exportStatus : VariableExport
  privateVar : Bool
  deriving DecidableEq, Repr

/-- What a set's contents say of one name: the value, the origin and the
recursive flag, the three fields the precedence gate governs. -/
structure Binding where
  value : String
  origin : VariableOrigin
  recursive : Bool
  deriving DecidableEq, Repr

/-- The binding a variable record carries. -/
def Variable.binding (v : Variable) : Binding := ⟨v.value, v.origin, v.recursive⟩

end MakeVariables
