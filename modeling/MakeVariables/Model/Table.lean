import MakeVariables.Model.State
/-!
# Tables — `define_variable_in_set` and `undefine_variable_in_set`

The two precedence-gated writes to one variable set, and the lookup in a
single set. Both writes first normalise `o_env` to `o_env_override` under
`-e` (`env_overrides`), for the incoming origin and for the stored one, and
then act only if the incoming origin is at least the stored one.
`check_valid_name` only warns and is not modelled.
-/

namespace MakeVariables

/-- `env_overrides && origin == o_env ? o_env_override : origin`. -/
def normalizeOrigin (envOverrides : Bool) (o : VariableOrigin) : VariableOrigin :=
  if envOverrides ∧ o = .env then .envOverride else o

/-- A character `define_variable_in_set` accepts first in an exportable
name: `_` or an ASCII letter. -/
def isNameStart (c : Char) : Bool :=
  c = '_' ∨ ('A' ≤ c ∧ c ≤ 'Z') ∨ ('a' ≤ c ∧ c ≤ 'z')

/-- A character it accepts after the first: also an ASCII digit. -/
def isNameChar (c : Char) : Bool :=
  isNameStart c ∨ ('0' ≤ c ∧ c ≤ '9')

/-- The `exportable` flag `define_variable_in_set` computes for a new
record: the first character must start a name and the scan of the rest
must reach the terminator. -/
def exportableName (name : String) : Bool :=
  match name.toList with
  | [] => false
  | c :: cs => isNameStart c ∧ cs.all isNameChar

/-- `define_variable_in_set`: gate, then replace in place, or create the
record (zero-filled by `xcalloc`, `export = v_default`) at the end of the
table, counting a new global name in `variable_changenum`. A `NULL` set is
`global_variable_set`. Returns the record's address with the new state. -/
def defineVariableInSet (envOverrides : Bool) (name value : String) (origin : VariableOrigin)
    (recursive : Bool) (set : Option SetId) (flocp : Option Floc) (st : State) :
    VarId × State :=
  let set := set.getD globalVariableSet
  let origin := normalizeOrigin envOverrides origin
  match st.findSlot set name with
  | some (v, x) =>
    let x := { x with origin := normalizeOrigin envOverrides x.origin }
    if x.origin.toNat ≤ origin.toNat then
      (v, st.setVar v { x with value := value, origin := origin, recursive := recursive,
                               fileinfo := flocp.getD { x.fileinfo with filenm := none } })
    else (v, st.setVar v x)
  | none =>
    let v := st.fresh
    let x : Variable :=
      { name := name, value := value, fileinfo := flocp.getD Floc.zero, origin := origin,
        flavor := .bogus, recursive := recursive, append := false, conditional := false,
        perTarget := false, special := false, exportable := exportableName name,
        exportStatus := .default, privateVar := false }
    (v, ((st.alloc.setVar v x).setTable set (st.table set ++ [v])).bumpIf
      (set = globalVariableSet))

/-- `undefine_variable_in_set`: gate, then `hash_delete_at` and `free`,
counting a removed global name in `variable_changenum`. -/
def undefineVariableInSet (envOverrides : Bool) (name : String) (origin : VariableOrigin)
    (set : Option SetId) (st : State) : State :=
  let set := set.getD globalVariableSet
  let origin := normalizeOrigin envOverrides origin
  match st.findSlot set name with
  | some (v, x) =>
    let x := { x with origin := normalizeOrigin envOverrides x.origin }
    if x.origin.toNat ≤ origin.toNat then
      (((st.setTable set ((st.table set).erase v)).freeVar v).bumpIf (set = globalVariableSet))
    else st.setVar v x
  | none => st

/-- `lookup_variable_in_set`. -/
def lookupVariableInSet (name : String) (set : SetId) (st : State) : Option VarId :=
  (st.findSlot set name).map Prod.fst

end MakeVariables
