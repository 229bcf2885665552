import MakeVariables.Model.Variable
/-!
# The store — records, tables, chains and files

The globals of `variable.c` and the objects they point to, as one state.
Every `malloc`ed object lives in a heap indexed by its address: a
`struct variable` in `vars`, the table of a `struct variable_set` in
`sets`, a `struct variable_set_list` in `lists`. An address reads `none`
once freed. A table is the list of the records it holds, in table order
(the hash table's slot order is not modelled; every operation below puts
a new record at the end and replaces or removes one in place).

`global_setlist` and `global_variable_set` are statics, at address `0` of
their heaps. New objects take the address `fresh`, which then moves on.
-/

namespace MakeVariables

/-- The address of a `struct variable`. -/
abbrev VarId := Nat
/-- The address of a `struct variable_set`. -/
abbrev SetId := Nat
/-- The address of a `struct variable_set_list`. -/
abbrev ListId := Nat
/-- The address of a `struct file`. -/
abbrev FileId := Nat

/-- `struct variable_set_list`: one link of a chain of variable sets. -/
structure SetList where
  next : Option ListId
  set : SetId
  nextIsParent : Bool
  deriving DecidableEq, Repr

/-- `struct file`, restricted to the fields the variable engine reads. -/
structure File where
  name : String
  variablesList : Option ListId
  patVariables : Option ListId
  parent : Option FileId
  doubleColon : Option FileId
  patSearched : Bool
  deriving DecidableEq, Repr

/-- The state of `variable.c`: its heaps, `current_variable_set_list`,
`variable_changenum`, and the `last_changenum` static of
`lookup_special_var`. -/
structure State where
  vars : VarId → Option Variable
  sets : SetId → Option (List VarId)
  lists : ListId → Option SetList
  files : FileId → Option File
  current : Option ListId
  changenum : Nat
  lastChangenum : Nat
  fresh : Nat

/-- `&global_setlist`. -/
def globalSetlist : ListId := 0

/-- `&global_variable_set`. -/
def globalVariableSet : SetId := 0

namespace State

/-- The state before the first definition: `global_setlist` alone, empty,
and current. -/
def initial : State where
  vars := fun _ => none
  sets := fun s => if s = globalVariableSet then some [] else none
  lists := fun l => if l = globalSetlist then some ⟨none, globalVariableSet, false⟩ else none
  files := fun _ => none
  current := some globalSetlist
  changenum := 0
  lastChangenum := 0
  fresh := 1

/-- The records of a set's table, in table order. -/
def table (st : State) (s : SetId) : List VarId := (st.sets s).getD []

/-- Write one record. -/
@[simp] def setVar (st : State) (v : VarId) (x : Variable) : State :=
  { st with vars := Function.update st.vars v (some x) }

/-- `free` one record. -/
@[simp] def freeVar (st : State) (v : VarId) : State :=
  { st with vars := Function.update st.vars v none }

/-- Replace a set's table. -/
@[simp] def setTable (st : State) (s : SetId) (t : List VarId) : State :=
  { st with sets := Function.update st.sets s (some t) }

/-- `hash_free` and `free` of a whole set. -/
@[simp] def freeSet (st : State) (s : SetId) : State :=
  { st with sets := Function.update st.sets s none }

/-- Write one chain link. -/
@[simp] def setList (st : State) (l : ListId) (n : SetList) : State :=
  { st with lists := Function.update st.lists l (some n) }

/-- `free` one chain link. -/
@[simp] def freeList (st : State) (l : ListId) : State :=
  { st with lists := Function.update st.lists l none }

/-- Write one file. -/
@[simp] def setFile (st : State) (f : FileId) (x : File) : State :=
  { st with files := Function.update st.files f (some x) }

/-- Take the next fresh address. -/
@[simp] def alloc (st : State) : State := { st with fresh := st.fresh + 1 }

/-- `++variable_changenum` when `b`. -/
@[simp] def bumpIf (st : State) (b : Prop) [Decidable b] : State :=
  { st with changenum := if b then st.changenum + 1 else st.changenum }

/-- The record at `v`, with its address, when it is named `name`:
`variable_hash_cmp` compares the length and then the bytes. -/
def slotOf (st : State) (name : String) (v : VarId) : Option (VarId × Variable) :=
  (st.vars v).bind fun x => if x.name = name then some (v, x) else none

/-- The record and address of the entry of `s` named `name`, as
`hash_find_slot` finds it. -/
def findSlot (st : State) (s : SetId) (name : String) : Option (VarId × Variable) :=
  (st.table s).findSome? (st.slotOf name)

@[simp] theorem table_setTable_self (st : State) (s : SetId) (t : List VarId) :
    (st.setTable s t).table s = t := by
  simp [table]

@[simp] theorem freeVar_table (st : State) (v : VarId) (s : SetId) :
    (st.freeVar v).table s = st.table s := rfl

@[simp] theorem setVar_table (st : State) (v : VarId) (x : Variable) (s : SetId) :
    (st.setVar v x).table s = st.table s := rfl

theorem table_setTable_of_ne (st : State) {s s' : SetId} (t : List VarId) (h : s' ≠ s) :
    (st.setTable s t).table s' = st.table s' := by
  simp [table, Function.update_noteq h]

end State

end MakeVariables
