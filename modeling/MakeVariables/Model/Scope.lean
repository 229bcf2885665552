import MakeVariables.Model.Table
/-!
# Chains — scopes, merges and the lookup

The operations of `variable.c` on `variable_set_list` chains:
`create_new_variable_set`, `push_new_variable_scope`, `pop_variable_scope`,
`install_file_context` / `restore_file_context`, `merge_variable_sets`,
`merge_variable_set_lists`, and the loop of `lookup_variable`.

The C loops follow `next` pointers until `NULL` or `&global_setlist` and
have no bound. Each is modelled with fuel: every link lives at an address
below `st.fresh`, so a chain that ends is shorter than that, and a result
of `none` means the loop would not end, or would dereference `NULL` or a
freed link.
-/

namespace MakeVariables

namespace State

/-- `free` every record of a set's table, as `hash_map` with
`free_variable_name_and_value` and `hash_free (…, 1)` do. -/
def freeRecords (st : State) (s : SetId) : State :=
  (st.table s).foldl freeVar st

end State

/-- `create_new_variable_set`: a new empty set, and a new link to it in
front of `current_variable_set_list` with `next_is_parent` clear. Both take
the fresh address, in their own heaps. The link is returned. -/
def createNewVariableSet (st : State) : ListId × State :=
  (st.fresh, (st.alloc.setTable st.fresh []).setList st.fresh ⟨st.current, st.fresh, false⟩)

/-- `push_new_variable_scope`. Off the global scope the new link goes in
front and becomes current. On it (`current->next == &global_setlist`)
the new link goes behind `global_setlist` instead: the two links swap sets,
so every chain through `global_setlist` sees the new empty set first and
`current` stays `&global_setlist`. -/
def pushNewVariableScope (st : State) : Option ListId × State :=
  let (l, st) := createNewVariableSet st
  let st := { st with current := some l }
  match st.lists l, st.lists globalSetlist with
  | some n, some g =>
    if n.next = some globalSetlist then
      let st := st.setList l { n with set := g.set, next := g.next }
      let st := st.setList globalSetlist { g with set := n.set, next := some l }
      (some globalSetlist, { st with current := some globalSetlist })
    else (some l, st)
  | _, _ => (some l, st)

/-- `pop_variable_scope`. `none` when `assert (current_variable_set_list->next
!= NULL)` fails. Off the global scope the current link is dropped; on it
the link behind `global_setlist` is copied into it and dropped. The dropped
link, its set and the set's records are freed. -/
def popVariableScope (st : State) : Option State :=
  match st.current with
  | none => none
  | some cur =>
    match st.lists cur with
    | none => none
    | some c =>
      match c.next with
      | none => none
      | some nxt =>
        if cur ≠ globalSetlist then
          some { (((st.freeList cur).freeRecords c.set).freeSet c.set) with current := some nxt }
        else
          match st.lists nxt with
          | none => none
          | some n =>
            let st := st.setList globalSetlist ⟨n.next, n.set, n.nextIsParent⟩
            some (((st.freeList nxt).freeRecords c.set).freeSet c.set)

/-- `install_file_context`: make the file's chain current; the old current
chain is returned for `restore_file_context`. (`reading_file` is not
modelled.) -/
def installFileContext (f : FileId) (st : State) : Option ListId × State :=
  (st.current, { st with current := (st.files f).bind File.variablesList })

/-- `restore_file_context`. -/
def restoreFileContext (old : Option ListId) (st : State) : State :=
  { st with current := old }

/-- The loop of `lookup_variable` from link `l`: the first record of the
name that is not private or is met before a `next_is_parent` link has
been crossed. `some none` is a walk that reached `NULL` without one. -/
def lookupVariableFrom (st : State) (name : String) :
    Nat → Option ListId → Bool → Option (Option VarId)
  | _, none, _ => some none
  | 0, some _, _ => none
  | fuel + 1, some l, isParent =>
    match st.lists l with
    | none => none
    | some n =>
      match st.findSlot n.set name with
      | some (v, x) =>
        if !isParent || !x.privateVar then some (some v)
        else lookupVariableFrom st name fuel n.next (isParent || n.nextIsParent)
      | none => lookupVariableFrom st name fuel n.next (isParent || n.nextIsParent)

/-- The walk of `lookup_variable` from `current_variable_set_list`. A walk
that ends meets each link at most twice (once before and once after a
`next_is_parent` link), so `2 * st.fresh + 1` steps are enough. -/
def lookupVariableChain (st : State) (name : String) : Option (Option VarId) :=
  lookupVariableFrom st name (2 * st.fresh + 1) st.current false

/-- One turn of the loop of `merge_variable_sets`, on the record `u` of
`from_set`: it moves into `to_set` when `to_set` has none of its name, and
is freed otherwise while its slot in `from_set` stays (the `GKM FIXME`).
Moves into `global_variable_set` count in `variable_changenum`. -/
def mergeVariableStep (toSet : SetId) (st : State) (u : VarId) : State :=
  match st.vars u with
  | none => st
  | some x =>
    match st.findSlot toSet x.name with
    | none => (st.setTable toSet (st.table toSet ++ [u])).bumpIf (toSet = globalVariableSet)
    | some _ => st.freeVar u

/-- `merge_variable_sets`: the loop over the slots of `from_set`. -/
def mergeVariableSets (toSet fromSet : SetId) (st : State) : State :=
  (st.table fromSet).foldl (mergeVariableStep toSet) st

/-- The first loop of `merge_variable_set_lists`: whether `target` is a
link of the chain from `to` before `global_setlist`. -/
def chainHasBefore (st : State) (target : ListId) : Nat → Option ListId → Option Bool
  | _, none => none
  | 0, some _ => none
  | fuel + 1, some l =>
    if l = globalSetlist then some false
    else if l = target then some true
    else (st.lists l).bind fun n => chainHasBefore st target fuel n.next

/-- The second loop of `merge_variable_set_lists`: walk both chains in step
until either reaches `global_setlist`, folding each set of the second into
the aligned set of the first. Returns where the second chain stopped and
the last link of the first that was visited. The source's `to` is
`dest` here, `to` being a keyword under Mathlib. -/
def mergeSetLoop (st : State) :
    Nat → Option ListId → Option ListId → Option ListId →
      Option (Option ListId × Option ListId × State)
  | fuel, setlist1, dest, last0 =>
    if setlist1 = some globalSetlist ∨ dest = some globalSetlist then some (setlist1, last0, st)
    else
      match fuel, setlist1, dest with
      | fuel + 1, some a, some t =>
        match st.lists a, st.lists t with
        | some na, some nt =>
          mergeSetLoop (mergeVariableSets nt.set na.set st) fuel na.next nt.next (some t)
        | _, _ => none
      | _, _, _ => none

/-- `merge_variable_set_lists (&file->variables, setlist1)`, for the file
`f0` every caller passes. `none` when a loop would not end or would
dereference `NULL`. -/
def mergeVariableSetLists (f0 : FileId) (setlist1 : Option ListId) (st : State) : Option State :=
  match st.files f0, setlist1 with
  | none, _ => none
  | some _, none => some st
  | some file, some s1 =>
    if s1 = globalSetlist then some st
    else
      let finish (last0 : Option ListId) (rest : Option ListId) (st : State) : Option State :=
        if rest = some globalSetlist then some st
        else match last0 with
          | none => some (st.setFile f0 { file with variablesList := rest })
          | some l => (st.lists l).map fun n => st.setList l { n with next := rest }
      match file.variablesList with
      | none => finish none (some s1) st
      | some t =>
        match chainHasBefore st s1 st.fresh (some t) with
        | none => none
        | some true => some st
        | some false =>
          match mergeSetLoop st st.fresh (some s1) (some t) none with
          | none => none
          | some (rest, last0, st') => finish last0 rest st'

end MakeVariables
