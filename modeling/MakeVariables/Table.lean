import MakeVariables.Model.Table
import Mathlib.Data.List.Nodup
/-!
# Tables — a variable set is a finite map under the precedence gate

A table that holds each address once, only live records below the
allocation frontier and no two records of one name (`TableWF`) is read as
a finite map from names to bindings (`State.read`). Under that reading
`define_variable_in_set` and `undefine_variable_in_set` are the two
updates `refDefine` and `refUndefine` written from the gate's statement,
and both keep the table well formed, so any sequence of them on one set
is the fold of the reference updates (`runTable_read`).

Everything goes through one characterisation of the lookup
(`findSlot_eq_some`): in a well-formed table the slot found for a name is
the one record of that name, whatever its position.
-/

namespace MakeVariables

/-- **The table invariant**: no address twice, every address allocated
and live, and no two records of one name. -/
structure TableWF (st : State) (s : SetId) : Prop where
  nodup : (st.table s).Nodup
  lt_fresh : ∀ v ∈ st.table s, v < st.fresh
  live : ∀ v ∈ st.table s, (st.vars v).isSome
  name_inj : ∀ u ∈ st.table s, ∀ w ∈ st.table s, ∀ x y : Variable,
    st.vars u = some x → st.vars w = some y → x.name = y.name → u = w

/-- The reference reading of a table: a finite map from names. -/
abbrev TableMap := String → Option Binding

namespace State

/-- What the table of `s` says of each name. -/
def read (st : State) (s : SetId) : TableMap :=
  fun name => (st.findSlot s name).map fun p => p.2.binding

theorem slotOf_eq_some {st : State} {name : String} {u v : VarId} {x : Variable} :
    st.slotOf name u = some (v, x) ↔ u = v ∧ st.vars u = some x ∧ x.name = name := by
  unfold slotOf
  cases hu : st.vars u with
  | none => simp
  | some y =>
    by_cases hy : y.name = name
    · simp only [hy, Option.some_bind, if_true, Option.some.injEq, Prod.mk.injEq]
      constructor
      · rintro ⟨rfl, rfl⟩; exact ⟨rfl, rfl, hy⟩
      · rintro ⟨rfl, rfl, -⟩; exact ⟨rfl, rfl⟩
    · simp only [hy, Option.some_bind, if_false]
      constructor
      · intro h; cases h
      · rintro ⟨-, h1, h2⟩; cases h1; exact absurd h2 hy

theorem findSlot_eq_none {st : State} {s : SetId} {name : String} :
    st.findSlot s name = none ↔ ∀ u ∈ st.table s, ∀ x, st.vars u = some x → x.name ≠ name := by
  simp only [findSlot, List.findSome?_eq_none_iff]
  refine forall₂_congr fun u _ => ?_
  unfold slotOf
  cases st.vars u <;> simp

/-- The slot found for a name holds a live record of that name. -/
theorem findSlot_mem {st : State} {s : SetId} {name : String} {v : VarId} {x : Variable}
    (hf : st.findSlot s name = some (v, x)) : v ∈ st.table s ∧ st.vars v = some x ∧ x.name = name := by
  obtain ⟨u, hu, hs⟩ := List.exists_of_findSome?_eq_some hf
  obtain ⟨rfl, hx, hn⟩ := slotOf_eq_some.1 hs
  exact ⟨hu, hx, hn⟩

/-- **The lookup in a well-formed table**: the slot found for a name is
the one record of that name. -/
theorem findSlot_eq_some {st : State} {s : SetId} (h : TableWF st s) {name : String}
    {v : VarId} {x : Variable} :
    st.findSlot s name = some (v, x) ↔ v ∈ st.table s ∧ st.vars v = some x ∧ x.name = name := by
  refine ⟨findSlot_mem, ?_⟩
  · rintro ⟨hv, hx, hn⟩
    cases hf : st.findSlot s name with
    | none => exact absurd hn (findSlot_eq_none.1 hf v hv x hx)
    | some p =>
      obtain ⟨u, hu, hs⟩ := List.exists_of_findSome?_eq_some hf
      obtain ⟨rfl, hy, hm⟩ := slotOf_eq_some.1 hs
      obtain rfl := h.name_inj _ hu v hv _ x hy hx (hm.trans hn.symm)
      rw [hx] at hy
      cases hy
      rfl

/-- The reading of a well-formed table, record by record. -/
theorem read_eq_some {st : State} {s : SetId} (h : TableWF st s) {name : String} {b : Binding} :
    st.read s name = some b ↔
      ∃ v x, v ∈ st.table s ∧ st.vars v = some x ∧ x.name = name ∧ x.binding = b := by
  simp only [read, Option.map_eq_some', Prod.exists, findSlot_eq_some h]
  constructor
  · rintro ⟨v, x, ⟨hv, hx, hn⟩, rfl⟩; exact ⟨v, x, hv, hx, hn, rfl⟩
  · rintro ⟨v, x, hv, hx, hn, rfl⟩; exact ⟨v, x, ⟨hv, hx, hn⟩, rfl⟩

theorem read_of_slot {st : State} {s : SetId} (h : TableWF st s) {v : VarId} {x : Variable}
    (hv : v ∈ st.table s) (hx : st.vars v = some x) : st.read s x.name = some x.binding :=
  (read_eq_some h).2 ⟨v, x, hv, hx, rfl, rfl⟩

end State

open State

/-! ## The three table edits -/

section edits

variable {st : State} {s : SetId} {v : VarId} {x y : Variable}

/-- Rewriting a record in place, under its own name, keeps the table well formed. -/
theorem TableWF.setVar (h : TableWF st s) (hv : v ∈ st.table s) (hx : st.vars v = some x)
    (hy : y.name = x.name) : TableWF (st.setVar v y) s := by
  have hvars : ∀ u, (st.setVar v y).vars u = if u = v then some y else st.vars u := fun u => by
    by_cases hu : u = v <;> simp [hu, Function.update_noteq]
  refine ⟨h.nodup, h.lt_fresh, fun u hu => ?_, fun u hu w hw x' y' hx' hy' hn => ?_⟩
  · rw [hvars]; split_ifs <;> simp [h.live u hu]
  · rw [hvars] at hx' hy'
    split_ifs at hx' hy' with h1 h2 h2
    · exact h1.trans h2.symm
    · subst h1; cases hx'; exact h.name_inj u hv w hw x y' hx hy' (hy ▸ hn)
    · subst h2; cases hy'; exact h.name_inj u hu w hv x' x hx' hx (hn.trans hy)
    · exact h.name_inj u hu w hw x' y' hx' hy' hn

/-- And reads as the map updated at that name. -/
theorem read_setVar (h : TableWF st s) (hv : v ∈ st.table s) (hx : st.vars v = some x)
    (hy : y.name = x.name) :
    (st.setVar v y).read s = Function.update (st.read s) x.name (some y.binding) := by
  have h' := h.setVar hv hx hy
  funext n
  by_cases hn : n = x.name
  · subst hn
    rw [Function.update_same, ← hy]
    exact read_of_slot h' hv (by simp)
  · rw [Function.update_noteq hn]
    refine Option.ext fun b => ?_
    rw [Option.mem_def, Option.mem_def, read_eq_some h', read_eq_some h]
    refine exists_congr fun u => exists_congr fun z => ?_
    by_cases hu : u = v
    · subst hu
      simp only [setVar, Function.update_same, Option.some.injEq, setTable]
      constructor
      · rintro ⟨-, rfl, hzn, -⟩; exact absurd (hzn.symm.trans hy) hn
      · rintro ⟨-, hz, hzn, -⟩; rw [hx] at hz; cases hz; exact absurd hzn.symm hn
    · simp [Function.update_noteq hu, State.table]

/-- A new record, of a name the table does not hold, at the fresh
address, appended. -/
theorem TableWF.insert (h : TableWF st s) (hnone : st.findSlot s x.name = none) :
    TableWF ((st.alloc.setVar st.fresh x).setTable s (st.table s ++ [st.fresh])) s := by
  have hfree : st.fresh ∉ st.table s := fun hm => Nat.lt_irrefl _ (h.lt_fresh _ hm)
  have hvars : ∀ u ∈ st.table s,
      ((st.alloc.setVar st.fresh x).setTable s (st.table s ++ [st.fresh])).vars u = st.vars u :=
    fun u hu => by simp [Function.update_noteq (fun he : u = st.fresh => hfree (he ▸ hu))]
  have hnm := findSlot_eq_none.1 hnone
  refine ⟨?_, ?_, ?_, ?_⟩ <;> simp only [table_setTable_self, List.mem_append, List.mem_singleton]
  · exact h.nodup.append (List.nodup_singleton _) (List.disjoint_singleton.2 hfree)
  · rintro u (hu | rfl)
    · exact Nat.lt_succ_of_lt (h.lt_fresh u hu)
    · exact Nat.lt_succ_self _
  · rintro u (hu | rfl)
    · rw [hvars u hu]; exact h.live u hu
    · simp
  · rintro u (hu | rfl) w (hw | rfl) x' y' hx' hy' hn
    · rw [hvars u hu] at hx'; rw [hvars w hw] at hy'
      exact h.name_inj u hu w hw x' y' hx' hy' hn
    · rw [hvars u hu] at hx'; simp at hy'
      subst hy'; exact absurd hn (hnm u hu x' hx')
    · rw [hvars w hw] at hy'; simp at hx'
      subst hx'; exact absurd hn.symm (hnm w hw y' hy')
    · rfl

/-- And reads as the map with the new name bound. -/
theorem read_insert (h : TableWF st s) (hnone : st.findSlot s x.name = none) :
    ((st.alloc.setVar st.fresh x).setTable s (st.table s ++ [st.fresh])).read s =
      Function.update (st.read s) x.name (some x.binding) := by
  have h' := h.insert hnone
  have hfree : st.fresh ∉ st.table s := fun hm => Nat.lt_irrefl _ (h.lt_fresh _ hm)
  funext n
  by_cases hn : n = x.name
  · subst hn
    rw [Function.update_same]
    exact read_of_slot h' (v := st.fresh) (by simp [State.table]) (by simp)
  · rw [Function.update_noteq hn]
    refine Option.ext fun b => ?_
    rw [Option.mem_def, Option.mem_def, read_eq_some h', read_eq_some h]
    refine exists_congr fun u => exists_congr fun z => ?_
    by_cases hu : u = st.fresh
    · subst hu
      simp only [setTable, setVar, alloc, Function.update_same, Option.some.injEq]
      constructor
      · rintro ⟨-, rfl, hzn, -⟩; exact absurd hzn.symm hn
      · rintro ⟨hm, -⟩; exact absurd hm hfree
    · simp [Function.update_noteq hu, State.table, hu]

/-- Removing a record and freeing it keeps the table well formed. -/
theorem TableWF.erase (h : TableWF st s) :
    TableWF ((st.setTable s ((st.table s).erase v)).freeVar v) s := by
  have hmem : ∀ u, u ∈ (st.table s).erase v ↔ u ≠ v ∧ u ∈ st.table s :=
    fun u => h.nodup.mem_erase_iff
  have hvars : ∀ u ∈ (st.table s).erase v,
      ((st.setTable s ((st.table s).erase v)).freeVar v).vars u = st.vars u :=
    fun u hu => by simp [Function.update_noteq ((hmem u).1 hu).1]
  refine ⟨?_, ?_, ?_, ?_⟩ <;> simp only [freeVar_table, table_setTable_self]
  · exact h.nodup.erase v
  · exact fun u hu => h.lt_fresh u ((hmem u).1 hu).2
  · exact fun u hu => by rw [hvars u hu]; exact h.live u ((hmem u).1 hu).2
  · intro u hu w hw x' y' hx' hy' hn
    rw [hvars u hu] at hx'; rw [hvars w hw] at hy'
    exact h.name_inj u ((hmem u).1 hu).2 w ((hmem w).1 hw).2 x' y' hx' hy' hn

/-- And reads as the map with the record's name unbound. -/
theorem read_erase (h : TableWF st s) (hv : v ∈ st.table s) (hx : st.vars v = some x) :
    ((st.setTable s ((st.table s).erase v)).freeVar v).read s =
      Function.update (st.read s) x.name none := by
  have h' := h.erase (v := v)
  have hmem : ∀ u, u ∈ (st.table s).erase v ↔ u ≠ v ∧ u ∈ st.table s :=
    fun u => h.nodup.mem_erase_iff
  funext n
  refine Option.ext fun b => ?_
  rw [Option.mem_def, Option.mem_def, read_eq_some h']
  by_cases hn : n = x.name
  · subst hn
    rw [Function.update_same]
    simp only [freeVar_table, table_setTable_self, hmem, reduceCtorEq, iff_false, not_exists,
      not_and]
    intro u z ⟨hu, hm⟩ hz hzn _
    simp only [freeVar, setTable, Function.update_noteq hu] at hz
    exact hu (h.name_inj u hm v hv z x hz hx hzn)
  · rw [Function.update_noteq hn, read_eq_some h]
    refine exists_congr fun u => exists_congr fun z => ?_
    simp only [freeVar_table, table_setTable_self, hmem]
    by_cases hu : u = v
    · subst hu
      simp only [ne_eq, not_true_eq_false, false_and, false_iff, not_and]
      intro _ hz hzn
      rw [hx] at hz; cases hz; exact fun _ => hn hzn.symm
    · simp [Function.update_noteq hu, hu]

end edits

/-! ## The reference semantics, and the refinement -/

/-- **`define` as the gate states it**: bind the name when it is unbound
or when the incoming origin is at least the stored one, both normalised
under `-e`; otherwise keep the binding, its origin normalised. -/
def refDefine (envOverrides : Bool) (name value : String) (origin : VariableOrigin)
    (recursive : Bool) (m : TableMap) : TableMap :=
  let o := normalizeOrigin envOverrides origin
  Function.update m name <| some <|
    match m name with
    | none => ⟨value, o, recursive⟩
    | some b =>
      if (normalizeOrigin envOverrides b.origin).toNat ≤ o.toNat then ⟨value, o, recursive⟩
      else { b with origin := normalizeOrigin envOverrides b.origin }

/-- **`undefine` as the gate states it**: unbind the name when the
incoming origin is at least the stored one, both normalised; otherwise
keep the binding, its origin normalised. -/
def refUndefine (envOverrides : Bool) (name : String) (origin : VariableOrigin)
    (m : TableMap) : TableMap :=
  match m name with
  | none => m
  | some b =>
    if (normalizeOrigin envOverrides b.origin).toNat ≤ (normalizeOrigin envOverrides origin).toNat
    then Function.update m name none
    else Function.update m name (some { b with origin := normalizeOrigin envOverrides b.origin })

section spec

variable {st : State} {s : SetId} (envOverrides : Bool) (name value : String)
  (origin : VariableOrigin) (recursive : Bool) (flocp : Option Floc)

theorem read_bumpIf (b : Prop) [Decidable b] : (st.bumpIf b).read s = st.read s := rfl

theorem TableWF.bumpIf (h : TableWF st s) (b : Prop) [Decidable b] : TableWF (st.bumpIf b) s :=
  ⟨h.nodup, h.lt_fresh, h.live, h.name_inj⟩

/-- **`define_variable_in_set` is `refDefine`** on a well-formed table. -/
theorem defineVariableInSet_spec (h : TableWF st s) :
    TableWF (defineVariableInSet envOverrides name value origin recursive (some s) flocp st).2 s ∧
      (defineVariableInSet envOverrides name value origin recursive (some s) flocp st).2.read s =
        refDefine envOverrides name value origin recursive (st.read s) := by
  unfold defineVariableInSet
  simp only [Option.getD_some]
  cases hf : st.findSlot s name with
  | none =>
    have hr : st.read s name = none := by simp [State.read, hf]
    dsimp only
    exact ⟨(h.insert hf).bumpIf _, by
      rw [read_bumpIf, read_insert h hf]; simp [refDefine, hr, Variable.binding]⟩
  | some p =>
    obtain ⟨v, x⟩ := p
    obtain ⟨hv, hx, rfl⟩ := (findSlot_eq_some h).1 hf
    have hr := read_of_slot h hv hx
    dsimp only
    split_ifs with hle <;> refine ⟨h.setVar hv hx rfl, ?_⟩ <;> rw [read_setVar h hv hx] <;>
      first | rfl | simp [refDefine, hr, hle, Variable.binding]

/-- **`undefine_variable_in_set` is `refUndefine`** on a well-formed table. -/
theorem undefineVariableInSet_spec (h : TableWF st s) :
    TableWF (undefineVariableInSet envOverrides name origin (some s) st) s ∧
      (undefineVariableInSet envOverrides name origin (some s) st).read s =
        refUndefine envOverrides name origin (st.read s) := by
  unfold undefineVariableInSet
  simp only [Option.getD_some]
  cases hf : st.findSlot s name with
  | none =>
    have hr : st.read s name = none := by simp [State.read, hf]
    exact ⟨h, by dsimp only; simp [refUndefine, hr]⟩
  | some p =>
    obtain ⟨v, x⟩ := p
    obtain ⟨hv, hx, rfl⟩ := (findSlot_eq_some h).1 hf
    have hr := read_of_slot h hv hx
    dsimp only
    split_ifs with hle
    · exact ⟨h.erase.bumpIf _, by
        rw [read_bumpIf, read_erase h hv hx]; simp [refUndefine, hr, hle, Variable.binding]⟩
    · refine ⟨h.setVar hv hx rfl, ?_⟩
      rw [read_setVar h hv hx] <;> first | rfl | simp [refUndefine, hr, hle, Variable.binding]

end spec

/-- One call on a variable set: a definition or an undefinition. -/
inductive TableOp
  | define (name value : String) (origin : VariableOrigin) (recursive : Bool)
      (flocp : Option Floc)
  | undefine (name : String) (origin : VariableOrigin)

namespace TableOp

/-- The call, made on set `s`. -/
def run (envOverrides : Bool) (s : SetId) : TableOp → State → State
  | define name value origin recursive flocp, st =>
    (defineVariableInSet envOverrides name value origin recursive (some s) flocp st).2
  | undefine name origin, st => undefineVariableInSet envOverrides name origin (some s) st

/-- The reference update it stands for. -/
def ref (envOverrides : Bool) : TableOp → TableMap → TableMap
  | define name value origin recursive _ => refDefine envOverrides name value origin recursive
  | undefine name origin => refUndefine envOverrides name origin

end TableOp

/-- A sequence of calls on set `s`, in order. -/
def runTable (envOverrides : Bool) (s : SetId) (ops : List TableOp) (st : State) : State :=
  ops.foldl (fun st op => op.run envOverrides s st) st

/-- **A variable set is a finite map under the precedence gate.** From a
well-formed table, any sequence of `define_variable_in_set` and
`undefine_variable_in_set` calls on it, with `env_overrides` fixed, leaves
a table with no two records of one name whose reading is the fold of the
reference updates over the reading it started from. -/
theorem runTable_read (envOverrides : Bool) (s : SetId) (ops : List TableOp) {st : State}
    (h : TableWF st s) :
    TableWF (runTable envOverrides s ops st) s ∧
      (runTable envOverrides s ops st).read s =
        ops.foldl (fun m op => op.ref envOverrides m) (st.read s) := by
  induction ops generalizing st with
  | nil => exact ⟨h, rfl⟩
  | cons op ops ih =>
    have step : TableWF (op.run envOverrides s st) s ∧
        (op.run envOverrides s st).read s = op.ref envOverrides (st.read s) := by
      cases op with
      | define name value origin recursive flocp =>
        exact defineVariableInSet_spec envOverrides name value origin recursive flocp h
      | undefine name origin => exact undefineVariableInSet_spec envOverrides name origin h
    obtain ⟨hwf, hread⟩ := ih step.1
    exact ⟨hwf, by rw [runTable, List.foldl_cons, ← runTable, hread, step.2]; rfl⟩

theorem tableWF_initial : TableWF State.initial globalVariableSet := by
  refine ⟨?_, ?_, ?_, ?_⟩ <;> simp [State.table, State.initial]

/-- The refinement at the start of a run: `X` defined in the makefile,
overridden from the command line, then an environment undefinition that
the gate turns away. -/
theorem runTable_read_initial :
    TableWF State.initial globalVariableSet ∧
      (TableWF (runTable false globalVariableSet
          [.define "X" "a" .file false none, .define "X" "b" .command true none,
            .undefine "X" .env] State.initial) globalVariableSet ∧
        (runTable false globalVariableSet
          [.define "X" "a" .file false none, .define "X" "b" .command true none,
            .undefine "X" .env] State.initial).read globalVariableSet =
        [TableOp.define "X" "a" .file false none, .define "X" "b" .command true none,
            .undefine "X" .env].foldl (fun m op => op.ref false m)
          (State.initial.read globalVariableSet)) :=
  ⟨tableWF_initial, runTable_read false globalVariableSet _ tableWF_initial⟩

/-- `X = a`, read from a makefile, defined in `global_variable_set` from the
initial state: a state where a lookup of `X` finds a record. -/
def definedX : State :=
  (defineVariableInSet false "X" "a" .file true (some globalVariableSet) none State.initial).2

theorem tableWF_definedX : TableWF definedX globalVariableSet :=
  (defineVariableInSet_spec false "X" "a" .file true none tableWF_initial).1

end MakeVariables
