import MakeVariables.Model.Special
import MakeVariables.Table
/-!
# `.VARIABLES` — the cache of the global names

`lookup_special_var` rebuilds the value of `.VARIABLES` only when
`variable_changenum` has moved since its last rebuild. Every insertion
into and removal from `global_variable_set` moves it, so over any run of
global definitions, undefinitions and lookups the cache is right
(`VariablesFresh`, `runVariables_fresh`): a lookup that resolves
`.VARIABLES` to its special global record returns the global names
(`VariablesFresh.lookup`), after any such run from the start of `main`
(`variables_lists_global_names`).

The one write the count does not see is an assignment to `.VARIABLES`
itself: it replaces the value in place, and the next lookup returns it
(`variables_assignment_returned_stale`).
-/

namespace MakeVariables

open State

/-- **What the cache of `.VARIABLES` promises**: `last_changenum` never
passes `variable_changenum`; while the two are equal, every record of
`global_variable_set` named `.VARIABLES` holds the global names; and a
special record of that name lies in `global_variable_set`. -/
structure VariablesFresh (st : State) : Prop where
  le : st.lastChangenum ≤ st.changenum
  cached : st.lastChangenum = st.changenum → ∀ v ∈ st.table globalVariableSet, ∀ x,
    st.vars v = some x → x.name = ".VARIABLES" → x.value = " ".intercalate st.globalNames
  special : ∀ v x, st.vars v = some x → x.special = true → x.name = ".VARIABLES" →
    v ∈ st.table globalVariableSet

section steps

variable {st : State} {v : VarId} {x y : Variable}

/-- Rewriting a record under its own name keeps the global names. -/
theorem globalNames_setVar (hx : st.vars v = some x) (hy : y.name = x.name) :
    (st.setVar v y).globalNames = st.globalNames := by
  unfold globalNames
  rw [setVar_table]
  refine List.filterMap_congr fun u _ => ?_
  by_cases hu : u = v
  · subst hu; simp [hx, hy]
  · simp [Function.update_noteq hu]

/-- A count that moves leaves the cache nothing to promise. -/
theorem VariablesFresh.of_bump {st' : State} (h : VariablesFresh st)
    (hc : st'.changenum = st.changenum + 1) (hl : st'.lastChangenum = st.lastChangenum)
    (hs : ∀ v x, st'.vars v = some x → x.special = true → x.name = ".VARIABLES" →
      v ∈ st'.table globalVariableSet) : VariablesFresh st' :=
  ⟨by rw [hc, hl]; exact Nat.le_succ_of_le h.le,
    fun he => by rw [hc, hl] at he; have := h.le; omega, hs⟩

/-- **A rewrite in place** of a global record, under its own name and
flags, keeps the cache, as long as it keeps the value of a `.VARIABLES`
record. -/
theorem VariablesFresh.setVar (h : VariablesFresh st) (hv : v ∈ st.table globalVariableSet)
    (hx : st.vars v = some x) (hy : y.name = x.name)
    (hval : x.name = ".VARIABLES" → y.value = x.value) : VariablesFresh (st.setVar v y) := by
  have hvars : ∀ u, (st.setVar v y).vars u = if u = v then some y else st.vars u := fun u => by
    by_cases hu : u = v <;> simp [hu, Function.update_noteq]
  refine ⟨h.le, fun he u hu z hz hzn => ?_, fun u z hz hzs hzn => ?_⟩
  · rw [globalNames_setVar hx hy]
    rw [hvars] at hz
    split_ifs at hz with huv
    · cases hz; subst huv
      rw [hval (hy ▸ hzn)]; exact h.cached he u hu x hx (hy ▸ hzn)
    · exact h.cached he u hu z hz hzn
  · rw [hvars] at hz
    split_ifs at hz with huv
    · exact huv ▸ hv
    · exact h.special u z hz hzs hzn

/-- **A definition in `global_variable_set`** of any name but `.VARIABLES`
keeps the cache. -/
theorem VariablesFresh.define (h : VariablesFresh st) {envOverrides : Bool} {name value : String} {origin : VariableOrigin} {recursive : Bool}
    {flocp : Option Floc} (hn : name ≠ ".VARIABLES") :
    VariablesFresh
      (defineVariableInSet envOverrides name value origin recursive (some globalVariableSet) flocp st).2 := by
  unfold defineVariableInSet
  simp only [Option.getD_some]
  cases hf : st.findSlot globalVariableSet name with
  | none =>
    refine h.of_bump (by simp) rfl fun u z hz hzs hzn => ?_
    simp only [State.bumpIf, State.setTable, State.setVar, State.alloc, State.table,
      Function.update_same, Option.getD_some, List.mem_append, List.mem_singleton] at hz ⊢
    by_cases hu : u = st.fresh
    · subst hu; simp at hz; subst hz; cases hzs
    · rw [Function.update_noteq hu] at hz
      exact .inl (h.special u z hz hzs hzn)
  | some p =>
    obtain ⟨v, x⟩ := p
    obtain ⟨hv, hx, rfl⟩ := findSlot_mem hf
    dsimp only
    split_ifs <;> exact h.setVar hv hx rfl fun e => absurd e hn

/-- **An undefinition in `global_variable_set`** keeps the cache: a
removal moves the count, a refusal keeps the value. -/
theorem VariablesFresh.undefine (h : VariablesFresh st) (hwf : TableWF st globalVariableSet)
    {envOverrides : Bool} {name : String} {origin : VariableOrigin} :
    VariablesFresh (undefineVariableInSet envOverrides name origin (some globalVariableSet) st) := by
  unfold undefineVariableInSet
  simp only [Option.getD_some]
  cases hf : st.findSlot globalVariableSet name with
  | none => exact h
  | some p =>
    obtain ⟨v, x⟩ := p
    obtain ⟨hv, hx, rfl⟩ := findSlot_mem hf
    dsimp only
    split_ifs
    · refine h.of_bump (by simp) rfl fun u z hz hzs hzn => ?_
      simp only [State.bumpIf, State.freeVar, State.setTable, State.table, Function.update_same,
        Option.getD_some] at hz ⊢
      by_cases hu : u = v
      · subst hu; simp at hz
      · rw [Function.update_noteq hu] at hz
        exact (hwf.nodup.mem_erase_iff).2 ⟨hu, h.special u z hz hzs hzn⟩
    · exact h.setVar hv hx rfl fun _ => rfl

/-- **`lookup_special_var` on a special record** keeps the cache and the
table, and leaves the global names in the record when it is `.VARIABLES`. -/
theorem VariablesFresh.refresh (h : VariablesFresh st) (hwf : TableWF st globalVariableSet)
    (hx : st.vars v = some x) (hsp : x.special = true) :
    VariablesFresh (lookupSpecialVar v st) ∧ TableWF (lookupSpecialVar v st) globalVariableSet ∧
      (x.name = ".VARIABLES" → ∃ y, (lookupSpecialVar v st).vars v = some y ∧
        y.value = " ".intercalate (lookupSpecialVar v st).globalNames) := by
  unfold MakeVariables.lookupSpecialVar
  rw [hx]
  dsimp only
  split_ifs with hre
  · obtain ⟨-, hname⟩ := hre
    have hv := h.special v x hx hsp hname
    set y : Variable := { x with value := " ".intercalate st.globalNames }
    have hnames : (st.setVar v y).globalNames = st.globalNames := globalNames_setVar hx rfl
    have hwf1 : TableWF (st.setVar v y) globalVariableSet := hwf.setVar hv hx rfl
    have hvars : ∀ u, (st.setVar v y).vars u = if u = v then some y else st.vars u := fun u => by
      by_cases hu : u = v <;> simp [hu, Function.update_noteq]
    refine ⟨⟨le_rfl, fun _ u hu z hz hzn => ?_, fun u z hz hzs hzn => ?_⟩,
      ⟨hwf1.nodup, hwf1.lt_fresh, hwf1.live, hwf1.name_inj⟩,
      fun _ => ⟨y, by simp, congrArg (" ".intercalate ·) hnames.symm⟩⟩
    · have huv : u = v := hwf1.name_inj u hu v hv z y hz (hvars v ▸ if_pos rfl) (hzn.trans hname.symm)
      subst huv
      rw [hvars, if_pos rfl] at hz
      cases hz
      exact congrArg (" ".intercalate ·) hnames.symm
    · rw [hvars] at hz
      split_ifs at hz with huv
      · exact huv ▸ hv
      · exact h.special u z hz hzs hzn
  · refine ⟨h, hwf, fun hname => ⟨x, hx, ?_⟩⟩
    have hc : st.lastChangenum = st.changenum := by
      by_contra hne; exact hre ⟨Ne.symm hne, hname⟩
    exact h.cached hc v (h.special v x hx hsp hname) x hx hname

/-- **`lookup_variable` keeps the cache and the table**, and a lookup that
resolves to the special `.VARIABLES` record returns the global names. -/
theorem VariablesFresh.lookup (h : VariablesFresh st) (hwf : TableWF st globalVariableSet)
    {name : String} {r : Option VarId} {st' : State} (hl : lookupVariable name st = some (r, st')) :
    VariablesFresh st' ∧ TableWF st' globalVariableSet ∧
      ∀ v x, r = some v → st.vars v = some x → x.special = true → x.name = ".VARIABLES" →
        ∃ y, st'.vars v = some y ∧ y.value = " ".intercalate st'.globalNames := by
  obtain ⟨r0, -, hr⟩ := Option.map_eq_some'.1 hl
  cases r0 with
  | none => cases hr; exact ⟨h, hwf, fun _ _ hv => by cases hv⟩
  | some v =>
    cases hx : st.vars v with
    | none =>
      simp only [hx, Option.map_none', Option.getD_none, Bool.false_eq_true, if_false,
        Prod.mk.injEq] at hr
      obtain ⟨rfl, rfl⟩ := hr
      exact ⟨h, hwf, fun _ _ hv hx' => by cases hv; rw [hx] at hx'; cases hx'⟩
    | some x =>
      cases hsp : x.special
      · simp only [hx, hsp, Option.map_some', Option.getD_some, Bool.false_eq_true, if_false,
          Prod.mk.injEq] at hr
        obtain ⟨rfl, rfl⟩ := hr
        refine ⟨h, hwf, fun _ _ hv hx' hs _ => ?_⟩
        cases hv; rw [hx] at hx'; cases hx'; rw [hsp] at hs; cases hs
      · simp only [hx, hsp, Option.map_some', Option.getD_some, if_true, Prod.mk.injEq] at hr
        obtain ⟨rfl, rfl⟩ := hr
        obtain ⟨h1, h2, h3⟩ := h.refresh hwf hx hsp
        exact ⟨h1, h2, fun _ _ hv hx' _ hn => by
          cases hv; rw [hx] at hx'; cases hx'; exact h3 hn⟩

end steps

theorem variablesFresh_initial : VariablesFresh State.initial :=
  ⟨le_rfl, fun _ _ hv => by simp [State.table, State.initial] at hv,
    fun _ _ hx => by simp [State.initial] at hx⟩

/-! ## Runs on the global names -/

/-- One step of a run on the global names: a definition or an undefinition
in `global_variable_set`, or a lookup from the current chain. -/
inductive VariablesOp
  | table (op : TableOp)
  | lookup (name : String)

namespace VariablesOp

/-- The step; `none` when the lookup's walk does not end. -/
def run (envOverrides : Bool) : VariablesOp → State → Option State
  | table op, st => some (op.run envOverrides globalVariableSet st)
  | lookup name, st => (lookupVariable name st).map Prod.snd

/-- The step assigns `.VARIABLES` itself. -/
def assignsVariables : VariablesOp → Bool
  | table (.define name _ _ _ _) => name == ".VARIABLES"
  | _ => false

end VariablesOp

/-- A run of steps, in order. -/
def runVariables (envOverrides : Bool) : List VariablesOp → State → Option State
  | [], st => some st
  | op :: ops, st => (op.run envOverrides st).bind (runVariables envOverrides ops)

/-- **One step keeps the cache** unless it assigns `.VARIABLES`. -/
theorem VariablesOp.run_fresh {envOverrides : Bool} {op : VariablesOp} {st st' : State}
    (h : VariablesFresh st) (hwf : TableWF st globalVariableSet) (hop : op.assignsVariables = false)
    (hr : op.run envOverrides st = some st') :
    VariablesFresh st' ∧ TableWF st' globalVariableSet := by
  cases op with
  | table op =>
    cases hr
    cases op with
    | define name value origin recursive flocp =>
      have hn : name ≠ ".VARIABLES" := by simpa [assignsVariables] using hop
      exact ⟨h.define hn, (defineVariableInSet_spec envOverrides name value origin recursive flocp hwf).1⟩
    | undefine name origin =>
      exact ⟨h.undefine hwf, (undefineVariableInSet_spec envOverrides name origin hwf).1⟩
  | lookup name =>
    obtain ⟨⟨r, st1⟩, hl, rfl⟩ := Option.map_eq_some'.1 hr
    exact (h.lookup hwf hl).imp_right And.left

/-- **Every run keeps the cache** unless it assigns `.VARIABLES`: from a
state where it holds, any sequence of global definitions, undefinitions and
lookups leaves a state where it holds, so the next lookup of `.VARIABLES`
returns the global names (`VariablesFresh.lookup`). -/
theorem runVariables_fresh {envOverrides : Bool} :
    ∀ {ops : List VariablesOp} {st st' : State}, VariablesFresh st → TableWF st globalVariableSet →
      (∀ op ∈ ops, op.assignsVariables = false) → runVariables envOverrides ops st = some st' →
      VariablesFresh st' ∧ TableWF st' globalVariableSet
  | [], _, _, h, hwf, _, hr => by cases hr; exact ⟨h, hwf⟩
  | op :: _, _, _, h, hwf, hops, hr => by
    obtain ⟨st1, h1, hrest⟩ := Option.bind_eq_some.1 hr
    obtain ⟨hf1, hwf1⟩ := VariablesOp.run_fresh h hwf (hops op (List.mem_cons_self _ _)) h1
    exact runVariables_fresh hf1 hwf1 (fun o ho => hops o (List.mem_cons_of_mem _ ho)) hrest

/-! ## Runs from the start of `main` -/

/-- Modelled from the spec: the start of `main`, which defines
`.VARIABLES`, empty and of origin `o_default`, in `global_variable_set` and
marks it special (record `1`). -/
def variablesStart : State :=
  let (v, st) := defineVariableInSet false ".VARIABLES" "" .default false none none State.initial
  match st.vars v with
  | some x => st.setVar v { x with special := true }
  | none => st

theorem variablesStart_vars_of_ne {v : VarId} (hv : v ≠ 1) : variablesStart.vars v = none :=
  (dif_neg hv).trans (dif_neg hv)

theorem variablesStart_wf : TableWF variablesStart globalVariableSet :=
  (defineVariableInSet_spec false ".VARIABLES" "" .default false none tableWF_initial).1.setVar
    (by decide) rfl rfl

/-- The start of `main` moves the count past the cache, with the special
record in the global set. -/
theorem variablesFresh_start : VariablesFresh variablesStart :=
  variablesFresh_initial.of_bump rfl rfl fun v x hx _ _ => by
    by_cases hv : v = 1
    · subst hv; decide
    · rw [variablesStart_vars_of_ne hv] at hx; cases hx

/-- **`.VARIABLES` lists the global names after any run that does not
assign it.** From the start of `main`, after any sequence of definitions
of other names in `global_variable_set`, undefinitions there and lookups,
a lookup of `.VARIABLES` that resolves to its special record leaves in it
the names of the global set, in table order, joined by single spaces. -/
theorem variables_lists_global_names (envOverrides : Bool) (ops : List VariablesOp)
    (hops : ∀ op ∈ ops, op.assignsVariables = false) (st st' : State) (v : VarId) (x : Variable)
    (hrun : runVariables envOverrides ops variablesStart = some st)
    (hl : lookupVariable ".VARIABLES" st = some (some v, st')) (hx : st.vars v = some x)
    (hsp : x.special = true) (hn : x.name = ".VARIABLES") :
    ∃ y, st'.vars v = some y ∧ y.value = " ".intercalate st'.globalNames := by
  obtain ⟨hf, hwf⟩ := runVariables_fresh variablesFresh_start variablesStart_wf hops hrun
  exact (hf.lookup hwf hl).2.2 v x rfl hx hsp hn

/-- A makefile that defines `X = 1`, expands `$(.VARIABLES)`, then
undefines `X`. -/
def variablesUndefineOps : List VariablesOp :=
  [.table (.define "X" "1" .file false none), .lookup ".VARIABLES", .table (.undefine "X" .file)]

theorem variables_lists_global_names_undefine :
    ∃ st st' x, (∀ op ∈ variablesUndefineOps, op.assignsVariables = false) ∧
      runVariables false variablesUndefineOps variablesStart = some st ∧
      lookupVariable ".VARIABLES" st = some (some 1, st') ∧ st.vars 1 = some x ∧
      x.special = true ∧ x.name = ".VARIABLES" ∧
      ∃ y, st'.vars 1 = some y ∧ y.value = " ".intercalate st'.globalNames :=
  ⟨_, _, _, by decide, rfl, rfl, rfl, rfl, rfl,
    variables_lists_global_names false variablesUndefineOps (by decide) _ _ 1 _ rfl rfl rfl rfl rfl⟩

/-! ## An assignment to `.VARIABLES` -/

/-- A makefile that defines `X = 1`, expands `$(.VARIABLES)`, then assigns
`.VARIABLES := mine`. -/
def variablesAssignmentRun : Option State :=
  runVariables false
    [.table (.define "X" "1" .file false none), .lookup ".VARIABLES",
      .table (.define ".VARIABLES" "mine" .file false none)] variablesStart

/-- After the assignment, `lookup_variable` resolves `.VARIABLES` to its
special global record and returns the assigned value, not the global
names: the assignment replaced the value in place without moving
`variable_changenum`, so `lookup_special_var` does not rebuild it. -/
theorem variables_assignment_returned_stale :
    ∃ st st', variablesAssignmentRun = some st ∧
      lookupVariable ".VARIABLES" st = some (some 1, st') ∧
      1 ∈ st'.table globalVariableSet ∧ (st'.vars 1).map Variable.special = some true ∧
      (st'.vars 1).map Variable.value = some "mine" ∧ st'.globalNames = [".VARIABLES", "X"] :=
  ⟨variablesAssignmentRun.getD State.initial,
    ((lookupVariable ".VARIABLES" (variablesAssignmentRun.getD State.initial)).getD
      (none, State.initial)).2, rfl, rfl, by decide, rfl, rfl, rfl⟩

end MakeVariables
