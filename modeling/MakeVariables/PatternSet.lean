import MakeVariables.Scope
import MakeVariables.Table
import MakeVariables.Model.Definition
/-!
# The pattern-specific set — one definition at a time

`initialize_file_variables` fills a target's pattern-specific set by
defining, in turn, every pattern variable that matches the target, through
`define_variable_loc` for `:=` and `do_variable_definition` otherwise.
Read as a finite map (`State.read`), one such definition changes the
binding of its own name only (`definePatternVar_other`), and on a binding
of its own name acts as the gate of `define_variable_in_set` on the value
its flavor gives: the entry's value for `=` and `:=`
(`definePatternVar_plain`), the old and the new value pasted together for
`+=` (`definePatternVar_append`).
-/

namespace MakeVariables

open State

/-! ## Edits that keep a table's reading -/

section edits

variable {st st' : State} {s : SetId}

/-- The lookup reads the records of the table only. -/
theorem findSlot_congr (ht : st'.table s = st.table s)
    (hv : ∀ u ∈ st.table s, st'.vars u = st.vars u) (name : String) :
    st'.findSlot s name = st.findSlot s name := by
  unfold findSlot
  rw [ht]
  suffices ∀ t : List VarId, (∀ u ∈ t, st'.vars u = st.vars u) →
      t.findSome? (st'.slotOf name) = t.findSome? (st.slotOf name) from this _ hv
  intro t
  induction t with
  | nil => intro; rfl
  | cons u t ih =>
    intro ht'
    simp only [List.findSome?_cons, slotOf, ht' u (List.mem_cons_self u t),
      ih fun w hw => ht' w (List.mem_cons_of_mem u hw)]

/-- **A table whose records are untouched** is as well formed as before
and reads the same. -/
theorem TableWF.congr (h : TableWF st s) (ht : st'.table s = st.table s)
    (hf : st.fresh ≤ st'.fresh) (hv : ∀ u ∈ st.table s, st'.vars u = st.vars u) :
    TableWF st' s ∧ st'.read s = st.read s := by
  refine ⟨⟨ht ▸ h.nodup, fun u hu => ?_, fun u hu => ?_, fun u hu w hw x y hx hy hn => ?_⟩,
    funext fun name => by simp only [State.read, findSlot_congr ht hv]⟩ <;> rw [ht] at *
  · exact Nat.lt_of_lt_of_le (h.lt_fresh u hu) hf
  · rw [hv u hu]; exact h.live u hu
  · rw [hv u hu] at hx; rw [hv w hw] at hy
    exact h.name_inj u hu w hw x y hx hy hn

variable {v : VarId} {x y : Variable}

/-- **A rewrite in place under the record's own name** keeps the table
well formed and the reading of every other name. -/
theorem TableWF.setVar_name (h : TableWF st s) (hx : st.vars v = some x) (hy : y.name = x.name) :
    TableWF (st.setVar v y) s ∧ ∀ N, N ≠ x.name → (st.setVar v y).read s N = st.read s N := by
  by_cases hv : v ∈ st.table s
  · exact ⟨h.setVar hv hx hy, fun N hN => by
      rw [read_setVar h hv hx hy, Function.update_noteq hN]⟩
  · have := h.congr (show (st.setVar v y).table s = st.table s from rfl) le_rfl fun u hu => by
      simp [Function.update_noteq fun e : u = v => hv (e ▸ hu)]
    exact ⟨this.1, fun N _ => by rw [this.2]⟩

/-- And one that also keeps the binding keeps the whole reading. -/
theorem TableWF.setVar_binding (h : TableWF st s) (hx : st.vars v = some x) (hy : y.name = x.name)
    (hb : y.binding = x.binding) :
    TableWF (st.setVar v y) s ∧ (st.setVar v y).read s = st.read s := by
  refine ⟨(h.setVar_name hx hy).1, funext fun N => ?_⟩
  by_cases hN : N = x.name
  · by_cases hv : v ∈ st.table s
    · rw [read_setVar h hv hx hy, hN, Function.update_same, hb, read_of_slot h hv hx]
    · exact congrFun (h.congr (show (st.setVar v y).table s = st.table s from rfl) le_rfl fun u hu => by
        simp [Function.update_noteq fun e : u = v => hv (e ▸ hu)]).2 N
  · exact (h.setVar_name hx hy).2 N hN

end edits

/-! ## The steps of one definition -/

section steps

variable {st st' : State} {s : SetId}

theorem markDefined_spec (h : TableWF st s) (v : VarId) (a c : Bool) :
    BlockFrame st (st.markDefined v a c) ∧ TableWF (st.markDefined v a c) s ∧
      (st.markDefined v a c).read s = st.read s := by
  unfold markDefined
  cases hx : st.vars v with
  | none => exact ⟨BlockFrame.refl st, h, rfl⟩
  | some x => exact ⟨⟨rfl, rfl, rfl, le_rfl, fun _ _ h => h⟩, h.setVar_binding hx rfl rfl⟩

theorem setFlavor_spec (h : TableWF st s) (v : VarId) (fl : VariableFlavor) :
    BlockFrame st (st.setFlavor v fl) ∧ TableWF (st.setFlavor v fl) s ∧
      (st.setFlavor v fl).read s = st.read s := by
  unfold setFlavor
  cases hx : st.vars v with
  | none => exact ⟨BlockFrame.refl st, h, rfl⟩
  | some x => exact ⟨⟨rfl, rfl, rfl, le_rfl, fun _ _ h => h⟩, h.setVar_binding hx rfl rfl⟩

/-- **The tail of `do_variable_definition`**, on a target set, is the gate
of `define_variable_in_set` on that set. -/
theorem storeDefinition_spec (h : TableWF st s) {cx : Context} {flocp : Option Floc}
    {name : String} {origin : VariableOrigin} {cond : Bool} {newval : String}
    {flavor : VariableFlavor} {app : Bool} {v : VarId}
    (hs : storeDefinition cx flocp name origin cond (some s) newval flavor app st = some (v, st')) :
    BlockFrame st st' ∧ TableWF st' s ∧
      st'.read s = refDefine cx.envOverrides name newval origin
        (flavor = .recursive ∨ flavor = .expand) (st.read s) := by
  unfold storeDefinition at hs
  obtain ⟨hwf1, hread1⟩ := defineVariableInSet_spec cx.envOverrides name newval origin
    (decide (flavor = .recursive ∨ flavor = .expand)) flocp h
  have hf1 := defineVariableInSet_frame cx.envOverrides name newval origin
    (decide (flavor = .recursive ∨ flavor = .expand)) (some s) flocp st
  generalize defineVariableInSet cx.envOverrides name newval origin
    (decide (flavor = .recursive ∨ flavor = .expand)) (some s) flocp st = d at hs hwf1 hread1 hf1
  obtain ⟨v0, st0⟩ := d
  have hst : st' = st0.markDefined v0 app cond := by
    dsimp only at hs
    split_ifs at hs <;> simp only [setSpecialVar, pure, Option.some.injEq, Prod.mk.injEq] at hs <;>
      exact hs.2.symm
  subst hst
  obtain ⟨hf2, hwf2, hread2⟩ := markDefined_spec hwf1 v0 app cond
  exact ⟨BlockFrame.trans hf1 hf2, hwf2, hread2.trans hread1⟩

/-- A record the walk of `lookup_variable` answers is live and of the name
looked up. -/
theorem lookupVariableFrom_some_name {name : String} {fuel : Nat} {l : Option ListId} {p : Bool}
    {v : VarId} (h : lookupVariableFrom st name fuel l p = some (some v)) :
    ∃ x, st.vars v = some x ∧ x.name = name := by
  induction fuel generalizing l p with
  | zero => cases l <;> simp at h
  | succ fuel ih =>
    obtain _ | m := l
    · simp at h
    rw [lookupVariableFrom_succ] at h
    cases hn : st.lists m with
    | none => simp [hn] at h
    | some n =>
      simp only [hn, Option.some_bind] at h
      cases hvis : visibleIn st name n.set p with
      | none => rw [hvis] at h; exact ih h
      | some w =>
        rw [hvis] at h
        cases h
        obtain ⟨⟨w', x⟩, hf, hw⟩ := Option.bind_eq_some.1 hvis
        obtain ⟨-, hx, hxn⟩ := findSlot_mem hf
        refine ⟨x, ?_, hxn⟩
        dsimp only at hw
        split_ifs at hw
        cases hw
        exact hx

/-- **`lookup_variable` keeps every table**: at most the record it finds,
of the name looked up, has its value rebuilt. -/
theorem lookupVariable_spec {name : String} {r : Option VarId} (h : lookupVariable name st = some (r, st'))
    (hwf : TableWF st s) :
    BlockFrame st st' ∧ TableWF st' s ∧ ∀ N, N ≠ name → st'.read s N = st.read s N := by
  obtain ⟨r0, hr0, hr⟩ := Option.map_eq_some'.1 h
  cases r0 with
  | none => cases hr; exact ⟨BlockFrame.refl st, hwf, fun _ _ => rfl⟩
  | some v =>
    obtain ⟨x, hx, hxn⟩ := lookupVariableFrom_some_name hr0
    have hspec : BlockFrame st (lookupSpecialVar v st) ∧ TableWF (lookupSpecialVar v st) s ∧
        ∀ N, N ≠ name → (lookupSpecialVar v st).read s N = st.read s N := by
      unfold lookupSpecialVar
      rw [hx]
      dsimp only
      split_ifs
      · obtain ⟨hw, hN⟩ := hwf.setVar_name (y := { x with value := " ".intercalate st.globalNames })
          hx rfl
        exact ⟨⟨rfl, rfl, rfl, le_rfl, fun _ _ h => h⟩, ⟨hw.nodup, hw.lt_fresh, hw.live, hw.name_inj⟩,
          fun N hne => hN N (hxn ▸ hne)⟩
      · exact ⟨BlockFrame.refl st, hwf, fun _ _ => rfl⟩
    simp only [Function.comp_apply] at hr
    split_ifs at hr <;> cases hr
    · exact hspec
    · exact ⟨BlockFrame.refl st, hwf, fun _ _ => rfl⟩


/-- The gate binds one name only. -/
theorem refDefine_ne {envOverrides : Bool} {name value : String} {origin : VariableOrigin}
    {recursive : Bool} {m : TableMap} {N : String} (hN : N ≠ name) :
    refDefine envOverrides name value origin recursive m N = m N := by
  simp only [refDefine, Function.update_noteq hN]

theorem storeDefinition_other (h : TableWF st s) {cx : Context} {flocp : Option Floc}
    {name : String} {origin : VariableOrigin} {cond : Bool} {newval : String}
    {flavor : VariableFlavor} {app : Bool} {v : VarId}
    (hs : storeDefinition cx flocp name origin cond (some s) newval flavor app st = some (v, st')) :
    BlockFrame st st' ∧ TableWF st' s ∧ ∀ N, N ≠ name → st'.read s N = st.read s N :=
  let ⟨hf, hwf, hread⟩ := storeDefinition_spec h hs
  ⟨hf, hwf, fun _ hN => by rw [hread, refDefine_ne hN]⟩

/-- The old record of a pattern-scope append is looked up in the target
set, which leaves the state as it is. -/
theorem appendDefinition_old {cx : Context} {flocp : Option Floc} {name value : String}
    {origin : VariableOrigin} {flavor : VariableFlavor} {cond : Bool} {v : VarId}
    (h : appendDefinition cx flocp name value origin flavor cond .pattern (some s) st = some (v, st')) :
    ∃ old app ov, (match old with
      | none => storeDefinition cx flocp name origin cond (some s) value .recursive app st
      | some w =>
        if ov = true then storeDefinition cx flocp name origin cond (some s) value .recursive app st
        else
          match st.vars w with
          | none => none
          | some x =>
            if (if x.recursive = true ∨ (if x.recursive = true then VariableFlavor.recursive else flavor) =
                .appendValue then value else cx.expand st value) = "" then
              if x.special = true then some (setSpecialVar w st) else some (w, st)
            else storeDefinition cx flocp name origin cond (some s)
              (appendValue name x.value
                (if x.recursive = true ∨ (if x.recursive = true then VariableFlavor.recursive else flavor) =
                  .appendValue then value else cx.expand st value))
              (if x.recursive = true then VariableFlavor.recursive else flavor) app st) = some (v, st') ∧
      (old = none → lookupVariableInSet name s st = none) ∧
      ∀ w, old = some w → lookupVariableInSet name s st = some w ∧
        (ov = true ↔ ((st.vars w).map Variable.origin = some .envOverride ∨
          (st.vars w).map Variable.origin = some .command)) := by
  unfold appendDefinition at h
  obtain ⟨⟨old, app, ov, st2⟩, h2, h⟩ := Option.bind_eq_some.1 h
  dsimp only at h2
  cases hl : lookupVariableInSet name s st with
  | none =>
    rw [hl] at h2
    cases h2
    exact ⟨none, true, false, h, fun _ => rfl, fun _ hw => by cases hw⟩
  | some w =>
    rw [hl] at h2
    cases h2
    refine ⟨some w, _, _, h, (fun hw => by cases hw), fun w' hw => ?_⟩
    cases hw
    refine ⟨rfl, ?_⟩
    cases (st.vars w).map Variable.origin <;> simp

/-- A pattern-scope append binds at most its own name in the target set:
an empty new text leaves the state as it is, any other goes through the
tail. -/
theorem appendDefinition_other (h : TableWF st s) {cx : Context} {flocp : Option Floc}
    {name value : String} {origin : VariableOrigin} {flavor : VariableFlavor} {cond : Bool}
    {v : VarId}
    (happ : appendDefinition cx flocp name value origin flavor cond .pattern (some s) st = some (v, st')) :
    BlockFrame st st' ∧ TableWF st' s ∧ ∀ N, N ≠ name → st'.read s N = st.read s N := by
  obtain ⟨old, app, ov, happ, -, -⟩ := appendDefinition_old happ
  cases old with
  | none => exact storeDefinition_other h happ
  | some w =>
    dsimp only at happ
    by_cases hov : ov = true
    · rw [if_pos hov] at happ
      exact storeDefinition_other h happ
    rw [if_neg hov] at happ
    cases hx : st.vars w with
    | none => rw [hx] at happ; cases happ
    | some x =>
      rw [hx] at happ
      dsimp only at happ
      generalize (if x.recursive = true then VariableFlavor.recursive else flavor) = fl at happ
      generalize (if x.recursive = true ∨ fl = .appendValue then value else cx.expand st value) = u
        at happ
      by_cases hu : u = ""
      · -- an empty new text keeps the state
        rw [if_pos hu] at happ
        have hst : st' = st := by
          by_cases hsp : x.special = true
          · rw [if_pos hsp] at happ; cases happ; rfl
          · rw [if_neg hsp] at happ; cases happ; rfl
        subst hst
        exact ⟨BlockFrame.refl _, h, fun _ _ => rfl⟩
      · rw [if_neg hu] at happ
        exact storeDefinition_other h happ

/-- **A pattern-scope definition of one name** keeps the chains, the
files and the current link, and changes the current set's binding of that
name only, whatever its flavor and whether conditional. -/
theorem doVariableDefinition_other {n : SetList} (hcur : st.current.bind st.lists = some n)
    (hwf : TableWF st n.set) {cx : Context} {flocp : Option Floc} {name value : String}
    {origin : VariableOrigin} {flavor : VariableFlavor} {cond : Bool} {v : VarId}
    (h : doVariableDefinition cx flocp name value origin flavor cond .pattern st = some (v, st')) :
    BlockFrame st st' ∧ TableWF st' n.set ∧ ∀ N, N ≠ name → st'.read n.set N = st.read n.set N := by
  unfold doVariableDefinition at h
  obtain ⟨⟨found, st1⟩, h1, h⟩ := Option.bind_eq_some.1 h
  have hl1 : BlockFrame st st1 ∧ TableWF st1 n.set ∧
      ∀ N, N ≠ name → st1.read n.set N = st.read n.set N := by
    split_ifs at h1
    · exact lookupVariable_spec h1 hwf
    · cases h1; exact ⟨BlockFrame.refl st, hwf, fun _ _ => rfl⟩
  have hsame : ∀ {st2 : State}, BlockFrame st1 st2 ∧ TableWF st2 n.set ∧
      (∀ N, N ≠ name → st2.read n.set N = st1.read n.set N) →
      BlockFrame st st2 ∧ TableWF st2 n.set ∧ ∀ N, N ≠ name → st2.read n.set N = st.read n.set N :=
    fun ⟨hf2, hwf2, hr2⟩ => ⟨hl1.1.trans hf2, hwf2, fun N hN => (hr2 N hN).trans (hl1.2.2 N hN)⟩
  cases found with
  | some w => cases h; exact hl1
  | none =>
    have hcur1 : st1.current.bind st1.lists = some n := by rw [hl1.1.current, hl1.1.lists]; exact hcur
    dsimp only at h
    simp only [hcur1, Option.map_some', Option.some_bind] at h
    cases flavor with
    | bogus => cases h
    | conditional => cases h
    | simple => exact hsame (storeDefinition_other hl1.2.1 h)
    | expand => exact hsame (storeDefinition_other hl1.2.1 h)
    | shell => exact hsame (storeDefinition_other hl1.2.1 h)
    | recursive => exact hsame (storeDefinition_other hl1.2.1 h)
    | append | appendValue => exact hsame (appendDefinition_other hl1.2.1 h)

/-- **A `=` pattern definition** is the gate on the entry's value. -/
theorem doVariableDefinition_recursive {n : SetList} (hcur : st.current.bind st.lists = some n)
    (hwf : TableWF st n.set) {cx : Context} {flocp : Option Floc} {name value : String}
    {origin : VariableOrigin} {v : VarId}
    (h : doVariableDefinition cx flocp name value origin .recursive false .pattern st = some (v, st')) :
    BlockFrame st st' ∧ TableWF st' n.set ∧
      st'.read n.set = refDefine cx.envOverrides name value origin true (st.read n.set) := by
  simp only [doVariableDefinition, Bool.false_eq_true, if_false, Option.some_bind, hcur,
    Option.map_some'] at h
  simpa using storeDefinition_spec hwf h

/-- **A `+=` pattern definition**, on a binding a `+=` made (recursive, not
from the command line or `-e`), pastes the old and the new value together,
or leaves the binding when the new text is empty; with no binding yet it
binds the new text. -/
theorem doVariableDefinition_append {n : SetList} (hcur : st.current.bind st.lists = some n)
    (hwf : TableWF st n.set) {cx : Context} {flocp : Option Floc} {name value : String}
    {origin : VariableOrigin} {flavor : VariableFlavor}
    (hfl : flavor = .append ∨ flavor = .appendValue)
    (hold : ∀ b, st.read n.set name = some b →
      b.recursive = true ∧ b.origin ≠ .command ∧ b.origin ≠ .envOverride) {v : VarId}
    (h : doVariableDefinition cx flocp name value origin flavor false .pattern st = some (v, st')) :
    BlockFrame st st' ∧ TableWF st' n.set ∧
      st'.read n.set = match st.read n.set name with
        | none => refDefine cx.envOverrides name value origin true (st.read n.set)
        | some b => if value = "" then st.read n.set
          else refDefine cx.envOverrides name (appendValue name b.value value) origin true
            (st.read n.set) := by
  have happ : appendDefinition cx flocp name value origin flavor false .pattern (some n.set) st =
      some (v, st') := by
    rcases hfl with rfl | rfl <;>
      simpa only [doVariableDefinition, Bool.false_eq_true, if_false, Option.some_bind, hcur,
        Option.map_some'] using h
  obtain ⟨old, app, ov, h, hnone, hsome⟩ := appendDefinition_old happ
  cases old with
  | none =>
    have hr : st.read n.set name = none := by
      simpa [State.read, lookupVariableInSet] using hnone rfl
    rw [hr]
    simpa using storeDefinition_spec hwf h
  | some w =>
    obtain ⟨hl, hov⟩ := hsome w rfl
    obtain ⟨⟨w', x⟩, hf, hw⟩ := Option.map_eq_some'.1 hl
    cases hw
    obtain ⟨-, hx, -⟩ := findSlot_mem hf
    have hr : st.read n.set name = some x.binding := by simp [State.read, hf]
    obtain ⟨hrec, hcmd, hovr⟩ := hold _ hr
    simp only [Variable.binding] at hrec hcmd hovr
    have hov' : ov = false := by
      cases ov
      · rfl
      · rcases hov.1 rfl with h' | h' <;> simp [hx] at h' <;> contradiction
    rw [hr]
    dsimp only
    simp only [hov', Bool.false_eq_true, if_false, hx, hrec, true_or, if_true] at h
    split_ifs at h with hv <;> first
      | (simpa [hv, Variable.binding] using storeDefinition_spec hwf h)
      | (simp only [setSpecialVar, Option.some.injEq, Prod.mk.injEq] at h
         obtain ⟨-, rfl⟩ := h
         exact ⟨BlockFrame.refl _, hwf, by simp [hv]⟩)

/-- The last step of a pattern definition copies `per_target`, `export`
and `private_var` onto the record defined: a rewrite under the record's
name and binding. -/
theorem definePatternVar_inv {cx : Context} {p : PatternVar}
    (h : definePatternVar cx p st = some st') :
    ∃ v st1, (if p.var.flavor = .simple then
        (defineVariableLoc cx p.var.name p.var.value p.var.origin false (some p.var.fileinfo) st).map
          fun r => (r.1, r.2.setFlavor r.1 .simple)
      else doVariableDefinition cx (some p.var.fileinfo) p.var.name p.var.value p.var.origin
        p.var.flavor p.var.conditional .pattern st) = some (v, st1) ∧
      ∃ x y, st1.vars v = some x ∧ y.name = x.name ∧ y.binding = x.binding ∧ st' = st1.setVar v y := by
  unfold definePatternVar at h
  obtain ⟨⟨v, st1⟩, h1, h⟩ := Option.bind_eq_some.1 h
  obtain ⟨x, hx, h⟩ := Option.map_eq_some'.1 h
  let y : Variable :=
    { x with perTarget := p.var.perTarget, exportStatus := p.var.exportStatus,
             privateVar := p.var.privateVar }
  exact ⟨v, st1, h1, x, y, hx, rfl, rfl, h.symm⟩

/-- The `:=` branch: `define_variable_loc` into the current set, then the
flavor set to `f_simple`. -/
theorem defineVariableLoc_simple {n : SetList} (hcur : st.current.bind st.lists = some n)
    (hwf : TableWF st n.set) {cx : Context} {name value : String} {origin : VariableOrigin}
    {flocp : Option Floc} {v : VarId}
    (h : (defineVariableLoc cx name value origin false flocp st).map
      (fun r => (r.1, r.2.setFlavor r.1 .simple)) = some (v, st')) :
    BlockFrame st st' ∧ TableWF st' n.set ∧
      st'.read n.set = refDefine cx.envOverrides name value origin false (st.read n.set) := by
  simp only [defineVariableLoc, hcur, Option.map_some', Option.some.injEq, Prod.mk.injEq] at h
  obtain ⟨-, rfl⟩ := h
  obtain ⟨hwf1, hread1⟩ := defineVariableInSet_spec cx.envOverrides name value origin false flocp hwf
  obtain ⟨hf2, hwf2, hread2⟩ := setFlavor_spec hwf1
    (defineVariableInSet cx.envOverrides name value origin false (some n.set) flocp st).1 .simple
  exact ⟨BlockFrame.trans (defineVariableInSet_frame _ _ _ _ _ _ _ _) hf2, hwf2, hread2.trans hread1⟩

/-- The copy of the flags keeps the frame, the table and its reading. -/
theorem setVar_flags_spec {v : VarId} {x y : Variable} (hwf : TableWF st s)
    (hx : st.vars v = some x) (hy : y.name = x.name) (hb : y.binding = x.binding) :
    BlockFrame st (st.setVar v y) ∧ TableWF (st.setVar v y) s ∧ (st.setVar v y).read s = st.read s :=
  ⟨⟨rfl, rfl, rfl, le_rfl, fun _ _ h => h⟩, hwf.setVar_binding hx hy hb⟩

/-- **One pattern variable, of one name**, leaves the binding of every
other name of the current set. -/
theorem definePatternVar_other {n : SetList} (hcur : st.current.bind st.lists = some n)
    (hwf : TableWF st n.set) {cx : Context} {p : PatternVar}
    (h : definePatternVar cx p st = some st') :
    BlockFrame st st' ∧ TableWF st' n.set ∧
      ∀ N, N ≠ p.var.name → st'.read n.set N = st.read n.set N := by
  obtain ⟨v, st1, h1, x, y, hx, hy, hb, rfl⟩ := definePatternVar_inv h
  have hs1 : BlockFrame st st1 ∧ TableWF st1 n.set ∧
      ∀ N, N ≠ p.var.name → st1.read n.set N = st.read n.set N := by
    split_ifs at h1
    · obtain ⟨hf, hw, hr⟩ := defineVariableLoc_simple hcur hwf h1
      exact ⟨hf, hw, fun N hN => by rw [hr, refDefine_ne hN]⟩
    · exact doVariableDefinition_other hcur hwf h1
  obtain ⟨hf2, hwf2, hr2⟩ := setVar_flags_spec hs1.2.1 hx hy hb
  exact ⟨hs1.1.trans hf2, hwf2, fun N hN => by rw [hr2, hs1.2.2 N hN]⟩

/-- **A `=` or `:=` pattern variable** is the gate on its value. -/
theorem definePatternVar_plain {n : SetList} (hcur : st.current.bind st.lists = some n)
    (hwf : TableWF st n.set) {cx : Context} {p : PatternVar}
    (hpl : p.var.flavor = .simple ∨ (p.var.flavor = .recursive ∧ p.var.conditional = false))
    (h : definePatternVar cx p st = some st') :
    BlockFrame st st' ∧ TableWF st' n.set ∧
      st'.read n.set = refDefine cx.envOverrides p.var.name p.var.value p.var.origin
        (p.var.flavor = .recursive) (st.read n.set) := by
  obtain ⟨v, st1, h1, x, y, hx, hy, hb, rfl⟩ := definePatternVar_inv h
  have hs1 : BlockFrame st st1 ∧ TableWF st1 n.set ∧
      st1.read n.set = refDefine cx.envOverrides p.var.name p.var.value p.var.origin
        (p.var.flavor = .recursive) (st.read n.set) := by
    rcases hpl with hs | ⟨hr, hc⟩
    · rw [if_pos hs] at h1
      simpa [hs] using defineVariableLoc_simple hcur hwf h1
    · rw [if_neg (by rw [hr]; decide), hr, hc] at h1
      simpa [hr] using doVariableDefinition_recursive hcur hwf h1
  obtain ⟨hf2, hwf2, hr2⟩ := setVar_flags_spec hs1.2.1 hx hy hb
  exact ⟨hs1.1.trans hf2, hwf2, hr2.trans hs1.2.2⟩

/-- **A `+=` pattern variable**, on a binding a `+=` made, pastes its value
on. -/
theorem definePatternVar_append {n : SetList} (hcur : st.current.bind st.lists = some n)
    (hwf : TableWF st n.set) {cx : Context} {p : PatternVar}
    (hfl : p.var.flavor = .append ∨ p.var.flavor = .appendValue) (hc : p.var.conditional = false)
    (hold : ∀ b, st.read n.set p.var.name = some b →
      b.recursive = true ∧ b.origin ≠ .command ∧ b.origin ≠ .envOverride)
    (h : definePatternVar cx p st = some st') :
    BlockFrame st st' ∧ TableWF st' n.set ∧
      st'.read n.set = match st.read n.set p.var.name with
        | none => refDefine cx.envOverrides p.var.name p.var.value p.var.origin true (st.read n.set)
        | some b => if p.var.value = "" then st.read n.set
          else refDefine cx.envOverrides p.var.name (appendValue p.var.name b.value p.var.value)
            p.var.origin true (st.read n.set) := by
  obtain ⟨v, st1, h1, x, y, hx, hy, hb, rfl⟩ := definePatternVar_inv h
  rw [if_neg (by rcases hfl with hf | hf <;> rw [hf] <;> decide), hc] at h1
  obtain ⟨hf1, hwf1, hr1⟩ := doVariableDefinition_append hcur hwf hfl hold h1
  obtain ⟨hf2, hwf2, hr2⟩ := setVar_flags_spec hwf1 hx hy hb
  exact ⟨hf1.trans hf2, hwf2, hr2.trans hr1⟩

end steps

/-! ## The pattern loop as a list of definitions -/

/-- The definitions the pattern loop makes, in order, each in the current
set. -/
def definePatternVarList (cx : Context) : List PatternVar → State → Option State
  | [], st => some st
  | p :: ps, st => (definePatternVar cx p st).bind (definePatternVarList cx ps)

/-- The binding an `=` or `:=` entry leaves under `-e` or not. -/
def plainBinding (envOverrides : Bool) (p : PatternVar) : Binding :=
  ⟨p.var.value, normalizeOrigin envOverrides p.var.origin, p.var.flavor = .recursive⟩

/-- One `+=` on the value built so far: the first binds its text, a later
one pastes a non-empty text on. -/
def appendStep (name : String) (acc : Option String) (w : String) : Option String :=
  some (match acc with
    | none => w
    | some a => if w = "" then a else appendValue name a w)

theorem normalizeOrigin_idem (envOverrides : Bool) (o : VariableOrigin) :
    normalizeOrigin envOverrides (normalizeOrigin envOverrides o) = normalizeOrigin envOverrides o := by
  unfold normalizeOrigin
  split_ifs <;> simp_all

/-- The gate lets a definition through over a binding of the origin it
normalises to. -/
theorem refDefine_self {envOverrides : Bool} {name value : String} {origin : VariableOrigin}
    {recursive : Bool} {m : TableMap}
    (h : ∀ b, m name = some b → b.origin = normalizeOrigin envOverrides origin) :
    refDefine envOverrides name value origin recursive m name =
      some ⟨value, normalizeOrigin envOverrides origin, recursive⟩ := by
  simp only [refDefine, Function.update_same]
  cases hm : m name with
  | none => rfl
  | some b => simp only [h b hm, normalizeOrigin_idem, le_refl, if_true]

theorem getLast?_cons_eq_or {α : Type} (a : α) (l : List α) :
    (a :: l).getLast? = l.getLast?.or (some a) := by
  cases l with
  | nil => rfl
  | cons b l => simp [List.getLast?_cons]

/-- `String.intercalate` is a left fold from the first piece. -/
theorem intercalate_cons (sep a : String) (l : List String) :
    sep.intercalate (a :: l) = l.foldl (fun acc b => acc ++ sep ++ b) a := by
  suffices ∀ acc, String.intercalate.go acc sep l = l.foldl (fun acc b => acc ++ sep ++ b) acc from
    this a
  induction l with
  | nil => intro; rfl
  | cons b l ih => intro acc; exact ih _

/-- Joining never shortens the first piece. -/
theorem length_le_foldl_join (sep a : String) (l : List String) :
    a.length ≤ (l.foldl (fun acc b => acc ++ sep ++ b) a).length := by
  induction l generalizing a with
  | nil => exact le_rfl
  | cons b l ih =>
    exact le_trans (by simp only [String.length_append]; omega) (ih (a ++ sep ++ b))

/-- The non-empty pieces of a list, joined by single spaces. -/
theorem appendStep_join {N : String} (hN : N ≠ makeflagsName) (xs : List String) (w : String) :
    appendStep N (some (" ".intercalate (xs.filter (· ≠ "")))) w =
      some (" ".intercalate ((xs ++ [w]).filter (· ≠ ""))) := by
  unfold appendStep
  dsimp only
  rw [List.filter_append]
  by_cases hw : w = ""
  · rw [if_pos hw]; simp [hw]
  · rw [if_neg hw, show [w].filter (· ≠ "") = [w] by simp [hw]]
    cases hys : xs.filter (· ≠ "") with
    | nil => simp [appendValue, String.intercalate, String.intercalate.go]
    | cons y ys =>
      have hy : y ≠ "" := by
        have := List.mem_filter.1 (hys ▸ List.mem_cons_self y ys : y ∈ xs.filter (· ≠ ""))
        simpa using this.2
      have hne : " ".intercalate (y :: ys) ≠ "" := fun h => by
        have hlen := length_le_foldl_join " " y ys
        rw [← intercalate_cons, h] at hlen
        exact hy (String.ext (List.eq_nil_of_length_eq_zero (Nat.le_zero.1 hlen)))
      have hjoin : " ".intercalate (y :: (ys ++ [w])) = " ".intercalate (y :: ys) ++ " " ++ w := by
        rw [intercalate_cons, intercalate_cons, List.foldl_append]; rfl
      rw [List.cons_append, hjoin]
      simp [appendValue, hne, hN]

/-- **Away from `MAKEFLAGS`, appends join the non-empty values by single
spaces.** -/
theorem foldl_appendStep {N : String} (hN : N ≠ makeflagsName) (vals : List String) :
    vals.foldl (appendStep N) none =
      if vals = [] then none else some (" ".intercalate (vals.filter (· ≠ ""))) := by
  cases vals with
  | nil => rfl
  | cons v vs =>
    have hstart : appendStep N none v = some (" ".intercalate ([v].filter (· ≠ ""))) := by
      by_cases hv : v = "" <;> simp [appendStep, hv, String.intercalate, String.intercalate.go]
    suffices ∀ xs, vs.foldl (appendStep N) (some (" ".intercalate (xs.filter (· ≠ "")))) =
        some (" ".intercalate ((xs ++ vs).filter (· ≠ ""))) by
      simpa [List.foldl_cons, hstart] using this [v]
    induction vs with
    | nil => intro; simp
    | cons w vs ih =>
      intro xs
      rw [List.foldl_cons, appendStep_join hN, ih, List.append_assoc, List.singleton_append]

section list

variable {cx : Context} {n : SetList}

/-- **The loop leaves the names it does not define.** -/
theorem definePatternVarList_other {N : String} :
    ∀ {ps : List PatternVar} {st st' : State}, st.current.bind st.lists = some n →
      TableWF st n.set → (∀ p ∈ ps, p.var.name ≠ N) → definePatternVarList cx ps st = some st' →
      BlockFrame st st' ∧ TableWF st' n.set ∧ st'.read n.set N = st.read n.set N
  | [], _, _, _, hwf, _, h => by cases h; exact ⟨BlockFrame.refl _, hwf, rfl⟩
  | p :: ps, st, st', hcur, hwf, hN, h => by
    obtain ⟨st1, h1, h⟩ := Option.bind_eq_some.1 h
    obtain ⟨hf1, hwf1, hr1⟩ := definePatternVar_other hcur hwf h1
    have hcur1 : st1.current.bind st1.lists = some n := by rw [hf1.current, hf1.lists]; exact hcur
    obtain ⟨hf2, hwf2, hr2⟩ := definePatternVarList_other hcur1 hwf1
      (fun q hq => hN q (List.mem_cons_of_mem p hq)) h
    exact ⟨hf1.trans hf2, hwf2, hr2.trans (hr1 N (hN p (List.mem_cons_self p ps)).symm)⟩

/-- **Plain entries: the last one wins.** When every entry of the name is
an `=` or `:=` definition of one origin, the binding is the last entry's
value. -/
theorem definePatternVarList_plain {N : String} {o : VariableOrigin} :
    ∀ {ps : List PatternVar} {st st' : State}, st.current.bind st.lists = some n →
      TableWF st n.set →
      (∀ p ∈ ps, p.var.name = N → (p.var.flavor = .simple ∨
        (p.var.flavor = .recursive ∧ p.var.conditional = false)) ∧ p.var.origin = o) →
      (∀ b, st.read n.set N = some b → b.origin = normalizeOrigin cx.envOverrides o) →
      definePatternVarList cx ps st = some st' →
      st'.read n.set N =
        ((ps.filter (·.var.name = N)).getLast?.map (plainBinding cx.envOverrides)).or (st.read n.set N)
  | [], _, _, _, _, _, _, h => by cases h; rfl
  | p :: ps, st, st', hcur, hwf, hps, hb, h => by
    obtain ⟨st1, h1, h⟩ := Option.bind_eq_some.1 h
    have hps' := fun q hq => hps q (List.mem_cons_of_mem p hq)
    by_cases hpN : p.var.name = N
    · obtain ⟨hpl, hpo⟩ := hps p (List.mem_cons_self p ps) hpN
      obtain ⟨hf1, hwf1, hr1⟩ := definePatternVar_plain hcur hwf hpl h1
      have hcur1 : st1.current.bind st1.lists = some n := by
        rw [hf1.current, hf1.lists]; exact hcur
      have hN1 : st1.read n.set N = some (plainBinding cx.envOverrides p) := by
        rw [hr1, ← hpN, refDefine_self (by rw [hpN, hpo]; exact hb)]
        simp [plainBinding, hpo]
      rw [definePatternVarList_plain hcur1 hwf1 hps'
        (fun b hb' => by rw [hN1] at hb'; cases hb'; simp [plainBinding, hpo]) h, hN1]
      simp only [List.filter_cons, hpN, decide_True, if_true, getLast?_cons_eq_or]
      cases (ps.filter (·.var.name = N)).getLast? <;> rfl
    · obtain ⟨hf1, hwf1, hr1⟩ := definePatternVar_other hcur hwf h1
      have hcur1 : st1.current.bind st1.lists = some n := by
        rw [hf1.current, hf1.lists]; exact hcur
      have hN1 : st1.read n.set N = st.read n.set N := hr1 N (Ne.symm hpN)
      rw [definePatternVarList_plain hcur1 hwf1 hps' (hN1 ▸ hb) h, hN1]
      simp [List.filter_cons, hpN]

/-- **Appends: the values pasted together.** When every entry of the name
is a `+=` of one origin, neither from the command line nor overriding,
the binding's value is the entries' values pasted on in list order. -/
theorem definePatternVarList_append {N : String} {o : VariableOrigin}
    (hcmd : o ≠ .command) (hovr : o ≠ .envOverride) (hnorm : normalizeOrigin cx.envOverrides o = o) :
    ∀ {ps : List PatternVar} {st st' : State}, st.current.bind st.lists = some n →
      TableWF st n.set →
      (∀ p ∈ ps, p.var.name = N → (p.var.flavor = .append ∨ p.var.flavor = .appendValue) ∧
        p.var.conditional = false ∧ p.var.origin = o) →
      (∀ b, st.read n.set N = some b → b.recursive = true ∧ b.origin = o) →
      definePatternVarList cx ps st = some st' →
      st'.read n.set N = (((ps.filter (·.var.name = N)).map (·.var.value)).foldl (appendStep N)
        ((st.read n.set N).map Binding.value)).map fun a => ⟨a, o, true⟩
  | [], st, _, _, _, _, hb, h => by
    cases h
    cases hr : st.read n.set N with
    | none => rfl
    | some b =>
      obtain ⟨hrec, hor⟩ := hb b hr
      simp only [List.filter_nil, List.map_nil, List.foldl_nil, Option.map_some']
      rw [← hrec, ← hor]
  | p :: ps, st, st', hcur, hwf, hps, hb, h => by
    obtain ⟨st1, h1, h⟩ := Option.bind_eq_some.1 h
    have hps' := fun q hq => hps q (List.mem_cons_of_mem p hq)
    by_cases hpN : p.var.name = N
    · obtain ⟨hfl, hpc, hpo⟩ := hps p (List.mem_cons_self p ps) hpN
      obtain ⟨hf1, hwf1, hr1⟩ := definePatternVar_append hcur hwf hfl hpc
        (fun b hb' => by
          obtain ⟨hrec, hor⟩ := hb b (hpN ▸ hb')
          exact ⟨hrec, hor ▸ hcmd, hor ▸ hovr⟩) h1
      have hcur1 : st1.current.bind st1.lists = some n := by
        rw [hf1.current, hf1.lists]; exact hcur
      have hN1 : st1.read n.set N = (appendStep N ((st.read n.set N).map Binding.value)
          p.var.value).map fun a => ⟨a, o, true⟩ := by
        rw [hr1, ← hpN]
        have hgate : ∀ b, st.read n.set p.var.name = some b →
            b.origin = normalizeOrigin cx.envOverrides p.var.origin := fun b hb' => by
          rw [hpo, hnorm]; exact (hb b (hpN ▸ hb')).2
        cases hr : st.read n.set p.var.name with
        | none =>
          dsimp only
          rw [refDefine_self hgate, hpo, hnorm]
          rfl
        | some b =>
          obtain ⟨hrec, hor⟩ := hb b (hpN ▸ hr)
          dsimp only
          by_cases hw : p.var.value = ""
          · rw [if_pos hw, hr]
            simp [appendStep, hw, ← hrec, ← hor]
          · rw [if_neg hw, refDefine_self hgate, hpo, hnorm]
            simp [appendStep, hw]
      rw [definePatternVarList_append hcmd hovr hnorm hcur1 hwf1 hps' (fun b hb' => by
          rw [hN1] at hb'
          obtain ⟨a, -, rfl⟩ := Option.map_eq_some'.1 hb'
          exact ⟨rfl, rfl⟩) h, hN1]
      cases happ : appendStep N ((st.read n.set N).map Binding.value) p.var.value with
      | none => simp [appendStep] at happ
      | some a => simp [List.filter_cons, hpN, happ]
    · obtain ⟨hf1, hwf1, hr1⟩ := definePatternVar_other hcur hwf h1
      have hcur1 : st1.current.bind st1.lists = some n := by
        rw [hf1.current, hf1.lists]; exact hcur
      have hN1 : st1.read n.set N = st.read n.set N := hr1 N (Ne.symm hpN)
      rw [definePatternVarList_append hcmd hovr hnorm hcur1 hwf1 hps' (hN1 ▸ hb) h, hN1]
      simp [List.filter_cons, hpN]

end list

end MakeVariables
