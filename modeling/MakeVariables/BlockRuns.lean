import MakeVariables.ScopeLookup
/-!
# What a run of blocks leaves in the sets

A `Block` is a run of `define_variable_in_set` and
`undefine_variable_in_set` calls, nested in `push_new_variable_scope` /
`pop_variable_scope` pairs and in `install_file_context` /
`restore_file_context` pairs. Its reference reading, `Block.ref`, treats
each set as a finite map under the precedence gate and the scopes and file
contexts as transparent: the effect on set `s` is every call that names
`s`, in program order.

Every call keeps to its set (`Touches`): it rewrites that table, the
records in it and records past the allocation frontier. With no record
in two tables (`HeapWF`), that leaves every other set as it was
(`HeapWF.of_touches`). A pop frees the scope's set, which no set older
than the scope is. So a block that runs leaves each set it found reading
as its reference reading (`block_run_reads_as_reference`).
-/

namespace MakeVariables

open State

/-- Every table well formed, and no record in two tables. -/
structure HeapWF (st : State) : Prop where
  tables : ∀ s, TableWF st s
  apart : ∀ s s' u, u ∈ st.table s → u ∈ st.table s' → s = s'

/-- What a call on set `t` may change: the table `t`, the records in it,
and records at or past the frontier, which it may add to `t`. -/
structure Touches (t : SetId) (st st' : State) : Prop where
  tables : ∀ s, s ≠ t → st'.table s = st.table s
  vars : ∀ u < st.fresh, u ∉ st.table t → st'.vars u = st.vars u
  fresh : st.fresh ≤ st'.fresh
  added : ∀ u ∈ st'.table t, u ∈ st.table t ∨ st.fresh ≤ u

/-- The reference reading of a block's effect on set `s`: every call that
names `s` (`NULL` names `global_variable_set`) in program order, scopes
and file contexts transparent. -/
def Block.ref (envOverrides : Bool) (s : SetId) : Block → TableMap → TableMap
  | .skip, m => m
  | .seq a b, m => b.ref envOverrides s (a.ref envOverrides s m)
  | .define name value origin recursive set _, m =>
    if set.getD globalVariableSet = s then refDefine envOverrides name value origin recursive m else m
  | .undefine name origin set, m =>
    if set.getD globalVariableSet = s then refUndefine envOverrides name origin m else m
  | .scope body, m => body.ref envOverrides s m
  | .context _ body, m => body.ref envOverrides s m

/-- The heap invariant reads the tables, the records and the frontier
alone. -/
theorem HeapWF.of_heaps {st st' : State} (hw : HeapWF st) (hs : st'.sets = st.sets)
    (hv : st'.vars = st.vars) (hf : st'.fresh = st.fresh) : HeapWF st' :=
  have ht : ∀ s, st'.table s = st.table s := fun s => by simp only [State.table, hs]
  ⟨fun s => ((hw.tables s).congr (ht s) hf.ge fun u _ => by rw [hv]).1,
    fun s s' u hu hu' => hw.apart s s' u (ht s ▸ hu) (ht s' ▸ hu')⟩

section touches

variable {st st' : State} {t : SetId}

/-- **A call that keeps to its set keeps the heap well formed**, given its
own table stays well formed, and every other set reads as before. -/
theorem HeapWF.of_touches (hw : HeapWF st) (h : Touches t st st') (ht : TableWF st' t) :
    HeapWF st' ∧ ∀ s, s ≠ t → st'.read s = st.read s := by
  have hother : ∀ s, s ≠ t → TableWF st' s ∧ st'.read s = st.read s := fun s hs =>
    (hw.tables s).congr (h.tables s hs) h.fresh fun u hu =>
      h.vars u ((hw.tables s).lt_fresh u hu) fun hut => hs (hw.apart s t u hu hut)
  -- a record of a table after the call was in it before, or is new to `t`
  have old : ∀ s u, u ∈ st'.table s → u ∈ st.table s ∨ s = t ∧ st.fresh ≤ u := fun s u hu => by
    by_cases hst : s = t
    · subst hst
      exact (h.added u hu).imp_right fun h' => ⟨rfl, h'⟩
    · exact .inl (h.tables s hst ▸ hu)
  refine ⟨⟨fun s => ?_, fun s s' u hs hs' => ?_⟩, fun s hs => (hother s hs).2⟩
  · by_cases hst : s = t
    · exact hst ▸ ht
    · exact (hother s hst).1
  · rcases old s u hs with hu | ⟨rfl, hu⟩ <;> rcases old s' u hs' with hu' | ⟨rfl, hu'⟩
    · exact hw.apart s s' u hu hu'
    · exact absurd hu' (Nat.not_le.2 ((hw.tables s).lt_fresh u hu))
    · exact absurd hu (Nat.not_le.2 ((hw.tables s').lt_fresh u hu'))
    · rfl

variable (envOverrides : Bool) (name value : String) (origin : VariableOrigin) (recursive : Bool)
  (flocp : Option Floc)

theorem defineVariableInSet_touches :
    Touches t st (defineVariableInSet envOverrides name value origin recursive (some t) flocp st).2 := by
  simp only [defineVariableInSet, Option.getD_some]
  cases hf : st.findSlot t name with
  | none =>
    -- a new record at the frontier joins the set
    refine ⟨fun s hs => by simp [State.table, Function.update_noteq hs],
      fun u hu _ => by simp [Function.update_noteq (Nat.ne_of_lt hu)], by simp, fun u hu => ?_⟩
    simp only [bumpIf, setTable, State.table, Function.update_same, Option.getD_some,
      List.mem_append, List.mem_singleton] at hu
    rcases hu with hu | rfl
    · exact .inl hu
    · exact .inr le_rfl
  | some q =>
    -- the record of the name, in the set, is rewritten
    obtain ⟨hq, -, -⟩ := findSlot_mem hf
    dsimp only
    split_ifs <;> exact ⟨fun _ _ => rfl,
      fun u _ hu => by simp [Function.update_noteq (show u ≠ q.1 from fun e => hu (e ▸ hq))], le_rfl, fun u hu => .inl hu⟩

theorem undefineVariableInSet_touches :
    Touches t st (undefineVariableInSet envOverrides name origin (some t) st) := by
  simp only [undefineVariableInSet, Option.getD_some]
  cases hf : st.findSlot t name with
  | none => exact ⟨fun _ _ => rfl, fun _ _ _ => rfl, le_rfl, fun u hu => .inl hu⟩
  | some q =>
    obtain ⟨hq, -, -⟩ := findSlot_mem hf
    dsimp only
    split_ifs
    · -- the record leaves the set and is freed
      refine ⟨fun s hs => by simp [State.table, Function.update_noteq hs],
        fun u _ hu => by simp [Function.update_noteq (show u ≠ q.1 from fun e => hu (e ▸ hq))], le_rfl, fun u hu => .inl ?_⟩
      simp only [bumpIf, freeVar, setTable, State.table, Function.update_same, Option.getD_some] at hu
      exact List.mem_of_mem_erase hu
    · exact ⟨fun _ _ => rfl, fun u _ hu => by simp [Function.update_noteq (show u ≠ q.1 from fun e => hu (e ▸ hq))],
        le_rfl, fun u hu => .inl hu⟩

/-- **A definition**: the heap stays well formed, the set it names reads as
the reference update, every other set as before. -/
theorem HeapWF.define (hw : HeapWF st) (t : SetId) :
    HeapWF (defineVariableInSet envOverrides name value origin recursive (some t) flocp st).2 ∧
      ∀ s, (defineVariableInSet envOverrides name value origin recursive (some t) flocp st).2.read s =
        if t = s then refDefine envOverrides name value origin recursive (st.read s) else st.read s := by
  obtain ⟨ht, hr⟩ := defineVariableInSet_spec envOverrides name value origin recursive flocp (hw.tables t)
  obtain ⟨hw', ho⟩ := hw.of_touches (defineVariableInSet_touches envOverrides name value origin recursive flocp) ht
  refine ⟨hw', fun s => ?_⟩
  split_ifs with hts
  · exact hts ▸ hr
  · exact ho s (Ne.symm hts)

/-- **An undefinition**, likewise. -/
theorem HeapWF.undefine (hw : HeapWF st) (t : SetId) :
    HeapWF (undefineVariableInSet envOverrides name origin (some t) st) ∧
      ∀ s, (undefineVariableInSet envOverrides name origin (some t) st).read s =
        if t = s then refUndefine envOverrides name origin (st.read s) else st.read s := by
  obtain ⟨ht, hr⟩ := undefineVariableInSet_spec envOverrides name origin (hw.tables t)
  obtain ⟨hw', ho⟩ := hw.of_touches (undefineVariableInSet_touches envOverrides name origin) ht
  refine ⟨hw', fun s => ?_⟩
  split_ifs with hts
  · exact hts ▸ hr
  · exact ho s (Ne.symm hts)

end touches

section scopes

variable {st st' : State}

/-- **A push** adds an empty set at the frontier and keeps every other. -/
theorem HeapWF.push (hw : HeapWF st) :
    HeapWF (pushNewVariableScope st).2 ∧ ∀ s, s ≠ st.fresh → (pushNewVariableScope st).2.read s = st.read s := by
  obtain ⟨hv, -, hfresh, hs, -⟩ := pushNewVariableScope_common st
  have hnil : (pushNewVariableScope st).2.table st.fresh = [] := by simp [State.table, hs]
  exact hw.of_touches ⟨fun s hs' => by simp [State.table, hs, Function.update_noteq hs'],
    fun u _ _ => by rw [hv], by omega, fun u hu => by simp [hnil] at hu⟩ (TableWF.of_table_nil hnil)

/-- **A pop** frees the current set and its records, and keeps every other
set. -/
theorem HeapWF.pop (hw : HeapWF st) (h : popVariableScope st = some st') {c : SetList}
    (hc : st.current.bind st.lists = some c) :
    HeapWF st' ∧ ∀ s, s ≠ c.set → st'.read s = st.read s := by
  obtain ⟨ht, hv, hfresh, hnil⟩ := popVariableScope_frame h hc
  exact hw.of_touches ⟨ht, fun u _ hu => by rw [hv, if_neg hu], hfresh.ge,
    fun u hu => by simp [hnil] at hu⟩ (TableWF.of_table_nil hnil)

end scopes

/-- The state of `main` before the makefiles are read keeps the heap well
formed. -/
theorem heapWF_initial : HeapWF State.initial :=
  have hnil : ∀ s, State.initial.table s = [] := fun s => by
    by_cases hs : s = globalVariableSet <;> simp [State.table, State.initial, hs]
  ⟨fun s => TableWF.of_table_nil (hnil s), fun s _ u hu => by simp [hnil s] at hu⟩

/-- The heap part of a block's run: by induction over the block, from a
run that reaches its end. -/
theorem Block.run_heap (e : Bool) : ∀ (b : Block) {st st' : State}, ScopeWF st → HeapWF st →
    b.Safe st.files st.current.isSome → b.run e st = some st' →
    HeapWF st' ∧ ∀ s < st.fresh, st'.read s = b.ref e s (st.read s)
  | .skip, _, _, _, hw, _, h => by cases h; exact ⟨hw, fun _ _ => rfl⟩
  | .seq a b, st, st', hs, hw, hsafe, h => by
    obtain ⟨st1, h1, h2⟩ := Option.bind_eq_some.1 h
    obtain ⟨st1', h1', hf1⟩ := Block.run_frame e a hs hsafe.1
    obtain rfl : st1' = st1 := Option.some.inj (h1'.symm.trans h1)
    obtain ⟨hw1, hr1⟩ := Block.run_heap e a hs hw hsafe.1 h1
    obtain ⟨hw2, hr2⟩ := Block.run_heap e b (hs.of_frame hf1) hw1
      (by rw [hf1.files, hf1.current]; exact hsafe.2) h2
    exact ⟨hw2, fun s hlt => by rw [hr2 s (Nat.lt_of_lt_of_le hlt hf1.fresh_le), hr1 s hlt]; rfl⟩
  | .define name value origin recursive set flocp, st, _, _, hw, _, h => by
    cases h
    obtain ⟨hw', hr⟩ := hw.define e name value origin recursive flocp (set.getD globalVariableSet)
    exact ⟨hw', fun s _ => hr s⟩
  | .undefine name origin set, st, _, _, hw, _, h => by
    cases h
    obtain ⟨hw', hr⟩ := hw.undefine e name origin (set.getD globalVariableSet)
    exact ⟨hw', fun s _ => hr s⟩
  | .scope body, st, st3, hs, hw, hsafe, h => by
    obtain ⟨st2, h2, h3⟩ := Option.bind_eq_some.1 h
    obtain ⟨-, hfiles, hfresh, -, hcur⟩ := pushNewVariableScope_common st
    have hsafe2 : body.Safe (pushNewVariableScope st).2.files
        (pushNewVariableScope st).2.current.isSome := by rw [hfiles, hcur]; exact hsafe.2
    obtain ⟨st2', h2', hf2⟩ := Block.run_frame e body hs.push hsafe2
    obtain rfl : st2' = st2 := Option.some.inj (h2'.symm.trans h2)
    -- the push, the body, then the pop of the set the push made
    obtain ⟨hwp, hrp⟩ := hw.push
    obtain ⟨hw2, hr2⟩ := Block.run_heap e body hs.push hwp hsafe2 h2
    obtain ⟨c, hc, hcs⟩ := Option.map_eq_some'.1 (pushNewVariableScope_current_set st)
    obtain ⟨hw3, hr3⟩ := hw2.pop h3 (by rw [hf2.current, hf2.lists]; exact hc)
    refine ⟨hw3, fun s hlt => ?_⟩
    rw [hr3 s (hcs ▸ Nat.ne_of_lt hlt), hr2 s (by omega), hrp s (Nat.ne_of_lt hlt)]
    rfl
  | .context f body, st, _, hs, hw, hsafe, h => by
    obtain ⟨st1, h1, rfl⟩ := Option.map_eq_some'.1 h
    obtain ⟨hw1, hr1⟩ := Block.run_heap e body (hs.install f) (hw.of_heaps rfl rfl rfl) hsafe h1
    exact ⟨hw1.of_heaps rfl rfl rfl, hr1⟩

/-- **Scopes are transparent to the sets that exist before them.** From a
state with the scope invariant, well-formed tables and no record in two
tables, a block that pushes no scope where no chain is current runs to its
end. It restores the links, the files and the current chain, keeps the
heap well formed, and leaves every set that existed at its start reading
as the reference reading of the block: every call naming that set, inside
scopes and file contexts too, in program order. The sets the block's own
scopes made are gone. -/
theorem block_run_reads_as_reference (e : Bool) (b : Block) {st : State} (hs : ScopeWF st)
    (hw : HeapWF st) (hsafe : b.Safe st.files st.current.isSome) :
    ∃ st', b.run e st = some st' ∧ BlockFrame st st' ∧ HeapWF st' ∧
      ∀ s < st.fresh, st'.read s = b.ref e s (st.read s) := by
  obtain ⟨st', h, hf⟩ := Block.run_frame e b hs hsafe
  exact ⟨st', h, hf, Block.run_heap e b hs hw hsafe h⟩

/-- `X` from the makefile, then a scope that overrides it from the command
line in the global set and defines `Y` in a file's context. -/
def scopedBlock : Block :=
  .seq (.define "X" "1" .file false none none)
    (.scope (.seq (.define "X" "2" .command false none none)
      (.context 0 (.define "Y" "3" .file false none none))))

theorem block_run_reads_as_reference_initial :
    ScopeWF State.initial ∧ HeapWF State.initial ∧
      scopedBlock.Safe State.initial.files State.initial.current.isSome ∧
      ∃ st', scopedBlock.run false State.initial = some st' ∧ BlockFrame State.initial st' ∧
        HeapWF st' ∧ ∀ s < State.initial.fresh,
          st'.read s = scopedBlock.ref false s (State.initial.read s) :=
  ⟨scopeWF_initial, heapWF_initial, ⟨trivial, rfl, trivial, trivial⟩,
    block_run_reads_as_reference false scopedBlock scopeWF_initial heapWF_initial
      ⟨trivial, rfl, trivial, trivial⟩⟩

end MakeVariables
