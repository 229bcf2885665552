import MakeVariables.Scope
import MakeVariables.Table
import MakeVariables.Model.Definition
/-!
# Merges — `merge_variable_sets` and `merge_variable_set_lists`

`merge_variable_set_lists (&L0, L1)` walks the two chains in step until
either reaches `global_setlist`, folds each set of `L1` into the aligned
set of `L0`, and then hangs what is left of `L1` behind the last link of
`L0` it visited. The only overlap it checks for is `L1` being a link of
`L0` before `global_setlist`.

Two other overlaps go wrong. When `L0` is the tail of `L1`, as for a
target's parent receiving the target's chain, what is left of `L1` is
`L0`'s own last link, which is then linked behind itself: the chain no
longer reaches `global_setlist`, and `lookup_variable` walks it for ever
(`merge_into_parent_chain_cycles`). When the two chains share a tail, as
for two targets of one parent, the walk reaches the shared link on both
sides and merges its set into itself: every record finds itself and is
freed while its slot stays (`mergeVariableSets_self`,
`merge_shared_tail_frees`).
-/

namespace MakeVariables

open State

/-! ## One set into another -/

section sets

variable {st : State} {toSet : SetId} {u v : VarId}

/-- A turn on a record of the target set itself frees the record: it
finds itself, or it was freed already. -/
theorem mergeVariableStep_of_mem (hu : u ∈ st.table toSet) :
    mergeVariableStep toSet st u = st.freeVar u := by
  unfold mergeVariableStep
  cases hx : st.vars u with
  | none =>
    show st = { st with vars := Function.update st.vars u none }
    rw [← hx, Function.update_eq_self]
  | some x =>
    have hfound : st.findSlot toSet x.name ≠ none := fun h => findSlot_eq_none.1 h u hu x hx rfl
    obtain ⟨w, hw⟩ := Option.ne_none_iff_exists'.1 hfound
    simp only [hw]

/-- **A set merged into itself** loses every record, as a popped set does. -/
theorem mergeVariableSets_self (s : SetId) (st : State) :
    mergeVariableSets s s st = st.freeRecords s := by
  unfold mergeVariableSets freeRecords
  suffices ∀ (t : List VarId) (st' : State), (∀ u ∈ t, u ∈ st'.table s) →
      t.foldl (mergeVariableStep s) st' = t.foldl freeVar st' from this _ st fun _ h => h
  intro t
  induction t with
  | nil => intros; rfl
  | cons u t ih =>
    intro st' ht
    rw [List.foldl_cons, List.foldl_cons, mergeVariableStep_of_mem (ht u (List.mem_cons_self _ _))]
    exact ih _ fun w hw => ht w (List.mem_cons_of_mem _ hw)

/-- A turn touches neither the links nor the files. -/
theorem mergeVariableStep_frame :
    (mergeVariableStep toSet st u).lists = st.lists ∧ (mergeVariableStep toSet st u).files = st.files := by
  unfold mergeVariableStep
  split
  · exact ⟨rfl, rfl⟩
  · split <;> exact ⟨rfl, rfl⟩

/-- A turn frees or moves records; it brings none back. -/
theorem mergeVariableStep_vars_none (h : st.vars v = none) :
    (mergeVariableStep toSet st u).vars v = none := by
  unfold mergeVariableStep
  split
  · exact h
  · split
    · exact h
    · by_cases hvu : v = u
      · subst hvu; simp
      · simp [Function.update_noteq hvu, h]

/-- A turn drops no record from a table. -/
theorem mem_table_mergeVariableStep {s : SetId} (hv : v ∈ st.table s) :
    v ∈ (mergeVariableStep toSet st u).table s := by
  unfold mergeVariableStep
  split
  · exact hv
  · split
    · by_cases hs : s = toSet
      · subst hs
        simp only [bumpIf, setTable, table, Function.update_same, Option.getD_some, List.mem_append]
        exact Or.inl hv
      · simpa [table, Function.update_noteq hs] using hv
    · exact hv

theorem mergeVariableSets_frame (fromSet : SetId) :
    (mergeVariableSets toSet fromSet st).lists = st.lists ∧
      (mergeVariableSets toSet fromSet st).files = st.files := by
  unfold mergeVariableSets
  generalize st.table fromSet = t
  induction t generalizing st with
  | nil => exact ⟨rfl, rfl⟩
  | cons u t ih =>
    obtain ⟨h1, h2⟩ := @ih (mergeVariableStep toSet st u)
    exact ⟨h1.trans mergeVariableStep_frame.1, h2.trans mergeVariableStep_frame.2⟩

theorem mem_table_mergeVariableSets (fromSet : SetId) {s : SetId} (hv : v ∈ st.table s) :
    v ∈ (mergeVariableSets toSet fromSet st).table s := by
  unfold mergeVariableSets
  generalize st.table fromSet = t
  induction t generalizing st with
  | nil => exact hv
  | cons u t ih => exact ih (mem_table_mergeVariableStep hv)

end sets

/-! ## The walk in step -/

section loop

variable {st : State}

theorem mergeSetLoop_stop {fuel : Nat} {s1 dst last : Option ListId}
    (h : s1 = some globalSetlist ∨ dst = some globalSetlist) :
    mergeSetLoop st fuel s1 dst last = some (s1, last, st) := by
  unfold mergeSetLoop; rw [if_pos h]

theorem mergeSetLoop_step {fuel : Nat} {a t : ListId} {na nt : SetList} {last : Option ListId}
    (ha : a ≠ globalSetlist) (ht : t ≠ globalSetlist) (hna : st.lists a = some na)
    (hnt : st.lists t = some nt) :
    mergeSetLoop st (fuel + 1) (some a) (some t) last =
      mergeSetLoop (mergeVariableSets nt.set na.set st) fuel na.next nt.next (some t) := by
  conv_lhs => unfold mergeSetLoop
  rw [if_neg (by simpa using And.intro ha ht)]
  simp only [hna, hnt]

end loop

/-! ## A target's chain into its parent's -/

/-- **Merging a target's chain into its parent's closes a cycle.** When
file `p`'s chain is the one link `lp` before `global_setlist`, and `la` is a
link in front of it (the chain of a target whose parent is `p`),
`merge_variable_set_lists (&p->variables, la)` folds `la`'s set into `lp`'s
and then, what is left of `la`'s chain being `lp`, links `lp` behind
itself. -/
theorem merge_into_parent_chain_cycles {st : State} {p : FileId} {fp : File}
    {la lp : ListId} {na np : SetList} (hp : st.files p = some fp) (hlp : fp.variablesList = some lp)
    (hnp : st.lists lp = some np) (hnp' : np.next = some globalSetlist)
    (hna : st.lists la = some na) (hna' : na.next = some lp)
    (hne : la ≠ lp) (hla0 : la ≠ globalSetlist) (hlp0 : lp ≠ globalSetlist)
    (hfresh : la < st.fresh ∧ lp < st.fresh) :
    ∃ st', mergeVariableSetLists p (some la) st = some st' ∧
      st'.lists lp = some { np with next := some lp } ∧ st'.files = st.files ∧
      st'.sets = (mergeVariableSets np.set na.set st).sets := by
  obtain ⟨k, hk⟩ : ∃ k, st.fresh = k + 2 :=
    Nat.exists_eq_add_of_le' (Nat.lt_of_le_of_lt (Nat.pos_of_ne_zero hlp0) hfresh.2)
  obtain ⟨hl1, hf1⟩ := @mergeVariableSets_frame st np.set na.set
  have hchain : chainHasBefore st la st.fresh (some lp) = some false := by
    rw [hk]; simp [chainHasBefore, hlp0, Ne.symm hne, hnp, hnp']
  have hloop : mergeSetLoop st st.fresh (some la) (some lp) none =
      some (some lp, some lp, mergeVariableSets np.set na.set st) := by
    rw [hk, mergeSetLoop_step hla0 hlp0 hna hnp, hna', hnp', mergeSetLoop_stop (Or.inr rfl)]
  refine ⟨(mergeVariableSets np.set na.set st).setList lp { np with next := some lp }, ?_, ?_, ?_, rfl⟩
  · simp only [mergeVariableSetLists, hp, hla0, hlp, hchain, hloop, if_false]
    simp [hlp0, hl1, hnp]
  · simp
  · simp [hf1]

/-- Files `1` (the parent) and `2` (a target whose parent is `1`), with no
chains yet. -/
def parentChildFiles : State :=
  (State.initial.setFile 1 ⟨"p", none, none, none, none, false⟩).setFile 2
    ⟨"a", none, none, some 1, none, false⟩

/-- `initialize_file_variables (a, 1)`: `a`'s link `1` in front of the
parent's link `2`, which ends at `global_setlist`. -/
def parentChildRun : Option State :=
  initializeFileVariables plainContext .empty 3 2 true parentChildFiles

/-- After `initialize_file_variables (a, 1)` and
`merge_variable_set_lists (&p->variables, a->variables)`, the parent's link
is its own successor, and the walk of `lookup_variable` from the parent's
chain does not end, whatever the name. -/
theorem parent_merge_chain_never_ends :
    ∃ st st', parentChildRun = some st ∧
      mergeVariableSetLists 1 ((st.files 2).bind File.variablesList) st = some st' ∧
      st'.lists 2 = some ⟨some 2, 2, true⟩ ∧
      ∀ name r, ¬ WalkEnds st' name ((st'.files 1).bind File.variablesList) r := by
  obtain ⟨st', hm, hl, hf, hs⟩ := @merge_into_parent_chain_cycles
    (parentChildRun.getD State.initial) 1 ⟨"p", some 2, none, none, none, false⟩ 1 2
    ⟨some 2, 1, true⟩ ⟨some 0, 2, true⟩
    rfl rfl rfl rfl rfl rfl (by decide) (by decide) (by decide) ⟨by decide, by decide⟩
  refine ⟨_, st', rfl, hm, hl, fun name r ⟨fuel, hw⟩ => ?_⟩
  have hname : st'.findSlot 2 name = none := by
    simp only [findSlot, table, hs]
    rfl
  rw [hf, show ((parentChildRun.getD State.initial).files 1).bind File.variablesList = some 2
    from rfl, lookupVariableFrom_self_loop hl rfl hname] at hw
  cases hw

/-! ## Two targets of one parent -/

/-- **Merging chains with a shared tail frees the shared set's records.**
When file `f`'s chain is `la → lp` and the chain merged in is `lb → lp`,
with `lp` the last link before `global_setlist`,
`merge_variable_set_lists (&f->variables, lb)` folds `lb`'s set into
`la`'s and then `lp`'s set into itself. The links stay as they were, so
`lp` is still on `f`'s chain and its set still lists every record it
listed, and every one of those records is freed. -/
theorem merge_shared_tail_frees {st : State} {f : FileId} {file : File} {la lb lp : ListId}
    {na nb np : SetList} (hf : st.files f = some file) (hfl : file.variablesList = some la)
    (hna : st.lists la = some na) (hnb : st.lists lb = some nb) (hnp : st.lists lp = some np)
    (hna' : na.next = some lp) (hnb' : nb.next = some lp) (hnp' : np.next = some globalSetlist)
    (hab : la ≠ lb) (hbp : lb ≠ lp) (ha0 : la ≠ globalSetlist) (hb0 : lb ≠ globalSetlist)
    (hp0 : lp ≠ globalSetlist) (hfresh : 3 ≤ st.fresh) :
    ∃ st', mergeVariableSetLists f (some lb) st = some st' ∧ st'.lists = st.lists ∧
      ∀ v ∈ st.table np.set, v ∈ st'.table np.set ∧ st'.vars v = none := by
  obtain ⟨k, hk⟩ := Nat.exists_eq_add_of_le' hfresh
  set st1 := mergeVariableSets na.set nb.set st
  obtain ⟨hl1, -⟩ := @mergeVariableSets_frame st na.set nb.set
  have hchain : chainHasBefore st lb st.fresh (some la) = some false := by
    rw [hk]; simp [chainHasBefore, ha0, hab, hna, hna', hp0, Ne.symm hbp, hnp, hnp']
  have hloop : mergeSetLoop st st.fresh (some lb) (some la) none =
      some (some globalSetlist, some lp, st1.freeRecords np.set) := by
    rw [hk, mergeSetLoop_step hb0 ha0 hnb hna, hnb', hna',
      mergeSetLoop_step hp0 hp0 (hl1 ▸ hnp) (hl1 ▸ hnp), mergeVariableSets_self, hnp',
      mergeSetLoop_stop (Or.inl rfl)]
  refine ⟨st1.freeRecords np.set, ?_, by rw [freeRecords_lists]; exact hl1, fun v hv => ?_⟩
  · simp only [mergeVariableSetLists, hf, hb0, hfl, hchain, hloop, if_false, if_true]
  · have hv1 : v ∈ st1.table np.set := mem_table_mergeVariableSets _ hv
    exact ⟨by simpa [table] using hv1, freeRecords_vars_of_mem hv1⟩

/-- Files `1` (the parent) and `2`, `3` (two targets whose parent is `1`),
with no chains yet. -/
def siblingFiles : State :=
  (parentChildFiles.setFile 3 ⟨"b", none, none, some 1, none, false⟩)

/-- `initialize_file_variables` on both targets, then `X = 1` in the
parent's own set: the chains are `1 → 2` and `3 → 2`, and `X` is record
`4` of set `2`. -/
def siblingRun : Option State :=
  ((initializeFileVariables plainContext .empty 3 2 true siblingFiles).bind
    (initializeFileVariables plainContext .empty 3 3 true)).map fun st =>
      (defineVariableInSet false "X" "1" .file false (some 2) none st).2

/-- After `merge_variable_set_lists (&a->variables, b->variables)` for two
targets `a` and `b` of one parent, the parent's `X`, which `a`'s chain
found before, is freed while the parent's set, still on `a`'s chain, lists
it. -/
theorem sibling_merge_frees_parent_binding :
    ∃ st st', siblingRun = some st ∧
      WalkEnds st "X" ((st.files 2).bind File.variablesList) (some 4) ∧
      mergeVariableSetLists 2 ((st.files 3).bind File.variablesList) st = some st' ∧
      st'.lists = st.lists ∧ 4 ∈ st'.table 2 ∧ st'.vars 4 = none := by
  obtain ⟨st', hm, hl, hv⟩ := @merge_shared_tail_frees (siblingRun.getD State.initial) 2
    ⟨"a", some 1, none, some 1, none, false⟩ 1 3 2 ⟨some 2, 1, true⟩ ⟨some 2, 3, true⟩
    ⟨some 0, 2, true⟩ rfl rfl rfl rfl rfl rfl rfl rfl (by decide) (by decide) (by decide)
    (by decide) (by decide) (by decide)
  obtain ⟨h4, h4'⟩ := hv 4 (by decide)
  exact ⟨_, st', rfl, ⟨3, by decide⟩, hm, hl, h4, h4'⟩

end MakeVariables
