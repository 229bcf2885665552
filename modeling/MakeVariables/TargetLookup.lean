import MakeVariables.Initialize
import MakeVariables.ScopeLookup
/-!
# A target's lookup after `initialize_file_variables`

`initialize_file_variables (file, 0)` links a target's own set to the
pattern-specific set of the patterns that match its name, when one does,
and that to the parent's chain (`PatternChain`). `lookup_variable_for_file`
walks the chain so built (`lookupVariableFrom_chainView`). Read together
(`initialize_file_variables_lookup`), a lookup for the target answers its
own binding first, then the pattern-specific one, then what the parent's
chain shows. The link into the parent's chain is a `next_is_parent` link,
so the parent's private variables stay hidden.

A member of a double-colon group is the other branch: its own link goes
to the chain of the group's root, built first, and not as a parent link
(`initializeFileVariables_member`). So a member's lookup shows the root's
own set in full, private variables included, and no pattern-specific
set of the member's own is on its chain (`initialize_double_colon_lookup`).
-/

namespace MakeVariables

open State

section chain

variable {cx : Context} {pv : PatternVars}

/-- **The chain `initialize_file_variables` builds** for a target not
searched yet, outside a double-colon group, for any `pattern_vars` whose
order holds each entry once. -/
theorem initializeFileVariables_chain (hnd : pv.order.Nodup) {fuel : Nat} {f : FileId} {x : File}
    {st st' : State} (hx : st.files f = some x) (hdc : x.doubleColon = none ∨ x.doubleColon = some f)
    (hs : x.patSearched = false) (hp : x.patVariables = none)
    (hl : ∀ l, x.variablesList = some l → l < st.fresh)
    (h : initializeFileVariables cx pv fuel f false st = some st') :
    ∃ l, PatternChain cx pv f x st' l := by
  cases fuel with
  | zero => cases h
  | succ fuel =>
    obtain ⟨-, -, -, hf0⟩ := fileSetList_spec hx
    exact ⟨_, initializeParent_pattern_chain hnd hf0 (initNext_eq_parent hdc) hs hp (fileSetList_lt hl)
      (initializeFileVariables_root hx hdc h)⟩

theorem linkSet_of_lists {st : State} {l : ListId} {n : SetList} (hn : st.lists l = some n) :
    linkSet st l = n.set := by
  simp [linkSet, hn]

theorem linkParent_of_lists {st : State} {l : ListId} {n : SetList} (hn : st.lists l = some n) :
    linkParent st l = n.nextIsParent := by
  simp [linkParent, hn]

/-- **What the walk from the target's link shows**: its own set, then the
pattern-specific set when a pattern matches, both read as they are, then
the parent's chain read across a `next_is_parent` link. -/
theorem PatternChain.view {f : FileId} {x : File} {st : State} {l : ListId}
    (hc : PatternChain cx pv f x st l) {F : Nat} {L : List ListId}
    (hL : walkLinks st F (some l) = some L) :
    ∃ n pats Lp, st.lists l = some n ∧ walkLinks st F (parentChain x st) = some Lp ∧ Lp <:+ L ∧
      ((matchingEntries pv x.name = [] ∧ pats = []) ∨
        (matchingEntries pv x.name ≠ [] ∧ ∃ s, PatternSetBinds cx pv x.name st s ∧ pats = [st.read s])) ∧
      chainView st L false = st.read n.set :: pats ++ chainView st Lp true := by
  obtain ⟨-, n, hn, hcase⟩ := hc
  cases F with
  | zero => cases hL
  | succ F =>
    simp only [walkLinks, hn, Option.some_bind] at hL
    obtain ⟨L1, hL1, rfl⟩ := Option.map_eq_some'.1 hL
    refine ⟨n, ?_⟩
    rw [chainView, linkSet_of_lists hn, linkParent_of_lists hn, visibleMap_false, Bool.false_or]
    split_ifs at hcase with hm
    · -- no pattern matches: the own link goes straight to the parent's chain
      obtain ⟨-, hnext, hpar⟩ := hcase
      rw [hnext] at hL1
      exact ⟨[], L1, hn, walkLinks_mono hL1 (Nat.le_succ F), ⟨[l], rfl⟩, .inl ⟨hm, rfl⟩,
        by rw [hpar]; rfl⟩
    · -- the pattern-specific link sits between them
      obtain ⟨pl, s, -, hnext, hpar, hpl, hbinds⟩ := hcase
      rw [hnext] at hL1
      cases F with
      | zero => cases hL1
      | succ F =>
        simp only [walkLinks, hpl, Option.some_bind] at hL1
        obtain ⟨Lp, hLp, rfl⟩ := Option.map_eq_some'.1 hL1
        refine ⟨[st.read s], Lp, hn, walkLinks_mono hLp (by omega), ⟨[l, pl], rfl⟩,
          .inr ⟨hm, s, hbinds, rfl⟩, ?_⟩
        rw [hpar, chainView, linkSet_of_lists hpl, linkParent_of_lists hpl, visibleMap_false]
        rfl

end chain

/-- **A target's lookup after `initialize_file_variables (file, 0)`.** For
a target not searched yet and outside a double-colon group, whose chain
ends within the allocated links: the lookup of any name for the target
answers the first binding among its own set, then the pattern-specific
set when a pattern matches its name (binding what `PatternSetBinds` says),
then the parent's chain (`global_setlist` for a target with no parent)
with its private variables hidden. -/
theorem initialize_file_variables_lookup (cx : Context) (pv : PatternVars) (hnd : pv.order.Nodup)
    (fuel : Nat) (f : FileId) (x : File) (st st' : State) (hx : st.files f = some x)
    (hdc : x.doubleColon = none ∨ x.doubleColon = some f) (hs : x.patSearched = false)
    (hp : x.patVariables = none) (hl : ∀ l, x.variablesList = some l → l < st.fresh)
    (h : initializeFileVariables cx pv fuel f false st = some st') (L : List ListId)
    (hL : walkLinks st' st'.fresh ((st'.files f).bind File.variablesList) = some L) :
    ∃ l n pats Lp, (st'.files f).bind File.variablesList = some l ∧ st'.lists l = some n ∧
      walkLinks st' st'.fresh (parentChain x st') = some Lp ∧
      ((matchingEntries pv x.name = [] ∧ pats = []) ∨
        (matchingEntries pv x.name ≠ [] ∧ ∃ s, PatternSetBinds cx pv x.name st' s ∧ pats = [st'.read s])) ∧
      ∀ name, ∃ r st'', lookupVariableForFile name (some f) st' = some (r, st'') ∧
        (r.bind st'.vars).map Variable.binding =
          (st'.read n.set :: pats ++ chainView st' Lp true).findSome? (· name) := by
  obtain ⟨l, hc⟩ := initializeFileVariables_chain hnd hx hdc hs hp hl h
  have hfl : (st'.files f).bind File.variablesList = some l := hc.1
  rw [hfl] at hL
  obtain ⟨n, pats, Lp, hn, hLp, -, hpats, hview⟩ := hc.view hL
  refine ⟨l, n, pats, Lp, hfl, hn, hLp, hpats, fun name => ?_⟩
  obtain ⟨r, hr, hb⟩ := lookupVariableFrom_chainView name L false hL
    (show st'.fresh ≤ 2 * st'.fresh + 1 by omega)
  obtain ⟨st'', hlook⟩ := lookupVariableForFile_of_walk (hfl ▸ hr)
  exact ⟨r, st'', hlook, hview ▸ hb⟩

/-- Target `t` (file 1) under a global `X = g`. -/
def targetDemo : State :=
  ((defineVariableInSet false "X" "g" .file false none none State.initial).2).setFile 1 targetT

/-- A pattern `%: Y += 1` from a makefile. -/
def targetPatterns : PatternVars := createPatternVars [("%", 0, patternAppend "Y" "1" .file)]

theorem initialize_file_variables_lookup_t :
    ∃ st' L, targetPatterns.order.Nodup ∧
      initializeFileVariables plainContext targetPatterns 2 1 false targetDemo = some st' ∧
      walkLinks st' st'.fresh ((st'.files 1).bind File.variablesList) = some L ∧
      ∃ l n pats Lp, (st'.files 1).bind File.variablesList = some l ∧ st'.lists l = some n ∧
        walkLinks st' st'.fresh (parentChain targetT st') = some Lp ∧
        ((matchingEntries targetPatterns targetT.name = [] ∧ pats = []) ∨
          (matchingEntries targetPatterns targetT.name ≠ [] ∧
            ∃ s, PatternSetBinds plainContext targetPatterns targetT.name st' s ∧ pats = [st'.read s])) ∧
        ∀ name, ∃ r st'', lookupVariableForFile name (some 1) st' = some (r, st'') ∧
          (r.bind st'.vars).map Variable.binding =
            (st'.read n.set :: pats ++ chainView st' Lp true).findSome? (· name) :=
  ⟨_, _, by decide, rfl, rfl,
    initialize_file_variables_lookup plainContext targetPatterns (by decide) 2 1 targetT targetDemo _ rfl
      (.inl rfl) rfl rfl (fun _ h => nomatch h) rfl _ rfl⟩

/-! ## A member of a double-colon group -/

section member

variable {cx : Context} {pv : PatternVars}

/-- **What `initialize_file_variables` does for a member of a double-colon
group**: the root's run, then the member's own link sent to the root's
chain, not as a parent link. -/
theorem initializeFileVariables_member {fuel : Nat} {f g : FileId} {x : File} {st st' : State}
    (hx : st.files f = some x) (hdc : x.doubleColon = some g) (hne : g ≠ f)
    (h : initializeFileVariables cx pv (fuel + 1) f false st = some st') :
    ∃ st1 n, initializeFileVariables cx pv fuel g false (fileSetList f x st).2 = some st1 ∧
      st1.lists (fileSetList f x st).1 = some n ∧
      st' = st1.setList (fileSetList f x st).1
        { n with next := (st1.files g).bind File.variablesList, nextIsParent := false } := by
  unfold initializeFileVariables at h
  rw [hx, Option.some_bind, hdc] at h
  dsimp only at h
  rw [if_pos hne] at h
  obtain ⟨st1, h1, h⟩ := Option.bind_eq_some.1 h
  obtain ⟨n, hn, rfl⟩ := Option.map_eq_some'.1 h
  exact ⟨st1, n, h1, hn, rfl⟩

theorem setList_lists_of_not_mem {st : State} {l : ListId} {v : SetList} {L : List ListId}
    (hl : l ∉ L) : ∀ k ∈ L, (st.setList l v).lists k = st.lists k := fun k hk => by
  simp [Function.update_noteq (show k ≠ l from fun e => hl (e ▸ hk))]

/-- A walk does not read a link it does not meet. -/
theorem walkLinks_setList_of_not_mem {st : State} {l : ListId} {v : SetList} {F : Nat}
    {ol : Option ListId} {L : List ListId} (hl : l ∉ L) :
    walkLinks (st.setList l v) F ol = some L ↔ walkLinks st F ol = some L :=
  ⟨fun h => walkLinks_congr h fun k hk => (setList_lists_of_not_mem hl k hk).symm,
    fun h => walkLinks_congr h (setList_lists_of_not_mem hl)⟩

/-- Nor does what it shows. -/
theorem chainView_setList_of_not_mem {st : State} {l : ListId} {v : SetList} {L : List ListId}
    (hl : l ∉ L) (p : Bool) : chainView (st.setList l v) L p = chainView st L p :=
  chainView_congr L p fun k hk => ⟨setList_lists_of_not_mem hl k hk, fun _ => rfl⟩

end member

/-- **A member's lookup after `initialize_file_variables (file, 0)`.** For
a member of a double-colon group whose root is a target not searched yet,
and whose chain ends within the allocated links: the lookup of any name
for the member answers the first binding among its own set, then the
root's own set with the root's private variables shown (the member's link
is not a parent link), then the pattern-specific set when a pattern matches
the root's name, then the root's parent's chain with its private variables
hidden. No pattern-specific set of the member's own is on its chain. -/
theorem initialize_double_colon_lookup (cx : Context) (pv : PatternVars) (hnd : pv.order.Nodup)
    (fuel : Nat) (f g : FileId) (x y : File) (st st' : State) (hx : st.files f = some x)
    (hdc : x.doubleColon = some g) (hne : g ≠ f) (hy : st.files g = some y)
    (hdcy : y.doubleColon = none ∨ y.doubleColon = some g) (hs : y.patSearched = false)
    (hp : y.patVariables = none) (hl : ∀ l, y.variablesList = some l → l < st.fresh)
    (h : initializeFileVariables cx pv fuel f false st = some st') (L : List ListId)
    (hL : walkLinks st' st'.fresh ((st'.files f).bind File.variablesList) = some L) :
    ∃ l n lr nr pats Lp, (st'.files f).bind File.variablesList = some l ∧ st'.lists l = some n ∧
      (st'.files g).bind File.variablesList = some lr ∧ n.next = some lr ∧ n.nextIsParent = false ∧
      st'.lists lr = some nr ∧ walkLinks st' st'.fresh (parentChain y st') = some Lp ∧
      ((matchingEntries pv y.name = [] ∧ pats = []) ∨
        (matchingEntries pv y.name ≠ [] ∧ ∃ s, PatternSetBinds cx pv y.name st' s ∧ pats = [st'.read s])) ∧
      ∀ name, ∃ r st'', lookupVariableForFile name (some f) st' = some (r, st'') ∧
        (r.bind st'.vars).map Variable.binding =
          (st'.read n.set :: st'.read nr.set :: pats ++ chainView st' Lp true).findSome? (· name) := by
  cases fuel with
  | zero => cases h
  | succ fuel =>
  obtain ⟨st1, n, h1, hn, rfl⟩ := initializeFileVariables_member hx hdc hne h
  -- the root's run builds the root's chain and leaves the member's record
  obtain ⟨-, hfr0, hfo0, hf0⟩ := fileSetList_spec hx
  obtain ⟨lr, hc⟩ := initializeFileVariables_chain hnd ((hfo0 g hne).trans hy) hdcy hs hp
    (fun l hl' => lt_of_lt_of_le (hl l hl') hfr0) h1
  have hf1 := ((initializeFileVariables_frame h1).files f
    (not_initReaches_of_next h1 hf0 (by simp [initNext, hdc, hne]))).trans hf0
  clear h
  generalize (fileSetList f x st).1 = l at hn hf1 hL ⊢
  rw [hc.1] at hL ⊢
  set st2 := st1.setList l { n with next := some lr, nextIsParent := false }
  have hl2 : st2.lists l = some { n with next := some lr, nextIsParent := false } := by simp [st2]
  have hfl : (st2.files f).bind File.variablesList = some l := by simp [st2, hf1]
  rw [hfl] at hL
  -- the member's walk: its own link, then the root's walk, which does not meet it
  obtain _ | ⟨l0, L1⟩ := L
  · cases walkLinks_nil hL
  obtain ⟨hl0, m, hm, F, hF, hL1⟩ := walkLinks_cons hL
  cases hl0
  rw [hl2] at hm
  cases hm
  have hnot : l ∉ L1 := (List.nodup_cons.1 (walkLinks_nodup hL)).1
  obtain ⟨nr, pats, Lp, hnr1, hLp, hsuf, hpats, hview⟩ :=
    hc.view ((walkLinks_setList_of_not_mem hnot).1 hL1)
  have hnotP : l ∉ Lp := fun h => hnot (hsuf.subset h)
  have hlr : lr ≠ l := by
    obtain _ | ⟨k, L2⟩ := L1
    · cases walkLinks_nil hL1
    · obtain ⟨hk, -⟩ := walkLinks_cons hL1
      cases hk
      exact fun e => hnot (e ▸ List.mem_cons_self _ _)
  refine ⟨l, _, lr, nr, pats, Lp, hfl, hl2, by simpa using hc.1, rfl, rfl,
    by simpa [st2, Function.update_noteq hlr] using hnr1,
    (walkLinks_setList_of_not_mem hnotP).2 (walkLinks_mono hLp (by omega)), hpats.imp_right
      fun ⟨hm, s, hb, hs⟩ => ⟨hm, s, hb.of_read rfl, hs⟩, fun name => ?_⟩
  -- the lookup reads the member's set, then the root's view
  obtain ⟨r, hr, hb⟩ := lookupVariableFrom_chainView name (l :: L1) false hL
    (show st2.fresh ≤ 2 * st2.fresh + 1 by omega)
  obtain ⟨st'', hlook⟩ := lookupVariableForFile_of_walk (by rw [hfl]; exact hr)
  refine ⟨r, st'', hlook, hb.trans ?_⟩
  rw [chainView, linkSet_of_lists hl2, linkParent_of_lists hl2, visibleMap_false,
    Bool.false_or, chainView_setList_of_not_mem hnot, hview, chainView_setList_of_not_mem hnotP]
  rfl

/-- The root `t` of a double-colon group (file 1) and a member of it
(file 2), both without a parent, under a global `X = g`. -/
def doubleColonDemo : State :=
  (scopeBase.setFile 1 ⟨"t", none, none, none, some 1, false⟩).setFile 2 ⟨"t", none, none, none, some 1, false⟩

theorem initialize_double_colon_lookup_t :
    ∃ st' L, targetPatterns.order.Nodup ∧
      initializeFileVariables plainContext targetPatterns 3 2 false doubleColonDemo = some st' ∧
      walkLinks st' st'.fresh ((st'.files 2).bind File.variablesList) = some L ∧
      ∃ l n lr nr pats Lp, (st'.files 2).bind File.variablesList = some l ∧ st'.lists l = some n ∧
        (st'.files 1).bind File.variablesList = some lr ∧ n.next = some lr ∧ n.nextIsParent = false ∧
        st'.lists lr = some nr ∧
        walkLinks st' st'.fresh (parentChain ⟨"t", none, none, none, some 1, false⟩ st') = some Lp ∧
        ((matchingEntries targetPatterns "t" = [] ∧ pats = []) ∨
          (matchingEntries targetPatterns "t" ≠ [] ∧
            ∃ s, PatternSetBinds plainContext targetPatterns "t" st' s ∧ pats = [st'.read s])) ∧
        ∀ name, ∃ r st'', lookupVariableForFile name (some 2) st' = some (r, st'') ∧
          (r.bind st'.vars).map Variable.binding =
            (st'.read n.set :: st'.read nr.set :: pats ++ chainView st' Lp true).findSome? (· name) :=
  ⟨_, _, by decide, rfl, rfl,
    initialize_double_colon_lookup plainContext targetPatterns (by decide) 3 2 1 _ _ doubleColonDemo _
      rfl rfl (by decide) rfl (.inr rfl) rfl rfl (fun _ h => nomatch h) rfl _ rfl⟩

end MakeVariables
