import MakeVariables.ChainLookup
/-!
# What a scope shows, and what its pop restores

`push_new_variable_scope` makes a set at the allocation frontier `N` and
puts it first on the current chain: in front of the current link, or, on
the global scope, swapped into `global_setlist` with the old global set
moved behind it. A body that calls `define_variable_in_set` and
`undefine_variable_in_set` on that set (`opsBlock`) changes nothing below
`N` (`InScope`), and `pop_variable_scope` frees the set and its records
and nothing else. So inside the scope a lookup answers the scope's own
binding of a name first and what it answered before otherwise; after the
pop it answers as before the push (`scope_shadows_then_restores`). The
records the calls made are tracked by `ScopeOwns`: each is in the scope's
set or already freed, so the pop leaves no record of the scope behind and
every table and older record as before the push (`scope_frees_what_it_made`).

The walks are compared through the view of `ChainLookup`: a walk that
ends visits each link once (`walkLinks_nodup`), and reads only the links,
tables and records it meets (`walkLinks_congr`, `chainView_congr`).
-/

namespace MakeVariables

open State

/-- The binding of the record `lookup_variable` answers, read in the state
the lookup starts from; `none` when the walk does not end. -/
def lookupBinding (name : String) (st : State) : Option (Option Binding) :=
  (lookupVariable name st).map fun p => (p.1.bind st.vars).map Variable.binding

/-- The calls `ops` on set `s`, as a block. -/
def opsBlock (s : SetId) : List TableOp → Block
  | [] => .skip
  | .define name value origin recursive flocp :: ops =>
    .seq (.define name value origin recursive (some s) flocp) (opsBlock s ops)
  | .undefine name origin :: ops => .seq (.undefine name origin (some s)) (opsBlock s ops)

/-! ## Walks that end -/

section walks

variable {st st' : State}

theorem walkLinks_mono {F F' : Nat} {ol : Option ListId} {L : List ListId}
    (h : walkLinks st F ol = some L) (hF : F ≤ F') : walkLinks st F' ol = some L := by
  induction L generalizing F F' ol with
  | nil => rw [walkLinks_nil h]; cases F' <;> rfl
  | cons x L ih =>
    obtain ⟨rfl, n, hn, F, rfl, hL⟩ := walkLinks_cons h
    obtain ⟨F', rfl⟩ : ∃ k, F' = k + 1 := ⟨F' - 1, by omega⟩
    simp [walkLinks, hn, ih hL (show F ≤ F' by omega)]

/-- Two walks from one link that end give the same links. -/
theorem walkLinks_unique {F F' : Nat} {ol : Option ListId} {L L' : List ListId}
    (h : walkLinks st F ol = some L) (h' : walkLinks st F' ol = some L') : L = L' :=
  Option.some.inj ((walkLinks_mono h (le_max_left F F')).symm.trans (walkLinks_mono h' (le_max_right F F')))

/-- The walk from a later link of a walk is the rest of it. -/
theorem walkLinks_suffix : ∀ (P : List ListId) {F : Nat} {ol : Option ListId} {x : ListId}
    {T : List ListId}, walkLinks st F ol = some (P ++ x :: T) → walkLinks st F (some x) = some (x :: T)
  | [], _, _, _, _, h => by
    rw [List.nil_append] at h
    rw [← (walkLinks_cons h).1]; exact h
  | _ :: P, _, _, _, _, h => by
    obtain ⟨-, n, -, F, rfl, hL⟩ := walkLinks_cons h
    exact walkLinks_mono (walkLinks_suffix P hL) (Nat.le_succ F)

/-- **A walk that ends meets each link once**: one met twice would start
the same walk again, a longer one. -/
theorem walkLinks_nodup : ∀ {L : List ListId} {F : Nat} {ol : Option ListId},
    walkLinks st F ol = some L → L.Nodup
  | [], _, _, _ => List.nodup_nil
  | x :: L, _, _, h => by
    obtain ⟨rfl, n, -, F, rfl, hL⟩ := walkLinks_cons h
    refine List.nodup_cons.2 ⟨fun hx => ?_, walkLinks_nodup hL⟩
    obtain ⟨A, B, rfl⟩ := List.append_of_mem hx
    have := congrArg List.length (walkLinks_unique h (walkLinks_suffix A hL))
    simp only [List.length_cons, List.length_append] at this
    omega

theorem walkLinks_live {F : Nat} {ol : Option ListId} {L : List ListId}
    (h : walkLinks st F ol = some L) : ∀ l ∈ L, ∃ n, st.lists l = some n := by
  induction L generalizing F ol with
  | nil => exact fun _ hl => absurd hl (List.not_mem_nil _)
  | cons x L ih =>
    obtain ⟨rfl, n, hn, F, rfl, hL⟩ := walkLinks_cons h
    rintro l (_ | ⟨_, hl⟩)
    · exact ⟨n, hn⟩
    · exact ih hL l hl

/-- The walk reads the links it meets, and no others. -/
theorem walkLinks_congr {F : Nat} {ol : Option ListId} {L : List ListId}
    (h : walkLinks st F ol = some L) (hL : ∀ l ∈ L, st'.lists l = st.lists l) :
    walkLinks st' F ol = some L := by
  induction L generalizing F ol with
  | nil => rw [walkLinks_nil h]; cases F <;> rfl
  | cons x L ih =>
    obtain ⟨rfl, n, hn, F, rfl, hL'⟩ := walkLinks_cons h
    simp [walkLinks, (hL x (List.mem_cons_self _ _)).trans hn,
      ih hL' fun l hl => hL l (List.mem_cons_of_mem _ hl)]

/-- What a set shows depends on its table and on its records alone. -/
theorem visibleMap_congr {s : SetId} (ht : st'.table s = st.table s)
    (hv : ∀ u ∈ st.table s, st'.vars u = st.vars u) (p : Bool) :
    visibleMap st' s p = visibleMap st s p := by
  funext name
  simp only [visibleMap, visibleIn, findSlot_congr ht hv name]
  cases hf : st.findSlot s name with
  | none => rfl
  | some q =>
    obtain ⟨hq, -, -⟩ := findSlot_mem hf
    simp only [Option.some_bind]
    split_ifs <;> simp [hv q.1 hq]

/-- A view reads the links of the walk and what their sets show. -/
theorem chainView_congr : ∀ (L : List ListId) (p : Bool),
    (∀ l ∈ L, st'.lists l = st.lists l ∧
      ∀ p, visibleMap st' (linkSet st l) p = visibleMap st (linkSet st l) p) →
    chainView st' L p = chainView st L p
  | [], _, _ => rfl
  | l :: L, p, h => by
    obtain ⟨hl, hv⟩ := h l (List.mem_cons_self _ _)
    have hs : linkSet st' l = linkSet st l := by simp only [linkSet, hl]
    have hp : linkParent st' l = linkParent st l := by simp only [linkParent, hl]
    rw [chainView, chainView, hs, hp, hv,
      chainView_congr L _ fun l' hl' => h l' (List.mem_cons_of_mem _ hl')]

end walks

/-! ## Calls on the scope's set -/

/-- What calls on the set at the frontier `N` leave: every other table,
every record below `N`, the set's own records at or above `N`, and a
frontier past `N`. -/
structure InScope (N : Nat) (st st' : State) : Prop where
  tables : ∀ s, s ≠ N → st'.table s = st.table s
  vars : ∀ u < N, st'.vars u = st.vars u
  above : ∀ u ∈ st'.table N, N ≤ u
  fresh : N ≤ st'.fresh

namespace InScope

variable {N : Nat} {st1 st2 st3 : State}

theorem refl (habove : ∀ u ∈ st1.table N, N ≤ u) (hN : N ≤ st1.fresh) : InScope N st1 st1 :=
  ⟨fun _ _ => rfl, fun _ _ => rfl, habove, hN⟩

theorem trans (h1 : InScope N st1 st2) (h2 : InScope N st2 st3) : InScope N st1 st3 :=
  ⟨fun s hs => (h2.tables s hs).trans (h1.tables s hs), fun u hu => (h2.vars u hu).trans (h1.vars u hu),
    h2.above, h2.fresh⟩

end InScope

/-- Every record allocated past the frontier `N` is one of the set `N`'s
records, or free. -/
def ScopeOwns (N : Nat) (st : State) : Prop :=
  ∀ u, N < u → u < st.fresh → u ∈ st.table N ∨ st.vars u = none

/-- Rewriting a record of the set keeps what it owns. -/
theorem ScopeOwns.setVar {N : Nat} {st : State} (h : ScopeOwns N st) {q : VarId}
    (hq : q ∈ st.table N) (x : Variable) : ScopeOwns N (st.setVar q x) := fun u hu hlt => by
  by_cases he : u = q
  · exact .inl (he ▸ hq)
  · simpa [Function.update_noteq he] using h u hu hlt

section calls

variable {N : Nat} {st : State}

theorem TableOp.run_inScope (e : Bool) (op : TableOp) (habove : ∀ u ∈ st.table N, N ≤ u)
    (hN : N ≤ st.fresh) : InScope N st (op.run e N st) := by
  cases op with
  | define name value origin recursive flocp =>
    simp only [TableOp.run, defineVariableInSet, Option.getD_some]
    cases hf : st.findSlot N name with
    | none =>
      -- a new record at the frontier joins the set
      refine ⟨fun s hs => by simp [State.table, Function.update_noteq hs], fun u hu => ?_,
        fun u hu => ?_, by simp; omega⟩
      · simp [Function.update_noteq (show u ≠ st.fresh by omega)]
      · simp only [bumpIf, setTable, State.table, Function.update_same, Option.getD_some,
          List.mem_append, List.mem_singleton] at hu
        rcases hu with hu | rfl
        · exact habove u hu
        · simpa using hN
    | some q =>
      -- the record of the name, in the set, is rewritten
      obtain ⟨hq, -, -⟩ := findSlot_mem hf
      have hne : ∀ u < N, u ≠ q.1 := fun u hu he => by have := habove _ hq; omega
      dsimp only
      split_ifs <;> exact ⟨fun _ _ => rfl, fun u hu => by simp [Function.update_noteq (hne u hu)],
        habove, hN⟩
  | undefine name origin =>
    simp only [TableOp.run, undefineVariableInSet, Option.getD_some]
    cases hf : st.findSlot N name with
    | none => exact InScope.refl habove hN
    | some q =>
      obtain ⟨hq, -, -⟩ := findSlot_mem hf
      have hne : ∀ u < N, u ≠ q.1 := fun u hu he => by have := habove _ hq; omega
      dsimp only
      split_ifs
      · -- the record leaves the set and is freed
        refine ⟨fun s hs => by simp [State.table, Function.update_noteq hs],
          fun u hu => by simp [Function.update_noteq (hne u hu)], fun u hu => ?_, hN⟩
        simp only [bumpIf, freeVar, setTable, State.table, Function.update_same,
          Option.getD_some] at hu
        exact habove u (List.mem_of_mem_erase hu)
      · exact ⟨fun _ _ => rfl, fun u hu => by simp [Function.update_noteq (hne u hu)], habove, hN⟩

/-- **The calls on the scope's set**: its table stays well formed and
reads as the reference updates, and nothing below the frontier moves. -/
theorem runTable_inScope (e : Bool) : ∀ (ops : List TableOp) {st : State}, TableWF st N →
    (∀ u ∈ st.table N, N ≤ u) → N ≤ st.fresh →
    InScope N st (runTable e N ops st) ∧ TableWF (runTable e N ops st) N ∧
      (runTable e N ops st).read N = ops.foldl (fun m op => op.ref e m) (st.read N) ∧
      BlockFrame st (runTable e N ops st)
  | [], st, hwf, habove, hN => ⟨InScope.refl habove hN, hwf, rfl, BlockFrame.refl st⟩
  | op :: ops, st, hwf, habove, hN => by
    have hstep : TableWF (op.run e N st) N ∧ (op.run e N st).read N = op.ref e (st.read N) ∧
        BlockFrame st (op.run e N st) := by
      cases op with
      | define name value origin recursive flocp =>
        exact ⟨(defineVariableInSet_spec e name value origin recursive flocp hwf).1,
          (defineVariableInSet_spec e name value origin recursive flocp hwf).2,
          defineVariableInSet_frame _ _ _ _ _ _ _ _⟩
      | undefine name origin =>
        exact ⟨(undefineVariableInSet_spec e name origin hwf).1,
          (undefineVariableInSet_spec e name origin hwf).2, undefineVariableInSet_frame _ _ _ _ _⟩
    have h1 := op.run_inScope e habove hN
    obtain ⟨h2, hwf2, hread2, hf2⟩ := runTable_inScope e ops hstep.1 h1.above h1.fresh
    exact ⟨h1.trans h2, hwf2, by rw [runTable, List.foldl_cons, ← runTable, hread2, hstep.2.1]; rfl,
      hstep.2.2.trans hf2⟩

theorem opsBlock_run (e : Bool) (s : SetId) :
    ∀ (ops : List TableOp) (st : State), (opsBlock s ops).run e st = some (runTable e s ops st)
  | [], _ => rfl
  | .define .. :: ops, st => by simp only [opsBlock, Block.run, Option.bind_eq_bind,
      Option.some_bind, opsBlock_run e s ops]; rfl
  | .undefine .. :: ops, st => by simp only [opsBlock, Block.run, Option.bind_eq_bind,
      Option.some_bind, opsBlock_run e s ops]; rfl

/-- A call on the set keeps what it owns: a new record joins the set, a
removed one is freed. -/
theorem TableOp.run_owns (e : Bool) (op : TableOp) (h : ScopeOwns N st) :
    ScopeOwns N (op.run e N st) := by
  cases op with
  | define name value origin recursive flocp =>
    simp only [TableOp.run, defineVariableInSet, Option.getD_some]
    cases hf : st.findSlot N name with
    | none =>
      intro u hu hlt
      simp only [bumpIf, setTable, setVar, alloc, State.table, Function.update_same,
        Option.getD_some, List.mem_append, List.mem_singleton] at hlt ⊢
      rcases Nat.lt_succ_iff_lt_or_eq.1 hlt with hlt | rfl
      · rcases h u hu hlt with hm | hn
        · exact .inl (.inl hm)
        · exact .inr (by simp [Function.update_noteq (Nat.ne_of_lt hlt), hn])
      · exact .inl (.inr rfl)
    | some q =>
      obtain ⟨hq, -, -⟩ := findSlot_mem hf
      dsimp only
      split_ifs <;> exact h.setVar hq _
  | undefine name origin =>
    simp only [TableOp.run, undefineVariableInSet, Option.getD_some]
    cases hf : st.findSlot N name with
    | none => exact h
    | some q =>
      obtain ⟨hq, -, -⟩ := findSlot_mem hf
      dsimp only
      split_ifs
      · intro u hu hlt
        simp only [bumpIf, freeVar, setTable, State.table, Function.update_same,
          Option.getD_some] at hlt ⊢
        by_cases he : u = q.1
        · exact .inr (he ▸ Function.update_same _ _ _)
        · rcases h u hu hlt with hm | hn
          · exact .inl ((List.mem_erase_of_ne he).2 hm)
          · exact .inr (by simp [Function.update_noteq he, hn])
      · exact h.setVar hq _

theorem runTable_owns (e : Bool) : ∀ (ops : List TableOp) {st : State}, ScopeOwns N st →
    ScopeOwns N (runTable e N ops st)
  | [], _, h => h
  | op :: ops, _, h => runTable_owns e ops (op.run_owns e h)

end calls

/-! ## The pop -/

/-- **A pop frees the current set and its records**, and no other table
or record, and allocates nothing. -/
theorem popVariableScope_frame {st st' : State} (h : popVariableScope st = some st') {c : SetList}
    (hc : st.current.bind st.lists = some c) :
    (∀ s, s ≠ c.set → st'.table s = st.table s) ∧
      (∀ u, st'.vars u = if u ∈ st.table c.set then none else st.vars u) ∧ st'.fresh = st.fresh ∧
      st'.table c.set = [] := by
  obtain ⟨cur, hcur, hl⟩ := Option.bind_eq_some.1 hc
  simp only [popVariableScope, hcur, hl] at h
  cases hn : c.next with
  | none => simp [hn] at h
  | some nxt =>
    simp only [hn] at h
    split_ifs at h
    · cases h
      exact ⟨fun s hs => by simp [State.table, Function.update_noteq hs],
        fun u => by simp [freeRecords_eq, State.table], by simp [freeRecords_eq], by simp [State.table]⟩
    · cases hnx : st.lists nxt with
      | none => simp [hnx] at h
      | some n =>
        simp only [hnx, Option.some.injEq] at h
        subst h
        exact ⟨fun s hs => by simp [State.table, Function.update_noteq hs],
          fun u => by simp [freeRecords_eq, State.table], by simp [freeRecords_eq], by simp [State.table]⟩

/-- The set a push makes is the current set after it. -/
theorem pushNewVariableScope_current_set (st : State) :
    ((pushNewVariableScope st).2.current.bind (pushNewVariableScope st).2.lists).map SetList.set =
      some st.fresh := by
  simp only [pushNewVariableScope, createNewVariableSet]
  split
  · rename_i n _ hn _
    simp only [setList, Function.update_same, Option.some.injEq] at hn
    subst hn
    split_ifs <;> simp
  · simp

/-! ## Lookups inside the scope, and after it -/

section views

variable {st : State}

theorem TableWF.of_table_nil {s : SetId} (h : st.table s = []) : TableWF st s :=
  ⟨h ▸ List.nodup_nil, fun u hu => by simp [h] at hu, fun u hu => by simp [h] at hu,
    fun u hu => by simp [h] at hu⟩

theorem read_of_table_nil {s : SetId} (h : st.table s = []) : st.read s = fun _ => none := by
  funext n; simp [State.read, State.findSlot, h]

/-- A push keeps every table but the new one, and every record. -/
theorem push_inScope (st : State) : InScope st.fresh st (pushNewVariableScope st).2 := by
  obtain ⟨hv, -, hfresh, hs, -⟩ := pushNewVariableScope_common st
  refine ⟨fun s hs' => by simp [State.table, hs, Function.update_noteq hs'], fun u _ => by rw [hv],
    fun u hu => by simp [State.table, hs] at hu, by omega⟩

/-- A state that keeps the links of `M`, every table but the one at the
frontier, and every record below the frontier shows the sets of `M` as
before. -/
theorem chainView_keep {st' : State} {M : List ListId}
    (ht : ∀ s, s ≠ st.fresh → st'.table s = st.table s) (hv : ∀ u < st.fresh, st'.vars u = st.vars u)
    (hM : ∀ l ∈ M, st'.lists l = st.lists l ∧ TableWF st (linkSet st l) ∧ linkSet st l < st.fresh)
    (p : Bool) : chainView st' M p = chainView st M p :=
  chainView_congr M p fun l hl => ⟨(hM l hl).1, fun p => visibleMap_congr
    (ht _ (Nat.ne_of_lt (hM l hl).2.2)) (fun u hu => hv u ((hM l hl).2.1.lt_fresh u hu)) p⟩

/-- The links of a walk from a state with the scope invariant, and their
sets, lie below the frontier. -/
theorem ScopeWF.walk_below (h : ScopeWF st) {F : Nat} {ol : Option ListId} {L : List ListId}
    (hL : walkLinks st F ol = some L) : ∀ l ∈ L, l < st.fresh ∧ linkSet st l < st.fresh := by
  intro l hl
  obtain ⟨n, hn⟩ := walkLinks_live hL l hl
  exact ⟨(h.lists l n hn).1, by simpa [linkSet, hn] using (h.lists l n hn).2.set_lt⟩

/-- **The walk after a push**: the scope's set first, then the walk from
before, in any later state that keeps the push's links, and every table
and record below the frontier. -/
theorem push_walk (h : ScopeWF st) {L : List ListId} (hL : walkLinks st st.fresh st.current = some L)
    (hwf : ∀ l ∈ L, TableWF st (linkSet st l)) {st2 : State}
    (hl : st2.lists = (pushNewVariableScope st).2.lists)
    (hc : st2.current = (pushNewVariableScope st).2.current)
    (ht : ∀ s, s ≠ st.fresh → st2.table s = st.table s) (hv : ∀ u < st.fresh, st2.vars u = st.vars u) :
    ∃ W, walkLinks st2 (st.fresh + 1) st2.current = some W ∧
      chainView st2 W false = st2.read st.fresh :: chainView st L false := by
  obtain ⟨g, hg, hgp⟩ := h.global
  have hpos := h.global_lt
  have hbelow := h.walk_below hL
  by_cases hg0 : st.current = some globalSetlist
  · -- on the global scope the new set is swapped into `global_setlist`
    rw [pushNewVariableScope_global hg hg0 hpos] at hl hc
    simp only [setList, setTable, alloc] at hl hc
    rw [hg0] at hL
    obtain _ | ⟨x, L'⟩ := L
    · cases walkLinks_nil hL
    obtain ⟨hx, n, hn, F, hF, hL'⟩ := walkLinks_cons hL
    cases hx
    rw [hg] at hn
    obtain rfl := Option.some.inj hn
    have hgL : globalSetlist ∉ L' := (List.nodup_cons.1 (walkLinks_nodup hL)).1
    have hne : globalSetlist ≠ st.fresh := Nat.ne_of_lt hpos
    have h1 : st2.lists globalSetlist = some { g with set := st.fresh, next := some st.fresh } := by
      rw [hl, Function.update_same]
    have h2 : st2.lists st.fresh = some ⟨g.next, g.set, false⟩ := by
      rw [hl, Function.update_noteq hne.symm, Function.update_same]
    have hagree : ∀ l ∈ L', st2.lists l = st.lists l := fun l hl' => by
      have hlN : l ≠ st.fresh := Nat.ne_of_lt (hbelow l (List.mem_cons_of_mem _ hl')).1
      have hlg : l ≠ globalSetlist := fun he => hgL (he ▸ hl')
      rw [hl, Function.update_noteq hlg, Function.update_noteq hlN]
    refine ⟨globalSetlist :: st.fresh :: L', ?_, ?_⟩
    · rw [hc, show st.fresh + 1 = F + 1 + 1 by omega]
      simp only [walkLinks, h1, h2, Option.some_bind, walkLinks_congr hL' hagree, Option.map_some']
    · have e1 : linkSet st2 globalSetlist = st.fresh := by simp [linkSet, h1]
      have e2 : linkParent st2 globalSetlist = false := by simp [linkParent, h1, hgp]
      have e3 : linkSet st2 st.fresh = linkSet st globalSetlist := by simp [linkSet, h2, hg]
      have e4 : linkParent st2 st.fresh = false := by simp [linkParent, h2]
      have e5 : linkParent st globalSetlist = false := by simp [linkParent, hg, hgp]
      have hshow : visibleMap st2 (linkSet st globalSetlist) false =
          visibleMap st (linkSet st globalSetlist) false :=
        visibleMap_congr (ht _ (Nat.ne_of_lt (hbelow _ (List.mem_cons_self _ _)).2))
          (fun u hu => hv u ((hwf _ (List.mem_cons_self _ _)).lt_fresh u hu)) false
      have hrest : chainView st2 L' false = chainView st L' false :=
        chainView_keep ht hv (fun l hl' => ⟨hagree l hl', hwf l (List.mem_cons_of_mem _ hl'),
          (hbelow l (List.mem_cons_of_mem _ hl')).2⟩) false
      simp only [chainView, e1, e2, e3, e4, e5, Bool.false_or]
      rw [hshow, hrest, visibleMap_false]
  · -- elsewhere the new link goes in front
    rw [pushNewVariableScope_local hg0] at hl hc
    simp only [setList, setTable, alloc] at hl hc
    have hagree : ∀ l ∈ L, st2.lists l = st.lists l := fun l hl' => by
      rw [hl, Function.update_noteq (Nat.ne_of_lt (hbelow l hl').1)]
    have h1 : st2.lists st.fresh = some ⟨st.current, st.fresh, false⟩ := by
      rw [hl, Function.update_same]
    refine ⟨st.fresh :: L, ?_, ?_⟩
    · rw [hc]
      simp only [walkLinks, h1, Option.some_bind, walkLinks_congr hL hagree, Option.map_some']
    · have e1 : linkSet st2 st.fresh = st.fresh := by simp [linkSet, h1]
      have e2 : linkParent st2 st.fresh = false := by simp [linkParent, h1]
      rw [chainView, e1, e2, Bool.false_or, visibleMap_false,
        chainView_keep ht hv (fun l hl' => ⟨hagree l hl', hwf l hl', (hbelow l hl').2⟩)]

/-- The binding a lookup answers is the first of its walk's view. -/
theorem lookupBinding_of_walk {F : Nat} {W : List ListId} (hW : walkLinks st F st.current = some W)
    (hF : F ≤ 2 * st.fresh + 1) (name : String) :
    lookupBinding name st = some ((chainView st W false).findSome? (· name)) := by
  obtain ⟨r, hr, hb⟩ := lookupVariableFrom_chainView name W false hW hF
  obtain ⟨st', h⟩ := lookupVariable_of_walk hr
  simp only [lookupBinding, h, Option.map_some', hb]

/-- **Calls on the set a push made**: against the state before the push,
nothing below the frontier moves, and the new set reads as the reference
updates from an empty map. -/
theorem push_runTable (e : Bool) (ops : List TableOp) (st : State) :
    InScope st.fresh st (runTable e st.fresh ops (pushNewVariableScope st).2) ∧
      (runTable e st.fresh ops (pushNewVariableScope st).2).read st.fresh =
        ops.foldl (fun m op => op.ref e m) (fun _ => none) ∧
      BlockFrame (pushNewVariableScope st).2 (runTable e st.fresh ops (pushNewVariableScope st).2) := by
  have hk1 := push_inScope st
  have hnil : (pushNewVariableScope st).2.table st.fresh = [] := by
    simp [State.table, (pushNewVariableScope_common st).2.2.2.1]
  obtain ⟨hk2, -, hread2, hf2⟩ := runTable_inScope e ops (TableWF.of_table_nil hnil) hk1.above
    hk1.fresh
  exact ⟨hk1.trans hk2, by rw [hread2, read_of_table_nil hnil], hf2⟩

/-- **The pop after calls on the scope's set** succeeds and restores the
frame; it frees the scope's set and the records in it, keeps every other
table and record, and allocates nothing. -/
theorem scope_body_pop (e : Bool) (ops : List TableOp) (h : ScopeWF st) (hcur : st.current.isSome) :
    let st2 := runTable e st.fresh ops (pushNewVariableScope st).2
    ∃ st3, popVariableScope st2 = some st3 ∧ BlockFrame st st3 ∧ st3.sets st.fresh = none ∧
      (∀ s, s ≠ st.fresh → st3.table s = st2.table s) ∧
      (∀ u, st3.vars u = if u ∈ st2.table st.fresh then none else st2.vars u) ∧
      st3.fresh = st2.fresh := by
  intro st2
  have hf2 := (push_runTable e ops st).2.2
  obtain ⟨st3, hrun3, hf3, hs3⟩ := scope_run h hcur (opsBlock_run e _ ops _) hf2
  have hpop : popVariableScope st2 = some st3 := by simpa [Block.run, opsBlock_run] using hrun3
  obtain ⟨c, hc, hcs⟩ := Option.map_eq_some'.1 (pushNewVariableScope_current_set st)
  have h3 := popVariableScope_frame hpop (by rw [hf2.current, hf2.lists]; exact hc)
  rw [hcs] at h3
  exact ⟨st3, hpop, hf3, hs3, h3.1, h3.2.1, h3.2.2.1⟩

end views

/-- **A scope's calls are seen first inside it, and are gone after its
pop.** From a state with the scope invariant, a current link, a walk from
it that ends, and well-formed sets along that walk: push a scope, make
`define_variable_in_set` and `undefine_variable_in_set` calls on the set
the push made, and pop. The body and the pop succeed. Inside the scope a
lookup of any name answers the binding the calls leave in the scope's
set (the reference updates from an empty map), and otherwise what it
answered before the push. After the pop it answers what it answered
before the push. -/
theorem scope_shadows_then_restores (e : Bool) (ops : List TableOp) {st : State}
    {L : List ListId} (h : ScopeWF st) (hcur : st.current.isSome)
    (hL : walkLinks st st.fresh st.current = some L) (hwf : ∀ l ∈ L, TableWF st (linkSet st l)) :
    ∃ st2 st3, (opsBlock st.fresh ops).run e (pushNewVariableScope st).2 = some st2 ∧
      popVariableScope st2 = some st3 ∧
      ∀ name, ∃ b, lookupBinding name st = some b ∧
        lookupBinding name st2 =
          some ((ops.foldl (fun m op => op.ref e m) (fun _ => none) name).or b) ∧
        lookupBinding name st3 = some b := by
  -- the push and the calls on its set, then the pop
  obtain ⟨hk, hread2, hf2⟩ := push_runTable e ops st
  obtain ⟨st3, hpop, hf3, -, ht3, hv3, -⟩ := scope_body_pop e ops h hcur
  obtain ⟨W, hW, hview⟩ := push_walk h hL hwf hf2.lists hf2.current hk.tables hk.vars
  refine ⟨_, st3, opsBlock_run e _ ops _, hpop, fun name => ⟨_, lookupBinding_of_walk hL (by omega) name,
    ?_, ?_⟩⟩
  · -- inside: the scope's set first
    rw [lookupBinding_of_walk hW (by have := hk.fresh; omega) name, hview, List.findSome?_cons, hread2]
    cases (ops.foldl (fun m op => op.ref e m) (fun _ => none) name) <;> rfl
  · -- after: the walk and the sets along it are as before
    have hL3 : walkLinks st3 st.fresh st3.current = some L := by
      rw [hf3.current]; exact walkLinks_congr hL fun l _ => congrFun hf3.lists l
    rw [lookupBinding_of_walk hL3 (by have := hf3.fresh_le; omega) name,
      chainView_keep (fun s hs => (ht3 s hs).trans (hk.tables s hs))
        (fun u hu => by rw [hv3, if_neg fun hm => absurd (hk.above u hm) (by omega), hk.vars u hu])
        (fun l hl => ⟨congrFun hf3.lists l, hwf l hl, (h.walk_below hL l hl).2⟩) false]

/-- `X` bound in the global set of the start state, whose current link is
`global_setlist`. -/
def scopeBase : State := (defineVariableInSet false "X" "g" .file false none none State.initial).2

theorem scope_shadows_then_restores_global :
    ScopeWF scopeBase ∧ scopeBase.current.isSome ∧
      walkLinks scopeBase scopeBase.fresh scopeBase.current = some [globalSetlist] ∧
      (∀ l ∈ [globalSetlist], TableWF scopeBase (linkSet scopeBase l)) ∧
      ∃ st2 st3, (opsBlock scopeBase.fresh [.define "X" "l" .automatic false none]).run false
          (pushNewVariableScope scopeBase).2 = some st2 ∧
        popVariableScope st2 = some st3 ∧
        ∀ name, ∃ b, lookupBinding name scopeBase = some b ∧
          lookupBinding name st2 = some (([TableOp.define "X" "l" .automatic false none].foldl
            (fun m op => op.ref false m) (fun _ => none) name).or b) ∧
          lookupBinding name st3 = some b :=
  ⟨ScopeWF.of_frame scopeWF_initial (defineVariableInSet_frame _ _ _ _ _ _ _ _), rfl, by decide,
    by decide, @scope_shadows_then_restores false _ _ [globalSetlist]
      (ScopeWF.of_frame scopeWF_initial (defineVariableInSet_frame _ _ _ _ _ _ _ _)) rfl (by decide)
      (by decide)⟩

/-- **A scope leaves the heap as it found it.** From a state with the scope
invariant and a current link: push a scope, make
`define_variable_in_set` and `undefine_variable_in_set` calls on the set
the push made, and pop. The body and the pop succeed, and the pop restores
the links, the files and the current chain. The scope's set is freed,
every other table is as before the push, and so is every record below the
frontier the push started from. Every record allocated past it, by the
calls, is free: the scope leaks none. -/
theorem scope_frees_what_it_made (e : Bool) (ops : List TableOp) {st : State} (h : ScopeWF st)
    (hcur : st.current.isSome) :
    ∃ st2 st3, (opsBlock st.fresh ops).run e (pushNewVariableScope st).2 = some st2 ∧
      popVariableScope st2 = some st3 ∧ BlockFrame st st3 ∧ st3.sets st.fresh = none ∧
      (∀ s, s ≠ st.fresh → st3.table s = st.table s) ∧ (∀ u < st.fresh, st3.vars u = st.vars u) ∧
      ∀ u, st.fresh < u → u < st3.fresh → st3.vars u = none := by
  obtain ⟨hk, -, -⟩ := push_runTable e ops st
  obtain ⟨st3, hpop, hf3, hs3, ht3, hv3, hfresh3⟩ := scope_body_pop e ops h hcur
  -- right after the push nothing lies past the frontier
  have howns : ScopeOwns st.fresh (runTable e st.fresh ops (pushNewVariableScope st).2) :=
    runTable_owns e ops fun u hu hlt => absurd hlt (by rw [(pushNewVariableScope_common st).2.2.1]; omega)
  refine ⟨_, st3, opsBlock_run e _ ops _, hpop, hf3, hs3, fun s hs => (ht3 s hs).trans (hk.tables s hs),
    fun u hu => ?_, fun u hu hlt => ?_⟩
  · -- an older record is not in the scope's set
    rw [hv3, if_neg fun hm => absurd (hk.above u hm) (by omega), hk.vars u hu]
  · -- a record the scope made is in its set, or was freed by an undefine
    rw [hv3]
    rcases howns u hu (hfresh3 ▸ hlt) with hm | hn
    · rw [if_pos hm]
    · split_ifs
      · rfl
      · exact hn

/-- A scope on the global chain that defines `Y`, shadows `X`, and
undefines `Y` again. -/
def scopeOps : List TableOp :=
  [.define "Y" "1" .file false none, .define "X" "l" .automatic false none, .undefine "Y" .file]

theorem scope_frees_what_it_made_global :
    ScopeWF scopeBase ∧ scopeBase.current.isSome ∧
      ∃ st2 st3, (opsBlock scopeBase.fresh scopeOps).run false (pushNewVariableScope scopeBase).2 = some st2 ∧
        popVariableScope st2 = some st3 ∧ BlockFrame scopeBase st3 ∧ st3.sets scopeBase.fresh = none ∧
        (∀ s, s ≠ scopeBase.fresh → st3.table s = scopeBase.table s) ∧
        (∀ u < scopeBase.fresh, st3.vars u = scopeBase.vars u) ∧
        ∀ u, scopeBase.fresh < u → u < st3.fresh → st3.vars u = none :=
  ⟨ScopeWF.of_frame scopeWF_initial (defineVariableInSet_frame _ _ _ _ _ _ _ _), rfl,
    scope_frees_what_it_made false scopeOps
      (ScopeWF.of_frame scopeWF_initial (defineVariableInSet_frame _ _ _ _ _ _ _ _)) rfl⟩

end MakeVariables
