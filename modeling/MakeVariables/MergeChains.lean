import MakeVariables.Merge
import MakeVariables.PatternSet
/-!
# Merges of sets and chains that share nothing

The merges of `Merge` go wrong when the two sides overlap. This file
states what they do when they do not. `merge_variable_sets` walks the
source's slots and moves each record whose name the target lacks, freeing
the others: on a target that holds none of the source's records it is the
union of the two maps, the target's bindings first
(`merge_variable_sets_union`), proved one turn at a time
(`mergeVariableStep_read`).

`merge_variable_set_lists` merges a file's chain with a second chain
depth by depth, and hangs what the second has beyond the first behind the
last link the merge reached. A chain is read as the list of its links
before `global_setlist` (`chainLinks`), and as the list of the maps its
sets give (`chainMaps`). On two chains that share no set and no record
(`ChainsApart`) the merge is `mergeMaps` of the two lists of maps, and the
file's chain is the first chain followed by the rest of the second
(`merge_variable_set_lists_apart`). The proof follows the function's
loops: the first finds no link of the second chain in the first
(`chainHasBefore_eq`), the second makes the merges of `mergeDepths`
(`mergeSetLoop_eq`), and the splice at the end walks the two chains in
turn (`chainLinks_splice`).

`TableWF` is decided record by record (`tableWF_iff`), so the invariant
can be checked on a state as well as proved.
-/

namespace MakeVariables

open State

/-! ## Deciding the table invariant -/

/-- Two records of a table are apart when they are one, or differ in name
(a freed address has no name). -/
def namesApart (st : State) (u w : VarId) : Bool :=
  match st.vars u, st.vars w with
  | some x, some y => decide (x.name = y.name → u = w)
  | _, _ => true

theorem tableWF_iff {st : State} {s : SetId} :
    TableWF st s ↔ (st.table s).Nodup ∧ (∀ v ∈ st.table s, v < st.fresh) ∧
      (∀ v ∈ st.table s, (st.vars v).isSome) ∧
      ∀ u ∈ st.table s, ∀ w ∈ st.table s, namesApart st u w := by
  have hinj : ∀ u w, namesApart st u w = true ↔ ∀ x y : Variable, st.vars u = some x →
      st.vars w = some y → x.name = y.name → u = w := fun u w => by
    unfold namesApart
    cases st.vars u <;> cases st.vars w <;> simp [or_iff_not_imp_left]
  simp only [hinj]
  exact ⟨fun h => ⟨h.nodup, h.lt_fresh, h.live, h.name_inj⟩, fun h => ⟨h.1, h.2.1, h.2.2.1, h.2.2.2⟩⟩

instance (st : State) (s : SetId) : Decidable (TableWF st s) := decidable_of_iff' _ tableWF_iff

section union

variable {st : State} {toSet : SetId} {u w : VarId}

/-- The binding a record gives a name: its own when it carries that name. -/
theorem slotOf_congr {st' : State} {name : String} (h : st'.vars u = st.vars u) :
    st'.slotOf name u = st.slotOf name u := by
  simp only [slotOf, h]

theorem findSome?_slotOf_congr {st' : State} {name : String} :
    ∀ l : List VarId, (∀ v ∈ l, st'.vars v = st.vars v) →
      l.findSome? (st'.slotOf name) = l.findSome? (st.slotOf name)
  | [], _ => rfl
  | v :: l, h => by
    rw [List.findSome?_cons, List.findSome?_cons, slotOf_congr (h v (List.mem_cons_self _ _)),
      findSome?_slotOf_congr l fun w hw => h w (List.mem_cons_of_mem _ hw)]

/-- A turn frees at most its own record and moves it into the target. -/
theorem mergeVariableStep_vars_of_ne (hw : w ≠ u) :
    (mergeVariableStep toSet st u).vars w = st.vars w := by
  unfold mergeVariableStep
  split
  · rfl
  · split
    · rfl
    · simp [Function.update_noteq hw]

theorem mergeVariableStep_fresh : (mergeVariableStep toSet st u).fresh = st.fresh := by
  unfold mergeVariableStep
  split
  · rfl
  · split <;> rfl

theorem mem_table_of_mergeVariableStep {s : SetId} (hw : w ∈ (mergeVariableStep toSet st u).table s) :
    w ∈ st.table s ∨ w = u := by
  unfold mergeVariableStep at hw
  split at hw
  · exact Or.inl hw
  · split at hw
    · by_cases hs : s = toSet
      · subst hs
        simp only [bumpIf, setTable, table, Function.update_same, Option.getD_some,
          List.mem_append, List.mem_singleton] at hw
        exact hw
      · left; simpa [table, Function.update_noteq hs] using hw
    · exact Or.inl hw

/-- A table with a record appended reads as before, then the record. -/
theorem read_append (s : SetId) (n : String) :
    (st.setTable s (st.table s ++ [u])).read s n =
      (st.read s n).or ((st.slotOf n u).map fun p => p.2.binding) := by
  have hs : (st.setTable s (st.table s ++ [u])).slotOf n = st.slotOf n := rfl
  simp only [State.read, findSlot, table_setTable_self, hs, List.findSome?_append, List.findSome?_cons,
    List.findSome?_nil]
  cases (st.table s).findSome? (st.slotOf n) <;> cases st.slotOf n u <;> rfl

/-- Appending a live record of a name the table does not hold keeps the
table well formed. -/
theorem TableWF.append {s : SetId} {x : Variable} (h : TableWF st s) (hu : u ∉ st.table s)
    (hlt : u < st.fresh) (hx : st.vars u = some x) (hnone : st.findSlot s x.name = none) :
    TableWF (st.setTable s (st.table s ++ [u])) s := by
  have hnm := findSlot_eq_none.1 hnone
  have hvars : (st.setTable s (st.table s ++ [u])).vars = st.vars := rfl
  refine ⟨?_, ?_, ?_, ?_⟩ <;>
    simp only [table_setTable_self, List.mem_append, List.mem_singleton, hvars]
  · exact h.nodup.append (List.nodup_singleton _) (List.disjoint_singleton.2 hu)
  · rintro v (hv | rfl)
    · exact h.lt_fresh v hv
    · exact hlt
  · rintro v (hv | rfl)
    · exact h.live v hv
    · simp [hx]
  · rintro v (hv | rfl) v' (hv' | rfl) y y' hy hy' hn
    · exact h.name_inj v hv v' hv' y y' hy hy' hn
    · rw [hx] at hy'; cases hy'; exact absurd hn (hnm v hv y hy)
    · rw [hx] at hy; cases hy; exact absurd hn.symm (hnm v' hv' y' hy')
    · rfl

/-- **One turn of `merge_variable_sets`**, on a record outside the target:
the target stays well formed and reads as before, with the record's name
bound to the record's binding when it was unbound. -/
theorem mergeVariableStep_read (h : TableWF st toSet) (hu : u ∉ st.table toSet)
    (hlt : u < st.fresh) :
    TableWF (mergeVariableStep toSet st u) toSet ∧
      ∀ n, (mergeVariableStep toSet st u).read toSet n =
        (st.read toSet n).or ((st.slotOf n u).map fun p => p.2.binding) := by
  unfold mergeVariableStep
  cases hx : st.vars u with
  | none => exact ⟨h, fun n => by simp [slotOf, hx]⟩
  | some x =>
    dsimp only
    cases hf : st.findSlot toSet x.name with
    | some p =>
      -- the name is bound: the record is freed, the target untouched
      obtain ⟨hwf, hread⟩ : TableWF (st.freeVar u) toSet ∧ _ := h.congr rfl le_rfl fun v hv => by
        simp [Function.update_noteq (fun he : v = u => hu (he ▸ hv))]
      refine ⟨hwf, fun n => ?_⟩
      rw [hread]
      by_cases hn : x.name = n
      · subst hn
        have : st.read toSet x.name = some p.2.binding := by simp [State.read, hf]
        rw [this]; rfl
      · simp [slotOf, hx, hn]
    | none =>
      -- the name is unbound: the record joins the target's table
      exact ⟨(h.append hu hlt hx hf).bumpIf _, fun n => by rw [read_bumpIf, read_append]⟩
/-- The loop over records outside the target, none twice. -/
theorem foldl_mergeVariableStep_read : ∀ (l : List VarId) {st : State}, TableWF st toSet →
    l.Nodup → (∀ u ∈ l, u ∉ st.table toSet ∧ u < st.fresh) →
    TableWF (l.foldl (mergeVariableStep toSet) st) toSet ∧
      ∀ n, (l.foldl (mergeVariableStep toSet) st).read toSet n =
        (st.read toSet n).or ((l.findSome? (st.slotOf n)).map fun p => p.2.binding)
  | [], _, h, _, _ => ⟨h, fun _ => by simp⟩
  | u :: l, st, h, hnd, hl => by
    obtain ⟨hu, hlt⟩ := hl u (List.mem_cons_self _ _)
    obtain ⟨h1, hr1⟩ := mergeVariableStep_read h hu hlt
    have hul : u ∉ l := (List.nodup_cons.1 hnd).1
    have hvars : ∀ w ∈ l, (mergeVariableStep toSet st u).vars w = st.vars w :=
      fun w hw => mergeVariableStep_vars_of_ne fun he => hul (he ▸ hw)
    obtain ⟨h2, hr2⟩ := foldl_mergeVariableStep_read l h1 (List.nodup_cons.1 hnd).2 fun w hw => by
      refine ⟨fun hm => ?_, by rw [mergeVariableStep_fresh]; exact (hl w (List.mem_cons_of_mem _ hw)).2⟩
      rcases mem_table_of_mergeVariableStep hm with hm | rfl
      · exact (hl w (List.mem_cons_of_mem _ hw)).1 hm
      · exact hul hw
    refine ⟨h2, fun n => ?_⟩
    rw [List.foldl_cons, hr2, hr1, findSome?_slotOf_congr l hvars, List.findSome?_cons,
      Option.or_assoc]
    cases st.slotOf n u <;> rfl

/-- Records the loop has placed or freed stay so. -/
theorem foldl_mergeVariableStep_keeps : ∀ (l : List VarId) {st : State} {v : VarId},
    v ∈ st.table toSet ∨ st.vars v = none →
    v ∈ (l.foldl (mergeVariableStep toSet) st).table toSet ∨
      (l.foldl (mergeVariableStep toSet) st).vars v = none
  | [], _, _, h => h
  | _ :: l, _, _, h => foldl_mergeVariableStep_keeps l
      (h.imp mem_table_mergeVariableStep mergeVariableStep_vars_none)

/-- Each record of the loop ends in the target or freed. -/
theorem foldl_mergeVariableStep_placed : ∀ (l : List VarId) {st : State}, ∀ u ∈ l,
    u ∈ (l.foldl (mergeVariableStep toSet) st).table toSet ∨
      (l.foldl (mergeVariableStep toSet) st).vars u = none
  | u :: l, st, w, hw => by
    rw [List.foldl_cons]
    rcases List.mem_cons.1 hw with rfl | hw
    · refine foldl_mergeVariableStep_keeps l ?_
      unfold mergeVariableStep
      cases hx : st.vars w with
      | none => exact Or.inr hx
      | some x =>
        dsimp only
        cases st.findSlot toSet x.name with
        | none => left; simp [table]
        | some _ => right; simp
    · exact foldl_mergeVariableStep_placed l w hw

/-- **`merge_variable_sets` is the union of the two maps, the target's
bindings first.** When the source holds no record of the target, the
target stays well formed and reads, for every name, its own binding or
else the source's; every record of the source ends in the target or
freed, while the source's table still lists it. -/
theorem merge_variable_sets_union {fromSet : SetId} (hto : TableWF st toSet)
    (hfrom : TableWF st fromSet) (hdisj : ∀ u ∈ st.table fromSet, u ∉ st.table toSet) :
    TableWF (mergeVariableSets toSet fromSet st) toSet ∧
      (∀ n, (mergeVariableSets toSet fromSet st).read toSet n =
        (st.read toSet n).or (st.read fromSet n)) ∧
      ∀ u ∈ st.table fromSet, u ∈ (mergeVariableSets toSet fromSet st).table toSet ∨
        (mergeVariableSets toSet fromSet st).vars u = none :=
  ⟨(foldl_mergeVariableStep_read _ hto hfrom.nodup fun u hu => ⟨hdisj u hu, hfrom.lt_fresh u hu⟩).1,
    (foldl_mergeVariableStep_read _ hto hfrom.nodup fun u hu => ⟨hdisj u hu, hfrom.lt_fresh u hu⟩).2,
    foldl_mergeVariableStep_placed _⟩

end union

/-- The global set binds `A`; a second set binds `A` and `B`, each record
its own. -/
def mergeDemo : State :=
  let st := (createNewVariableSet State.initial).2
  let st := (defineVariableInSet false "A" "x" .file false (some globalVariableSet) none st).2
  let st := (defineVariableInSet false "A" "y" .file false (some 1) none st).2
  (defineVariableInSet false "B" "z" .file false (some 1) none st).2

theorem merge_variable_sets_union_demo :
    TableWF mergeDemo globalVariableSet ∧ TableWF mergeDemo 1 ∧
      (∀ u ∈ mergeDemo.table 1, u ∉ mergeDemo.table globalVariableSet) ∧
      (TableWF (mergeVariableSets globalVariableSet 1 mergeDemo) globalVariableSet ∧
        (∀ n, (mergeVariableSets globalVariableSet 1 mergeDemo).read globalVariableSet n =
          (mergeDemo.read globalVariableSet n).or (mergeDemo.read 1 n)) ∧
        ∀ u ∈ mergeDemo.table 1, u ∈ (mergeVariableSets globalVariableSet 1 mergeDemo).table
          globalVariableSet ∨ (mergeVariableSets globalVariableSet 1 mergeDemo).vars u = none) :=
  ⟨by decide, by decide, by decide, merge_variable_sets_union (by decide) (by decide) (by decide)⟩

/-! ## Chains as lists of links -/

/-- The set a link holds. -/
def linkSet (st : State) (l : ListId) : SetId :=
  ((st.lists l).map SetList.set).getD globalVariableSet

/-- Whether a link's successor is the chain of its parent. -/
def linkParent (st : State) (l : ListId) : Bool :=
  ((st.lists l).map SetList.nextIsParent).getD false

/-- The links of a chain before `global_setlist`, in order; `none` when the
walk meets `NULL` or a freed link first, or runs out of fuel. -/
def chainLinks (st : State) : Nat → Option ListId → Option (List ListId)
  | _, none => none
  | 0, some _ => none
  | fuel + 1, some l =>
    if l = globalSetlist then some []
    else (st.lists l).bind fun n => (chainLinks st fuel n.next).map (l :: ·)

/-- The links of a file's own chain, within the fuel the merge loops get;
a `NULL` chain is empty. -/
def fileChain (st : State) (f : FileId) : Option (List ListId) :=
  (st.files f).bind fun file =>
    match file.variablesList with
    | none => some []
    | some t => chainLinks st st.fresh (some t)

/-- What the sets of a chain say, link by link. -/
def chainMaps (st : State) (L : List ListId) : List TableMap :=
  L.map fun l => st.read (linkSet st l)

/-- **The merge of two chains, as maps**: at each depth the union of the
two sets, the first chain's bindings first; then the rest of the longer
chain. -/
def mergeMaps : List TableMap → List TableMap → List TableMap
  | m :: ms, m' :: ms' => (fun n => (m n).or (m' n)) :: mergeMaps ms ms'
  | [], ms' => ms'
  | ms, [] => ms

/-- Two chains that share no set and no record, every set well formed. -/
structure ChainsApart (st : State) (L0 L1 : List ListId) : Prop where
  sets : ((L0 ++ L1).map (linkSet st)).Nodup
  wf : ∀ l ∈ L0 ++ L1, TableWF st (linkSet st l)
  records : ∀ l ∈ L0 ++ L1, ∀ l' ∈ L0 ++ L1, linkSet st l ≠ linkSet st l' →
    ∀ u ∈ st.table (linkSet st l), u ∉ st.table (linkSet st l')

instance (st : State) (L0 L1 : List ListId) : Decidable (ChainsApart st L0 L1) :=
  decidable_of_iff' (((L0 ++ L1).map (linkSet st)).Nodup ∧ (∀ l ∈ L0 ++ L1, TableWF st (linkSet st l)) ∧
    ∀ l ∈ L0 ++ L1, ∀ l' ∈ L0 ++ L1, linkSet st l ≠ linkSet st l' →
      ∀ u ∈ st.table (linkSet st l), u ∉ st.table (linkSet st l'))
    ⟨fun h => ⟨h.sets, h.wf, h.records⟩, fun h => ⟨h.1, h.2.1, h.2.2⟩⟩

section walk

variable {st st' : State} {fuel : Nat}

theorem chainLinks_none : chainLinks st fuel none = none := by cases fuel <;> rfl

theorem chainLinks_global : chainLinks st (fuel + 1) (some globalSetlist) = some [] := by
  simp [chainLinks]

theorem chainLinks_link {l : ListId} {n : SetList} (hl : l ≠ globalSetlist)
    (hn : st.lists l = some n) :
    chainLinks st (fuel + 1) (some l) = (chainLinks st fuel n.next).map (l :: ·) := by
  simp [chainLinks, hl, hn]

/-- What a walk that ends did: stop at `global_setlist`, or step over a
live link to its `next`, one fuel less. -/
theorem chainLinks_inv {ol : Option ListId} {L : List ListId} (h : chainLinks st fuel ol = some L) :
    ∃ F l, fuel = F + 1 ∧ ol = some l ∧ (l = globalSetlist ∧ L = [] ∨
      l ≠ globalSetlist ∧ ∃ n L', st.lists l = some n ∧ chainLinks st F n.next = some L' ∧
        L = l :: L') := by
  match fuel, ol, h with
  | 0, none, h | _ + 1, none, h => simp [chainLinks_none] at h
  | 0, some _, h => simp [chainLinks] at h
  | F + 1, some l, h =>
    refine ⟨F, l, rfl, rfl, ?_⟩
    by_cases hl : l = globalSetlist
    · subst hl; rw [chainLinks_global] at h; exact .inl ⟨rfl, (Option.some.inj h).symm⟩
    · cases hn : st.lists l with
      | none => simp [chainLinks, hl, hn] at h
      | some n =>
        rw [chainLinks_link hl hn, Option.map_eq_some'] at h
        obtain ⟨L', hL', rfl⟩ := h
        exact .inr ⟨hl, n, L', rfl, hL', rfl⟩

/-- An empty walk started at `global_setlist`. -/
theorem chainLinks_nil {ol : Option ListId} (h : chainLinks st fuel ol = some []) :
    ol = some globalSetlist ∧ ∃ F, fuel = F + 1 := by
  obtain ⟨F, l, rfl, rfl, ⟨rfl, -⟩ | ⟨-, n, L', -, -, hc⟩⟩ := chainLinks_inv h
  · exact ⟨rfl, F, rfl⟩
  · cases hc

/-- A walk that visited a link started at it, a live link other than
`global_setlist`, and went on from its `next`. -/
theorem chainLinks_cons {ol : Option ListId} {x : ListId} {L : List ListId}
    (h : chainLinks st fuel ol = some (x :: L)) :
    ol = some x ∧ x ≠ globalSetlist ∧ ∃ n, st.lists x = some n ∧
      ∃ F, fuel = F + 1 ∧ chainLinks st F n.next = some L := by
  obtain ⟨F, l, rfl, rfl, ⟨-, h⟩ | ⟨hl, n, L', hn, hL', h⟩⟩ := chainLinks_inv h
  · cases h
  · obtain ⟨rfl, rfl⟩ := List.cons.inj h
    exact ⟨rfl, hl, n, hn, F, rfl, hL'⟩

/-- A chain that ends is shorter than the fuel it took. -/
theorem length_lt_of_chainLinks {ol : Option ListId} {L : List ListId}
    (h : chainLinks st fuel ol = some L) : L.length < fuel := by
  induction L generalizing fuel ol with
  | nil => obtain ⟨-, F, rfl⟩ := chainLinks_nil h; exact F.succ_pos
  | cons x L ih =>
    obtain ⟨-, -, n, -, F, rfl, hL⟩ := chainLinks_cons h
    exact Nat.succ_lt_succ (ih hL)

/-- More fuel walks the same chain. -/
theorem chainLinks_mono {fuel' : Nat} {ol : Option ListId} {L : List ListId}
    (h : chainLinks st fuel ol = some L) (hf : fuel ≤ fuel') : chainLinks st fuel' ol = some L := by
  induction L generalizing fuel fuel' ol with
  | nil =>
    obtain ⟨rfl, F, rfl⟩ := chainLinks_nil h
    obtain ⟨F', rfl⟩ : ∃ F', fuel' = F' + 1 := ⟨fuel' - 1, by omega⟩
    exact chainLinks_global
  | cons x L ih =>
    obtain ⟨rfl, hx, n, hn, F, rfl, hL⟩ := chainLinks_cons h
    obtain ⟨F', rfl⟩ : ∃ F', fuel' = F' + 1 := ⟨fuel' - 1, by omega⟩
    rw [chainLinks_link hx hn, ih hL (by omega)]; rfl

/-- The walk reads the links it reaches, and no others. -/
theorem chainLinks_congr {ol : Option ListId} {L : List ListId} (h : chainLinks st fuel ol = some L)
    (hL : ∀ l ∈ L, st'.lists l = st.lists l) : chainLinks st' fuel ol = some L := by
  induction L generalizing fuel ol with
  | nil => obtain ⟨rfl, F, rfl⟩ := chainLinks_nil h; exact chainLinks_global
  | cons x L ih =>
    obtain ⟨rfl, hx, n, hn, F, rfl, hL'⟩ := chainLinks_cons h
    rw [chainLinks_link hx ((hL x (List.mem_cons_self _ _)).trans hn),
      ih hL' fun l hl => hL l (List.mem_cons_of_mem _ hl)]
    rfl

/-- The walk needs one step per link, and one for `global_setlist`. -/
theorem chainLinks_length_succ {ol : Option ListId} {L : List ListId}
    (h : chainLinks st fuel ol = some L) : chainLinks st (L.length + 1) ol = some L := by
  induction L generalizing fuel ol with
  | nil => obtain ⟨rfl, -⟩ := chainLinks_nil h; exact chainLinks_global
  | cons x L ih =>
    obtain ⟨rfl, hx, n, hn, F, rfl, hL⟩ := chainLinks_cons h
    rw [List.length_cons, chainLinks_link hx hn, ih hL]; rfl

theorem ne_global_of_mem_chainLinks {ol : Option ListId} {L : List ListId}
    (h : chainLinks st fuel ol = some L) : ∀ l ∈ L, l ≠ globalSetlist ∧ (st.lists l).isSome := by
  induction L generalizing fuel ol with
  | nil => exact fun _ hl => absurd hl (List.not_mem_nil _)
  | cons x L ih =>
    obtain ⟨-, hx, n, hn, F, -, hL⟩ := chainLinks_cons h
    rintro l (_ | ⟨_, hl⟩)
    · exact ⟨hx, by simp [hn]⟩
    · exact ih hL l hl

/-- The walk from a later link of a chain is the rest of the chain. -/
theorem chainLinks_suffix : ∀ (P : List ListId) {fuel : Nat} {ol : Option ListId} {x : ListId}
    {T : List ListId}, chainLinks st fuel ol = some (P ++ x :: T) →
    chainLinks st (T.length + 2) (some x) = some (x :: T)
  | [], _, _, _, _, h => by
    rw [List.nil_append] at h
    obtain ⟨rfl, -⟩ := chainLinks_cons h
    exact chainLinks_length_succ h
  | _ :: P, _, _, _, _, h => by
    obtain ⟨-, -, n, -, F, -, hL⟩ := chainLinks_cons h
    exact chainLinks_suffix P hL

/-- `merge_variable_set_lists`'s first loop asks whether the second chain
starts at a link of the first. -/
theorem chainHasBefore_eq {s1 : ListId} {ol : Option ListId} {L : List ListId}
    (h : chainLinks st fuel ol = some L) : chainHasBefore st s1 fuel ol = some (decide (s1 ∈ L)) := by
  induction L generalizing fuel ol with
  | nil => obtain ⟨rfl, F, rfl⟩ := chainLinks_nil h; simp [chainHasBefore]
  | cons x L ih =>
    obtain ⟨rfl, hx, n, hn, F, rfl, hL⟩ := chainLinks_cons h
    by_cases hs : x = s1
    · subst hs; simp [chainHasBefore, hx]
    · simp [chainHasBefore, hx, hs, hn, ih hL, Ne.symm hs]

end walk

/-! ## The merges of the second loop -/

section frame

variable {st : State} {toSet fromSet S : SetId} {v : VarId}

theorem mergeVariableStep_table_of_ne (hS : S ≠ toSet) {u : VarId} :
    (mergeVariableStep toSet st u).table S = st.table S := by
  unfold mergeVariableStep
  split
  · rfl
  · split
    · exact table_setTable_of_ne st _ hS
    · rfl

theorem mergeVariableSets_table_of_ne (hS : S ≠ toSet) :
    (mergeVariableSets toSet fromSet st).table S = st.table S := by
  unfold mergeVariableSets
  generalize st.table fromSet = l
  induction l generalizing st with
  | nil => rfl
  | cons u l ih => rw [List.foldl_cons, ih, mergeVariableStep_table_of_ne hS]

theorem mergeVariableSets_vars_of_not_mem (hv : v ∉ st.table fromSet) :
    (mergeVariableSets toSet fromSet st).vars v = st.vars v := by
  unfold mergeVariableSets
  generalize st.table fromSet = l at hv
  induction l generalizing st with
  | nil => rfl
  | cons u l ih =>
    rw [List.foldl_cons, ih (fun h => hv (List.mem_cons_of_mem _ h)),
      mergeVariableStep_vars_of_ne fun he => hv (by rw [he]; exact List.mem_cons_self _ _)]

theorem mergeVariableSets_fresh : (mergeVariableSets toSet fromSet st).fresh = st.fresh := by
  unfold mergeVariableSets
  generalize st.table fromSet = l
  induction l generalizing st with
  | nil => rfl
  | cons u l ih => rw [List.foldl_cons, ih, mergeVariableStep_fresh]

theorem mem_table_of_foldl_mergeVariableStep : ∀ (l : List VarId) {st : State},
    v ∈ (l.foldl (mergeVariableStep toSet) st).table toSet → v ∈ st.table toSet ∨ v ∈ l
  | [], _, hv => Or.inl hv
  | u :: l, st, hv => by
    rcases mem_table_of_foldl_mergeVariableStep l hv with hv | hv
    · rcases mem_table_of_mergeVariableStep hv with hv | rfl
      · exact Or.inl hv
      · exact Or.inr (List.mem_cons_self _ _)
    · exact Or.inr (List.mem_cons_of_mem _ hv)

/-- A set merged into, or held by no record of the source, reads as before. -/
theorem mergeVariableSets_keeps (hS : S ≠ toSet) (hrec : ∀ u ∈ st.table S, u ∉ st.table fromSet)
    (h : TableWF st S) :
    TableWF (mergeVariableSets toSet fromSet st) S ∧ (mergeVariableSets toSet fromSet st).read S = st.read S :=
  h.congr (mergeVariableSets_table_of_ne hS) mergeVariableSets_fresh.ge
    fun u hu => mergeVariableSets_vars_of_not_mem (hrec u hu)

end frame

/-- The merges of the second loop from state `s`: each set of the second
chain into the set at the same depth of the first. -/
def mergeDepths : List ListId → List ListId → State → State
  | t :: L0, a :: L1, s => mergeDepths L0 L1 (mergeVariableSets (linkSet s t) (linkSet s a) s)
  | _, _, s => s

section depths

theorem linkSet_congr {s st : State} (h : s.lists = st.lists) : linkSet s = linkSet st := by
  funext l; simp only [linkSet, h]

theorem linkParent_congr {s st : State} (h : s.lists = st.lists) : linkParent s = linkParent st := by
  funext l; simp only [linkParent, h]

theorem mergeDepths_lists : ∀ (L0 L1 : List ListId) (s : State), (mergeDepths L0 L1 s).lists = s.lists
  | _ :: L0, _ :: L1, _ => (mergeDepths_lists L0 L1 _).trans (mergeVariableSets_frame _).1
  | [], _, _ | _ :: _, [], _ => rfl

theorem mergeDepths_files : ∀ (L0 L1 : List ListId) (s : State), (mergeDepths L0 L1 s).files = s.files
  | _ :: L0, _ :: L1, _ => (mergeDepths_files L0 L1 _).trans (mergeVariableSets_frame _).2
  | [], _, _ | _ :: _, [], _ => rfl

theorem mergeDepths_fresh : ∀ (L0 L1 : List ListId) (s : State), (mergeDepths L0 L1 s).fresh = s.fresh
  | _ :: L0, _ :: L1, _ => (mergeDepths_fresh L0 L1 _).trans mergeVariableSets_fresh
  | [], _, _ | _ :: _, [], _ => rfl

/-- A set that is merged into at no depth, and holds no record of a set
merged from, keeps its table and reads as before. -/
theorem mergeDepths_keeps {S : SetId} : ∀ (L0 L1 : List ListId) (s : State),
    (∀ t ∈ L0, linkSet s t ≠ S) → (∀ a ∈ L1, ∀ t ∈ L0, linkSet s a ≠ linkSet s t) →
    (∀ a ∈ L1, ∀ u ∈ s.table S, u ∉ s.table (linkSet s a)) → TableWF s S →
    TableWF (mergeDepths L0 L1 s) S ∧ (mergeDepths L0 L1 s).read S = s.read S
  | t :: L0, a :: L1, s, hS, hsep, hrec, h => by
    have hS0 : S ≠ linkSet s t := (hS t (List.mem_cons_self _ _)).symm
    have hls : linkSet (mergeVariableSets (linkSet s t) (linkSet s a) s) = linkSet s :=
      linkSet_congr (mergeVariableSets_frame _).1
    obtain ⟨h1, hr1⟩ := mergeVariableSets_keeps hS0 (hrec a (List.mem_cons_self _ _)) h
    obtain ⟨h2, hr2⟩ := mergeDepths_keeps L0 L1 _
      (fun t' ht' => by rw [hls]; exact hS t' (List.mem_cons_of_mem _ ht'))
      (fun a' ha' t' ht' => by
        rw [hls]; exact hsep a' (List.mem_cons_of_mem _ ha') t' (List.mem_cons_of_mem _ ht'))
      (fun a' ha' u hu => by
        rw [mergeVariableSets_table_of_ne hS0] at hu
        rw [hls, mergeVariableSets_table_of_ne
          (hsep a' (List.mem_cons_of_mem _ ha') t (List.mem_cons_self _ _))]
        exact hrec a' (List.mem_cons_of_mem _ ha') u hu) h1
    exact ⟨h2, hr2.trans hr1⟩
  | [], _, _, _, _, _, h | _ :: _, [], _, _, _, _, h => ⟨h, rfl⟩

/-- The sets of two chains apart are apart across the chains. -/
theorem ChainsApart.ne {s : State} {L0 L1 : List ListId} (h : ChainsApart s L0 L1) :
    ∀ t ∈ L0, ∀ a ∈ L1, linkSet s t ≠ linkSet s a := by
  have := h.sets
  rw [List.map_append, List.nodup_append] at this
  exact fun t ht a ha he => this.2.2 (List.mem_map_of_mem _ ht) (he ▸ List.mem_map_of_mem _ ha)

theorem ne_of_nodup_map_cons {f : ListId → SetId} {x : ListId} {L : List ListId}
    (h : ((x :: L).map f).Nodup) : ∀ y ∈ L, f y ≠ f x :=
  fun _ hy he => (List.nodup_cons.1 (List.map_cons f x L ▸ h)).1 (he ▸ List.mem_map_of_mem f hy)

section heads

variable {s : State} {t a : ListId} {L0 L1 : List ListId}

/-- A set of the rest of two chains apart is neither of the first two. -/
theorem ChainsApart.ne_heads (h : ChainsApart s (t :: L0) (a :: L1)) :
    ∀ l ∈ L0 ++ L1, linkSet s l ≠ linkSet s t ∧ linkSet s l ≠ linkSet s a := by
  have hnd0 : ((t :: L0).map (linkSet s)).Nodup :=
    h.sets.sublist ((List.sublist_append_left _ _).map _)
  have hnd1 : ((a :: L1).map (linkSet s)).Nodup :=
    h.sets.sublist ((List.sublist_append_right _ _).map _)
  intro l hl
  rcases List.mem_append.1 hl with hl | hl
  · exact ⟨ne_of_nodup_map_cons hnd0 l hl,
      h.ne l (List.mem_cons_of_mem _ hl) a (List.mem_cons_self _ _)⟩
  · exact ⟨(h.ne t (List.mem_cons_self _ _) l (List.mem_cons_of_mem _ hl)).symm,
      ne_of_nodup_map_cons hnd1 l hl⟩

theorem mem_of_mem_tails {l : ListId} (hl : l ∈ L0 ++ L1) : l ∈ (t :: L0) ++ (a :: L1) := by
  simp only [List.mem_append, List.mem_cons] at hl ⊢; tauto

/-- The first merge leaves every other set of the two chains as it was. -/
theorem ChainsApart.keeps (h : ChainsApart s (t :: L0) (a :: L1)) :
    ∀ l ∈ L0 ++ L1,
      (mergeVariableSets (linkSet s t) (linkSet s a) s).table (linkSet s l) = s.table (linkSet s l) ∧
      TableWF (mergeVariableSets (linkSet s t) (linkSet s a) s) (linkSet s l) ∧
      (mergeVariableSets (linkSet s t) (linkSet s a) s).read (linkSet s l) = s.read (linkSet s l) :=
  fun l hl => ⟨mergeVariableSets_table_of_ne (h.ne_heads l hl).1,
    mergeVariableSets_keeps (h.ne_heads l hl).1
      (h.records l (mem_of_mem_tails hl) a (by simp) (h.ne_heads l hl).2)
      (h.wf l (mem_of_mem_tails hl))⟩

/-- After the first merge, the rest of the two chains are still apart. -/
theorem ChainsApart.tail (h : ChainsApart s (t :: L0) (a :: L1)) :
    ChainsApart (mergeVariableSets (linkSet s t) (linkSet s a) s) L0 L1 := by
  have hls : linkSet (mergeVariableSets (linkSet s t) (linkSet s a) s) = linkSet s :=
    linkSet_congr (mergeVariableSets_frame _).1
  refine ⟨?_, fun l hl => ?_, fun l hl l' hl' hne => ?_⟩ <;> rw [hls] at *
  · exact h.sets.sublist (((List.sublist_cons_self t L0).append
      (List.sublist_cons_self a L1)).map _)
  · exact (h.keeps l hl).2.1
  · rw [(h.keeps l hl).1, (h.keeps l' hl').1]
    exact h.records l (mem_of_mem_tails hl) l' (mem_of_mem_tails hl') hne

end heads

/-- **The merges of the second loop, as maps**: on two chains apart, the
first chain, then what the second has beyond it, reads as `mergeMaps` of
the two chains, every set well formed. -/
theorem mergeDepths_read : ∀ (L0 L1 : List ListId) (s : State), ChainsApart s L0 L1 →
    (∀ l ∈ L0 ++ L1.drop L0.length, TableWF (mergeDepths L0 L1 s) (linkSet s l)) ∧
      chainMaps (mergeDepths L0 L1 s) (L0 ++ L1.drop L0.length) =
        mergeMaps (chainMaps s L0) (chainMaps s L1)
  | [], L1, s, h => ⟨fun l hl => h.wf l hl, by simp [mergeDepths, chainMaps, mergeMaps]⟩
  | t :: L0, [], s, h => ⟨fun l hl => h.wf l (by simpa using hl), by
      simp only [mergeDepths, chainMaps, List.drop_nil, List.append_nil, List.map_cons, mergeMaps]⟩
  | t :: L0, a :: L1, s, h => by
    set s1 := mergeVariableSets (linkSet s t) (linkSet s a) s with hs1
    have hls : linkSet s1 = linkSet s := linkSet_congr (mergeVariableSets_frame _).1
    have hmemt : t ∈ (t :: L0) ++ (a :: L1) := by simp
    have hmema : a ∈ (t :: L0) ++ (a :: L1) := by simp
    have hta : linkSet s t ≠ linkSet s a := h.ne t (List.mem_cons_self _ _) a (List.mem_cons_self _ _)
    -- the first depth is the union of the two sets
    obtain ⟨hwf1, hread1⟩ := foldl_mergeVariableStep_read (s.table (linkSet s a))
      (h.wf t hmemt) (h.wf a hmema).nodup fun u hu =>
        ⟨h.records a hmema t hmemt hta.symm u hu, (h.wf a hmema).lt_fresh u hu⟩
    -- the rest is still apart, and reads as before the first merge
    obtain ⟨ih1, ih2⟩ := mergeDepths_read L0 L1 s1 h.tail
    have hmaps : ∀ L, (∀ l ∈ L, l ∈ L0 ++ L1) → chainMaps s1 L = chainMaps s L := fun L hL =>
      List.map_congr_left fun l hl => by rw [hls]; exact (h.keeps l (hL l hl)).2.2
    -- the first depth is left alone by the later merges
    have hkeep := mergeDepths_keeps L0 L1 s1
      (fun t' ht' => by rw [hls]; exact (h.ne_heads t' (List.mem_append_left _ ht')).1)
      (fun a' ha' t' ht' => by
        rw [hls]; exact (h.ne t' (List.mem_cons_of_mem _ ht') a' (List.mem_cons_of_mem _ ha')).symm)
      (fun a' ha' u hu hu' => by
        rw [hls, (h.keeps a' (List.mem_append_right _ ha')).1] at hu'
        rcases mem_table_of_foldl_mergeVariableStep _ hu with hu | hu
        · exact h.records t hmemt a' (mem_of_mem_tails (List.mem_append_right _ ha'))
            (h.ne_heads a' (List.mem_append_right _ ha')).1.symm u hu hu'
        · exact h.records a hmema a' (mem_of_mem_tails (List.mem_append_right _ ha'))
            (h.ne_heads a' (List.mem_append_right _ ha')).2.symm u hu hu')
      hwf1
    have hlf : linkSet (mergeDepths L0 L1 s1) = linkSet s := (linkSet_congr (mergeDepths_lists _ _ _)).trans hls
    simp only [mergeDepths, List.length_cons, List.drop_succ_cons, List.cons_append]
    refine ⟨fun l hl => ?_, ?_⟩
    · rcases List.mem_cons.1 hl with rfl | hl
      · exact hkeep.1
      · have := ih1 l hl; rwa [hls] at this
    · rw [chainMaps, List.map_cons, ← chainMaps, ih2, hmaps L0 fun l hl => List.mem_append_left _ hl,
        hmaps L1 fun l hl => List.mem_append_right _ hl, hlf, hkeep.2]
      simp only [chainMaps, List.map_cons, mergeMaps]
      congr 1
      funext n
      exact hread1 n

end depths


/-! ## The loops of `merge_variable_set_lists` -/

section loops

theorem chainLinks_of_lists {s s' : State} (h : s'.lists = s.lists) :
    ∀ (fuel : Nat) (ol : Option ListId), chainLinks s' fuel ol = chainLinks s fuel ol
  | 0, none | _ + 1, none | 0, some _ => rfl
  | fuel + 1, some l => by simp only [chainLinks, h, chainLinks_of_lists h fuel]

theorem getLast?_cons_or {x : ListId} (X : List ListId) (last : Option ListId) :
    ((x :: X).getLast?).or last = X.getLast?.or (some x) := by
  rw [List.getLast?_cons]; cases X.getLast? <;> rfl

/-- **The second loop** walks the two chains in step: it stops at the
first link of the second chain it did not merge (or `global_setlist`),
after the last link of the first it visited, having made the merges of
`mergeDepths`. -/
theorem mergeSetLoop_eq : ∀ (L0 L1 : List ListId) {fuel : Nat} {s : State} {o0 o1 : Option ListId}
    {last : Option ListId}, chainLinks s fuel o0 = some L0 → chainLinks s fuel o1 = some L1 →
    mergeSetLoop s fuel o1 o0 last =
      some (some ((L1.drop L0.length).head?.getD globalSetlist),
        ((L0.take L1.length).getLast?).or last, mergeDepths L0 L1 s)
  | [], L1, _, _, _, _, _, h0, h1 => by
    rw [(chainLinks_nil h0).1, mergeSetLoop_stop (Or.inr rfl)]
    cases L1 with
    | nil => rw [(chainLinks_nil h1).1]; rfl
    | cons x L1 => rw [(chainLinks_cons h1).1]; rfl
  | _ :: L0, [], _, _, _, _, _, _, h1 => by
    rw [(chainLinks_nil h1).1, mergeSetLoop_stop (Or.inl rfl)]; rfl
  | _ :: L0, _ :: L1, _, s, _, _, last, h0, h1 => by
    obtain ⟨rfl, htg, nt, hnt, F, rfl, hL0⟩ := chainLinks_cons h0
    obtain ⟨rfl, hag, na, hna, F', hF, hL1⟩ := chainLinks_cons h1
    obtain rfl := Nat.succ.inj hF
    have hls : (mergeVariableSets nt.set na.set s).lists = s.lists := (mergeVariableSets_frame _).1
    rw [mergeSetLoop_step hag htg hna hnt, mergeSetLoop_eq L0 L1
      ((chainLinks_of_lists hls _ _).trans hL0) ((chainLinks_of_lists hls _ _).trans hL1)]
    simp only [List.length_cons, List.drop_succ_cons, List.take_succ_cons, getLast?_cons_or,
      mergeDepths, linkSet, hnt, hna, Option.map_some', Option.getD_some]

/-- Hanging a chain behind the last link of another walks the two in turn. -/
theorem chainLinks_splice {s : State} {x b : ListId} {nx : SetList} {T : List ListId}
    (hx : s.lists x = some nx) (hxT : x ∉ T) (hT : chainLinks s (T.length + 1) (some b) = some T) :
    ∀ (P : List ListId) {fuel : Nat} {ol : Option ListId}, chainLinks s fuel ol = some (P ++ [x]) →
      x ∉ P → chainLinks (s.setList x { nx with next := some b }) (P.length + T.length + 2) ol =
        some (P ++ x :: T)
  | [], _, _, h, _ => by
    obtain ⟨rfl, hxg, -⟩ := chainLinks_cons h
    have hT' : chainLinks (s.setList x { nx with next := some b }) (T.length + 1) (some b) = some T :=
      chainLinks_congr hT fun l hl => by
        simp [Function.update_noteq (fun he : l = x => hxT (he ▸ hl))]
    rw [show [].length + T.length + 2 = (T.length + 1) + 1 by simp,
      chainLinks_link hxg
        (show (s.setList x { nx with next := some b }).lists x = some { nx with next := some b } by simp),
      hT']
    rfl
  | p :: P, _, _, h, hxP => by
    obtain ⟨rfl, hpg, np, hnp, F, -, hL⟩ := chainLinks_cons h
    have hpx : p ≠ x := fun he => hxP (he ▸ List.mem_cons_self _ _)
    have hnp' : (s.setList x { nx with next := some b }).lists p = some np := by
      simp [Function.update_noteq hpx, hnp]
    rw [show (p :: P).length + T.length + 2 = (P.length + T.length + 2) + 1 by simp; omega,
      chainLinks_link hpg hnp', chainLinks_splice hx hxT hT P hL fun hm => hxP (List.mem_cons_of_mem _ hm)]
    rfl

end loops

section edits

variable {s : State}

theorem TableWF.setList {S : SetId} (h : TableWF s S) (x : ListId) (n : SetList) :
    TableWF (s.setList x n) S :=
  (show TableWF (s.setList x n) S ∧ _ from h.congr rfl le_rfl fun _ _ => rfl).1

theorem TableWF.setFile {S : SetId} (h : TableWF s S) (f : FileId) (file : File) :
    TableWF (s.setFile f file) S :=
  (show TableWF (s.setFile f file) S ∧ _ from h.congr rfl le_rfl fun _ _ => rfl).1

theorem linkSet_setList_next {x : ListId} {nx : SetList} (hx : s.lists x = some nx)
    (b : Option ListId) : linkSet (s.setList x { nx with next := b }) = linkSet s := by
  funext l
  by_cases hl : l = x
  · subst hl; simp [linkSet, hx]
  · simp [linkSet, Function.update_noteq hl]

theorem linkParent_setList_next {x : ListId} {nx : SetList} (hx : s.lists x = some nx)
    (b : Option ListId) : linkParent (s.setList x { nx with next := b }) = linkParent s := by
  funext l
  by_cases hl : l = x
  · subst hl; simp [linkParent, hx]
  · simp [linkParent, Function.update_noteq hl]

theorem fileChain_of_variablesList {f : FileId} {file : File} {t : ListId}
    (hf : s.files f = some file) (ht : file.variablesList = some t) :
    fileChain s f = chainLinks s s.fresh (some t) := by
  simp [fileChain, hf, ht]

end edits

/-! ## The merge of two chains apart -/

/-- What a call of `merge_variable_set_lists` leaves, against the merges
of the second loop: the same maps, the same sets and `next_is_parent`
flags at every link, `global_setlist` untouched, a file's chain still set
if it was, every set those merges leave well formed still so, and the
file's chain the first chain followed by the rest of the second. -/
structure MergedAs (st : State) (f0 : FileId) (L0 L1 : List ListId) (st' : State) : Prop where
  read : st'.read = (mergeDepths L0 L1 st).read
  links : linkSet st' = linkSet st
  parents : linkParent st' = linkParent st
  global : st'.lists globalSetlist = st.lists globalSetlist
  start : ((st.files f0).bind File.variablesList).isSome →
    ((st'.files f0).bind File.variablesList).isSome
  wf : ∀ S, TableWF (mergeDepths L0 L1 st) S → TableWF st' S
  chain : fileChain st' f0 = some (L0 ++ L1.drop L0.length)

section branches

variable {st : State} {f0 : FileId} {file : File} {s1 t : ListId} {L0 L1 : List ListId}

/-- Nothing to merge: the state is kept. -/
theorem mergedAs_self (h0 : fileChain st f0 = some L0) : MergedAs st f0 L0 [] st :=
  have hD : mergeDepths L0 [] st = st := by cases L0 <;> rfl
  ⟨by rw [hD], rfl, rfl, rfl, id, by rw [hD]; exact fun _ h => h,
    by rw [List.drop_nil, List.append_nil]; exact h0⟩

/-- A file with no link of its own takes the second chain whole. -/
theorem mergedAs_setFile (h1 : chainLinks st st.fresh (some s1) = some L1) :
    MergedAs st f0 [] L1 (st.setFile f0 { file with variablesList := some s1 }) where
  read := rfl
  links := linkSet_congr rfl
  parents := linkParent_congr rfl
  global := rfl
  start _ := by simp
  wf _ h := (show TableWF st _ from h).setFile _ _
  chain := by
    simp only [fileChain, setFile, Function.update_same, Option.some_bind]
    refine (@chainLinks_of_lists st _ ?_ _ _).trans ?_
    · rfl
    · simpa using h1

/-- A second chain no longer than the file's: the file keeps its chain. -/
theorem mergedAs_shorter (hf : st.files f0 = some file) (hvl : file.variablesList = some t)
    (hfc : chainLinks st st.fresh (some t) = some L0) (hk : L1.length ≤ L0.length) :
    MergedAs st f0 L0 L1 (mergeDepths L0 L1 st) := by
  refine ⟨rfl, linkSet_congr (mergeDepths_lists _ _ _), linkParent_congr (mergeDepths_lists _ _ _),
    congrFun (mergeDepths_lists _ _ _) _, by rw [mergeDepths_files]; exact id, fun _ h => h, ?_⟩
  rw [List.drop_eq_nil_of_le hk, List.append_nil,
    fileChain_of_variablesList ((congrFun (mergeDepths_files _ _ _) f0).trans hf) hvl,
    mergeDepths_fresh, chainLinks_of_lists (mergeDepths_lists _ _ _), hfc]

/-- A longer second chain: the last link `x` of the file's chain is
pointed at the first link `a` of the second beyond it. -/
theorem mergedAs_splice {P T : List ListId} {x a : ListId} {nx : SetList}
    (hap : ChainsApart st (P ++ [x]) L1) (hf : st.files f0 = some file)
    (hvl : file.variablesList = some t) (hfc : chainLinks st st.fresh (some t) = some (P ++ [x]))
    (h1 : chainLinks st st.fresh (some s1) = some L1) (hdT : L1.drop (P ++ [x]).length = a :: T)
    (hnx : st.lists x = some nx) :
    MergedAs st f0 (P ++ [x]) L1
      ((mergeDepths (P ++ [x]) L1 st).setList x { nx with next := some a }) := by
  have hDl := mergeDepths_lists (P ++ [x]) L1 st
  have hnxD : (mergeDepths (P ++ [x]) L1 st).lists x = some nx := (congrFun hDl x).trans hnx
  have hxL : x ∈ P ++ [x] := List.mem_append_right _ (List.mem_singleton_self x)
  have hxg : globalSetlist ≠ x := (ne_global_of_mem_chainLinks hfc x hxL).1.symm
  refine ⟨rfl, (linkSet_setList_next hnxD _).trans (linkSet_congr hDl),
    (linkParent_setList_next hnxD _).trans (linkParent_congr hDl),
    by simp only [setList, Function.update_noteq hxg, hDl],
    by simp only [setList, mergeDepths_files]; exact id, fun _ h => h.setList _ _, ?_⟩
  have hxP : x ∉ P := fun hm => by
    have hnd := (List.nodup_append.1 (List.Nodup.of_map _ hap.sets)).1
    exact (List.nodup_append.1 hnd).2.2 hm (List.mem_singleton_self x)
  have hxT : x ∉ a :: T := fun hm =>
    hap.ne x hxL x (List.mem_of_mem_drop (hdT ▸ hm)) rfl
  have hsplit : L1 = L1.take (P ++ [x]).length ++ a :: T := by
    rw [← hdT, List.take_append_drop]
  -- the rest of the second chain, and the file's chain, walked in the merged state
  have hT : chainLinks (mergeDepths (P ++ [x]) L1 st) ((a :: T).length + 1) (some a) =
      some (a :: T) :=
    (chainLinks_of_lists hDl _ _).trans (chainLinks_suffix _ (hsplit ▸ h1))
  have hfcD : chainLinks (mergeDepths (P ++ [x]) L1 st) st.fresh (some t) = some (P ++ [x]) :=
    (chainLinks_of_lists hDl _ _).trans hfc
  have hlen : P.length + (a :: T).length + 2 ≤ st.fresh := by
    have h1l := length_lt_of_chainLinks h1
    have := congrArg List.length hsplit
    simp only [List.length_append, List.length_cons, List.length_singleton,
      List.length_take] at this h1l ⊢
    omega
  have hfD : ((mergeDepths (P ++ [x]) L1 st).setList x { nx with next := some a }).files f0 =
      some file := (congrFun (mergeDepths_files _ _ _) f0).trans hf
  have hDr : (mergeDepths (P ++ [x]) L1 st).fresh = st.fresh := mergeDepths_fresh _ _ _
  rw [fileChain_of_variablesList hfD hvl, hdT, List.append_assoc, List.singleton_append]
  exact chainLinks_mono (chainLinks_splice hnxD hxT hT P hfcD hxP) (hDr ▸ hlen)

/-- The call ends, in a state `MergedAs` the merges of its second loop:
each branch of `merge_variable_set_lists` is one of the lemmas above. -/
theorem mergeVariableSetLists_mergedAs (h0 : fileChain st f0 = some L0)
    (h1 : chainLinks st st.fresh (some s1) = some L1) (hap : ChainsApart st L0 L1) :
    ∃ st', mergeVariableSetLists f0 (some s1) st = some st' ∧ MergedAs st f0 L0 L1 st' := by
  obtain ⟨file, hf, hfc⟩ := Option.bind_eq_some.1 h0
  by_cases hs1 : s1 = globalSetlist
  · -- the second chain is empty
    subst hs1
    obtain rfl : L1 = [] := by
      cases L1 with
      | nil => rfl
      | cons x L1 => obtain ⟨hx, hxg, -⟩ := chainLinks_cons h1; cases hx; exact absurd rfl hxg
    exact ⟨st, by simp [mergeVariableSetLists, hf], mergedAs_self h0⟩
  have hL1 : L1 ≠ [] := fun he => hs1 (Option.some.inj (chainLinks_nil (he ▸ h1)).1)
  have hs1L0 : s1 ∉ L0 := fun hm => by
    obtain ⟨x, L1', rfl⟩ := List.exists_cons_of_ne_nil hL1
    obtain ⟨hx, -⟩ := chainLinks_cons h1
    cases hx
    exact hap.ne s1 hm s1 (List.mem_cons_self _ _) rfl
  cases hvl : file.variablesList with
  | none =>
    simp only [hvl, Option.some.injEq] at hfc
    subst hfc
    exact ⟨st.setFile f0 { file with variablesList := some s1 },
      by simp [mergeVariableSetLists, hf, hs1, hvl], mergedAs_setFile h1⟩
  | some t =>
    simp only [hvl] at hfc
    have hhas : chainHasBefore st s1 st.fresh (some t) = some false := by
      rw [chainHasBefore_eq hfc, decide_eq_false hs1L0]
    have hloop := @mergeSetLoop_eq L0 L1 _ _ _ _ none hfc h1
    by_cases hk : L1.length ≤ L0.length
    · exact ⟨_, by simp [mergeVariableSetLists, hf, hs1, hvl, hhas, hloop, List.drop_eq_nil_of_le hk],
        mergedAs_shorter hf hvl hfc hk⟩
    obtain ⟨a, T, hdT⟩ := List.exists_cons_of_ne_nil
      (mt List.drop_eq_nil_iff.1 hk : L1.drop L0.length ≠ [])
    have hag : a ≠ globalSetlist :=
      (ne_global_of_mem_chainLinks h1 a (List.mem_of_mem_drop (hdT ▸ List.mem_cons_self _ _))).1
    rw [hdT, List.take_of_length_le (by omega : L0.length ≤ L1.length)] at hloop
    by_cases hL0 : L0 = []
    · -- the file's chain is empty: the second chain is taken whole
      subst hL0
      rw [List.length_nil, List.drop_zero] at hdT
      subst hdT
      cases (chainLinks_cons h1).1
      exact ⟨st.setFile f0 { file with variablesList := some s1 },
        by simp [mergeVariableSetLists, hf, hs1, hvl, hhas, hloop, mergeDepths], mergedAs_setFile h1⟩
    obtain ⟨P, x, rfl⟩ : ∃ P x, L0 = P ++ [x] :=
      ⟨L0.dropLast, L0.getLast hL0, (List.dropLast_append_getLast hL0).symm⟩
    obtain ⟨nx, hnx⟩ := Option.isSome_iff_exists.1
      (ne_global_of_mem_chainLinks hfc x (List.mem_append_right _ (List.mem_singleton_self x))).2
    have hnxD : (mergeDepths (P ++ [x]) L1 st).lists x = some nx :=
      (congrFun (mergeDepths_lists _ _ _) x).trans hnx
    exact ⟨_, by simp [mergeVariableSetLists, hf, hs1, hvl, hhas, hloop, hag, hnxD],
      mergedAs_splice hap hf hvl hfc h1 hdT hnx⟩

end branches

/-- **`merge_variable_set_lists` on two chains apart is the merge of their
maps.** When a file's chain and a second chain, each ending at
`global_setlist`, share no set and no record, the call ends, and the
file's chain becomes its own links followed by what the second has beyond
them: link by link it reads as `mergeMaps` of the two chains, every set
well formed. -/
theorem merge_variable_set_lists_apart {st : State} {f0 : FileId} {s1 : ListId}
    {L0 L1 : List ListId} (h0 : fileChain st f0 = some L0)
    (h1 : chainLinks st st.fresh (some s1) = some L1) (hap : ChainsApart st L0 L1) :
    ∃ st', mergeVariableSetLists f0 (some s1) st = some st' ∧
      fileChain st' f0 = some (L0 ++ L1.drop L0.length) ∧
      (∀ l ∈ L0 ++ L1.drop L0.length, TableWF st' (linkSet st' l)) ∧
      chainMaps st' (L0 ++ L1.drop L0.length) = mergeMaps (chainMaps st L0) (chainMaps st L1) := by
  obtain ⟨hwfD, hmapsD⟩ := mergeDepths_read L0 L1 st hap
  obtain ⟨st', hm, hst'⟩ := mergeVariableSetLists_mergedAs h0 h1 hap
  have hlsD : linkSet (mergeDepths L0 L1 st) = linkSet st := linkSet_congr (mergeDepths_lists _ _ _)
  refine ⟨st', hm, hst'.chain, fun l hl => hst'.links ▸ hst'.wf _ (hwfD l hl), ?_⟩
  rw [← hmapsD]
  simp only [chainMaps, hst'.read, hst'.links, hlsD]

/-- A file whose chain is one set binding `A`, and a chain of two sets
behind it, binding `A` and `B`. -/
def chainDemo : State :=
  let st := (createNewVariableSet State.initial).2
  let st := (createNewVariableSet st).2
  let st := (createNewVariableSet { st with current := some 2 }).2
  let st := (defineVariableInSet false "A" "x" .file false (some 1) none st).2
  let st := (defineVariableInSet false "A" "y" .file false (some 3) none st).2
  let st := (defineVariableInSet false "B" "z" .file false (some 2) none st).2
  st.setFile 0 ⟨"t", some 1, none, none, none, false⟩

theorem merge_variable_set_lists_apart_demo :
    fileChain chainDemo 0 = some [1] ∧ chainLinks chainDemo chainDemo.fresh (some 3) = some [3, 2] ∧
      ChainsApart chainDemo [1] [3, 2] ∧
      ∃ st', mergeVariableSetLists 0 (some 3) chainDemo = some st' ∧
        fileChain st' 0 = some ([1] ++ [3, 2].drop [1].length) ∧
        (∀ l ∈ [1] ++ [3, 2].drop [1].length, TableWF st' (linkSet st' l)) ∧
        chainMaps st' ([1] ++ [3, 2].drop [1].length) =
          mergeMaps (chainMaps chainDemo [1]) (chainMaps chainDemo [3, 2]) :=
  ⟨by decide, by decide, by decide, merge_variable_set_lists_apart (by decide) (by decide) (by decide)⟩

end MakeVariables
