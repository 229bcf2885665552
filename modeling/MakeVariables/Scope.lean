import MakeVariables.Lookup
/-!
# Scopes — a push and its pop

`push_new_variable_scope` and the matching `pop_variable_scope` give the
chains back as they found them: `current_variable_set_list` and every link,
`global_setlist` with all three fields included, come back, and the link
and the set the push made are freed. Both cases are covered: the ordinary
one, where the new link goes in front, and the global one, where it goes
behind `global_setlist` and the two swap sets. Right after the push, the
walk of `lookup_variable` from the current chain or from any older link
ends with the same record as before.

What may run in between is a `Block`: definitions, undefinitions, nested
scopes and file contexts. The one thing that stops a pop is its assertion
`current_variable_set_list->next != NULL`, which fails for a scope pushed
while no chain is current, as inside the context of a file that has no
chain yet; `Block.Safe` rules that out.

The invariant that makes the global case work is `ScopeWF`:
`global_setlist.next_is_parent` stays clear, since `create_new_variable_set`
zeroes it in the link a global pop copies back, and every link, set and
chain start lies below the allocation frontier, so a new link is reached
only through the links the push rewires.
-/

namespace MakeVariables

open State

namespace State

/-- A run of frees: every address on the list reads `none`, the others as
they were. -/
theorem foldl_update_none (t : List VarId) (g : VarId → Option Variable) (v : VarId) :
    t.foldl (fun f v => Function.update f v none) g v = if v ∈ t then none else g v := by
  induction t generalizing g with
  | nil => simp
  | cons u t ih =>
    rw [List.foldl_cons, ih]
    by_cases hvu : v = u
    · subst hvu; simp
    · by_cases hvt : v ∈ t <;> simp [hvu, hvt, Function.update_noteq]

/-- Freeing records touches the record heap only, and there exactly the
records of the set. -/
theorem freeRecords_eq (st : State) (s : SetId) :
    st.freeRecords s =
      { st with vars := fun v => if v ∈ st.table s then none else st.vars v } := by
  have : st.freeRecords s =
      { st with vars := (st.table s).foldl (fun f v => Function.update f v none) st.vars } := by
    unfold freeRecords
    generalize st.table s = t
    induction t generalizing st with
    | nil => rfl
    | cons v t ih => simp only [List.foldl_cons, ih]; rfl
  rw [this]
  congr
  funext v
  exact foldl_update_none _ _ v

@[simp] theorem freeRecords_lists (st : State) (s : SetId) :
    (st.freeRecords s).lists = st.lists := by rw [freeRecords_eq]
@[simp] theorem freeRecords_sets (st : State) (s : SetId) :
    (st.freeRecords s).sets = st.sets := by rw [freeRecords_eq]
@[simp] theorem freeRecords_files (st : State) (s : SetId) :
    (st.freeRecords s).files = st.files := by rw [freeRecords_eq]
@[simp] theorem freeRecords_current (st : State) (s : SetId) :
    (st.freeRecords s).current = st.current := by rw [freeRecords_eq]
@[simp] theorem freeRecords_fresh (st : State) (s : SetId) :
    (st.freeRecords s).fresh = st.fresh := by rw [freeRecords_eq]

/-- Every record of the set is freed. -/
theorem freeRecords_vars_of_mem {st : State} {s : SetId} {v : VarId} (hv : v ∈ st.table s) :
    (st.freeRecords s).vars v = none := by
  simp [freeRecords_eq, hv]

end State

/-! ## The scope invariant -/

/-- A link whose successor and set lie below the allocation frontier. -/
structure SetList.Below (n : SetList) (fresh : Nat) : Prop where
  next_lt : ∀ m, n.next = some m → m < fresh
  set_lt : n.set < fresh

theorem SetList.Below.mono {n : SetList} {a b : Nat} (h : n.Below a) (hab : a ≤ b) : n.Below b :=
  ⟨fun m hm => Nat.lt_of_lt_of_le (h.next_lt m hm) hab, Nat.lt_of_lt_of_le h.set_lt hab⟩

/-- Every link of the heap lies below the frontier and points below it. -/
def LinksBelow (lists : ListId → Option SetList) (fresh : Nat) : Prop :=
  ∀ l n, lists l = some n → l < fresh ∧ n.Below fresh

namespace LinksBelow

variable {lists : ListId → Option SetList} {a : Nat}

theorem mono (h : LinksBelow lists a) {b : Nat} (hab : a ≤ b) : LinksBelow lists b :=
  fun l n hn => ⟨Nat.lt_of_lt_of_le (h l n hn).1 hab, (h l n hn).2.mono hab⟩

theorem update (h : LinksBelow lists a) {l : ListId} {n : SetList} (hl : l < a)
    (hn : n.Below a) : LinksBelow (Function.update lists l (some n)) a := by
  intro l' n' h'
  by_cases hl' : l' = l
  · subst hl'
    rw [Function.update_same] at h'
    cases h'
    exact ⟨hl, hn⟩
  · rw [Function.update_noteq hl'] at h'; exact h l' n' h'

theorem eq_none (h : LinksBelow lists a) : lists a = none := by
  cases hl : lists a with
  | none => rfl
  | some n => exact absurd (h a n hl).1 (Nat.lt_irrefl a)

end LinksBelow

/-- **The scope invariant**: `global_setlist` is present with
`next_is_parent` clear, and every link, the current chain and every file's
chain start lie below the allocation frontier. -/
structure ScopeWF (st : State) : Prop where
  global : ∃ g, st.lists globalSetlist = some g ∧ g.nextIsParent = false
  lists : LinksBelow st.lists st.fresh
  current : ∀ c, st.current = some c → c < st.fresh
  files : ∀ f file l, st.files f = some file → file.variablesList = some l → l < st.fresh

theorem ScopeWF.global_lt {st : State} (h : ScopeWF st) : globalSetlist < st.fresh := by
  obtain ⟨g, hg, -⟩ := h.global
  exact (h.lists _ _ hg).1

theorem ScopeWF.fileChain_lt {st : State} (h : ScopeWF st) (f : FileId) :
    ∀ m, (st.files f).bind File.variablesList = some m → m < st.fresh := by
  intro m hm
  obtain ⟨file, hf, hl⟩ := Option.bind_eq_some.1 hm
  exact h.files f file m hf hl

theorem scopeWF_initial : ScopeWF State.initial where
  global := ⟨⟨none, globalVariableSet, false⟩, rfl, rfl⟩
  lists := fun l n hn => by
    simp only [State.initial, globalSetlist] at hn
    split_ifs at hn with hl
    cases hn
    exact ⟨by simp [hl, State.initial], ⟨by simp, by decide⟩⟩
  current := fun c hc => by cases hc; decide
  files := fun _ _ _ hf => by cases hf

/-! ## What runs between a push and its pop -/

/-- What a balanced block keeps: every link as it was, the files, the
current chain, every set below the frontier that had a table, and a
frontier that only moves on. -/
structure BlockFrame (st st' : State) : Prop where
  lists : st'.lists = st.lists
  files : st'.files = st.files
  current : st'.current = st.current
  fresh_le : st.fresh ≤ st'.fresh
  sets : ∀ s < st.fresh, (st.sets s).isSome → (st'.sets s).isSome

namespace BlockFrame

theorem refl (st : State) : BlockFrame st st := ⟨rfl, rfl, rfl, Nat.le_refl _, fun _ _ h => h⟩

theorem trans {st1 st2 st3 : State} (h1 : BlockFrame st1 st2) (h2 : BlockFrame st2 st3) :
    BlockFrame st1 st3 :=
  ⟨h2.lists.trans h1.lists, h2.files.trans h1.files, h2.current.trans h1.current,
    Nat.le_trans h1.fresh_le h2.fresh_le,
    fun s hs hss => h2.sets s (Nat.lt_of_lt_of_le hs h1.fresh_le) (h1.sets s hs hss)⟩

end BlockFrame

theorem ScopeWF.of_frame {st st' : State} (h : ScopeWF st) (hf : BlockFrame st st') :
    ScopeWF st' where
  global := hf.lists ▸ h.global
  lists := hf.lists ▸ h.lists.mono hf.fresh_le
  current := fun c hc => Nat.lt_of_lt_of_le (h.current c (hf.current ▸ hc)) hf.fresh_le
  files := fun f file l hfl hl =>
    Nat.lt_of_lt_of_le (h.files f file l (hf.files ▸ hfl) hl) hf.fresh_le

section frame

variable (envOverrides : Bool) (name value : String) (origin : VariableOrigin) (recursive : Bool)
  (set : Option SetId) (flocp : Option Floc) (st : State)

theorem defineVariableInSet_frame :
    BlockFrame st (defineVariableInSet envOverrides name value origin recursive set flocp st).2 := by
  unfold defineVariableInSet
  dsimp only
  split
  · split_ifs <;> exact ⟨rfl, rfl, rfl, Nat.le_refl _, fun _ _ h => h⟩
  · refine ⟨rfl, rfl, rfl, by simp, fun s _ hs => ?_⟩
    by_cases h : s = set.getD globalVariableSet <;> simp [h, Function.update_noteq, hs]

theorem undefineVariableInSet_frame :
    BlockFrame st (undefineVariableInSet envOverrides name origin set st) := by
  unfold undefineVariableInSet
  dsimp only
  split
  · split_ifs
    · refine ⟨rfl, rfl, rfl, Nat.le_refl _, fun s _ hs => ?_⟩
      by_cases h : s = set.getD globalVariableSet <;> simp [h, Function.update_noteq, hs]
    · exact ⟨rfl, rfl, rfl, Nat.le_refl _, fun _ _ h => h⟩
  · exact BlockFrame.refl _

end frame

/-- A sequence of calls that leaves the scope structure balanced:
definitions and undefinitions in any set (`NULL` for the global one),
nested push/pop pairs, and `install_file_context`/`restore_file_context`
pairs around a body. -/
inductive Block
  | skip
  | seq (a b : Block)
  | define (name value : String) (origin : VariableOrigin) (recursive : Bool)
      (set : Option SetId) (flocp : Option Floc)
  | undefine (name : String) (origin : VariableOrigin) (set : Option SetId)
  | scope (body : Block)
  | context (f : FileId) (body : Block)

namespace Block

/-- Run a block; `none` when a pop's assertion fails. -/
def run (envOverrides : Bool) : Block → State → Option State
  | skip, st => some st
  | seq a b, st => a.run envOverrides st >>= b.run envOverrides
  | define name value origin recursive set flocp, st =>
    some (defineVariableInSet envOverrides name value origin recursive set flocp st).2
  | undefine name origin set, st => some (undefineVariableInSet envOverrides name origin set st)
  | scope body, st => body.run envOverrides (pushNewVariableScope st).2 >>= popVariableScope
  | context f body, st =>
    let (old, st) := installFileContext f st
    (body.run envOverrides st).map (restoreFileContext old)

/-- Every scope of the block is pushed while some chain is current:
`hasCurrent` says whether one is where the block starts, and inside a file
context there is one exactly when the file has a chain. -/
def Safe (files : FileId → Option File) : Bool → Block → Prop
  | _, skip => True
  | c, seq a b => Safe files c a ∧ Safe files c b
  | _, define .. => True
  | _, undefine .. => True
  | c, scope body => c = true ∧ Safe files true body
  | _, context f body => Safe files ((files f).bind File.variablesList).isSome body

end Block

/-! ## The two cases of a push -/

section push

variable {st : State} {g : SetList}

/-- **A push on the global scope** puts the new link behind
`global_setlist`, holding the old global set, and gives `global_setlist`
the new empty set. -/
theorem pushNewVariableScope_global (hg : st.lists globalSetlist = some g)
    (hcur : st.current = some globalSetlist) (hpos : globalSetlist < st.fresh) :
    (pushNewVariableScope st).2 =
      { ((st.alloc.setTable st.fresh []).setList st.fresh ⟨g.next, g.set, false⟩).setList
          globalSetlist { g with set := st.fresh, next := some st.fresh } with
        current := some globalSetlist } := by
  have hne : globalSetlist ≠ st.fresh := Nat.ne_of_lt hpos
  simp [pushNewVariableScope, createNewVariableSet, hcur, Function.update_noteq hne, hg]

/-- **A push elsewhere** puts the new link in front and makes it current. -/
theorem pushNewVariableScope_local (hcur : st.current ≠ some globalSetlist) :
    (pushNewVariableScope st).2 =
      { (st.alloc.setTable st.fresh []).setList st.fresh ⟨st.current, st.fresh, false⟩ with
        current := some st.fresh } := by
  simp only [pushNewVariableScope, createNewVariableSet]
  split
  · rename_i n _ hn _
    simp only [setList, Function.update_same, Option.some.injEq] at hn
    subst hn
    simp [hcur]
  · rfl

/-- What both cases of a push share: the records, the files and the
frontier, and one new empty set at the old frontier. -/
theorem pushNewVariableScope_common (st : State) :
    (pushNewVariableScope st).2.vars = st.vars ∧ (pushNewVariableScope st).2.files = st.files ∧
      (pushNewVariableScope st).2.fresh = st.fresh + 1 ∧
      (pushNewVariableScope st).2.sets = Function.update st.sets st.fresh (some []) ∧
      (pushNewVariableScope st).2.current.isSome := by
  unfold pushNewVariableScope createNewVariableSet; dsimp only; split
  · split <;> exact ⟨rfl, rfl, rfl, rfl, rfl⟩
  · exact ⟨rfl, rfl, rfl, rfl, rfl⟩

/-- The new set shows nothing, and every older one shows what it did. -/
theorem visibleIn_push (name : String) {s : SetId} (p : Bool) :
    visibleIn (pushNewVariableScope st).2 name s p =
      if s = st.fresh then none else visibleIn st name s p := by
  obtain ⟨hv, -, -, hs, -⟩ := pushNewVariableScope_common st
  split_ifs with h
  · exact visibleIn_of_table_nil (by simp [table, hs, h]) p
  · exact visibleIn_congr hv (by simp [table, hs, Function.update_noteq h]) p

theorem ScopeWF.push (h : ScopeWF st) : ScopeWF (pushNewVariableScope st).2 := by
  obtain ⟨g, hg, hgp⟩ := h.global
  have hpos := h.global_lt
  obtain ⟨-, hfiles, hfresh, -, -⟩ := pushNewVariableScope_common st
  have hold := h.lists.mono (Nat.le_succ st.fresh)
  have hnew : st.fresh < st.fresh + 1 := Nat.lt_succ_self _
  have hfiles' : ∀ f file l, (pushNewVariableScope st).2.files f = some file →
      file.variablesList = some l → l < (pushNewVariableScope st).2.fresh := fun f file l hf hl => by
    rw [hfiles] at hf; rw [hfresh]; exact Nat.lt_succ_of_lt (h.files f file l hf hl)
  by_cases hcur : st.current = some globalSetlist
  · have hgb := (h.lists _ _ hg).2.mono (Nat.le_succ st.fresh)
    rw [pushNewVariableScope_global hg hcur hpos] at hfiles' ⊢
    refine ⟨⟨{ g with set := st.fresh, next := some st.fresh }, by simp, hgp⟩, ?_, ?_, hfiles'⟩
    · have hb : SetList.Below ⟨some st.fresh, st.fresh, g.nextIsParent⟩ (st.fresh + 1) :=
        ⟨fun m hm => Option.some.inj hm ▸ hnew, hnew⟩
      have ha : SetList.Below ⟨g.next, g.set, false⟩ (st.fresh + 1) := ⟨hgb.next_lt, hgb.set_lt⟩
      exact (hold.update hnew ha).update (Nat.lt_succ_of_lt hpos) hb
    · intro c hc; obtain rfl : globalSetlist = c := Option.some.inj hc; exact Nat.lt_succ_of_lt hpos
  · rw [pushNewVariableScope_local hcur] at hfiles' ⊢
    have hne : globalSetlist ≠ st.fresh := Nat.ne_of_lt hpos
    refine ⟨⟨g, by simp [Function.update_noteq hne, hg], hgp⟩, ?_, ?_, hfiles'⟩
    · exact hold.update hnew ⟨fun m hm => Nat.lt_succ_of_lt (h.current m hm), hnew⟩
    · intro c hc; obtain rfl : st.fresh = c := Option.some.inj hc; exact hnew

theorem ScopeWF.install (h : ScopeWF st) (f : FileId) : ScopeWF (installFileContext f st).2 :=
  ⟨h.global, h.lists, h.fileChain_lt f, h.files⟩

end push

/-! ## A push and its pop -/

/-- A global pop copies the link behind `global_setlist` into it. -/
theorem popVariableScope_global {st : State} {c n : SetList} {nxt : ListId}
    (hcur : st.current = some globalSetlist) (hc : st.lists globalSetlist = some c)
    (hnext : c.next = some nxt) (hn : st.lists nxt = some n) :
    popVariableScope st = some ((((st.setList globalSetlist ⟨n.next, n.set, n.nextIsParent⟩).freeList
      nxt).freeRecords c.set).freeSet c.set) := by
  simp only [popVariableScope, hcur, hc, hnext, ne_eq, not_true_eq_false, if_false]
  simp only [hn]

/-- Any other pop drops the current link. -/
theorem popVariableScope_local {st : State} {cur nxt : ListId} {c : SetList}
    (hcur : st.current = some cur) (hne : cur ≠ globalSetlist) (hc : st.lists cur = some c)
    (hnext : c.next = some nxt) :
    popVariableScope st =
      some { (((st.freeList cur).freeRecords c.set).freeSet c.set) with current := some nxt } := by
  simp only [popVariableScope, hcur, hc, hnext, ne_eq, hne, not_false_eq_true, if_true]

/-- **A push and its pop**, around a body that keeps the frame of the
state the push left: the pop succeeds, every link comes back as it was
before the push, and the set the push made is freed. -/
theorem scope_run {envOverrides : Bool} {st st2 : State} {body : Block} (h : ScopeWF st)
    (hcur : st.current.isSome)
    (hrun : body.run envOverrides (pushNewVariableScope st).2 = some st2)
    (hf : BlockFrame (pushNewVariableScope st).2 st2) :
    ∃ st3, (Block.scope body).run envOverrides st = some st3 ∧ BlockFrame st st3 ∧
      st3.sets st.fresh = none := by
  obtain ⟨g, hg, hgp⟩ := h.global
  have hpos := h.global_lt
  have hne : st.fresh ≠ globalSetlist := (Nat.ne_of_lt hpos).symm
  have hlf : st.lists st.fresh = none := h.lists.eq_none
  obtain ⟨-, hfiles1, hfresh1, hsets1, -⟩ := pushNewVariableScope_common st
  have hfresh2 : st.fresh ≤ st2.fresh := by have := hf.fresh_le; omega
  have hsets2 : ∀ s < st.fresh, (st.sets s).isSome → (st2.sets s).isSome := fun s hs hss =>
    hf.sets s (by omega) (by rw [hsets1, Function.update_noteq (Nat.ne_of_lt hs)]; exact hss)
  have hfiles2 : st2.files = st.files := hf.files.trans hfiles1
  simp only [Block.run, hrun, Option.bind_eq_bind, Option.some_bind]
  by_cases hc : st.current = some globalSetlist
  · have hl := hf.lists
    have hcur2 := hf.current
    rw [pushNewVariableScope_global hg hc hpos] at hl hcur2
    simp only [setList, setTable, alloc] at hl hcur2
    rw [popVariableScope_global (c := ⟨some st.fresh, st.fresh, g.nextIsParent⟩)
      (n := ⟨g.next, g.set, false⟩) hcur2 (by simp [hl]) rfl (by simp [hl, Function.update_noteq hne])]
    refine ⟨_, rfl, ⟨?_, by simpa using hfiles2, by simpa [hcur2] using hc.symm,
      by simpa using hfresh2, fun s hs hss => ?_⟩, by simp⟩
    · funext l
      by_cases hla : l = st.fresh
      · subst hla; simp [hlf]
      by_cases hlg : l = globalSetlist
      · subst hlg; cases g; simp_all
      · simp [hl, Function.update_noteq hla, Function.update_noteq hlg]
    · simp [Function.update_noteq (Nat.ne_of_lt hs), hsets2 s hs hss]
  · obtain ⟨cur, hcur0⟩ := Option.isSome_iff_exists.1 hcur
    have hl := hf.lists
    have hcur2 := hf.current
    rw [pushNewVariableScope_local hc] at hl hcur2
    simp only [setList, setTable, alloc] at hl hcur2
    rw [popVariableScope_local (c := ⟨st.current, st.fresh, false⟩) hcur2 hne (by simp [hl]) hcur0]
    refine ⟨_, rfl, ⟨?_, by simpa using hfiles2, hcur0.symm, by simpa using hfresh2,
      fun s hs hss => ?_⟩, by simp⟩
    · funext l
      by_cases hla : l = st.fresh
      · subst hla; simp [hlf]
      · simp [hl, Function.update_noteq hla]
    · simp [Function.update_noteq (Nat.ne_of_lt hs), hsets2 s hs hss]

/-- **A balanced block runs to its end** from a state with the scope
invariant, when it pushes no scope where no chain is current, and keeps
the frame. -/
theorem Block.run_frame (envOverrides : Bool) (b : Block) :
    ∀ {st : State}, ScopeWF st → b.Safe st.files st.current.isSome →
      ∃ st', b.run envOverrides st = some st' ∧ BlockFrame st st' := by
  induction b with
  | skip => exact fun _ _ => ⟨_, rfl, .refl _⟩
  | seq a b iha ihb =>
    intro st h hs
    obtain ⟨st1, h1, hf1⟩ := iha h hs.1
    obtain ⟨st2, h2, hf2⟩ := ihb (h.of_frame hf1) (by rw [hf1.files, hf1.current]; exact hs.2)
    exact ⟨st2, by simp [run, h1, h2], hf1.trans hf2⟩
  | define name value origin recursive set flocp =>
    exact fun _ _ => ⟨_, rfl, defineVariableInSet_frame ..⟩
  | undefine name origin set => exact fun _ _ => ⟨_, rfl, undefineVariableInSet_frame ..⟩
  | scope body ih =>
    intro st h hs
    obtain ⟨-, hfiles, -, -, hcur⟩ := pushNewVariableScope_common st
    obtain ⟨st2, h2, hf2⟩ := ih h.push (by rw [hfiles, hcur]; exact hs.2)
    obtain ⟨st3, h3, hf3, -⟩ := scope_run h hs.1 h2 hf2
    exact ⟨st3, h3, hf3⟩
  | context f body ih =>
    intro st h hs
    obtain ⟨st2, h2, hf2⟩ := ih (h.install f) hs
    exact ⟨restoreFileContext st.current st2, by simp only [run, h2, Option.map_some']; rfl,
      hf2.lists, hf2.files, rfl, hf2.fresh_le, hf2.sets⟩

/-! ## The walk right after a push -/

section walk

variable {st : State} (name : String)

/-- After a push elsewhere, walks from older links are unchanged, and the
walk from the new current link is the old one after one empty step. -/
theorem push_local_walk (h : ScopeWF st) (hc : st.current ≠ some globalSetlist) :
    (∀ fuel (l : Option ListId) p, (∀ m, l = some m → m < st.fresh) →
      lookupVariableFrom (pushNewVariableScope st).2 name fuel l p =
        lookupVariableFrom st name fuel l p) ∧
    ∀ fuel p, lookupVariableFrom (pushNewVariableScope st).2 name (fuel + 1)
      (pushNewVariableScope st).2.current p = lookupVariableFrom st name fuel st.current p := by
  have hlists : ∀ l < st.fresh, (pushNewVariableScope st).2.lists l = st.lists l := fun l hl => by
    rw [pushNewVariableScope_local hc]; simp [Function.update_noteq (Nat.ne_of_lt hl)]
  have hold := @lookupVariableFrom_congr st name _ _ hlists fun l _ n hn =>
    ⟨(h.lists l n hn).2.next_lt, fun p => by
      rw [visibleIn_push, if_neg (Nat.ne_of_lt (h.lists l n hn).2.set_lt)]⟩
  have hcur1 : (pushNewVariableScope st).2.current = some st.fresh := by
    rw [pushNewVariableScope_local hc]
  have hlf1 : (pushNewVariableScope st).2.lists st.fresh = some ⟨st.current, st.fresh, false⟩ := by
    rw [pushNewVariableScope_local hc]; simp
  refine ⟨hold, fun fuel p => ?_⟩
  rw [hcur1, lookupVariableFrom_succ, hlf1, Option.some_bind, visibleIn_push, if_pos rfl,
    Bool.or_false]
  exact hold fuel st.current p h.current

/-- The global push seen from the walk: at `global_setlist` the walk now
meets the new empty set and then, one step on, the old global set, with
the same `next_is_parent` state. -/
theorem push_global_walk (h : ScopeWF st) (hc : st.current = some globalSetlist) :
    ∀ fuel (l : Option ListId) p r, (∀ m, l = some m → m < st.fresh) →
      (lookupVariableFrom st name fuel l p = some r →
        lookupVariableFrom (pushNewVariableScope st).2 name (2 * fuel) l p = some r) ∧
      (lookupVariableFrom (pushNewVariableScope st).2 name fuel l p = some r →
        lookupVariableFrom st name fuel l p = some r) := by
  obtain ⟨g, hg, hgp⟩ := h.global
  have hpos := h.global_lt
  have hgb := (h.lists _ _ hg).2
  have hne : st.fresh ≠ globalSetlist := (Nat.ne_of_lt hpos).symm
  have hpush := pushNewVariableScope_global hg hc hpos
  have hlg : (pushNewVariableScope st).2.lists globalSetlist =
      some { g with set := st.fresh, next := some st.fresh } := by rw [hpush]; simp
  have hlf : (pushNewVariableScope st).2.lists st.fresh = some ⟨g.next, g.set, false⟩ := by
    rw [hpush]; simp [Function.update_noteq hne]
  have hlo : ∀ l < st.fresh, l ≠ globalSetlist →
      (pushNewVariableScope st).2.lists l = st.lists l := fun l hl hlg => by
    rw [hpush]; simp [Function.update_noteq hlg, Function.update_noteq (Nat.ne_of_lt hl)]
  have hvis : ∀ s < st.fresh, ∀ p, visibleIn (pushNewVariableScope st).2 name s p =
      visibleIn st name s p := fun s hs p => by rw [visibleIn_push, if_neg (Nat.ne_of_lt hs)]
  have hvf : ∀ p, visibleIn (pushNewVariableScope st).2 name st.fresh p = none := fun p => by
    rw [visibleIn_push, if_pos rfl]
  intro fuel
  induction fuel with
  | zero => intro l p r _; cases l <;> simp
  | succ fuel ih =>
    intro l p r hl
    obtain _ | m := l
    · simp
    have hm := hl m rfl
    by_cases hmg : m = globalSetlist
    · subst hmg
      constructor
      · intro hr
        rw [lookupVariableFrom_succ, hg, Option.some_bind, hgp, Bool.or_false] at hr
        rw [show 2 * (fuel + 1) = 2 * fuel + 1 + 1 by omega, lookupVariableFrom_succ, hlg,
          Option.some_bind, hvf, lookupVariableFrom_succ, hlf, Option.some_bind,
          hvis _ hgb.set_lt, hgp, Bool.or_false, Bool.or_false]
        cases hv : visibleIn st name g.set p with
        | some v => simpa [hv] using hr
        | none => simp only [hv] at hr ⊢; exact (ih _ _ _ hgb.next_lt).1 hr
      · intro hr
        rw [lookupVariableFrom_succ, hlg, Option.some_bind, hvf] at hr
        obtain _ | fuel' := fuel
        · simp at hr
        rw [lookupVariableFrom_succ, hlf, Option.some_bind, hvis _ hgb.set_lt, hgp,
          Bool.or_false, Bool.or_false] at hr
        rw [lookupVariableFrom_succ, hg, Option.some_bind, hgp, Bool.or_false]
        cases hv : visibleIn st name g.set p with
        | some v => simpa [hv] using hr
        | none =>
          simp only [hv] at hr ⊢
          exact (ih _ _ _ hgb.next_lt).2 (lookupVariableFrom_mono hr (Nat.le_succ _))
    · rw [lookupVariableFrom_succ, lookupVariableFrom_succ, hlo m hm hmg,
        show 2 * (fuel + 1) = 2 * fuel + 1 + 1 by omega, lookupVariableFrom_succ, hlo m hm hmg]
      cases hn : st.lists m with
      | none => simp
      | some n =>
        have hnb := (h.lists m n hn).2
        simp only [Option.some_bind, hvis _ hnb.set_lt]
        cases hv : visibleIn st name n.set p with
        | some v => exact ⟨id, id⟩
        | none =>
          exact ⟨fun hr => lookupVariableFrom_mono ((ih _ _ _ hnb.next_lt).1 hr) (Nat.le_succ _),
            (ih _ _ _ hnb.next_lt).2⟩

/-- **Right after a push**, the walk of `lookup_variable` from the current
chain, and from any link older than the push, ends with the record it
ended with before. -/
theorem push_walkEnds (h : ScopeWF st) (r : Option VarId) :
    (WalkEnds (pushNewVariableScope st).2 name (pushNewVariableScope st).2.current r ↔
      WalkEnds st name st.current r) ∧
    ∀ l : Option ListId, (∀ m, l = some m → m < st.fresh) →
      (WalkEnds (pushNewVariableScope st).2 name l r ↔ WalkEnds st name l r) := by
  by_cases hc : st.current = some globalSetlist
  · have hsim := push_global_walk name h hc
    have hold : ∀ l : Option ListId, (∀ m, l = some m → m < st.fresh) →
        (WalkEnds (pushNewVariableScope st).2 name l r ↔ WalkEnds st name l r) :=
      fun l hl => ⟨fun ⟨fuel, hr⟩ => ⟨fuel, (hsim fuel l false r hl).2 hr⟩,
        fun ⟨fuel, hr⟩ => ⟨2 * fuel, (hsim fuel l false r hl).1 hr⟩⟩
    have hcur : (pushNewVariableScope st).2.current = st.current := by
      rw [pushNewVariableScope_global (h.global.choose_spec.1) hc h.global_lt, hc]
    exact ⟨by rw [hcur]; exact hold _ h.current, hold⟩
  · obtain ⟨hold, hstep⟩ := push_local_walk name h hc
    refine ⟨⟨fun ⟨fuel, hr⟩ => ?_, fun ⟨fuel, hr⟩ => ⟨fuel + 1, (hstep fuel false).trans hr⟩⟩,
      fun l hl => ⟨fun ⟨fuel, hr⟩ => ⟨fuel, (hold fuel l false hl).symm.trans hr⟩,
        fun ⟨fuel, hr⟩ => ⟨fuel, (hold fuel l false hl).trans hr⟩⟩⟩
    obtain _ | fuel := fuel
    · obtain ⟨-, -, -, -, hsome⟩ := pushNewVariableScope_common st
      obtain ⟨c, hc'⟩ := Option.isSome_iff_exists.1 hsome
      rw [hc'] at hr; simp at hr
    · exact ⟨fuel, (hstep fuel false).symm.trans hr⟩

end walk

/-! ## Push, block, pop -/

/-- **A push, a balanced block and its pop**: from a state with the scope
invariant and a current chain, a block that pushes no scope where no chain
is current runs to the pop; every link comes back as it was before the
push (`global_setlist` included), so does the current chain, and the set
the push made is freed. Right after the push, the walk of `lookup_variable`
from the current chain or from any file's chain ends with the same record
as before. -/
theorem push_block_pop (envOverrides : Bool) {st : State} {body : Block} (h : ScopeWF st)
    (hcur : st.current.isSome) (hsafe : body.Safe st.files true) :
    (∃ st', (Block.scope body).run envOverrides st = some st' ∧ BlockFrame st st' ∧
      st'.sets st.fresh = none) ∧
    ∀ name r,
      (WalkEnds (pushNewVariableScope st).2 name (pushNewVariableScope st).2.current r ↔
        WalkEnds st name st.current r) ∧
      ∀ f, (WalkEnds (pushNewVariableScope st).2 name
          (((pushNewVariableScope st).2.files f).bind File.variablesList) r ↔
        WalkEnds st name ((st.files f).bind File.variablesList) r) := by
  obtain ⟨-, hfiles, -, -, hc⟩ := pushNewVariableScope_common st
  obtain ⟨st2, h2, hf2⟩ := Block.run_frame envOverrides body h.push (by rw [hfiles, hc]; exact hsafe)
  refine ⟨scope_run h hcur h2 hf2, fun name r => ?_⟩
  obtain ⟨hcur', hold⟩ := push_walkEnds name h r
  exact ⟨hcur', fun f => by rw [hfiles]; exact hold _ (h.fileChain_lt f)⟩

theorem push_block_pop_initial :
    ScopeWF State.initial ∧ State.initial.current.isSome ∧
    (Block.scope (.define "X" "1" .file false none none)).Safe State.initial.files true ∧
    ((∃ st', (Block.scope (.scope (.define "X" "1" .file false none none))).run false
        State.initial = some st' ∧ BlockFrame State.initial st' ∧ st'.sets State.initial.fresh = none) ∧
      ∀ name r,
        (WalkEnds (pushNewVariableScope State.initial).2 name
            (pushNewVariableScope State.initial).2.current r ↔
          WalkEnds State.initial name State.initial.current r) ∧
        ∀ f, (WalkEnds (pushNewVariableScope State.initial).2 name
            (((pushNewVariableScope State.initial).2.files f).bind File.variablesList) r ↔
          WalkEnds State.initial name ((State.initial.files f).bind File.variablesList) r)) :=
  ⟨scopeWF_initial, rfl, ⟨rfl, trivial⟩, push_block_pop false scopeWF_initial rfl ⟨rfl, trivial⟩⟩

/-- `global_setlist` alone, with one file whose chain is not built yet. -/
def unsetFileState : State := State.initial.setFile 0 ⟨"t", none, none, none, none, false⟩

/-- Inside the context of a file with no chain, a push makes a link with no
successor, and its pop fails the assertion: the balanced block
`push; install; push; pop; restore; pop` does not run to its end. -/
theorem push_pop_aborts_under_unset_file :
    ScopeWF unsetFileState ∧
      (Block.scope (.context 0 (.scope .skip))).run false unsetFileState = none :=
  ⟨⟨scopeWF_initial.global, scopeWF_initial.lists, scopeWF_initial.current, fun f file l hf hl => by
    by_cases hf0 : f = 0
    · subst hf0; cases hf; cases hl
    · simp [unsetFileState, Function.update_noteq hf0, State.initial] at hf⟩, rfl⟩

end MakeVariables
