import MakeVariables.Model.Scope
/-!
# The walk of `lookup_variable`

How the walk of `lookup_variable` depends on its fuel and on the state. A
walk that ends keeps its answer with more fuel, so "the walk ends with `r`"
(`WalkEnds`) does not depend on the bound chosen. Two states that agree on
the links a walk can reach, and on what those links' sets show, walk alike.
-/

namespace MakeVariables

/-- What the set `s` shows the walk at a link: the record of the name,
unless it is private and a `next_is_parent` link has been crossed. -/
def visibleIn (st : State) (name : String) (s : SetId) (isParent : Bool) : Option VarId :=
  (st.findSlot s name).bind fun (v, x) => if !isParent || !x.privateVar then some v else none

/-- The walk of `lookup_variable` from `l` ends, and answers `r`. -/
def WalkEnds (st : State) (name : String) (l : Option ListId) (r : Option VarId) : Prop :=
  ∃ fuel, lookupVariableFrom st name fuel l false = some r

section walk

variable {st : State} {name : String}

@[simp] theorem lookupVariableFrom_none (fuel : Nat) (p : Bool) :
    lookupVariableFrom st name fuel none p = some none := by
  cases fuel <;> rfl

@[simp] theorem lookupVariableFrom_zero (l : ListId) (p : Bool) :
    lookupVariableFrom st name 0 (some l) p = none := rfl

/-- One step of the walk: the link's set, then the rest of the chain. -/
theorem lookupVariableFrom_succ (fuel : Nat) (l : ListId) (p : Bool) :
    lookupVariableFrom st name (fuel + 1) (some l) p =
      (st.lists l).bind fun n =>
        match visibleIn st name n.set p with
        | some v => some (some v)
        | none => lookupVariableFrom st name fuel n.next (p || n.nextIsParent) := by
  simp only [lookupVariableFrom, visibleIn]
  cases st.lists l with
  | none => rfl
  | some n =>
    cases h : st.findSlot n.set name with
    | none => simp [h]
    | some vx =>
      obtain ⟨v, x⟩ := vx
      cases hp : (!p || !x.privateVar) <;> simp_all

/-- **More fuel** does not change a walk that ends. -/
theorem lookupVariableFrom_mono {fuel fuel' : Nat} {l : Option ListId} {p : Bool}
    {r : Option VarId} (h : lookupVariableFrom st name fuel l p = some r) (hle : fuel ≤ fuel') :
    lookupVariableFrom st name fuel' l p = some r := by
  induction fuel generalizing fuel' l p with
  | zero =>
    obtain _ | m := l
    · rw [lookupVariableFrom_none] at h ⊢; exact h
    · simp at h
  | succ fuel ih =>
    obtain _ | m := l
    · rw [lookupVariableFrom_none] at h ⊢; exact h
    obtain ⟨fuel', rfl⟩ : ∃ k, fuel' = k + 1 := ⟨fuel' - 1, by omega⟩
    rw [lookupVariableFrom_succ] at h ⊢
    cases hn : st.lists m with
    | none => simp [hn] at h
    | some n =>
      simp only [hn, Option.some_bind] at h ⊢
      cases hv : visibleIn st name n.set p with
      | some v => simpa [hv] using h
      | none => simp only [hv] at h ⊢; exact ih h (by omega)

/-- **Walks read only the links they reach.** Two states that agree on the
links below `N`, whose links below `N` point below `N` and whose sets show
the same records, walk alike from below `N`. -/
theorem lookupVariableFrom_congr {st' : State} {N : Nat}
    (hlists : ∀ l < N, st'.lists l = st.lists l)
    (hclosed : ∀ l < N, ∀ n, st.lists l = some n →
      (∀ m, n.next = some m → m < N) ∧ ∀ p, visibleIn st' name n.set p = visibleIn st name n.set p) :
    ∀ fuel (l : Option ListId) p, (∀ m, l = some m → m < N) →
      lookupVariableFrom st' name fuel l p = lookupVariableFrom st name fuel l p := by
  intro fuel
  induction fuel with
  | zero => intro l _ _; cases l <;> rfl
  | succ fuel ih =>
    intro l p hl
    obtain _ | m := l
    · simp
    have hm := hl m rfl
    rw [lookupVariableFrom_succ, lookupVariableFrom_succ, hlists m hm]
    cases hn : st.lists m with
    | none => rfl
    | some n =>
      obtain ⟨hnext, hvis⟩ := hclosed m hm n hn
      simp only [Option.some_bind, hvis]
      cases visibleIn st name n.set p with
      | some v => rfl
      | none => exact ih _ _ hnext

/-- What a set shows depends on its table and on the records alone. -/
theorem visibleIn_congr {st' : State} {s : SetId} (hvars : st'.vars = st.vars)
    (htable : st'.table s = st.table s) (p : Bool) :
    visibleIn st' name s p = visibleIn st name s p := by
  unfold visibleIn State.findSlot State.slotOf
  rw [hvars, htable]

/-- An empty set shows nothing. -/
theorem visibleIn_of_table_nil {s : SetId} (h : st.table s = []) (p : Bool) :
    visibleIn st name s p = none := by
  simp [visibleIn, State.findSlot, h]

/-- The walk reads the links, the tables and the records, nothing else. -/
theorem lookupVariableFrom_heaps {st' : State} (hl : st'.lists = st.lists) (hs : st'.sets = st.sets)
    (hv : st'.vars = st.vars) (fuel : Nat) (l : Option ListId) (p : Bool) :
    lookupVariableFrom st' name fuel l p = lookupVariableFrom st name fuel l p := by
  have htable : ∀ s, st'.table s = st.table s := fun s => by simp only [State.table, hs]
  induction fuel generalizing l p with
  | zero => cases l <;> rfl
  | succ fuel ih =>
    obtain _ | m := l
    · simp
    rw [lookupVariableFrom_succ, lookupVariableFrom_succ, hl]
    cases st.lists m with
    | none => rfl
    | some n =>
      simp only [Option.some_bind, visibleIn_congr hv (htable n.set)]
      cases visibleIn st name n.set p with
      | some v => rfl
      | none => exact ih _ _

/-- The walk does not read `current_variable_set_list`. -/
@[simp] theorem lookupVariableFrom_current (c : Option ListId) :
    lookupVariableFrom { st with current := c } name = lookupVariableFrom st name :=
  funext fun fuel => funext fun l => funext fun p => @lookupVariableFrom_heaps st name { st with current := c } rfl rfl rfl fuel l p

/-- A link that is its own successor, and whose set has no record of the
name, holds the walk for ever. -/
theorem lookupVariableFrom_self_loop {l : ListId} {n : SetList} (hl : st.lists l = some n)
    (hn : n.next = some l) (hname : st.findSlot n.set name = none) :
    ∀ fuel p, lookupVariableFrom st name fuel (some l) p = none := by
  intro fuel
  induction fuel with
  | zero => intro p; rfl
  | succ fuel ih =>
    intro p
    simp only [lookupVariableFrom_succ, hl, Option.some_bind, visibleIn, hname, Option.none_bind, hn]
    exact ih _

end walk

end MakeVariables
