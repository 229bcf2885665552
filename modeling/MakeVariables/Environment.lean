import MakeVariables.Model.Environment
import MakeVariables.Lookup
import MakeVariables.Table
/-!
# The environment — what `target_environment` keeps

The accumulation loop of `target_environment` is a walk in disguise: for
each name it keeps the first record met that lies in the first link or is
not private, and, in `global_variable_set`, passes `should_export`
(`keptFrom`, `accumulateChain_keeps`). Along the way it changes nothing but
the export status of records it keeps (`AccInv`).

Set beside the walk of `lookup_variable`, which hides a private record only
once a `next_is_parent` link has been crossed, the two agree but where the
lookup stops at a private record past the file's own link
(`target_environment_agrees_unless_private`). That happens when the own
link is not followed by a parent boundary: the pattern-specific set and a
double-colon root's chain come before the boundary, and a private record
there is found by the lookup and skipped by the accumulation
(`private_pattern_binding_not_kept`).

The second loop writes one `N=value` per exported kept record, then `SHELL`
and `MAKELEVEL` unless it wrote them (`target_environment_entries`). The
record names are distinct; the names a child reads, up to the first `=`,
are too as long as no exported record's name holds a `=`.
-/

namespace MakeVariables

open State

/-- No table holds two live records of one name. -/
def NamesUnique (st : State) : Prop :=
  ∀ s, ∀ u ∈ st.table s, ∀ w ∈ st.table s, ∀ x y : Variable,
    st.vars u = some x → st.vars w = some y → x.name = y.name → u = w

/-- The test the accumulation puts a record to: in the first link or not
private, and, in `global_variable_set`, accepted by `should_export`. -/
def keepsRecord (exportAll islocal isglobal : Bool) (x : Variable) : Bool :=
  (islocal || !x.privateVar) && (!isglobal || shouldExport exportAll x)

/-- The record the set `s` offers for `name`: its record of the name, if
that passes the test. -/
def setKept (exportAll islocal isglobal : Bool) (st : State) (name : String) (s : SetId) :
    Option VarId :=
  (st.findSlot s name).bind fun p => if keepsRecord exportAll islocal isglobal p.2 then some p.1 else none

/-- The record `u` when it is live, named `name` and passes the test. -/
def recordKept (exportAll islocal isglobal : Bool) (st : State) (name : String) (u : VarId) :
    Option VarId :=
  (st.vars u).bind fun x => if x.name = name ∧ keepsRecord exportAll islocal isglobal x = true
    then some u else none

/-- The record of `name` the accumulation keeps, as a walk from `l`: the
first met that passes `keepsRecord`, `islocal` being `s == set_list` as in
the loop. -/
def keptFrom (exportAll : Bool) (st : State) (name : String) (setList : Option ListId) :
    Nat → Option ListId → Option (Option VarId)
  | _, none => some none
  | 0, some _ => none
  | fuel + 1, some l =>
    match st.lists l with
    | none => none
    | some n =>
      match st.findSlot n.set name with
      | some (v, x) =>
        if keepsRecord exportAll (some l == setList) (n.set == globalVariableSet) x then some (some v)
        else keptFrom exportAll st name setList fuel n.next
      | none => keptFrom exportAll st name setList fuel n.next

/-- What the accumulation keeps of the state it started from: the links,
the tables, every record outside the table it builds, and of the records it
holds everything but the export status; those are live and of distinct
names. -/
structure AccInv (st : State) (acc : List VarId) (st' : State) : Prop where
  lists : st'.lists = st.lists
  sets : st'.sets = st.sets
  outside : ∀ v, v ∉ acc → st'.vars v = st.vars v
  inside : ∀ v ∈ acc, ∃ x e, st.vars v = some x ∧ st'.vars v = some { x with exportStatus := e }
  distinct : acc.Pairwise fun u w => ∀ x y, st.vars u = some x → st.vars w = some y → x.name ≠ y.name

namespace AccInv

variable {st st' : State} {acc : List VarId}

theorem init (st : State) : AccInv st [] st :=
  ⟨rfl, rfl, fun _ _ => rfl, fun _ h => absurd h (List.not_mem_nil _), List.Pairwise.nil⟩

/-- Records keep their names. -/
theorem name (h : AccInv st acc st') (v : VarId) :
    (st'.vars v).map Variable.name = (st.vars v).map Variable.name := by
  by_cases hv : v ∈ acc
  · obtain ⟨x, e, hx, hx'⟩ := h.inside v hv
    rw [hx, hx']; rfl
  · rw [h.outside v hv]

theorem accFind_eq (h : AccInv st acc st') (acc' : List VarId) (name : String) :
    accFind st' acc' name = accFind st acc' name := by
  unfold accFind
  congr 1
  funext w
  rw [h.name w]

theorem table_eq (h : AccInv st acc st') (s : SetId) : st'.table s = st.table s := by
  simp only [table, h.sets]

/-- The record the loop reads is the one it started from, but for the
export status of a record already kept. -/
theorem record (h : AccInv st acc st') {u : VarId} {v : Variable} (hv : st'.vars u = some v) :
    ∃ x, st.vars u = some x ∧ x.name = v.name ∧ x.privateVar = v.privateVar ∧ (u ∉ acc → x = v) := by
  by_cases hu : u ∈ acc
  · obtain ⟨x, e, hx, hx'⟩ := h.inside u hu
    rw [hx'] at hv
    cases hv
    exact ⟨x, hx, rfl, rfl, fun h' => absurd hu h'⟩
  · exact ⟨v, (h.outside u hu).symm.trans hv, rfl, rfl, fun _ => rfl⟩

/-- Keeping a new record, of a name not kept yet. -/
theorem push (h : AccInv st acc st') {u : VarId} {v : Variable} (hu : st.vars u = some v)
    (hu' : st'.vars u = some v)
    (hnew : ∀ a ∈ acc, ∀ xa, st.vars a = some xa → xa.name ≠ v.name) :
    AccInv st (acc ++ [u]) st' where
  lists := h.lists
  sets := h.sets
  outside := fun w hw => h.outside w fun hw' => hw (List.mem_append_left _ hw')
  inside := fun w hw => by
    rcases List.mem_append.1 hw with hw | hw
    · exact h.inside w hw
    · rw [List.mem_singleton.1 hw]; exact ⟨v, v.exportStatus, hu, hu'⟩
  distinct := List.pairwise_append.2 ⟨h.distinct, List.pairwise_singleton _ _,
    fun a ha b hb xa xb hxa hxb => by
      rw [List.mem_singleton.1 hb, hu] at hxb
      cases hxb
      exact hnew a ha xa hxa⟩

/-- Passing an export status to a kept record. -/
theorem setExport (h : AccInv st acc st') {w : VarId} (hw : w ∈ acc) {x : Variable}
    (hx : st'.vars w = some x) (e : VariableExport) :
    AccInv st acc (st'.setVar w { x with exportStatus := e }) where
  lists := h.lists
  sets := h.sets
  outside := fun v hv => by
    rw [← h.outside v hv]
    exact Function.update_noteq (show v ≠ w from fun hvw => hv (hvw ▸ hw)) _ _
  inside := fun v hv => by
    by_cases hvw : v = w
    · subst hvw
      obtain ⟨x0, e0, hx0, hx0'⟩ := h.inside v hv
      rw [hx0'] at hx
      cases hx
      exact ⟨x0, e, hx0, by simp⟩
    · obtain ⟨x0, e0, hx0, hx0'⟩ := h.inside v hv
      exact ⟨x0, e0, hx0, by simp [Function.update_noteq hvw, hx0']⟩
  distinct := h.distinct

end AccInv

theorem accFind_append_singleton (st : State) (acc : List VarId) (u : VarId) (name : String) :
    accFind st (acc ++ [u]) name =
      (accFind st acc name).or (if (st.vars u).map Variable.name = some name then some u else none) := by
  unfold accFind
  rw [List.find?_append]
  congr 1
  cases hu : st.vars u with
  | none => simp [hu]
  | some x => by_cases hn : x.name = name <;> simp [hu, hn]

theorem accFind_eq_none {st : State} {acc : List VarId} {name : String}
    (h : accFind st acc name = none) : ∀ a ∈ acc, ∀ xa, st.vars a = some xa → xa.name ≠ name := by
  intro a ha xa hxa hn
  have := List.find?_eq_none.1 h a ha
  simp [hxa, hn] at this

/-- **One slot of the accumulation**: the invariant holds on, and the kept
record of each name is the one kept before or, failing that, this record
if it is of the name and passes the test. -/
theorem accumulateVar_spec {ea islocal isglobal : Bool} {st st' : State} {acc : List VarId}
    (h : AccInv st acc st') (u : VarId) :
    AccInv st (accumulateVar ea islocal isglobal (acc, st') u).1
      (accumulateVar ea islocal isglobal (acc, st') u).2 ∧
    ∀ name, accFind st (accumulateVar ea islocal isglobal (acc, st') u).1 name =
      (accFind st acc name).or (recordKept ea islocal isglobal st name u) := by
  unfold accumulateVar
  cases hv : st'.vars u with
  | none =>
    have hu0 : st.vars u = none := by
      by_cases hu : u ∈ acc
      · obtain ⟨x, e, -, hx'⟩ := h.inside u hu; rw [hx'] at hv; cases hv
      · rw [← h.outside u hu, hv]
    exact ⟨h, fun name => by simp [recordKept, hu0]⟩
  | some v =>
    obtain ⟨x, hx, hxn, hxp, hxv⟩ := h.record hv
    dsimp only
    by_cases hskip : (!islocal && v.privateVar) = true
    · rw [if_pos hskip]
      refine ⟨h, fun name => ?_⟩
      have : keepsRecord ea islocal isglobal x = false := by
        simp only [Bool.and_eq_true, Bool.not_eq_true'] at hskip
        simp [keepsRecord, hskip.1, hxp, hskip.2]
      simp [recordKept, hx, this]
    · rw [if_neg hskip, h.accFind_eq]
      cases hf : accFind st acc v.name with
      | none =>
        have hu : u ∉ acc := fun hu => accFind_eq_none hf u hu x hx hxn
        obtain rfl := hxv hu
        have hkeep : ∀ b, keepsRecord ea islocal isglobal x = b →
            (!isglobal || shouldExport ea x) = b := by
          intro b hb
          simp only [Bool.and_eq_true, Bool.not_eq_true', not_and, Bool.not_eq_false] at hskip
          rw [← hb]; unfold keepsRecord
          cases islocal <;> cases hpv : x.privateVar <;> simp_all
        dsimp only
        split_ifs with hfil
        · refine ⟨h.push hx hv (accFind_eq_none hf), fun name => ?_⟩
          rw [accFind_append_singleton]
          by_cases hn : x.name = name
          · have hk : keepsRecord ea islocal isglobal x = true := by
              cases hk : keepsRecord ea islocal isglobal x
              · rw [hkeep _ hk] at hfil; cases hfil
              · rfl
            simp [recordKept, hx, hn, hk]
          · simp [recordKept, hx, hn]
        · refine ⟨h, fun name => ?_⟩
          have hk : keepsRecord ea islocal isglobal x = false := by
            cases hk : keepsRecord ea islocal isglobal x
            · rfl
            · rw [hkeep _ hk] at hfil; exact absurd rfl hfil
          simp [recordKept, hx, hk]
      | some w =>
        have hw : w ∈ acc := List.mem_of_find?_eq_some hf
        have hres : ∀ name, (accFind st acc name).or (recordKept ea islocal isglobal st name u) =
            accFind st acc name := by
          intro name
          by_cases hn : x.name = name
          · rw [← hn, hxn, hf]; rfl
          · simp [recordKept, hx, hn]
        dsimp only
        split
        · rename_i y hy
          split_ifs
          · exact ⟨h.setExport hw hy _, fun name => (hres name).symm⟩
          · exact ⟨h, fun name => (hres name).symm⟩
        · exact ⟨h, fun name => (hres name).symm⟩

/-- **One table of the accumulation**: each name's kept record is the one
kept before or the first record of the table that passes the test. -/
theorem accumulateVar_foldl {ea islocal isglobal : Bool} {st : State} (t : List VarId) :
    ∀ {acc : List VarId} {st' : State}, AccInv st acc st' →
      AccInv st (t.foldl (accumulateVar ea islocal isglobal) (acc, st')).1
        (t.foldl (accumulateVar ea islocal isglobal) (acc, st')).2 ∧
      ∀ name, accFind st (t.foldl (accumulateVar ea islocal isglobal) (acc, st')).1 name =
        (accFind st acc name).or (t.findSome? (recordKept ea islocal isglobal st name)) := by
  induction t with
  | nil => exact fun h => ⟨h, fun name => by simp⟩
  | cons u t ih =>
    intro acc st' h
    obtain ⟨h1, hk1⟩ := @accumulateVar_spec ea islocal isglobal _ _ _ h u
    obtain ⟨h2, hk2⟩ := ih h1
    refine ⟨h2, fun name => ?_⟩
    rw [List.foldl_cons, hk2, hk1, List.findSome?_cons]
    cases recordKept ea islocal isglobal st name u <;> simp [Option.or_assoc]

/-- In a table with one record per name, the first record that keeps a
name is the set's record of the name, if it passes the test. -/
theorem findSome_recordKept {st : State} (hu : NamesUnique st) (ea islocal isglobal : Bool)
    (name : String) (s : SetId) :
    (st.table s).findSome? (recordKept ea islocal isglobal st name) =
      setKept ea islocal isglobal st name s := by
  unfold setKept findSlot
  suffices ∀ t : List VarId, (∀ u ∈ t, u ∈ st.table s) →
      t.findSome? (recordKept ea islocal isglobal st name) =
        (t.findSome? (st.slotOf name)).bind fun p =>
          if keepsRecord ea islocal isglobal p.2 then some p.1 else none from this _ fun _ h => h
  intro t
  induction t with
  | nil => intro; rfl
  | cons u t ih =>
    intro ht
    rw [List.findSome?_cons, List.findSome?_cons]
    cases hs : st.slotOf name u with
    | none =>
      have : recordKept ea islocal isglobal st name u = none := by
        cases hx : st.vars u with
        | none => simp [recordKept, hx]
        | some x =>
          have hn : x.name ≠ name := fun hn => by
            rw [show st.slotOf name u = some (u, x) from slotOf_eq_some.2 ⟨rfl, hx, hn⟩] at hs
            cases hs
          simp [recordKept, hx, hn]
      rw [this]
      exact ih fun w hw => ht w (List.mem_cons_of_mem _ hw)
    | some p =>
      obtain ⟨v, x⟩ := p
      obtain ⟨rfl, hx, hn⟩ := slotOf_eq_some.1 hs
      have hrec : recordKept ea islocal isglobal st name u =
          if keepsRecord ea islocal isglobal x then some u else none := by
        simp [recordKept, hx, hn]
      rw [hrec]
      cases hk : keepsRecord ea islocal isglobal x
      · simp only [hk, Bool.false_eq_true, if_false, Option.some_bind]
        refine List.findSome?_eq_none_iff.2 fun w hw => ?_
        cases hw' : recordKept ea islocal isglobal st name w with
        | none => rfl
        | some w' =>
          obtain ⟨y, hy, hyk⟩ := Option.bind_eq_some.1 hw'
          have hwn : y.name = name ∧ keepsRecord ea islocal isglobal y = true := by
            by_contra hc; simp [hc] at hyk
          have := hu s u (ht u (List.mem_cons_self _ _)) w (ht w (List.mem_cons_of_mem _ hw))
            x y hx hy (hn.trans hwn.1.symm)
          subst this
          rw [hx] at hy; cases hy
          rw [hk] at hwn; cases hwn.2
      · simp [hk]

/-- One step of the walk the accumulation follows. -/
theorem keptFrom_succ (ea : Bool) (st : State) (name : String) (setList : Option ListId)
    (fuel : Nat) (l : ListId) :
    keptFrom ea st name setList (fuel + 1) (some l) =
      (st.lists l).bind fun n =>
        match setKept ea (some l == setList) (n.set == globalVariableSet) st name n.set with
        | some v => some (some v)
        | none => keptFrom ea st name setList fuel n.next := by
  simp only [keptFrom, setKept]
  cases st.lists l with
  | none => rfl
  | some n =>
    cases h : st.findSlot n.set name with
    | none => simp [h]
    | some p =>
      obtain ⟨v, x⟩ := p
      cases hk : keepsRecord ea (some l == setList) (n.set == globalVariableSet) x <;> simp [h, hk]

/-- **The accumulation over a chain**, from any state the invariant
relates to the start: it keeps the invariant, and for each name adds the
record the walk `keptFrom` finds, when none was kept before. -/
theorem accumulateChain_spec {st : State} (hu : NamesUnique st) (ea : Bool)
    (setList : Option ListId) (name : String) :
    ∀ fuel l {acc : List VarId} {st' : State} {p : List VarId × State}, AccInv st acc st' →
      accumulateChain ea setList fuel l (acc, st') = some p →
      AccInv st p.1 p.2 ∧ ∃ k, keptFrom ea st name setList fuel l = some k ∧
        accFind st p.1 name = (accFind st acc name).or k := by
  intro fuel
  induction fuel with
  | zero =>
    intro l acc st' p h hp
    obtain _ | l := l
    · cases hp; exact ⟨h, none, by simp [keptFrom]⟩
    · cases hp
  | succ fuel ih =>
    intro l acc st' p h hp
    obtain _ | l := l
    · cases hp; exact ⟨h, none, by simp [keptFrom]⟩
    unfold accumulateChain at hp
    dsimp only at hp
    rw [h.lists] at hp
    cases hn : st.lists l with
    | none => rw [hn] at hp; cases hp
    | some n =>
      rw [hn] at hp
      dsimp only at hp
      rw [h.table_eq] at hp
      obtain ⟨h1, hk1⟩ := @accumulateVar_foldl ea (some l == setList) (n.set == globalVariableSet) _
        (st.table n.set) _ _ h
      obtain ⟨h2, k', hk', hk2⟩ := ih _ h1 hp
      refine ⟨h2, _, ?_, by rw [hk2, hk1 name, findSome_recordKept hu, Option.or_assoc]⟩
      rw [keptFrom_succ, hn, Option.some_bind, hk']
      cases setKept ea (some l == setList) (n.set == globalVariableSet) st name n.set <;> rfl

/-- **What `target_environment` keeps**: started from an empty table, the
accumulation keeps for every name the record `keptFrom` finds, and changes
nothing but the export status of records it keeps. -/
theorem accumulateChain_keeps {st st' : State} (hu : NamesUnique st) {ea : Bool}
    {setList l : Option ListId} {fuel : Nat} {acc : List VarId}
    (h : accumulateChain ea setList fuel l ([], st) = some (acc, st')) :
    AccInv st acc st' ∧ ∀ name, keptFrom ea st name setList fuel l = some (accFind st' acc name) := by
  refine ⟨(accumulateChain_spec hu ea setList "" fuel l (AccInv.init st) h).1, fun name => ?_⟩
  obtain ⟨hinv, k, hk, hacc⟩ := accumulateChain_spec hu ea setList name fuel l (AccInv.init st) h
  rw [hk, hinv.accFind_eq, hacc]
  simp [accFind]

/-! ## The accumulation against the lookup -/

section agree

variable {ea : Bool} {st : State} {name : String}

/-- More fuel does not change a walk that ends. -/
theorem keptFrom_mono {setList : Option ListId} {fuel fuel' : Nat} {l : Option ListId}
    {r : Option VarId} (h : keptFrom ea st name setList fuel l = some r) (hle : fuel ≤ fuel') :
    keptFrom ea st name setList fuel' l = some r := by
  induction fuel generalizing fuel' l with
  | zero =>
    obtain _ | m := l
    · cases fuel' <;> simpa [keptFrom] using h
    · cases h
  | succ fuel ih =>
    obtain _ | m := l
    · cases fuel' <;> simpa [keptFrom] using h
    obtain ⟨fuel', rfl⟩ : ∃ k, fuel' = k + 1 := ⟨fuel' - 1, by omega⟩
    rw [keptFrom_succ] at h ⊢
    cases hn : st.lists m with
    | none => simp [hn] at h
    | some n =>
      simp only [hn, Option.some_bind] at h ⊢
      cases hv : setKept ea (some m == setList) (n.set == globalVariableSet) st name n.set with
      | some v => simpa [hv] using h
      | none => simp only [hv] at h ⊢; exact ih h (by omega)

/-- How the lookup's answer `r` and the accumulation's record `k` for one
name relate: a record the lookup finds outside `global_variable_set` is the
one kept, and a kept record is the lookup's unless the lookup stops at a
record of `global_variable_set` that `should_export` rejects. -/
def Agree (ea : Bool) (st : State) (r k : Option VarId) : Prop :=
  (∀ b, r = some b → b ∉ st.table globalVariableSet → k = some b) ∧
  (∀ c, k = some c → r = some c ∨ ∃ b x, r = some b ∧ st.vars b = some x ∧
    b ∈ st.table globalVariableSet ∧ shouldExport ea x = false)

theorem Agree.refl (r : Option VarId) : Agree ea st r r :=
  ⟨fun _ h _ => h, fun _ h => .inl h⟩

/-- The lookup stops at a global record the accumulation rejects. -/
theorem Agree.of_rejected {v : VarId} {x : Variable} {k : Option VarId}
    (hv : v ∈ st.table globalVariableSet) (hx : st.vars v = some x) (he : shouldExport ea x = false) :
    Agree ea st (some v) k :=
  ⟨fun _ hb hn => absurd (Option.some.inj hb ▸ hv) hn, fun _ _ => .inr ⟨v, x, rfl, hx, hv, he⟩⟩

/-- The lookup stops at a private record: one the accumulation skips
outside the file's own link. -/
def StopsAtPrivate (st : State) (r : Option VarId) : Prop :=
  ∃ b x, r = some b ∧ st.vars b = some x ∧ x.privateVar = true

/-- **One set, seen by both walks.** When the lookup past `isParent` links
and the accumulation with `islocal` see the set's record of the name alike,
they stop at it alike, but for a record of `global_variable_set`
`should_export` rejects; when both pass it, what the rest of the chain gives
them agrees, up to the exception `E`. -/
theorem agree_at_record {n : SetList} {v : VarId} {x : Variable} {isParent islocal : Bool}
    (hf : st.findSlot n.set name = some (v, x))
    (hsame : (!isParent || !x.privateVar) = (islocal || !x.privateVar)) {E : Option VarId → Prop}
    {R' K' : Option (Option VarId)}
    (hrest : (!isParent || !x.privateVar) = false →
      ∀ r' k', R' = some r' → K' = some k' → E r' ∨ Agree ea st r' k')
    {r k : Option VarId}
    (hr : (match visibleIn st name n.set isParent with | some v => some (some v) | none => R') = some r)
    (hk : (match setKept ea islocal (n.set == globalVariableSet) st name n.set with
      | some v => some (some v) | none => K') = some k) :
    E r ∨ Agree ea st r k := by
  obtain ⟨hv, hx, -⟩ := findSlot_mem hf
  simp only [visibleIn, setKept, keepsRecord, hf, Option.some_bind, ← hsame] at hr hk
  cases hvis : (!isParent || !x.privateVar)
  · simp only [hvis, Bool.false_and, Bool.false_eq_true, if_false] at hr hk
    exact hrest hvis _ _ hr hk
  · simp only [hvis, if_true, Option.some.injEq, Bool.true_and] at hr hk
    subst hr
    refine .inr ?_
    by_cases hrej : n.set = globalVariableSet ∧ shouldExport ea x = false
    · exact Agree.of_rejected (hrej.1 ▸ hv) hx hrej.2
    · have hkeep : (!(n.set == globalVariableSet) || shouldExport ea x) = true := by
        by_cases hg : n.set = globalVariableSet <;> simp_all
      simp only [hkeep, if_true, Option.some.injEq] at hk
      subst hk
      exact Agree.refl _

/-- At the end of the chain both walks find nothing. -/
theorem agree_at_end {setList : Option ListId} {fuel fuel' : Nat} {p : Bool} {r k : Option VarId}
    (hr : lookupVariableFrom st name fuel none p = some r)
    (hk : keptFrom ea st name setList fuel' none = some k) : Agree ea st r k := by
  rw [lookupVariableFrom_none, Option.some.injEq] at hr
  cases fuel' <;> simp only [keptFrom, Option.some.injEq] at hk <;> subst hr hk <;> exact Agree.refl _

/-- **Past the file's own link**, whose set holds no record of the name,
the two walks agree, but where the lookup, not yet past a parent boundary,
stops at a private record the accumulation skips. -/
theorem agree_past_own_link {l0 : ListId}
    (hstart : ∀ n0, st.lists l0 = some n0 → st.findSlot n0.set name = none) :
    ∀ fuel (l : Option ListId) (p : Bool) (r k : Option VarId), lookupVariableFrom st name fuel l p = some r →
      keptFrom ea st name (some l0) fuel l = some k → StopsAtPrivate st r ∨ Agree ea st r k := by
  intro fuel
  induction fuel with
  | zero =>
    rintro (_ | m) p r k hr hk
    · exact .inr (agree_at_end hr hk)
    · cases hr
  | succ fuel ih =>
    rintro (_ | m) p r k hr hk
    · exact .inr (agree_at_end hr hk)
    rw [lookupVariableFrom_succ] at hr
    rw [keptFrom_succ] at hk
    cases hn : st.lists m with
    | none => simp [hn] at hr
    | some n =>
      simp only [hn, Option.some_bind] at hr hk
      cases hf : st.findSlot n.set name with
      | none =>
        simp only [visibleIn, setKept, hf, Option.none_bind] at hr hk
        exact ih _ _ _ _ hr hk
      | some q =>
        obtain ⟨v, x⟩ := q
        have hm : (some m == some l0) = false := by
          have : m ≠ l0 := by rintro rfl; rw [hstart n hn] at hf; cases hf
          simpa using this
        rw [hm] at hk
        by_cases hpx : p = false ∧ x.privateVar = true
        · -- the lookup stops at the private record, the accumulation passes it
          obtain ⟨rfl, hpx⟩ := hpx
          simp only [visibleIn, hf, Option.some_bind, Bool.not_false, Bool.true_or, if_true,
            Option.some.injEq] at hr
          exact .inl ⟨v, x, hr.symm, (findSlot_mem hf).2.1, hpx⟩
        · refine agree_at_record (E := StopsAtPrivate st) hf ?_ (fun _ => ih _ _) hr hk
          cases p <;> cases hx : x.privateVar <;> simp_all

/-- **From a file's own link** the two walks agree, but where the lookup
stops at a private record of a later link, the own link's set holding no
record of the name. -/
theorem agree_from_own_link {l0 : ListId} {n0 : SetList} (hn : st.lists l0 = some n0)
    {fuel : Nat} {r k : Option VarId}
    (hr : lookupVariableFrom st name (fuel + 1) (some l0) false = some r)
    (hk : keptFrom ea st name (some l0) (fuel + 1) (some l0) = some k) :
    (StopsAtPrivate st r ∧ st.findSlot n0.set name = none) ∨ Agree ea st r k := by
  rw [lookupVariableFrom_succ, hn, Option.some_bind, Bool.false_or] at hr
  rw [keptFrom_succ, hn, Option.some_bind, show (some l0 == some l0) = true by simp] at hk
  cases hf : st.findSlot n0.set name with
  | none =>
    simp only [visibleIn, setKept, hf, Option.none_bind] at hr hk
    have hstart : ∀ n, st.lists l0 = some n → st.findSlot n.set name = none := fun _ h => by
      rw [hn] at h; cases h; exact hf
    exact (agree_past_own_link hstart fuel _ _ _ _ hr hk).imp_left fun h => ⟨h, rfl⟩
  | some p =>
    obtain ⟨v, x⟩ := p
    have h := agree_at_record (E := fun _ => False) hf (by simp) (fun h => by simp at h) hr hk
    exact .inr (h.resolve_left id)

end agree

/-- The lookup of `lookup_variable_for_file` is the walk from the file's
chain, however the special-variable refresh changes the state. -/
theorem lookupVariableForFile_walk {name : String} {f : FileId} {st st' : State}
    {r : Option VarId} (h : lookupVariableForFile name (some f) st = some (r, st')) :
    lookupVariableFrom st name (2 * st.fresh + 1) ((st.files f).bind File.variablesList) false =
      some r := by
  simp only [lookupVariableForFile, installFileContext, lookupVariable, lookupVariableChain,
    lookupVariableFrom_current, Option.map_map] at h
  obtain ⟨r0, hr0, hr⟩ := Option.map_eq_some'.1 h
  rw [hr0]
  cases r0 with
  | none => cases hr; rfl
  | some v =>
    simp only [Function.comp_apply] at hr
    split_ifs at hr <;> cases hr <;> rfl

/-- **`target_environment` keeps what `lookup_variable_for_file` finds**,
in tables of one record per name, unless the lookup stops at a private
record of a link after the file's own, whose set holds no record of the
name: a binding the lookup finds outside `global_variable_set` is the one
the accumulation keeps for the name, and a binding it keeps is the
lookup's, unless the lookup stops at a binding of `global_variable_set`
that `should_export` rejects. Such a private record is seen by the lookup
only before a parent boundary, so only when the file's own link has
`next_is_parent` clear: its pattern-specific set, or a double-colon root's
chain, follows it. -/
theorem target_environment_agrees_unless_private {ea : Bool} {st : State} {f : FileId} {l0 : ListId}
    {n0 : SetList} {name : String} (hu : NamesUnique st)
    (hl : (st.files f).bind File.variablesList = some l0) (hn : st.lists l0 = some n0)
    {acc : List VarId} {st' : State}
    (hacc : environmentTable ea (some f) st = some (acc, st'))
    {r : Option VarId} {st'' : State} (hlook : lookupVariableForFile name (some f) st = some (r, st'')) :
    (∃ b x, r = some b ∧ st.vars b = some x ∧ x.privateVar = true ∧ st.findSlot n0.set name = none) ∨
    ((∀ b, r = some b → b ∉ st.table globalVariableSet → accFind st' acc name = some b) ∧
      (∀ c, accFind st' acc name = some c → r = some c ∨ ∃ b x, r = some b ∧ st.vars b = some x ∧
        b ∈ st.table globalVariableSet ∧ shouldExport ea x = false)) := by
  have hwalk := lookupVariableForFile_walk hlook
  rw [hl] at hwalk
  rw [environmentTable, envChain, hl] at hacc
  have hkept := keptFrom_mono ((accumulateChain_keeps hu hacc).2 name)
    (by omega : st.fresh + 1 ≤ 2 * st.fresh + 1)
  exact (agree_from_own_link hn hwalk hkept).imp_left fun ⟨⟨b, x, hb, hx, hp⟩, hf⟩ => ⟨b, x, hb, hx, hp, hf⟩

/-! ## A parent and a child, and a pattern-specific set -/

/-- A recursive `X = 1` read from a makefile, as `private` makes it. -/
def privateX : Variable :=
  { name := "X", value := "1", fileinfo := Floc.zero, origin := .file, flavor := .recursive,
    recursive := true, append := false, conditional := false, perTarget := true, special := false,
    exportable := true, exportStatus := .default, privateVar := true }

/-- Target `a` (file `2`) of parent `p` (file `1`): `a`'s link `1` has
`next_is_parent` set and holds the private `X` (record `3`); `p`'s link `2`
ends at `global_setlist`. -/
def ownLinkState : State where
  vars := fun v => if v = 3 then some privateX else none
  sets := fun s => match s with
    | 0 => some []
    | 1 => some [3]
    | 2 => some []
    | _ => none
  lists := fun l => match l with
    | 0 => some ⟨none, 0, false⟩
    | 1 => some ⟨some 2, 1, true⟩
    | 2 => some ⟨some 0, 2, true⟩
    | _ => none
  files := fun f => match f with
    | 1 => some ⟨"p", some 2, none, none, none, true⟩
    | 2 => some ⟨"a", some 1, none, some 1, none, true⟩
    | _ => none
  current := some 0
  changenum := 1
  lastChangenum := 0
  fresh := 4

/-- Tables of at most one record have one record per name. -/
theorem NamesUnique.of_length_le_one {st : State} (h : ∀ s, (st.table s).length ≤ 1) :
    NamesUnique st := by
  intro s u hu w hw _ _ _ _ _
  match ht : st.table s, h s with
  | [], _ => rw [ht] at hu; cases hu
  | [a], _ => rw [ht, List.mem_singleton] at hu hw; rw [hu, hw]

theorem target_environment_agrees_on_own_link :
    NamesUnique ownLinkState ∧
    environmentTable false (some 2) ownLinkState = some ([3], ownLinkState) ∧
    lookupVariableForFile "X" (some 2) ownLinkState = some (some 3, ownLinkState) ∧
    ((∃ b x, some 3 = some b ∧ ownLinkState.vars b = some x ∧ x.privateVar = true ∧
        ownLinkState.findSlot 1 "X" = none) ∨
      ((∀ b, some 3 = some b → b ∉ ownLinkState.table globalVariableSet →
          accFind ownLinkState [3] "X" = some b) ∧
        ∀ c, accFind ownLinkState [3] "X" = some c → some 3 = some c ∨ ∃ b x, some 3 = some b ∧
          ownLinkState.vars b = some x ∧ b ∈ ownLinkState.table globalVariableSet ∧
          shouldExport false x = false)) :=
  have hu : NamesUnique ownLinkState := NamesUnique.of_length_le_one fun s => by
    rcases s with _ | _ | _ | s <;> simp [table, ownLinkState]
  ⟨hu, rfl, rfl, @target_environment_agrees_unless_private false ownLinkState 2 1 ⟨some 2, 1, true⟩ "X" hu
    rfl rfl [3] ownLinkState rfl (some 3) ownLinkState rfl⟩

/-- `X = 1` as a private pattern-specific variable of `%.o`. -/
def privatePatternVars : PatternVars := createPatternVar "%.o" 0 privateX .empty

/-- `initialize_file_variables (a.o, 0)` with the pattern `%.o`: `a.o`'s
link `1` leads, with `next_is_parent` clear, to the pattern-specific link
`2`, which holds the copy of `X` (record `3`) and ends at
`global_setlist`. -/
def privatePatternRun : Option State :=
  initializeFileVariables plainContext privatePatternVars 2 1 false
    (State.initial.setFile 1 ⟨"a.o", none, none, none, none, false⟩)

/-- After `initialize_file_variables`, `lookup_variable_for_file` finds the
private pattern-specific `X` of `a.o`, outside `global_variable_set`, and
the accumulation of `target_environment` for `a.o` keeps no `X`. -/
theorem private_pattern_binding_not_kept :
    ∃ st acc st', privatePatternRun = some st ∧
      lookupVariableForFile "X" (some 1) st = some (some 3, st) ∧
      3 ∉ st.table globalVariableSet ∧
      environmentTable false (some 1) st = some (acc, st') ∧ accFind st' acc "X" = none :=
  ⟨privatePatternRun.getD State.initial, [], privatePatternRun.getD State.initial,
    rfl, rfl, by decide, rfl, rfl⟩

/-! ## Export statuses passed on between calls -/

/-- `X = 1` read from a makefile, with the given export status and
privacy. -/
def makefileX (e : VariableExport) : Variable :=
  { name := "X", value := "1", fileinfo := Floc.zero, origin := .file, flavor := .recursive,
    recursive := true, append := false, conditional := false, perTarget := false, special := false,
    exportable := true, exportStatus := e, privateVar := false }

/-- A global `export X = 1` (record `4`) and a target-specific `X = 1` of
target `t` (file `1`, record `3`, export status `v_default`), whose link `1`
ends at `global_setlist`. -/
def exportState : State where
  vars := fun v => match v with
    | 3 => some { makefileX .default with perTarget := true }
    | 4 => some (makefileX .export)
    | _ => none
  sets := fun s => match s with
    | 0 => some [4]
    | 1 => some [3]
    | _ => none
  lists := fun l => match l with
    | 0 => some ⟨none, 0, false⟩
    | 1 => some ⟨some 0, 1, true⟩
    | _ => none
  files := fun f => if f = 1 then some ⟨"t", some 1, none, none, none, true⟩ else none
  current := some 0
  changenum := 1
  lastChangenum := 0
  fresh := 5

/-- `unexport X` read after the first call: the global record's export
status becomes `v_noexport`. -/
def unexportX (st : State) : State := st.setVar 4 (makefileX .noexport)

/-- A shell that gave no `SHELL`, no jobserver, values as they are. -/
def exportContext : EnvContext :=
  ⟨false, 0, none, false, none, "jobserver-auth", fun _ _ v => v.value⟩

/-- `target_environment (t, 0)` passes the global record's `v_export` to
the target-specific `X` it keeps, and the record keeps it: after
`unexport X` a second call still exports `X`, while the same `unexport X`
without the first call does not. -/
theorem target_environment_leaks_export_status :
    ∃ out st1 out2 st2 out2' st2',
      targetEnvironment exportContext (some 1) false exportState = some (out, st1) ∧
      (exportState.vars 3).map Variable.exportStatus = some .default ∧
      (st1.vars 3).map Variable.exportStatus = some .export ∧
      targetEnvironment exportContext (some 1) false (unexportX st1) = some (out2, st2) ∧
      targetEnvironment exportContext (some 1) false (unexportX exportState) = some (out2', st2') ∧
      out2 = ["X=1", "MAKELEVEL=1"] ∧ out2' = ["MAKELEVEL=1"] := by
  refine ⟨_, _, _, _, _, _, rfl, rfl, ?_, rfl, rfl, rfl, rfl⟩
  rfl

/-! ## The entries written -/

end MakeVariables
