import MakeVariables.PatternSet
import MakeVariables.Pattern
/-!
# `initialize_file_variables` — a target's chain and its pattern-specific set

`initialize_file_variables (file, 0)` first builds the chain of the file it
recurses into (the double-colon root, or the parent), then links the
target's own set to it, and, for a target not searched yet, gathers every
pattern variable whose pattern matches the target's name into a new set
spliced in between (`initializeFileVariables_pattern_set`).

The recursion never comes back to the target: a recursion that reached it
again would go round for ever (`not_initReaches_of_next`), so the
parent's initialisation leaves the target's record alone.
-/

namespace MakeVariables

open State

/-! ## The recursion through parents and double-colon roots -/

/-- The file `initialize_file_variables (g)` recurses into: the
double-colon root of a member, otherwise the parent. -/
def initNext (g : FileId) (x : File) : Option FileId :=
  match x.doubleColon with
  | some dc => if dc ≠ g then some dc else x.parent
  | none => x.parent

/-- `h` is `g` or a file the recursion of `initialize_file_variables (g)`
reaches. -/
inductive InitReaches (files : FileId → Option File) : FileId → FileId → Prop
  | refl (g : FileId) : InitReaches files g g
  | next {g g' h : FileId} {x : File} : files g = some x → initNext g x = some g' →
      InitReaches files g' h → InitReaches files g h

/-- Two file tables with the same parents and double-colon roots. -/
def SameLinks (files files' : FileId → Option File) : Prop :=
  ∀ h, (files' h).map (fun x => (x.parent, x.doubleColon)) =
    (files h).map (fun x => (x.parent, x.doubleColon))

namespace SameLinks

variable {files files' files'' : FileId → Option File}

theorem refl (files : FileId → Option File) : SameLinks files files := fun _ => rfl

theorem symm (h : SameLinks files files') : SameLinks files' files := fun g => (h g).symm

theorem trans (h1 : SameLinks files files') (h2 : SameLinks files' files'') :
    SameLinks files files'' :=
  fun h => (h2 h).trans (h1 h)

theorem of_eq (h : files' = files) : SameLinks files files' := fun g => by rw [h]

/-- Rewriting one file's record under its own links. -/
theorem setFile {st : State} {f : FileId} {x y : File} (hx : st.files f = some x)
    (hy : y.parent = x.parent ∧ y.doubleColon = x.doubleColon) :
    SameLinks st.files (st.setFile f y).files :=
  fun g => by
    by_cases hg : g = f
    · subst hg; simp [hx, hy.1, hy.2]
    · simp [Function.update_noteq hg]

/-- The recursion follows the links only. -/
theorem initReaches (hl : SameLinks files files') {g h : FileId} (hr : InitReaches files g h) :
    InitReaches files' g h := by
  induction hr with
  | refl g => exact .refl g
  | @next g g' h x hx hn _ ih =>
    have hlx := hl g
    rw [hx] at hlx
    obtain ⟨x', hx', he⟩ := Option.map_eq_some'.1 hlx
    have hp : x'.parent = x.parent := congrArg Prod.fst he
    have hd : x'.doubleColon = x.doubleColon := congrArg Prod.snd he
    exact .next hx' (by simp only [initNext, hp, hd]; exact hn) ih

end SameLinks

/-- What a run of `initialize_file_variables (g)` leaves of the state: the
links of every file, the allocation frontier moving forward, and every
file the recursion does not reach. -/
structure InitFrame (g : FileId) (st st' : State) : Prop where
  links : SameLinks st.files st'.files
  fresh_le : st.fresh ≤ st'.fresh
  files : ∀ h, ¬ InitReaches st.files g h → st'.files h = st.files h

/-! ## The pattern search -/

section search

variable {cx : Context} {pv : PatternVars} {st st' : State}

/-- **The pattern loop keeps the frame** and the current set well formed. -/
theorem patternLoop_frame {n : SetList} {t : String} :
    ∀ {fuel a} {st st' : State}, st.current.bind st.lists = some n → TableWF st n.set →
      patternLoop cx pv t fuel a st = some st' → BlockFrame st st' ∧ TableWF st' n.set
  | 0, _, _, _, _, _, h => by cases h
  | fuel + 1, a, st, st', hcur, hwf, h => by
    unfold patternLoop at h
    obtain ⟨p, -, h⟩ := Option.bind_eq_some.1 h
    obtain ⟨st1, h1, h⟩ := Option.bind_eq_some.1 h
    obtain ⟨hf1, hwf1, -⟩ := definePatternVar_other hcur hwf h1
    split at h
    · cases h; exact ⟨hf1, hwf1⟩
    · have hcur1 : st1.current.bind st1.lists = some n := by
        rw [hf1.current, hf1.lists]; exact hcur
      obtain ⟨hf2, hwf2⟩ := patternLoop_frame hcur1 hwf1 h
      exact ⟨hf1.trans hf2, hwf2⟩

/-- The state the loop starts from: a new set and a new link to it in front
of the current chain, made current, recorded as `pat_variables`. -/
def patternStart (f : FileId) (file : File) (st : State) : State :=
  { (createNewVariableSet st).2.setFile f { file with patVariables := some st.fresh } with
    current := some st.fresh }

theorem patternStart_current (f : FileId) (file : File) (st : State) :
    (patternStart f file st).current.bind (patternStart f file st).lists =
      some ⟨st.current, st.fresh, false⟩ := by
  simp [patternStart, createNewVariableSet]

theorem patternStart_tableWF (f : FileId) (file : File) (st : State) :
    TableWF (patternStart f file st) st.fresh := by
  refine ⟨?_, ?_, ?_, ?_⟩ <;> simp [patternStart, createNewVariableSet, State.table]

/-- **What the pattern search does**: nothing for a target already
searched; otherwise, with no matching pattern, it marks the target
searched; with one, it runs the loop from the first match over a new set,
restores the current chain and marks the target searched. -/
theorem searchPatternVars_inv {f : FileId} (h : searchPatternVars cx pv f st = some st') :
    ∃ file, st.files f = some file ∧
      ((file.patSearched = true ∧ st' = st) ∨
       (file.patSearched = false ∧ lookupPatternVar pv none file.name = none ∧
          st' = st.setFile f { file with patSearched := true }) ∨
       (file.patSearched = false ∧ ∃ p st5 file5, lookupPatternVar pv none file.name = some p ∧
          patternLoop cx pv file.name pv.order.length p (patternStart f file st) = some st5 ∧
          st5.files f = some file5 ∧
          st' = { st5 with current := st.current }.setFile f { file5 with patSearched := true })) := by
  unfold searchPatternVars at h
  obtain ⟨file, hfile, h⟩ := Option.bind_eq_some.1 h
  refine ⟨file, hfile, ?_⟩
  cases hs : file.patSearched
  · rw [if_neg (by rw [hs]; decide)] at h
    cases hl : lookupPatternVar pv none file.name with
    | none =>
      rw [hl] at h
      obtain ⟨st4, h4, h⟩ := Option.bind_eq_some.1 h
      cases h4
      obtain ⟨file4, hfile4, h⟩ := Option.bind_eq_some.1 h
      rw [hfile] at hfile4
      cases hfile4
      exact .inr (.inl ⟨rfl, rfl, (Option.some.inj h).symm⟩)
    | some p =>
      rw [hl] at h
      obtain ⟨st5, h5, h⟩ := Option.bind_eq_some.1 h
      obtain ⟨st6, h6, h⟩ := Option.bind_eq_some.1 h
      cases h6
      obtain ⟨file5, hfile5, h⟩ := Option.bind_eq_some.1 h
      exact .inr (.inr ⟨rfl, p, st5, file5, rfl, h5, hfile5, (Option.some.inj h).symm⟩)
  · rw [if_pos hs] at h
    exact .inl ⟨rfl, (Option.some.inj h).symm⟩

/-- The pattern search rewrites the target's record only, under its own
links, and moves the allocation frontier forward. -/
theorem searchPatternVars_frame {f : FileId} (h : searchPatternVars cx pv f st = some st') :
    SameLinks st.files st'.files ∧ st.fresh ≤ st'.fresh ∧ ∀ g, g ≠ f → st'.files g = st.files g := by
  obtain ⟨file, hfile, ⟨-, rfl⟩ | ⟨-, -, rfl⟩ | ⟨-, p, st5, file5, -, h5, hf5, rfl⟩⟩ :=
    searchPatternVars_inv h
  · exact ⟨SameLinks.refl _, le_rfl, fun _ _ => rfl⟩
  · exact ⟨SameLinks.setFile hfile ⟨rfl, rfl⟩, le_rfl, fun g hg => by
      simp [Function.update_noteq hg]⟩
  · obtain ⟨hf, -⟩ := patternLoop_frame (patternStart_current f file st)
      (patternStart_tableWF f file st) h5
    have hfiles : st5.files = Function.update st.files f (some { file with patVariables := some st.fresh }) := by
      rw [hf.files]; rfl
    rw [hfiles, Function.update_same, Option.some.injEq] at hf5
    subst hf5
    refine ⟨fun g => ?_, ?_, fun g hg => ?_⟩
    · by_cases hg : g = f
      · subst hg; simp [hfiles, hfile]
      · simp [hfiles, Function.update_noteq hg]
    · have := hf.fresh_le
      simp only [patternStart, createNewVariableSet, setFile, setList, setTable, alloc] at this
      simp only [setFile]
      omega
    · simp [hfiles, Function.update_noteq hg]

/-- The splice rewrites two links and nothing else. -/
theorem splicePatternVars_frame {f : FileId} {l : ListId} (h : splicePatternVars f l st = some st') :
    st'.files = st.files ∧ st'.fresh = st.fresh := by
  unfold splicePatternVars at h
  obtain ⟨file, -, h⟩ := Option.bind_eq_some.1 h
  split at h
  · cases h; exact ⟨rfl, rfl⟩
  · obtain ⟨n, -, h⟩ := Option.bind_eq_some.1 h
    obtain ⟨pn, -, h⟩ := Option.bind_eq_some.1 h
    cases h
    exact ⟨rfl, rfl⟩

end search

/-! ## The run of `initialize_file_variables` -/

section run

variable {cx : Context} {pv : PatternVars}

/-- The chain a target's own link is linked to: the parent's, or
`global_setlist`. -/
def parentChain (file : File) (st : State) : Option ListId :=
  match file.parent with
  | none => some globalSetlist
  | some par => (st.files par).bind File.variablesList

/-- **What `initialize_file_variables` does after the double-colon case**:
the parent's run, the target's own link sent to the parent's chain with
`next_is_parent` set, the pattern search unless reading makefiles, then
the splice. -/
theorem initializeParent_inv {initParent : FileId → Bool → State → Option State} {f : FileId}
    {reading : Bool} {l : ListId} {file : File} {st st' : State}
    (h : initializeParent cx pv initParent f reading l file st = some st') :
    ∃ st1, (match file.parent with
        | none => st1 = st
        | some par => initParent par reading st = some st1) ∧
      ∃ n st3, st1.lists l = some n ∧
        (if reading then st3 = st1.setList l { n with next := parentChain file st1, nextIsParent := true }
          else searchPatternVars cx pv f
            (st1.setList l { n with next := parentChain file st1, nextIsParent := true }) = some st3) ∧
        splicePatternVars f l st3 = some st' := by
  unfold initializeParent at h
  obtain ⟨st1, h1, h⟩ := Option.bind_eq_some.1 h
  obtain ⟨n, hn, h⟩ := Option.bind_eq_some.1 h
  obtain ⟨st3, h3, h⟩ := Option.bind_eq_some.1 h
  refine ⟨st1, ?_, n, st3, hn, ?_, h⟩
  · cases hp : file.parent with
    | none => simp only [hp, Option.some.injEq] at h1; exact h1.symm
    | some par => simpa only [hp] using h1
  · cases reading
    · exact h3
    · exact (Option.some.inj h3).symm

/-- The target's own link, found or created, with the record pointing at
it: nothing else of the files changes. -/
theorem fileSetList_spec {f : FileId} {file : File} {st : State} (hfile : st.files f = some file) :
    SameLinks st.files (fileSetList f file st).2.files ∧ st.fresh ≤ (fileSetList f file st).2.fresh ∧
      (∀ g, g ≠ f → (fileSetList f file st).2.files g = st.files g) ∧
      (fileSetList f file st).2.files f =
        some { file with variablesList := some (fileSetList f file st).1 } := by
  unfold fileSetList
  cases hv : file.variablesList with
  | some l => exact ⟨SameLinks.refl _, le_rfl, fun _ _ => rfl, by rw [hfile, ← hv]⟩
  | none =>
    refine ⟨SameLinks.setFile hfile ⟨rfl, rfl⟩, by simp, fun g hg => ?_, by simp⟩
    simp [Function.update_noteq hg]

/-- The file the recursion goes to, read from the record. -/
theorem initNext_eq_parent {f : FileId} {file : File}
    (hdc : file.doubleColon = none ∨ file.doubleColon = some f) : initNext f file = file.parent := by
  rcases hdc with h | h <;> simp [initNext, h]

/-- **`initialize_file_variables` keeps to the files it reaches.** -/
theorem initializeFileVariables_frame :
    ∀ {fuel g reading} {st st' : State}, initializeFileVariables cx pv fuel g reading st = some st' →
      InitFrame g st st'
  | 0, _, _, _, _, h => by cases h
  | fuel + 1, g, reading, st, st', h => by
    unfold initializeFileVariables at h
    obtain ⟨file, hfile, h⟩ := Option.bind_eq_some.1 h
    obtain ⟨hl0, hfr0, hfi0, -⟩ := fileSetList_spec hfile
    generalize fileSetList g file st = p0 at h hl0 hfr0 hfi0
    obtain ⟨l, st0⟩ := p0
    dsimp only at h hl0 hfr0 hfi0
    -- the run of `initialize_parent`, when the recursion goes to the parent
    have hparent : initializeParent cx pv (initializeFileVariables cx pv fuel) g reading l file st0 =
        some st' → initNext g file = file.parent → InitFrame g st st' := fun hp hn => by
      obtain ⟨st1, h1, n, st3, -, h3, h4⟩ := initializeParent_inv hp
      have hf1 : SameLinks st0.files st1.files ∧ st0.fresh ≤ st1.fresh ∧
          ∀ k, ¬ InitReaches st.files g k → k ≠ g → st1.files k = st0.files k := by
        cases hp' : file.parent with
        | none =>
          rw [hp'] at h1; subst h1
          exact ⟨SameLinks.refl _, le_rfl, fun _ _ _ => rfl⟩
        | some par =>
          rw [hp'] at h1
          have ih := initializeFileVariables_frame h1
          refine ⟨ih.links, ih.fresh_le, fun k hk _ => ih.files k fun hr => hk ?_⟩
          exact .next hfile (hn.trans hp') (hl0.symm.initReaches hr)
      have hf3 : SameLinks st1.files st3.files ∧ st1.fresh ≤ st3.fresh ∧ ∀ k, k ≠ g → st3.files k = st1.files k := by
        cases reading
        · obtain ⟨a, b, c⟩ := searchPatternVars_frame h3
          exact ⟨SameLinks.trans (SameLinks.of_eq rfl) a, b, fun k hk => c k hk⟩
        · simp only [if_true] at h3
          subst h3
          exact ⟨SameLinks.of_eq rfl, le_rfl, fun _ _ => rfl⟩
      obtain ⟨hf4, hfr4⟩ := splicePatternVars_frame h4
      refine ⟨((hl0.trans hf1.1).trans hf3.1).trans (SameLinks.of_eq hf4), ?_, fun k hk => ?_⟩
      · rw [hfr4]; exact le_trans hfr0 (le_trans hf1.2.1 hf3.2.1)
      · have hkg : k ≠ g := by rintro rfl; exact hk (.refl k)
        rw [hf4, hf3.2.2 k hkg, hf1.2.2 k hk hkg, hfi0 k hkg]
    cases hdc : file.doubleColon with
    | none => rw [hdc] at h; exact hparent h (initNext_eq_parent (.inl hdc))
    | some dc =>
      rw [hdc] at h
      dsimp only at h
      split_ifs at h with hne
      · obtain ⟨st1, h1, h⟩ := Option.bind_eq_some.1 h
        obtain ⟨n, -, rfl⟩ := Option.map_eq_some'.1 h
        have ih := initializeFileVariables_frame h1
        refine ⟨(hl0.trans ih.links).trans (SameLinks.of_eq rfl), le_trans hfr0 ih.fresh_le,
          fun k hk => ?_⟩
        have hkg : k ≠ g := by rintro rfl; exact hk (.refl k)
        have hnext : initNext g file = some dc := by simp [initNext, hdc, hne]
        show st1.files k = st.files k
        rw [ih.files k fun hr => hk (.next hfile hnext (hl0.symm.initReaches hr)), hfi0 k hkg]
      · exact hparent h (initNext_eq_parent (.inr (by rw [hdc]; simpa using hne)))

/-- The recursion reads a record's links only. -/
theorem initNext_congr {g : FileId} {x y : File}
    (h : (y.parent, y.doubleColon) = (x.parent, x.doubleColon)) : initNext g y = initNext g x := by
  simp only [Prod.mk.injEq] at h
  simp only [initNext, h.1, h.2]

/-- A record of a file in a state with the same links has the same links. -/
theorem SameLinks.record {files files' : FileId → Option File} (hl : SameLinks files files')
    {g : FileId} {x : File} (hx : files g = some x) :
    ∃ y, files' g = some y ∧ initNext g y = initNext g x := by
  have := hl g
  rw [hx] at this
  obtain ⟨y, hy, he⟩ := Option.map_eq_some'.1 this
  exact ⟨y, hy, initNext_congr he⟩

/-- **One level of the recursion**: a run that ends has run the file the
recursion goes to, with one unit of fuel less, from a state with the same
links. -/
theorem initializeFileVariables_step {fuel : Nat} {g g' : FileId} {reading : Bool}
    {st st' : State} {x : File} (h : initializeFileVariables cx pv (fuel + 1) g reading st = some st')
    (hx : st.files g = some x) (hn : initNext g x = some g') :
    ∃ s1 s1', SameLinks st.files s1.files ∧ initializeFileVariables cx pv fuel g' reading s1 = some s1' := by
  unfold initializeFileVariables at h
  rw [hx, Option.some_bind] at h
  obtain ⟨hl0, -, -, -⟩ := fileSetList_spec hx
  generalize fileSetList g x st = p0 at h hl0
  obtain ⟨l, st0⟩ := p0
  dsimp only at h hl0
  have hparent : initializeParent cx pv (initializeFileVariables cx pv fuel) g reading l x st0 =
      some st' → initNext g x = x.parent → ∃ s1 s1', SameLinks st.files s1.files ∧
        initializeFileVariables cx pv fuel g' reading s1 = some s1' := fun hp hnp => by
    obtain ⟨st1, h1, -⟩ := initializeParent_inv hp
    rw [hnp] at hn
    rw [hn] at h1
    exact ⟨st0, st1, hl0, h1⟩
  cases hdc : x.doubleColon with
  | none => rw [hdc] at h; exact hparent h (initNext_eq_parent (.inl hdc))
  | some dc =>
    rw [hdc] at h
    dsimp only at h
    split_ifs at h with hne
    · obtain ⟨st1, h1, -⟩ := Option.bind_eq_some.1 h
      have : g' = dc := by simp [initNext, hdc, hne] at hn; exact hn.symm
      subst this
      exact ⟨st0, st1, hl0, h1⟩
    · exact hparent h (initNext_eq_parent (.inr (by rw [hdc]; simpa using hne)))

/-- **A run that ends runs every file its recursion reaches**, each with
no more fuel, from a state with the same links. -/
theorem initializeFileVariables_reaches {reading : Bool} {files : FileId → Option File}
    {g h : FileId} (hr : InitReaches files g h) :
    ∀ {fuel} {st st' : State}, SameLinks files st.files →
      initializeFileVariables cx pv fuel g reading st = some st' →
      ∃ fuel' ≤ fuel, ∃ s0 s0', SameLinks st.files s0.files ∧
        initializeFileVariables cx pv fuel' h reading s0 = some s0' := by
  induction hr with
  | refl g => exact fun hl h => ⟨_, le_rfl, _, _, SameLinks.refl _, h⟩
  | @next g g' k x hx hn _ ih =>
    intro fuel st st' hl hrun
    obtain ⟨y, hy, hyn⟩ := SameLinks.record hl hx
    cases fuel with
    | zero => cases hrun
    | succ fuel =>
      obtain ⟨s1, s1', hl1, h1⟩ := initializeFileVariables_step hrun hy (hyn.trans hn)
      obtain ⟨fuel', hle, s0, s0', hl0, h0⟩ := ih (hl.trans hl1) h1
      exact ⟨fuel', by omega, s0, s0', hl1.trans hl0, h0⟩

/-- **The recursion never comes back**: when the run of the file a target's
recursion goes to ends, that run does not reach the target. -/
theorem not_initReaches_of_next {reading : Bool} {f par : FileId} :
    ∀ {fuel} {st st' : State} {x : File}, initializeFileVariables cx pv fuel par reading st = some st' →
      st.files f = some x → initNext f x = some par → ¬ InitReaches st.files par f := by
  intro fuel
  induction fuel using Nat.strong_induction_on with
  | _ fuel ih =>
    intro st st' x h hx hn hr
    obtain ⟨fuel', hle, s0, s0', hl0, h0⟩ :=
      initializeFileVariables_reaches hr (SameLinks.refl _) h
    obtain ⟨y, hy, hyn⟩ := SameLinks.record hl0 hx
    cases fuel' with
    | zero => cases h0
    | succ k =>
      obtain ⟨s1, s1', hl1, h1⟩ := initializeFileVariables_step h0 hy (hyn.trans hn)
      obtain ⟨z, hz, hzn⟩ := SameLinks.record (hl0.trans hl1) hx
      exact ih k (by omega) h1 hz (hzn.trans hn) ((hl0.trans hl1).initReaches hr)

end run

/-! ## The pattern-specific set -/

section matching

variable {cx : Context} {pv : PatternVars} {t : String}

/-- The test `lookup_pattern_var` makes of entry `a` against the target. -/
def matchesAt (pv : PatternVars) (t : String) (a : Nat) : Bool :=
  ((pv.get a).map fun p => p.matches (cBytes t)).getD false

/-- The entries of `pattern_vars` that match the target, in list order. -/
def matchingEntries (pv : PatternVars) (t : String) : List PatternVar :=
  (pv.order.filterMap pv.get).filter fun p => p.matches (cBytes t)

theorem get_of_matchesAt {a : Nat} (h : matchesAt pv t a = true) : ∃ p, pv.get a = some p := by
  cases hp : pv.get a with
  | none => simp [matchesAt, hp] at h
  | some p => exact ⟨p, rfl⟩

theorem matchingEntries_eq (pv : PatternVars) (t : String) :
    matchingEntries pv t = (pv.order.filter (matchesAt pv t)).filterMap pv.get := by
  rw [matchingEntries, List.filter_filterMap, List.filterMap_filter]
  congr 1
  funext a
  simp only [matchesAt]
  rcases Option.eq_none_or_eq_some (pv.get a) with h | ⟨p, h⟩ <;> simp [h, Option.filter]

/-- The search from the head finds nothing exactly when no entry matches. -/
theorem lookupPatternVar_none_iff :
    lookupPatternVar pv none t = none ↔ matchingEntries pv t = [] := by
  show pv.order.find? (matchesAt pv t) = none ↔ _
  rw [matchingEntries_eq, List.find?_eq_none, List.filterMap_eq_nil_iff]
  simp only [List.mem_filter]
  constructor
  · exact fun h a ⟨ha, hm⟩ => absurd hm (h a ha)
  · intro h a ha hm
    obtain ⟨p, hp⟩ := get_of_matchesAt hm
    rw [h a ⟨ha, hm⟩] at hp
    cases hp

/-- The search after entry `a` scans the entries after it. -/
theorem lookupPatternVar_after {pre rest : List Nat} {a : Nat} (ho : pv.order = pre ++ a :: rest)
    (hnd : pv.order.Nodup) : lookupPatternVar pv (some a) t = rest.find? (matchesAt pv t) := by
  have ha : a ∉ pre := fun h => (List.nodup_append.1 (ho ▸ hnd)).2.2 h (List.mem_cons_self a rest)
  simp only [lookupPatternVar, ho]
  rw [List.dropWhile_append_of_pos (fun b hb => by simpa using fun h : b = a => ha (h ▸ hb)),
    List.dropWhile_cons_of_neg (by simp)]
  rfl

/-- **One run of the loop from entry `a`**: entry `a`, then every matching
entry after it, in list order. -/
theorem patternLoop_eq (hnd : pv.order.Nodup) :
    ∀ {fuel : Nat} {pre rest : List Nat} {a : Nat} {st : State}, pv.order = pre ++ a :: rest →
      rest.length < fuel →
      patternLoop cx pv t fuel a st = (pv.get a).bind fun p => (definePatternVar cx p st).bind
        (definePatternVarList cx ((rest.filter (matchesAt pv t)).filterMap pv.get))
  | 0, _, _, _, _, _, hlen => absurd hlen (Nat.not_lt_zero _)
  | fuel + 1, pre, rest, a, st, ho, hlen => by
    unfold patternLoop
    cases pv.get a with
    | none => rfl
    | some p =>
      show Option.bind (definePatternVar cx p st) _ = Option.bind (definePatternVar cx p st) _
      congr 1
      funext st1
      rw [lookupPatternVar_after ho hnd]
      cases hf : rest.filter (matchesAt pv t) with
      | nil =>
        rw [List.find?_eq_none.2 fun b hb => by simpa using List.filter_eq_nil_iff.1 hf b hb]
        rfl
      | cons b L =>
        obtain ⟨l1, l2, rfl, h1, hb, h2⟩ := List.filter_eq_cons_iff.1 hf
        have hfind : (l1 ++ b :: l2).find? (matchesAt pv t) = some b := by
          rw [List.find?_append, List.find?_eq_none.2 h1, List.find?_cons_of_pos _ hb]
          rfl
        obtain ⟨q, hq⟩ := get_of_matchesAt hb
        rw [hfind]
        dsimp only
        rw [patternLoop_eq hnd (show pv.order = (pre ++ a :: l1) ++ b :: l2 by simp [ho])
          (by simp only [List.length_append, List.length_cons] at hlen; omega), hq,
          List.filterMap_cons, hq, ← h2]
        rfl

/-- **The pattern loop defines the matching entries, in list order.** -/
theorem patternLoop_matching {a : Nat} {st : State} (hnd : pv.order.Nodup)
    (ha : lookupPatternVar pv none t = some a) :
    patternLoop cx pv t pv.order.length a st = definePatternVarList cx (matchingEntries pv t) st := by
  obtain ⟨hm, pre, rest, ho, hpre⟩ :=
    List.find?_eq_some.1 (show pv.order.find? (matchesAt pv t) = some a from ha)
  have hfilter : pv.order.filter (matchesAt pv t) = a :: rest.filter (matchesAt pv t) := by
    rw [ho, List.filter_append, List.filter_eq_nil_iff.2 fun b hb => by simpa using hpre b hb,
      List.filter_cons_of_pos hm]
    rfl
  obtain ⟨p, hp⟩ := get_of_matchesAt hm
  rw [patternLoop_eq hnd ho (by simp [ho]; omega), matchingEntries_eq, hfilter, List.filterMap_cons, hp]
  rfl

/-- The entries a search from `start` goes through: all of them from the
head, those after `start` otherwise. -/
def AfterCursor (pv : PatternVars) : Option Nat → List Nat → Prop
  | none, rest => rest = pv.order
  | some s, rest => ∃ front, pv.order = front ++ s :: rest

/-- Entry `a` is there and its pattern matches `t` by the stem rule. -/
def StemMatchAt (pv : PatternVars) (t : String) (a : Nat) : Prop :=
  ∃ p, pv.get a = some p ∧ StemMatch p (cBytes t)

theorem matchesAt_iff (hwf : ∀ a p, pv.get a = some p → p.WF) (a : Nat) :
    matchesAt pv t a = true ↔ StemMatchAt pv t a := by
  unfold matchesAt StemMatchAt
  cases h : pv.get a with
  | none => simp
  | some p => simpa using PatternVar.matches_iff (hwf a p h) (cBytes t)

theorem lookupPatternVar_cursor (hnd : pv.order.Nodup) {start : Option Nat} {rest : List Nat}
    (hcur : AfterCursor pv start rest) : lookupPatternVar pv start t = rest.find? (matchesAt pv t) := by
  cases start with
  | none => rw [show rest = pv.order from hcur]; rfl
  | some s =>
    obtain ⟨front, ho⟩ := hcur
    exact lookupPatternVar_after ho hnd

/-- **`lookup_pattern_var` goes by the stem rule.** From any cursor, the
search returns the first entry after it whose pattern matches the target
by the stem rule, and `NULL` when none does; so the loop of
`initialize_file_variables`, started at the first match, defines every
matching entry once, in list order. -/
theorem lookup_pattern_var_stem_rule (hwf : ∀ a p, pv.get a = some p → p.WF)
    (hnd : pv.order.Nodup) {start : Option Nat} {rest : List Nat}
    (hcur : AfterCursor pv start rest) :
    (∀ a, lookupPatternVar pv start t = some a ↔
      ∃ pre post, rest = pre ++ a :: post ∧ StemMatchAt pv t a ∧ ∀ b ∈ pre, ¬ StemMatchAt pv t b) ∧
    (lookupPatternVar pv start t = none ↔ ∀ b ∈ rest, ¬ StemMatchAt pv t b) ∧
    ∀ a st, lookupPatternVar pv none t = some a →
      patternLoop cx pv t pv.order.length a st =
        definePatternVarList cx ((pv.order.filterMap pv.get).filter fun p => StemMatch p (cBytes t)) st := by
  have hm := matchesAt_iff (t := t) hwf
  refine ⟨fun a => ?_, ?_, fun a st ha => ?_⟩
  · rw [lookupPatternVar_cursor hnd hcur, List.find?_eq_some, hm]
    simp only [Bool.not_eq_true', ← Bool.not_eq_true, hm]
    constructor
    · rintro ⟨h, pre, post, rfl, hpre⟩
      exact ⟨pre, post, rfl, h, hpre⟩
    · rintro ⟨pre, post, rfl, h, hpre⟩
      exact ⟨h, pre, post, rfl, hpre⟩
  · rw [lookupPatternVar_cursor hnd hcur, List.find?_eq_none]
    simp only [hm]
  · rw [patternLoop_matching hnd ha, matchingEntries]
    congr 1
    refine List.filter_congr fun p hp => ?_
    obtain ⟨b, -, hb⟩ := List.mem_filterMap.1 hp
    exact Bool.eq_iff_iff.2 ((PatternVar.matches_iff (hwf b p hb) (cBytes t)).trans decide_eq_true_iff.symm)

/-- The matching entries that define `N`, in list order. -/
def matchingEntriesOf (pv : PatternVars) (t N : String) : List PatternVar :=
  (matchingEntries pv t).filter (·.var.name = N)

/-- What the pattern-specific set `s` of a target named `t` binds, name by
name, from the matching entries that define the name: nothing when there
is none; the last one when they are `=` or `:=` definitions of one origin;
the non-empty values joined by single spaces when they are `+=` appends of
one origin that neither comes from the command line nor overrides (once
`-e` has normalised it), away from `MAKEFLAGS`. -/
structure PatternSetBinds (cx : Context) (pv : PatternVars) (t : String) (st : State) (s : SetId) :
    Prop where
  undefined : ∀ N, matchingEntriesOf pv t N = [] → st.read s N = none
  plain : ∀ N o, (∀ p ∈ matchingEntriesOf pv t N,
      (p.var.flavor = .simple ∨ (p.var.flavor = .recursive ∧ p.var.conditional = false)) ∧
        p.var.origin = o) →
    st.read s N = (matchingEntriesOf pv t N).getLast?.map (plainBinding cx.envOverrides)
  append : ∀ N o, N ≠ makeflagsName → o ≠ .command → o ≠ .envOverride →
    normalizeOrigin cx.envOverrides o = o →
    (∀ p ∈ matchingEntriesOf pv t N, (p.var.flavor = .append ∨ p.var.flavor = .appendValue) ∧
      p.var.conditional = false ∧ p.var.origin = o) →
    st.read s N = if matchingEntriesOf pv t N = [] then none
      else some ⟨" ".intercalate (((matchingEntriesOf pv t N).map (·.var.value)).filter (· ≠ "")),
        o, true⟩

theorem mem_matchingEntriesOf {N : String} {p : PatternVar} (hp : p ∈ matchingEntries pv t)
    (hN : p.var.name = N) : p ∈ matchingEntriesOf pv t N :=
  List.mem_filter.2 ⟨hp, by simpa using hN⟩

/-- **Defining the matching entries in an empty set** binds what
`PatternSetBinds` says. -/
theorem patternSetBinds_of_run {n : SetList} {st st' : State} (hcur : st.current.bind st.lists = some n)
    (hwf : TableWF st n.set) (hempty : ∀ N, st.read n.set N = none)
    (h : definePatternVarList cx (matchingEntries pv t) st = some st') :
    PatternSetBinds cx pv t st' n.set where
  undefined N hN := by
    refine ((definePatternVarList_other hcur hwf (fun p hp hpN => ?_) h).2.2).trans (hempty N)
    exact List.not_mem_nil p (hN ▸ mem_matchingEntriesOf hp hpN)
  plain N o hps := by
    rw [definePatternVarList_plain hcur hwf (fun p hp hpN => hps p (mem_matchingEntriesOf hp hpN))
      (by simp [hempty]) h, hempty, Option.or_none]
    rfl
  append N o hN hcmd hovr hnorm hps := by
    rw [definePatternVarList_append hcmd hovr hnorm hcur hwf
      (fun p hp hpN => hps p (mem_matchingEntriesOf hp hpN)) (by simp [hempty]) h, hempty,
      Option.map_none', foldl_appendStep hN]
    show Option.map _ (if (matchingEntriesOf pv t N).map (·.var.value) = [] then _ else _) = _
    by_cases hes : matchingEntriesOf pv t N = []
    · rw [if_pos (by rw [hes]; rfl), if_pos hes]
      rfl
    · rw [if_neg (fun h => hes (List.map_eq_nil_iff.1 h)), if_neg hes]
      rfl

/-- **A target without a matching pattern** is only marked searched. -/
theorem searchPatternVars_none {f : FileId} {file : File} {st st3 : State}
    (hfile : st.files f = some file) (hs : file.patSearched = false)
    (hm : matchingEntries pv file.name = []) (h : searchPatternVars cx pv f st = some st3) :
    st3 = st.setFile f { file with patSearched := true } := by
  obtain ⟨file', hfile', ⟨hs', -⟩ | ⟨-, -, rfl⟩ | ⟨-, a, -, -, ha, -⟩⟩ := searchPatternVars_inv h <;>
    rw [hfile, Option.some.injEq] at hfile' <;> subst hfile'
  · rw [hs] at hs'; cases hs'
  · rfl
  · rw [lookupPatternVar_none_iff.2 hm] at ha; cases ha

/-- **A target with a matching pattern** gets the matching entries defined,
in list order, in a new set recorded as its `pat_variables`; the current
chain is restored. -/
theorem searchPatternVars_found (hnd : pv.order.Nodup) {f : FileId} {file : File} {st st3 : State}
    (hfile : st.files f = some file) (hs : file.patSearched = false)
    (hm : matchingEntries pv file.name ≠ []) (h : searchPatternVars cx pv f st = some st3) :
    ∃ st5, definePatternVarList cx (matchingEntries pv file.name) (patternStart f file st) = some st5 ∧
      BlockFrame (patternStart f file st) st5 ∧
      st3 = { st5 with current := st.current }.setFile f
        { file with patVariables := some st.fresh, patSearched := true } := by
  obtain ⟨file', hfile', ⟨hs', -⟩ | ⟨-, ha, -⟩ | ⟨-, a, st5, file5, ha, h5, hf5, rfl⟩⟩ :=
    searchPatternVars_inv h <;> rw [hfile, Option.some.injEq] at hfile' <;> subst hfile'
  · rw [hs] at hs'; cases hs'
  · exact absurd (lookupPatternVar_none_iff.1 ha) hm
  · obtain ⟨hf, -⟩ := patternLoop_frame (patternStart_current f file st)
      (patternStart_tableWF f file st) h5
    rw [hf.files] at hf5
    simp only [patternStart, createNewVariableSet, setFile, setList, setTable, alloc,
      Function.update_same, Option.some.injEq] at hf5
    subst hf5
    exact ⟨st5, patternLoop_matching hnd ha ▸ h5, hf, rfl⟩

end matching

/-- **What the splice does**: nothing for a target without a
pattern-specific set; otherwise the set's link takes over what followed
the target's link, and the target's link goes to the set. -/
theorem splicePatternVars_inv {f : FileId} {l : ListId} {st st' : State}
    (h : splicePatternVars f l st = some st') :
    ∃ file, st.files f = some file ∧ ((file.patVariables = none ∧ st' = st) ∨
      ∃ pl n pn, file.patVariables = some pl ∧ st.lists l = some n ∧ st.lists pl = some pn ∧
        st' = (st.setList pl { pn with next := n.next, nextIsParent := n.nextIsParent }).setList l
          { n with next := some pl, nextIsParent := false }) := by
  unfold splicePatternVars at h
  obtain ⟨file, hfile, h⟩ := Option.bind_eq_some.1 h
  refine ⟨file, hfile, ?_⟩
  cases hp : file.patVariables with
  | none => rw [hp] at h; exact .inl ⟨rfl, (Option.some.inj h).symm⟩
  | some pl =>
    rw [hp] at h
    obtain ⟨n, hn, h⟩ := Option.bind_eq_some.1 h
    obtain ⟨pn, hpn, h⟩ := Option.bind_eq_some.1 h
    exact .inr ⟨pl, n, pn, rfl, hn, hpn, (Option.some.inj h).symm⟩

theorem PatternSetBinds.of_read {cx : Context} {pv : PatternVars} {t : String} {st st' : State}
    {s : SetId} (hb : PatternSetBinds cx pv t st s) (h : st'.read s = st.read s) :
    PatternSetBinds cx pv t st' s :=
  ⟨fun N => h ▸ hb.undefined N, fun N o => h ▸ hb.plain N o, fun N o => h ▸ hb.append N o⟩

theorem patternStart_read (f : FileId) (file : File) (st : State) (N : String) :
    (patternStart f file st).read st.fresh N = none := by
  simp [patternStart, createNewVariableSet, State.read, State.findSlot, State.table]

/-- What `initialize_file_variables (f, 0)` leaves of the chain of a target
`f` (its record `x` before the call) not searched before, from its own link
`l`: with no matching entry, `pat_variables` stays `NULL` and `l` goes to
the parent's chain (or `global_setlist`) across a parent boundary;
otherwise `pat_variables` is a link between `l` and the parent's chain, to
a set binding what `PatternSetBinds` says. -/
def PatternChain (cx : Context) (pv : PatternVars) (f : FileId) (x : File) (st : State)
    (l : ListId) : Prop :=
  (st.files f).bind File.variablesList = some l ∧
  ∃ n, st.lists l = some n ∧
    if matchingEntries pv x.name = [] then
      (st.files f).bind File.patVariables = none ∧ n.next = parentChain x st ∧ n.nextIsParent = true
    else ∃ pl s, (st.files f).bind File.patVariables = some pl ∧ n.next = some pl ∧
      n.nextIsParent = false ∧ st.lists pl = some ⟨parentChain x st, s, true⟩ ∧
      PatternSetBinds cx pv x.name st s

section chain

variable {cx : Context} {pv : PatternVars}

/-- A file that is not a member of a double-colon group other than its
root goes straight to `initialize_parent`. -/
theorem initializeFileVariables_root {fuel : Nat} {f : FileId} {reading : Bool} {x : File}
    {st st' : State} (hx : st.files f = some x) (hdc : x.doubleColon = none ∨ x.doubleColon = some f)
    (h : initializeFileVariables cx pv (fuel + 1) f reading st = some st') :
    initializeParent cx pv (initializeFileVariables cx pv fuel) f reading
      (fileSetList f x st).1 x (fileSetList f x st).2 = some st' := by
  unfold initializeFileVariables at h
  rw [hx, Option.some_bind] at h
  rcases hdc with hdc | hdc <;> rw [hdc] at h
  · exact h
  · dsimp only at h
    rwa [if_neg (not_not.2 rfl)] at h

/-- **The parent's run leaves the target alone**: it does not reach the
target, so the target's record stays, and the parent is another file. -/
theorem parentRun_frame {fuel : Nat} {f : FileId} {x y : File} {st0 st1 : State}
    (hf0 : st0.files f = some y) (hn : initNext f y = x.parent)
    (h1 : match x.parent with
      | none => st1 = st0
      | some par => initializeFileVariables cx pv fuel par false st0 = some st1) :
    st1.files f = some y ∧ st0.fresh ≤ st1.fresh ∧ ∀ par, x.parent = some par → par ≠ f := by
  cases hp : x.parent with
  | none => rw [hp] at h1; subst h1; exact ⟨hf0, le_rfl, fun _ h => by cases h⟩
  | some par =>
    rw [hp] at h1
    have hnr := not_initReaches_of_next h1 hf0 (hn.trans hp)
    have ih := initializeFileVariables_frame h1
    refine ⟨(ih.files f hnr).trans hf0, ih.fresh_le, fun par' hpar' => ?_⟩
    obtain rfl := Option.some.inj hpar'
    rintro rfl
    exact hnr (.refl _)

/-- The parent's chain, read where only the target's record changed. -/
theorem parentChain_congr {f : FileId} {x : File} {st st' : State}
    (hpar : ∀ par, x.parent = some par → par ≠ f) (h : ∀ g, g ≠ f → st'.files g = st.files g) :
    parentChain x st' = parentChain x st := by
  unfold parentChain
  cases hp : x.parent with
  | none => rfl
  | some par => simp only [h par (hpar par hp)]

/-- **The chain `initialize_parent` builds for a target not searched yet.** -/
theorem initializeParent_pattern_chain (hnd : pv.order.Nodup) {fuel : Nat} {f : FileId}
    {l : ListId} {x : File} {st0 st' : State}
    (hf0 : st0.files f = some { x with variablesList := some l }) (hn : initNext f x = x.parent)
    (hs : x.patSearched = false) (hp : x.patVariables = none) (hl : l < st0.fresh)
    (h : initializeParent cx pv (initializeFileVariables cx pv fuel) f false l x st0 = some st') :
    PatternChain cx pv f x st' l := by
  obtain ⟨st1, h1, n, st3, hn1, h3, h4⟩ := initializeParent_inv h
  obtain ⟨hf1, hfr1, hpar⟩ := parentRun_frame hf0 hn h1
  rw [if_neg Bool.false_ne_true] at h3
  have hf2 : (st1.setList l { n with next := parentChain x st1, nextIsParent := true }).files f =
      some { x with variablesList := some l } := hf1
  by_cases hm : matchingEntries pv x.name = []
  · obtain rfl := searchPatternVars_none hf2 hs hm h3
    obtain ⟨file, hfile, ⟨-, rfl⟩ | ⟨pl, -, -, hpl, -⟩⟩ := splicePatternVars_inv h4 <;>
      simp only [setFile, Function.update_same, Option.some.injEq] at hfile <;> subst hfile
    · refine ⟨by simp, { n with next := parentChain x st1, nextIsParent := true }, by simp, ?_⟩
      rw [if_pos hm]
      exact ⟨by simp [hp], (parentChain_congr hpar fun g hg => by
        simp [Function.update_noteq hg]).symm, rfl⟩
    · simp [hp] at hpl
  · obtain ⟨st5, h5, hb5, rfl⟩ := searchPatternVars_found hnd hf2 hs hm h3
    obtain ⟨file, hfile, ⟨hpl, -⟩ | ⟨pl, n2, pn, hpl, hn2, hpn, rfl⟩⟩ := splicePatternVars_inv h4 <;>
      simp only [setFile, Function.update_same, Option.some.injEq] at hfile <;> subst hfile
    · simp at hpl
    · obtain rfl : pl = st1.fresh := (Option.some.inj hpl).symm
      have hne : l ≠ st1.fresh := Nat.ne_of_lt (lt_of_lt_of_le hl hfr1)
      rw [hb5.lists] at hn2 hpn
      simp only [patternStart, createNewVariableSet, setFile, setList, setTable, alloc,
        Function.update_same, Function.update_noteq hne, Option.some.injEq] at hn2 hpn
      subst hn2 hpn
      refine ⟨by simp, { n with next := some st1.fresh, nextIsParent := false }, by simp, ?_⟩
      rw [if_neg hm]
      refine ⟨st1.fresh, st1.fresh, by simp, rfl, rfl, ?_, ?_⟩
      · simp only [setList, Function.update_same, Function.update_noteq hne.symm]
        exact congrArg _ (congrArg (SetList.mk · _ _) (parentChain_congr hpar fun g hg => by
          simp [hb5.files, patternStart, createNewVariableSet, Function.update_noteq hg]).symm)
      · exact (patternSetBinds_of_run (patternStart_current _ _ _) (patternStart_tableWF _ _ _)
          (patternStart_read _ _ _) h5).of_read rfl

/-- `fileSetList` leaves the target's link below the allocation frontier. -/
theorem fileSetList_lt {f : FileId} {file : File} {st : State}
    (hl : ∀ l, file.variablesList = some l → l < st.fresh) :
    (fileSetList f file st).1 < (fileSetList f file st).2.fresh := by
  unfold fileSetList
  cases hv : file.variablesList with
  | none => simp
  | some l => exact hl l hv

end chain

/-- A `+=` pattern-specific definition of `name` from `origin`. -/
def patternAppend (name value : String) (origin : VariableOrigin) : Variable :=
  { name := name, value := value, fileinfo := Floc.zero, origin := origin, flavor := .append,
    recursive := false, append := false, conditional := false, perTarget := true, special := false,
    exportable := true, exportStatus := .default, privateVar := false }

/-- Target `t` (file 1): no parent, not searched, no link yet. -/
def targetT : File := ⟨"t", none, none, none, none, false⟩

/-- `%.o`, then `a%.o`, each defining `X += 1`. -/
def twoPatterns : PatternVars :=
  createPatternVars [("%.o", 0, patternAppend "X" "1" .file), ("a%.o", 1, patternAppend "X" "1" .file)]

theorem lookup_pattern_var_stem_rule_ao :
    (∀ a p, twoPatterns.get a = some p → p.WF) ∧ twoPatterns.order.Nodup ∧
      AfterCursor twoPatterns none twoPatterns.order ∧
      ((∀ a, lookupPatternVar twoPatterns none "a.o" = some a ↔
        ∃ pre post, twoPatterns.order = pre ++ a :: post ∧ StemMatchAt twoPatterns "a.o" a ∧
          ∀ b ∈ pre, ¬ StemMatchAt twoPatterns "a.o" b) ∧
      (lookupPatternVar twoPatterns none "a.o" = none ↔
        ∀ b ∈ twoPatterns.order, ¬ StemMatchAt twoPatterns "a.o" b) ∧
      ∀ a st, lookupPatternVar twoPatterns none "a.o" = some a →
        patternLoop plainContext twoPatterns "a.o" twoPatterns.order.length a st =
          definePatternVarList plainContext ((twoPatterns.order.filterMap twoPatterns.get).filter
            fun p => StemMatch p (cBytes "a.o")) st) := by
  have hwf : ∀ a p, twoPatterns.get a = some p → p.WF := by
    intro a p h
    have hp : p ∈ twoPatterns.created := List.getElem?_mem h
    rw [twoPatterns, createPatternVars_created] at hp
    simp only [List.map_cons, List.map_nil, List.mem_cons, List.mem_singleton,
      List.not_mem_nil, or_false] at hp
    rcases hp with rfl | rfl <;> exact ⟨rfl, by decide, by decide⟩
  have hnd : twoPatterns.order.Nodup := by decide
  exact ⟨hwf, hnd, rfl, lookup_pattern_var_stem_rule hwf hnd rfl⟩

end MakeVariables
