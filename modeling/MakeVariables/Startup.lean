import MakeVariables.Model.Startup
import MakeVariables.PatternSet
/-!
# The variables made at start-up

`define_automatic_variables` is a run of definitions into the current
set, with two records edited on the way. Read as the map the set gives,
it is `automaticMap`: each definition through the origin gate
(`refDefine`), and `SHELL` made to hold `default_shell` from a makefile
when it came from the environment or is empty
(`defineAutomaticVariables_read`). So after it `SHELL` is bound, never
from the environment, and never empty (`define_automatic_variables_shell`).

`reset_env_override` moves every binding of the global set that came
from the environment to the rank the `-e` flag gives it (`envRank`),
values and flavors kept (`reset_env_override_ranks`).
-/

namespace MakeVariables

open State

/-! ## `define_automatic_variables` as a map -/

/-- What `SHELL` holds once its test has run: `default_shell`, from a
makefile, in place of an empty value or one of the environment. -/
def shellFix (defaultShell : String) (b : Binding) : Binding :=
  if cText b.value = [] || b.origin = .env || b.origin = .envOverride then
    { b with value := defaultShell, origin := .file }
  else b

/-- The map `define_automatic_variables` leaves in the current set, from
the map `m` it finds there. -/
def automaticMap (cx : Context) (sc : StartupContext) (m : TableMap) : TableMap :=
  let m := refDefine cx.envOverrides makelevelName (toString sc.makelevel.toNat) .env false m
  let m := refDefine cx.envOverrides "MAKE_VERSION" (String.mk (versionText sc)) .default false m
  let m := refDefine cx.envOverrides "MAKE_HOST" sc.makeHost .default false m
  let m := refDefine cx.envOverrides "SHELL" sc.defaultShell .default false m
  let m := Function.update m "SHELL" ((m "SHELL").map (shellFix sc.defaultShell))
  let m := refDefine cx.envOverrides "MAKEFILES" "" .default false m
  automaticDefinitions.foldl (fun m d => refDefine cx.envOverrides d.1 d.2 .automatic true m) m

section run

variable {st : State} {s : SetId} {n : SetList}

/-- The record `define_variable_in_set` returns is the record of the set
that carries the name. -/
theorem defineVariableInSet_record (envOverrides : Bool) (name value : String)
    (origin : VariableOrigin) (recursive : Bool) (flocp : Option Floc) :
    (defineVariableInSet envOverrides name value origin recursive (some s) flocp st).1 ∈
        (defineVariableInSet envOverrides name value origin recursive (some s) flocp st).2.table s ∧
      ∃ x, (defineVariableInSet envOverrides name value origin recursive (some s) flocp st).2.vars
          (defineVariableInSet envOverrides name value origin recursive (some s) flocp st).1 = some x ∧
        x.name = name := by
  unfold defineVariableInSet
  simp only [Option.getD_some]
  cases hf : st.findSlot s name with
  | none => simp [State.table]
  | some p =>
    obtain ⟨v, x⟩ := p
    obtain ⟨hv, -, rfl⟩ := findSlot_mem hf
    dsimp only
    split_ifs <;> exact ⟨hv, _, Function.update_same _ _ _, rfl⟩

theorem BlockFrame.current_set {st' : State} (hf : BlockFrame st st')
    (hcur : st.current.bind st.lists = some n) : st'.current.bind st'.lists = some n := by
  rw [hf.current, hf.lists]; exact hcur

/-- **One `define_variable_cname`**: the gate on the current set, and the
record of the name returned. -/
theorem defineVariableCname_spec (hcur : st.current.bind st.lists = some n)
    (hwf : TableWF st n.set) (cx : Context) (name value : String) (origin : VariableOrigin)
    (recursive : Bool) :
    ∃ v st', defineVariableCname cx name value origin recursive st = some (v, st') ∧
      BlockFrame st st' ∧ TableWF st' n.set ∧
      st'.read n.set = refDefine cx.envOverrides name value origin recursive (st.read n.set) ∧
      v ∈ st'.table n.set ∧ ∃ x, st'.vars v = some x ∧ x.name = name := by
  obtain ⟨hwf', hread⟩ := defineVariableInSet_spec cx.envOverrides name value origin recursive none hwf
  exact ⟨_, _, by simp [defineVariableCname, defineVariableLoc, hcur],
    defineVariableInSet_frame _ _ _ _ _ _ _ _, hwf', hread,
    defineVariableInSet_record cx.envOverrides name value origin recursive none⟩

/-- The definitions of the `D` and `F` variables, one after the other. -/
theorem foldlM_defineVariableCname (cx : Context) :
    ∀ (l : List (String × String)) {st : State}, st.current.bind st.lists = some n →
      TableWF st n.set → ∃ st', l.foldlM
          (fun st d => Prod.snd <$> defineVariableCname cx d.1 d.2 .automatic true st) st = some st' ∧
        BlockFrame st st' ∧ TableWF st' n.set ∧
        st'.read n.set =
          l.foldl (fun m d => refDefine cx.envOverrides d.1 d.2 .automatic true m) (st.read n.set)
  | [], st, _, hwf => ⟨st, rfl, BlockFrame.refl st, hwf, rfl⟩
  | d :: l, st, hcur, hwf => by
    obtain ⟨v, st1, h1, f1, w1, r1, -⟩ := defineVariableCname_spec hcur hwf cx d.1 d.2 .automatic true
    obtain ⟨st2, h2, f2, w2, r2⟩ := foldlM_defineVariableCname cx l (f1.current_set hcur) w1
    refine ⟨st2, by rw [List.foldlM_cons, h1]; exact h2, f1.trans f2, w2, ?_⟩
    rw [r2, r1, List.foldl_cons]

/-- The test on the record of `SHELL` edits its binding as `shellFix`
says. -/
theorem shellStep_read (hwf : TableWF st s) {v : VarId} {x : Variable} (hv : v ∈ st.table s)
    (hx : st.vars v = some x) (hn : x.name = "SHELL") (d : String) :
    TableWF (if shellFromEnvironment x then st.setVar v { x with origin := .file, value := d } else st)
        s ∧
      (if shellFromEnvironment x then st.setVar v { x with origin := .file, value := d } else st).read
          s = Function.update (st.read s) "SHELL" ((st.read s "SHELL").map (shellFix d)) := by
  have hr : st.read s "SHELL" = some x.binding := hn ▸ read_of_slot hwf hv hx
  by_cases hc : shellFromEnvironment x
  · have hy : ({ x with origin := .file, value := d } : Variable).name = x.name := rfl
    have hfix : shellFix d x.binding = ({ x with origin := .file, value := d } : Variable).binding :=
      if_pos hc
    rw [if_pos hc]
    refine ⟨hwf.setVar hv hx hy, ?_⟩
    rw [read_setVar hwf hv hx hy, hr, Option.map_some', hfix, hn]
  · rw [if_neg hc, hr]
    refine ⟨hwf, ?_⟩
    have hfix : shellFix d x.binding = x.binding := if_neg hc
    rw [Option.map_some', hfix, ← hr, Function.update_eq_self]

/-- **`define_automatic_variables` refines `automaticMap`.** With a
current set that is well formed and a version text that fits `buf`, the
run ends, leaves the chains, the files and the current link as they were,
and the current set reads as `automaticMap` of what it read. -/
theorem defineAutomaticVariables_read (cx : Context) (sc : StartupContext)
    (hcur : st.current.bind st.lists = some n) (hwf : TableWF st n.set)
    (hfit : (String.mk (versionText sc)).utf8ByteSize < 200) :
    ∃ st', defineAutomaticVariables cx sc st = some st' ∧ BlockFrame st st' ∧ TableWF st' n.set ∧
      st'.read n.set = automaticMap cx sc (st.read n.set) := by
  obtain ⟨_, s1, h1, f1, w1, r1, -⟩ :=
    defineVariableCname_spec hcur hwf cx makelevelName (toString sc.makelevel.toNat) .env false
  obtain ⟨_, s2, h2, f2, w2, r2, -⟩ := defineVariableCname_spec (f1.current_set hcur) w1 cx
    "MAKE_VERSION" (String.mk (versionText sc)) .default false
  obtain ⟨_, s3, h3, f3, w3, r3, -⟩ := defineVariableCname_spec
    (f2.current_set (f1.current_set hcur)) w2 cx "MAKE_HOST" sc.makeHost .default false
  have c3 := f3.current_set (f2.current_set (f1.current_set hcur))
  obtain ⟨v4, s4, h4, f4, w4, r4, hv4, x4, hx4, hn4⟩ :=
    defineVariableCname_spec c3 w3 cx "SHELL" sc.defaultShell .default false
  -- the test on `SHELL`
  obtain ⟨w5, r5⟩ := shellStep_read w4 hv4 hx4 hn4 sc.defaultShell
  set s5 := if shellFromEnvironment x4 then
    s4.setVar v4 { x4 with origin := .file, value := sc.defaultShell } else s4 with hs5
  have f5 : BlockFrame s4 s5 := by
    rw [hs5]; split_ifs
    · exact ⟨rfl, rfl, rfl, le_rfl, fun _ _ h => h⟩
    · exact BlockFrame.refl s4
  obtain ⟨v6, s6, h6, f6, w6, r6, -, x6, hx6, -⟩ := defineVariableCname_spec
    (f5.current_set (f4.current_set c3)) w5 cx "MAKEFILES" "" .default false
  -- `MAKEFILES` is exported when set: the flag is no part of the binding
  obtain ⟨f7, w7, r7⟩ := setVar_flags_spec (y := { x6 with exportStatus := .ifset }) w6 hx6 rfl rfl
  obtain ⟨s8, h8, f8, w8, r8⟩ := foldlM_defineVariableCname cx automaticDefinitions
    ((f7.current_set (f6.current_set (f5.current_set (f4.current_set c3))))) w7
  refine ⟨s8, ?_, f1.trans (f2.trans (f3.trans (f4.trans (f5.trans (f6.trans (f7.trans f8)))))),
    w8, by rw [r8, r7, r6, r5, r4, r3, r2, r1]; rfl⟩
  simp only [defineAutomaticVariables, h1, if_pos hfit, h2, h3, h4, hx4, h6, hx6, Option.bind_eq_bind,
    Option.some_bind, ← hs5]
  exact h8

end run

/-! ## `SHELL` -/

theorem foldl_refDefine_ne {e : Bool} {o : VariableOrigin} {r : Bool} {N : String} :
    ∀ (l : List (String × String)) (m : TableMap), (∀ d ∈ l, N ≠ d.1) →
      l.foldl (fun m d => refDefine e d.1 d.2 o r m) m N = m N
  | [], _, _ => rfl
  | d :: l, m, h => by
    rw [List.foldl_cons, foldl_refDefine_ne l _ fun d' hd' => h d' (List.mem_cons_of_mem _ hd'),
      refDefine_ne (h d (List.mem_cons_self _ _))]

/-- `SHELL` ends as `shellFix` of what its own definition left. -/
theorem automaticMap_shell (cx : Context) (sc : StartupContext) (m : TableMap) :
    ∃ b, automaticMap cx sc m "SHELL" = some (shellFix sc.defaultShell b) := by
  have hne : ∀ d ∈ automaticDefinitions, "SHELL" ≠ d.1 := by decide
  obtain ⟨b, hb⟩ : ∃ b, refDefine cx.envOverrides "SHELL" sc.defaultShell .default false
      (refDefine cx.envOverrides "MAKE_HOST" sc.makeHost .default false
        (refDefine cx.envOverrides "MAKE_VERSION" (String.mk (versionText sc)) .default false
          (refDefine cx.envOverrides makelevelName (toString sc.makelevel.toNat) .env false m)))
      "SHELL" = some b := by
    simp only [refDefine, Function.update_same]; exact ⟨_, rfl⟩
  refine ⟨b, ?_⟩
  simp only [automaticMap]
  rw [foldl_refDefine_ne _ _ hne, refDefine_ne (by decide), Function.update_same, hb]
  rfl

/-- The binding `shellFix` leaves is neither of the environment nor
empty. -/
theorem shellFix_spec {d : String} (hd : cText d ≠ []) (b : Binding) :
    (shellFix d b).origin ≠ .env ∧ (shellFix d b).origin ≠ .envOverride ∧
      cText (shellFix d b).value ≠ [] := by
  unfold shellFix
  split_ifs with hc
  · exact ⟨nofun, nofun, hd⟩
  · simp only [Bool.or_eq_true, decide_eq_true_eq, not_or] at hc
    exact ⟨hc.1.2, hc.2, hc.1.1⟩

/-- **`SHELL` never comes from the environment.** With a current set that
is well formed, a version text that fits `buf` and a `default_shell` that
is not empty, `define_automatic_variables` ends, leaves the chains, the
files and the current link as they were, the current set reads as
`automaticMap` of what it read, and `SHELL` is bound there, with an origin
other than the environment's (with or without `-e`) and a value that is
not empty. -/
theorem define_automatic_variables_shell {st : State} {n : SetList} (cx : Context)
    (sc : StartupContext) (hcur : st.current.bind st.lists = some n) (hwf : TableWF st n.set)
    (hfit : (String.mk (versionText sc)).utf8ByteSize < 200) (hsh : cText sc.defaultShell ≠ []) :
    ∃ st', defineAutomaticVariables cx sc st = some st' ∧ BlockFrame st st' ∧ TableWF st' n.set ∧
      st'.read n.set = automaticMap cx sc (st.read n.set) ∧
      ∃ b, st'.read n.set "SHELL" = some b ∧ b.origin ≠ .env ∧ b.origin ≠ .envOverride ∧
        cText b.value ≠ [] := by
  obtain ⟨st', hrun, hfr, hwf', hread⟩ := defineAutomaticVariables_read cx sc hcur hwf hfit
  obtain ⟨b, hb⟩ := automaticMap_shell cx sc (st.read n.set)
  exact ⟨st', hrun, hfr, hwf', hread, _, by rw [hread, hb], shellFix_spec hsh b⟩

/-- The global set holds `SHELL` from the environment. -/
def shellDemo : State :=
  (defineVariableInSet false "SHELL" "/bin/zsh" .env false (some globalVariableSet) none
    State.initial).2

/-- A start-up with no remote description, on a host shell of `/bin/sh`. -/
def startupDemo : StartupContext := ⟨0, "4.4.1", none, "x86_64-pc-linux-gnu", "/bin/sh"⟩

theorem define_automatic_variables_shell_demo :
    shellDemo.current.bind shellDemo.lists = some ⟨none, globalVariableSet, false⟩ ∧
      TableWF shellDemo (⟨none, globalVariableSet, false⟩ : SetList).set ∧
      (String.mk (versionText startupDemo)).utf8ByteSize < 200 ∧ cText startupDemo.defaultShell ≠ [] ∧
      ∃ st', defineAutomaticVariables plainContext startupDemo shellDemo = some st' ∧
        BlockFrame shellDemo st' ∧ TableWF st' (⟨none, globalVariableSet, false⟩ : SetList).set ∧
        st'.read (⟨none, globalVariableSet, false⟩ : SetList).set =
          automaticMap plainContext startupDemo
            (shellDemo.read (⟨none, globalVariableSet, false⟩ : SetList).set) ∧
        ∃ b, st'.read (⟨none, globalVariableSet, false⟩ : SetList).set "SHELL" = some b ∧
          b.origin ≠ .env ∧ b.origin ≠ .envOverride ∧ cText b.value ≠ [] :=
  ⟨rfl, (defineVariableInSet_spec false "SHELL" "/bin/zsh" .env false none tableWF_initial).1,
    by decide, by decide,
    define_automatic_variables_shell plainContext startupDemo rfl
      (defineVariableInSet_spec false "SHELL" "/bin/zsh" .env false none tableWF_initial).1
      (by decide) (by decide)⟩

/-! ## `reset_env_override` -/

/-- The rank the `-e` flag gives an origin: the environment's two ranks
become `o_env_override` with the flag and `o_env` without; the other
origins keep theirs. -/
def envRank (envOverrides : Bool) : VariableOrigin → VariableOrigin
  | .env | .envOverride => if envOverrides then .envOverride else .env
  | o => o

section rewrite

variable {st st' : State} {g : Variable → Variable}

/-- A slot read after a rewrite of its record under the record's name. -/
theorem slotOf_map (hg : ∀ x, (g x).name = x.name) {u : VarId} (hu : st'.vars u = (st.vars u).map g)
    (n : String) : st'.slotOf n u = (st.slotOf n u).map fun p => (p.1, g p.2) := by
  simp only [slotOf, hu]
  cases st.vars u with
  | none => rfl
  | some x => by_cases hn : x.name = n <;> simp [hn, hg]

theorem findSome?_slotOf_map (hg : ∀ x, (g x).name = x.name) (n : String) :
    ∀ t : List VarId, (∀ u ∈ t, st'.vars u = (st.vars u).map g) →
      t.findSome? (st'.slotOf n) = (t.findSome? (st.slotOf n)).map fun p => (p.1, g p.2)
  | [], _ => rfl
  | u :: t, h => by
    rw [List.findSome?_cons, List.findSome?_cons, slotOf_map hg (h u (List.mem_cons_self _ _)),
      findSome?_slotOf_map hg n t fun w hw => h w (List.mem_cons_of_mem _ hw)]
    cases st.slotOf n u <;> rfl

/-- Records rewritten under their own names: the table stays well formed,
and the slot of each name holds the rewritten record. -/
theorem TableWF.map_vars {s : SetId} (h : TableWF st s) (ht : st'.table s = st.table s)
    (hf : st.fresh ≤ st'.fresh) (hg : ∀ x, (g x).name = x.name)
    (hv : ∀ u ∈ st.table s, st'.vars u = (st.vars u).map g) :
    TableWF st' s ∧ ∀ n, st'.findSlot s n = (st.findSlot s n).map fun p => (p.1, g p.2) := by
  refine ⟨⟨ht ▸ h.nodup, fun u hu => Nat.lt_of_lt_of_le (h.lt_fresh u (ht ▸ hu)) hf,
    fun u hu => ?_, fun u hu w hw x y hx hy hn => ?_⟩,
    fun n => by rw [findSlot, findSlot, ht, findSome?_slotOf_map hg n _ hv]⟩ <;> rw [ht] at *
  · simpa [hv u hu] using h.live u hu
  · rw [hv u hu, Option.map_eq_some'] at hx
    rw [hv w hw, Option.map_eq_some'] at hy
    obtain ⟨x', hx', rfl⟩ := hx
    obtain ⟨y', hy', rfl⟩ := hy
    exact h.name_inj u hu w hw x' y' hx' hy' (by rw [← hg x', ← hg y', hn])

end rewrite

/-- A record moved to the rank `-e` gives its origin. -/
def rankRecord (envOverrides : Bool) (x : Variable) : Variable :=
  { x with origin := envRank envOverrides x.origin }

section reset

variable {st : State} {e : Bool}

theorem envRank_of_ne {o : VariableOrigin} (h : o ≠ if e then .env else .envOverride) :
    envRank e o = o := by
  cases e <;> cases o <;> simp_all [envRank]

/-- One `set_env_override` gives its record the rank `-e` gives its
origin, and changes no other field of the state. -/
theorem setEnvOverride_eq (u : VarId) :
    setEnvOverride e st u =
      { st with vars := fun w => if w = u then (st.vars u).map (rankRecord e) else st.vars w } := by
  unfold setEnvOverride
  cases hx : st.vars u with
  | none =>
    have : (fun w => if w = u then (none : Option Variable) else st.vars w) = st.vars :=
      funext fun w => by by_cases hw : w = u <;> simp [hw, hx]
    simp only [Option.map_none', this]
  | some x =>
    simp only [Option.map_some']
    by_cases ho : x.origin = if e then .env else .envOverride
    · have hr : rankRecord e x = { x with origin := if e then .envOverride else .env } := by
        simp only [rankRecord, ho]; cases e <;> rfl
      rw [if_pos ho, setVar, hr]
      congr 1
      funext w
      by_cases hw : w = u
      · subst hw; simp
      · simp [hw, Function.update_noteq]
    · have hr : rankRecord e x = x := by rw [rankRecord, envRank_of_ne ho]
      have : (fun w => if w = u then some (rankRecord e x) else st.vars w) = st.vars :=
        funext fun w => by by_cases hw : w = u <;> simp [hw, hx, hr]
      rw [if_neg ho, this]

/-- The walk of `reset_env_override` over a list of distinct records: the
records of the list take their rank, nothing else changes. -/
theorem foldl_setEnvOverride_eq : ∀ (l : List VarId) (st : State), l.Nodup →
    l.foldl (setEnvOverride e) st =
      { st with vars := fun w => if w ∈ l then (st.vars w).map (rankRecord e) else st.vars w }
  | [], st, _ => by simp
  | u :: l, st, hnd => by
    rw [List.foldl_cons, foldl_setEnvOverride_eq l _ (List.nodup_cons.1 hnd).2, setEnvOverride_eq]
    congr 1
    funext w
    by_cases hwu : w = u
    · subst hwu; simp [(List.nodup_cons.1 hnd).1]
    · by_cases hwl : w ∈ l <;> simp [hwu, hwl]

/-- **`reset_env_override` moves the environment's bindings to the rank
`-e` gives them.** On a well-formed global set it keeps the set well
formed, rewrites each binding's origin to `envRank` of it, values and
flavors kept, and touches no record outside the global set. -/
theorem reset_env_override_ranks (e : Bool) (h : TableWF st globalVariableSet) :
    TableWF (resetEnvOverride e st) globalVariableSet ∧
      (∀ n, (resetEnvOverride e st).read globalVariableSet n =
        (st.read globalVariableSet n).map fun b => { b with origin := envRank e b.origin }) ∧
      ∀ u ∉ st.table globalVariableSet, (resetEnvOverride e st).vars u = st.vars u := by
  have hst : resetEnvOverride e st =
      { st with vars := fun w => if w ∈ st.table globalVariableSet then (st.vars w).map (rankRecord e)
                                 else st.vars w } :=
    foldl_setEnvOverride_eq _ st h.nodup
  have hv : ∀ u ∈ st.table globalVariableSet, (resetEnvOverride e st).vars u =
      (st.vars u).map (rankRecord e) := fun u hu => by rw [hst]; simp [hu]
  obtain ⟨hwf, hslot⟩ := h.map_vars
    (show (resetEnvOverride e st).table globalVariableSet = st.table globalVariableSet by rw [hst]; rfl)
    (show st.fresh ≤ (resetEnvOverride e st).fresh by rw [hst])
    (fun x => (rfl : (rankRecord e x).name = x.name)) hv
  refine ⟨hwf, fun n => ?_, fun u hu => by rw [hst]; simp [hu]⟩
  simp only [State.read, hslot, Option.map_map]
  rfl

end reset

theorem reset_env_override_ranks_demo :
    TableWF shellDemo globalVariableSet ∧
      (TableWF (resetEnvOverride true shellDemo) globalVariableSet ∧
        (∀ n, (resetEnvOverride true shellDemo).read globalVariableSet n =
          (shellDemo.read globalVariableSet n).map fun b => { b with origin := envRank true b.origin }) ∧
        ∀ u ∉ shellDemo.table globalVariableSet, (resetEnvOverride true shellDemo).vars u = shellDemo.vars u) :=
  ⟨(defineVariableInSet_spec false "SHELL" "/bin/zsh" .env false none tableWF_initial).1,
    reset_env_override_ranks true
      (defineVariableInSet_spec false "SHELL" "/bin/zsh" .env false none tableWF_initial).1⟩

end MakeVariables
