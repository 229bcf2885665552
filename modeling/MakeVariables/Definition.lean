import MakeVariables.PatternSet
/-!
# Definitions — the values `do_variable_definition` computes

The append path and `:::=`, each against what it is meant to compute.

The append path (`append_definition_value`) pastes the new text after the
old value with one blank between, leaves the state as it is when the new
text comes out empty, keeps the old record's recursiveness, and cuts
`MAKEFLAGS` before its first `" -- "` (`prefixBefore_cutBefore`: `strstr`
finds the first occurrence). What it writes fits the buffer it allocates.

`:::=` doubles every `$` of the expansion (`expand_definition_doubles`):
a run of `$` in the result is always even, undoubling gives the
expansion back, and the definition is recursive, so one expansion of the
stored value reproduces the text. Byte counts are the UTF-8 sizes
`strlen` sees (`utf8ByteSize_eq`).
-/

namespace MakeVariables

/-- `o` is `s` cut just before the first occurrence of `sep`, or the
whole of `s` when `sep` does not occur in it. -/
def CutBefore (sep s o : List Char) : Prop :=
  (∃ rest, s = o ++ sep ++ rest ∧ ∀ i < o.length, ¬ sep <+: s.drop i) ∨
    ((∀ i, ¬ sep <+: s.drop i) ∧ o = s)

/-- **`strstr` finds the first occurrence.** -/
theorem prefixBefore_cutBefore (sep : List Char) :
    ∀ s : List Char, CutBefore sep s ((prefixBefore sep s).getD s)
  | [] => by
    by_cases h : sep = []
    · subst h; exact .inl ⟨[], by simp [prefixBefore], fun i hi => absurd hi (by simp [prefixBefore])⟩
    · refine .inr ⟨fun i hp => h (List.prefix_nil.1 (by simpa using hp)), by simp [prefixBefore, h]⟩
  | c :: cs => by
    by_cases hp : sep <+: c :: cs
    · obtain ⟨rest, hrest⟩ := hp
      refine .inl ⟨rest, ?_, fun i hi => absurd hi (by simp [prefixBefore, List.isPrefixOf_iff_prefix.2 ⟨rest, hrest⟩])⟩
      simp [prefixBefore, List.isPrefixOf_iff_prefix.2 ⟨rest, hrest⟩, hrest]
    · have hne : sep.isPrefixOf (c :: cs) = false :=
        Bool.eq_false_iff.2 fun h => hp (List.isPrefixOf_iff_prefix.1 h)
      have hget : (prefixBefore sep (c :: cs)).getD (c :: cs) = c :: (prefixBefore sep cs).getD cs := by
        simp only [prefixBefore, hne, Bool.false_eq_true, if_false]
        cases prefixBefore sep cs <;> rfl
      rw [hget]
      rcases prefixBefore_cutBefore sep cs with ⟨rest, h1, h2⟩ | ⟨h1, h2⟩
      · refine .inl ⟨rest, congrArg (List.cons c) h1, fun i hi => ?_⟩
        cases i with
        | zero => exact hp
        | succ j => exact h2 j (by simpa using hi)
      · refine .inr ⟨fun i => ?_, by rw [h2]⟩
        cases i with
        | zero => exact hp
        | succ j => exact h1 j

theorem CutBefore.isPrefix {sep s o : List Char} (h : CutBefore sep s o) : o <+: s := by
  rcases h with ⟨rest, rfl, -⟩ | ⟨-, rfl⟩
  · exact ⟨sep ++ rest, by simp⟩
  · exact List.prefix_refl _

/-- `strlen`: the bytes of a string's UTF-8 encoding. -/
theorem utf8ByteSize_eq (s : String) :
    s.utf8ByteSize = (s.data.flatMap String.utf8EncodeChar).length := by
  rw [← String.size_toUTF8]; rfl

theorem utf8ByteSize_append (s t : String) :
    (s ++ t).utf8ByteSize = s.utf8ByteSize + t.utf8ByteSize := by
  simp [utf8ByteSize_eq]

theorem utf8ByteSize_le_of_prefix {l l' : List Char} (h : l <+: l') :
    (String.mk l).utf8ByteSize ≤ (String.mk l').utf8ByteSize := by
  obtain ⟨t, rfl⟩ := h
  simp [utf8ByteSize_eq]

/-- **The value the append path pastes together**: the new text alone
after an empty old value, and otherwise the kept part of the old value, a
blank and the new text, the kept part being the old value cut before its
first `" -- "` for `MAKEFLAGS` and all of it for any other name. -/
theorem appendValue_spec (varname old new : String) :
    ∃ kept : List Char,
      appendValue varname old new = (if old = "" then new else String.mk kept ++ " " ++ new) ∧
      (varname = makeflagsName → CutBefore " -- ".toList old.toList kept) ∧
      (varname ≠ makeflagsName → kept = old.toList) ∧ (String.mk kept).utf8ByteSize ≤ old.utf8ByteSize := by
  by_cases hN : varname = makeflagsName
  · have hc := prefixBefore_cutBefore " -- ".toList old.toList
    refine ⟨_, ?_, fun _ => hc, fun h => absurd hN h, utf8ByteSize_le_of_prefix hc.isPrefix⟩
    unfold appendValue
    split_ifs
    · rfl
    · simp only [hN, if_true]
      congr 2
      cases prefixBefore " -- ".toList old.toList <;> rfl
  · refine ⟨old.toList, ?_, fun h => absurd h hN, fun _ => rfl, Nat.le_refl _⟩
    simp [appendValue, hN]

/-- The lookup of the append path of `do_variable_definition`: the old
record (through `lookup_variable` for a global definition, in the target
set otherwise), the `append` flag, whether the command-line or `-e`
override of a pattern append applies, and the state after the lookup. -/
def appendOld (varname : String) (scope : VariableScope) (target : Option SetId) (st : State) :
    Option (Option VarId × Bool × Bool × State) :=
  match scope, target with
  | .global, _ => (lookupVariable varname st).map fun (v, st) => (v, false, false, st)
  | _, some s =>
    match lookupVariableInSet varname s st with
    | none => some (none, true, false, st)
    | some v =>
      let x := st.vars v
      let ov : Bool := scope == .pattern &&
        (x.map Variable.origin == some .envOverride || x.map Variable.origin == some .command)
      some (some v, if ov then true else ((x.map Variable.append).getD false), ov, st)
  | _, none => none

/-- The rest of the append path, once the lookup is made. -/
def appendWith (cx : Context) (flocp : Option Floc) (varname value : String)
    (origin : VariableOrigin) (flavor : VariableFlavor) (conditional : Bool)
    (target : Option SetId) (old : Option VarId) (append override : Bool) (st : State) :
    Option (VarId × State) :=
  let finish := storeDefinition cx flocp varname origin conditional target
  match old with
  | none => finish value .recursive append st
  | some v =>
    if override then finish value .recursive append st
    else
      match st.vars v with
      | none => none
      | some x =>
        let flavor := if x.recursive then VariableFlavor.recursive else flavor
        let val := if x.recursive ∨ flavor = .appendValue then value else cx.expand st value
        if val = "" then
          if x.special then some (setSpecialVar v st) else some (v, st)
        else finish (appendValue varname x.value val) flavor append st

theorem appendDefinition_eq (cx : Context) (flocp : Option Floc) (varname value : String)
    (origin : VariableOrigin) (flavor : VariableFlavor) (conditional : Bool)
    (scope : VariableScope) (target : Option SetId) (st : State) :
    appendDefinition cx flocp varname value origin flavor conditional scope target st =
      (appendOld varname scope target st).bind fun (old, append, override, st) =>
        appendWith cx flocp varname value origin flavor conditional target old append override st :=
  rfl

/-- The lookup of the append path changes the state only through
`lookup_special_var`, on a special record it finds. -/
theorem appendOld_state {varname : String} {scope : VariableScope} {target : Option SetId}
    {st st1 : State} {old : Option VarId} {append override : Bool}
    (h : appendOld varname scope target st = some (old, append, override, st1))
    (hns : ∀ v x, old = some v → st.vars v = some x → x.special = false) : st1 = st := by
  unfold appendOld at h
  split at h
  · obtain ⟨⟨r, st2⟩, hl, he⟩ := Option.map_eq_some'.1 h
    simp only [Prod.mk.injEq] at he
    obtain ⟨rfl, -, -, rfl⟩ := he
    obtain ⟨r', -, hr⟩ := Option.map_eq_some'.1 hl
    cases r' with
    | none => cases hr; rfl
    | some v =>
      dsimp only at hr
      split_ifs at hr with hsp
      · obtain ⟨rfl, -⟩ := Prod.mk.inj hr
        cases hx : st.vars v with
        | none => simp [hx] at hsp
        | some x => simp [hx, hns v x rfl hx] at hsp
      · exact (Prod.mk.inj hr).2.symm
  · split at h <;> cases h <;> rfl
  · cases h

/-- **The append path of `do_variable_definition`.** With no old record,
the name is defined recursive with the new text. With one, and no
override, the new text is expanded unless the old record is recursive or
the flavor is `f_append_value`; an empty result leaves the state as the
lookup left it, and any other is pasted after the old value
(`appendValue_spec`) into a definition that is recursive exactly when the
old record is, and that fits the `oldlen + 1 + vallen + 1` bytes
allocated. -/
theorem append_definition_value {cx : Context} {flocp : Option Floc} {varname value : String}
    {origin : VariableOrigin} {flavor : VariableFlavor} {conditional : Bool}
    {scope : VariableScope} {target : Option SetId} {st : State}
    (hfl : flavor = .append ∨ flavor = .appendValue) :
    (∀ append override st1, appendOld varname scope target st = some (none, append, override, st1) →
      appendDefinition cx flocp varname value origin flavor conditional scope target st =
        storeDefinition cx flocp varname origin conditional target value .recursive append st) ∧
    ∀ v x append st1, appendOld varname scope target st = some (some v, append, false, st1) →
      st.vars v = some x → x.special = false →
      let u := if x.recursive ∨ flavor = .appendValue then value else cx.expand st value
      (u = "" → appendDefinition cx flocp varname value origin flavor conditional scope target st =
        some (v, st)) ∧
      (u ≠ "" → ∃ (kept : List Char) (fl : VariableFlavor),
        appendDefinition cx flocp varname value origin flavor conditional scope target st =
          storeDefinition cx flocp varname origin conditional target
            (if x.value = "" then u else String.mk kept ++ " " ++ u) fl append st ∧
        (varname = makeflagsName → CutBefore " -- ".toList x.value.toList kept) ∧
        (varname ≠ makeflagsName → kept = x.value.toList) ∧
        (fl = .recursive ∨ fl = .expand ↔ x.recursive = true) ∧
        (if x.value = "" then u else String.mk kept ++ " " ++ u).utf8ByteSize + 1 ≤
          x.value.utf8ByteSize + 1 + u.utf8ByteSize + 1) := by
  refine ⟨fun append override st1 h => ?_, fun v x append st1 h hx hns => ?_⟩
  · obtain rfl := appendOld_state h fun _ _ hv => by cases hv
    rw [appendDefinition_eq, h]; rfl
  obtain rfl := appendOld_state h fun v' x' hv hx' => by
    cases hv; rw [hx] at hx'; cases hx'; exact hns
  intro u
  rw [appendDefinition_eq, h, Option.some_bind]
  have hu : (if x.recursive ∨ (if x.recursive then VariableFlavor.recursive else flavor) = .appendValue
      then value else cx.expand st1 value) = u := by
    simp only [u]; cases x.recursive <;> simp
  simp only [appendWith, Bool.false_eq_true, if_false, hx, hu]
  refine ⟨fun h0 => by simp [h0, setSpecialVar], fun h0 => ?_⟩
  obtain ⟨kept, hval, hcut, hkeep, hsize⟩ := appendValue_spec varname x.value u
  refine ⟨kept, _, by rw [if_neg h0, hval], hcut, hkeep, ?_, ?_⟩
  · rcases hfl with rfl | rfl <;> cases x.recursive <;> simp
  · split_ifs
    · omega
    · simp only [utf8ByteSize_append, show (" " : String).utf8ByteSize = 1 from rfl]
      omega

/-- `X += b` as a global definition where `X = a` is defined: the lookup
finds `X`'s record, `1`, which is not special. -/
theorem append_definition_value_x :
    appendOld "X" .global none definedX = some (some 1, false, false, definedX) ∧
    (definedX.vars 1).map Variable.special = some false ∧
    ((.append : VariableFlavor) = .append ∨ (.append : VariableFlavor) = .appendValue) ∧
    (∀ append override st1,
      appendOld "X" .global none definedX = some (none, append, override, st1) →
      appendDefinition plainContext none "X" "b" .file .append false .global none definedX =
        storeDefinition plainContext none "X" .file false none "b" .recursive append definedX) ∧
    ∀ v x append st1,
      appendOld "X" .global none definedX = some (some v, append, false, st1) →
      definedX.vars v = some x → x.special = false →
      let u := if x.recursive ∨ (.append : VariableFlavor) = .appendValue then "b"
        else plainContext.expand definedX "b"
      (u = "" → appendDefinition plainContext none "X" "b" .file .append false .global none
        definedX = some (v, definedX)) ∧
      (u ≠ "" → ∃ (kept : List Char) (fl : VariableFlavor),
        appendDefinition plainContext none "X" "b" .file .append false .global none definedX =
          storeDefinition plainContext none "X" .file false none
            (if x.value = "" then u else String.mk kept ++ " " ++ u) fl append definedX ∧
        ("X" = makeflagsName → CutBefore " -- ".toList x.value.toList kept) ∧
        ("X" ≠ makeflagsName → kept = x.value.toList) ∧
        (fl = .recursive ∨ fl = .expand ↔ x.recursive = true) ∧
        (if x.value = "" then u else String.mk kept ++ " " ++ u).utf8ByteSize + 1 ≤
          x.value.utf8ByteSize + 1 + u.utf8ByteSize + 1) :=
  ⟨rfl, rfl, Or.inl rfl, append_definition_value (Or.inl rfl)⟩

/-! ## `:::=` -/

/-- The lengths of the maximal runs of `$` in a text, in order, the
current run being `k` long. -/
def dollarRunsFrom : Nat → List Char → List Nat
  | k, [] => if k = 0 then [] else [k]
  | k, c :: cs =>
    if c = '$' then dollarRunsFrom (k + 1) cs
    else if k = 0 then dollarRunsFrom 0 cs else k :: dollarRunsFrom 0 cs

/-- The lengths of the maximal runs of `$` in a text. -/
def dollarRuns (l : List Char) : List Nat := dollarRunsFrom 0 l

/-- One recursive expansion of a text whose only references are `$$`:
each `$$`, read from the left, becomes `$`. -/
def undouble : List Char → List Char
  | '$' :: '$' :: cs => '$' :: undouble cs
  | c :: cs => c :: undouble cs
  | [] => []

theorem undouble_cons {c : Char} (hc : c ≠ '$') (cs : List Char) :
    undouble (c :: cs) = c :: undouble cs :=
  undouble.eq_2 c cs fun _ h _ => hc h

/-- The `:::=` loop on a list of characters. -/
def doubleDollarsList (l : List Char) : List Char :=
  l.flatMap fun c => if c = '$' then ['$', '$'] else [c]

theorem undouble_doubleDollarsList : ∀ l : List Char, undouble (doubleDollarsList l) = l
  | [] => rfl
  | c :: cs => by
    by_cases hc : c = '$'
    · subst hc
      simp only [doubleDollarsList, List.flatMap_cons, if_true, List.cons_append, List.nil_append]
      rw [undouble, ← doubleDollarsList, undouble_doubleDollarsList cs]
    · simp only [doubleDollarsList, List.flatMap_cons, hc, if_false, List.cons_append, List.nil_append]
      rw [undouble_cons hc, ← doubleDollarsList, undouble_doubleDollarsList cs]

theorem dollarRunsFrom_doubleDollarsList :
    ∀ (l : List Char) (k : Nat), k % 2 = 0 → ∀ n ∈ dollarRunsFrom k (doubleDollarsList l), n % 2 = 0
  | [], k, hk => by
    intro n hn
    simp only [doubleDollarsList, List.flatMap_nil, dollarRunsFrom] at hn
    split_ifs at hn
    · cases hn
    · rw [List.mem_singleton.1 hn]; exact hk
  | c :: cs, k, hk => by
    by_cases hc : c = '$'
    · subst hc
      simp only [doubleDollarsList, List.flatMap_cons, if_true, List.cons_append, List.nil_append]
      simp only [dollarRunsFrom, if_true]
      exact dollarRunsFrom_doubleDollarsList cs (k + 2) (by omega)
    · simp only [doubleDollarsList, List.flatMap_cons, hc, if_false, List.cons_append,
        List.nil_append]
      intro n hn
      simp only [dollarRunsFrom, hc, if_false] at hn
      split_ifs at hn
      · exact dollarRunsFrom_doubleDollarsList cs 0 rfl n hn
      · rcases List.mem_cons.1 hn with rfl | hn
        · exact hk
        · exact dollarRunsFrom_doubleDollarsList cs 0 rfl n hn

theorem utf8Len_doubleDollarsList : ∀ l : List Char,
    ((doubleDollarsList l).flatMap String.utf8EncodeChar).length ≤
      2 * (l.flatMap String.utf8EncodeChar).length
  | [] => le_refl 0
  | c :: cs => by
    have ih := utf8Len_doubleDollarsList cs
    by_cases hc : c = '$'
    · subst hc
      simp only [doubleDollarsList, List.flatMap_cons, if_true, List.cons_append, List.nil_append,
        List.flatMap_cons, List.length_append] at ih ⊢
      have : (String.utf8EncodeChar '$').length = 1 := rfl
      omega
    · simp only [doubleDollarsList, List.flatMap_cons, hc, if_false, List.cons_append,
        List.nil_append, List.length_append, List.flatMap_nil, List.append_nil] at ih ⊢
      omega

/-- A `:::=` definition hands `storeDefinition` the doubled expansion, in
the global set for a global definition and in the current set otherwise. -/
theorem doVariableDefinition_expand {cx : Context} {flocp : Option Floc} {varname value : String}
    {origin : VariableOrigin} {scope : VariableScope} {st st' : State} {v : VarId} {s : SetId}
    (hs : (scope = .global ∧ s = globalVariableSet) ∨
      (scope ≠ .global ∧ (st.current.bind st.lists).map SetList.set = some s))
    (h : doVariableDefinition cx flocp varname value origin .expand false scope st = some (v, st')) :
    storeDefinition cx flocp varname origin false (some s) (doubleDollars (cx.expand st value))
      .expand false st = some (v, st') := by
  simp only [doVariableDefinition, Bool.false_eq_true, if_false, Option.some_bind] at h
  rcases hs with ⟨rfl, rfl⟩ | ⟨hsc, hcur⟩
  · exact h
  · obtain ⟨n, hn, rfl⟩ := Option.map_eq_some'.1 hcur
    cases scope with
    | global => exact absurd rfl hsc
    | target | pattern => simpa [hn] using h

/-- **`:::=`**: the value stored is the expansion `t` with every `$`
doubled. It has at most twice the bytes of `t`, so it fits the
`2 * strlen (t) + 1` allocated; every maximal run of `$` in it is even;
turning each `$$` back into `$` from the left gives `t`; and it is
defined as a recursive binding, in the global set for a global definition
and in the current set otherwise. -/
theorem expand_definition_doubles {cx : Context} {flocp : Option Floc} {varname value : String}
    {origin : VariableOrigin} {scope : VariableScope} {st st' : State} {v : VarId} {s : SetId}
    (hs : (scope = .global ∧ s = globalVariableSet) ∨
      (scope ≠ .global ∧ (st.current.bind st.lists).map SetList.set = some s))
    (hwf : TableWF st s)
    (h : doVariableDefinition cx flocp varname value origin .expand false scope st = some (v, st')) :
    (doubleDollars (cx.expand st value)).utf8ByteSize + 1 ≤ 2 * (cx.expand st value).utf8ByteSize + 1 ∧
      (∀ n ∈ dollarRuns (doubleDollars (cx.expand st value)).toList, n % 2 = 0) ∧
      undouble (doubleDollars (cx.expand st value)).toList = (cx.expand st value).toList ∧
      st'.read s = refDefine cx.envOverrides varname (doubleDollars (cx.expand st value)) origin true
        (st.read s) := by
  refine ⟨?_, dollarRunsFrom_doubleDollarsList _ 0 rfl, undouble_doubleDollarsList _,
    (storeDefinition_spec hwf (doVariableDefinition_expand hs h)).2.2⟩
  have := utf8Len_doubleDollarsList (cx.expand st value).toList
  rw [utf8ByteSize_eq, utf8ByteSize_eq]
  exact Nat.add_le_add_right this 1

theorem expand_definition_doubles_x :
    ∃ v st', ((VariableScope.global = .global ∧ globalVariableSet = globalVariableSet) ∨
        (VariableScope.global ≠ .global ∧
          (State.initial.current.bind State.initial.lists).map SetList.set = some globalVariableSet)) ∧
      TableWF State.initial globalVariableSet ∧
      doVariableDefinition plainContext none "X" "a$b" .file .expand false .global State.initial =
        some (v, st') ∧
      (doubleDollars (plainContext.expand State.initial "a$b")).utf8ByteSize + 1 ≤
        2 * (plainContext.expand State.initial "a$b").utf8ByteSize + 1 ∧
      (∀ n ∈ dollarRuns (doubleDollars (plainContext.expand State.initial "a$b")).toList, n % 2 = 0) ∧
      undouble (doubleDollars (plainContext.expand State.initial "a$b")).toList =
        (plainContext.expand State.initial "a$b").toList ∧
      st'.read globalVariableSet = refDefine plainContext.envOverrides "X"
        (doubleDollars (plainContext.expand State.initial "a$b")) .file true
        (State.initial.read globalVariableSet) :=
  ⟨_, _, .inl ⟨rfl, rfl⟩, tableWF_initial, rfl,
    expand_definition_doubles (.inl ⟨rfl, rfl⟩) tableWF_initial rfl⟩

end MakeVariables
