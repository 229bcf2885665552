import MakeVariables.Model.Pattern
import Mathlib.Data.List.Sort
/-!
# `pattern_vars` — shortest patterns first, definitions in order

`create_pattern_var` keeps `pattern_vars` sorted by pattern length and,
among patterns of one length, in definition order: the list is the stable
sort by length of the entries in creation order (`ByLen`,
`createPatternVars_stable_by_len`). Its fast path, which links a new entry
in after `last_pattern_vars[len]`, puts it exactly where the scan the
comment describes would (`createPatternVar_eq_byScan`): the static keeps
pointing at the last entry of each length (`PatternInv`).

Lengths are `strlen`s, so the order is by byte length. The test
`lookup_pattern_var` puts an entry to, with its stem found by pointer
arithmetic and its suffix compared first byte first, is the stem rule on
bytes: the target is the pattern's bytes before the `%`, a non-empty stem,
and the bytes after it (`PatternVar.matches_iff`).
-/

namespace MakeVariables

/-- The order `pattern_vars` keeps: by length, then by creation. -/
def ByLen (key : Nat → Nat) (a b : Nat) : Prop := key a < key b ∨ (key a = key b ∧ a < b)

/-- `create_pattern_var` with the scan alone, for every length: the place
the comment of `create_pattern_var` gives a new entry, "at the end of the
pack" of its length. -/
def createPatternVarByScan (target : String) (percent : Nat) (var : Variable) (pv : PatternVars) :
    PatternVars :=
  { created := pv.created ++ [⟨target, strlen target, percent + 1, var⟩]
    order := insertByLen pv.lenOf pv.created.length (strlen target) pv.order
    last := if strlen target < 256 then Function.update pv.last (strlen target) (some pv.created.length)
      else pv.last }

/-! ## The scan and the fast path on a sorted list -/

section insert

variable {key : Nat → Nat} {p len : Nat}

theorem insertByLen_perm (l : List Nat) : List.Perm (insertByLen key p len l) (p :: l) := by
  induction l with
  | nil => rfl
  | cons a l ih =>
    unfold insertByLen
    split_ifs
    · rfl
    · exact (ih.cons a).trans (List.Perm.swap p a l)

theorem mem_insertByLen {b : Nat} {l : List Nat} : b ∈ insertByLen key p len l ↔ b = p ∨ b ∈ l := by
  rw [(insertByLen_perm l).mem_iff, List.mem_cons]

/-- The scan reads the lengths of the entries it passes only. -/
theorem insertByLen_congr {key' : Nat → Nat} {l : List Nat} (h : ∀ a ∈ l, key' a = key a) :
    insertByLen key' p len l = insertByLen key p len l := by
  induction l with
  | nil => rfl
  | cons a l ih =>
    simp only [insertByLen, h a (List.mem_cons_self a l),
      ih fun b hb => h b (List.mem_cons_of_mem a hb)]

/-- **The scan keeps the order**: a new entry, numbered after every entry
there, goes after the entries no longer than it and before the longer
ones. -/
theorem insertByLen_sorted (hkey : key p = len) {l : List Nat} (hl : l.Sorted (ByLen key))
    (hp : ∀ a ∈ l, a < p) : (insertByLen key p len l).Sorted (ByLen key) := by
  induction l with
  | nil => exact List.sorted_singleton p
  | cons a l ih =>
    obtain ⟨ha, hl⟩ := List.sorted_cons.1 hl
    unfold insertByLen
    split_ifs with hlt
    · refine List.sorted_cons.2 ⟨fun b hb => ?_, List.sorted_cons.2 ⟨ha, hl⟩⟩
      rcases List.mem_cons.1 hb with rfl | hb
      · exact .inl (hkey ▸ hlt)
      · rcases ha b hb with h | h <;> exact .inl (by omega)
    · refine List.sorted_cons.2 ⟨fun b hb => ?_, ih hl fun b hb => hp b (List.mem_cons_of_mem a hb)⟩
      rcases mem_insertByLen.1 hb with rfl | hb
      · have := hp a (List.mem_cons_self a l)
        by_cases heq : key a = key b
        · exact .inr ⟨heq, this⟩
        · exact .inl (by omega)
      · exact ha b hb

/-- **The fast path is the scan**: after the last entry of a length, the
next one is longer, so linking a new entry of that length in after it is
what the scan does. -/
theorem insertAfter_eq_insertByLen {q : Nat} {l : List Nat} (hl : l.Sorted (ByLen key))
    (hq : q ∈ l) (hkq : key q = len) (hmax : ∀ b ∈ l, key b = len → b ≤ q) :
    insertAfter q p l = insertByLen key p len l := by
  induction l with
  | nil => cases hq
  | cons a l ih =>
    obtain ⟨ha, hl⟩ := List.sorted_cons.1 hl
    by_cases haq : a = q
    · subst haq
      have hnext : ∀ b ∈ l, len < key b := fun b hb => by
        have := hmax b (List.mem_cons_of_mem _ hb)
        rcases ha b hb with h | h <;> omega
      have hrest : insertByLen key p len l = p :: l := by
        cases l with
        | nil => rfl
        | cons b l => simp [insertByLen, hnext b (List.mem_cons_self b l)]
      simp [insertAfter, insertByLen, hkq, hrest]
    · have hq' : q ∈ l := (List.mem_cons.1 hq).resolve_left (Ne.symm haq)
      have hle : ¬ len < key a := by rcases ha q hq' with h | h <;> omega
      simp only [insertAfter, insertByLen, haq, hle, if_false,
        ih hl hq' fun b hb => hmax b (List.mem_cons_of_mem a hb)]

end insert

/-! ## The invariant of `pattern_vars` and `last_pattern_vars` -/

/-- What `create_pattern_var` keeps: every created entry once, in `ByLen`
order, and `last_pattern_vars[len]`, when set, at the last entry of that
length. -/
structure PatternInv (pv : PatternVars) : Prop where
  perm : List.Perm pv.order (List.range pv.created.length)
  sorted : pv.order.Sorted (ByLen pv.lenOf)
  last : ∀ len q, len < 256 → pv.last len = some q →
    q ∈ pv.order ∧ pv.lenOf q = len ∧ ∀ b ∈ pv.order, pv.lenOf b = len → b ≤ q

theorem patternInv_empty : PatternInv .empty :=
  ⟨List.Perm.refl _, List.sorted_nil, fun _ _ _ h => by cases h⟩

/-- A new entry is numbered after every entry before it, and only its own
length is new. -/
theorem lenOf_of_created {pv pv' : PatternVars} {x : PatternVar}
    (h : pv'.created = pv.created ++ [x]) (a : Nat) :
    pv'.lenOf a = if a = pv.created.length then x.len else pv.lenOf a := by
  simp only [PatternVars.lenOf, PatternVars.get, h]
  split_ifs with ha
  · simp [ha]
  · rcases Nat.lt_or_ge a pv.created.length with hlt | hge
    · rw [List.getElem?_append_left hlt]
    · rw [List.getElem?_eq_none (by simp; omega), List.getElem?_eq_none hge]

theorem PatternInv.lt {pv : PatternVars} (h : PatternInv pv) {a : Nat} (ha : a ∈ pv.order) :
    a < pv.created.length :=
  List.mem_range.1 (h.perm.mem_iff.1 ha)

/-- **The fast path of `create_pattern_var` is the scan**, in every state
the invariant holds of. -/
theorem createPatternVar_eq_byScan {pv : PatternVars} (h : PatternInv pv) (target : String)
    (percent : Nat) (var : Variable) :
    createPatternVar target percent var pv = createPatternVarByScan target percent var pv := by
  simp only [createPatternVar, createPatternVarByScan, PatternVars.mk.injEq, and_true, true_and]
  split_ifs with hnil hlen
  · rw [hnil]; rfl
  · cases hq : pv.last (strlen target) with
    | none => rfl
    | some q =>
      obtain ⟨hq, hkq, hmax⟩ := h.last _ q hlen hq
      exact insertAfter_eq_insertByLen h.sorted hq hkq hmax
  · rfl

/-- **One call keeps the invariant.** -/
theorem PatternInv.create {pv : PatternVars} (h : PatternInv pv) (target : String) (percent : Nat)
    (var : Variable) : PatternInv (createPatternVar target percent var pv) := by
  rw [createPatternVar_eq_byScan h]
  set pv' := createPatternVarByScan target percent var pv
  set p := pv.created.length
  set len := strlen target
  have hkey := @lenOf_of_created pv pv' ⟨target, len, percent + 1, var⟩ rfl
  have hold : ∀ a ∈ pv.order, pv'.lenOf a = pv.lenOf a := fun a ha => by
    rw [hkey, if_neg (h.lt ha).ne]
  have hp : pv'.lenOf p = len := by rw [hkey, if_pos rfl]
  have horder : pv'.order = insertByLen pv.lenOf p len pv.order := rfl
  refine ⟨?_, ?_, ?_⟩
  · rw [horder, show pv'.created.length = p + 1 by simp [pv', createPatternVarByScan, p],
      List.range_succ]
    exact (insertByLen_perm _).trans ((h.perm.cons p).trans (List.perm_append_singleton p _).symm)
  · rw [horder, ← insertByLen_congr hold]
    refine insertByLen_sorted hp ?_ fun a ha => h.lt ha
    exact h.sorted.imp_of_mem fun ha hb hab => by rwa [ByLen, hold _ ha, hold _ hb]
  · intro len' q hlen' hq
    rw [horder]
    by_cases hnew : len < 256 ∧ len' = len
    · obtain ⟨hl, rfl⟩ := hnew
      have hqp : q = p := by
        simpa [pv', createPatternVarByScan, hl, len, p] using hq.symm
      subst hqp
      refine ⟨mem_insertByLen.2 (.inl rfl), hp, fun b hb _ => ?_⟩
      rcases mem_insertByLen.1 hb with rfl | hb
      · exact le_rfl
      · exact (h.lt hb).le
    · have hq' : pv.last len' = some q := by
        simp only [pv', createPatternVarByScan] at hq
        split_ifs at hq with hl
        · rwa [Function.update_noteq fun e => hnew ⟨hl, e⟩] at hq
        · exact hq
      obtain ⟨hq, hkq, hmax⟩ := h.last len' q hlen' hq'
      refine ⟨mem_insertByLen.2 (.inr hq), (hold q hq).trans hkq, fun b hb hbl => ?_⟩
      rcases mem_insertByLen.1 hb with rfl | hb
      · exact absurd (hp.symm.trans hbl) fun e => hnew ⟨e ▸ hlen', e.symm⟩
      · exact hmax b hb ((hold b hb).symm.trans hbl)

/-- The entries of a run are its calls, in order. -/
theorem createPatternVars_created (calls : List (String × Nat × Variable)) :
    (createPatternVars calls).created =
      calls.map fun c => (⟨c.1, strlen c.1, c.2.1 + 1, c.2.2⟩ : PatternVar) := by
  unfold createPatternVars
  suffices ∀ pv : PatternVars, (calls.foldl (fun pv c => createPatternVar c.1 c.2.1 c.2.2 pv) pv).created =
      pv.created ++ calls.map fun c => (⟨c.1, strlen c.1, c.2.1 + 1, c.2.2⟩ : PatternVar) from
    this .empty
  induction calls with
  | nil => intro pv; simp
  | cons c calls ih => intro pv; rw [List.foldl_cons, ih]; simp [createPatternVar]

/-- **Every run keeps the invariant.** -/
theorem patternInv_createPatternVars (calls : List (String × Nat × Variable)) :
    PatternInv (createPatternVars calls) := by
  unfold createPatternVars
  suffices ∀ pv, PatternInv pv →
      PatternInv (calls.foldl (fun pv c => createPatternVar c.1 c.2.1 c.2.2 pv) pv) from
    this _ patternInv_empty
  induction calls with
  | nil => exact fun _ h => h
  | cons c calls ih => exact fun pv h => ih _ (h.create _ _ _)

/-- **`pattern_vars` is the stable sort by length of the calls**: after any
sequence of `create_pattern_var` calls, whatever the lengths, the list holds
each entry once, shortest patterns first and patterns of one length in
definition order, and the next call's fast path inserts where the scan
would. -/
theorem createPatternVars_stable_by_len (calls : List (String × Nat × Variable)) :
    (createPatternVars calls).created.map PatternVar.len = calls.map (fun c => strlen c.1) ∧
    List.Perm (createPatternVars calls).order (List.range calls.length) ∧
    (createPatternVars calls).order.Sorted (ByLen (createPatternVars calls).lenOf) ∧
    ∀ target percent var, createPatternVar target percent var (createPatternVars calls) =
      createPatternVarByScan target percent var (createPatternVars calls) := by
  have h := patternInv_createPatternVars calls
  have hc := createPatternVars_created calls
  refine ⟨by simp [hc], ?_, h.sorted, fun _ _ _ => createPatternVar_eq_byScan h _ _ _⟩
  simpa [hc] using h.perm

/-! ## The stem rule -/

theorem ne_zero_of_mem_cBytes {s : String} {b : UInt8} (h : b ∈ cBytes s) : b ≠ 0 := by
  simpa using List.mem_takeWhile_imp h

/-- The stem rule on bytes: `t` is the pattern's bytes before the `%`, a
non-empty stem, then the pattern's bytes after the `%`. -/
def StemMatch (p : PatternVar) (t : List UInt8) : Prop :=
  ∃ s, s ≠ [] ∧ t = (cBytes p.target).take (p.suffix - 1) ++ s ++ (cBytes p.target).drop p.suffix

/-- An entry as `create_pattern_var` makes it: `len` is `strlen (target)`,
and `suffix` lies just past one of its bytes. -/
structure PatternVar.WF (p : PatternVar) : Prop where
  len : p.len = strlen p.target
  suffix_pos : 0 < p.suffix
  suffix_le : p.suffix ≤ p.len

/-- Splitting around a non-empty middle, by lengths. -/
theorem exists_middle_iff {α : Type} {A B t : List α} :
    (∃ s, s ≠ [] ∧ t = A ++ s ++ B) ↔
      A.length + B.length < t.length ∧ t.take A.length = A ∧ t.drop (t.length - B.length) = B := by
  constructor
  · rintro ⟨s, hs, rfl⟩
    have : 0 < s.length := List.length_pos.2 hs
    refine ⟨by simp; omega, by simp, ?_⟩
    rw [show (A ++ s ++ B).length - B.length = (A ++ s).length by simp; omega, List.drop_left]
  · rintro ⟨hlen, hA, hB⟩
    refine ⟨(t.drop A.length).take (t.length - A.length - B.length), ?_, ?_⟩
    · rw [← List.length_pos, List.length_take, List.length_drop]; omega
    · conv_lhs => rw [← List.take_append_drop A.length t, ← List.take_append_drop
        (t.length - A.length - B.length) (t.drop A.length)]
      rw [hA, List.drop_drop, show A.length + (t.length - A.length - B.length) =
        t.length - B.length by omega, hB, List.append_assoc]

instance (p : PatternVar) (t : List UInt8) : Decidable (StemMatch p t) :=
  decidable_of_iff _ exists_middle_iff.symm

theorem byteAt_drop (l : List UInt8) (i : Nat) : byteAt (l.drop i) 0 = byteAt l i := by
  simp [byteAt, List.getD_eq_getElem?_getD]

/-- The test of the bytes after the stem: the first one, then the rest,
against a suffix with no NUL. -/
theorem suffix_test_iff {B t : List UInt8} (hB : (0 : UInt8) ∉ B) (h : B.length ≤ t.length) :
    (byteAt B 0 == byteAt t (t.length - B.length) &&
      (byteAt B 0 == 0 || B.drop 1 == t.drop (t.length - B.length + 1))) = true ↔
      t.drop (t.length - B.length) = B := by
  cases B with
  | nil => simp [byteAt]
  | cons b B =>
    have hb : b ≠ 0 := fun e => hB (e ▸ List.mem_cons_self b B)
    have hi : t.length - (B.length + 1) < t.length := by simp at h; omega
    simp [byteAt, List.getD_eq_getElem?_getD, hb, List.getElem?_eq_getElem hi]
    rw [List.drop_eq_getElem_cons hi, List.cons.injEq]
    exact ⟨fun ⟨h1, h2⟩ => ⟨h1.symm, h2.symm⟩, fun ⟨h1, h2⟩ => ⟨h1.symm, h2.symm⟩⟩

theorem take_test_iff (A t : List UInt8) (k : Nat) (hA : A.length = k) :
    (k = 0 || A == t.take k) = true ↔ t.take k = A := by
  rcases Nat.eq_zero_or_pos k with rfl | hk
  · simp [List.length_eq_zero.1 hA]
  · simpa [Nat.pos_iff_ne_zero.1 hk] using eq_comm

/-- **The test of `lookup_pattern_var` is the stem rule**, for an entry as
`create_pattern_var` makes it. -/
theorem PatternVar.matches_iff {p : PatternVar} (hp : p.WF) (t : List UInt8) :
    p.matches t = true ↔ StemMatch p t := by
  obtain ⟨hlen, hpos, hle⟩ := hp
  rw [StemMatch, exists_middle_iff]
  have hpl : (cBytes p.target).length = p.len := by rw [hlen]; rfl
  have hA : ((cBytes p.target).take (p.suffix - 1)).length = p.suffix - 1 := by
    rw [List.length_take, hpl]; omega
  have hB : ((cBytes p.target).drop p.suffix).length = p.len - p.suffix := by
    rw [List.length_drop, hpl]
  have hBnul : (0 : UInt8) ∉ (cBytes p.target).drop p.suffix := fun h =>
    ne_zero_of_mem_cBytes (List.mem_of_mem_drop h) rfl
  unfold PatternVar.matches
  dsimp only
  by_cases hn : t.length < p.len
  · rw [if_pos hn]
    simp only [Bool.false_eq_true, false_iff, not_and]
    intro h
    omega
  · rw [if_neg hn]
    have hidx : p.suffix - 1 + (t.length - p.len + 1) =
        t.length - ((cBytes p.target).drop p.suffix).length := by rw [hB]; omega
    rw [hidx, ← byteAt_drop (cBytes p.target) p.suffix, show (cBytes p.target).drop (p.suffix + 1) =
      ((cBytes p.target).drop p.suffix).drop 1 by rw [List.drop_drop, Nat.add_comm],
      show t.length - ((cBytes p.target).drop p.suffix).length + 1 = _ from rfl,
      Bool.and_assoc, Bool.and_eq_true, suffix_test_iff hBnul (by omega),
      take_test_iff _ t _ hA, hA]
    constructor
    · rintro ⟨h1, h2⟩
      exact ⟨by omega, h1, h2⟩
    · rintro ⟨-, h1, h2⟩
      exact ⟨h1, h2⟩

end MakeVariables
