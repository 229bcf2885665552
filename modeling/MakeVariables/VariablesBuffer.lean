import MakeVariables.Definition
import MakeVariables.Special
import Mathlib.Algebra.Order.BigOperators.Group.List
import Mathlib.Algebra.Ring.Int.Defs
/-!
# The `.VARIABLES` buffer — `EXPANSION_INCREMENT`

`lookup_special_var` builds the value of `.VARIABLES` in a buffer of `max`
bytes, grown by `EXPANSION_INCREMENT (l + 1)` whenever the running length
`len` passes it. While that increment fits in an `int`, the loop keeps
`p - var->value == len <= max` after every name, and every byte it writes,
the terminator over the last space included, lies inside the bytes
allocated when it writes (`lookup_special_var_buffer_fits`). One turn adds
`l + 1` to `len` and, when it grows the buffer, more than that to `max`
(`namesStep_fits`); the run is an induction on the names
(`namesLoop_fits`). Run on the byte lengths of the global names, the loop
ends one past the text `lookupSpecialVar` stores, so that text and its
terminator fit the buffer (`lookup_special_var_value_fits`).

The increment is computed in `int`, and `((l + 1) / 500 + 1) * 500` leaves
the range of `int` as soon as `l + 1 ≥ 2147483500`, below `INT_MAX`. The C
standard leaves the loop undefined there; on a two's complement machine
`max` wraps around below `len`, and the name is copied past the end of the
buffer (`lookup_special_var_increment_overflow`).
-/

namespace MakeVariables

/-- The bytes of a write lie inside the allocation. -/
def BufferWrite.Inside (w : BufferWrite) : Prop := 0 ≤ w.first ∧ w.last ≤ w.size

instance : DecidablePred BufferWrite.Inside := fun w =>
  inferInstanceAs (Decidable (0 ≤ w.first ∧ w.last ≤ w.size))

/-- The invariant of the loop: `p - var->value == len <= max`, and every
write so far inside the bytes allocated when it was made. -/
structure NamesInv (b : NamesBuffer) : Prop where
  off_eq : b.off = b.len
  len_nonneg : 0 ≤ b.len
  len_le : b.len ≤ b.max
  inside : ∀ w ∈ b.writes, w.Inside

theorem sizeArith_of_lt {x : Int} (h0 : 0 ≤ x) (h : x < sizeModulus) : sizeArith x = some x := by
  rw [sizeArith, Int.emod_eq_of_lt h0 h]

/-- `EXPANSION_INCREMENT` on a value whose result stays in the range of its
type is the exact `(x / 500 + 1) * 500`. -/
theorem expansionIncrement_exact {arith : Int → Option Int} {lo hi : Int}
    (harith : ∀ x, lo ≤ x → x ≤ hi → arith x = some x) {x : Int} (h0 : 0 ≤ x) (hlo : lo ≤ 0)
    (hx : (x / 500 + 1) * 500 ≤ hi) : expansionIncrement arith x = some ((x / 500 + 1) * 500) := by
  have hq : 0 ≤ x / 500 := Int.ediv_nonneg h0 (by decide)
  have h1 : arith (x / 500) = some (x / 500) := harith _ (by omega) (by omega)
  have h2 : arith (x / 500 + 1) = some (x / 500 + 1) := harith _ (by omega) (by omega)
  simp only [expansionIncrement, Int.tdiv_eq_ediv h0 (by decide : (0 : Int) ≤ 500), h1, h2,
    Option.bind_eq_bind, Option.some_bind, harith _ (by omega) hx]

theorem sum_map_add_nonneg {ls : List Int} (hls : ∀ l ∈ ls, 0 ≤ l) {c : Int} (hc : 0 ≤ c) :
    0 ≤ (ls.map (· + c)).sum :=
  List.sum_nonneg fun x hx => by
    obtain ⟨y, hy, rfl⟩ := List.mem_map.1 hx
    have := hls y hy
    omega

section fits

variable {arith : Int → Option Int} (harith : ∀ x, intMin ≤ x → x ≤ intMax → arith x = some x)
include harith

/-- **One turn.** On a name whose `EXPANSION_INCREMENT (l + 1)` fits in an
`int`, with no `size_t` wrap-around, the turn keeps the invariant: `len`
grows by `l + 1`, and a growth of `max` by `EXPANSION_INCREMENT (l + 1)`,
more than `l + 1`, covers it. -/
theorem namesStep_fits {b : NamesBuffer} (hb : NamesInv b) {l : Int} (hl : 0 ≤ l)
    (hl' : l < 2147483499) (hfit : b.max + l + 501 < sizeModulus) :
    ∃ b', namesStep arith b l = some b' ∧ NamesInv b' ∧ b'.len = b.len + (l + 1) ∧
      b'.max ≤ b.max + (l + 501) := by
  obtain ⟨hoff, hlen, hle, hin⟩ := hb
  have h1 : arith (l + 1) = some (l + 1) :=
    harith _ (by unfold intMin; omega) (by unfold intMax; omega)
  have h2 : sizeArith (b.len + (l + 1)) = some (b.len + (l + 1)) :=
    sizeArith_of_lt (by omega) (by unfold sizeModulus at hfit ⊢; omega)
  -- the turn, with the new `max` between the new `len` and `max + l + 501`
  obtain ⟨m, hstep, hm1, hm2⟩ : ∃ m, namesStep arith b l = some ⟨m, b.len + (l + 1), b.off + l + 1,
      b.writes ++ [⟨b.off, b.off + l, m⟩, ⟨b.off + l, b.off + l + 1, m⟩]⟩ ∧
      b.len + (l + 1) ≤ m ∧ m ≤ b.max + (l + 501) := by
    by_cases hg : b.max < b.len + (l + 1)
    · have h3 := expansionIncrement_exact harith (x := l + 1) (by omega)
        (by unfold intMin; omega) (by unfold intMax; omega)
      have h4 : sizeArith (b.max + ((l + 1) / 500 + 1) * 500) =
          some (b.max + ((l + 1) / 500 + 1) * 500) :=
        sizeArith_of_lt (by omega) (by unfold sizeModulus at hfit ⊢; omega)
      exact ⟨b.max + ((l + 1) / 500 + 1) * 500, by
        simp only [namesStep, h1, h2, if_pos hg, h3, h4, Option.bind_eq_bind, Option.some_bind]; rfl,
        by omega, by omega⟩
    · exact ⟨b.max, by
        simp only [namesStep, h1, h2, if_neg hg, Option.bind_eq_bind, Option.some_bind]; rfl,
        by omega, by omega⟩
  refine ⟨_, hstep, ⟨by dsimp only; omega, by dsimp only; omega, hm1, fun w hw => ?_⟩, rfl, hm2⟩
  -- the name and its space are written below the new `len`
  simp only [List.mem_append, List.mem_cons, List.mem_singleton, List.not_mem_nil, or_false] at hw
  rcases hw with hw | rfl | rfl
  · exact hin w hw
  · exact ⟨by dsimp only; omega, by dsimp only; omega⟩
  · exact ⟨by dsimp only; omega, by dsimp only; omega⟩

/-- **The run.** The invariant holds after every name, and `len` is the sum
of the `l + 1`. -/
theorem namesLoop_fits : ∀ (ls : List Int) {b : NamesBuffer}, NamesInv b →
    (∀ l ∈ ls, 0 ≤ l ∧ l < 2147483499) → b.max + (ls.map (· + 501)).sum < sizeModulus →
    ∃ b', namesLoop arith b ls = some b' ∧ NamesInv b' ∧ b'.len = b.len + (ls.map (· + 1)).sum
  | [], b, hb, _, _ => ⟨b, rfl, hb, by simp⟩
  | l :: ls, b, hb, hls, hfit => by
    simp only [List.map_cons, List.sum_cons] at hfit ⊢
    obtain ⟨hl0, hl1⟩ := hls l (List.mem_cons_self _ _)
    have hrest := sum_map_add_nonneg (fun y hy => (hls y (List.mem_cons_of_mem _ hy)).1)
      (by decide : (0 : Int) ≤ 501)
    obtain ⟨b1, h1, hb1, hlen1, hmax1⟩ := namesStep_fits harith hb hl0 hl1 (by omega)
    obtain ⟨b2, h2, hb2, hlen2⟩ := namesLoop_fits ls hb1
      (fun y hy => hls y (List.mem_cons_of_mem _ hy)) (by omega)
    exact ⟨b2, by rw [namesLoop, h1, Option.some_bind, h2], hb2, by omega⟩

/-- The whole branch: the buffer starts at `EXPANSION_INCREMENT (v0)` bytes,
the loop keeps the invariant, and the terminator goes at `p - 1`. -/
theorem variablesBuffer_fits {v0 : Int} {ls : List Int} (hv0 : 0 ≤ v0)
    (hls : ∀ l ∈ ls, 0 ≤ l ∧ l < 2147483499)
    (hfit : v0 + 500 + (ls.map (· + 501)).sum < sizeModulus) :
    ∃ b, namesLoop arith ⟨(v0 / 500 + 1) * 500, 0, 0, []⟩ ls = some b ∧ NamesInv b ∧
      b.len = (ls.map (· + 1)).sum ∧
      variablesBuffer arith v0 ls =
        some { b with writes := b.writes ++ [⟨b.off - 1, b.off, b.max⟩] } := by
  have hrest := sum_map_add_nonneg (fun y hy => (hls y hy).1) (by decide : (0 : Int) ≤ 501)
  have h0 : expansionIncrement sizeArith v0 = some ((v0 / 500 + 1) * 500) :=
    expansionIncrement_exact (fun x (h0 : 0 ≤ x) (h1 : x ≤ sizeModulus - 1) =>
      sizeArith_of_lt h0 (by omega)) hv0 (le_refl 0) (by unfold sizeModulus at hfit ⊢; omega)
  have hstart : NamesInv ⟨(v0 / 500 + 1) * 500, 0, 0, []⟩ :=
    ⟨rfl, le_refl 0, by dsimp only; omega, fun _ h => absurd h (List.not_mem_nil _)⟩
  obtain ⟨b, hb, hinv, hlen⟩ := namesLoop_fits harith ls hstart hls (by dsimp only; omega)
  refine ⟨b, hb, hinv, by simpa using hlen, ?_⟩
  simp only [variablesBuffer, h0, hb, Option.bind_eq_bind, Option.some_bind]
  rfl

/-- On a non-empty list the terminator goes over the last space, at
`len - 1 ≥ 0`: every write of the branch lies inside, and `p - var->value`
ends at the sum of the `l + 1`. -/
theorem variablesBuffer_inside {v0 : Int} {ls : List Int} (hv0 : 0 ≤ v0)
    (hls : ∀ l ∈ ls, 0 ≤ l ∧ l < 2147483499) (hne : ls ≠ [])
    (hfit : v0 + 500 + (ls.map (· + 501)).sum < sizeModulus) :
    ∃ b, variablesBuffer arith v0 ls = some b ∧ b.off = (ls.map (· + 1)).sum ∧ b.off ≤ b.max ∧
      ∀ w ∈ b.writes, w.Inside := by
  obtain ⟨b, -, hinv, hlen, hb⟩ := variablesBuffer_fits harith hv0 hls hfit
  have hoff := hinv.off_eq
  have hle := hinv.len_le
  refine ⟨_, hb, by dsimp only; omega, by dsimp only; omega, fun w hw => ?_⟩
  simp only [List.mem_append, List.mem_singleton] at hw
  rcases hw with hw | rfl
  · exact hinv.inside w hw
  obtain ⟨l, ls', rfl⟩ := List.exists_cons_of_ne_nil hne
  have hl := (hls l (List.mem_cons_self _ _)).1
  have hrest := sum_map_add_nonneg (fun y hy => (hls y (List.mem_cons_of_mem _ hy)).1)
    (by decide : (0 : Int) ≤ 1)
  simp only [List.map_cons, List.sum_cons] at hlen
  exact ⟨by dsimp only; omega, by dsimp only; omega⟩

end fits

/-- **The buffer of `.VARIABLES` holds what is written to it.** For any
`int` arithmetic that is exact within `INT_MIN .. INT_MAX`, any initial
length `v0` and any names of lengths `l` with `l + 1 < 2147483500`, whose
sums stay within `size_t`: after the first `n` names,
`p - var->value == len <= max`; and on a non-empty list every byte the
branch writes, names, spaces and the terminator, lies inside the bytes
allocated when it writes. -/
theorem lookup_special_var_buffer_fits (arith : Int → Option Int)
    (harith : ∀ x, intMin ≤ x → x ≤ intMax → arith x = some x) (v0 : Int) (ls : List Int)
    (hv0 : 0 ≤ v0) (hls : ∀ l ∈ ls, 0 ≤ l ∧ l < 2147483499) (hne : ls ≠ [])
    (hfit : v0 + 500 + (ls.map (· + 501)).sum < sizeModulus) :
    (∀ n, ∃ b, variablesBuffer arith v0 (ls.take n) = some b ∧ b.off = b.len ∧ b.len ≤ b.max) ∧
      ∃ b, variablesBuffer arith v0 ls = some b ∧ ∀ w ∈ b.writes, w.Inside := by
  refine ⟨fun n => ?_, ?_⟩
  · -- the first `n` names meet the same bounds
    have hdrop : 0 ≤ ((ls.drop n).map (· + 501)).sum :=
      sum_map_add_nonneg (fun y hy => (hls y (List.mem_of_mem_drop hy)).1) (by decide)
    have hsplit : ((ls.take n).map (· + 501)).sum + ((ls.drop n).map (· + 501)).sum =
        (ls.map (· + 501)).sum := by
      rw [← List.sum_append, ← List.map_append, List.take_append_drop]
    have htake : v0 + 500 + ((ls.take n).map (· + 501)).sum < sizeModulus := by omega
    obtain ⟨b, -, hinv, -, hb⟩ := variablesBuffer_fits harith hv0
      (fun l hl => hls l (List.mem_of_mem_take hl)) htake
    exact ⟨_, hb, hinv.off_eq, hinv.len_le⟩
  · obtain ⟨b, hb, -, -, hin⟩ := variablesBuffer_inside harith hv0 hls hne hfit
    exact ⟨b, hb, hin⟩

/-- `[5, 7]` from an empty value, in ISO C arithmetic. -/
theorem lookup_special_var_buffer_fits_two :
    (∀ x, intMin ≤ x → x ≤ intMax → intStrict x = some x) ∧ (0 : Int) ≤ 0 ∧
      (∀ l ∈ ([5, 7] : List Int), 0 ≤ l ∧ l < 2147483499) ∧ ([5, 7] : List Int) ≠ [] ∧
      0 + 500 + (([5, 7] : List Int).map (· + 501)).sum < sizeModulus ∧
      (∀ n, ∃ b, variablesBuffer intStrict 0 (([5, 7] : List Int).take n) = some b ∧
        b.off = b.len ∧ b.len ≤ b.max) ∧
      ∃ b, variablesBuffer intStrict 0 [5, 7] = some b ∧ ∀ w ∈ b.writes, w.Inside :=
  ⟨fun _ h1 h2 => if_pos ⟨h1, h2⟩, le_refl 0, by decide, by decide, by decide,
    lookup_special_var_buffer_fits intStrict (fun _ h1 h2 => if_pos ⟨h1, h2⟩) 0 [5, 7] (le_refl 0)
      (by decide) (by decide) (by decide)⟩

/-! ## The value `.VARIABLES` receives -/

theorem utf8ByteSize_foldl_join (l : List String) (acc : String) :
    ((l.foldl (fun acc b => acc ++ " " ++ b) acc).utf8ByteSize : Int) =
      acc.utf8ByteSize + ((l.map fun n => (n.utf8ByteSize : Int)).map (· + 1)).sum := by
  induction l generalizing acc with
  | nil => simp
  | cons b l ih =>
    rw [List.foldl_cons, ih, utf8ByteSize_append, utf8ByteSize_append]
    simp only [List.map_cons, List.sum_cons, Nat.cast_add, show (" " : String).utf8ByteSize = 1 from rfl,
      Nat.cast_one]
    omega

/-- The names joined by single spaces take one byte less than the names
and a space after each. -/
theorem utf8ByteSize_intercalate_space {names : List String} (hne : names ≠ []) :
    ((" ".intercalate names).utf8ByteSize : Int) + 1 =
      ((names.map fun n => (n.utf8ByteSize : Int)).map (· + 1)).sum := by
  obtain ⟨a, l, rfl⟩ := List.exists_cons_of_ne_nil hne
  rw [intercalate_cons, utf8ByteSize_foldl_join]
  simp only [List.map_cons, List.sum_cons]
  omega

/-- **The value `.VARIABLES` receives fits its buffer.** When
`lookup_special_var` rebuilds `.VARIABLES` from non-empty global names
whose byte lengths keep `EXPANSION_INCREMENT` in `int` and whose sums stay
in `size_t`, from any initial length `v0`: the loop over the names' byte
lengths ends with `p - var->value` one past the text the record now holds,
that text and its terminator lie inside the bytes allocated, and so does
every other byte the branch writes. -/
theorem lookup_special_var_value_fits (arith : Int → Option Int)
    (harith : ∀ x, intMin ≤ x → x ≤ intMax → arith x = some x) (st : State) (v : VarId)
    (x : Variable) (v0 : Int) (hx : st.vars v = some x) (hch : st.changenum ≠ st.lastChangenum)
    (hname : x.name = ".VARIABLES") (hv0 : 0 ≤ v0) (hne : st.globalNames ≠ [])
    (hls : ∀ n ∈ st.globalNames, n.utf8ByteSize < 2147483499)
    (hfit : v0 + 500 + ((st.globalNames.map fun n => (n.utf8ByteSize : Int)).map (· + 501)).sum <
      sizeModulus) :
    ∃ y b, (lookupSpecialVar v st).vars v = some y ∧
      variablesBuffer arith v0 (st.globalNames.map fun n => (n.utf8ByteSize : Int)) = some b ∧
      (y.value.utf8ByteSize : Int) + 1 = b.off ∧ b.off ≤ b.max ∧ ∀ w ∈ b.writes, w.Inside := by
  have hls' : ∀ l ∈ st.globalNames.map fun n => (n.utf8ByteSize : Int), 0 ≤ l ∧ l < 2147483499 := by
    intro l hl
    obtain ⟨n, hn, rfl⟩ := List.mem_map.1 hl
    have := hls n hn
    omega
  obtain ⟨b, hb, hoff, hle, hin⟩ := variablesBuffer_inside harith hv0 hls'
    (by simpa using hne) hfit
  refine ⟨{ x with value := " ".intercalate st.globalNames }, b,
    by simp [lookupSpecialVar, hx, hch, hname], hb, ?_, hle, hin⟩
  rw [hoff]
  exact utf8ByteSize_intercalate_space hne

/-- `.VARIABLES` rebuilt at the start of `main`, from an empty value. -/
theorem lookup_special_var_value_fits_start :
    (∀ x, intMin ≤ x → x ≤ intMax → intStrict x = some x) ∧
      variablesStart.vars 1 = some ((variablesStart.vars 1).get (by decide)) ∧
      variablesStart.changenum ≠ variablesStart.lastChangenum ∧
      ((variablesStart.vars 1).get (by decide)).name = ".VARIABLES" ∧ (0 : Int) ≤ 0 ∧
      variablesStart.globalNames ≠ [] ∧
      (∀ n ∈ variablesStart.globalNames, n.utf8ByteSize < 2147483499) ∧
      0 + 500 + ((variablesStart.globalNames.map fun n => (n.utf8ByteSize : Int)).map (· + 501)).sum <
        sizeModulus ∧
      ∃ y b, (lookupSpecialVar 1 variablesStart).vars 1 = some y ∧
        variablesBuffer intStrict 0 (variablesStart.globalNames.map fun n => (n.utf8ByteSize : Int)) =
          some b ∧
        (y.value.utf8ByteSize : Int) + 1 = b.off ∧ b.off ≤ b.max ∧ ∀ w ∈ b.writes, w.Inside :=
  ⟨fun _ h1 h2 => if_pos ⟨h1, h2⟩, (Option.some_get _).symm, by decide, by decide, le_refl 0,
    by decide, by decide, by decide,
    lookup_special_var_value_fits intStrict (fun _ h1 h2 => if_pos ⟨h1, h2⟩) variablesStart 1
      ((variablesStart.vars 1).get (by decide)) 0 (Option.some_get _).symm (by decide) (by decide)
      (le_refl 0) (by decide) (by decide) (by decide)⟩

/-! ## Where the increment leaves `int` -/

/-- `EXPANSION_INCREMENT` on an `int` in `0 .. INT_MAX` is undefined exactly
from `2147483500` on, where `((x / 500) + 1) * 500` passes `INT_MAX`. -/
theorem expansionIncrement_strict_eq_none {x : Int} (h0 : 0 ≤ x) (hx : x ≤ intMax) :
    expansionIncrement intStrict x = none ↔ 2147483500 ≤ x := by
  have hs : ∀ y, intMin ≤ y → y ≤ intMax → intStrict y = some y := fun _ h1 h2 => if_pos ⟨h1, h2⟩
  have hq : 0 ≤ x / 500 := Int.ediv_nonneg h0 (by decide)
  by_cases h : x < 2147483500
  · rw [expansionIncrement_exact hs h0 (by decide) (by unfold intMax; omega)]
    exact ⟨fun h' => Option.noConfusion h', fun h' => absurd h' (by omega)⟩
  · have h1 : intStrict (x / 500) = some (x / 500) :=
      hs _ (by unfold intMin; omega) (by unfold intMax at hx ⊢; omega)
    have h2 : intStrict (x / 500 + 1) = some (x / 500 + 1) :=
      hs _ (by unfold intMin; omega) (by unfold intMax at hx ⊢; omega)
    have h3 : intStrict ((x / 500 + 1) * 500) = none := if_neg (by unfold intMin intMax; omega)
    simp only [expansionIncrement, Int.tdiv_eq_ediv h0 (by decide : (0 : Int) ≤ 500), h1, h2, h3,
      Option.bind_eq_bind, Option.some_bind, true_iff]
    omega

/-- **The increment of a long name leaves `int`.** For every `int` length
`l` below `INT_MAX`, `EXPANSION_INCREMENT (l + 1)` is undefined exactly when
`l ≥ 2147483499`. Two names of 2147483000 and 2147483499 bytes, from an
empty value, have every sum within `size_t`; the second one needs the
buffer to grow and hits that case. In ISO C the run is undefined; on a two's
complement machine the increment wraps to `-2147483296`, `max` falls from
2147484000 to 704 while `len` is 4294966501, and the second name is copied
to the bytes 2147483001 to 4294966499 of a buffer of 704 bytes. -/
theorem lookup_special_var_increment_overflow :
    (∀ l : Int, 0 ≤ l → l < intMax →
      (expansionIncrement intStrict (l + 1) = none ↔ 2147483499 ≤ l)) ∧
    ((2147483000 : Int) < intMax ∧ (2147483499 : Int) < intMax ∧
      (0 : Int) + 2147483001 + 2147483500 < sizeModulus ∧
      variablesBuffer intStrict 0 [2147483000, 2147483499] = none ∧
      variablesBuffer intWrap 0 [2147483000, 2147483499] =
        some ⟨704, 4294966501, 4294966501,
          [⟨0, 2147483000, 2147484000⟩, ⟨2147483000, 2147483001, 2147484000⟩,
            ⟨2147483001, 4294966500, 704⟩, ⟨4294966500, 4294966501, 704⟩,
            ⟨4294966500, 4294966501, 704⟩]⟩ ∧
      ¬ (⟨2147483001, 4294966500, 704⟩ : BufferWrite).Inside) :=
  ⟨fun l h0 h1 => by
    rw [expansionIncrement_strict_eq_none (by omega) (by unfold intMax at h1 ⊢; omega)]
    omega, by decide⟩

end MakeVariables
