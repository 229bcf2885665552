import MakeVariables.Jprint
import MakeVariables.Pattern
/-!
# `print_escaped_string` against the JSON string grammar

Which strings come back from the JSON text `print_escaped_string` writes
between the quotes of `jprint_string`. A JSON reader reads the text one
character at a time (`parseChars_token`); a string comes back, as the
UTF-8 of what is read, exactly when every byte of it is ASCII and no
control byte below 16 but a tab, newline, form feed or carriage return
(`printEscapedString_round_trip`).

Every other byte breaks the round trip one of three ways. A byte of a
multibyte character is written as a `\u00XX` escape of its own, which a
reader takes for the Latin-1 character `XX`: `é` comes back as `Ã©`. A
backspace is written `\n`, by the `'\b'` case, and comes back as a
newline. A vertical tab, written `\v`, and a control byte below 16, which
`\u00%2x` pads with a blank, are no JSON at all
(`multibyte_char_read_back_as_latin1`).
-/

namespace MakeVariables

open Json

/-- A byte that `print_escaped_string` writes so that a JSON reader gets
it back as the same byte: ASCII, and no control byte below 16 but tab,
newline, form feed and carriage return. -/
def roundTripByte (b : Nat) : Bool := (16 ≤ b && b < 128) || b ∈ [9, 10, 12, 13]

theorem roundTripByte_iff {b : Nat} :
    roundTripByte b = true ↔ escapesToJson b = true ∧ b < 128 ∧ b ≠ 8 := by
  simp only [roundTripByte, escapesToJson, Bool.or_eq_true, Bool.and_eq_true, decide_eq_true_eq,
    List.mem_cons, List.mem_singleton, List.not_mem_nil, or_false]
  omega

theorem toNat_toUInt8 (b : UInt8) : b.toNat.toUInt8 = b :=
  UInt8.eq_of_val_eq (Fin.ext (Nat.mod_eq_of_lt b.val.isLt))

/-- The UTF-8 of what a JSON reader reads back for a byte is that byte
alone exactly for ASCII other than the backspace. -/
theorem utf8_decodeByte : ∀ b < 256,
    (String.utf8EncodeChar (decodeByte b) = [b.toUInt8] ↔ b < 128 ∧ b ≠ 8) := by
  intro b hb
  by_cases h8 : b = 8
  · -- the backspace is read back as a newline
    subst h8; decide
  have hc : (Char.ofNat b).val.toNat = b := toNat_ofNat_byte hb
  rw [decodeByte, if_neg h8, String.utf8EncodeChar]
  by_cases h128 : b < 128
  · have hv : (Char.ofNat b).val ≤ 0x7f := show (Char.ofNat b).val.toNat ≤ 127 by omega
    simp only [if_pos hv, h128, h8, ne_eq, not_false_eq_true, and_self, iff_true]
    show [(Char.ofNat b).val.toNat.toUInt8] = _
    rw [hc]
  · -- every multibyte encoding has at least two bytes
    have hv : ¬ (Char.ofNat b).val ≤ 0x7f := fun h =>
      h128 (by have : (Char.ofNat b).val.toNat ≤ 127 := h; omega)
    simp only [if_neg hv, h128, false_and, iff_false]
    split_ifs <;> simp

/-- The bytes `print_escaped_string` writes in no JSON way: `\v`, and
`\u00%2x` of a byte below 16, padded with a blank. -/
theorem parseChars_escapeByte_bad {b : Nat} (h0 : b ≠ 0) (hb : escapesToJson b = false)
    (cs : List Char) : parseChars (escapeByte b ++ cs) = none := by
  by_cases h11 : b = 11
  · subst h11
    rw [show escapeByte 11 ++ cs = '\\' :: 'v' :: cs from rfl, parseChars_escape (by decide)]
    rfl
  · have : b ∈ [1, 2, 3, 4, 5, 6, 7, 14, 15] := by
      simp only [escapesToJson, Bool.or_eq_false_iff, decide_eq_false_iff_not, List.mem_cons,
        List.mem_singleton, List.not_mem_nil, or_false] at hb ⊢
      omega
    obtain ⟨d, hd⟩ : ∃ d, escapeByte b = ['\\', 'u', '0', '0', ' ', d] := by
      simp only [List.mem_cons, List.mem_singleton, List.not_mem_nil, or_false] at this
      rcases this with rfl | rfl | rfl | rfl | rfl | rfl | rfl | rfl | rfl <;> exact ⟨_, rfl⟩
    rw [hd, List.cons_append, List.cons_append, List.cons_append, List.cons_append,
      List.cons_append, List.singleton_append, parseChars_hex]
    rfl

/-- **A string with one such byte is no JSON string**: the reader stops
at its escape. -/
theorem parseChars_printEscapedString_bad {s : String}
    (hs : ∃ b ∈ cBytes s, escapesToJson b.toNat = false) (cs : List Char) :
    parseChars (printEscapedString s ++ '"' :: cs) = none := by
  have h0 : ∀ b ∈ cBytes s, b.toNat ≠ 0 := fun b hb h =>
    ne_zero_of_mem_cBytes hb (UInt8.eq_of_val_eq (Fin.ext h))
  unfold printEscapedString
  generalize cBytes s = bs at hs h0
  induction bs with
  | nil => simp at hs
  | cons b bs ih =>
    rw [List.flatMap_cons, List.append_assoc]
    cases hb : escapesToJson b.toNat
    · exact parseChars_escapeByte_bad (h0 b (List.mem_cons_self b bs)) hb _
    · obtain ⟨c, hc, hcb⟩ := hs
      have hc' : c ∈ bs := (List.mem_cons.1 hc).resolve_left fun h => by rw [h, hb] at hcb; cases hcb
      rw [parseChars_token (escapeByte_token (UInt8.toNat_lt_size b) hb),
        ih ⟨c, hc', hcb⟩ fun d hd => h0 d (List.mem_cons_of_mem b hd)]
      rfl

theorem length_le_flatMap {α β : Type} {f : α → List β} (hf : ∀ a, 0 < (f a).length) :
    ∀ l : List α, l.length ≤ (l.flatMap f).length
  | [] => le_refl 0
  | a :: l => by
    have := length_le_flatMap hf l
    have := hf a
    simp only [List.flatMap_cons, List.length_append, List.length_cons]
    omega

/-- A list every item of which `f` maps to at least one item, and that
`flatMap f` maps to itself, is mapped item by item to itself. -/
theorem flatMap_eq_self {α : Type} {f : α → List α} (hf : ∀ a, 0 < (f a).length) :
    ∀ l : List α, l.flatMap f = l → ∀ a ∈ l, f a = [a]
  | [], _ => by simp
  | a :: l, h => by
    rw [List.flatMap_cons] at h
    have hlen := congrArg List.length h
    have := length_le_flatMap hf l
    have := hf a
    simp only [List.length_append, List.length_cons] at hlen
    obtain ⟨c, hc⟩ := List.length_eq_one.1 (show (f a).length = 1 by omega)
    rw [hc, List.singleton_append, List.cons.injEq] at h
    intro x hx
    rcases List.mem_cons.1 hx with rfl | hx
    · rw [hc, h.1]
    · exact flatMap_eq_self hf l h.2 x hx

/-- **Which strings `print_escaped_string` writes as JSON that reads
back to them**: the quoted text is one JSON string whose characters, as
UTF-8, are the string's bytes, exactly when every byte is `roundTripByte`. -/
theorem printEscapedString_round_trip (s : String) :
    (∃ d, parseString ('"' :: (printEscapedString s ++ ['"'])) = some (d, []) ∧
        d.flatMap String.utf8EncodeChar = cBytes s) ↔
      ∀ b ∈ cBytes s, roundTripByte b.toNat = true := by
  have hutf : ∀ b : UInt8, String.utf8EncodeChar (decodeByte b.toNat) = [b] ↔
      b.toNat < 128 ∧ b.toNat ≠ 8 := fun b => by
    rw [← utf8_decodeByte b.toNat (UInt8.toNat_lt_size b), toNat_toUInt8]
  have hread : (readBack s).flatMap String.utf8EncodeChar =
      (cBytes s).flatMap fun b => String.utf8EncodeChar (decodeByte b.toNat) := by
    simp [readBack, List.flatMap_map]
  rw [parseString_quote]
  constructor
  · rintro ⟨d, hd, hdb⟩
    have hesc : ∀ b ∈ cBytes s, escapesToJson b.toNat = true := by
      by_contra hc
      push_neg at hc
      obtain ⟨b, hb, hbf⟩ := hc
      rw [parseChars_printEscapedString_bad ⟨b, hb, by simpa using hbf⟩] at hd
      cases hd
    rw [parseChars_printEscapedString hesc, Option.some.injEq, Prod.mk.injEq] at hd
    rw [← hd.1, hread] at hdb
    intro b hb
    exact roundTripByte_iff.2 ⟨hesc b hb, (hutf b).1 (flatMap_eq_self
      (fun _ => by simpa using Char.utf8Size_pos _) _ hdb b hb)⟩
  · intro hs
    have hesc : ∀ b ∈ cBytes s, escapesToJson b.toNat = true := fun b hb =>
      (roundTripByte_iff.1 (hs b hb)).1
    refine ⟨readBack s, parseChars_printEscapedString hesc [], ?_⟩
    rw [hread, List.flatMap_congr fun b hb => (hutf b).2 (roundTripByte_iff.1 (hs b hb)).2,
      List.flatMap_singleton']

/-- `é`, the bytes `C3 A9`, is written `\u00c3\u00a9` and read back as
`Ã©`, whose UTF-8 is four bytes; a backspace is read back as a newline;
and `\x01`, written `\u00 1`, is no JSON string. -/
theorem multibyte_char_read_back_as_latin1 :
    printEscapedString "é" = "\\u00c3\\u00a9".toList ∧
      parseString ('"' :: (printEscapedString "é" ++ ['"'])) = some (['Ã', '©'], []) ∧
      ['Ã', '©'].flatMap String.utf8EncodeChar ≠ cBytes "é" ∧
      parseString ('"' :: (printEscapedString "\x08" ++ ['"'])) = some (['\n'], []) ∧
      parseString ('"' :: (printEscapedString "\x01" ++ ['"'])) = none :=
  ⟨rfl, rfl, by decide, rfl, rfl⟩

end MakeVariables
