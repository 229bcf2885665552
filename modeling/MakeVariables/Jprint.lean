import MakeVariables.Model.Jprint
import MakeVariables.Json
/-!
# The JSON text of the variable database

What `jprint_variable_data_base` writes, read back with the JSON grammar
of `Json`.

When no name or file name needs an escape and every byte of every value
is one `print_escaped_string` writes in JSON's way (`escapesToJson`), the
text is one JSON member, `variables`, holding each global variable with
its origin, its source and its value (`jprintVariableDataBase_json`). A
value is read back byte by byte (`readBack`): a byte of a multibyte
character comes back as a character of its own, and a backspace as a
newline, since the `'\b'` case writes `\n`.

`print_escaped_string` writes a vertical tab as `\v`, which is no JSON
escape, so a variable whose value holds one makes the whole text
unreadable (`vertical_tab_value_not_json`).
-/

namespace MakeVariables

open Json

/-! ## Escaped strings -/

/-- A byte `print_escaped_string` writes as a JSON escape or as itself:
not `\v`, and no control byte below 16, which `\u00%2x` pads with a
blank. -/
def escapesToJson (b : Nat) : Bool := 16 ≤ b || b ∈ [8, 9, 10, 12, 13]

/-- What a JSON reader reads back for a byte `print_escaped_string`
wrote. -/
def decodeByte (b : Nat) : Char := if b = 8 then '\n' else Char.ofNat b

/-- What a JSON reader reads back of `print_escaped_string (s)`. -/
def readBack (s : String) : List Char := (cBytes s).map fun b => decodeByte b.toNat

theorem toNat_ofNat_byte {n : Nat} (h : n < 256) : (Char.ofNat n).toNat = n := by
  have hv : n.isValidChar := Or.inl (by omega)
  simp [Char.ofNat, hv, Char.ofNatAux, Char.toNat, UInt32.toNat]

/-- The `default` case of `print_escaped_string`'s `switch`. -/
theorem escapeByte_default {b : Nat} (h : b ∉ [8, 12, 10, 13, 9, 11, 92, 47, 34]) :
    escapeByte b = if (1 ≤ b ∧ b ≤ 31) ∨ 128 ≤ b then "\\u00".toList ++ hexPad2 b
      else [Char.ofNat b] := by
  simp only [List.mem_cons, List.not_mem_nil, or_false, not_or] at h
  obtain ⟨h8, h12, h10, h13, h9, h11, h92, h47, h34⟩ := h
  exact escapeByte.eq_10 b h8 h12 h10 h13 h9 h11 h92 h47 h34

theorem hexVal_digitChar : ∀ d < 16, hexVal (Nat.digitChar d) = some d := by decide

/-- `%2x` writes a byte of 16 or more as two digits, with no blank. -/
theorem hexPad2_byte {n : Nat} (h16 : 16 ≤ n) (h256 : n < 256) :
    hexPad2 n = [Nat.digitChar (n / 16), Nat.digitChar (n % 16)] := by
  obtain ⟨k, rfl⟩ : ∃ k, n = k + 1 := ⟨n - 1, by omega⟩
  obtain ⟨j, hj⟩ : ∃ j, k = j + 1 := ⟨k - 1, by omega⟩
  have hq : (k + 1) / 16 ≠ 0 := by omega
  have hq' : (k + 1) / 16 / 16 = 0 := by omega
  have hm : (k + 1) / 16 % 16 = (k + 1) / 16 := Nat.mod_eq_of_lt (by omega)
  subst hj
  simp [hexPad2, Nat.toDigits, Nat.toDigitsCore, hq, hq', hm]

theorem charToken_hex {n : Nat} (h16 : 16 ≤ n) (h256 : n < 256) :
    charToken ("\\u00".toList ++ hexPad2 n) = some (Char.ofNat n) := by
  have h0 : hexVal '0' = some 0 := rfl
  simp [hexPad2_byte h16 h256, charToken, hex4, h0, Nat.div_add_mod',
    hexVal_digitChar _ (Nat.div_lt_of_lt_mul (by omega : n < 16 * 16)),
    hexVal_digitChar _ (Nat.mod_lt n (by decide))]

/-- Each byte `escapesToJson` admits is one character of a JSON string:
a two-character escape, `\u00` and two digits, or the byte itself. -/
theorem escapeByte_token {b : Nat} (hb : b < 256) (he : escapesToJson b = true) :
    charToken (escapeByte b) = some (decodeByte b) := by
  by_cases hs : b ∈ [8, 12, 10, 13, 9, 11, 92, 47, 34]
  · simp only [List.mem_cons, List.mem_singleton, List.not_mem_nil, or_false] at hs
    rcases hs with rfl | rfl | rfl | rfl | rfl | rfl | rfl | rfl | rfl <;> revert he <;> decide
  · have h16 : 16 ≤ b := by
      simp only [escapesToJson, Bool.or_eq_true, decide_eq_true_eq, List.mem_cons,
        List.mem_singleton, List.not_mem_nil, or_false] at he hs
      omega
    have h8 : decodeByte b = Char.ofNat b := if_neg (by omega)
    rw [escapeByte_default hs, h8]
    split_ifs with hc
    · exact charToken_hex h16 hb
    · have hlt : b < 128 := by omega
      simp only [List.mem_cons, List.mem_singleton, List.not_mem_nil, or_false, not_or] at hs
      have hne : ∀ c : Char, c.toNat ≠ b → Char.ofNat b ≠ c := fun c hc h =>
        hc (h ▸ toNat_ofNat_byte hb)
      have hu : isUnescaped (Char.ofNat b) = true := by
        simp [isUnescaped, toNat_ofNat_byte hb, hne '"' (by show 34 ≠ b; omega),
          hne '\\' (by show 92 ≠ b; omega)]
        omega
      simp [charToken, hu]

/-- **An escaped string reads back.** -/
theorem parseChars_printEscapedString {s : String}
    (hs : ∀ b ∈ cBytes s, escapesToJson b.toNat = true) (cs : List Char) :
    parseChars (printEscapedString s ++ '"' :: cs) = some (readBack s, cs) := by
  unfold printEscapedString readBack
  generalize cBytes s = bs at hs
  induction bs with
  | nil => exact parseChars_quote cs
  | cons b bs ih =>
    rw [List.flatMap_cons, List.append_assoc,
      parseChars_token (escapeByte_token (UInt8.toNat_lt_size b) (hs b (List.mem_cons_self b bs))),
      ih fun c hc => hs c (List.mem_cons_of_mem b hc)]
    rfl

/-! ## A variable -/

/-- The key of the value line of `jprint_variable`. -/
def valueKey (v : Variable) : List Char :=
  if v.recursive ∧ '\n' ∈ cText v.value then "define".toList
  else (if v.append then "append" else "assign").toList ++
    (if v.recursive then "-recursive" else "").toList

/-- The members a JSON reader reads of `jprint_variable`'s object. -/
def variableMembers (v : Variable) : List (List Char × Json) :=
  [("origin".toList, .str (originName v.origin).toList), ("private".toList, .bool v.privateVar)] ++
    (match v.fileinfo.filenm with
     | some f => [("source".toList, .str (cText f)),
        ("line".toList, .num (Nat.toDigits 10 (v.fileinfo.lineno + v.fileinfo.offset)))]
     | none => []) ++
    [(valueKey v, .str (readBack v.value))]

/-- What a JSON reader reads of `jprint_variable`'s text: the variable's
name, and its members. -/
def variableJson (v : Variable) : List Char × Json := (cText v.name, .obj (variableMembers v))

/-- A variable whose text `jprint_variable` writes as JSON: its name and
file name need no escape, and every byte of its value is escaped in JSON's
way. -/
structure PrintsAsJson (v : Variable) : Prop where
  name : Plain (cText v.name)
  source : ∀ f ∈ v.fileinfo.filenm, Plain (cText f)
  value : ∀ b ∈ cBytes v.value, escapesToJson b.toNat = true

instance (v : Variable) : Decidable (PrintsAsJson v) :=
  decidable_of_iff (Plain (cText v.name) ∧ (∀ f ∈ v.fileinfo.filenm, Plain (cText f)) ∧
      ∀ b ∈ cBytes v.value, escapesToJson b.toNat = true)
    ⟨fun ⟨h1, h2, h3⟩ => ⟨h1, h2, h3⟩, fun ⟨h1, h2, h3⟩ => ⟨h1, h2, h3⟩⟩

/-- The text `jprint_variable` writes between the braces of a variable. -/
def variableBody (v : Variable) : List Char :=
  "  \"origin\": \"".toList ++ (originName v.origin).toList ++ "\",\n".toList ++
    "  \"private\": ".toList ++ (if v.privateVar then "true" else "false").toList ++
    ",\n".toList ++ sourceLines v.fileinfo ++ valueLine v

theorem jprintVariable_text (v : Variable) (first : Option Bool) :
    (jprintVariable v first).1 = (if first = some false then ",\n".toList else []) ++
      '"' :: (cText v.name ++ '"' :: (" : \x7b\n".toList ++ (variableBody v ++ "\n\x7d".toList))) := by
  simp [jprintVariable, variableBody]

theorem jprintVariable_comma (v : Variable) :
    (jprintVariable v (some false)).1 = ',' :: '\n' :: (jprintVariable v (some true)).1 := by
  rw [jprintVariable_text, jprintVariable_text]
  rfl

theorem originName_plain (o : VariableOrigin) : Plain (originName o).toList := by
  cases o <;> decide

theorem variableMembers_length_le (v : Variable) : (variableMembers v).length ≤ 5 := by
  unfold variableMembers
  split <;> simp

section members

variable {fuel : Nat}

/-! Each line of the body is one member, read with the whitespace before
it. -/

/-- A member `"k": "…"` whose key needs no escape, its string read up to
the closing quote. -/
theorem member_str {k T rest t : List Char} (hk : Plain k)
    (ht : parseChars (T ++ '"' :: rest) = some (t, rest)) :
    parseMemberWith (parseValue (fuel + 1))
        ('\n' :: ("  \"".toList ++ (k ++ ("\": \"".toList ++ (T ++ '"' :: rest))))) =
      some ((k, .str t), skipWs rest) := by
  have h1 : skipWs ('\n' :: ("  \"".toList ++ (k ++ ("\": \"".toList ++ (T ++ '"' :: rest))))) =
      '"' :: (k ++ '"' :: (": \"".toList ++ (T ++ '"' :: rest))) := rfl
  have h2 : skipWs (": \"".toList ++ (T ++ '"' :: rest)) =
      ':' :: (" \"".toList ++ (T ++ '"' :: rest)) := rfl
  have h3 : skipWs (" \"".toList ++ (T ++ '"' :: rest)) = '"' :: (T ++ '"' :: rest) := rfl
  rw [parseMemberWith_key hk h1 h2, parseValue_str h3, ht]
  rfl

/-- A member `"k": true` or `"k": false`. -/
theorem member_bool {k rest : List Char} (hk : Plain k) (b : Bool) :
    parseMemberWith (parseValue (fuel + 1)) ('\n' :: ("  \"".toList ++
        (k ++ ("\": ".toList ++ ((if b then "true" else "false").toList ++ rest))))) =
      some ((k, .bool b), skipWs rest) := by
  have h1 : skipWs ('\n' :: ("  \"".toList ++ (k ++ ("\": ".toList ++
      ((if b then "true" else "false").toList ++ rest))))) =
      '"' :: (k ++ '"' :: (": ".toList ++ ((if b then "true" else "false").toList ++ rest))) := rfl
  have h2 : skipWs (": ".toList ++ ((if b then "true" else "false").toList ++ rest)) =
      ':' :: (" ".toList ++ ((if b then "true" else "false").toList ++ rest)) := rfl
  have h3 : skipWs (" ".toList ++ ((if b then "true" else "false").toList ++ rest)) =
      (if b then "true" else "false").toList ++ rest := by cases b <;> rfl
  rw [parseMemberWith_key hk h1 h2, parseValue_bool b h3]
  rfl

theorem member_origin {O : List Char} (hO : Plain O) (X : List Char) :
    parseMemberWith (parseValue (fuel + 1))
        ('\n' :: ("  \"origin\": \"".toList ++ (O ++ ("\",\n".toList ++ X)))) =
      some (("origin".toList, .str O), ',' :: '\n' :: X) :=
  member_str (k := "origin".toList) (by decide) (parseChars_plain hO _)

theorem member_private (b : Bool) (X : List Char) :
    parseMemberWith (parseValue (fuel + 1)) ('\n' :: ("  \"private\": ".toList ++
        ((if b then "true" else "false").toList ++ (",\n".toList ++ X)))) =
      some (("private".toList, .bool b), ',' :: '\n' :: X) :=
  member_bool (k := "private".toList) (by decide) b

theorem member_source {F : List Char} (hF : Plain F) (n : Nat) (X : List Char) :
    parseMemberWith (parseValue (fuel + 1)) ('\n' :: ("  \"source\": \"".toList ++ (F ++
      ("\",\n  \"line\": ".toList ++ (Nat.toDigits 10 n ++ (",\n".toList ++ X)))))) =
      some (("source".toList, .str F), ',' :: '\n' :: ("  \"line\": ".toList ++
        (Nat.toDigits 10 n ++ (",\n".toList ++ X)))) :=
  member_str (k := "source".toList) (by decide) (parseChars_plain hF _)

theorem member_line (n : Nat) (X : List Char) :
    parseMemberWith (parseValue (fuel + 1)) ('\n' :: ("  \"line\": ".toList ++
        (Nat.toDigits 10 n ++ (",\n".toList ++ X)))) =
      some (("line".toList, .num (Nat.toDigits 10 n)), ',' :: '\n' :: X) := by
  have h1 : skipWs ('\n' :: ("  \"line\": ".toList ++ (Nat.toDigits 10 n ++ (",\n".toList ++ X)))) =
      '"' :: ("line".toList ++ '"' :: (": ".toList ++ (Nat.toDigits 10 n ++ (",\n".toList ++ X)))) :=
    rfl
  have h2 : skipWs (": ".toList ++ (Nat.toDigits 10 n ++ (",\n".toList ++ X))) =
      ':' :: (" ".toList ++ (Nat.toDigits 10 n ++ (",\n".toList ++ X))) := rfl
  have hv : parseValue (fuel + 1) (" ".toList ++ (Nat.toDigits 10 n ++ (",\n".toList ++ X))) =
      some (.num (Nat.toDigits 10 n), skipWs (',' :: '\n' :: X)) :=
    parseValue_toDigits n (skipWs_toDigits n _) (by simp [isDigit])
  rw [parseMemberWith_key (by decide) h1 h2, hv]
  rfl

theorem member_define {s : String} (hs : ∀ b ∈ cBytes s, escapesToJson b.toNat = true)
    (X : List Char) :
    parseMemberWith (parseValue (fuel + 1)) ('\n' :: ("  \"define\": \"".toList ++
        (printEscapedString s ++ ("\"\n".toList ++ X)))) =
      some (("define".toList, .str (readBack s)), skipWs X) :=
  member_str (k := "define".toList) (by decide) (parseChars_printEscapedString hs _)

theorem member_assign (a r : Bool) {s : String}
    (hs : ∀ b ∈ cBytes s, escapesToJson b.toNat = true) (X : List Char) :
    parseMemberWith (parseValue (fuel + 1)) ('\n' :: ("  \"".toList ++
        ((if a then "append" else "assign").toList ++ ((if r then "-recursive" else "").toList ++
        ("\": \"".toList ++ (printEscapedString s ++ ("\"".toList ++ X))))))) =
      some (((if a then "append" else "assign").toList ++ (if r then "-recursive" else "").toList,
        .str (readBack s)), skipWs X) := by
  rw [← List.append_assoc (if a then "append" else "assign").toList]
  cases a <;> cases r <;> exact member_str (by decide) (parseChars_printEscapedString hs _)

/-- The value line is the last member, whichever key it has. -/
theorem parseMembers_valueLine {v : Variable}
    (hv : ∀ b ∈ cBytes v.value, escapesToJson b.toNat = true) (R : List Char) :
    parseMembers (parseValue (fuel + 1)) 1 ('\n' :: (valueLine v ++ ("\n\x7d".toList ++ R))) =
      some ([(valueKey v, .str (readBack v.value))], R) := by
  have hclose : ∀ X, skipWs (skipWs ("\n\x7d".toList ++ X)) = '\x7d' :: X := fun X => by
    simp [skipWs, isWs]
  unfold valueLine valueKey
  by_cases hd : v.recursive ∧ '\n' ∈ cText v.value
  · simp only [if_pos hd, List.append_assoc]
    exact parseMembers_last (member_define hv _)
      (afterItem_close (by decide) (by simp [skipWs, isWs])) 0
  · simp only [if_neg hd, List.append_assoc]
    exact parseMembers_last (member_assign _ _ hv _) (afterItem_close (by decide) (hclose R)) 0

/-- **The body of a variable reads back as its members**, with or without
a source. -/
theorem parseMembers_variable {v : Variable} (hv : PrintsAsJson v) (R : List Char) :
    parseMembers (parseValue (fuel + 1)) (variableMembers v).length
      ('\n' :: (variableBody v ++ ("\n\x7d".toList ++ R))) = some (variableMembers v, R) := by
  have hval : parseMembers (parseValue (fuel + 1)) 1 _ = _ := parseMembers_valueLine hv.value R
  unfold variableMembers variableBody sourceLines
  cases hf : v.fileinfo.filenm with
  | none =>
    simp only [List.append_assoc, List.nil_append, List.cons_append, List.length_cons,
      List.length_nil]
    rw [parseMembers_cons (member_origin (originName_plain _) _) (afterItem_comma_nl _ _),
      parseMembers_cons (member_private _ _) (afterItem_comma_nl _ _), hval]
    rfl
  | some f =>
    simp only [List.append_assoc, List.nil_append, List.cons_append, List.length_cons,
      List.length_nil]
    rw [parseMembers_cons (member_origin (originName_plain _) _) (afterItem_comma_nl _ _),
      parseMembers_cons (member_private _ _) (afterItem_comma_nl _ _),
      parseMembers_cons (member_source (hv.source f hf) _ _) (afterItem_comma_nl _ _),
      parseMembers_cons (member_line _ _) (afterItem_comma_nl _ _), hval]
    rfl

/-- **A variable is one member**: its name, then its object. -/
theorem parseMemberWith_jprintVariable {v : Variable} (hv : PrintsAsJson v) (R : List Char) :
    parseMemberWith (parseValue (fuel + 2)) ((jprintVariable v (some true)).1 ++ R) =
      some (variableJson v, skipWs R) := by
  have hmem : parseMembers (parseValue (fuel + 1)) _ _ = _ := parseMembers_variable hv R
  have hsep : ∀ X, skipWs (" : \x7b\n".toList ++ X) = ':' :: (" \x7b\n".toList ++ X) :=
    fun _ => rfl
  have hobj : ∀ X, skipWs (" \x7b\n".toList ++ X) = '\x7b' :: '\n' :: X := fun _ => rfl
  have hk : (variableMembers v).length ≤
      ('\n' :: (variableBody v ++ ("\n\x7d".toList ++ R))).length := by
    have := variableMembers_length_le v
    simp [variableBody]
    omega
  have hhead : (skipWs ('\n' :: (variableBody v ++ ("\n\x7d".toList ++ R)))).head? ≠
      some '\x7d' := by
    simp [variableBody, skipWs, isWs]
  rw [jprintVariable_text, if_neg (by decide), List.nil_append, List.cons_append,
    List.append_assoc, List.cons_append, List.append_assoc, List.append_assoc,
    parseMemberWith_key hv.name (skipWs_cons (by decide) _) (hsep _), parseValue_obj (hobj _),
    parseObject_of_members hmem hk hhead]
  rfl

/-! ## A variable set -/

theorem length_le_jprintVariables : ∀ (vs : List Variable) (first : Option Bool),
    vs.length ≤ (jprintVariables vs first).length
  | [], _ => Nat.le_refl 0
  | v :: vs, first => by
    have := length_le_jprintVariables vs (jprintVariable v first).2
    simp only [jprintVariables, jprintVariable_text, List.length_append, List.length_cons]
    omega

/-- The variables of a set, the first one first: each one a member, the
next ones after a comma. -/
theorem parseMembers_jprintVariables {R R' : List Char} (hR : skipWs R = '\x7d' :: R') :
    ∀ (v : Variable) (vs : List Variable), (∀ w ∈ v :: vs, PrintsAsJson w) →
      parseMembers (parseValue (fuel + 2)) (vs.length + 1)
        ((jprintVariable v (some true)).1 ++ (jprintVariables vs (some false) ++ R)) =
      some ((v :: vs).map variableJson, R')
  | v, [], hvs => by
    have hclose : afterItem '\x7d' (skipWs R) = some (false, R') :=
      afterItem_close (by decide) (by rw [hR]; rfl)
    rw [jprintVariables, List.nil_append,
      parseMembers_last (parseMemberWith_jprintVariable (hvs v (List.mem_cons_self v [])) R) hclose]
    rfl
  | v, w :: ws, hvs => by
    have hrest : jprintVariables (w :: ws) (some false) =
        ',' :: '\n' :: ((jprintVariable w (some true)).1 ++ jprintVariables ws (some false)) := by
      rw [jprintVariables, jprintVariable_comma]
      rfl
    have hsep : ∀ X, afterItem '\x7d' (skipWs (',' :: '\n' :: X)) = some (true, '\n' :: X) :=
      fun X => afterItem_comma_nl _ X
    rw [hrest, List.length_cons, List.cons_append, List.cons_append,
      parseMembers_cons (parseMemberWith_jprintVariable (hvs v (List.mem_cons_self v _)) _)
        (hsep _),
      parseMembers_ws (c := '\n') rfl, List.append_assoc,
      parseMembers_jprintVariables hR w ws fun u hu => hvs u (List.mem_cons_of_mem v hu)]
    rfl

/-- **A set is one member**: its key, then an object of its variables. -/
theorem parseMemberWith_jprintVariableSet {key : String} (hkey : Plain (cText key)) {st : State}
    {s : SetId} (hvs : ∀ v ∈ (st.table s).filterMap st.vars, PrintsAsJson v) (X : List Char) :
    parseMemberWith (parseValue (fuel + 3)) (jprintVariableSet key st (some s) false false ++ X) =
      some ((cText key, .obj (((st.table s).filterMap st.vars).map variableJson)),
        ',' :: '\n' :: X) := by
  have hkey_text : ∀ Z, skipWs ("  \"".toList ++ (cText key ++ ("\": \x7b\n".toList ++ Z))) =
      '"' :: (cText key ++ '"' :: (": \x7b\n".toList ++ Z)) := fun _ => rfl
  have hsep : ∀ Z, skipWs (": \x7b\n".toList ++ Z) = ':' :: (" \x7b\n".toList ++ Z) :=
    fun _ => rfl
  have hobj : ∀ Z, skipWs (" \x7b\n".toList ++ Z) = '\x7b' :: '\n' :: Z := fun _ => rfl
  have hR : skipWs ("\x7d,\n".toList ++ X) = '\x7d' :: (",\n".toList ++ X) := rfl
  have hend : ("\x7d" ++ (if false = true then "" else ",") ++ "\n").toList = "\x7d,\n".toList :=
    rfl
  simp only [jprintVariableSet, Bool.not_false, Bool.true_or, List.filter_true]
  generalize (st.table s).filterMap st.vars = vs at hvs ⊢
  simp only [hend, List.append_assoc]
  rw [parseMemberWith_key hkey (hkey_text _) (hsep _), parseValue_obj (hobj _)]
  cases vs with
  | nil =>
    rw [jprintVariables, List.nil_append,
      parseObject_empty ((skipWs_cons_ws (c := '\n') rfl _).trans hR)]
    rfl
  | cons v vs =>
    have hmem : parseMembers (parseValue (fuel + 2)) _ _ = _ :=
      (parseMembers_ws (c := '\n') rfl _ _).trans (parseMembers_jprintVariables hR v vs hvs)
    have hk := length_le_jprintVariables vs (some false)
    have hfirst : (jprintVariable v (some true)).2 = some false := rfl
    rw [jprintVariables, hfirst, List.append_assoc, parseObject_of_members hmem
      (by simp only [List.length_cons, List.length_append]; omega)
      (by rw [jprintVariable_text]; exact fun h => nomatch h)]
    rfl

/-! ## The database -/

/-- The members of the database object after `global`: the empty
pattern-specific variables, and their count. -/
theorem parseMembers_patternTail (isLast : Bool) :
    parseMembers (parseValue (fuel + 3)) 2
      ('\n' :: ("\"pattern-specific-variables\" : \x7b\n".toList ++ ("\n\x7d,\n".toList ++
        ("  \"pattern-specific-rule-count\": ".toList ++ (Nat.toDigits 10 0 ++
        ("\n".toList ++ ("\x7d" ++ (if isLast then "" else ",")).toList)))))) =
      some ([("pattern-specific-variables".toList, .obj []),
        ("pattern-specific-rule-count".toList, .num ['0'])], (if isLast then "" else ",").toList) := by
  cases isLast <;> rfl

end members

/-- **The database is one JSON member.** With no pattern-specific
variable, and every global variable one `jprint_variable` writes as JSON,
the text of `jprint_variable_data_base` is the member `variables`, then a
comma unless it is the last. -/
theorem jprintVariableDataBase_json {isLast : Bool} {st : State} {pv : PatternVars}
    (hpv : pv.order.filterMap pv.get = [])
    (hvs : ∀ v ∈ (st.table globalVariableSet).filterMap st.vars, PrintsAsJson v) :
    (jprintVariableDataBase isLast st pv).map memberText =
      some (some (("variables".toList, .obj [
        ("global".toList, .obj (((st.table globalVariableSet).filterMap st.vars).map variableJson)),
        ("pattern-specific-variables".toList, .obj []),
        ("pattern-specific-rule-count".toList, .num ['0'])]), !isLast)) := by
  have hkey : ∀ Z, skipWs ("\"variables\": \x7b\n".toList ++ Z) =
      '"' :: ("variables".toList ++ '"' :: (": \x7b\n".toList ++ Z)) := fun _ => rfl
  have hsep : ∀ Z, skipWs (": \x7b\n".toList ++ Z) = ':' :: (" \x7b\n".toList ++ Z) :=
    fun _ => rfl
  have hobj : ∀ Z, skipWs (" \x7b\n".toList ++ Z) = '\x7b' :: '\n' :: Z := fun _ => rfl
  have hmem : parseMembers (parseValue 3) 3 _ = _ :=
    ((parseMembers_ws (c := '\n') rfl _ _).trans (parseMembers_cons
      (parseMemberWith_jprintVariableSet (by decide : Plain (cText "global")) hvs _)
      (afterItem_comma_nl _ _) 2)).trans
      (congrArg _ (parseMembers_patternTail isLast))
  unfold jprintVariableDataBase
  simp only [hpv, Option.map_some', List.append_assoc]
  refine congrArg some (memberText_of_parse (n := 4) ?_ (by simp))
  rw [parseMember, parseMemberWith_key (by decide) (hkey _) (hsep _), parseValue_obj (hobj _),
    parseObject_of_members hmem (by simp; omega) (by simp [jprintVariableSet, skipWs, isWs])]
  cases isLast <;> rfl

/-- A global `X = a b` read from a makefile. -/
def plainX : Variable :=
  { name := "X", value := "a b", fileinfo := Floc.zero, origin := .file, flavor := .recursive,
    recursive := true, append := false, conditional := false, perTarget := false,
    special := false, exportable := true, exportStatus := .default, privateVar := false }

/-- `global_variable_set` holding `X` alone, at address 1. -/
def plainState : State :=
  { State.initial with
    vars := fun v => if v = 1 then some plainX else none
    sets := fun s => if s = globalVariableSet then some [1] else none
    fresh := 2 }

theorem jprintVariableDataBase_json_plainX :
    PatternVars.empty.order.filterMap PatternVars.empty.get = [] ∧
      (∀ v ∈ (plainState.table globalVariableSet).filterMap plainState.vars, PrintsAsJson v) ∧
      (jprintVariableDataBase true plainState .empty).map memberText =
        some (some (("variables".toList, .obj [("global".toList, .obj [variableJson plainX]),
          ("pattern-specific-variables".toList, .obj []),
          ("pattern-specific-rule-count".toList, .num ['0'])]), false)) := by
  have hvs : ∀ v ∈ (plainState.table globalVariableSet).filterMap plainState.vars,
      PrintsAsJson v := by
    decide
  exact ⟨rfl, hvs, jprintVariableDataBase_json rfl hvs⟩

/-! ## A vertical tab -/

/-- A global `X = a<VT>b` read from a makefile. -/
def verticalTabX : Variable :=
  { name := "X", value := "a\x0bb", fileinfo := Floc.zero, origin := .file, flavor := .recursive,
    recursive := true, append := false, conditional := false, perTarget := false,
    special := false, exportable := true, exportStatus := .default, privateVar := false }

/-- `global_variable_set` holding `X` alone, at address 1. -/
def verticalTabState : State :=
  { State.initial with
    vars := fun v => if v = 1 then some verticalTabX else none
    sets := fun s => if s = globalVariableSet then some [1] else none
    fresh := 2 }

set_option maxRecDepth 4000 in
/-- With no pattern-specific variable, the text is written, and it is no
JSON member. -/
theorem vertical_tab_value_not_json :
    (jprintVariableDataBase true verticalTabState .empty).map memberText = some none := by
  rfl

end MakeVariables
