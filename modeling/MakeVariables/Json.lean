import Mathlib.Data.List.Basic
import Mathlib.Data.Nat.Digits
/-!
# JSON text — the grammar, as a parser

What a well-formed JSON text is: whitespace, the three literals, numbers,
strings with their escapes, arrays and objects. The parser follows the
grammar rule by rule. JSON needs one character of lookahead, so a text
that starts with a value starts with exactly one, and the parser returns
it, decoded, with the rest of the text; `none` is a text that does not
start with one.

`fuel` bounds the nesting. Every level of nesting consumes a character,
so the length of the text is always enough (`memberText`).
-/

namespace MakeVariables

/-- A JSON value, with its strings decoded and its numbers as written. -/
inductive Json
  | null
  | bool (b : Bool)
  | num (text : List Char)
  | str (s : List Char)
  | arr (items : List Json)
  | obj (members : List (List Char × Json))
  deriving Repr

namespace Json

/-- `ws = *( %x20 / %x09 / %x0A / %x0D )`. -/
def isWs (c : Char) : Bool := c = ' ' || c = '\t' || c = '\n' || c = '\r'

def skipWs : List Char → List Char
  | c :: cs => if isWs c then skipWs cs else c :: cs
  | [] => []

def isDigit (c : Char) : Bool := '0' ≤ c && c ≤ '9'

/-- `1*DIGIT`. -/
def digits1 (cs : List Char) : Option (List Char × List Char) :=
  if (cs.span isDigit).1 = [] then none else some (cs.span isDigit)

/-- `int = zero / ( digit1-9 *DIGIT )`. -/
def parseInt : List Char → Option (List Char × List Char)
  | [] => none
  | c :: cs =>
    if c = '0' then some (['0'], cs)
    else if isDigit c then some (c :: (cs.span isDigit).1, (cs.span isDigit).2)
    else none

/-- `frac = decimal-point 1*DIGIT`, when there is one. -/
def parseFrac : List Char → Option (List Char × List Char)
  | [] => some ([], [])
  | c :: cs =>
    if c = '.' then (digits1 cs).map fun (f, cs) => ('.' :: f, cs)
    else some ([], c :: cs)

/-- The optional sign of an exponent. -/
def expSign : List Char → List Char × List Char
  | [] => ([], [])
  | c :: cs => if c = '+' ∨ c = '-' then ([c], cs) else ([], c :: cs)

/-- `exp = e [ minus / plus ] 1*DIGIT`, when there is one. -/
def parseExp : List Char → Option (List Char × List Char)
  | [] => some ([], [])
  | e :: cs =>
    if e = 'e' ∨ e = 'E' then
      (digits1 (expSign cs).2).map fun (d, rest) => (e :: (expSign cs).1 ++ d, rest)
    else some ([], e :: cs)

/-- `number = [ minus ] int [ frac ] [ exp ]`. -/
def parseNumber (cs : List Char) : Option (List Char × List Char) :=
  let (sign, cs) := if cs.head? = some '-' then (['-'], cs.tail) else ([], cs)
  (parseInt cs).bind fun (i, cs) =>
  (parseFrac cs).bind fun (f, cs) =>
  (parseExp cs).map fun (e, cs) => (sign ++ i ++ f ++ e, cs)

/-- The value of a hexadecimal digit. -/
def hexVal (c : Char) : Option Nat :=
  if '0' ≤ c ∧ c ≤ '9' then some (c.toNat - '0'.toNat)
  else if 'a' ≤ c ∧ c ≤ 'f' then some (c.toNat - 'a'.toNat + 10)
  else if 'A' ≤ c ∧ c ≤ 'F' then some (c.toNat - 'A'.toNat + 10)
  else none

/-- The character a two-character escape stands for. -/
def escapeChar (c : Char) : Option Char :=
  if c = '"' then some '"'
  else if c = '\\' then some '\\'
  else if c = '/' then some '/'
  else if c = 'b' then some '\x08'
  else if c = 'f' then some '\x0c'
  else if c = 'n' then some '\n'
  else if c = 'r' then some '\r'
  else if c = 't' then some '\t'
  else none

/-- `unescaped = %x20-21 / %x23-5B / %x5D-10FFFF`. -/
def isUnescaped (c : Char) : Bool := 0x20 ≤ c.toNat && c ≠ '"' && c ≠ '\\'

/-- The character `\uXXXX` stands for. -/
def hex4 (a b c d : Char) : Option Char :=
  match hexVal a, hexVal b, hexVal c, hexVal d with
  | some a, some b, some c, some d => some (Char.ofNat (((a * 16 + b) * 16 + c) * 16 + d))
  | _, _, _, _ => none

/-- The characters of a string after its opening quote, decoded, and
what follows the closing quote. -/
def parseChars : List Char → Option (List Char × List Char)
  | [] => none
  | c :: cs =>
    if c = '"' then some ([], cs)
    else if c = '\\' then
      match cs with
      | [] => none
      | e :: cs =>
        if e = 'u' then
          match cs with
          | a :: b :: c :: d :: cs =>
            (hex4 a b c d).bind fun ch => (parseChars cs).map fun (s, r) => (ch :: s, r)
          | _ => none
        else (escapeChar e).bind fun ch => (parseChars cs).map fun (s, r) => (ch :: s, r)
    else if isUnescaped c then (parseChars cs).map fun (s, r) => (c :: s, r)
    else none

/-- `string = quotation-mark *char quotation-mark`. -/
def parseString : List Char → Option (List Char × List Char)
  | [] => none
  | c :: cs => if c = '"' then parseChars cs else none

/-- The structural character `c`, after whitespace. -/
def expect (c : Char) (cs : List Char) : Option (List Char) :=
  match skipWs cs with
  | [] => none
  | d :: cs => if d = c then some cs else none

/-- After a member or an item: a separator and more, or the end. -/
def afterItem (close : Char) (cs : List Char) : Option (Bool × List Char) :=
  match skipWs cs with
  | [] => none
  | d :: cs => if d = ',' then some (true, cs) else if d = close then some (false, cs) else none

/-- `member = string name-separator value`, with the whitespace around
it; `value` parses one value. -/
def parseMemberWith (value : List Char → Option (Json × List Char)) (cs : List Char) :
    Option ((List Char × Json) × List Char) :=
  (parseString (skipWs cs)).bind fun (k, cs) =>
  ((expect ':' cs).bind value).map fun (v, cs) => ((k, v), cs)

/-- `member *( value-separator member ) end-object`, after the
`begin-object` of an object with members. -/
def parseMembers (value : List Char → Option (Json × List Char)) :
    Nat → List Char → Option (List (List Char × Json) × List Char)
  | 0, _ => none
  | fuel + 1, cs =>
    (parseMemberWith value cs).bind fun (m, cs) =>
    (afterItem '\x7d' cs).bind fun (more, cs) =>
    if more then (parseMembers value fuel cs).map fun (ms, cs) => (m :: ms, cs)
    else some ([m], cs)

/-- `value *( value-separator value ) end-array`, after the `begin-array`
of an array with items. -/
def parseElements (value : List Char → Option (Json × List Char)) :
    Nat → List Char → Option (List Json × List Char)
  | 0, _ => none
  | fuel + 1, cs =>
    (value cs).bind fun (v, cs) =>
    (afterItem ']' cs).bind fun (more, cs) =>
    if more then (parseElements value fuel cs).map fun (vs, cs) => (v :: vs, cs)
    else some ([v], cs)

/-- An object after its `begin-object`: empty, or members. -/
def parseObject (value : List Char → Option (Json × List Char)) (cs : List Char) :
    Option (Json × List Char) :=
  if (skipWs cs).head? = some '\x7d' then some (.obj [], skipWs (skipWs cs).tail)
  else (parseMembers value cs.length cs).map fun (ms, cs) => (.obj ms, skipWs cs)

/-- An array after its `begin-array`: empty, or items. -/
def parseArray (value : List Char → Option (Json × List Char)) (cs : List Char) :
    Option (Json × List Char) :=
  if (skipWs cs).head? = some ']' then some (.arr [], skipWs (skipWs cs).tail)
  else (parseElements value cs.length cs).map fun (vs, cs) => (.arr vs, skipWs cs)

/-- The rest of a literal after its first character. -/
def parseWord (rest : List Char) (v : Json) (cs : List Char) : Option (Json × List Char) :=
  if rest.isPrefixOf cs then some (v, skipWs (cs.drop rest.length)) else none

/-- `ws value ws`: one value and the whitespace around it. -/
def parseValue : Nat → List Char → Option (Json × List Char)
  | 0, _ => none
  | fuel + 1, cs =>
    match skipWs cs with
    | [] => none
    | c :: cs =>
      if c = '\x7b' then parseObject (parseValue fuel) cs
      else if c = '[' then parseArray (parseValue fuel) cs
      else if c = '"' then (parseChars cs).map fun (s, cs) => (.str s, skipWs cs)
      else if c = 't' then parseWord "rue".toList (.bool true) cs
      else if c = 'f' then parseWord "alse".toList (.bool false) cs
      else if c = 'n' then parseWord "ull".toList .null cs
      else (parseNumber (c :: cs)).map fun (n, cs) => (.num n, skipWs cs)

/-- A member and what follows it. -/
def parseMember (fuel : Nat) : List Char → Option ((List Char × Json) × List Char) :=
  parseMemberWith (parseValue fuel)

/-! ## What the parser reads -/

section reads

variable {cs cs' : List Char}

theorem skipWs_cons_ws {c : Char} (h : isWs c = true) (cs : List Char) :
    skipWs (c :: cs) = skipWs cs := by simp [skipWs, h]

theorem skipWs_cons {c : Char} (h : isWs c = false) (cs : List Char) :
    skipWs (c :: cs) = c :: cs := by simp [skipWs, h]

theorem parseChars_quote (cs : List Char) : parseChars ('"' :: cs) = some ([], cs) := by
  rw [parseChars.eq_def]; rfl

theorem parseChars_unescaped {c : Char} (h : isUnescaped c = true) (cs : List Char) :
    parseChars (c :: cs) = (parseChars cs).map fun (s, r) => (c :: s, r) := by
  have hq : c ≠ '"' := fun e => by subst e; simp [isUnescaped] at h
  have hb : c ≠ '\\' := fun e => by subst e; simp [isUnescaped] at h
  rw [parseChars.eq_def]
  simp only [if_neg hq, if_neg hb, if_pos h]

theorem parseChars_escape {e : Char} (he : e ≠ 'u') (cs : List Char) :
    parseChars ('\\' :: e :: cs) =
      (escapeChar e).bind fun ch => (parseChars cs).map fun (s, r) => (ch :: s, r) := by
  rw [parseChars.eq_def]
  simp only [if_neg (show '\\' ≠ '"' by decide), if_true, if_neg he]

theorem parseChars_hex (a b c d : Char) (cs : List Char) :
    parseChars ('\\' :: 'u' :: a :: b :: c :: d :: cs) =
      (hex4 a b c d).bind fun ch => (parseChars cs).map fun (s, r) => (ch :: s, r) := by
  rw [parseChars.eq_def]
  simp only [if_neg (show '\\' ≠ '"' by decide), if_true]

/-- A text with no quote, backslash or control character: a JSON string
holds it as it is. -/
def Plain (cs : List Char) : Prop := ∀ c ∈ cs, isUnescaped c = true

instance (cs : List Char) : Decidable (Plain cs) := inferInstanceAs (Decidable (∀ c ∈ cs, _))

theorem parseChars_plain {k : List Char} (hk : Plain k) (cs : List Char) :
    parseChars (k ++ '"' :: cs) = some (k, cs) := by
  induction k with
  | nil => exact parseChars_quote cs
  | cons c k ih =>
    rw [List.cons_append, parseChars_unescaped (hk c (List.mem_cons_self c k)),
      ih fun d hd => hk d (List.mem_cons_of_mem c hd)]
    rfl

theorem parseString_plain {k : List Char} (hk : Plain k) (cs : List Char) :
    parseString ('"' :: (k ++ '"' :: cs)) = some (k, cs) :=
  parseChars_plain hk cs

theorem expect_eq {c : Char} (h : skipWs cs = c :: cs') : expect c cs = some cs' := by
  simp [expect, h]

theorem afterItem_comma {close : Char} (h : skipWs cs = ',' :: cs') :
    afterItem close cs = some (true, cs') := by
  simp [afterItem, h]

theorem afterItem_close {close : Char} (hc : close ≠ ',') (h : skipWs cs = close :: cs') :
    afterItem close cs = some (false, cs') := by
  simp [afterItem, h, hc]

theorem afterItem_comma_nl (close : Char) (cs : List Char) :
    afterItem close (',' :: '\n' :: cs) = some (true, '\n' :: cs) :=
  afterItem_comma rfl

theorem parseString_quote (cs : List Char) : parseString ('"' :: cs) = parseChars cs := rfl

variable {value : List Char → Option (Json × List Char)} {m : List Char × Json} {cs1 : List Char}

theorem parseMembers_cons (hm : parseMemberWith value cs = some (m, cs1))
    (ha : afterItem '\x7d' cs1 = some (true, cs')) (n : Nat) :
    parseMembers value (n + 1) cs = (parseMembers value n cs').map fun (ms, cs) => (m :: ms, cs) := by
  simp [parseMembers, hm, ha]

theorem parseMembers_last (hm : parseMemberWith value cs = some (m, cs1))
    (ha : afterItem '\x7d' cs1 = some (false, cs')) (n : Nat) :
    parseMembers value (n + 1) cs = some ([m], cs') := by
  simp [parseMembers, hm, ha]

theorem parseMembers_ws {c : Char} (hc : isWs c = true) (n : Nat) (cs : List Char) :
    parseMembers value n (c :: cs) = parseMembers value n cs := by
  cases n with
  | zero => rfl
  | succ n => simp only [parseMembers, parseMemberWith, skipWs_cons_ws hc]

theorem parseObject_empty (h : skipWs cs = '\x7d' :: cs') :
    parseObject value cs = some (.obj [], skipWs cs') := by
  simp [parseObject, h]

variable {fuel : Nat}

theorem parseValue_obj (h : skipWs cs = '\x7b' :: cs') :
    parseValue (fuel + 1) cs = parseObject (parseValue fuel) cs' := by
  simp [parseValue, h]

theorem parseValue_str (h : skipWs cs = '"' :: cs') :
    parseValue (fuel + 1) cs = (parseChars cs').map fun (s, cs) => (.str s, skipWs cs) := by
  simp [parseValue, h]

theorem parseValue_bool (b : Bool) (h : skipWs cs = (if b then "true" else "false").toList ++ cs') :
    parseValue (fuel + 1) cs = some (.bool b, skipWs cs') := by
  cases b <;> simp [parseValue, h, parseWord]

/-! Numbers: the decimal digits `%u` and `%lu` write. -/

theorem isDigit_digitChar {d : Nat} (h : d < 10) : isDigit (Nat.digitChar d) = true :=
  (by decide : ∀ d < 10, isDigit (Nat.digitChar d) = true) d h

theorem digitChar_ne_zero {d : Nat} (h0 : 0 < d) (h : d < 10) : Nat.digitChar d ≠ '0' :=
  (by decide : ∀ d < 10, 0 < d → Nat.digitChar d ≠ '0') d h h0

/-- `toDigitsCore` writes the digits of `n` in front of what it is given,
the first one `0` only for `n = 0`. -/
theorem toDigitsCore_digits : ∀ (fuel n : Nat) (ds : List Char), n < fuel →
    ∃ c pre, Nat.toDigitsCore 10 fuel n ds = c :: pre ++ ds ∧ isDigit c = true ∧
      (∀ d ∈ pre, isDigit d = true) ∧ (c = '0' → n = 0 ∧ pre = [])
  | 0, n, _, h => absurd h (Nat.not_lt_zero n)
  | fuel + 1, n, ds, h => by
    have hd := isDigit_digitChar (Nat.mod_lt n (Nat.succ_pos 9))
    simp only [Nat.toDigitsCore]
    by_cases hn : n / 10 = 0
    · rw [if_pos hn]
      refine ⟨_, [], rfl, hd, by simp, fun hc => ⟨?_, rfl⟩⟩
      by_contra h0
      exact digitChar_ne_zero (by omega) (Nat.mod_lt n (Nat.succ_pos 9)) hc
    · rw [if_neg hn]
      obtain ⟨c, pre, heq, hc, hpre, h0⟩ := toDigitsCore_digits fuel (n / 10) _ (by omega)
      refine ⟨c, pre ++ [Nat.digitChar (n % 10)], by rw [heq]; simp, hc, ?_,
        fun hc0 => absurd (h0 hc0).1 hn⟩
      simp only [List.mem_append, List.mem_singleton]
      rintro d (hd' | rfl)
      · exact hpre d hd'
      · exact hd

theorem span_isDigit {pre cs : List Char} (hpre : ∀ d ∈ pre, isDigit d = true)
    (hcs : ∀ c ∈ cs.head?, isDigit c = false) : (pre ++ cs).span isDigit = (pre, cs) := by
  rw [List.span_eq_take_drop, List.takeWhile_append_of_pos hpre, List.dropWhile_append_of_pos hpre]
  cases cs with
  | nil => simp
  | cons c cs =>
    have := hcs c rfl
    simp [List.takeWhile_cons, List.dropWhile_cons, this]

theorem parseFrac_of_head (h : ∀ c ∈ cs.head?, c ≠ '.') : parseFrac cs = some ([], cs) := by
  cases cs with
  | nil => rfl
  | cons c cs => simp [parseFrac, h c rfl]

theorem parseExp_of_head (h : ∀ c ∈ cs.head?, c ≠ 'e' ∧ c ≠ 'E') : parseExp cs = some ([], cs) := by
  cases cs with
  | nil => rfl
  | cons c cs => simp [parseExp, (h c rfl).1, (h c rfl).2]

/-- **A decimal number** is read back as written, before a character that
cannot go on with it. -/
theorem parseNumber_toDigits (n : Nat)
    (hcs : ∀ c ∈ cs.head?, isDigit c = false ∧ c ≠ '.' ∧ c ≠ 'e' ∧ c ≠ 'E') :
    parseNumber (Nat.toDigits 10 n ++ cs) = some (Nat.toDigits 10 n, cs) := by
  obtain ⟨c, pre, heq, hc, hpre, h0⟩ := toDigitsCore_digits (n + 1) n [] (Nat.lt_succ_self n)
  have hdigits : Nat.toDigits 10 n = c :: pre := by rw [Nat.toDigits, heq, List.append_nil]
  have hminus : c ≠ '-' := fun e => by subst e; simp [isDigit] at hc
  have hfrac := parseFrac_of_head fun d hd => (hcs d hd).2.1
  have hexp := parseExp_of_head fun d hd => (hcs d hd).2.2
  rw [hdigits]
  by_cases hz : c = '0'
  · obtain ⟨-, rfl⟩ := h0 hz
    subst hz
    simp [parseNumber, parseInt, hfrac, hexp]
  · have hspan := span_isDigit hpre fun d hd => (hcs d hd).1
    rw [List.span_eq_take_drop, Prod.mk.injEq] at hspan
    simp [parseNumber, parseInt, hminus, hz, hc, hspan.1, hspan.2, hfrac, hexp]

/-- The character `u` stands for when it is exactly one character of a
string: an unescaped character, a two-character escape, or `\uXXXX`. -/
def charToken (u : List Char) : Option Char :=
  match u with
  | [c] => if isUnescaped c then some c else none
  | [b, e] => if b = '\\' ∧ e ≠ 'u' then escapeChar e else none
  | [b, u, a, h1, h2, h3] => if b = '\\' ∧ u = 'u' then hex4 a h1 h2 h3 else none
  | _ => none

/-- **One character of a string**, whatever follows it. -/
theorem parseChars_token {u : List Char} {ch : Char} (h : charToken u = some ch) (cs : List Char) :
    parseChars (u ++ cs) = (parseChars cs).map fun (s, r) => (ch :: s, r) := by
  unfold charToken at h
  split at h
  · split_ifs at h with hc
    cases h
    exact parseChars_unescaped hc cs
  · split_ifs at h with hb
    obtain ⟨rfl, hu⟩ := hb
    rw [List.cons_append, List.cons_append, List.nil_append, parseChars_escape hu, h]
    rfl
  · split_ifs at h with hb
    obtain ⟨rfl, rfl⟩ := hb
    simp only [List.cons_append, List.nil_append, parseChars_hex, h]
    rfl
  · cases h

/-- A member whose key needs no escape: the key, the name separator, then
the value. -/
theorem parseMemberWith_key {value : List Char → Option (Json × List Char)} {k cs1 cs2 : List Char}
    (hk : Plain k) (h : skipWs cs = '"' :: (k ++ '"' :: cs1)) (h2 : skipWs cs1 = ':' :: cs2) :
    parseMemberWith value cs = (value cs2).map fun (v, cs) => ((k, v), cs) := by
  simp only [parseMemberWith, h, parseString_plain hk, Option.some_bind, expect_eq h2]

theorem skipWs_toDigits (n : Nat) (cs : List Char) :
    skipWs (Nat.toDigits 10 n ++ cs) = Nat.toDigits 10 n ++ cs := by
  obtain ⟨c, pre, heq, hc, -, -⟩ := toDigitsCore_digits (n + 1) n [] (Nat.lt_succ_self n)
  have hdigits : Nat.toDigits 10 n = c :: pre := by rw [Nat.toDigits, heq, List.append_nil]
  have hws : isWs c = false := by
    by_contra h
    simp only [isWs, Bool.not_eq_false, Bool.or_eq_true, decide_eq_true_eq] at h
    rcases h with ((rfl | rfl) | rfl) | rfl <;> revert hc <;> decide
  rw [hdigits, List.cons_append, skipWs_cons hws]

theorem parseValue_toDigits {fuel : Nat} (n : Nat) (h : skipWs cs = Nat.toDigits 10 n ++ cs')
    (hcs : ∀ c ∈ cs'.head?, isDigit c = false ∧ c ≠ '.' ∧ c ≠ 'e' ∧ c ≠ 'E') :
    parseValue (fuel + 1) cs = some (.num (Nat.toDigits 10 n), skipWs cs') := by
  obtain ⟨c, pre, heq, hc, -, -⟩ := toDigitsCore_digits (n + 1) n [] (Nat.lt_succ_self n)
  have hdigits : Nat.toDigits 10 n = c :: pre := by rw [Nat.toDigits, heq, List.append_nil]
  have hnum := parseNumber_toDigits n hcs
  rw [hdigits, List.cons_append] at h hnum
  have hnd : c ≠ '\x7b' ∧ c ≠ '[' ∧ c ≠ '"' ∧ c ≠ 't' ∧ c ≠ 'f' ∧ c ≠ 'n' := by
    refine ⟨?_, ?_, ?_, ?_, ?_, ?_⟩ <;> rintro rfl <;> revert hc <;> decide
  simp [parseValue, h, hnd, hnum, hdigits]

end reads

/-! ## More fuel reads the same -/

section fuel

/-- `q` reads every text `p` reads, and reads it the same way. -/
def Extends {α : Type} (p q : List Char → Option α) : Prop := ∀ cs r, p cs = some r → q cs = some r

variable {value value' : List Char → Option (Json × List Char)}

theorem parseMemberWith_extends (h : Extends value value') :
    Extends (parseMemberWith value) (parseMemberWith value') := by
  intro cs r hr
  obtain ⟨⟨k, cs1⟩, hk, hr⟩ := Option.bind_eq_some.1 hr
  obtain ⟨⟨v, cs2⟩, hv, rfl⟩ := Option.map_eq_some'.1 hr
  obtain ⟨cs3, h3, hv⟩ := Option.bind_eq_some.1 hv
  simp only [parseMemberWith, hk, Option.some_bind, h3, h cs3 _ hv, Option.map_some']

theorem parseMembers_extends (h : Extends value value') :
    ∀ n, Extends (parseMembers value n) (parseMembers value' n)
  | 0 => fun _ _ hr => by cases hr
  | n + 1 => fun cs r hr => by
    unfold parseMembers at hr ⊢
    obtain ⟨⟨m, cs1⟩, hm, hr⟩ := Option.bind_eq_some.1 hr
    obtain ⟨⟨more, cs2⟩, ha, hr⟩ := Option.bind_eq_some.1 hr
    rw [parseMemberWith_extends h _ _ hm, Option.some_bind]
    dsimp only
    rw [ha, Option.some_bind]
    dsimp only at hr ⊢
    cases more
    · exact hr
    · obtain ⟨x, hx, rfl⟩ := Option.map_eq_some'.1 hr
      rw [parseMembers_extends h n _ x hx]
      rfl

theorem parseMembers_succ : ∀ n, Extends (parseMembers value n) (parseMembers value (n + 1))
  | 0 => fun _ _ hr => by cases hr
  | n + 1 => fun cs r hr => by
    unfold parseMembers at hr
    rw [parseMembers]
    obtain ⟨⟨m, cs1⟩, hm, hr⟩ := Option.bind_eq_some.1 hr
    obtain ⟨⟨more, cs2⟩, ha, hr⟩ := Option.bind_eq_some.1 hr
    rw [hm, Option.some_bind]
    dsimp only
    rw [ha, Option.some_bind]
    dsimp only at hr ⊢
    cases more
    · exact hr
    · obtain ⟨x, hx, rfl⟩ := Option.map_eq_some'.1 hr
      rw [parseMembers_succ n _ x hx]
      rfl

theorem parseElements_extends (h : Extends value value') :
    ∀ n, Extends (parseElements value n) (parseElements value' n)
  | 0 => fun _ _ hr => by cases hr
  | n + 1 => fun cs r hr => by
    unfold parseElements at hr ⊢
    obtain ⟨⟨m, cs1⟩, hm, hr⟩ := Option.bind_eq_some.1 hr
    obtain ⟨⟨more, cs2⟩, ha, hr⟩ := Option.bind_eq_some.1 hr
    rw [h _ _ hm, Option.some_bind]
    dsimp only
    rw [ha, Option.some_bind]
    dsimp only at hr ⊢
    cases more
    · exact hr
    · obtain ⟨x, hx, rfl⟩ := Option.map_eq_some'.1 hr
      rw [parseElements_extends h n _ x hx]
      rfl

theorem parseObject_extends (h : Extends value value') :
    Extends (parseObject value) (parseObject value') := by
  intro cs r hr
  unfold parseObject at hr ⊢
  split_ifs at hr ⊢
  · exact hr
  · obtain ⟨x, hx, rfl⟩ := Option.map_eq_some'.1 hr
    rw [parseMembers_extends h _ _ x hx]
    rfl

theorem parseArray_extends (h : Extends value value') :
    Extends (parseArray value) (parseArray value') := by
  intro cs r hr
  unfold parseArray at hr ⊢
  split_ifs at hr ⊢
  · exact hr
  · obtain ⟨x, hx, rfl⟩ := Option.map_eq_some'.1 hr
    rw [parseElements_extends h _ _ x hx]
    rfl

/-- **More fuel reads the same value.** -/
theorem parseValue_succ : ∀ fuel, Extends (parseValue fuel) (parseValue (fuel + 1))
  | 0 => fun _ _ hr => by cases hr
  | fuel + 1 => fun cs r hr => by
    unfold parseValue at hr ⊢
    rcases hs : skipWs cs with _ | ⟨c, cs'⟩ <;> simp only [hs] at hr ⊢
    · exact hr
    · -- only an object or an array reads further values
      by_cases h1 : c = '\x7b'
      · rw [if_pos h1] at hr ⊢
        exact parseObject_extends (parseValue_succ fuel) _ _ hr
      rw [if_neg h1] at hr ⊢
      by_cases h2 : c = '['
      · rw [if_pos h2] at hr ⊢
        exact parseArray_extends (parseValue_succ fuel) _ _ hr
      rw [if_neg h2] at hr ⊢
      exact hr

theorem parseValue_le {fuel fuel' : Nat} (h : fuel ≤ fuel') :
    Extends (parseValue fuel) (parseValue fuel') := by
  induction h with
  | refl => exact fun _ _ => id
  | step _ ih => exact fun cs r hr => parseValue_succ _ cs r (ih cs r hr)

/-- An object whose members are read with no more fuel than its text is
long. -/
theorem parseObject_of_members {cs rest : List Char} {ms : List (List Char × Json)} {k : Nat}
    (h : parseMembers value k cs = some (ms, rest)) (hk : k ≤ cs.length)
    (hhead : (skipWs cs).head? ≠ some '\x7d') :
    parseObject value cs = some (.obj ms, skipWs rest) := by
  obtain ⟨j, hj⟩ := Nat.exists_eq_add_of_le hk
  have : parseMembers value cs.length cs = some (ms, rest) := by
    rw [hj]
    clear hj hk
    induction j with
    | zero => exact h
    | succ j ih => exact parseMembers_succ _ _ _ ih
  simp [parseObject, hhead, this]

end fuel

end Json

/-- **A member text**: the whole text is one JSON member, then a comma
(`true`) or nothing (`false`). -/
def memberText (cs : List Char) : Option ((List Char × Json) × Bool) :=
  (Json.parseMember cs.length cs).bind fun (m, rest) =>
  match rest with
  | [] => some (m, false)
  | [','] => some (m, true)
  | _ => none

/-- A member read with no more fuel than its text is long, then a comma or
nothing. -/
theorem memberText_of_parse {cs : List Char} {m : List Char × Json} {n : Nat} {b : Bool}
    (h : Json.parseMember n cs = some (m, if b then [','] else [])) (hn : n ≤ cs.length) :
    memberText cs = some (m, b) := by
  rw [memberText, Json.parseMember,
    Json.parseMemberWith_extends (Json.parseValue_le hn) _ _ h, Option.some_bind]
  cases b <;> rfl

end MakeVariables
