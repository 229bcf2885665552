import MakeVariables.Model.Variable
/-!
# Pattern-specific variables — `create_pattern_var` and `lookup_pattern_var`

`pattern_vars` is a linked list of `struct pattern_var`, kept with the
shortest patterns first and, among patterns of one length, in definition
order. `create_pattern_var` finds the insertion point by a scan, or, for
lengths below 256, through `last_pattern_vars[len]`, the last entry of
that length created so far.

Entries are never freed. They are numbered in creation order (`created`),
and the list is the sequence of those numbers the `next` pointers trace
(`order`). The C code works on bytes: a pattern's `len` is its `strlen`,
its `%` is at a byte offset, and `lookup_pattern_var` compares the bytes
of the pattern and of the target (`cBytes`).
-/

namespace MakeVariables

/-- The bytes of a C string: the UTF-8 encoding of the string, up to the
first NUL. -/
def cBytes (s : String) : List UInt8 :=
  (s.toList.flatMap String.utf8EncodeChar).takeWhile (· ≠ 0)

/-- `strlen`: the number of bytes before the NUL. -/
def strlen (s : String) : Nat := (cBytes s).length

/-- `struct pattern_var`: the pattern (`target`), its length in bytes, the
byte offset of `suffix` (just past the `%`), and the variable definition it
carries. The
definition's `conditional` flag and flavor live in `var`. -/
structure PatternVar where
  target : String
  len : Nat
  suffix : Nat
  var : Variable
  deriving DecidableEq, Repr

/-- `pattern_vars` with `last_pattern_vars`. -/
structure PatternVars where
  created : List PatternVar
  order : List Nat
  last : Nat → Option Nat

namespace PatternVars

/-- No pattern variable yet: both statics zero. -/
def empty : PatternVars := ⟨[], [], fun _ => none⟩

/-- The entry numbered `a`. -/
def get (pv : PatternVars) (a : Nat) : Option PatternVar := pv.created[a]?

/-- The `len` field of entry `a`. -/
def lenOf (pv : PatternVars) (a : Nat) : Nat := ((pv.get a).map PatternVar.len).getD 0

end PatternVars

/-- `p->next = q->next; q->next = p`: link `p` in right after `q`. -/
def insertAfter (q p : Nat) : List Nat → List Nat
  | [] => []
  | a :: l => if a = q then a :: p :: l else a :: insertAfter q p l

/-- The scan of `create_pattern_var`: link `p` in before the first entry
longer than `len`, or at the end. -/
def insertByLen (lenOf : Nat → Nat) (p len : Nat) : List Nat → List Nat
  | [] => [p]
  | a :: l => if len < lenOf a then p :: a :: l else a :: insertByLen lenOf p len l

/-- `create_pattern_var (target, suffix)` with `suffix` at byte offset
`percent` of `target`. -/
def createPatternVar (target : String) (percent : Nat) (var : Variable) (pv : PatternVars) :
    PatternVars :=
  let len := strlen target
  let p := pv.created.length
  let order :=
    if pv.order = [] then [p]
    else match (if len < 256 then pv.last len else none) with
      | some q => insertAfter q p pv.order
      | none => insertByLen pv.lenOf p len pv.order
  { created := pv.created ++ [⟨target, len, percent + 1, var⟩]
    order := order
    last := if len < 256 then Function.update pv.last len (some p) else pv.last }

/-- The `create_pattern_var` calls of a run, in order, each with its
pattern, the byte offset of its `%` and its definition, from no pattern
variable. -/
def createPatternVars (calls : List (String × Nat × Variable)) : PatternVars :=
  calls.foldl (fun pv c => createPatternVar c.1 c.2.1 c.2.2 pv) .empty

/-- The byte at offset `i` of a NUL-terminated string, `0` at the end. -/
def byteAt (s : List UInt8) (i : Nat) : UInt8 := s.getD i 0

/-- The test `lookup_pattern_var` makes of one entry against the bytes of a
target of length `targlen`: the pattern must fit, the bytes before the
stem must match with `strneq`, and those after it with a first-byte test
and `streq`. -/
def PatternVar.matches (p : PatternVar) (target : List UInt8) : Bool :=
  let targlen := target.length
  let pat := cBytes p.target
  let k := p.suffix - 1
  let stemlen := targlen - p.len + 1
  if targlen < p.len then false
  else
    (k = 0 || pat.take k == target.take k) &&
      byteAt pat p.suffix == byteAt target (k + stemlen) &&
      (byteAt pat p.suffix == 0 || pat.drop (p.suffix + 1) == target.drop (k + stemlen + 1))

/-- `lookup_pattern_var (start, target, targlen)`: the first entry after
`start` (from the head when `start` is `NULL`) that matches. -/
def lookupPatternVar (pv : PatternVars) (start : Option Nat) (target : String) : Option Nat :=
  let rest := match start with
    | none => pv.order
    | some s => (pv.order.dropWhile (· ≠ s)).drop 1
  rest.find? fun a => ((pv.get a).map fun p => p.matches (cBytes target)).getD false

end MakeVariables
