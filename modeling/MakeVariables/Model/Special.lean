import MakeVariables.Model.Scope
/-!
# Special variables — `lookup_special_var` and `lookup_variable`

`.VARIABLES` is recomputed on read, from the names of
`global_variable_set`, whenever `variable_changenum` has moved since the
last recomputation (`last_changenum`). What the loop writes is the names
in table order, each followed by a space, the last space replaced by the
terminator.

The buffer the loop writes into is modelled apart, with the arithmetic of
its C types (`variablesBuffer`): `max` and `len` are `size_t` values,
taken modulo `SIZE_MAX + 1`; `l` and `EXPANSION_INCREMENT (l + 1)` are
`int` values, and how an `int` result outside `INT_MIN .. INT_MAX` ends is
a parameter: undefined in ISO C (`intStrict`), wrapped by a two's
complement machine (`intWrap`). Each write is logged with the number of
bytes allocated when it is made.
-/

namespace MakeVariables

/-- The names of `global_variable_set`, in table order. -/
def State.globalNames (st : State) : List String :=
  (st.table globalVariableSet).filterMap fun u => (st.vars u).map Variable.name

/-- `lookup_special_var`: when `variable_changenum != last_changenum` and the
record is `.VARIABLES`, rebuild its value from the global names and record
the change number. Other records are left alone. -/
def lookupSpecialVar (v : VarId) (st : State) : State :=
  match st.vars v with
  | none => st
  | some x =>
    if st.changenum ≠ st.lastChangenum ∧ x.name = ".VARIABLES" then
      { st.setVar v { x with value := " ".intercalate st.globalNames } with
        lastChangenum := st.changenum }
    else st

/-- `lookup_variable`: the walk of the current chain, then
`lookup_special_var` on a special record found. `none` when the walk does
not end. -/
def lookupVariable (name : String) (st : State) : Option (Option VarId × State) :=
  (lookupVariableChain st name).map fun r =>
    match r with
    | none => (none, st)
    | some v =>
      if ((st.vars v).map Variable.special).getD false then (some v, lookupSpecialVar v st)
      else (some v, st)

/-- `lookup_variable_for_file`: the lookup with the file's chain made
current for the time of the call, or from the current chain when there is
no file. -/
def lookupVariableForFile (name : String) (file : Option FileId) (st : State) :
    Option (Option VarId × State) :=
  match file with
  | none => lookupVariable name st
  | some f =>
    let (old, st) := installFileContext f st
    (lookupVariable name st).map fun (v, st) => (v, restoreFileContext old st)

/-! ## The `.VARIABLES` buffer -/

/-- `INT_MIN` of the 32-bit `int`. -/
def intMin : Int := -2147483648

/-- `INT_MAX` of the 32-bit `int`. -/
def intMax : Int := 2147483647

/-- `SIZE_MAX + 1` of the 64-bit `size_t`. -/
def sizeModulus : Int := 18446744073709551616

/-- `int` arithmetic in ISO C: a result outside the range of `int` is
undefined behaviour. -/
def intStrict (x : Int) : Option Int :=
  if intMin ≤ x ∧ x ≤ intMax then some x else none

/-- `int` arithmetic on a two's complement machine: the result modulo
`2 ^ 32`, read as signed. -/
def intWrap (x : Int) : Option Int :=
  some ((x - intMin) % 4294967296 + intMin)

/-- `size_t` arithmetic: modulo `SIZE_MAX + 1`, never undefined. An `int`
converted to `size_t` is taken modulo it as well. -/
def sizeArith (x : Int) : Option Int :=
  some (x % sizeModulus)

/-- `EXPANSION_INCREMENT (_l)`, `(((_l) / 500) + 1) * 500`, in the
arithmetic of the argument's type: `arith` takes each exact result to the
value the type holds, `none` where C leaves it undefined; `/` truncates
toward zero. -/
def expansionIncrement (arith : Int → Option Int) (l : Int) : Option Int := do
  let q ← arith (l.tdiv 500)
  let s ← arith (q + 1)
  arith (s * 500)

/-- A write of the bytes `first` to `last - 1` of `var->value` while
`size` bytes are allocated to it. -/
structure BufferWrite where
  first : Int
  last : Int
  size : Int
  deriving DecidableEq, Repr

/-- The state of the `.VARIABLES` loop: `max`, the bytes allocated to
`var->value`; `len`; `off`, that is `p - var->value`; and the writes made
so far. -/
structure NamesBuffer where
  max : Int
  len : Int
  off : Int
  writes : List BufferWrite
  deriving DecidableEq, Repr

/-- One turn of the loop, for a name of `int` length `l`: add `l + 1` to
`len`; when it passes `max`, grow `max` by `EXPANSION_INCREMENT (l + 1)`
and reallocate; copy the name and write a space at `p`. -/
def namesStep (arith : Int → Option Int) (b : NamesBuffer) (l : Int) : Option NamesBuffer := do
  let l1 ← arith (l + 1)
  let len ← sizeArith (b.len + l1)
  let max ← if b.max < len then do sizeArith (b.max + (← expansionIncrement arith l1))
    else pure b.max
  pure { max := max, len := len, off := b.off + l + 1,
         writes := b.writes ++ [⟨b.off, b.off + l, max⟩, ⟨b.off + l, b.off + l + 1, max⟩] }

/-- The loop over the names' lengths, in table order. -/
def namesLoop (arith : Int → Option Int) : NamesBuffer → List Int → Option NamesBuffer
  | b, [] => some b
  | b, l :: ls => (namesStep arith b l).bind fun b => namesLoop arith b ls

/-- The `.VARIABLES` branch of `lookup_special_var` on the buffer: allocate
`EXPANSION_INCREMENT (strlen (var->value))` bytes, run the loop from
`len = 0` and `p = var->value`, then write the terminator at `p - 1`. -/
def variablesBuffer (arith : Int → Option Int) (v0 : Int) (ls : List Int) : Option NamesBuffer := do
  let max ← expansionIncrement sizeArith v0
  let b ← namesLoop arith ⟨max, 0, 0, []⟩ ls
  pure { b with writes := b.writes ++ [⟨b.off - 1, b.off, b.max⟩] }

end MakeVariables
