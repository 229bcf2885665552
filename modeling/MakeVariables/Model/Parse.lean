import MakeVariables.Model.Definition
/-!
# Parsing a definition — `parse_variable_definition`

The character loop that decides whether a line is a variable definition,
`assign_variable_definition`, which expands the name it finds, and
`try_variable_definition`, which hands the result to `do_variable_definition`.

A line is a list of characters, NUL-terminated: `*p` reads the character
at `p`, the NUL at `line.length` (`readAt`). The loop reads by index, as
the C code does, so a read beyond the terminator is one the model can
name: it stops there with `readPastEnd`. The loop and `NEXT_TOKEN` run on
fuel; the length of the line and two more passes are always enough.

The character classes (`ISBLANK`, `ISSPACE`, the `MAP_COMMENT` part of
`STOP_SET`) come from `stopchar_map`, and `skip_reference` is declared
outside `variable.c`: all four are the parameters of a `ParseContext`.
-/

namespace MakeVariables

/-- Why a scan stops without a result: it read the character at `i`,
beyond the NUL at the line's length; or the fuel ran out. -/
inductive ScanFault
  | readPastEnd (i : Nat)
  | outOfFuel
  deriving DecidableEq, Repr

/-- `*p` on a NUL-terminated line. -/
def readAt (line : List Char) (p : Nat) : Except ScanFault Char :=
  if p ≤ line.length then .ok (line.getD p '\x00') else .error (.readPastEnd p)

/-- What `parse_variable_definition` reads from outside `variable.c`. -/
structure ParseContext where
  /-- `ISBLANK`. -/
  isBlank : Char → Bool
  /-- `ISSPACE`, the class `NEXT_TOKEN` and `next_token` skip. -/
  isSpace : Char → Bool
  /-- The `MAP_COMMENT` class. -/
  isComment : Char → Bool
  /-- `skip_reference (p)`, for a `$` just before `p`. -/
  skipReference : List Char → Nat → Nat

/-- Modelled from the spec: the classes `stopchar_map` gives in the C
locale, set up outside the sources: blanks are space and tab, spaces are
those and newline, vertical tab, form feed and carriage return, and `#`
starts a comment. -/
def stopcharContext (skipReference : List Char → Nat → Nat) : ParseContext where
  isBlank c := c = ' ' || c = '\t'
  isSpace c := c = ' ' || c = '\t' || c = '\n' || c = '\x0b' || c = '\x0c' || c = '\r'
  isComment c := c = '#'
  skipReference := skipReference

/-- `while (ISSPACE (*p)) ++p;`, on fuel. -/
def nextTokenFrom (isSpace : Char → Bool) (line : List Char) : Nat → Nat → Except ScanFault Nat
  | 0, _ => .error .outOfFuel
  | fuel + 1, p => do
    let c ← readAt line p
    if isSpace c then nextTokenFrom isSpace line fuel (p + 1) else pure p

/-- `NEXT_TOKEN (p)` and `next_token (p)`. -/
def nextToken (isSpace : Char → Bool) (line : List Char) (p : Nat) : Except ScanFault Nat :=
  nextTokenFrom isSpace line (line.length + 2) p

/-- Where one pass of the loop leads: another pass from `p` with `end`
and `var->conditional`; the `break` at an operator, with `p` after it;
or `return NULL`. -/
inductive LoopStep
  | next (p : Nat) (end_ : Option Nat) (conditional : Bool)
  | found (p : Nat) (end_ : Nat) (flavor : VariableFlavor) (conditional : Bool)
  | notDefinition
  deriving DecidableEq, Repr

/-- The `c == ':'` branch, `p` after the `:`: `:=`, `::=` and `:::=`, or
`return NULL`. -/
def colonOperator (line : List Char) (p end_ : Nat) (conditional : Bool) :
    Except ScanFault LoopStep := do
  let c ← readAt line p
  if c = '=' then pure (.found (p + 1) end_ .simple conditional)
  else if c = ':' then do
    let c ← readAt line (p + 1)
    if c = '=' then pure (.found (p + 2) end_ .simple conditional)
    else if c = ':' then do
      let d ← readAt line (p + 2)
      pure (if d = '=' then .found (p + 3) end_ .expand conditional else .notDefinition)
    else pure .notDefinition
  else pure .notDefinition

/-- One pass of the loop of `parse_variable_definition`, from `p`: `c =
*p++`, then the comment and NUL test, a blank run, the `?`, the
operators, and `other`. -/
def parseStep (ctx : ParseContext) (line : List Char) (p : Nat) (end_ : Option Nat)
    (conditional : Bool) : Except ScanFault LoopStep := do
  let c ← readAt line p
  if ctx.isComment c || c = '\x00' then pure .notDefinition
  else if ctx.isBlank c then
    if end_.isSome then pure .notDefinition
    else do
      let q ← nextToken ctx.isSpace line (p + 1)
      pure (.next q (some p) conditional)
  else do
    -- `start` is `p`; after a `?` the operator character is the next one
    let (c, q, conditional) ← if c = '?' then (fun d => (d, p + 2, true)) <$> readAt line (p + 1)
      else pure (c, p + 1, conditional)
    if c = '=' then pure (.found q (end_.getD p) .recursive conditional)
    else if c = ':' then colonOperator line q (end_.getD p) conditional
    else do
      let d ← readAt line q
      if d = '=' ∧ c = '+' then pure (.found (q + 1) (end_.getD p) .append conditional)
      else if d = '=' ∧ c = '!' then pure (.found (q + 1) (end_.getD p) .shell conditional)
      else if end_.isSome then pure .notDefinition
      else pure (.next (if c = '$' then ctx.skipReference line q else q) none false)

/-- The `while (1)` loop, on fuel: the position after the operator, `end`,
the flavor and `var->conditional`, or `none` for `return NULL`. -/
def parseLoop (ctx : ParseContext) (line : List Char) :
    Nat → Nat → Option Nat → Bool → Except ScanFault (Option (Nat × Nat × VariableFlavor × Bool))
  | 0, _, _, _ => .error .outOfFuel
  | fuel + 1, p, end_, conditional => do
    match ← parseStep ctx line p end_ conditional with
    | .next q e c => parseLoop ctx line fuel q e c
    | .found q e flavor c => pure (some (q, e, flavor, c))
    | .notDefinition => pure none

/-- The fields `parse_variable_definition` sets on a definition, as
offsets into the line, and the position it returns. -/
structure ParsedDefinition where
  /-- `var->name`. -/
  name : Nat
  /-- `var->length`. -/
  length : Nat
  /-- `var->value`. -/
  value : Nat
  flavor : VariableFlavor
  conditional : Bool
  /-- The pointer returned, just after the operator. -/
  next : Nat
  deriving DecidableEq, Repr

/-- `parse_variable_definition (str, var)`: `none` for `NULL`. -/
def parseVariableDefinition (ctx : ParseContext) (line : List Char) :
    Except ScanFault (Option ParsedDefinition) := do
  let name ← nextToken ctx.isSpace line 0
  match ← parseLoop ctx line (line.length + 2) name none false with
  | none => pure none
  | some (p, end_, flavor, conditional) => do
    let value ← nextToken ctx.isSpace line p
    pure (some ⟨name, end_ - name, value, flavor, conditional, p⟩)

/-- The name a definition delimits. -/
def ParsedDefinition.nameText (d : ParsedDefinition) (line : List Char) : List Char :=
  (line.drop d.name).take d.length

/-- What `assign_variable_definition` leads to: no definition, the fatal
error it reports, or the expanded name with the parsed fields. -/
inductive Assignment
  | notDefinition
  | fatal (message : String)
  | defined (name : String) (d : ParsedDefinition)
  deriving DecidableEq, Repr

/-- `assign_variable_definition (v, line)`: parse, expand the name, and
stop on an empty one. -/
def assignVariableDefinition (cx : Context) (ctx : ParseContext) (st : State)
    (line : List Char) : Except ScanFault Assignment := do
  match ← parseVariableDefinition ctx line with
  | none => pure .notDefinition
  | some d =>
    let name := cx.expand st (String.mk (d.nameText line))
    pure (if name = "" then .fatal "empty variable name" else .defined name d)

/-- The C string that starts at `p`: the characters up to the first NUL. -/
def cStringAt (line : List Char) (p : Nat) : String :=
  String.mk ((line.drop p).takeWhile fun c => c != '\x00')

/-- What `try_variable_definition` leads to: no definition, the fatal
error of `assign_variable_definition`, or what `do_variable_definition`
returned. -/
inductive TryOutcome
  | notDefinition
  | fatal (message : String)
  | defined (result : Option (VarId × State))

/-- `try_variable_definition (flocp, line, origin, scope)`: define the
expanded name with the rest of the line from `v.value`, with the flavor and
the `conditional` flag the parse set. -/
def tryVariableDefinition (cx : Context) (ctx : ParseContext) (flocp : Option Floc)
    (line : List Char) (origin : VariableOrigin) (scope : VariableScope) (st : State) :
    Except ScanFault TryOutcome := do
  match ← assignVariableDefinition cx ctx st line with
  | .notDefinition => pure .notDefinition
  | .fatal message => pure (.fatal message)
  | .defined name d =>
    pure (.defined (doVariableDefinition cx flocp name (cStringAt line d.value) origin d.flavor
      d.conditional scope st))

end MakeVariables
