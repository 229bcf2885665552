import MakeVariables.Model.Jprint
/-!
# `variable.c` — the database as makefile text

`print_variable` and the printers built on it (`print_auto_variable`,
`print_noauto_variable`, `print_variable_set`, `print_variable_data_base`,
`print_file_variables`, `print_target_variables`), each as the text it
writes to standard output. As for the JSON printers, a text is a list of
characters, `%s` and `fputs` write a C string up to its NUL (`cText`), and
`_ (…)` is read in the C locale, where `print_variable` names the origins
as `jprint_variable` does (`originName`).

`next_token` skips the `ISSPACE` class of `stopchar_map`, which is set up
outside the sources: it is a parameter here, as it is of `nextToken`.
`hash_print_stats` writes counters of the hash table that the model does
not keep (its load, rehashes and collisions): the text it writes for a
set is a parameter too.
-/

namespace MakeVariables

/-- `v->recursive ? v->append ? "+" : "" : ":"`, the text before `= `. -/
def operatorText (v : Variable) : List Char :=
  if v.recursive then (if v.append then ['+'] else []) else [':']

/-- `p = next_token (v->value); p != v->value && *p == '\0'`: the value
is not empty, and all of it is `ISSPACE`. -/
def blankValue (isSpace : Char → Bool) (value : List Char) : Bool :=
  value ≠ [] && (value.dropWhile isSpace).isEmpty

/-- What `print_variable` writes of the value after `= `: `$(subst ,,…)`
around a value of whitespace only, a recursive value as it is, and a
simple one with every `$` doubled. -/
def printedValue (isSpace : Char → Bool) (v : Variable) : List Char :=
  if blankValue isSpace (cText v.value) then "$(subst ,,".toList ++ cText v.value ++ [')']
  else if v.recursive then cText v.value
  else (cText v.value).flatMap fun c => if c = '$' then ['$', '$'] else [c]

/-- The comment line `print_variable` writes first: the origin, whether
the variable is private, and where it was defined when `filenm` is set. -/
def commentLine (v : Variable) : List Char :=
  "# ".toList ++ (originName v.origin).toList ++
    (if v.privateVar then " private".toList else []) ++
    (match v.fileinfo.filenm with
      | some f => " (from '".toList ++ cText f ++ "', line ".toList ++
          Nat.toDigits 10 (v.fileinfo.lineno + v.fileinfo.offset) ++ [')']
      | none => []) ++
    ['\n']

/-- The definition `print_variable` writes after the prefix: a `define`
for a recursive value holding a newline, otherwise `name op= value`. -/
def definitionText (isSpace : Char → Bool) (v : Variable) : List Char :=
  if v.recursive ∧ '\n' ∈ cText v.value then
    "define ".toList ++ cText v.name ++ ['\n'] ++ cText v.value ++ "\nendef\n".toList
  else cText v.name ++ [' '] ++ operatorText v ++ "= ".toList ++ printedValue isSpace v ++ ['\n']

/-- `print_variable (v, prefix)`. The `o_invalid` case, which calls
`abort`, has no counterpart: `VariableOrigin` leaves it out. -/
def printVariable (isSpace : Char → Bool) (v : Variable) (pfx : List Char) : List Char :=
  commentLine v ++ pfx ++ definitionText isSpace v

/-- `print_auto_variable (v, prefix)`. -/
def printAutoVariable (isSpace : Char → Bool) (v : Variable) (pfx : List Char) : List Char :=
  if v.origin = .automatic then printVariable isSpace v pfx else []

/-- `print_noauto_variable (v, prefix)`. -/
def printNoautoVariable (isSpace : Char → Bool) (v : Variable) (pfx : List Char) : List Char :=
  if v.origin ≠ .automatic then printVariable isSpace v pfx else []

/-- The records of a set, in table order, as `hash_map_arg` visits them. -/
def setRecords (st : State) (s : SetId) : List Variable := (st.table s).filterMap st.vars

/-- `print_variable_set (set, prefix, pauto)`; `stats s` is what
`hash_print_stats` writes for the set's table. -/
def printVariableSet (isSpace : Char → Bool) (stats : SetId → List Char) (st : State) (s : SetId)
    (pfx : List Char) (pauto : Bool) : List Char :=
  (setRecords st s).flatMap (fun v =>
      if pauto then printAutoVariable isSpace v pfx else printVariable isSpace v pfx) ++
    "# variable set hash-table stats:\n".toList ++ "# ".toList ++ stats s ++ ['\n']

/-- The lines `print_variable_data_base` writes for one pattern-specific
variable. -/
def printPatternVar (isSpace : Char → Bool) (p : PatternVar) : List Char :=
  ['\n'] ++ cText p.target ++ " :\n".toList ++ printVariable isSpace p.var "# ".toList

/-- `print_variable_data_base ()`: the global set, then every entry of
`pattern_vars` in list order, counted in the `unsigned int rules`. -/
def printVariableDataBase (isSpace : Char → Bool) (stats : SetId → List Char) (st : State)
    (pv : PatternVars) : List Char :=
  "\n# Variables\n\n".toList ++ printVariableSet isSpace stats st globalVariableSet [] false ++
    "\n# Pattern-specific Variable Values\n".toList ++
    (pv.order.filterMap pv.get).flatMap (printPatternVar isSpace) ++
    (if (pv.order.filterMap pv.get).length % uintModulus = 0 then
      "\n# No pattern-specific variable values.\n".toList
    else "\n# ".toList ++ Nat.toDigits 10 ((pv.order.filterMap pv.get).length % uintModulus) ++
      " pattern-specific variable values".toList)

/-- `print_file_variables (file)`: the automatic variables of the file's
own set, each behind `# `. `none` when the file's first link is freed. -/
def printFileVariables (isSpace : Char → Bool) (stats : SetId → List Char) (st : State)
    (file : File) : Option (List Char) :=
  match file.variablesList with
  | none => some []
  | some l => (st.lists l).map fun n => printVariableSet isSpace stats st n.set "# ".toList true

/-- `print_target_variables (file)`: the other variables of the file's
own set, each behind `name: `. `none` when the file's first link is
freed. -/
def printTargetVariables (isSpace : Char → Bool) (st : State) (file : File) :
    Option (List Char) :=
  match file.variablesList with
  | none => some []
  | some l => (st.lists l).map fun n =>
      (setRecords st n.set).flatMap fun v => printNoautoVariable isSpace v (cText file.name ++ [':', ' '])

end MakeVariables
