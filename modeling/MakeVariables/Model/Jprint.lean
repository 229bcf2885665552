import MakeVariables.Model.Pattern
import MakeVariables.Model.State
/-!
# `jprint.c` — the databases as JSON text

The copy of `jprint.c` at lines 493–1396: `print_escaped_string`, the
variable printers (`jprint_variable`, `jprint_variable_set`,
`jprint_variable_data_base`), the file printers (`jprint_file` and the
emitters it calls, `jprint_file_data_base`) and the rule printers
(`jprint_rule`, `jprint_rule_data_base`), each as the text it writes to
the JSON file. A text is a list of characters; `%s` writes a C string up
to its NUL (`cText`), while `print_escaped_string` walks its bytes
(`cBytes`), with `char` signed as on x86-64. `_ (…)` is read in the C
locale, and `%p` as glibc writes it.
-/

namespace MakeVariables

/-- What `%s` writes of a string: its characters up to the first NUL. -/
def cText (s : String) : List Char := s.toList.takeWhile (· ≠ '\x00')

/-- `%2x`: lower-case hexadecimal, padded with blanks to two places. -/
def hexPad2 (n : Nat) : List Char :=
  List.replicate (2 - (Nat.toDigits 16 n).length) ' ' ++ Nat.toDigits 16 n

/-- What `print_escaped_string` writes for the byte of value `b`: the
`switch` on it, then, by default, `\u00%2x` for a control byte or a
negative `char`, and the byte itself otherwise. -/
def escapeByte (b : Nat) : List Char :=
  match b with
  | 8 => "\\n".toList
  | 12 => "\\f".toList
  | 10 => "\\n".toList
  | 13 => "\\r".toList
  | 9 => "\\t".toList
  | 11 => "\\v".toList
  | 92 => "\\\\".toList
  | 47 => "\\/".toList
  | 34 => "\\\"".toList
  | n => if (1 ≤ n ∧ n ≤ 31) ∨ 128 ≤ n then "\\u00".toList ++ hexPad2 n else [Char.ofNat n]

/-- `print_escaped_string (input)`. -/
def printEscapedString (s : String) : List Char := (cBytes s).flatMap fun b => escapeByte b.toNat

/-- The origin names of `jprint_variable`. -/
def originName : VariableOrigin → String
  | .automatic => "automatic"
  | .default => "default"
  | .env => "environment"
  | .file => "makefile"
  | .envOverride => "environment under -e"
  | .command => "command line"
  | .override => "'override' directive"

/-- The lines `jprint_variable` writes for `fileinfo` when `filenm` is set. -/
def sourceLines (floc : Floc) : List Char :=
  match floc.filenm with
  | some f => "  \"source\": \"".toList ++ cText f ++ "\",\n  \"line\": ".toList ++
      Nat.toDigits 10 (floc.lineno + floc.offset) ++ ",\n".toList
  | none => []

/-- The value line of `jprint_variable`: a `define` for a recursive value
holding a newline, otherwise `append` or `assign`, with `-recursive`. -/
def valueLine (v : Variable) : List Char :=
  if v.recursive ∧ '\n' ∈ cText v.value then
    "  \"define\": \"".toList ++ printEscapedString v.value ++ "\"\n".toList
  else
    "  \"".toList ++ (if v.append then "append" else "assign").toList ++
      (if v.recursive then "-recursive" else "").toList ++ "\": \"".toList ++
      printEscapedString v.value ++ "\"".toList

/-- `jprint_variable (v, state)`: `first` is the `is_first` flag of
`state` (`none` for a `NULL` state). A comma goes before every variable of
a sequence but the first. Returns the text and the flag after the call. -/
def jprintVariable (v : Variable) (first : Option Bool) : List Char × Option Bool :=
  ((if first = some false then ",\n".toList else []) ++
    "\"".toList ++ cText v.name ++ "\" : \x7b\n".toList ++
    "  \"origin\": \"".toList ++ (originName v.origin).toList ++ "\",\n".toList ++
    "  \"private\": ".toList ++ (if v.privateVar then "true" else "false").toList ++ ",\n".toList ++
    sourceLines v.fileinfo ++ valueLine v ++ "\n\x7d".toList,
   first.map fun _ => false)

/-- `hash_map_arg` with `jprint_variable` over the records of a table, in
table order, threading the `is_first` flag. -/
def jprintVariables : List Variable → Option Bool → List Char
  | [], _ => []
  | v :: vs, first => (jprintVariable v first).1 ++ jprintVariables vs (jprintVariable v first).2

/-- `jprint_variable_set (key, set, pauto, is_last)`, with a fresh
`is_first`; `pauto` keeps the automatic variables only. -/
def jprintVariableSet (key : String) (st : State) (set : Option SetId) (pauto isLast : Bool) :
    List Char :=
  match set with
  | none => []
  | some s =>
    "  \"".toList ++ cText key ++ "\": \x7b\n".toList ++
      jprintVariables (((st.table s).filterMap st.vars).filter fun v =>
        !pauto || v.origin == .automatic) (some true) ++
      ("\x7d" ++ (if isLast then "" else ",") ++ "\n").toList

/-- `jprint_variable_data_base (is_last)` over `global_variable_set` and
`pattern_vars`. `none` when `pattern_vars` is not empty: the loop passes
`(void *)&jstate`, a `jprint_state **`, where `jprint_variable` reads a
`jprint_state *`, so its `state->is_first = 0` writes into the pointer
`jstate` itself, which the next `jprintf_ (jstate, …)` dereferences. -/
def jprintVariableDataBase (isLast : Bool) (st : State) (pv : PatternVars) : Option (List Char) :=
  match pv.order.filterMap pv.get with
  | [] => some ("\"variables\": \x7b\n".toList ++
      jprintVariableSet "global" st (some globalVariableSet) false false ++
      "\"pattern-specific-variables\" : \x7b\n".toList ++ "\n\x7d,\n".toList ++
      "  \"pattern-specific-rule-count\": ".toList ++ Nat.toDigits 10 0 ++ "\n".toList ++
      ("\x7d" ++ (if isLast then "" else ",")).toList)
  | _ :: _ => none

/-! ## Files -/

/-- `struct dep` as the printers read it: `dep_name (d)`, and the two
flags `jprint_rule` tests. -/
structure Dep where
  name : String
  ignoreMtime : Bool
  waitHere : Bool
  deriving DecidableEq, Repr

/-- `struct commands` as `jprint_cmds` reads it. -/
structure Commands where
  fileinfo : Floc
  commands : String
  deriving DecidableEq, Repr

/-- Modelled from the spec: `enum cmd_state` of `filedef.h`, whose
declaration is missing; the two-bit field holds one of the four `cs_…`
constants `jprint_command_state` names. -/
inductive CommandState
  | notStarted
  | depsRunning
  | running
  | finished
  deriving DecidableEq, Repr

/-- `struct file` as `jprint_file` reads it. A pointer to another file
stands for the name printed of it; `double_colon`, printed with `%p`, is
an address. `variables` (`variableSet` here, `variables` being a keyword
under Mathlib) and `pat_variables` are the sets their links point to. -/
structure FileRecord where
  name : String
  hname : Option String
  vpath : Option String
  deps : List Dep
  cmds : Option Commands
  stem : Option String
  alsoMake : List Dep
  renamed : Option String
  variableSet : Option SetId
  patVariables : Option SetId
  parent : Option String
  doubleColon : Option Nat
  lastMtime : Nat
  mtimeBeforeUpdate : Nat
  considered : Nat
  commandFlags : Int
  updateStatus : Nat
  commandState : CommandState
  builtin : Bool
  precious : Bool
  loaded : Bool
  unloaded : Bool
  lowResolutionTime : Bool
  triedImplicit : Bool
  updating : Bool
  updated : Bool
  isTarget : Bool
  cmdTarget : Bool
  phony : Bool
  intermediate : Bool
  isExplicit : Bool
  secondary : Bool
  notintermediate : Bool
  dontcare : Bool
  ignoreVpath : Bool
  patSearched : Bool
  noDiag : Bool
  wasShuffled : Bool
  snapped : Bool
  deriving DecidableEq, Repr

/-- `is_last ? "" : ","`. -/
def lastComma (isLast : Bool) : List Char := if isLast then [] else [',']

/-- The line the `jprint_…` emitters write: `  "key": `, the value text,
the comma unless last, a newline. -/
def jprintKeyed (key : String) (value : List Char) (isLast : Bool) : List Char :=
  "  \"".toList ++ cText key ++ "\": ".toList ++ value ++ lastComma isLast ++ "\n".toList

/-- `jprint_bool (key, value, is_last)`. -/
def jprintBool (key : String) (value isLast : Bool) : List Char :=
  jprintKeyed key (if value then "true" else "false").toList isLast

/-- `%p` of a non-null pointer, as glibc writes it: `0x` and the address
in lower-case hexadecimal. -/
def pointerText (a : Nat) : List Char := "0x".toList ++ Nat.toDigits 16 a

/-- `jprint_pointer (key, value, is_last)`: nothing for `NULL`. -/
def jprintPointer (key : String) (value : Option Nat) (isLast : Bool) : List Char :=
  match value with
  | none => []
  | some a => jprintKeyed key (pointerText a) isLast

/-- `UINT_MAX + 1`: `unsigned int` values are taken modulo it. -/
def uintModulus : Nat := 4294967296

/-- `jprint_unsigned_int (key, value, is_last)`: `value` converted to
`unsigned int` on the call. -/
def jprintUnsignedInt (key : String) (value : Nat) (isLast : Bool) : List Char :=
  jprintKeyed key (Nat.toDigits 10 (value % uintModulus)) isLast

/-- `jprint_string (key, value, is_last)`: a `NULL` value writes nothing
between the quotes. -/
def jprintString (key : String) (value : Option String) (isLast : Bool) : List Char :=
  jprintKeyed key ('"' :: ((value.map printEscapedString).getD [] ++ ['"'])) isLast

/-- `jprint_enum (key, value, is_last)`, the body of
`jprint_unsigned_int`. -/
def jprintEnum (key : String) (value : Nat) (isLast : Bool) : List Char :=
  jprintUnsignedInt key value isLast

/-- The text `jprint_command_state` writes for each state; `cs_finished`
is written `cs_not_finished`. -/
def commandStateName : CommandState → String
  | .notStarted => "cs_not_started"
  | .depsRunning => "cs_deps_running"
  | .running => "cs_running"
  | .finished => "cs_not_finished"

/-- `jprint_command_state (key, command_state, is_last)`. -/
def jprintCommandState (key : String) (cs : CommandState) (isLast : Bool) : List Char :=
  jprintKeyed key ('"' :: ((commandStateName cs).toList ++ ['"'])) isLast

/-- The lines of `jprint_deps` for a non-empty list: each name in quotes,
a comma after each but the last. -/
def depLines : List Dep → List Char
  | [] => []
  | [d] => "     \"".toList ++ cText d.name ++ "\"".toList ++ "\n".toList
  | d :: ds => "     \"".toList ++ cText d.name ++ "\",".toList ++ "\n".toList ++ depLines ds

/-- `jprint_deps (key, dependencies, is_last)`. -/
def jprintDeps (key : String) (deps : List Dep) (isLast : Bool) : List Char :=
  "  \"".toList ++ cText key ++ "\": ".toList ++
    match deps with
    | [] => "  []".toList ++ lastComma isLast ++ "\n".toList
    | _ => "[\n".toList ++ depLines deps ++ "]".toList ++ lastComma isLast ++ "\n".toList

/-- `jprint_cmds (key, cmds, is_last)`: nothing for `NULL`; the source
file and line, or `builtin`, then the escaped recipe. -/
def jprintCmds (key : String) (cmds : Option Commands) (isLast : Bool) : List Char :=
  match cmds with
  | none => []
  | some c =>
    "\"".toList ++ cText key ++ "\" : \x7b\n\"source\": ".toList ++
      (match c.fileinfo.filenm with
       | none => "\"builtin\", ".toList
       | some f => "\"".toList ++ cText f ++ "\",\n \"line\": ".toList ++
          Nat.toDigits 10 c.fileinfo.lineno ++ ",\n".toList) ++
      "\"commands\": \"".toList ++ printEscapedString c.commands ++ "\"\n\x7d".toList ++
      lastComma isLast ++ "\n".toList

/-- `jprint_target_variables (key, file, is_last)`. The walk passes the
`char *` buffer `t`, holding `name: `, where `jprint_variable` reads a
`jprint_state *`: its `is_first` is the first bytes of `t`, not all zero
since `:` is among them, and the first call clears them. -/
def jprintTargetVariables (key : String) (f : FileRecord) (st : State) (isLast : Bool) :
    List Char :=
  "  \"".toList ++ cText key ++ "\": \x7b\n".toList ++
    (match f.variableSet with
     | none => []
     | some s => jprintVariables (((st.table s).filterMap st.vars).filter
        fun v => v.origin != .automatic) (some true)) ++
    "  \x7d".toList ++ lastComma isLast ++ "\n".toList

/-- The members `jprint_file` writes between its braces. -/
def fileBody (f : FileRecord) (st : State) : List Char :=
  jprintString "hname" f.hname false ++ jprintString "vpath" f.vpath false ++
    jprintDeps "deps" f.deps false ++ jprintCmds "cmds" f.cmds false ++
    jprintString "stem" f.stem false ++ jprintDeps "also_make" f.alsoMake false ++
    (match f.renamed with | none => [] | some r => jprintString "renamed" (some r) false) ++
    (match f.variableSet with
     | none => []
     | some s => jprintVariableSet "variables" st (some s) true false) ++
    jprintTargetVariables "target-variables" f st false ++
    (match f.patVariables with
     | none => []
     | some s => jprintVariableSet "pattern_specific_variables" st (some s) false false) ++
    (match f.parent with | none => [] | some p => jprintString "parent" (some p) false) ++
    jprintPointer "double_colon" f.doubleColon false ++
    jprintUnsignedInt "last_mtime" f.lastMtime false ++
    jprintUnsignedInt "mtime_before_update" f.mtimeBeforeUpdate false ++
    jprintUnsignedInt "considered" f.considered false ++
    "  \"command_flags\": ".toList ++ (toString f.commandFlags).toList ++ ",\n".toList ++
    jprintEnum "update_status" f.updateStatus false ++
    jprintCommandState "command_state" f.commandState false ++
    jprintBool "builtin" f.builtin false ++ jprintBool "precious" f.precious false ++
    jprintBool "loaded" f.loaded false ++ jprintBool "unloaded" f.unloaded false ++
    jprintBool "low_resolution_time" f.lowResolutionTime false ++
    jprintBool "tried_implicit" f.triedImplicit false ++ jprintBool "updating" f.updating false ++
    jprintBool "updated" f.updated false ++ jprintBool "is_target" f.isTarget false ++
    jprintBool "cmd_target" f.cmdTarget false ++ jprintBool "phony" f.phony false ++
    jprintBool "intermediate" f.intermediate false ++ jprintBool "is_explicit" f.isExplicit false ++
    jprintBool "secondary" f.secondary false ++
    jprintBool "notintermediate" f.notintermediate false ++
    jprintBool "dontcare" f.dontcare false ++ jprintBool "ignore_vpath" f.ignoreVpath false ++
    jprintBool "pat_searched" f.patSearched false ++ jprintBool "no_diag" f.noDiag false ++
    jprintBool "was_shuffled" f.wasShuffled false ++ jprintBool "snapped" f.snapped true

/-- `jprint_file (f, state)`: nothing for a builtin file under `-r`
(`no_builtin_rules_flag`); otherwise the comma unless first, the name and
the body. Returns the text and the `is_first` flag after the call. -/
def jprintFile (noBuiltinRules : Bool) (st : State) (f : FileRecord) (first : Option Bool) :
    List Char × Option Bool :=
  if noBuiltinRules ∧ f.builtin then ([], first)
  else
    ((if first = some false then ",\n".toList else []) ++
      "\"".toList ++ cText f.name ++ "\" : \x7b\n".toList ++ fileBody f st ++ "\x7d\n".toList,
     first.map fun _ => false)

/-- `hash_map_arg` with `jprint_file` over the files table, in table order,
threading the `is_first` flag. -/
def jprintFiles (noBuiltinRules : Bool) (st : State) : List FileRecord → Option Bool → List Char
  | [], _ => []
  | f :: fs, first => (jprintFile noBuiltinRules st f first).1 ++
      jprintFiles noBuiltinRules st fs (jprintFile noBuiltinRules st f first).2

/-- `jprint_file_data_base (is_last)` over the files table. -/
def jprintFileDataBase (isLast noBuiltinRules : Bool) (st : State) (files : List FileRecord) :
    List Char :=
  "\n\"files\": \x7b\n".toList ++ jprintFiles noBuiltinRules st files (some true) ++
    "\n\x7d".toList ++ lastComma isLast ++ "\n".toList

/-! ## Rules -/

/-- `struct rule` as `jprint_rule` reads it: the `num` targets, the
prerequisites, the recipe, and the cached definition `_defn`. -/
structure Rule where
  targets : List String
  terminal : Bool
  deps : List Dep
  cmds : Option Commands
  defn : Option String
  deriving DecidableEq, Repr

/-- One prerequisite line of `jprint_rule`: `.WAIT` for a dependency that
waits, its name otherwise. -/
def ruleDepItem (d : Dep) : List Char :=
  if d.waitHere then "        \".WAIT\"".toList
  else "        \"".toList ++ cText d.name ++ "\"".toList

/-- The target lines of `jprint_rule`: the first plain, the next after
`,\n`. -/
def ruleTargetLines (targets : List String) : List Char :=
  (targets.enum.map fun (k, t) =>
    (if k = 0 then [] else ",\n".toList) ++ "      \"".toList ++ cText t ++ "\"".toList).flatten

/-- `jprint_rule (r)`. Without `_defn`: the targets, `terminal`, the
prerequisites that are not order-only, then, from the first order-only
one on, the order-only ones; with `_defn`, none of this. Then the recipe,
after a comma, or a newline. -/
def jprintRule (r : Rule) : List Char :=
  "    \x7b \n".toList ++
    (match r.defn with
     | some _ => []
     | none =>
      "    \"targets\" : [\n".toList ++ ruleTargetLines r.targets ++ "\n    ],\n".toList ++
        (if r.terminal then "      \"terminal\" : true, \n".toList else []) ++
        "      \"deps\" : [\n".toList ++
        ",\n".toList.intercalate ((r.deps.filter fun d => !d.ignoreMtime).map ruleDepItem) ++
        "\n       ],\n".toList ++ "\n      \"ood-deps\" : [\n".toList ++
        ",\n".toList.intercalate (((r.deps.dropWhile fun d => !d.ignoreMtime).filter
          fun d => d.ignoreMtime).map ruleDepItem) ++
        "      ]".toList) ++
    (match r.cmds with
     | some c => ",\n".toList ++ jprintCmds "cmds" (some c) true
     | none => "\n".toList) ++
    "    \x7d \n".toList

/-- `jprint_rule_data_base (is_last)` over `pattern_rules`, with the
`num_pattern_rules` it checks the count against once the text is
written: returns the text, and whether it ends in `fatal`. The counters
are `unsigned int`. -/
def jprintRuleDataBase (isLast : Bool) (rules : List Rule) (numPatternRules : Nat) :
    List Char × Bool :=
  ("\n\"rules\": \x7b".toList ++ "\n  \"implicit-rules\": [\n".toList ++
    ",\n".toList.intercalate (rules.map jprintRule) ++
    "\n],\n \"terminal-rules-count\" : ".toList ++
    Nat.toDigits 10 ((rules.filter Rule.terminal).length % uintModulus) ++ "\n".toList ++
    "\x7d".toList ++ lastComma isLast ++ "\n".toList,
   numPatternRules ≠ rules.length % uintModulus ∧ numPatternRules ≠ 0)

end MakeVariables
