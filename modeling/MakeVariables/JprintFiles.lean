import MakeVariables.Jprint
/-!
# The JSON text of the files and rules databases

What `jprint_file_data_base` and `jprint_rule_data_base` write, read back
with the JSON grammar of `Json`.

`jprint_pointer` writes `double_colon` with `%p`, as `0x` and hexadecimal
digits, which is no JSON value: the grammar reads the number `0` and stops
at the `x`, so a member list that reaches the line fails there, whatever
the address and whatever follows (`jprintPointer_double_colon_fails`).
Every target of a double-colon rule, whose `double_colon` is set, makes the
files text unreadable (`double_colon_file_not_json`).

`jprint_rule` opens a rule's object and, when the rule caches its
definition (`_defn`), writes nothing before the comma that precedes its
recipe: no text that starts with such a rule is a JSON value
(`jprintRule_defn_cmds_fails`), and the rules text is unreadable
(`defn_rule_with_recipe_not_json`).
-/

namespace MakeVariables

/-- **`double_colon` ends any member list.** Whatever the address, the
value parser's fuel and the text after it, a list of members that reaches
the line `jprint_pointer` writes for `double_colon` reads the member
`"double_colon": 0` and then meets the `x`, which neither closes the object
nor goes on with a comma. -/
theorem jprintPointer_double_colon_fails (a : Nat) (tail : List Char) (n k : Nat) :
    Json.parseMembers (Json.parseValue n) k (jprintPointer "double_colon" (some a) false ++ tail) =
      none := by
  obtain _ | k := k
  · rfl
  set r := Nat.toDigits 16 a ++ ',' :: '\n' :: tail
  have h : jprintPointer "double_colon" (some a) false ++ tail =
      "  \"double_colon\": 0".toList ++ 'x' :: r := by
    simp only [r, jprintPointer, jprintKeyed, pointerText, lastComma, List.append_assoc]; rfl
  have hm : Json.parseMemberWith (Json.parseValue n) ("  \"double_colon\": 0".toList ++ 'x' :: r) =
      (Json.parseValue n (" 0".toList ++ 'x' :: r)).map fun (v, cs) => (("double_colon".toList, v), cs) :=
    Json.parseMemberWith_key (by decide) rfl rfl
  obtain _ | n := n
  · rw [h, Json.parseMembers, hm]; rfl
  · have hv : Json.parseValue (n + 1) (" 0".toList ++ 'x' :: r) = some (.num ['0'], 'x' :: r) := rfl
    rw [h, Json.parseMembers, hm, hv]; rfl

/-- A file `a` make knows of and nothing more: no prerequisite, no recipe,
no variables, every flag clear. -/
def plainFile : FileRecord :=
  { name := "a", hname := some "a", vpath := none, deps := [], cmds := none, stem := none,
    alsoMake := [], renamed := none, variableSet := none, patVariables := none, parent := none,
    doubleColon := none, lastMtime := 0, mtimeBeforeUpdate := 0, considered := 0,
    commandFlags := 0, updateStatus := 0, commandState := .notStarted, builtin := false,
    precious := false, loaded := false, unloaded := false, lowResolutionTime := false,
    triedImplicit := false, updating := false, updated := false, isTarget := false,
    cmdTarget := false, phony := false, intermediate := false, isExplicit := false,
    secondary := false, notintermediate := false, dontcare := false, ignoreVpath := false,
    patSearched := false, noDiag := false, wasShuffled := false, snapped := false }

/-- `a` as the target of a double-colon rule, its `double_colon` pointing
to its own record at address `0x1000`. -/
def doubleColonFile : FileRecord := { plainFile with doubleColon := some 4096 }

set_option maxRecDepth 10000 in
/-- The files table holding `a` alone is written as one JSON member; once
`a` is a double-colon target it is not. -/
theorem double_colon_file_not_json :
    (memberText (jprintFileDataBase true false State.initial [plainFile])).isSome = true ∧
      memberText (jprintFileDataBase true false State.initial [doubleColonFile]) = none :=
  ⟨rfl, rfl⟩

/-- The pattern rule `%.o: %.c` with the recipe `cc -c $<` read from line
2 of `Makefile`, its definition not cached. -/
def ruleO : Rule :=
  { targets := ["%.o"], terminal := false, deps := [⟨"%.c", false, false⟩],
    cmds := some ⟨⟨some "Makefile", 2, 0⟩, "cc -c $<"⟩, defn := none }

/-- **A rule with `_defn` and a recipe is no JSON value.** Whatever the
rule's targets and prerequisites, the fuel and the text after it,
`jprint_rule` writes `{` and then the comma before `"cmds"`, where an
object needs a key or `}`. -/
theorem jprintRule_defn_cmds_fails {r : Rule} {d : String} {c : Commands} (hd : r.defn = some d)
    (hc : r.cmds = some c) (tail : List Char) (n : Nat) :
    Json.parseValue n (jprintRule r ++ tail) = none := by
  have h : jprintRule r ++ tail = "    \x7b \n,".toList ++
      '\n' :: (jprintCmds "cmds" (some c) true ++ "    \x7d \n".toList ++ tail) := by
    simp only [jprintRule, hd, hc, List.append_nil, List.append_assoc]; rfl
  rw [h]
  obtain _ | n := n <;> rfl

/-- `%.o: %.c` with its definition cached: no text that starts with it is
a JSON value. -/
theorem jprintRule_defn_cmds_fails_ruleO :
    ({ ruleO with defn := some "%.o: %.c" } : Rule).defn = some "%.o: %.c" ∧
      ({ ruleO with defn := some "%.o: %.c" } : Rule).cmds =
        some ⟨⟨some "Makefile", 2, 0⟩, "cc -c $<"⟩ ∧
      Json.parseValue 100 (jprintRule { ruleO with defn := some "%.o: %.c" } ++ []) = none :=
  ⟨rfl, rfl, jprintRule_defn_cmds_fails rfl rfl [] 100⟩

set_option maxRecDepth 10000 in
/-- `pattern_rules` holding `%.o: %.c` alone is written as one JSON member;
once the rule caches its definition it is not. -/
theorem defn_rule_with_recipe_not_json :
    (memberText (jprintRuleDataBase true [ruleO] 1).1).isSome = true ∧
      memberText (jprintRuleDataBase true [{ ruleO with defn := some "%.o: %.c" }] 1).1 = none :=
  ⟨rfl, rfl⟩

end MakeVariables
