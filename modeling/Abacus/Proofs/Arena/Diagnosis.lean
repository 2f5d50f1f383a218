import Abacus.Proofs.Arena.Verification
import Mathlib.Data.List.Induction

/-! What the verifier says of any code, however it came about. One pass with a growing table of names decides a
condition on the code as a whole, and the place that it stops at is the first one up to which the code breaks it. -/
namespace Abacus

def Flaw.place? : Flaw → Option Nat
  | .registrySize _ _ | .globalDangling _ | .globalKind _ _ | .globalElsewhere _ _ _ => none
  | .order i _ _ | .dangling i _ | .notInstruction i _ _ | .reference i _ _ | .noResult i _ _ _
  | .nameTaken i _ _ _ => some i

namespace Arena

def Executable (a : Arena) (id : Int) : Prop :=
  ∃ v, a.slot? id = some (.value v) ∧ v.isInstruction = true ∧
    ∀ used ∈ v.operands, 0 ≤ used ∧ used < id ∧ a.Provides used

def namesOf (a : Arena) (code : List Int) : List String := (code.filterMap a.resultName?).filter (· ≠ "")

section Conditions

variable {a : Arena} {code done : List Int} {id : Int}

structure Continues (a : Arena) (done : List Int) (id : Int) : Prop where
  later : ∀ x ∈ done, x < id
  executable : a.Executable id
  unused : ∀ name ∈ a.namesOf [id], name ∉ a.namesOf done ∧ ∀ entry ∈ a.registry, name ≠ "@" ++ entry.1

end Conditions

section Remembering

variable {a : Arena} {done : List Int} {last id : Int} {names : List (String × Int)}

end Remembering

section Judgement

variable {a : Arena} (full : Slot.absent ∉ a.values)

include full

end Judgement

end Arena

end Abacus
