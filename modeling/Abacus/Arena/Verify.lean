import Abacus.Arena.Basic

/-! The verifier: whether an arena, however it came about, can be emitted as code. -/

namespace Abacus.Arena

/-- The globals in order. Each must be registered under its own name at its own handle; a name that is not
registered counts as registered at handle zero. Answers the symbols that the globals take. -/
def verifyGlobals (a : Arena) (names : List (String × Handle)) :
    List Handle → Except (Stop Flaw) (List (String × Handle))
  | [] => .ok names
  | id :: rest =>
    match a.slot? id with
    | none => .error (.error (.globalDangling id))
    | some (.value (.global name _)) =>
      let registered := (a.registry.lookup name).getD 0
      if registered = id then verifyGlobals a (("@" ++ name, id) :: names) rest
      else .error (.error (.globalElsewhere name registered id))
    | some s => .error (.error (.globalKind id s.kind))

def verifyOperands (a : Arena) (i : Nat) (id : Handle) : List Handle → Except (Stop Flaw) Unit
  | [] => .ok ()
  | used :: rest =>
    if used < 0 || used ≥ id then .error (.error (.reference i id used))
    else match a.slot? used with
      | some (.value v) =>
        if v.hasResult then verifyOperands a i id rest
        else .error (.error (.noResult i id used (Slot.value v).kind))
      | _ => .error (.fault .node)

def verifyCode (a : Arena) (i : Nat) (last : Handle) (names : List (String × Handle)) :
    List Handle → Except (Stop Flaw) Unit
  | [] => .ok ()
  | id :: rest =>
    if id ≤ last then .error (.error (.order i id last))
    else match a.slot? id with
      | none => .error (.error (.dangling i id))
      | some s =>
        if !s.isInstruction then .error (.error (.notInstruction i id s.kind))
        else do
          verifyOperands a i id (← s.operands.mapError Stop.fault)
          let v ← s.known.mapError Stop.fault
          if v.name = "" then verifyCode a (i + 1) id names rest
          else match names.lookup v.name with
            | some holder => .error (.error (.nameTaken i v.name id holder))
            | none => verifyCode a (i + 1) id ((v.name, id) :: names) rest

theorem verifyKnown {a : Arena} {id last : Handle} (later : last < id) {v : Value} (found : a.slot? id = some (.value v))
    (code : v.isInstruction = true) (i : Nat) (names : List (String × Handle)) (ids : List Handle) :
    a.verifyCode i last names (id :: ids) = (do
      a.verifyOperands i id v.operands
      if v.name = "" then a.verifyCode (i + 1) id names ids
      else match names.lookup v.name with
        | some holder => .error (.error (.nameTaken i v.name id holder))
        | none => a.verifyCode (i + 1) id ((v.name, id) :: names) ids) := by
  rw [verifyCode, if_neg (Int.not_le.mpr later), found]
  simp only [Slot.isInstruction, code, Bool.not_true, Bool.false_eq_true, if_false]
  rfl

def verify (a : Arena) : Except (Stop Flaw) Unit :=
  if a.globals.size ≠ a.registry.length then
    .error (.error (.registrySize a.globals.size a.registry.length))
  else do
    let names ← a.verifyGlobals [] a.globals.toList
    a.verifyCode 0 (-1) names a.code.toList

end Abacus.Arena
