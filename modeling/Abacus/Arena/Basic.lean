import Abacus.Arena.Value
import Abacus.Text.Quoted

/-!
An arena owns the values and the code of one compilation: values are only ever appended, code lists the
instructions in the order in which they run, and globals are registered under their names before anything else
is allocated. An operation that would break this raises a defect and leaves values and code as they were.
-/

namespace Abacus

inductive Flaw where
  | registrySize (ordered named : Nat)
  | globalDangling (id : Handle)
  | globalKind (id : Handle) (kind : String)
  | globalElsewhere (name : String) (registered id : Handle)
  | order (i : Nat) (id last : Handle)
  | dangling (i : Nat) (id : Handle)
  | notInstruction (i : Nat) (id : Handle) (kind : String)
  | reference (i : Nat) (id used : Handle)
  | noResult (i : Nat) (id used : Handle) (kind : String)
  | nameTaken (i : Nat) (name : String) (id holder : Handle)
  deriving DecidableEq, Repr

def Flaw.message : Flaw → String
  | .registrySize ordered named =>
    "global registry: " ++ toString ordered ++ " ordered, " ++ toString named ++ " named"
  | .globalDangling id => "global " ++ toString id ++ ": dangling"
  | .globalKind id kind => "global " ++ toString id ++ ": " ++ kind ++ " is not a global"
  | .globalElsewhere name registered id =>
    "global " ++ Text.quoted name ++ ": registered as " ++ toString registered ++ ", found at " ++ toString id
  | .order i id last =>
    "code " ++ toString i ++ ": " ++ toString id ++ " recorded after " ++ toString last
  | .dangling i id => "code " ++ toString i ++ ": dangling handle " ++ toString id
  | .notInstruction i id kind =>
    "code " ++ toString i ++ ": " ++ toString id ++ " (" ++ kind ++ ") is not an instruction"
  | .reference i id used => "code " ++ toString i ++ ": " ++ toString id ++ " refers to " ++ toString used
  | .noResult i id used kind =>
    "code " ++ toString i ++ ": " ++ toString id ++ " uses " ++ toString used ++ " (" ++ kind
      ++ ") which has no result"
  | .nameTaken i name id holder =>
    "code " ++ toString i ++ ": name " ++ name ++ " of " ++ toString id ++ " already used by "
      ++ toString holder

inductive Defect where
  | frozen
  | lateGlobal (name : String)
  | globalTwice (name : String)
  | noGlobal (name : String)
  | bareGlobal
  | notInstruction (id : Handle) (kind : String)
  | outOfOrder (id last : Handle)
  | dangling (id : Handle) (size : Nat)
  | forward (user used : Handle)
  | noResult (user used : Handle) (kind : String)
  | notGlobal (id : Handle) (kind : String)
  | unverified (f : Flaw)
  deriving DecidableEq, Repr

def Defect.message : Defect → String
  | .frozen => "modification of frozen context"
  | .lateGlobal name => "global " ++ Text.quoted name ++ " created after lowering started"
  | .globalTwice name => "global " ++ Text.quoted name ++ " created twice"
  | .noGlobal name => "no such global: " ++ Text.quoted name
  | .bareGlobal => "globals must be created with CreateGlobal"
  | .notInstruction id kind => "record non-instruction " ++ toString id ++ " (" ++ kind ++ ")"
  | .outOfOrder id last =>
    "record " ++ toString id ++ " out of order: last recorded " ++ toString last
  | .dangling id size => "dangling handle " ++ toString id ++ " (arena size " ++ toString size ++ ")"
  | .forward user used => "forward reference: " ++ toString user ++ " uses " ++ toString used
  | .noResult user used kind =>
    toString user ++ " uses " ++ toString used ++ " (" ++ kind ++ ") which has no result"
  | .notGlobal id kind => toString id ++ " is not a global: " ++ kind
  | .unverified f => "verify: " ++ f.message

structure Arena where
  values : Array Slot := #[]
  code : Array Handle := #[]
  globals : Array Handle := #[]
  registry : List (String × Handle) := []
  next : Nat := 1
  closed : Bool := false
  frozen : Bool := false
  deriving DecidableEq, Repr

/-- Steps that change an arena. A step that stops keeps what it had done to the arena. -/
abbrev Build := EStateM (Stop Defect) Arena

namespace Arena

def memName : String := "mem"

def slot? (a : Arena) (id : Handle) : Option Slot := if id < 0 then none else a.values[id.toNat]?

def slot (a : Arena) (id : Handle) : Except (Stop Defect) Slot :=
  match a.slot? id with
  | some s => .ok s
  | none => .error (.error (.dangling id a.values.size))

def global (a : Arena) (name : String) : Except (Stop Defect) Handle :=
  match a.registry.lookup name with
  | some id => .ok id
  | none => .error (.error (.noGlobal name))

def mem (a : Arena) : Except (Stop Defect) Handle := a.global memName

def checkOperand (a : Arena) (user used : Handle) : Except (Stop Defect) Unit :=
  if used ≥ user then .error (.error (.forward user used))
  else do
    let s ← a.slot used
    let v ← s.known.mapError Stop.fault
    if v.hasResult then return else throw (.error (.noResult user used s.kind))

def checkOperands (a : Arena) (user : Handle) : List Handle → Except (Stop Defect) Unit
  | [] => .ok ()
  | used :: rest => do
    a.checkOperand user used
    a.checkOperands user rest

def checkUses (a : Arena) (user : Handle) (s : Slot) : Except (Stop Defect) Unit := do
  a.checkOperands user (← s.operands.mapError Stop.fault)

def checkWritable (a : Arena) : Except (Stop Defect) Unit :=
  if a.frozen then .error (.error .frozen) else .ok ()

def checkGlobal (a : Arena) (id : Handle) : Except (Stop Defect) Unit := do
  let s ← a.slot id
  if s.isGlobal then return else throw (.error (.notGlobal id s.kind))

end Arena

namespace Build

def ask {α : Type} (f : Arena → Except (Stop Defect) α) : Build α := do
  match f (← get) with
  | .ok x => return x
  | .error e => throw e

def push (s : Slot) : Build Handle :=
  modifyGet fun a => ((a.values.size : Handle), { a with values := a.values.push s })

def createGlobal (name : String) : Build Handle := do
  ask Arena.checkWritable
  if (← get).closed then throw (.error (.lateGlobal name))
  if ((← get).registry.lookup name).isSome then throw (.error (.globalTwice name))
  let id ← push (.value (.global name (.known .int)))
  modify fun a => { a with registry := a.registry ++ [(name, id)], globals := a.globals.push id }
  return id

def alloc (s : Slot) : Build Handle := do
  ask Arena.checkWritable
  if s.isGlobal then throw (.error .bareGlobal)
  ask fun a => a.checkUses a.values.size s
  modify fun a => { a with closed := true }
  push s

def nextName : Build String := do
  ask Arena.checkWritable
  modifyGet fun a => ("%" ++ toString a.next, { a with next := a.next + 1 })

def record (id : Handle) : Build Unit := do
  ask Arena.checkWritable
  let s ← ask (·.slot id)
  if !s.isInstruction then throw (.error (.notInstruction id s.kind))
  if let some last := (← get).code.back? then
    if last ≥ id then throw (.error (.outOfOrder id last))
  ask (·.checkUses id s)
  modify fun a => { a with code := a.code.push id }

def freeze : Build Unit := modify fun a => { a with frozen := true }

def instruction (v : Value) : Build Handle := do
  let id ← alloc (.value v)
  record id
  return id

def const (v : Int64) : Build Handle := alloc (.value (.const v))

def load (src : Handle) : Build Handle := do
  ask (·.checkGlobal src)
  instruction (.load (← nextName) src)

def store (src dst : Handle) : Build Handle := do
  ask (·.checkGlobal dst)
  instruction (.store src dst)

def alloca (type : Coded Ty) : Build Handle := do
  instruction (.alloca (← nextName) type)

def binop (op : Coded Oper) (l r : Handle) : Build Handle := do
  instruction (.binop (← nextName) op l r)

def print (x : Handle) : Build Handle := instruction (.print x)

end Build

namespace Arena

def new : Arena :=
  { values := #[.value (.global memName (.known .int))]
    globals := #[0]
    registry := [(memName, 0)] }

end Arena

end Abacus
