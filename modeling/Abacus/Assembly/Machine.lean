import Abacus.Assembly.Module

/-!
Running the main function of a module. Globals of an integer type and stack slots are cells; results are
registers. Whatever the integer type, arithmetic is on 64-bit words and wraps around.
-/

namespace Abacus.Assembly

inductive Trap where
  | divisionByZero
  | undefined (ident : String)
  | loadFrom (ident : String)
  | storeTo (ident : String)
  | allocaType (t : String)
  | call (text : String)
  | kind (name : String)
  | left (t : Trap)
  | right (t : Trap)
  deriving DecidableEq, Repr

def Trap.message : Trap → String
  | .divisionByZero => "division by zero"
  | .undefined ident => "undefined value " ++ ident
  | .loadFrom ident => "load from unknown location " ++ ident
  | .storeTo ident => "store to unknown location " ++ ident
  | .allocaType t => "unsupported alloca type: " ++ t
  | .call text => "unsupported call: " ++ text
  | .kind name => "unsupported instruction: *ir.Inst" ++ name
  | .left t => "left: " ++ t.message
  | .right t => "right: " ++ t.message

structure Result where
  globals : List (String × Int64)
  printed : List Int64
  deriving DecidableEq, Repr

inductive RunError where
  | unreadable
  | initializer (global : String) (init : String)
  | noMain
  | blocks (n : Nat)
  | terminator (text : String)
  | trapped (i : Nat) (inst : String) (trap : Trap) (reached : Result)
  deriving DecidableEq, Repr

namespace RunError

def message? : RunError → Option String
  | .unreadable => none
  | .initializer global init => some ("global @" ++ global ++ ": unsupported initializer " ++ init)
  | .noMain => some "no main function"
  | .blocks n => some ("main: " ++ toString n ++ " blocks, want 1")
  | .terminator text => some ("main: unsupported terminator " ++ text)
  | .trapped i inst trap _ => some ("inst " ++ toString i ++ ": " ++ inst ++ ": " ++ trap.message)

def isDivisionByZero : RunError → Bool
  | .trapped _ _ .divisionByZero _ => true
  | _ => false

end RunError

inductive Place where
  | symbol (name : String)
  | register (name : String)
  deriving DecidableEq, Repr

def Operand.place? : Operand → Option Place
  | .symbol n => some (.symbol n)
  | .register n => some (.register n)
  | _ => none

structure Machine where
  cells : List (Place × Int64) := []
  registers : List (String × Int64) := []
  printed : List Int64 := []
  deriving DecidableEq, Repr

def printName : String := "print"

namespace Machine

def value (m : Machine) (o : Operand) : Except Trap Int64 :=
  match o with
  | .int z => .ok (Int64.ofInt z)
  | .register n =>
    match m.registers.lookup n with
    | some v => .ok v
    | none => .error (.undefined o.ident)
  | _ => .error (.undefined o.ident)

def cell (m : Machine) (address : Operand) (trap : String → Trap) : Except Trap Int64 :=
  match address.place?.bind fun p => m.cells.lookup p with
  | some v => .ok v
  | none => .error (trap address.ident)

def apply (op : BinOp) (l r : Int64) : Except Trap Int64 :=
  match op with
  | .add => .ok (l + r)
  | .sub => .ok (l - r)
  | .mul => .ok (l * r)
  | .sdiv => if r = 0 then .error .divisionByZero else .ok (l / r)
  | op => .error (.kind op.kind)

def isArithmetic : BinOp → Bool
  | .add | .sub | .mul | .sdiv => true
  | _ => false

def define (m : Machine) (name : Option String) (v : Int64) : Machine :=
  match name with
  | some n => { m with registers := (n, v) :: m.registers }
  | none => m

def setCell (m : Machine) (address : Option Place) (v : Int64) : Machine :=
  match address with
  | some p => { m with cells := (p, v) :: m.cells }
  | none => m

end Machine

/- A trap comes with the machine as it was left, not as it was before the instruction. -/
abbrev Exec := EStateM Trap Machine

def Exec.ask {α : Type} (f : Machine → Except Trap α) : Exec α := fun m =>
  match f m with
  | .ok x => .ok x m
  | .error t => .error t m

theorem Exec.bindAsk {α β : Type} (f : Machine → Except Trap α) (g : α → Exec β) (m : Machine) :
    (ask f >>= g) m = match f m with
      | .ok x => g x m
      | .error t => .error t m := by
  simp only [bind, EStateM.bind, ask]
  cases f m <;> rfl

theorem Exec.modifyRun (f : Machine → Machine) (m : Machine) : (modify f : Exec Unit) m = .ok () (f m) := rfl

open Machine in
def Inst.exec (i : Inst) : Exec Unit :=
  match i.action with
  | .alloca t =>
    if t.isInt then modify (·.setCell (i.name.map .register) 0) else throw (.allocaType t.text)
  | .load _ src => do
    let v ← .ask (·.cell src.operand .loadFrom)
    modify (·.define i.name v)
  | .store src dst => do
    -- The cell is looked up before what is stored, so of two traps it is the one that shows.
    let _ ← .ask (·.cell dst.operand .storeTo)
    let v ← .ask (·.value src.operand)
    modify (·.setCell dst.operand.place? v)
  | .binary op x y =>
    if isArithmetic op then do
      let l ← .ask fun m => (m.value x.operand).mapError .left
      let r ← .ask fun m => (m.value y).mapError .right
      let v ← .ask fun _ => apply op l r
      modify (·.define i.name v)
    else throw (.kind op.kind)
  | .call _ _ f args =>
    match f.operand, args with
    | .symbol name, [a] =>
      if name == printName && f.type.isFuncPointer then do
        let v ← .ask (·.value a.operand)
        modify fun m => { m with printed := m.printed ++ [v] }
      else throw (.call i.text)
    | _, _ => throw (.call i.text)
  | .element _ _ _ _ => throw (.kind "GetElementPtr")

namespace Machine

def observe (m : Machine) (names : List String) : Result where
  globals := names.map fun n => (n, (m.cells.lookup (.symbol n)).getD 0)
  printed := m.printed

def steps (names : List String) (n : Nat) (m : Machine) : List Inst → Except RunError Machine
  | [] => .ok m
  | i :: rest =>
    match i.exec m with
    | .ok _ m => steps names (n + 1) m rest
    | .error t m => .error (.trapped n i.text t (m.observe names))

def start (m : Machine) (names : List String) : List Global → Except RunError (Machine × List String)
  | [] => .ok (m, names)
  | g :: rest =>
    if g.type.isInt then
      match g.init with
      | none => start (m.setCell (some (.symbol g.name)) 0) (names ++ [g.name]) rest
      | some (.int z) => start (m.setCell (some (.symbol g.name)) (Int64.ofInt z)) (names ++ [g.name]) rest
      | some o => .error (.initializer g.name (Arg.text ⟨g.type, o⟩))
    else start m names rest

end Machine

def mainName : String := "main"

def Func.run (f : Func) (m : Machine) (names : List String) : Except RunError Result :=
  match f.blocks with
  | [b] => do
    let m ← Machine.steps names 0 m b.insts
    match b.term with
    | .ret _ => return m.observe names
    | t => throw (.terminator t.text)
  | bs => .error (.blocks bs.length)

def Module.run (mod : Module) : Except RunError Result := do
  let (m, names) ← Machine.start {} [] mod.globals
  match mod.funcs.reverse.find? fun f => f.name == mainName with
  | none => throw .noMain
  | some f => f.run m names

end Abacus.Assembly
