import Abacus.Tree

/-!
Direct evaluation. Arithmetic is on 64-bit words and wraps around; division truncates toward zero. A statement
either stores its value in the memory cell or prints it.
-/

namespace Abacus

inductive EvalError where
  | divisionByZero (pos : Int)
  | writeFailed
  | stmt (i : Nat) (e : EvalError)
  deriving DecidableEq, Repr

namespace EvalError

def message : EvalError → String
  | .divisionByZero pos => "at offset " ++ toString pos ++ ": division by zero"
  | .writeFailed => "print: write failed"
  | .stmt i e => "stmt " ++ toString i ++ ": " ++ e.message

def isDivisionByZero : EvalError → Bool
  | .divisionByZero _ => true
  | .writeFailed => false
  | .stmt _ e => e.isDivisionByZero

end EvalError

def Oper.apply (op : Oper) (l r : Int64) (pos : Int) : Except EvalError Int64 :=
  match op with
  | .add => .ok (l + r)
  | .sub => .ok (l - r)
  | .mul => .ok (l * r)
  | .div => if r = 0 then .error (.divisionByZero pos) else .ok (l / r)

def Sign.apply : Sign → Int64 → Int64
  | .plus, v => v
  | .minus, v => -v

def applyCoded (op : Coded Oper) (l r : Int64) (pos : Int) : Except (Stop EvalError) Int64 := do
  let op ← op.get.mapError Stop.fault
  (op.apply l r pos).mapError Stop.error

def Expr.eval (m : Int64) : Expr → Except (Stop EvalError) Int64
  | .absent | .foreign _ => .error (.fault .node)
  | .mem _ => .ok m
  | .int _ v => .ok v
  | .paren _ x => x.eval m
  | .signed _ op x => do
    let v ← x.eval m
    let sign ← op.get.mapError Stop.fault
    return sign.apply v
  | .binary span op l r => do
    let a ← l.eval m
    let b ← r.eval m
    applyCoded op a b span.pos

structure Tape where
  room : Option Nat := none
  text : String := ""
  deriving DecidableEq, Repr

def Tape.write? (t : Tape) (line : String) : Option Tape :=
  match t.room with
  | none => some { t with text := t.text ++ line }
  | some 0 => none
  | some (n + 1) => some { room := some n, text := t.text ++ line }

structure Env where
  mem : Int64 := 0
  printed : List Int64 := []
  tape : Option Tape := none
  deriving DecidableEq, Repr

abbrev Eval := EStateM (Stop EvalError) Env

namespace Env

def eval (x : Expr) : Eval Int64 := do
  match x.eval (← get).mem with
  | .ok v => return v
  | .error e => throw e

def print (v : Int64) : Eval Unit := do
  modify fun e => { e with printed := e.printed ++ [v] }
  match (← get).tape with
  | none => return
  | some t =>
    match t.write? (toString v.toInt ++ "\n") with
    | some t => modify fun e => { e with tape := some t }
    | none => throw (.error .writeFailed)

def stmt : Stmt → Eval Unit
  | .absent | .foreign _ => throw (.fault .node)
  | .assign _ x => do
    let v ← eval x
    modify fun e => { e with mem := v }
  | .print _ x => do
    let v ← eval x
    print v

def stmts (i : Nat) : List Stmt → Eval Unit
  | [] => return
  | s :: rest => do
    EStateM.adaptExcept (Stop.mapError (.stmt i)) (stmt s)
    stmts (i + 1) rest

def run (p : Program) : Eval Unit := stmts 0 p.stmts

end Env

end Abacus
