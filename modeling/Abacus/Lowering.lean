import Abacus.Arena.Basic

/-!
Lowering: a tree becomes code of an arena, in the order of evaluation. Parentheses and plus signs leave no
trace; a minus sign subtracts from zero.
-/

namespace Abacus

def Build.known {α : Type} (c : Coded α) : Build α :=
  Build.ask fun _ => c.get.mapError Stop.fault

def Expr.lower : Expr → Build Handle
  | .absent | .foreign _ => throw (.fault .node)
  | .mem _ => do Build.load (← Build.ask Arena.mem)
  | .int _ v => Build.const v
  | .paren _ x => x.lower
  | .signed _ op x => do
    let y ← x.lower
    match ← Build.known op with
    | .plus => return y
    | .minus =>
      let zero ← Build.const 0
      Build.binop (.known .sub) zero y
  | .binary _ op l r => do
    let a ← l.lower
    let b ← r.lower
    let o ← Build.known op
    Build.binop (.known o) a b

def Stmt.lower : Stmt → Build Unit
  | .absent | .foreign _ => throw (.fault .node)
  | .assign _ x => do
    let y ← x.lower
    discard (Build.store y (← Build.ask Arena.mem))
  | .print _ x => do
    let y ← x.lower
    discard (Build.print y)

def lowerStmts : List Stmt → Build Unit
  | [] => return
  | s :: rest => do
    s.lower
    lowerStmts rest

def Program.lower (p : Program) : Build Unit := lowerStmts p.stmts

end Abacus
