import Abacus.Fault

/-!
Syntax trees of calculator programs. A tree put together by hand may miss nodes, hold nodes of a foreign kind
and use operator numbers that name nothing; `WellFormed` says that it does none of this.
-/

namespace Abacus

structure Span where
  pos : Int
  stop : Int
  deriving DecidableEq, Repr

inductive Sign where
  | plus
  | minus
  deriving DecidableEq, Repr

inductive Oper where
  | add
  | sub
  | mul
  | div
  deriving DecidableEq, Repr

inductive Expr where
  | absent
  | foreign (kind : String)
  | mem (span : Span)
  | int (span : Span) (value : Int64)
  | paren (span : Span) (x : Expr)
  | signed (span : Span) (op : Coded Sign) (x : Expr)
  | binary (span : Span) (op : Coded Oper) (left right : Expr)
  deriving DecidableEq, Repr, Inhabited

inductive Stmt where
  | absent
  | foreign (kind : String)
  | assign (span : Span) (x : Expr)
  | print (span : Span) (x : Expr)
  deriving DecidableEq, Repr, Inhabited

structure Program where
  span : Span
  stmts : List Stmt
  deriving DecidableEq, Repr

inductive Node where
  | program (p : Program)
  | stmt (s : Stmt)
  | expr (x : Expr)
  | foreign (kind : String)
  deriving DecidableEq, Repr

namespace Sign

def ofCode : Int → Coded Sign
  | 0 => .known .plus
  | 1 => .known .minus
  | n => .beyond n

def ofByte? (b : UInt8) : Option Sign :=
  if b = 0x2b then some .plus else if b = 0x2d then some .minus else none

def symbol : Sign → String
  | .plus => "+"
  | .minus => "-"

end Sign

namespace Oper

def ofCode : Int → Coded Oper
  | 0 => .known .add
  | 1 => .known .sub
  | 2 => .known .mul
  | 3 => .known .div
  | n => .beyond n

def symbol : Oper → String
  | .add => "+"
  | .sub => "-"
  | .mul => "*"
  | .div => "/"

def precedence : Oper → Nat
  | .add | .sub => 1
  | .mul | .div => 2

end Oper

namespace Expr

def span : Expr → Span
  | .absent | .foreign _ => ⟨0, 0⟩
  | .mem s | .int s _ | .paren s _ | .signed s _ _ | .binary s _ _ _ => s

def kind : Expr → String
  | .absent => "<nil>"
  | .foreign k => k
  | .mem _ => "ast.Mem"
  | .int _ _ => "ast.Int"
  | .paren _ _ => "ast.Paren"
  | .signed _ _ _ => "ast.Prefix"
  | .binary _ _ _ _ => "ast.Infix"

def join (op : Oper) (left right : Expr) : Expr :=
  .binary ⟨left.span.pos, right.span.stop⟩ (.known op) left right

def WellFormed : Expr → Prop
  | .absent | .foreign _ => False
  | .mem _ | .int _ _ => True
  | .paren _ x => x.WellFormed
  | .signed _ op x => (∃ s, op = .known s) ∧ x.WellFormed
  | .binary _ op l r => (∃ o, op = .known o) ∧ l.WellFormed ∧ r.WellFormed

end Expr

namespace Stmt

def kind : Stmt → String
  | .absent => "<nil>"
  | .foreign k => k
  | .assign _ _ => "ast.ExprStmt"
  | .print _ _ => "ast.PrintStmt"

def WellFormed : Stmt → Prop
  | .absent | .foreign _ => False
  | .assign _ x | .print _ x => x.WellFormed

end Stmt

def Program.WellFormed (p : Program) : Prop := ∀ s ∈ p.stmts, s.WellFormed

end Abacus
