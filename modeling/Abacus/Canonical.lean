import Abacus.Text.Bytes
import Abacus.Tree

/-!
The canonical text of a tree: one statement a line, one blank around a binary operator, and parentheses only
where the tree would otherwise be read differently.
-/

namespace Abacus

inductive FormatError where
  | node (kind : String)
  | stmt (kind : String)
  | expr (kind : String)
  | within (label : String) (e : FormatError)
  deriving DecidableEq, Repr

def FormatError.message : FormatError → String
  | .node kind => "unsupported type: " ++ kind
  | .stmt kind => "unsupported stmt: " ++ kind
  | .expr kind => "unsupported expr: " ++ kind
  | .within label e => labelled label e.message

abbrev Formatted := Except (Stop FormatError) Bytes

namespace Formatted

def within (label : String) : Formatted → Formatted := Except.mapError (Stop.mapError (.within label))

def known {α : Type} (a : Coded α) : Except (Stop FormatError) α := a.get.mapError Stop.fault

end Formatted

def bracketed (wrap : Bool) (text : Bytes) : Bytes := if wrap then utf8 "(" ++ text ++ utf8 ")" else text

def signPrecedence : Nat := 3

/-- The text of an expression where one of a lower precedence than `prec` has to be in parentheses. -/
def Expr.format (prec : Nat) : Expr → Formatted
  | .absent => .error (.error (.expr Expr.absent.kind))
  | .foreign kind => .error (.error (.expr kind))
  | .mem _ => .ok (utf8 "mem")
  | .int _ v => .ok (signedDecimal v.toInt)
  | .paren _ x => do
    let text ← (x.format 0).within "paren"
    return bracketed true text
  | .signed _ op x => do
    let sign ← Formatted.known op
    let text ← (x.format signPrecedence).within "operand"
    return utf8 sign.symbol ++ text
  | .binary _ op l r => do
    let op ← Formatted.known op
    let left ← (l.format op.precedence).within "left"
    let right ← (r.format (op.precedence + 1)).within "right"
    return bracketed (op.precedence < prec) (left ++ utf8 (" " ++ op.symbol ++ " ") ++ right)

def Stmt.format : Stmt → Formatted
  | .absent => .error (.error (.stmt Stmt.absent.kind))
  | .foreign kind => .error (.error (.stmt kind))
  | .assign _ x => do
    let text ← (x.format 0).within "expr"
    return text ++ utf8 ";\n"
  | .print _ x => do
    let text ← (x.format 0).within "expr"
    return utf8 "print " ++ text ++ utf8 ";\n"

def formatStmts (i : Nat) : List Stmt → Formatted
  | [] => .ok []
  | s :: rest => do
    let text ← s.format.within ("stmt " ++ toString i)
    let others ← formatStmts (i + 1) rest
    return text ++ others

def Program.format (p : Program) : Formatted := formatStmts 0 p.stmts

def Node.format (lead : Bytes) (n : Node) : Formatted := do
  let text ← match n with
    | .program p => p.format
    | .stmt s => s.format
    | .expr x => x.format 0
    | .foreign kind => .error (.error (.node kind))
  return lead ++ text

end Abacus
