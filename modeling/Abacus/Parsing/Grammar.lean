import Abacus.Parsing.Rules

/-! Grammars as data: the rules of the language and everything that can be put together from them. -/

namespace Abacus.Parsing

inductive RuleName where
  | program
  | stmt
  | printStmt
  | assignStmt
  | expr
  | term
  | unary
  | primary
  | mem
  | paren
  | int
  deriving DecidableEq, Repr, Inhabited

inductive Grammar where
  | rule (r : RuleName)
  | text (t : Bytes)
  | word (w : Bytes)
  | oper (o : Coded Oper)
  | allOf (gs : List Grammar)
  | anyOf (gs : List Grammar)
  | spaced (s : Blanks) (g : Grammar)
  | leftToRight (op arg : Grammar)
  deriving Inhabited

inductive Item where
  | program (p : Program)
  | stmt (s : Stmt)
  | expr (x : Expr)
  | text (t : Bytes)
  | word (w : Bytes)
  | oper (o : Oper)
  | list (xs : List Item)

def Item.kind : Item → String
  | .program _ => "*ast.Program"
  | .stmt s => s.kind
  | .expr x => x.kind
  | .text _ => "parse.Const"
  | .word _ => "parse.Keyword"
  | .oper _ => "parse.Op"
  | .list _ => "[]interface \x7b\x7d"

namespace RuleName

def name : RuleName → String
  | .program => "Program"
  | .stmt => "Stmt"
  | .printStmt => "PrintStmt"
  | .assignStmt => "ExprStmt"
  | .expr => "Expr"
  | .term => "Term"
  | .unary => "Unary"
  | .primary => "Primary"
  | .mem => "Mem"
  | .paren => "Paren"
  | .int => "Int"

def parse (r : RuleName) : Parser Item := fun c =>
  match r with
  | .program => (Rule.program c).map .program
  | .stmt => (Rule.stmt c).map .stmt
  | .printStmt => (Rule.printStmt.parse c).map .stmt
  | .assignStmt => (Rule.assignStmt.parse c).map .stmt
  | .expr => (Rule.expr c).map .expr
  | .term => (Rule.term Rule.expr c).map .expr
  | .unary => (Rule.unary Rule.expr c).map .expr
  | .primary => (Rule.primary Rule.expr c).map .expr
  | .mem => (Rule.mem.parse c).map .expr
  | .paren => ((Rule.paren Rule.expr).parse c).map .expr
  | .int => (Rule.int.parse c).map .expr

end RuleName

namespace Grammar

def name : Grammar → String
  | .rule r => r.name
  | .text t => Text.quotedBytes t
  | .word w => Text.shownBytes w
  | .oper (.known o) => o.symbol
  | .oper (.beyond _) => ""
  | .allOf _ => "AllOf"
  | .anyOf _ => "AnyOf"
  | .spaced _ g => g.name
  | .leftToRight _ _ => "LeftToRight"

def operand : Item → Parser Expr
  | .expr x => pure x
  | i => Parser.fail (.notExpr i.kind)

def laterOperand : Item → Parser Expr
  | .expr x => pure x
  | _ => Parser.halt .node

def link (arg : Parser Item) (x : Expr) : Item → Parser Expr
  | .oper o => do return x.join o (← arg.within "arg" >>= laterOperand)
  | i => Parser.fail (.notOper i.kind)

mutual

def parse : Grammar → Parser Item
  | .rule r => r.parse
  | .text t => do Parser.text t; return .text t
  | .word w => do Parser.word w; return .word w
  | .oper (.known o) => do return .oper (← (Named.oper o).parse)
  | .oper (.beyond n) => Parser.halt (.code n)
  | .allOf gs => do return .list (← Parser.sequence 0 (parts gs))
  | .anyOf gs => Parser.firstOf (parts gs)
  | .spaced s g => (Named.spaced s ⟨g.name, g.parse⟩).parse
  | .leftToRight op arg => do
    return .expr (← Parser.chain (arg.parse.within "first arg" >>= operand) op.parse (link arg.parse))

def parts : List Grammar → List (Named Item)
  | [] => []
  | g :: gs => ⟨g.name, g.parse⟩ :: parts gs

end

end Grammar

end Abacus.Parsing
