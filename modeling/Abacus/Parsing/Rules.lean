import Abacus.Parsing.Outcome

/-!
The rules of the calculator language:

    program = item*            item = stmt | "{" item* "}"
    stmt = "print" expr ";" | expr ";"
    expr = term (("+" | "-") term)*
    term = unary (("*" | "/") unary)*
    unary = ("+" | "-") unary | primary
    primary = "mem" | INT | "(" expr ")"

with blanks and comments before every token. Sums and products group to the left; blocks leave no trace in the
tree.
-/

namespace Abacus.Parsing

def openBrace : UInt8 := 0x7b

def closeBrace : UInt8 := 0x7d

def literalBound : Nat := 0x8000000000000000

namespace Rule

def mem : Named Expr where
  name := "Mem"
  parse := do
    let start ← Parser.here
    Parser.word "mem"
    return .mem ⟨start, ← Parser.here⟩

def int : Named Expr where
  name := "Int"
  parse c :=
    let ds := c.rest.takeWhile isDigit
    let after := c.advance ds.length
    if ds.isEmpty then .failed .integer c.pos
    else match after.rest.head?.filter isWordByte with
      | some b => .failed (.digit b) after.pos
      | none =>
        if digitsValue ds < literalBound then
          .done (.int ⟨c.pos, after.pos⟩ (Int64.ofNat (digitsValue ds))) after
        else .failed (.range (asciiText ds)) after.pos

def paren (expr : Parser Expr) : Named Expr where
  name := "Paren"
  parse := do
    let start ← Parser.ahead
    (Named.text "(").token.part 0
    let x ← Named.part ⟨"Expr", expr⟩ 1
    (Named.text ")").token.part 2
    return .paren ⟨start, ← Parser.here⟩ x

def primary (expr : Parser Expr) : Parser Expr :=
  Parser.firstOf [mem.token, int.token, paren expr]

def unaryUpTo (expr : Parser Expr) : Nat → Parser Expr
  | 0 => primary expr
  | n + 1 => fun c =>
    let start := Blanks.all.skip c
    match start.rest.head?.bind Sign.ofByte? with
    | none => primary expr c
    | some s =>
      ((unaryUpTo expr n).within (s.symbol ++ " operand") (start.advance 1)).map fun x =>
        .signed ⟨start.pos, x.span.stop⟩ (.known s) x

def unary (expr : Parser Expr) : Parser Expr := fun c => unaryUpTo expr c.rest.length c

def joined (ops : List Oper) (arg : Parser Expr) : Parser Expr :=
  Parser.chain (arg.within "first arg")
    (Named.token ⟨"AnyOf", Parser.firstOf (ops.map Named.oper)⟩).parse
    fun x o => do return x.join o (← arg.within "arg")

def term (expr : Parser Expr) : Parser Expr := joined [.mul, .div] (unary expr)

def exprOver (inner : Parser Expr) : Parser Expr := joined [.add, .sub] (term inner)

def exprUpTo : Nat → Parser Expr
  | 0 => exprOver (Parser.fail .integer)
  | n + 1 => fun c => exprOver (exprUpTo n) c

def expr : Parser Expr := fun c => exprUpTo c.rest.length c

def printStmt : Named Stmt where
  name := "PrintStmt"
  parse := do
    let start ← Parser.ahead
    (Named.word "print").token.part 0
    let x ← Named.part ⟨"Expr", expr⟩ 1
    (Named.text ";").token.part 2
    return .print ⟨start, ← Parser.here⟩ x

def assignStmt : Named Stmt where
  name := "ExprStmt"
  parse := do
    let start ← Parser.ahead
    let x ← Named.part ⟨"Expr", expr⟩ 0
    (Named.text ";").token.part 1
    return .assign ⟨start, ← Parser.here⟩ x

def stmt : Parser Stmt := Parser.firstOf [printStmt, assignStmt]

def inBlocks : Nat → Reason → Reason
  | 0, r => r
  | n + 1, r => .within "block" (inBlocks n r)

def atEnd (outer : List (List Stmt)) (inner : List Stmt) (c : Cursor) : Outcome (List Stmt) :=
  if outer.isEmpty then .done inner c
  else .failed (inBlocks outer.length .unclosed) (Blanks.all.skip c).pos

/-- At most `n` more statements and braces. `inner` holds the statements of the innermost open block, and
`outer` those read before each open block, innermost first. -/
def items : Nat → List (List Stmt) → List Stmt → Parser (List Stmt)
  | 0, outer, inner => atEnd outer inner
  | n + 1, outer, inner => fun c =>
    let next := Blanks.all.skip c
    match next.rest.head? with
    | none => atEnd outer inner c
    | some b =>
      if b = openBrace then items n (inner :: outer) [] (next.advance 1)
      else if b = closeBrace then
        match outer with
        | [] => .done inner c
        | before :: outer => items n outer (before ++ inner) (next.advance 1)
      else match stmt c with
        | .done s c' => items n outer (inner ++ [s]) c'
        | .failed r i =>
          .failed (inBlocks outer.length (.within ("stmt " ++ toString inner.length) r)) i
        | .broken e => .broken e

def program : Parser Program := fun c =>
  match items c.rest.length [] [] c with
  | .done l c' => .done ⟨⟨(Blanks.all.skip c).pos, c'.pos⟩, l⟩ c'
  | .failed r i => .failed r i
  | .broken e => .broken e

end Rule

end Abacus.Parsing
