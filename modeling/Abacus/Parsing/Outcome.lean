import Abacus.Parsing.Blanks
import Abacus.Text.Quoted
import Abacus.Tree

/-!
Parsers. A parser reads from a cursor and either is done with a value and the cursor after it, or has failed for
a reason at a position, or has met a fault.
-/

namespace Abacus.Parsing

inductive Reason where
  | text (t : Bytes)
  | word (w : Bytes)
  | integer
  | digit (b : UInt8)
  | range (digits : String)
  | noneOf (names : List String)
  | notExpr (kind : String)
  | notOper (kind : String)
  | unclosed
  | within (label : String) (r : Reason)
  deriving DecidableEq, Repr

namespace Reason

def spoken : List String → String
  | [] => "<none>"
  | [a] => a
  | [a, b] => a ++ " or " ++ b
  | a :: rest => a ++ ", " ++ spoken rest

def message : Reason → String
  | .text t => Text.quotedBytes t ++ " expected"
  | .word w => Text.shownBytes w ++ " expected"
  | .integer => "Int expected"
  | .digit b => "bad digit " ++ Text.quotedByte b ++ " in number"
  | .range ds => "parse Int value: strconv.ParseInt: parsing \"" ++ ds ++ "\": value out of range"
  | .noneOf names => "expected " ++ spoken names
  | .notExpr kind => "Expr expected, got " ++ kind
  | .notOper kind => "BinOper expected, got " ++ kind
  | .unclosed => "\"\x7d\" expected"
  | .within label r => labelled label r.message

end Reason

inductive Outcome (α : Type) where
  | done (value : α) (next : Cursor)
  | failed (reason : Reason) (pos : Nat)
  | broken (fault : Fault)
  deriving DecidableEq, Repr

def Outcome.map {α β : Type} (f : α → β) : Outcome α → Outcome β
  | .done x c => .done (f x) c
  | .failed r i => .failed r i
  | .broken e => .broken e

def Parser (α : Type) := Cursor → Outcome α

namespace Parser

variable {α β : Type}

protected def pure (x : α) : Parser α := fun c => .done x c

protected def bind (p : Parser α) (f : α → Parser β) : Parser β := fun c =>
  match p c with
  | .done x c' => f x c'
  | .failed r i => .failed r i
  | .broken e => .broken e

instance : Monad Parser where
  pure := Parser.pure
  bind := Parser.bind

@[simp] theorem pureApply (x : α) (c : Cursor) : (pure x : Parser α) c = .done x c := rfl

theorem bindApply (p : Parser α) (f : α → Parser β) (c : Cursor) :
    (p >>= f) c =
      match p c with
      | .done x c' => f x c'
      | .failed r i => .failed r i
      | .broken e => .broken e :=
  rfl

def fail (r : Reason) : Parser α := fun c => .failed r c.pos

def halt (e : Fault) : Parser α := fun _ => .broken e

def here : Parser Nat := fun c => .done c.pos c

def ahead : Parser Nat := fun c => .done (Blanks.all.skip c).pos c

def within (label : String) (p : Parser α) : Parser α := fun c =>
  match p c with
  | .failed r i => .failed (.within label r) i
  | o => o

def text (t : Bytes) : Parser Unit := fun c =>
  if t.isPrefixOf c.rest then .done () (c.advance t.length) else .failed (.text t) c.pos

def word (w : Bytes) : Parser Unit := fun c =>
  let after := c.advance w.length
  if w.isPrefixOf c.rest && !(after.rest.head?.any isWordByte) then .done () after
  else .failed (.word w) c.pos

end Parser

structure Named (α : Type) where
  name : String
  parse : Parser α

namespace Named

variable {α : Type}

def text (t : String) : Named Unit := ⟨Text.quoted t, Parser.text t⟩

def word (w : String) : Named Unit := ⟨w, Parser.word w⟩

def oper (o : Oper) : Named Oper := ⟨o.symbol, do Parser.text o.symbol; return o⟩

def spaced (s : Blanks) (p : Named α) : Named α where
  name := p.name
  parse c :=
    match p.parse (s.skip c) with
    | .failed r i => .failed (.within p.name r) (if i = (s.skip c).pos then c.pos else i)
    | o => o

def token (p : Named α) : Named α := p.spaced .all

def part (p : Named α) (j : Nat) : Parser α :=
  Parser.within (p.name ++ " (" ++ toString j ++ ")") p.parse

end Named

namespace Parser

variable {α : Type}

def sequence (j : Nat) : List (Named α) → Parser (List α)
  | [] => pure []
  | p :: ps => do
    let x ← p.part j
    let xs ← sequence (j + 1) ps
    return x :: xs

/-- The first alternative that succeeds at `c`. Of those that fail, only one that moved tells anything, and the
first such reason is kept in `kept`. -/
def firstAt (c : Cursor) (names : List String) : Option (Reason × Nat) → List (Named α) → Outcome α
  | none, [] => .failed (.noneOf names) c.pos
  | some (r, i), [] => .failed r i
  | kept, p :: ps =>
    match p.parse c with
    | .failed r i =>
      if i = c.pos then firstAt c names kept ps
      else firstAt c names (kept.or (some (.within p.name r, i))) ps
    | o => o

def firstOf (ps : List (Named α)) : Parser α := fun c => firstAt c (ps.map Named.name) none ps

def links (op : Parser α) (step : Expr → α → Parser Expr) : Nat → Expr → Parser Expr
  | 0, x => pure x
  | n + 1, x => fun c =>
    if c.rest.isEmpty then .done x c
    else match op c with
      | .failed r i => if i = c.pos then .done x c else .failed (.within "op" r) i
      | .broken e => .broken e
      | .done o c' => if c'.pos = c.pos then .done x c else (step x o >>= links op step n) c'

/-- A first operand and any number of links. Each link takes at least one byte, so there are never more links
than bytes. -/
def chain (first : Parser Expr) (op : Parser α) (step : Expr → α → Parser Expr) : Parser Expr := do
  let x ← first
  fun c => links op step c.rest.length x c

end Parser

end Abacus.Parsing
