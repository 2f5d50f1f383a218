import Abacus.Parsing.Grammar

/-!
Named sources. Several sources make one program: they are laid end to end, each closed by a newline, and a
position in the whole is reported as file, line and column.
-/

namespace Abacus

open Parsing

structure Source where
  name : String
  text : Bytes
  deriving DecidableEq, Repr

def Source.closed (s : Source) : Bytes :=
  if s.text.getLast?.all (· == newline) then s.text else s.text ++ [newline]

def buffer (srcs : List Source) : Bytes := (srcs.map Source.closed).flatten

inductive Complaint where
  | grammar (r : Reason)
  | leftover (pos : Nat)
  deriving DecidableEq, Repr

def Complaint.message : Complaint → String
  | .grammar r => labelled "parse as grammar" r.message
  | .leftover pos => "unexpected text at offset " ++ toString pos

structure Located where
  file : String
  pos : Nat
  line : Nat
  col : Nat
  complaint : Complaint
  deriving DecidableEq, Repr

def Located.message (l : Located) : String :=
  (if l.file = "" then "" else l.file ++ ":") ++ toString l.line ++ ":" ++ toString l.col ++ ": "
    ++ l.complaint.message

inductive SourceError where
  | located (l : Located)
  | notProgram (kind : String)
  deriving DecidableEq, Repr

def SourceError.message : SourceError → String
  | .located l => l.message
  | .notProgram kind => "grammar returned " ++ kind ++ ", want *ast.Program"

/-- The source that holds a position, with the position where the source starts; the last source also holds the
end of the whole. The first of `srcs` starts at `base`. -/
def sourceAt (base : Nat) : List Source → Nat → String × Nat
  | [], _ => ("", 0)
  | [s], _ => (s.name, base)
  | s :: rest, pos =>
    if pos < base + s.closed.length then (s.name, base)
    else sourceAt (base + s.closed.length) rest pos

def columnOf (text : Bytes) : Nat := (text.reverse.takeWhile (· != newline)).length

def locate (srcs : List Source) (pos : Nat) (complaint : Complaint) : Located :=
  let (file, base) := sourceAt 0 srcs pos
  let before := ((buffer srcs).drop base).take (pos - base)
  { file, pos, complaint
    line := 1 + before.count newline
    col := 1 + columnOf before }

def parseWith (g : Grammar) (srcs : List Source) : Except (Stop SourceError) Program :=
  match g.parse ⟨0, buffer srcs⟩ with
  | .failed r i => .error (.error (.located (locate srcs i (.grammar r))))
  | .broken f => .error (.fault f)
  | .done x c =>
    let left := Blanks.all.skip c
    if left.rest.isEmpty then
      match x with
      | .program p => .ok p
      | i => .error (.error (.notProgram i.kind))
    else .error (.error (.located (locate srcs left.pos (.leftover left.pos))))

def parse (srcs : List Source) : Except (Stop SourceError) Program := parseWith (.rule .program) srcs

end Abacus
