/-!
Faults and errors. An error is an answer about the input; a fault says that a caller handed over something
that no caller should: a number that names nothing, a missing or unknown node, an impossible blank.
-/

namespace Abacus

inductive Fault where
  | code (n : Int)
  | node
  | blank
  deriving DecidableEq, Repr

def Fault.message? : Fault → Option String
  | .code n => some (toString n)
  | .node => none
  | .blank => some "too high char code"

inductive Stop (ε : Type) where
  | error (e : ε)
  | fault (f : Fault)
  deriving DecidableEq, Repr

def Stop.mapError {ε δ : Type} (f : ε → δ) : Stop ε → Stop δ
  | .error e => .error (f e)
  | .fault x => .fault x

def labelled (label message : String) : String :=
  if label = "" then message else label ++ ": " ++ message

inductive Coded (α : Type) where
  | known (a : α)
  | beyond (n : Int)
  deriving DecidableEq, Repr

def Coded.get {α : Type} : Coded α → Except Fault α
  | .known a => .ok a
  | .beyond n => .error (.code n)

end Abacus
