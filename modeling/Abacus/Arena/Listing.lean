import Abacus.Arena.Basic
import Abacus.Text.Columns

/-! The listing of an arena: a line for each value, with its handle, its place in the code and its fields. -/

namespace Abacus

def Value.fields : Value → String
  | .global n t => "\x7bName:" ++ n ++ " Type:" ++ Ty.shown t ++ "\x7d"
  | .const v => toString v.toInt
  | .load n src => "\x7bName:" ++ n ++ " Src:" ++ toString src ++ "\x7d"
  | .store src dst => "\x7bSrc:" ++ toString src ++ " Dst:" ++ toString dst ++ "\x7d"
  | .alloca n t => "\x7bName:" ++ n ++ " Type:" ++ Ty.shown t ++ "\x7d"
  | .binop n op l r =>
    "\x7bName:" ++ n ++ " Op:" ++ Oper.shown op ++ " L:" ++ toString l ++ " R:" ++ toString r ++ "\x7d"
  | .print x => "\x7bX:" ++ toString x ++ "\x7d"

def Slot.label : Slot → String
  | .absent => "<nil>"
  | .value v => v.kind.toLower
  | .foreign f => f.label

def Slot.fields : Slot → String
  | .absent => "<nil>"
  | .value v => v.fields
  | .foreign f => f.fields

namespace Arena

def place? (a : Arena) (id : Handle) : Option Nat :=
  (a.code.toList.zipIdx.reverse.find? fun p => p.1 == id).map Prod.snd

def line (a : Arena) (id : Nat) (s : Slot) : String :=
  let mark := match a.place? id with
    | none => "     "
    | some i => "[" ++ Text.padLeft 3 (toString i) ++ "]"
  Text.padLeft 4 (toString id) ++ " " ++ mark ++ " " ++ Text.padRight 8 s.label ++ " " ++ s.fields ++ "\n"

def listing (a : Arena) : String :=
  String.join (a.values.toList.zipIdx.map fun p => a.line p.2 p.1)

end Arena

end Abacus
