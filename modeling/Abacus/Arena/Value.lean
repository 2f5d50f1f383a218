import Abacus.Tree

/-!
Values of the intermediate code. A handle names a value of an arena; instructions are the values that do
something when they run, and some of them have a result that others can use.
-/

namespace Abacus

abbrev Handle := Int

inductive Ty where
  | void
  | int
  deriving DecidableEq, Repr

inductive Value where
  | global (name : String) (type : Coded Ty)
  | const (v : Int64)
  | load (name : String) (src : Handle)
  | store (src dst : Handle)
  | alloca (name : String) (type : Coded Ty)
  | binop (name : String) (op : Coded Oper) (l r : Handle)
  | print (x : Handle)
  deriving DecidableEq, Repr

/- How the formatter shows a number whose own text cannot be had. That it does so is taken for granted here. -/
def unnamed (n : Int) : String := "%!v(PANIC=String method: " ++ toString n ++ ")"

namespace Ty

def ofCode : Int → Coded Ty
  | 0 => .known .void
  | 1 => .known .int
  | n => .beyond n

def code : Coded Ty → Int
  | .known .void => 0
  | .known .int => 1
  | .beyond n => n

def name : Ty → String
  | .void => "void"
  | .int => "i64"

def shown : Coded Ty → String
  | .known t => t.name
  | .beyond n => unnamed n

end Ty

namespace Oper

def code : Coded Oper → Int
  | .known .add => 0
  | .known .sub => 1
  | .known .mul => 2
  | .known .div => 3
  | .beyond n => n

def mnemonic : Oper → String
  | .add => "add"
  | .sub => "sub"
  | .mul => "mul"
  | .div => "sdiv"

def shown : Coded Oper → String
  | .known o => o.mnemonic
  | .beyond n => unnamed n

def wire (o : Oper) : List UInt8 :=
  (0x60 + UInt8.ofNat o.mnemonic.length) :: o.mnemonic.toUTF8.data.toList

end Oper

namespace Value

def isGlobal : Value → Bool
  | .global _ _ => true
  | _ => false

def isInstruction : Value → Bool
  | .global _ _ | .const _ => false
  | _ => true

def operands : Value → List Handle
  | .global _ _ | .const _ | .alloca _ _ => []
  | .load _ src => [src]
  | .store src dst => [src, dst]
  | .binop _ _ l r => [l, r]
  | .print x => [x]

def name : Value → String
  | .global n _ | .load n _ | .alloca n _ | .binop n _ _ _ => n
  | .const _ | .store _ _ | .print _ => ""

def type : Value → Coded Ty
  | .global _ t | .alloca _ t => t
  | .const _ | .load _ _ | .binop _ _ _ _ => .known .int
  | .store _ _ | .print _ => .known .void

def hasResult : Value → Bool
  | .store _ _ | .print _ => false
  | _ => true

def kind : Value → String
  | .global _ _ => "Global"
  | .const _ => "Const"
  | .load _ _ => "Load"
  | .store _ _ => "Store"
  | .alloca _ _ => "Alloca"
  | .binop _ _ _ _ => "BinOp"
  | .print _ => "PrintInt"

end Value

inductive Uses where
  | inert
  | broken
  | operands (l : List Handle)
  deriving DecidableEq, Repr

/- Anything else that can be put in the place of a value, such as a reference to one. Whoever asks for its name, its type or
whether it has a result meets a fault. -/
structure Foreign where
  kind : String
  label : String
  fields : String
  uses : Uses
  deriving DecidableEq, Repr

inductive Slot where
  | absent
  | value (v : Value)
  | foreign (f : Foreign)
  deriving DecidableEq, Repr

namespace Slot

def kind : Slot → String
  | .absent => "<nil>"
  | .value v => "ir." ++ v.kind
  | .foreign f => f.kind

def known : Slot → Except Fault Value
  | .value v => .ok v
  | .absent | .foreign _ => .error .node

def isGlobal : Slot → Bool
  | .value v => v.isGlobal
  | .absent | .foreign _ => false

def isInstruction : Slot → Bool
  | .value v => v.isInstruction
  | .foreign f => f.uses != .inert
  | .absent => false

def operands : Slot → Except Fault (List Handle)
  | .value v => .ok v.operands
  | .foreign f =>
    match f.uses with
    | .inert => .ok []
    | .broken => .error .node
    | .operands l => .ok l
  | .absent => .ok []

end Slot

end Abacus
