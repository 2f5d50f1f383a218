import Abacus.Assembly.Constant

/-! Assembly modules and the canonical spelling of their instructions. -/

namespace Abacus.Assembly

inductive Typ where
  | int (bits : Nat)
  | double
  | void
  | label
  | array (length : Nat) (t : Typ)
  | pointer (t : Typ)
  | func (ret : Typ) (params : List Typ) (variadic : Bool)

namespace Typ

def isInt : Typ → Bool
  | .int _ => true
  | _ => false

def isPointer : Typ → Bool
  | .pointer _ => true
  | _ => false

def isVoid : Typ → Bool
  | .void => true
  | _ => false

def isFuncPointer : Typ → Bool
  | .pointer (.func _ _ _) => true
  | _ => false

def listText (params : List String) (variadic : Bool) : String :=
  "(" ++ ", ".intercalate (params ++ if variadic then ["..."] else []) ++ ")"

mutual

def text : Typ → String
  | .int bits => "i" ++ toString bits
  | .double => "double"
  | .void => "void"
  | .label => "label"
  | .array n t => "[" ++ toString n ++ " x " ++ t.text ++ "]"
  | .pointer t => t.text ++ "*"
  | .func ret params variadic => ret.text ++ " " ++ listText (texts params) variadic

def texts : List Typ → List String
  | [] => []
  | t :: ts => t.text :: texts ts

end

end Typ

inductive Operand where
  | int (z : Int)
  | undef
  | null
  | zero
  | text (s : String)
  | register (name : String)
  | symbol (name : String)
  deriving DecidableEq, Repr

structure Arg where
  type : Typ
  operand : Operand

def Operand.ident : Operand → String
  | .int z => constantText z
  | .undef => "undef"
  | .null => "null"
  | .zero => "zeroinitializer"
  | .text s => "c\"" ++ s ++ "\""
  | .register name => "%" ++ name
  | .symbol name => "@" ++ name

def Operand.spelled (t : Typ) (o : Operand) : String :=
  match t, o with
  | .int 1, .int 0 => "false"
  | .int 1, .int 1 => "true"
  | _, o => o.ident

def Arg.text (a : Arg) : String := a.type.text ++ " " ++ a.operand.spelled a.type

inductive BinOp where
  | add
  | sub
  | mul
  | sdiv
  | udiv
  | srem
  | urem
  | and
  | or
  | xor
  | shl
  | lshr
  | ashr
  deriving DecidableEq, Repr

namespace BinOp

def all : List BinOp := [.add, .sub, .mul, .sdiv, .udiv, .srem, .urem, .and, .or, .xor, .shl, .lshr, .ashr]

def word : BinOp → String
  | .add => "add"
  | .sub => "sub"
  | .mul => "mul"
  | .sdiv => "sdiv"
  | .udiv => "udiv"
  | .srem => "srem"
  | .urem => "urem"
  | .and => "and"
  | .or => "or"
  | .xor => "xor"
  | .shl => "shl"
  | .lshr => "lshr"
  | .ashr => "ashr"

def kind : BinOp → String
  | .add => "Add"
  | .sub => "Sub"
  | .mul => "Mul"
  | .sdiv => "SDiv"
  | .udiv => "UDiv"
  | .srem => "SRem"
  | .urem => "URem"
  | .and => "And"
  | .or => "Or"
  | .xor => "Xor"
  | .shl => "Shl"
  | .lshr => "LShr"
  | .ashr => "AShr"

def ofWord? (w : String) : Option BinOp := all.find? fun op => op.word == w

end BinOp

inductive Action where
  | binary (op : BinOp) (x : Arg) (y : Operand)
  | alloca (type : Typ)
  | load (type : Typ) (src : Arg)
  | store (src dst : Arg)
  | call (ret : Typ) (signature : Option (List Typ × Bool)) (callee : Arg) (args : List Arg)
  | element (inbounds : Bool) (type : Typ) (base : Arg) (indices : List Arg)

structure Inst where
  name : Option String
  action : Action

namespace Action

def elementType : Typ → List Arg → Typ
  | .array _ t, _ :: rest => elementType t rest
  | t, _ => t

def type : Action → Typ
  | .binary _ x _ => x.type
  | .alloca t => .pointer t
  | .load t _ => t
  | .store _ _ => .void
  | .call ret _ _ _ => ret
  | .element _ t _ indices => .pointer (elementType t indices.tail)

def text : Action → String
  | .binary op x y => op.word ++ " " ++ x.text ++ ", " ++ y.spelled x.type
  | .alloca t => "alloca " ++ t.text
  | .load t src => "load " ++ t.text ++ ", " ++ src.text
  | .store src dst => "store " ++ src.text ++ ", " ++ dst.text
  | .call ret signature callee args =>
    let more := match signature with
      | some (ps, true) => " " ++ Typ.listText (ps.map Typ.text) true
      | _ => ""
    "call " ++ ret.text ++ more ++ " " ++ callee.operand.ident ++ "(" ++ ", ".intercalate (args.map Arg.text) ++ ")"
  | .element inbounds t base indices =>
    "getelementptr " ++ (if inbounds then "inbounds " else "") ++ t.text ++ ", "
      ++ ", ".intercalate ((base :: indices).map Arg.text)

end Action

def Inst.text (i : Inst) : String :=
  match i.name with
  | some n => if i.action.type.isVoid then i.action.text else "%" ++ n ++ " = " ++ i.action.text
  | none => i.action.text

inductive Term where
  | ret (a : Option Arg)
  | br (target : String)
  | unreachable

def Term.text : Term → String
  | .ret none => "ret void"
  | .ret (some a) => "ret " ++ a.text
  | .br target => "br label %" ++ target
  | .unreachable => "unreachable"

structure Block where
  name : Option String
  insts : List Inst
  term : Term

structure Param where
  type : Typ
  name : Option String

structure Func where
  name : String
  ret : Typ
  params : List Param
  variadic : Bool
  blocks : List Block

structure Global where
  name : String
  type : Typ
  init : Option Operand

structure Module where
  globals : List Global
  funcs : List Func

end Abacus.Assembly
