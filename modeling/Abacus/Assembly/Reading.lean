import Abacus.Assembly.Module
import Abacus.Assembly.Token

/-! Reading a module from tokens, names as they are written. -/

namespace Abacus.Assembly

abbrev Reading := StateT (List Token) Option

namespace Reading

variable {α : Type}

def next : Reading Token
  | [] => none
  | t :: rest => some (t, rest)

def expect (t : Token) : Reading Unit
  | [] => none
  | u :: rest => if u = t then some ((), rest) else none

def optional (t : Token) : Reading Bool
  | [] => some (false, [])
  | u :: rest => if u = t then some (true, rest) else some (false, u :: rest)

def comma : Reading Unit := expect (.mark ',')

def moreItems (item : Reading α) : Nat → Reading (List α)
  | 0 => failure
  | n + 1 => do
    let x ← item
    match ← next with
    | .mark ')' => return [x]
    | .mark ',' => return x :: (← moreItems item n)
    | _ => failure

def list (item : Reading α) : Reading (List α) := do
  expect (.mark '(')
  if ← optional (.mark ')') then return []
  fun ts => moreItems item ts.length ts

def openings (ns : List Nat) : List Token → List Nat × List Token
  | .mark '[' :: .int n :: .word "x" :: rest => openings (n.toNat :: ns) rest
  | ts => (ns, ts)

def closings : List Nat → Typ → List Token → Option (Typ × List Token)
  | ns, t, .mark '*' :: rest => closings ns (.pointer t) rest
  | n :: ns, t, .mark ']' :: rest => closings ns (.array n t) rest
  | [], t, ts => some (t, ts)
  | _ :: _, _, _ => none

def baseType? : Token → Option Typ
  | .intType bits => some (.int bits)
  | .word "double" => some .double
  | .word "void" => some .void
  | _ => none

def typ : Reading Typ := fun ts =>
  match openings [] ts with
  | (ns, t :: rest) => do closings ns (← baseType? t) rest
  | (_, []) => none

def operand (t : Typ) : Reading Operand := do
  match ← next with
  | .int z => if t.isInt then return .int z else failure
  | .word "null" => if t.isPointer then return .null else failure
  | .word "undef" => return .undef
  | .word "zeroinitializer" => return .zero
  | .word "c" =>
    match ← next with
    | .text s => return .text s
    | _ => failure
  | .register n => return .register n
  | .symbol n => return .symbol n
  | _ => failure

def arg : Reading Arg := do
  let t ← typ
  return ⟨t, ← operand t⟩

def alignment : Reading Unit
  | .mark ',' :: .word "align" :: .int _ :: rest => some ((), rest)
  | ts => some ((), ts)

def paramType : Reading (Option Typ) := do
  if ← optional .dots then return none
  return some (← typ)

def param : Reading (Option Param) := do
  match ← paramType with
  | none => return none
  | some t =>
    fun
    | .register n :: rest => some (some ⟨t, some n⟩, rest)
    | ts => some (some ⟨t, none⟩, ts)

def variadic (xs : List (Option α)) : List α × Bool := (xs.filterMap id, xs.any Option.isNone)

def signature : Reading (Option (List Typ × Bool)) := fun ts =>
  match ts with
  | .mark '(' :: _ => (do return some (variadic (← list paramType))) ts
  | _ => some (none, ts)

def callee : Reading Operand := do
  match ← next with
  | .symbol n => return .symbol n
  | .register n => return .register n
  | _ => failure

def moreArgs : Nat → Reading (List Arg)
  | 0 => return []
  | n + 1 => do
    if ← optional (.mark ',') then return (← arg) :: (← moreArgs n) else return []

def action : Reading Action := do
  match ← next with
  | .word w =>
    match BinOp.ofWord? w, w with
    | some op, _ =>
      let x ← arg
      comma
      return .binary op x (← operand x.type)
    | none, "alloca" =>
      let t ← typ
      alignment
      return .alloca t
    | none, "load" =>
      let t ← typ
      comma
      let src ← arg
      alignment
      return .load t src
    | none, "store" =>
      let src ← arg
      comma
      let dst ← arg
      alignment
      return .store src dst
    | none, "call" =>
      let ret ← typ
      let sig ← signature
      let f ← callee
      let args ← list arg
      return .call ret sig ⟨.pointer (.func ret (args.map Arg.type) false), f⟩ args
    | none, "getelementptr" =>
      let inbounds ← optional (.word "inbounds")
      let t ← typ
      comma
      let base ← arg
      let indices ← fun ts => moreArgs ts.length ts
      return .element inbounds t base indices
    | none, _ => failure
  | _ => failure

def inst : Reading Inst := fun ts =>
  match ts with
  | .register n :: .mark '=' :: rest =>
    match action rest with
    | some (.store _ _, _) => none
    | some (a, rest) => some (⟨some n, a⟩, rest)
    | none => none
  | ts => (Inst.mk none <$> action) ts

def returned : Reading Term := do
  let t ← typ
  if t.isVoid then return .ret none
  return .ret (some ⟨t, ← operand t⟩)

def term : Reading (Option Term) := fun ts =>
  match ts with
  | .word "ret" :: rest => (some <$> returned) rest
  | .word "br" :: .word "label" :: .register n :: rest => some (some (.br n), rest)
  | .word "unreachable" :: rest => some (some .unreachable, rest)
  | ts => some (none, ts)

def straight : Nat → Reading (List Inst × Term)
  | 0 => failure
  | n + 1 => do
    match ← term with
    | some t => return ([], t)
    | none =>
      let i ← inst
      let (is, t) ← straight n
      return (i :: is, t)

def label : Reading (Option String)
  | .label n :: rest => some (some n, rest)
  | ts => some (none, ts)

def block : Reading Block := do
  let name ← label
  let (insts, t) ← fun ts => straight ts.length ts
  return ⟨name, insts, t⟩

def blocks : Nat → Reading (List Block)
  | 0 => failure
  | n + 1 => do
    let b ← block
    if ← optional (.mark '\x7d') then return [b]
    return b :: (← blocks n)

def header : Reading Func := do
  let ret ← typ
  match ← next with
  | .symbol name =>
    let (params, more) := variadic (← list param)
    return ⟨name, ret, params, more, []⟩
  | _ => failure

def define : Reading Func := do
  let f ← header
  expect (.mark '\x7b')
  let bs ← fun ts => blocks ts.length ts
  return { f with blocks := bs }

/-- A global after its name and the equals sign. Only an external one lacks an initial value. -/
def global (name : String) : Reading Global := do
  let outside ← optional (.word "external")
  if !outside then discard (optional (.word "private"))
  discard (optional (.word "unnamed_addr"))
  if !(← optional (.word "global")) then expect (.word "constant")
  let t ← typ
  let init ← if outside then pure none else some <$> operand t
  alignment
  return ⟨name, t, init⟩

def entities : Nat → Module → Reading Module
  | _, m, [] => some (m, [])
  | 0, _, _ => none
  | n + 1, m, .symbol name :: .mark '=' :: rest => do
    let (g, rest) ← global name rest
    entities n { m with globals := m.globals ++ [g] } rest
  | n + 1, m, .word "declare" :: rest => do
    let (f, rest) ← header rest
    entities n { m with funcs := m.funcs ++ [f] } rest
  | n + 1, m, .word "define" :: rest => do
    let (f, rest) ← define rest
    entities n { m with funcs := m.funcs ++ [f] } rest
  | _, _, _ => none

end Reading

def Module.ofTokens? (ts : List Token) : Option Module :=
  (Reading.entities ts.length ⟨[], []⟩ ts).map Prod.fst

end Abacus.Assembly
