import Abacus.Assembly.Reading

/-!
Names of a module. Registers without a name are numbered in order of appearance, and a number that is written
out must be the one that the count gives, except that zero stands for any. Every name is defined once, and every
name that is used is defined.
-/

namespace Abacus.Assembly

namespace Naming

def register (count : Nat) (name : Option String) : Option (String × Nat) :=
  match name with
  | none => some (toString count, count + 1)
  | some s =>
    match Token.number? s.toList with
    | none => some (s, count)
    | some k => if k = 0 || k = count then some (toString count, count + 1) else none

def params (count : Nat) : List Param → Option (List Param × Nat)
  | [] => some ([], count)
  | p :: ps => do
    let (n, count) ← register count p.name
    let (ps, count) ← params count ps
    return ({ p with name := some n } :: ps, count)

def insts (count : Nat) : List Inst → Option (List Inst × Nat)
  | [] => some ([], count)
  | i :: is =>
    if i.action.type.isVoid then do
      let (is, count) ← insts count is
      return (i :: is, count)
    else do
      let (n, count) ← register count i.name
      let (is, count) ← insts count is
      return ({ i with name := some n } :: is, count)

def blocks (count : Nat) : List Block → Option (List Block)
  | [] => some []
  | b :: bs => do
    let (n, count) ← register count b.name
    let (is, count) ← insts count b.insts
    let bs ← blocks count bs
    return { b with name := some n, insts := is } :: bs

def func (f : Func) : Option Func :=
  if f.blocks.isEmpty then some f
  else do
    let (ps, count) ← params 0 f.params
    return { f with params := ps, blocks := ← blocks count f.blocks }

end Naming

abbrev Names := List (String × Typ)

def Func.registers (f : Func) : Names :=
  f.params.filterMap (fun p => p.name.map (·, p.type)) ++
    f.blocks.flatMap fun b =>
      b.name.toList.map (·, Typ.label) ++ b.insts.filterMap fun i => i.name.map (·, i.action.type)

def Module.symbols (m : Module) : Names :=
  m.globals.map (fun g => (g.name, .pointer g.type)) ++
    m.funcs.map fun f => (f.name, .pointer (.func f.ret (f.params.map Param.type) f.variadic))

namespace Naming

def arg (symbols registers : Names) (a : Arg) : Option Arg :=
  match a.operand with
  | .register n => (registers.lookup n).map (⟨·, a.operand⟩)
  | .symbol n => (symbols.lookup n).map (⟨·, a.operand⟩)
  | _ => some a

def operand (symbols registers : Names) (o : Operand) : Option Operand :=
  (arg symbols registers ⟨.void, o⟩).map Arg.operand

def action (symbols registers : Names) : Action → Option Action
  | .binary op x y => do return .binary op (← arg symbols registers x) (← operand symbols registers y)
  | .alloca t => some (.alloca t)
  | .load t src => do return .load t (← arg symbols registers src)
  | .store src dst => do return .store (← arg symbols registers src) (← arg symbols registers dst)
  | .call ret sig f args => do
    return .call ret sig (← arg symbols registers f) (← args.mapM (arg symbols registers))
  | .element inbounds t base indices => do
    return .element inbounds t (← arg symbols registers base) (← indices.mapM (arg symbols registers))

def term (symbols registers : Names) : Term → Option Term
  | .ret none => some (.ret none)
  | .ret (some a) => do return .ret (some (← arg symbols registers a))
  | .br target =>
    match registers.lookup target with
    | some .label => some (.br target)
    | _ => none
  | .unreachable => some .unreachable

def block (symbols registers : Names) (b : Block) : Option Block := do
  let insts ← b.insts.mapM fun i => do return { i with action := ← action symbols registers i.action }
  return { b with insts, term := ← term symbols registers b.term }

/-- A function whose registers are defined once and whose operands have the types of their definitions. -/
def resolved (symbols : Names) (f : Func) : Option Func := do
  let f ← func f
  if (f.registers.map Prod.fst).Nodup then
    return { f with blocks := ← f.blocks.mapM (block symbols f.registers) }
  else none

end Naming

def Module.resolve? (m : Module) : Option Module :=
  if (m.symbols.map Prod.fst).Nodup then do
    return { m with funcs := ← m.funcs.mapM (Naming.resolved m.symbols) }
  else none

def Module.ofText? (text : String) : Option Module := do
  let m ← Module.ofTokens? (Token.ofText text)
  m.resolve?

end Abacus.Assembly
