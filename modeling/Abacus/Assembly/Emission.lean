import Abacus.Arena.Verify

/-!
The assembly text of an arena: a fixed prelude that defines how a number is printed, a definition for each
global, and a main function that runs the code.
-/

namespace Abacus

namespace Assembly

def lines (ls : List String) : String := String.join (ls.map (· ++ "\n"))

def prelude : String := lines
  ["@.str = private unnamed_addr constant [6 x i8] c\"%lld\\0A\\00\", align 1",
    "",
    "declare i32 @printf(i8*, ...)",
    "",
    "define void @print(i64 %x) \x7b",
    "entry:",
    "  %fmt = getelementptr inbounds [6 x i8], [6 x i8]* @.str, i64 0, i64 0",
    "  %r = call i32 (i8*, ...) @printf(i8* %fmt, i64 %x)",
    "  ret void",
    "\x7d"]

end Assembly

namespace Arena

def scalar (t : Coded Ty) : Except (Stop Defect) String :=
  match t with
  | .known .int => .ok Ty.int.name
  | t => .error (.fault (.code (Ty.code t)))

def used (a : Arena) (id : Handle) : Except (Stop Defect) Value := do
  (← a.slot id).known.mapError Stop.fault

def operandText (a : Arena) (id : Handle) : Except (Stop Defect) String := do
  match ← a.used id with
  | .global name _ => return "@" ++ name
  | .const v => return toString v.toInt
  | .load name _ | .alloca name _ | .binop name _ _ _ => return name
  | .store _ _ | .print _ => throw (.fault .node)

def instText (a : Arena) : Value → Except (Stop Defect) String
  | .global _ _ | .const _ => .error (.fault .node)
  | .load name src => do
    let t ← scalar (← a.used src).type
    return name ++ " = load i64, " ++ t ++ "* " ++ (← a.operandText src)
  | .store src dst => do
    let x ← a.operandText src
    let t ← scalar (← a.used dst).type
    return "store i64 " ++ x ++ ", " ++ t ++ "* " ++ (← a.operandText dst)
  | .alloca name type => do
    return name ++ " = alloca " ++ (← scalar type)
  | .binop name op l r => do
    return name ++ " = " ++ Oper.shown op ++ " i64 " ++ (← a.operandText l) ++ ", " ++ (← a.operandText r)
  | .print x => do
    return "call void @print(i64 " ++ (← a.operandText x) ++ ")"

def globalText (a : Arena) (id : Handle) : Except (Stop Defect) String := do
  let g ← a.used id
  return "@" ++ g.name ++ " = global " ++ (← scalar g.type) ++ " 0\n"

def codeText (a : Arena) (id : Handle) : Except (Stop Defect) String := do
  return "  " ++ (← a.instText (← a.used id)) ++ "\n"

def text (a : Arena) : Except (Stop Defect) String := do
  let globals ← a.globals.toList.mapM a.globalText
  let code ← a.code.toList.mapM a.codeText
  return Assembly.prelude ++ "\n" ++ String.join globals ++ "\ndefine void @main() \x7b\n" ++ String.join code
    ++ "  ret void\n\x7d\n"

end Arena

def Build.emit : Build String := do
  Build.freeze
  Build.ask fun a => a.verify.mapError (Stop.mapError .unverified)
  Build.ask Arena.text

end Abacus
