import Abacus.Arena.Listing
import Abacus.Assembly.Emission
import Abacus.Assembly.Machine
import Abacus.Assembly.Naming
import Abacus.Canonical
import Abacus.Directory
import Abacus.Evaluation
import Abacus.Lowering
import Abacus.Source

/-!
The ways from program text to a result: canonical text, evaluation, intermediate code, assembly text, and the
check that evaluating a program and running its assembly text come to the same.
-/

namespace Abacus

inductive Observed where
  | value (v : Int64)
  | values (vs : List Int64)
  deriving DecidableEq, Repr

def Observed.text : Observed → String
  | .value v => toString v.toInt
  | .values vs => "[" ++ " ".intercalate (vs.map fun v => toString v.toInt) ++ "]"

structure Mismatch where
  what : String
  evaluated : Observed
  compiled : Observed
  deriving DecidableEq, Repr

def Mismatch.message (m : Mismatch) : String :=
  m.what ++ " mismatch: eval " ++ m.evaluated.text ++ ", compiled " ++ m.compiled.text

inductive Failure where
  | source (e : SourceError)
  | format (e : FormatError)
  | eval (e : EvalError)
  | run (e : Assembly.RunError)
  | mismatch (m : Mismatch)
  | file (e : FileError)
  | noSources
  | defect (d : Defect)
  | fault (f : Fault)
  | within (label : String) (f : Failure)
  deriving DecidableEq, Repr

namespace Failure

def message? : Failure → Option String
  | .source e => some e.message
  | .format e => some e.message
  | .eval e => some e.message
  | .run e => e.message?
  | .mismatch m => some m.message
  | .file e => some e.message
  | .noSources => some "no sources"
  | .defect d => some d.message
  | .fault f => f.message?
  | .within label f => f.message?.map (labelled label)

def ofStop {ε : Type} (f : ε → Failure) : Stop ε → Failure
  | .error e => f e
  | .fault x => .fault x

end Failure

def labelFailure {α : Type} (label : String) : Except Failure α → Except Failure α :=
  Except.mapError (.within label)

def parseSources (srcs : List Source) : Except Failure Program :=
  (parse srcs).mapError (Failure.ofStop .source)

def Source.parse (s : Source) : Except Failure Program := labelFailure "parse text" (parseSources [s])

def Source.format (s : Source) : Except Failure Bytes := do
  let p ← s.parse
  p.format.mapError (Failure.ofStop .format)

def build {α : Type} (b : Build α) : Except Failure (α × Arena) :=
  match b Arena.new with
  | .ok x a => .ok (x, a)
  | .error e _ => .error (Failure.ofStop .defect e)

def Source.lower (s : Source) : Except Failure Arena := do
  let p ← s.parse
  let (_, a) ← build p.lower
  return a

structure Evaluated where
  env : Env
  failure : Option Failure
  deriving DecidableEq, Repr

def Program.evaluate (p : Program) (tape : Option Tape) : Evaluated :=
  match Env.run p { tape } with
  | .ok _ env => ⟨env, none⟩
  | .error e env => ⟨env, some (.within "eval" (Failure.ofStop .eval e))⟩

def Source.evaluate (s : Source) : Except Failure Evaluated := do
  let p ← s.parse
  return p.evaluate (some {})

def Program.compile (p : Program) : Except Failure String := do
  let (text, _) ← build (do p.lower; Build.emit)
  return text

def compileSources (srcs : List Source) : Except Failure String := do
  if srcs.isEmpty then throw .noSources
  let p ← labelFailure "parse text" (parseSources srcs)
  p.compile

def compileFile (d : Directory) (name : String) : Except Failure String := do
  let text ← labelFailure "parse file" (labelFailure "read file" ((d.read name).mapError .file))
  let p ← labelFailure "parse file" (parseSources [⟨name, text⟩])
  p.compile

/- What reads assembly text as a module. `Assembly.Module.ofText?` is the one that the commands use. -/
abbrev Reader := String → Option Assembly.Module

def runAssembly (read : Reader) (text : String) : Except Assembly.RunError Assembly.Result :=
  match read text with
  | some m => m.run
  | none => .error .unreadable

def compareRuns (env : Env) (r : Assembly.Result) : Except Failure Unit :=
  let mem := (r.globals.lookup Arena.memName).getD 0
  if env.printed ≠ r.printed then .error (.mismatch ⟨"printed", .values env.printed, .values r.printed⟩)
  else if mem ≠ env.mem then .error (.mismatch ⟨"mem", .value env.mem, .value mem⟩)
  else .ok ()

/-- Compares the evaluation of a program with the run of its assembly text. If both divide by zero, what they
did before is compared. -/
def Program.check (read : Reader) (p : Program) : Except Failure Unit := do
  let evaluated := Env.run p {}
  let text ← p.compile
  match evaluated, runAssembly read text with
  | .ok _ env, .ok r => compareRuns env r
  | .ok _ _, .error e => throw (.within "run compiled" (.run e))
  | .error (.error e) env, .error (.trapped _ _ .divisionByZero r) =>
    if e.isDivisionByZero then compareRuns env r else throw (.within "eval" (.eval e))
  | .error e _, _ => throw (.within "eval" (Failure.ofStop .eval e))

def Source.check (read : Reader) (s : Source) : Except Failure Unit := do
  let p ← s.parse
  p.check read

end Abacus
