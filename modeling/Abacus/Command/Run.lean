import Abacus.Command.Line
import Abacus.Pipeline

/-!
Carrying out a command: all sources are read first, then each is worked on in turn, and what was printed before
a failure stays printed.
-/

namespace Abacus.Command

def versionText : String := "calc 0.1.0"

inductive Trouble where
  | usage (e : UsageError)
  | noProgram
  | failed (f : Failure)
  deriving DecidableEq, Repr

def Trouble.message : Trouble → String
  | .usage e => e.message
  | .noProgram => "no program: pass --expr or files"
  | .failed f => f.message?.getD ""

def report (v : Verb) (t : Trouble) : String :=
  "error: " ++ (if v = .root then t.message else labelled v.name t.message) ++ "\n"

structure Effect where
  stdout : String := ""
  file : Option (String × String) := none
  trouble : Option Trouble := none
  deriving DecidableEq, Repr

def Effect.stopped (stdout : String) (f : Failure) : Effect := { stdout, trouble := some (.failed f) }

def exprSource (l : Line) : List Source :=
  if l.own.expr = "" then [] else [⟨"-e", utf8 l.own.expr⟩]

def fileSource (name : String) (content : Except FileError Bytes) : Except Trouble Source :=
  match content with
  | .ok text => .ok ⟨name, text⟩
  | .error e => .error (.failed (.within ("read " ++ name) (.file e)))

def sources (l : Line) (files : List Source) : Except Trouble (List Source) :=
  let srcs := exprSource l ++ files
  if srcs.isEmpty then .error .noProgram else .ok srcs

def inTurn (label : String) (work : Source → String × Option Failure) (printed : String) :
    List Source → Effect
  | [] => { stdout := printed }
  | s :: rest =>
    match work s with
    | (text, none) => inTurn label work (printed ++ text) rest
    | (text, some f) => .stopped (printed ++ text) (.within (label ++ " " ++ s.name) f)

def whole {α : Type} (x : Except Failure α) (text : α → String) : String × Option Failure :=
  match x with
  | .ok a => (text a, none)
  | .error f => ("", some f)

def evaluated (s : Source) : String × Option Failure :=
  match s.evaluate with
  | .ok e => ((e.env.tape.map Tape.text).getD "", e.failure)
  | .error f => ("", some f)

def compiled (l : Line) (srcs : List Source) : Effect :=
  match labelFailure "compile" (compileSources srcs) with
  | .error f => .stopped "" f
  | .ok text => if l.own.out = "" then { stdout := text } else { file := some (l.own.out, text) }

def act (l : Line) (srcs : List Source) : Effect :=
  match l.verb with
  | .root | .eval => inTurn "eval" evaluated "" srcs
  | .compile => compiled l srcs
  | .ir => inTurn "lower" (fun s => whole s.lower Arena.listing) "" srcs
  | .check => inTurn "check" (fun s => whole (s.check Assembly.Module.ofText?) fun _ => s.name ++ ": ok\n") "" srcs
  | .fmt => inTurn "format" (fun s => whole s.format asciiText) "" srcs

def Line.tellsVersion (l : Line) : Bool := l.verb = .root && l.own.version

def notWritten (e : FileError) : Trouble := .failed (.within "write output" (.file e))

structure Report where
  exit : Nat
  stdout : String
  stderr : Option String
  directory : Directory
  deriving DecidableEq, Repr

def runLine (d : Directory) (l : Line) : Report :=
  let failed (stdout : String) (t : Trouble) : Report := ⟨1, stdout, some (report l.verb t), d⟩
  if l.tellsVersion then ⟨0, versionText ++ "\n", none, d⟩
  else match l.files.mapM (fun name => fileSource name (d.read name)) >>= sources l with
    | .error t => failed "" t
    | .ok srcs =>
      let e := act l srcs
      match e.trouble, e.file with
      | some t, _ => failed e.stdout t
      | none, none => ⟨0, e.stdout, none, d⟩
      | none, some (name, text) =>
        match d.write name (utf8 text) with
        | .ok d => ⟨0, e.stdout, none, d⟩
        | .error p => failed e.stdout (notWritten p)

def run (d : Directory) (args : List String) : Report :=
  match Request.ofArgs args with
  | .error e => ⟨1, "", some (report e.verb (.usage e)), d⟩
  | .ok (.help text) => ⟨0, text, none, d⟩
  | .ok (.run l) => runLine d l

end Abacus.Command
