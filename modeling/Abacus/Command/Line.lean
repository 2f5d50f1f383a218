import Abacus.Text.Columns

/-!
Command lines. The first argument that names a command hands the rest over to it; flags are looked up among the
flags of the current command, then among those of the root command.
-/

namespace Abacus.Command

inductive Verb where
  | root
  | eval
  | compile
  | ir
  | check
  | fmt
  deriving DecidableEq, Repr

inductive Flag where
  | expr
  | verbose
  | help
  | version
  | out
  deriving DecidableEq, Repr

structure Settings where
  expr : String := ""
  verbose : String := ""
  out : String := ""
  version : Bool := false
  deriving DecidableEq, Repr

namespace Verb

def commands : List Verb := [.eval, .compile, .ir, .check, .fmt]

def name : Verb → String
  | .root => "calc"
  | .eval => "eval"
  | .compile => "compile"
  | .ir => "ir"
  | .check => "check"
  | .fmt => "fmt"

def description : Verb → String
  | .root => "calc is a compiler of mem calculator programs"
  | .eval => "interpret programs"
  | .compile => "compile programs into llvm text"
  | .ir => "dump intermediate representation"
  | .check => "compare interpreter and compiled program results"
  | .fmt => "print programs in canonical form"

def flags : Verb → List Flag
  | .root => [.expr, .verbose, .help, .version]
  | .compile => [.expr, .verbose, .help, .out]
  | _ => [.expr, .verbose, .help]

def ofName? (name : String) : Option Verb := commands.find? fun v => v.name == name

end Verb

namespace Flag

def names : Flag → List String
  | .expr => ["expr", "e"]
  | .verbose => ["verbose"]
  | .help => ["help", "h"]
  | .version => ["version", "v"]
  | .out => ["out", "o"]

def heading : Flag → String
  | .help => "help,h=[hidden]"
  | f => ",".intercalate f.names

def description : Flag → String
  | .expr => "program text"
  | .verbose => "tlog verbosity topics"
  | .help => "print command help end exit"
  | .version => "print version"
  | .out => "output file, stdout if empty"

def shown (s : Settings) : Flag → String
  | .expr => s.expr
  | .verbose => s.verbose
  | .help => ""
  | .version => if s.version then "true" else "false"
  | .out => s.out

def truth? (text : String) : Option Bool :=
  let t := text.toLower
  if ["true", "t", "yes", "y", "1", ""].contains t then some true
  else if ["false", "f", "no", "n", "0"].contains t then some false
  else none

end Flag

def helpLine (heading description : String) : String :=
  "    " ++ Text.padRight 20 heading ++ " - " ++ description

def flagLine (s : Settings) (f : Flag) : String :=
  let value := f.shown s
  helpLine f.heading f.description ++ (if value = "" then "" else " (default " ++ value ++ ")") ++ "\n"

def flagLines (v : Verb) (s : Settings) : String := String.join (v.flags.map (flagLine s))

/-- A command with the values of its flags, and the arguments it has collected. `root` holds the values of the
root's flags once another command has taken over. -/
structure Line where
  verb : Verb := .root
  own : Settings := {}
  root : Settings := {}
  files : List String := []
  deriving DecidableEq, Repr

namespace Line

def help (l : Line) : String :=
  l.verb.name ++ " [flags_and_args] - " ++ l.verb.description ++ "\n" ++
    (if l.verb = .root then
      "\nSubcommands\n" ++
        String.join (Verb.commands.map fun v => helpLine v.name v.description ++ "\n")
    else "") ++
    "\nFlags\n" ++ flagLines l.verb l.own ++
    (if l.verb = .root then ""
    else "\nFlags of parent command calc\n" ++ flagLines .root l.root)

def flag? (l : Line) (name : String) : Option (Flag × Bool) :=
  match l.verb.flags.find? fun f => f.names.contains name with
  | some f => some (f, true)
  | none =>
    if l.verb = .root then none
    else (Verb.root.flags.find? fun f => f.names.contains name).map (·, false)

def set (l : Line) (own : Bool) (f : Settings → Settings) : Line :=
  if own then { l with own := f l.own } else { l with root := f l.root }

end Line

inductive UsageProblem where
  | noSuchFlag
  | valueRequired
  | notBool
  deriving DecidableEq, Repr

structure UsageError where
  verb : Verb
  arg : String
  problem : UsageProblem
  deriving DecidableEq, Repr

def UsageError.message (e : UsageError) : String :=
  "parse flag: " ++ e.arg ++ ": " ++
    match e.problem with
    | .noSuchFlag => "no such flag"
    | .valueRequired => "flag value is required"
    | .notBool => "not a bool value"

inductive Request where
  | help (text : String)
  | run (l : Line)
  deriving DecidableEq, Repr

def splitFlag (arg : List Char) : String × Option String :=
  let bare := match arg with
    | '-' :: '-' :: rest => rest
    | '-' :: rest => rest
    | rest => rest
  let name := bare.takeWhile fun c => c != '=' && c != ' '
  (String.ofList name, (bare.drop name.length).tail?.map String.ofList)

def isFlag (arg : String) : Bool := arg.startsWith "-" && arg != "-" && arg != "--"

def Line.read (l : Line) : List String → Except UsageError Request
  | [] => .ok (.run l)
  | arg :: rest =>
    if isFlag arg then
      let (name, value) := splitFlag arg.toList
      let problem (p : UsageProblem) : Except UsageError Request := .error ⟨l.verb, arg, p⟩
      match l.flag? name with
      | none => problem .noSuchFlag
      | some (.help, _) => .ok (.help l.help)
      | some (.version, own) =>
        match Flag.truth? (value.getD "") with
        | some b => (l.set own fun s => { s with version := b }).read rest
        | none => problem .notBool
      | some (f, own) =>
        let update (v : String) : Line := l.set own fun s =>
          match f with
          | .expr => { s with expr := v }
          | .verbose => { s with verbose := v }
          | _ => { s with out := v }
        match value, rest with
        | some v, rest => (update v).read rest
        | none, v :: rest => (update v).read rest
        | none, [] => problem .valueRequired
    else if arg = "--" then .ok (.run { l with files := l.files ++ rest })
    else if l.verb = .root then
      match Verb.ofName? arg with
      | some v => Line.read { verb := v, root := l.own } rest
      | none => Line.read { l with files := l.files ++ [arg] } rest
    else Line.read { l with files := l.files ++ [arg] } rest

def Request.ofArgs (args : List String) : Except UsageError Request := Line.read {} args

end Abacus.Command
