import Abacus.Command.Run

/-! The program: reads the files that the command line names, and does what the command asks for. -/

namespace Abacus.Command

/-- What the system says about a path. Code 20 is a file where a directory should be, code 21 a directory
where a file should be. -/
def fileError (path : String) (e : IO.Error) : FileError :=
  match e with
  | .inappropriateType _ 21 _ => ⟨true, path, .isDirectory⟩
  | .inappropriateType _ 20 _ => ⟨false, path, .notDirectory⟩
  | _ => ⟨false, path, .notFound⟩

def readFile (path : String) : IO (Except FileError Bytes) := do
  try
    let file ← IO.FS.Handle.mk path .read
    return .ok (← file.readBinToEnd).data.toList
  catch e =>
    return .error (fileError path e)

def writeFile (path text : String) : IO (Option FileError) := do
  try
    IO.FS.writeFile path text
    return none
  catch e =>
    return some { fileError path e with reading := false }

def readFiles : List String → IO (Except Trouble (List Source))
  | [] => return .ok []
  | name :: rest => do
    match fileSource name (← readFile name) with
    | .error t => return .error t
    | .ok s => return (s :: ·) <$> (← readFiles rest)

def fail (v : Verb) (t : Trouble) : IO UInt32 := do
  IO.eprint (report v t)
  return 1

def perform (l : Line) : IO UInt32 := do
  if l.tellsVersion then
    IO.println versionText
    return 0
  match (← readFiles l.files) >>= sources l with
  | .error t => fail l.verb t
  | .ok srcs =>
    let e := act l srcs
    IO.print e.stdout
    match e.trouble, e.file with
    | some t, _ => fail l.verb t
    | none, none => return 0
    | none, some (name, text) =>
      match ← writeFile name text with
      | none => return 0
      | some p => fail l.verb (notWritten p)

end Abacus.Command

open Abacus.Command in
def main (args : List String) : IO UInt32 := do
  match Request.ofArgs args with
  | .error e => fail e.verb (.usage e)
  | .ok (.help text) =>
    IO.print text
    return 0
  | .ok (.run l) => perform l
