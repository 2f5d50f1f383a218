import Abacus.Text.Bytes

/-!
A directory of files, seen from inside: paths are relative to it, and names between slashes lead to
subdirectories. Outside of it there are only directories, and none of their entries is known.
-/

namespace Abacus

inductive FileProblem where
  | notFound
  | notDirectory
  | isDirectory
  deriving DecidableEq, Repr

structure FileError where
  reading : Bool
  path : String
  problem : FileProblem
  deriving DecidableEq, Repr

def FileError.message (e : FileError) : String :=
  (if e.reading then "read " else "open ") ++ e.path ++ ": " ++
    match e.problem with
    | .notFound => "no such file or directory"
    | .notDirectory => "not a directory"
    | .isDirectory => "is a directory"

abbrev Path := List String

structure Directory where
  files : List (Path × Bytes)
  deriving DecidableEq, Repr

namespace Directory

inductive Target where
  | file (p : Path) (content : Bytes)
  | directory
  | free (p : Path)
  | noDirectory
  | problem (e : FileProblem)

def hasBelow (d : Directory) (p : Path) : Bool :=
  d.files.any fun f => p.isPrefixOf f.1 && p.length < f.1.length

def follow (d : Directory) : Option Path → Path → Target
  | _, [] => .directory
  | place, name :: rest =>
    if name = "" || name = "." then d.follow place rest
    else if name = ".." then
      match place with
      | none | some [] => d.follow none rest
      | some p => d.follow (some p.dropLast) rest
    else match place with
      | none => .problem .notFound
      | some p =>
        let q := p ++ [name]
        match d.files.lookup q with
        | some content => if rest.isEmpty then .file q content else .problem .notDirectory
        | none =>
          if d.hasBelow q then d.follow (some q) rest
          else if rest.isEmpty then .free q
          else if rest.all (· = "") then .noDirectory
          else .problem .notFound

def names (path : String) : Path := path.splitOn "/"

def target (d : Directory) (path : String) : Target :=
  if path = "" then .problem .notFound
  else d.follow (if path.startsWith "/" then none else some []) (names path)

def read (d : Directory) (path : String) : Except FileError Bytes :=
  match d.target path with
  | .file _ content => .ok content
  | .directory => .error ⟨true, path, .isDirectory⟩
  | .free _ | .noDirectory => .error ⟨false, path, .notFound⟩
  | .problem e => .error ⟨false, path, e⟩

def write (d : Directory) (path : String) (content : Bytes) : Except FileError Directory :=
  match d.target path with
  | .file p _ => .ok ⟨d.files.map fun f => if f.1 = p then (p, content) else f⟩
  | .free p => .ok ⟨d.files ++ [(p, content)]⟩
  | .directory | .noDirectory => .error ⟨false, path, .isDirectory⟩
  | .problem e => .error ⟨false, path, e⟩

def changes (d old : Directory) : List (String × Bytes) :=
  (d.files.filter fun f => old.files.lookup f.1 ≠ some f.2).map fun f => ("/".intercalate f.1, f.2)

end Directory

end Abacus
