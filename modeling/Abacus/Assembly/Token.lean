import Abacus.Text.Bytes

/-!
Tokens of assembly text. Blanks and comments separate tokens; of several tokens that start at a place the
longest counts, and what starts no token at all is passed over.
-/

namespace Abacus.Assembly

inductive Token where
  | symbol (name : String)
  | register (name : String)
  | label (name : String)
  | word (w : String)
  | int (z : Int)
  | intType (bits : Nat)
  | text (s : String)
  | dots
  | mark (c : Char)
  deriving DecidableEq, Repr

namespace Token

def vocabulary : List String :=
  ["global", "constant", "external", "private", "unnamed_addr", "align", "declare", "define", "x", "c",
    "add", "sub", "mul", "sdiv", "udiv", "srem", "urem", "and", "or", "xor", "shl", "lshr", "ashr",
    "alloca", "load", "store", "call", "getelementptr", "inbounds", "ret", "br", "label", "unreachable",
    "void", "double", "undef", "null", "zeroinitializer"]

def reserved : List String :=
  ["true", "false", "none", "to", "from", "within", "caller", "unwind", "nuw", "nsw", "exact", "volatile",
    "atomic", "unordered", "monotonic", "acquire", "release", "acq_rel", "seq_cst", "addrspace", "inrange",
    "icmp", "fcmp", "eq", "ne", "slt", "sgt", "sle", "sge", "ult", "ugt", "ule", "uge", "oeq", "one", "olt",
    "ogt", "ole", "oge", "ord", "uno", "ueq", "une", "fneg", "fadd", "fsub", "fmul", "fdiv", "frem", "phi",
    "select", "trunc", "zext", "sext", "fptrunc", "fpext", "fptoui", "fptosi", "uitofp", "sitofp", "inttoptr",
    "ptrtoint", "bitcast", "addrspacecast", "va_arg", "switch", "indirectbr", "invoke", "resume", "callbr",
    "cmpxchg", "atomicrmw", "fence", "extractelement", "insertelement", "shufflevector", "extractvalue",
    "insertvalue", "landingpad", "cleanup", "catch", "filter", "half", "float", "fp128", "x86_fp80",
    "metadata", "token", "type", "opaque", "target", "triple", "datalayout", "source_filename", "module",
    "asm", "attributes", "alias", "comdat", "any", "gc", "section", "personality", "blockaddress"]

def isWord (w : String) : Bool := vocabulary.contains w || reserved.contains w

def isBlank (c : Char) : Bool := c = ' ' || c = '\t' || c = '\r' || c = '\n' || c = '\x00'

def isNameChar (c : Char) : Bool := c.isAlphanum || c = '-' || c = '$' || c = '.' || c = '_'

def isMark (c : Char) : Bool :=
  ['=', ',', '(', ')', '[', ']', '\x7b', '\x7d', '*', '<', '>', '!', '|'].contains c

def number? (cs : List Char) : Option Nat :=
  if !cs.isEmpty && cs.all Char.isDigit then some (Nat.ofDigitChars 10 cs 0) else none

def ofChars? (cs : List Char) : Option Token :=
  match number? cs with
  | some n => some (.int n)
  | none =>
    match cs with
    | ['.', '.', '.'] => some .dots
    | '-' :: ds => (number? ds).map fun n => .int (-n)
    | _ =>
      if isWord (String.ofList cs) then some (.word (String.ofList cs))
      else match cs with
        | 'i' :: ds => (number? ds).map .intType
        | _ => none

def longest? (cs : List Char) : Nat → Option (Token × Nat)
  | 0 => none
  | n + 1 =>
    match ofChars? (cs.take (n + 1)) with
    | some t => some (t, n + 1)
    | none => longest? cs n

/-- The name at the start of the text: a run of digits, or a run of name characters that starts with none. -/
def nameOf (cs : List Char) : List Char :=
  match cs with
  | c :: _ => if c.isDigit then cs.takeWhile Char.isDigit else cs.takeWhile isNameChar
  | [] => []

def nameText (cs : List Char) : String :=
  match number? cs with
  | some n => toString n
  | none => String.ofList cs

def first : List Char → Option Token × Nat
  | [] => (none, 0)
  | c :: rest =>
    if c = '@' || c = '%' then
      let name := nameOf rest
      if name.isEmpty then (none, 1)
      else (some (if c = '@' then .symbol (nameText name) else .register (nameText name)), name.length + 1)
    else if c = '"' then
      let inside := rest.takeWhile (· != '"')
      if inside.length < rest.length then (some (.text (String.ofList inside)), inside.length + 2)
      else (none, rest.length + 1)
    else if isMark c then (some (.mark c), 1)
    else
      let run := (c :: rest).takeWhile isNameChar
      let name := nameOf (c :: rest)
      if run.isEmpty then (none, 1)
      else if ((c :: rest).drop name.length).head? = some ':' then (some (.label (nameText name)), name.length + 1)
      else match longest? run run.length with
        | some (t, n) => (some t, n)
        | none => (none, run.length)

def scan : Nat → List Char → List Token
  | 0, _ => []
  | _, [] => []
  | n + 1, c :: rest =>
    if isBlank c then scan n rest
    else if c = ';' then scan n (rest.dropWhile (· != '\n'))
    else match first (c :: rest) with
      | (some t, k) => t :: scan n ((c :: rest).drop k)
      | (none, k) => scan n ((c :: rest).drop k)

def ofText (s : String) : List Token := scan s.toList.length s.toList

end Token

end Abacus.Assembly
