import Abacus.Text.Bytes
import Abacus.Text.Printable

/-!
Quoted text: double quotes around the text, a backslash before a quote or a backslash, the usual letters for
the common control characters, and hexadecimal escapes for everything else that does not print.
-/

namespace Abacus.Text

def hexDigits (width n : Nat) : String :=
  String.ofList ((List.range width).map fun i => Nat.digitChar (n >>> (4 * (width - 1 - i)) % 16))

def escaped (c : Char) : String :=
  if c = '"' || c = '\\' then "\\" ++ c.toString
  else if isPrintable c then c.toString
  else match c.toNat with
    | 0x07 => "\\a"
    | 0x08 => "\\b"
    | 0x0c => "\\f"
    | 0x0a => "\\n"
    | 0x0d => "\\r"
    | 0x09 => "\\t"
    | 0x0b => "\\v"
    | n =>
      if n < 0x20 || n = 0x7f then "\\x" ++ hexDigits 2 n
      else if n < 0x10000 then "\\u" ++ hexDigits 4 n
      else "\\U" ++ hexDigits 8 n

def quoted (s : String) : String :=
  "\"" ++ String.join (s.toList.map escaped) ++ "\""

def characters (skip : Nat) : Bytes → List (UInt8 ⊕ Char)
  | [] => []
  | b :: rest =>
    match skip with
    | skip + 1 => characters skip rest
    | 0 =>
      -- no character takes more than four bytes
      match ByteArray.utf8DecodeChar? ⟨(b :: rest.take 3).toArray⟩ 0 with
      | some c => .inr c :: characters (c.utf8Size - 1) rest
      | none => .inl b :: characters 0 rest

def quotedBytes (bs : Bytes) : String :=
  "\"" ++ String.join ((characters 0 bs).map (Sum.elim (fun b => "\\x" ++ hexDigits 2 b.toNat) escaped)) ++ "\""

def shownBytes (bs : Bytes) : String :=
  String.ofList ((characters 0 bs).map (Sum.elim (fun _ => Char.ofNat 0xfffd) id))

instance : CoeOut Bytes String := ⟨shownBytes⟩

def quotedByte (b : UInt8) : String := "'" ++ (Char.ofNat b.toNat).toString ++ "'"

end Abacus.Text
