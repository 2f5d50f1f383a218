/-!
How integer constants are written in instructions: in decimal, unless the number is at least 4096 and looks much
more regular in hexadecimal, which is measured by how many different digits it takes.
-/

namespace Abacus.Assembly

def digitKinds (base n : Nat) : Nat := (Nat.toDigits base n).eraseDups.length

def prefersHex (n : Nat) : Bool := 0x1000 ≤ n && 2 * digitKinds 16 n ≤ digitKinds 10 n

def constantText (z : Int) : String :=
  if 0 ≤ z && prefersHex z.toNat then "u0x" ++ (String.ofList (Nat.toDigits 16 z.toNat)).toUpper
  else toString z

end Abacus.Assembly
