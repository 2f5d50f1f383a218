/-! Program text is a list of bytes: every offset, line and column counts bytes. -/

namespace Abacus

abbrev Bytes := List UInt8

def utf8 (s : String) : Bytes := s.toUTF8.data.toList

instance : Coe String Bytes := ⟨utf8⟩

def isDigit (b : UInt8) : Bool := 0x30 ≤ b && b ≤ 0x39

def isWordByte (b : UInt8) : Bool :=
  (0x61 ≤ b && b ≤ 0x7a) || (0x41 ≤ b && b ≤ 0x5a) || isDigit b || b = 0x5f

def newline : UInt8 := 0x0a

def digitsValue (ds : Bytes) : Nat := Nat.ofDigitChars 10 (ds.map fun b => Char.ofNat b.toNat) 0

def decimal (n : Nat) : Bytes := (Nat.toDigits 10 n).map Char.toUInt8

theorem decimalSome (n : Nat) : decimal n ≠ [] := by
  simp [decimal, Nat.toDigits_ne_nil]

theorem digitByte {c : Char} (h : c.isDigit = true) :
    isDigit c.toUInt8 = true ∧ Char.ofNat c.toUInt8.toNat = c := by
  simp only [Char.isDigit, Bool.and_eq_true, decide_eq_true_eq, ge_iff_le, UInt32.le_iff_toNat_le] at h
  have low : '0'.val.toNat = 48 := rfl
  have high : '9'.val.toNat = 57 := rfl
  have same : c.val.toNat = c.toNat := rfl
  have cases : c.toNat ∈ [48, 49, 50, 51, 52, 53, 54, 55, 56, 57] := by
    simp only [List.mem_cons, List.not_mem_nil, or_false]
    omega
  rw [← Char.ofNat_toNat c]
  generalize c.toNat = n at cases
  revert n
  decide

theorem decimalDigit {n : Nat} {b : UInt8} (h : b ∈ decimal n) : isDigit b = true := by
  obtain ⟨c, hc, rfl⟩ := List.mem_map.mp h
  exact (digitByte (Nat.isDigit_of_mem_toDigits (by decide) (by decide) hc)).1

theorem decimalValue (n : Nat) : digitsValue (decimal n) = n := by
  have same : (decimal n).map (fun b => Char.ofNat b.toNat) = Nat.toDigits 10 n := by
    rw [decimal, List.map_map]
    refine (List.map_congr_left fun c hc => ?_).trans (List.map_id _)
    exact (digitByte (Nat.isDigit_of_mem_toDigits (by decide) (by decide) hc)).2
  rw [digitsValue, same, Nat.ofDigitChars_ten_toDigits]

def signedDecimal (z : Int) : Bytes :=
  if z < 0 then 0x2d :: decimal z.natAbs else decimal z.natAbs

def asciiText (bs : Bytes) : String := String.ofList (bs.map fun b => Char.ofNat b.toNat)

end Abacus
