import Abacus.Fault
import Abacus.Text.Bytes

/-!
What may stand between tokens. A blank set holds bytes below 64; if the number sign is one of them, it starts a
comment that runs up to the end of its line.
-/

namespace Abacus.Parsing

structure Cursor where
  pos : Nat
  rest : Bytes
  deriving DecidableEq, Repr

def Cursor.advance (c : Cursor) (n : Nat) : Cursor := ⟨c.pos + n, c.rest.drop n⟩

structure Blanks where
  mask : Nat
  deriving DecidableEq, Repr

namespace Blanks

def commentSign : UInt8 := 0x23

def ofBytes (bs : List UInt8) : Except Fault Blanks :=
  if bs.all (· < 64) then .ok ⟨bs.foldl (fun m b => m ||| 1 <<< b.toNat) 0⟩ else .error .blank

def all : Blanks := ⟨0x900002600⟩

def contains (s : Blanks) (b : UInt8) : Bool := s.mask.testBit b.toNat

/-- Skips from inside a comment (`inComment`) or from outside one. A comment ends before its newline, which is
skipped only if it is a blank itself. -/
def skipFrom (s : Blanks) (inComment : Bool) (pos : Nat) : Bytes → Cursor
  | [] => ⟨pos, []⟩
  | b :: rest =>
    if inComment && b != newline then s.skipFrom true (pos + 1) rest
    else if s.contains b then s.skipFrom (b == commentSign) (pos + 1) rest
    else ⟨pos, b :: rest⟩

def skip (s : Blanks) (c : Cursor) : Cursor := s.skipFrom false c.pos c.rest

theorem skipFromAdvances (s : Blanks) (inComment : Bool) (pos : Nat) (rest : Bytes) :
    ∃ n, n ≤ rest.length ∧ s.skipFrom inComment pos rest = Cursor.advance ⟨pos, rest⟩ n := by
  induction rest generalizing inComment pos with
  | nil => exact ⟨0, by simp, rfl⟩
  | cons b rest ih =>
    rw [skipFrom]
    split
    · obtain ⟨n, hn, h⟩ := ih true (pos + 1)
      exact ⟨n + 1, by simpa using hn, by simp [h, Cursor.advance]; omega⟩
    · split
      · obtain ⟨n, hn, h⟩ := ih (b == commentSign) (pos + 1)
        exact ⟨n + 1, by simpa using hn, by simp [h, Cursor.advance]; omega⟩
      · exact ⟨0, by simp, rfl⟩

theorem skipAdvances (s : Blanks) (c : Cursor) :
    ∃ n, n ≤ c.rest.length ∧ s.skip c = c.advance n :=
  s.skipFromAdvances false c.pos c.rest

theorem skipSame {s : Blanks} {c : Cursor} (h : c.rest.head?.all fun b => !s.contains b) :
    s.skip c = c := by
  obtain ⟨pos, rest⟩ := c
  cases rest with
  | nil => rfl
  | cons b rest =>
    have blank : s.contains b = false := by simpa using h
    simp [skip, skipFrom, blank]

end Blanks

end Abacus.Parsing
