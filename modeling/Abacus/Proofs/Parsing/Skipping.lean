import Abacus.Parsing.Blanks

/-! Skipping takes the longest stretch of blanks and comments. A blank set holds the listed bytes and no others, so neither
their order nor their number matters. At each place only one blank or one comment can be next, so every stretch from the
same place on ends no later than skipping does. With the set as a word, skipping is two loops, one in the other, that come
to an end within as many turns as there are bytes left, and two more. -/
namespace Abacus.Parsing

namespace Blanks

def Lists (s : Blanks) (bs : List UInt8) : Prop := ∀ n, s.mask.testBit n = true ↔ ∃ b ∈ bs, b.toNat = n

theorem foldBits (bs : List UInt8) (m n : Nat) :
    (bs.foldl (fun m b => m ||| 1 <<< b.toNat) m).testBit n = true ↔ m.testBit n = true ∨ ∃ b ∈ bs, b.toNat = n := by
  induction bs generalizing m with
  | nil => simp
  | cons b bs ih =>
    rw [List.foldl_cons, ih, Nat.testBit_or, Nat.one_shiftLeft, Nat.testBit_two_pow]
    simp [or_assoc]

theorem ofBytesLists {bs : List UInt8} {s : Blanks} (made : ofBytes bs = .ok s) : s.Lists bs := by
  unfold ofBytes at made
  split at made
  · intro n
    rw [← Except.ok.inj made, foldBits]
    simp
  · contradiction

theorem ofBytesMade {bs : List UInt8} (low : ∀ b ∈ bs, b < 64) : ∃ s, ofBytes bs = .ok s := by
  have all : bs.all (· < 64) = true := by simpa using low
  exact ⟨_, if_pos all⟩

theorem containsListed {s : Blanks} {bs : List UInt8} (lists : s.Lists bs) (b : UInt8) :
    s.contains b = true ↔ b ∈ bs := by
  rw [contains, lists]
  simp [UInt8.toNat_inj]

theorem listsUnique {s t : Blanks} {bs cs : List UInt8} (first : s.Lists bs) (second : t.Lists cs)
    (same : ∀ b, b ∈ cs ↔ b ∈ bs) : t = s := by
  have bits : t.mask = s.mask := by
    apply Nat.eq_of_testBit_eq
    intro n
    rw [Bool.eq_iff_iff, first, second]
    simp only [same]
  cases s
  cases t
  exact congrArg mk bits

theorem listsFit {s : Blanks} {bs : List UInt8} (lists : s.Lists bs) (low : ∀ b ∈ bs, b < 64) :
    s.mask < 1 <<< 64 := by
  rw [Nat.one_shiftLeft]
  apply Nat.lt_pow_two_of_testBit
  intro n high
  rw [← Bool.not_eq_true, lists]
  rintro ⟨b, member, rfl⟩
  exact absurd (low b member) (UInt8.not_lt.mpr high)

end Blanks

/-- Blanks among the bytes `bs` and, if the number sign is one of them, comments; the text `after` follows. A comment goes
up to the next newline or to the end of the text. -/
inductive Filler (bs : List UInt8) (after : Bytes) : Bytes → Prop where
  | none : Filler bs after []
  | blank {b : UInt8} {w : Bytes} (listed : b ∈ bs) (plain : b ≠ Blanks.commentSign) (more : Filler bs after w) :
      Filler bs after (b :: w)
  | comment {body w : Bytes} (listed : Blanks.commentSign ∈ bs) (line : newline ∉ body)
      (ends : ∀ b, (w ++ after).head? = some b → b = newline) (more : Filler bs after w) :
      Filler bs after (Blanks.commentSign :: body ++ w)

theorem commentLine {body : Bytes} (line : newline ∉ body) : newline ∉ Blanks.commentSign :: body := by
  rw [List.mem_cons, not_or]
  exact ⟨by decide, line⟩

theorem runSplit (p : UInt8 → Bool) (bs : Bytes) :
    ∃ w t, bs = w ++ t ∧ (∀ b ∈ w, p b = true) ∧ ∀ b, t.head? = some b → p b = false := by
  induction bs with
  | nil => exact ⟨[], [], rfl, by simp, by simp⟩
  | cons b bs ih =>
    cases here : p b with
    | false => exact ⟨[], b :: bs, rfl, by simp, by simpa using here⟩
    | true =>
      obtain ⟨w, t, rfl, all, ends⟩ := ih
      refine ⟨b :: w, t, rfl, fun x member => ?_, ends⟩
      rcases List.mem_cons.mp member with rfl | later
      · exact here
      · exact all x later

section Turns

variable {s : Blanks}

theorem skipBlank {b : UInt8} (blank : s.contains b = true) (plain : b ≠ Blanks.commentSign) (pos : Nat)
    (rest : Bytes) : s.skip ⟨pos, b :: rest⟩ = s.skip ⟨pos + 1, rest⟩ := by
  simp [Blanks.skip, Blanks.skipFrom, blank, beq_false_of_ne plain]

theorem skipFromLine {body : Bytes} (line : newline ∉ body) (pos : Nat) {rest : Bytes}
    (ends : ∀ b, rest.head? = some b → b = newline) :
    s.skipFrom true pos (body ++ rest) = s.skip ⟨pos + body.length, rest⟩ := by
  induction body generalizing pos with
  | nil =>
    cases rest with
    | nil => rfl
    | cons b rest =>
      have last := ends b rfl
      simp [Blanks.skip, Blanks.skipFrom, last]
  | cons b body ih =>
    simp only [List.mem_cons, not_or] at line
    have more := ih line.2 (pos + 1)
    simp only [List.cons_append, Blanks.skipFrom, bne_iff_ne.mpr (Ne.symm line.1), Bool.and_self, if_true, more,
      List.length_cons]
    congr 2
    omega

theorem skipComment (sign : s.contains Blanks.commentSign = true) {body : Bytes} (line : newline ∉ body) (pos : Nat)
    {rest : Bytes} (ends : ∀ b, rest.head? = some b → b = newline) :
    s.skip ⟨pos, Blanks.commentSign :: body ++ rest⟩ = s.skip ⟨pos + (body.length + 1), rest⟩ := by
  have inside := skipFromLine (s := s) line (pos + 1) ends
  rw [Nat.add_assoc, Nat.add_comm 1] at inside
  simpa [Blanks.skip, Blanks.skipFrom, sign] using inside

inductive Turn (s : Blanks) : Bytes → Prop where
  | stop {rest : Bytes} (other : rest.head?.all fun b => !s.contains b) : Turn s rest
  | blank {b : UInt8} {rest : Bytes} (blank : s.contains b = true) (plain : b ≠ Blanks.commentSign) : Turn s (b :: rest)
  | comment {body rest : Bytes} (sign : s.contains Blanks.commentSign = true) (line : newline ∉ body)
      (ends : ∀ b, rest.head? = some b → b = newline) : Turn s (Blanks.commentSign :: body ++ rest)

theorem turn (s : Blanks) (rest : Bytes) : Turn s rest := by
  cases rest with
  | nil => exact .stop rfl
  | cons b rest =>
    by_cases blank : s.contains b = true
    · by_cases sign : b = Blanks.commentSign
      · subst sign
        obtain ⟨body, rest, rfl, line, ends⟩ := runSplit (· != newline) rest
        refine .comment blank (fun member => ?_) (fun b next => by simpa using ends b next)
        simpa using line newline member
      · exact .blank blank sign
    · exact .stop (by simpa using blank)

end Turns

section Longest

variable {s : Blanks} {bs : List UInt8} (lists : s.Lists bs)

include lists

theorem skipFiller {after w : Bytes} (filler : Filler bs after w) (pos : Nat) :
    s.skip ⟨pos, w ++ after⟩ = s.skip ⟨pos + w.length, after⟩ := by
  induction filler generalizing pos with
  | none => rfl
  | blank listed plain more ih =>
    have blank := (Blanks.containsListed lists _).mpr listed
    rw [List.cons_append, skipBlank blank plain, ih, List.length_cons, Nat.add_right_comm, Nat.add_assoc]
  | @comment body w listed line ends more ih =>
    have sign := (Blanks.containsListed lists _).mpr listed
    rw [List.append_assoc, skipComment sign line pos ends, ih, List.length_append, List.length_cons, Nat.add_assoc]

theorem skippedFiller (pos : Nat) (rest : Bytes) :
    ∃ w, rest = w ++ (s.skip ⟨pos, rest⟩).rest ∧ (s.skip ⟨pos, rest⟩).pos = pos + w.length ∧
      Filler bs (s.skip ⟨pos, rest⟩).rest w := by
  -- a comment is taken as a whole, so the induction is on a bound for what is left
  obtain ⟨n, bound⟩ : ∃ n, rest.length < n := ⟨_, Nat.lt_succ_self _⟩
  induction n generalizing pos rest with
  | zero => exact absurd bound (Nat.not_lt_zero _)
  | succ n ih =>
    cases turn s rest with
    | stop other =>
      rw [Blanks.skipSame other]
      exact ⟨[], rfl, rfl, .none⟩
    | @blank b rest blank plain =>
      obtain ⟨w, same, moved, filler⟩ := ih (pos + 1) rest (Nat.lt_of_succ_lt_succ bound)
      rw [skipBlank blank plain]
      refine ⟨b :: w, congrArg (b :: ·) same, ?_, .blank ((Blanks.containsListed lists b).mp blank) plain filler⟩
      rw [moved, List.length_cons, Nat.add_right_comm, Nat.add_assoc]
    | @comment body rest sign line ends =>
      have shorter : rest.length < n := by
        rw [List.length_append, List.length_cons] at bound
        omega
      obtain ⟨w, same, moved, filler⟩ := ih (pos + (body.length + 1)) rest shorter
      rw [skipComment sign line pos ends]
      rw [same] at ends
      refine ⟨Blanks.commentSign :: body ++ w, ?_, ?_, .comment ((Blanks.containsListed lists _).mp sign) line ends filler⟩
      · rw [List.append_assoc, ← same]
      · rw [moved, List.length_append, List.length_cons, Nat.add_assoc]

end Longest

theorem dropStep {b : Bytes} {i : Nat} {x : UInt8} {rest : Bytes} (here : b.drop i = x :: rest) :
    b[i]? = some x ∧ b.drop (i + 1) = rest := by
  constructor
  · rw [← Nat.add_zero i, ← List.getElem?_drop, here, List.getElem?_cons_zero]
  · rw [← List.drop_drop, here, List.drop_one, List.tail_cons]

theorem dropEnded {b : Bytes} {i : Nat} (here : b.drop i = []) : b[i]? = none :=
  List.getElem?_eq_none (List.drop_eq_nil_iff.mp here)

theorem dropPast {b : Bytes} {i : Nat} {v t : Bytes} (here : b.drop i = v ++ t) : b.drop (i + v.length) = t := by
  rw [← List.drop_drop, here, List.drop_left]

namespace Blanks

def word (s : Blanks) : UInt64 := .ofNat s.mask

def inWord (m : UInt64) (b : UInt8) : Bool := b < 64 && m &&& 1 <<< b.toUInt64 != 0

/- The inner loop: from `i` up to the end of the line in at most `n` turns, or `none` if these are not enough. -/
def lineLoop (b : Bytes) : Nat → Nat → Option Nat
  | 0, _ => none
  | n + 1, i =>
    match b[i]? with
    | none => some i
    | some x => if x = newline then some i else lineLoop b n (i + 1)

def skipLoop (m : UInt64) (b : Bytes) : Nat → Nat → Option Nat
  | 0, _ => none
  | n + 1, i =>
    match b[i]? with
    | none => some i
    | some x =>
      if !inWord m x then some i
      else if x = commentSign then (lineLoop b n i).bind (skipLoop m b n)
      else skipLoop m b n (i + 1)

theorem andBit (m n : Nat) : m &&& 1 <<< n ≠ 0 ↔ m.testBit n = true := by
  constructor
  · intro some
    obtain ⟨k, bit⟩ := Nat.exists_testBit_of_ne_zero some
    rw [Nat.testBit_and, Nat.one_shiftLeft, Nat.testBit_two_pow, Bool.and_eq_true, decide_eq_true_eq] at bit
    rw [bit.2]
    exact bit.1
  · intro bit none
    have same := congrArg (Nat.testBit · n) none
    simp [Nat.one_shiftLeft, bit] at same

theorem inWordContains {s : Blanks} (fits : s.mask < 1 <<< 64) (b : UInt8) : inWord s.word b = s.contains b := by
  rw [Nat.one_shiftLeft] at fits
  rw [Bool.eq_iff_iff, inWord, contains, Bool.and_eq_true, decide_eq_true_eq, bne_iff_ne]
  by_cases low : b < 64
  · have small : b.toNat < 64 := low
    have shifted : ((1 : UInt64) <<< b.toUInt64).toNat = 1 <<< b.toNat := by
      rw [UInt64.toNat_shiftLeft, UInt8.toNat_toUInt64, Nat.mod_eq_of_lt small]
      apply Nat.mod_eq_of_lt
      rw [UInt64.toNat_one, Nat.one_shiftLeft]
      exact Nat.pow_lt_pow_right (by decide) small
    have same : (s.word &&& 1 <<< b.toUInt64).toNat = s.mask &&& 1 <<< b.toNat := by
      rw [UInt64.toNat_and, shifted, word, UInt64.toNat_ofNat', Nat.mod_eq_of_lt fits]
    rw [← andBit, ← same]
    simp only [low, true_and, ne_eq, ← UInt64.toNat_inj, UInt64.toNat_zero]
  · have high : s.mask.testBit b.toNat = false := by
      apply Nat.testBit_lt_two_pow
      exact Nat.lt_of_lt_of_le fits (Nat.pow_le_pow_right (by decide) (UInt8.not_lt.mp low))
    simp [low, high]

section Loops

variable {b : Bytes} {i : Nat}

theorem lineLoopEnds {body rest : Bytes} (here : b.drop i = body ++ rest) (line : newline ∉ body)
    (ends : ∀ x, rest.head? = some x → x = newline) {n : Nat} (enough : body.length < n) :
    lineLoop b n i = some (i + body.length) := by
  induction n generalizing i body with
  | zero => exact absurd enough (Nat.not_lt_zero _)
  | succ n ih =>
    cases body with
    | nil =>
      cases rest with
      | nil => simp [lineLoop, dropEnded here]
      | cons x rest => simp [lineLoop, (dropStep here).1, ends x rfl]
    | cons x body =>
      obtain ⟨next, later⟩ := dropStep here
      rw [List.mem_cons, not_or] at line
      have more := ih later line.2 (Nat.lt_of_succ_lt_succ enough)
      simp only [lineLoop, next, Ne.symm line.1, if_false, more, List.length_cons]
      congr 1
      omega

theorem skipLoopEnds {s : Blanks} (fits : s.mask < 1 <<< 64) {n : Nat} (enough : b.length - i + 1 < n) :
    skipLoop s.word b n i = some (s.skip ⟨i, b.drop i⟩).pos := by
  induction n generalizing i with
  | zero => exact absurd enough (Nat.not_lt_zero _)
  | succ n ih =>
    have left : (b.drop i).length = b.length - i := List.length_drop
    generalize here : b.drop i = rest at left
    cases turn s rest with
    | stop other =>
      rw [skipSame other]
      cases rest with
      | nil => simp only [skipLoop, dropEnded here]
      | cons x rest =>
        have outside : inWord s.word x = false := by simpa [inWordContains fits] using other
        simp only [skipLoop, (dropStep here).1, outside, Bool.not_false, if_true]
    | @blank x rest blank plain =>
      obtain ⟨next, rfl⟩ := dropStep here
      rw [List.length_cons] at left
      have more := ih (i := i + 1) (by omega)
      simp [skipLoop, next, inWordContains fits, blank, plain, skipBlank blank plain, more]
    | @comment body rest sign line ends =>
      rw [List.length_append, List.length_cons] at left
      have finish : lineLoop b n i = some (i + (body.length + 1)) := by
        apply lineLoopEnds here (commentLine line) ends
        rw [List.length_cons]
        omega
      obtain rfl := dropPast here
      have more := ih (i := i + (body.length + 1)) (by omega)
      rw [skipComment sign line i ends]
      simp only [skipLoop, (dropStep here).1, inWordContains fits, sign, Bool.not_true, Bool.false_eq_true, if_false,
        if_true, finish, Option.bind_some, more, List.length_cons]

end Loops

end Blanks

section Slices

variable {s : Blanks} {bs : List UInt8} (lists : s.Lists bs) {b : Bytes} {st : Nat}

include lists

theorem skipSlice {j : Nat} (onward : st ≤ j) (inside : j ≤ b.length) (filler : Filler bs (b.drop j) (b.extract st j)) :
    s.skip ⟨st, b.drop st⟩ = s.skip ⟨j, b.drop j⟩ := by
  have split : b.drop st = b.extract st j ++ b.drop j := by
    have tail : (b.drop st).drop (j - st) = b.drop j := by rw [List.drop_drop, Nat.add_sub_cancel' onward]
    rw [List.extract, ← tail, List.take_append_drop]
  have size : st + (b.extract st j).length = j := by
    rw [List.extract, List.length_take, List.length_drop]
    omega
  rw [split, skipFiller lists filler, size]

theorem skippedSlice (inside : st ≤ b.length) :
    ∃ i, s.skip ⟨st, b.drop st⟩ = ⟨i, b.drop i⟩ ∧ st ≤ i ∧ i ≤ b.length ∧ Filler bs (b.drop i) (b.extract st i) := by
  obtain ⟨w, split, moved, filler⟩ := skippedFiller lists st (b.drop st)
  generalize s.skip ⟨st, b.drop st⟩ = d at split moved filler
  obtain ⟨i, rest⟩ := d
  dsimp only at split moved filler
  subst moved
  obtain rfl := dropPast split
  have slice : b.extract st (st + w.length) = w := by
    rw [List.extract, split, Nat.add_sub_cancel_left, List.take_left]
  have size := congrArg List.length split
  rw [List.length_append, List.length_drop] at size
  exact ⟨_, rfl, Nat.le_add_right _ _, by omega, by rwa [slice]⟩

end Slices

/- A set is made of bytes below 64. From any place of a text, the loops over its word come to an end where skipping stops, and
that is the end of the longest slice of blanks and comments. Skipping from there on stays, and every list of the same bytes
makes the same set. -/
theorem skipLongest {bs : List UInt8} (low : ∀ x ∈ bs, x < 64) (b : Bytes) {st : Nat} (inside : st ≤ b.length) :
    ∃ s i, Blanks.ofBytes bs = .ok s ∧ s.skip ⟨st, b.drop st⟩ = ⟨i, b.drop i⟩ ∧
      (∀ n, b.length - st + 1 < n → Blanks.skipLoop s.word b n st = some i) ∧
      (st ≤ i ∧ i ≤ b.length ∧ Filler bs (b.drop i) (b.extract st i)) ∧
      (∀ j, st ≤ j → j ≤ b.length → Filler bs (b.drop j) (b.extract st j) → j ≤ i) ∧
      s.skip ⟨i, b.drop i⟩ = ⟨i, b.drop i⟩ ∧
      ∀ cs, (∀ x, x ∈ cs ↔ x ∈ bs) → Blanks.ofBytes cs = .ok s := by
  obtain ⟨s, made⟩ := Blanks.ofBytesMade low
  have lists := Blanks.ofBytesLists made
  obtain ⟨i, stops, onward, short, filler⟩ := skippedSlice lists inside
  refine ⟨s, i, made, stops, ?ends, ⟨onward, short, filler⟩, ?longest, ?again, ?same⟩
  case ends =>
    intro n enough
    rw [Blanks.skipLoopEnds (Blanks.listsFit lists low) enough, stops]
  case longest =>
    intro j past before other
    obtain ⟨k, -, further⟩ := s.skipAdvances ⟨j, b.drop j⟩
    have place : i = j + k := congrArg Cursor.pos (stops.symm.trans ((skipSlice lists past before other).trans further))
    omega
  case again => rw [← skipSlice lists onward short filler, stops]
  case same =>
    intro cs members
    obtain ⟨t, other⟩ := Blanks.ofBytesMade fun x member => low x ((members x).mp member)
    rw [other, Blanks.listsUnique lists (Blanks.ofBytesLists other) members]

def inLine : List UInt8 := [0x20, Blanks.commentSign, 0x20]

def remark : Bytes := [0x37, 0x20, Blanks.commentSign, 0xff, 0x7d, Blanks.commentSign, newline, 0x20]

theorem remarkSkipped :
    (∀ x ∈ inLine, x < 64) ∧ 1 ≤ remark.length ∧
      ∃ s, Blanks.ofBytes inLine = .ok s ∧ s.skip ⟨1, remark.drop 1⟩ = ⟨6, remark.drop 6⟩ ∧
        Blanks.skipLoop s.word remark 9 1 = some 6 ∧ Filler inLine (remark.drop 6) (remark.extract 1 6) ∧
        ¬ Filler inLine (remark.drop 7) (remark.extract 1 7) ∧ Blanks.ofBytes [Blanks.commentSign, 0x20] = .ok s := by
  have low : ∀ x ∈ inLine, x < 64 := by
    intro x member
    simp only [inLine, List.mem_cons, List.not_mem_nil, or_false] at member
    rcases member with rfl | rfl | rfl <;> decide
  obtain ⟨s, i, made, stops, ends, ⟨-, -, filler⟩, longest, -, same⟩ := @skipLongest _ low remark 1 (by decide)
  obtain rfl : ⟨0x900000000⟩ = s := Except.ok.inj made
  obtain rfl : 6 = i := congrArg Cursor.pos stops
  refine ⟨low, by decide, _, made, stops, ends 9 (by decide), filler, ?_, same _ (by simp [inLine, or_comm])⟩
  intro longer
  exact absurd (longest 7 (by decide) (by decide) longer) (by decide)

end Abacus.Parsing
