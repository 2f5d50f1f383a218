import Abacus.Proofs.Parsing.Range
import Abacus.Proofs.Sources.Attribution

/-! The place that a failure is reported at. Every reported position is in the buffer, so there is one source that holds it,
and the line and the column lead back to the position. -/
namespace Abacus
open Parsing

/- The offset at which a line of the text starts. Lines count from one, and there is a line behind every newline. -/
def lineStart : Nat → Bytes → Option Nat
  | 0, _ => none
  | 1, _ => some 0
  | _ + 2, [] => none
  | n + 2, b :: rest => (lineStart (if b = newline then n + 1 else n + 2) rest).map (· + 1)

theorem lineStartBehind (u rest : Bytes) : lineStart (u.count newline + 2) (u ++ newline :: rest) = some (u.length + 1) := by
  induction u with
  | nil => simp [lineStart]
  | cons b u ih =>
    by_cases line : b = newline
    · subst line
      rw [List.count_cons_self, List.cons_append, lineStart, if_pos rfl, ih]
      rfl
    · rw [List.count_cons_of_ne line, List.cons_append, lineStart, if_neg line, ih]
      rfl

theorem lineStartLined {lines : Bytes} (lined : Lined lines) (rest : Bytes) :
    lineStart (1 + lines.count newline) (lines ++ rest) = some lines.length := by
  rcases lined with rfl | ⟨u, rfl⟩
  · simp [lineStart]
  · have behind := lineStartBehind u rest
    rw [List.append_assoc, List.singleton_append, List.length_append, List.length_singleton, ← behind]
    congr 1
    simp only [List.count_append, List.count_singleton_self]
    omega

theorem columnSplit (text : Bytes) :
    ∃ lines tail, text = lines ++ tail ∧ Lined lines ∧ newline ∉ tail ∧ columnOf text = tail.length := by
  have whole := List.takeWhile_append_dropWhile (p := (· != newline)) (l := text.reverse)
  refine ⟨(text.reverse.dropWhile (· != newline)).reverse, (text.reverse.takeWhile (· != newline)).reverse, ?_, ?_, ?_, ?_⟩
  · rw [← List.reverse_append, whole, List.reverse_reverse]
  · cases left : text.reverse.dropWhile (· != newline) with
    | nil => exact .inl rfl
    | cons b rest =>
      have last := List.head?_dropWhile_not (· != newline) text.reverse
      rw [left] at last
      have line : b = newline := by simpa using last
      exact .inr ⟨rest.reverse, by rw [line, List.reverse_cons]⟩
  · intro member
    have other := List.all_eq_true.mp List.all_takeWhile newline (List.mem_reverse.mp member)
    exact absurd other (by decide)
  · rw [List.length_reverse]
    rfl

theorem columnBack {text : Bytes} {n : Nat} (inside : n ≤ text.length) :
    ∃ start, lineStart (1 + (text.take n).count newline) text = some start ∧ n = start + columnOf (text.take n) ∧
      newline ∉ text.extract start n := by
  obtain ⟨lines, tail, split, lined, single, col⟩ := columnSplit (text.take n)
  have size := congrArg List.length split
  rw [List.length_take_of_le inside, List.length_append] at size
  have whole : text = lines ++ (tail ++ text.drop n) := by
    rw [← List.append_assoc, ← split, List.take_append_drop]
  have line : (text.take n).count newline = lines.count newline := by
    rw [split, List.count_append, List.count_eq_zero.mpr single, Nat.add_zero]
  have between : text.extract lines.length n = tail := by
    have width : n - lines.length = tail.length := by omega
    rw [List.extract, width]
    nth_rewrite 1 [whole]
    rw [List.drop_left, List.take_left]
  refine ⟨lines.length, ?_, by omega, by rwa [between]⟩
  have start := lineStartLined lined (tail ++ text.drop n)
  rwa [← whole, ← line] at start

theorem sourceAtFound {srcs : List Source} (some : srcs ≠ []) {base pos : Nat} (low : base ≤ pos)
    (high : pos ≤ base + (buffer srcs).length) :
    ∃ before s after, srcs = before ++ s :: after ∧ sourceAt base srcs pos = (s.name, base + (buffer before).length) ∧
      base + (buffer before).length ≤ pos ∧
      (pos < base + (buffer before).length + s.closed.length ∨ pos = base + (buffer srcs).length ∧ after = []) := by
  induction srcs generalizing base with
  | nil => exact absurd rfl some
  | cons s srcs ih =>
    cases srcs with
    | nil =>
      refine ⟨[], s, [], rfl, rfl, low, ?_⟩
      rw [bufferOne] at high ⊢
      have inside : pos < base + s.closed.length ∨ pos = base + s.closed.length := by omega
      exact inside.imp id fun ended => ⟨ended, rfl⟩
    | cons next rest =>
      rw [bufferCons, List.length_append, ← Nat.add_assoc] at high ⊢
      have step : sourceAt base (s :: next :: rest) pos =
          if pos < base + s.closed.length then (s.name, base)
          else sourceAt (base + s.closed.length) (next :: rest) pos := rfl
      rw [step]
      by_cases here : pos < base + s.closed.length
      · rw [if_pos here]
        exact ⟨[], s, next :: rest, rfl, rfl, low, .inl here⟩
      · obtain ⟨before, t, after, split, found, onward, inside⟩ := ih (List.cons_ne_nil _ _) (Nat.le_of_not_lt here) high
        rw [if_neg here, found]
        refine ⟨s :: before, t, after, by rw [split, List.cons_append], ?_⟩
        rw [bufferCons, List.length_append, ← Nat.add_assoc]
        exact ⟨rfl, onward, inside⟩

theorem failureInside {srcs : List Source} {l : Located} (fails : parse srcs = .error (.error (.located l))) :
    l.pos ≤ (buffer srcs).length := by
  have inside := Rule.programConfined ⟨0, buffer srcs⟩
  rw [parseProgram] at fails
  generalize Rule.program ⟨0, buffer srcs⟩ = o at inside fails
  cases o with
  | failed r i =>
    cases fails
    have stop := inside.2
    rwa [Cursor.finish, Nat.zero_add] at stop
  | broken f => cases fails
  | done p c =>
    dsimp only at fails
    split at fails
    · cases fails
    · cases fails
      obtain ⟨w, read⟩ := inside
      have whole := (skipOnward c).2.trans (spellsFinish read)
      simp only [Cursor.finish, Nat.zero_add] at whole
      exact Nat.le_of_add_right_le (Nat.le_of_eq whole)

theorem sourceSlice (before after : List Source) (s : Source) {n : Nat} (inside : n ≤ s.closed.length) :
    ((buffer (before ++ s :: after)).drop (buffer before).length).take n = s.closed.take n := by
  rw [bufferAppend, bufferCons, List.drop_left, List.take_append_of_le_length inside]

/- A failure to read sources is reported at a position of the buffer, under the name of the source that holds the position,
where the end of the buffer is held by the last one. Line and column are computed from a part of the buffer that exists.
Counted from there, the column leads from the start of the line to the position, and no newline is in between. -/
theorem failureLocated {srcs : List Source} (some : srcs ≠ []) {e : Stop SourceError} (fails : parse srcs = .error e) :
    ∃ l before s after start, e = .error (.located l) ∧ srcs = before ++ s :: after ∧ l.file = s.name ∧
      (buffer before).length ≤ l.pos ∧
      (l.pos < (buffer before).length + s.closed.length ∨ l.pos = (buffer srcs).length ∧ after = []) ∧
      sourceAt 0 srcs l.pos = (s.name, (buffer before).length) ∧ l.pos ≤ (buffer srcs).length ∧
      lineStart l.line s.closed = .some start ∧ 1 ≤ l.col ∧ l.pos = (buffer before).length + start + (l.col - 1) ∧
      newline ∉ s.closed.extract start (l.pos - (buffer before).length) := by
  obtain ⟨l, rfl⟩ := parseLocated fails
  have inside := failureInside fails
  have place := parseLocates fails
  obtain ⟨before, s, after, split, found, onward, held⟩ := sourceAtFound some (Nat.zero_le l.pos) (by omega)
  rw [Nat.zero_add] at found onward held
  rw [Nat.zero_add] at held
  have within : l.pos - (buffer before).length ≤ s.closed.length := by
    rcases held with less | ⟨ended, rfl⟩
    · omega
    · rw [split, bufferAppend, bufferOne, List.length_append] at ended
      omega
  obtain ⟨start, line, back, single⟩ := columnBack within
  have slice := sourceSlice before after s within
  rw [← split] at slice
  have shown : l.file = s.name ∧ l.line = 1 + (s.closed.take (l.pos - (buffer before).length)).count newline ∧
      l.col = 1 + columnOf (s.closed.take (l.pos - (buffer before).length)) := by
    rw [place]
    simp only [locate, found, slice]
    exact ⟨trivial, trivial, trivial⟩
  obtain ⟨name, number, column⟩ := shown
  rw [← number] at line
  exact ⟨l, before, s, after, start, rfl, split, name, onward, held, found, inside, line, by omega, by omega, single⟩

def unclosed : List Source := [⟨"a", utf8 "5;\n\x7b"⟩, ⟨"b", []⟩]

theorem unclosedLocated :
    unclosed ≠ [] ∧ ∃ l before s after start, parse unclosed = .error (.error (.located l)) ∧ l.pos = 5 ∧ l.file = "b" ∧
      unclosed = before ++ s :: after ∧ l.file = s.name ∧ l.pos = (buffer unclosed).length ∧ after = [] ∧
      lineStart l.line s.closed = some start ∧ l.pos = (buffer before).length + start + (l.col - 1) := by
  have some : unclosed ≠ [] := List.cons_ne_nil _ _
  obtain ⟨l, fails, pos, file⟩ : ∃ l, parse unclosed = .error (.error (.located l)) ∧ l.pos = 5 ∧ l.file = "b" :=
    ⟨_, rfl, rfl, rfl⟩
  have size : (buffer unclosed).length = 5 := rfl
  obtain ⟨l', before, s, after, start, same, split, name, -, held, -, -, line, -, back, -⟩ := failureLocated some fails
  cases same
  have last : l.pos = (buffer unclosed).length ∧ after = [] := by
    refine held.resolve_left fun less => ?_
    have whole := congrArg (fun srcs => (buffer srcs).length) split
    simp only [bufferAppend, bufferCons, List.length_append, size] at whole
    omega
  exact ⟨some, l, before, s, after, start, fails, pos, file, split, name, last.1, last.2, line, back⟩

end Abacus
