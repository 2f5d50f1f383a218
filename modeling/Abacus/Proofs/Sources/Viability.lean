import Abacus.Proofs.Canonical.Literals
import Abacus.Proofs.Parsing.Tracing
import Abacus.Proofs.Sources.Attribution
import Mathlib.Data.List.DropRight

/-! What a reported place says about the text. Up to the place the text can be gone on with to a program, and with the word
or sign that follows it cannot, so a failure is always reported just before the first one that does not fit. -/
namespace Abacus
open Parsing

namespace Parsing

theorem ofDigitsMono (cs : List Char) {m n : Nat} (less : m ≤ n) :
    Nat.ofDigitChars 10 cs m ≤ Nat.ofDigitChars 10 cs n := by
  induction cs generalizing m n with
  | nil => exact less
  | cons c cs ih => exact ih (Nat.add_le_add_right (Nat.mul_le_mul_left 10 less) _)

theorem digitsValueMono (v ds : Bytes) : digitsValue ds ≤ digitsValue (v ++ ds) := by
  rw [digitsValue, digitsValue, List.map_append, Nat.ofDigitChars_append]
  exact ofDigitsMono _ (Nat.zero_le _)

theorem lastDigits {ds : Bytes} (all : ∀ b ∈ ds, isDigit b = true) (u : Bytes) :
    digitsValue ds ≤ digitsValue ((u ++ ds).rtakeWhile isDigit) := by
  have run : (u ++ ds).rtakeWhile isDigit = u.rtakeWhile isDigit ++ ds := by
    have digits : ∀ b ∈ ds.reverse, isDigit b = true := by simpa using all
    rw [List.rtakeWhile, List.reverse_append, List.takeWhile_append_of_pos digits, List.reverse_append]
    rw [List.reverse_reverse, List.rtakeWhile]
  rw [run]
  exact digitsValueMono _ ds

theorem keptContinues {w : Bytes} (kept : w ≠ []) (g t rest : Bytes) : Continues (g ++ (w ++ t)) (g ++ (w ++ rest)) := by
  obtain ⟨b, w, rfl⟩ := List.exists_cons_of_ne_nil kept
  cases g with
  | nil => exact fun x next _ => next
  | cons a g => exact fun x next _ => next

theorem endedContinues {t : Bytes} (ends : Ended t) (rest : Bytes) : Continues t rest := by
  intro b next word
  simp [ends b next] at word

theorem wordStays {w : Bytes} (run : w ≠ []) (all : ∀ b ∈ w, isWordByte b = true) {p : Nat} {t : Bytes} :
    Blanks.all.skip ⟨p, w ++ t⟩ = ⟨p, w ++ t⟩ := by
  obtain ⟨b, w, rfl⟩ := List.exists_cons_of_ne_nil run
  have word := all b (by simp)
  have solid : Blanks.all.contains b = false := by
    rw [← Bool.not_eq_true, containsAll]
    rintro ((rfl | rfl | rfl | rfl) | rfl) <;> revert word <;> decide
  exact Blanks.skipSame (by simpa using solid)

/- The text in front of where the automaton stops, the blanks there, and what else can follow that text. -/
theorem stopsParts {b : Bytes} {i : Nat} (stops : Stops (.item 0) ⟨0, b⟩ i) :
    ∃ τ d u g, Halts τ d i ∧ b = u ++ d.rest ∧ u.length = d.pos ∧ Spells g d (Blanks.all.skip d) ∧
      (u ++ g).length = (Blanks.all.skip d).pos ∧
      ∀ t, Continues t d.rest → Leads (.item 0) ⟨0, u ++ t⟩ τ ⟨d.pos, t⟩ := by
  obtain ⟨τ, d, leads, halts⟩ := stops
  obtain ⟨u, spelled, replaced⟩ := leadsTail leads
  obtain ⟨g, gap⟩ := gapSpells (gapSkip d)
  have place : u.length = d.pos := by simpa using spelled.2.symm
  exact ⟨τ, d, u, g, halts, spelled.1, place, gap, by rw [List.length_append, place, gap.2], replaced⟩

section Stopped

variable {b : Bytes} {i : Nat} (stops : Stops (.item 0) ⟨0, b⟩ i)
  (small : digitsValue ((b.take i).rtakeWhile isDigit) < literalBound)
include stops small

theorem stopsViable : ∃ s, s.getLast? = some newline ∧ Concludes (.item 0) ⟨0, b.take i ++ s⟩ := by
  obtain ⟨τ, d, u, g, halts, whole, place, gap, passed, replaced⟩ := stopsParts stops
  cases halts.spot with
  | before =>
    obtain ⟨s, line, last, concludes⟩ := stageCompletable τ
    refine ⟨s, last, ?_⟩
    rw [whole, List.take_left' place]
    exact concludesLater (replaced s (lineContinues line _)) (concludes d.pos)
  | ahead =>
    obtain ⟨s, line, last, concludes⟩ := stageCompletable τ
    refine ⟨s, last, ?_⟩
    have continues : Continues (g ++ s) d.rest := by
      rw [gap.1]
      cases g with
      | nil => exact lineContinues line _
      | cons x g => exact fun y next _ => next
    rw [whole, gap.1, ← List.append_assoc, List.take_left' passed, List.append_assoc]
    have skipped := scanSame (skipLine gap line)
    exact concludesLater (replaced (g ++ s) continues) (concludesSame skipped.symm (concludes _))
  | @digits ds more e next run all large read =>
    have start := (scanSpells next).1
    rw [List.append_assoc] at start
    have front : b.take ((Blanks.all.skip d).pos + ds.length) = u ++ g ++ ds := by
      rw [whole, gap.1, start, ← List.append_assoc, ← List.append_assoc]
      exact List.take_left' (by rw [List.length_append, passed])
    rw [front] at small ⊢
    have literal : isLiteral ds = true := by
      simp only [isLiteral, Bool.and_eq_true, List.all_eq_true, decide_eq_true_eq]
      exact ⟨⟨by simpa using run, all⟩, Nat.lt_of_le_of_lt (lastDigits all (u ++ g)) small⟩
    obtain ⟨υ, goes⟩ := read literal
    obtain ⟨s, line, last, concludes⟩ := stageCompletable υ
    refine ⟨s, last, ?_⟩
    have there : Leads (.item 0) ⟨0, u ++ (g ++ (ds ++ s))⟩ τ ⟨d.pos, g ++ (ds ++ s)⟩ := by
      refine replaced _ ?_
      rw [gap.1, start]
      exact keptContinues run g s _
    have word : lexeme (ds ++ s) = ds := by
      refine lexemeWord run (fun x member => digitWord (all x member)) fun x next => ?_
      rw [line] at next
      cases next
      decide
    rw [List.append_assoc, List.append_assoc]
    obtain ⟨x, ds, rfl⟩ := List.exists_cons_of_ne_nil run
    exact concludesLater there (concludesLater (leadsToken (scanReplaced gap start word) goes) (concludes _))

theorem stopsRefused {q : Cursor} (here : Blanks.all.skip ⟨i, b.drop i⟩ = q) (more : q.rest ≠ []) {t : Bytes}
    (ends : Ended t) : ¬ Concludes (.item 0) ⟨0, b.take (q.pos + (lexeme q.rest).length) ++ t⟩ := by
  obtain ⟨τ, d, u, g, halts, whole, place, gap, passed, replaced⟩ := stopsParts stops
  have refused : ∀ {w e}, scan d = some (w, e) → ¬ Concludes (.item 0) ⟨0, b.take e.pos ++ t⟩ := by
    intro w e next concludes
    have start := scanSpells next
    have front : b.take e.pos = u ++ g ++ w := by
      rw [whole, gap.1, start.1, ← List.append_assoc, ← List.append_assoc]
      exact List.take_left' (by rw [List.length_append, passed, start.2])
    rw [front, List.append_assoc, List.append_assoc] at concludes
    have there : Leads (.item 0) ⟨0, u ++ (g ++ (w ++ t))⟩ τ ⟨d.pos, g ++ (w ++ t)⟩ := by
      refine replaced _ ?_
      rw [gap.1, start.1]
      exact keptContinues (scanFound.mp next).1 g t _
    have again := scanTail next gap (endedContinues ends _)
    refine concludesThrough concludes ⟨τ, _, there, fun v f found => ?_, fun none => by simp [again] at none, .before⟩
    rw [again] at found
    cases found
    exact halts.stuck w e next
  have ahead : Blanks.all.skip d = q → ¬ Concludes (.item 0) ⟨0, b.take (q.pos + (lexeme q.rest).length) ++ t⟩ := by
    rintro rfl
    exact refused (scanFound.mpr ⟨lexemeSome more, rfl, rfl⟩)
  cases halts.spot with
  | before =>
    refine ahead ?_
    rw [← here, whole, List.drop_left' place]
  | ahead =>
    refine ahead ?_
    rw [← here, whole, gap.1, ← List.append_assoc, List.drop_left' passed]
    exact skipGap (gapSkip d)
  | @digits ds rest e next run all large read =>
    have start := scanSpells next
    have spread := start.1
    rw [List.append_assoc] at spread
    have split : b = u ++ g ++ ds ++ (rest ++ e.rest) := by
      rw [whole, gap.1, spread, List.append_assoc, List.append_assoc]
    have size : (u ++ g ++ ds).length = (Blanks.all.skip d).pos + ds.length := by rw [List.length_append, passed]
    have goes : rest ≠ [] := by
      intro none
      have large := large none
      rw [split, List.take_left' size] at small
      have less := lastDigits all (u ++ g)
      omega
    obtain ⟨words, breaks⟩ : (∀ x ∈ ds ++ rest, isWordByte x = true) ∧ WordEnds e := by
      obtain ⟨x, ds, rfl⟩ := List.exists_cons_of_ne_nil run
      exact scanWord next rfl (digitWord (all x (by simp)))
    have still : Blanks.all.skip ⟨(Blanks.all.skip d).pos + ds.length, rest ++ e.rest⟩ =
        ⟨(Blanks.all.skip d).pos + ds.length, rest ++ e.rest⟩ := wordStays goes fun x member => words x (by simp [member])
    -- The rest of the word stands where the failure is reported, so it is the next word there.
    rw [split, List.drop_left' size, still] at here
    subst here
    have word : lexeme (rest ++ e.rest) = rest := lexemeWord goes (fun x member => words x (by simp [member])) breaks
    have same : (Blanks.all.skip d).pos + ds.length + rest.length = e.pos := by
      rw [start.2, List.length_append]
      omega
    dsimp only
    rw [word, same]
    exact refused next

end Stopped

end Parsing

section Parse

variable {name : String} {text : Bytes}

theorem parseStops {l : Located} (fails : parse [⟨name, text⟩] = .error (.error (.located l))) :
    Stops (.item 0) ⟨0, Source.closed ⟨name, text⟩⟩ l.pos := by
  rw [parseItems, bufferOne] at fails
  have traced := @Rule.itemsTraces ⟨0, Source.closed ⟨name, text⟩⟩ _ [] [] (Nat.le_refl _)
  dsimp only at traced
  generalize Rule.items _ [] [] _ = o at fails traced
  cases traced with
  | failed stops =>
    cases fails
    exact stops
  | @done x d leads ends =>
    dsimp only at fails
    split at fails
    · cases fails
    · rename_i more
      cases fails
      refine ⟨.item 0, d, leads, fun w e next => ?_, fun none => ?_, .ahead⟩
      · rw [ends w e next]
        rfl
      · simp [scanEnd.mp none] at more

theorem parseConcludes {p : Program} (read : parse [⟨name, text⟩] = .ok p) :
    Concludes (.item 0) ⟨0, Source.closed ⟨name, text⟩⟩ := by
  rw [parseItems, bufferOne] at read
  have traced := @Rule.itemsTraces ⟨0, Source.closed ⟨name, text⟩⟩ _ [] [] (Nat.le_refl _)
  dsimp only at traced
  generalize Rule.items _ [] [] _ = o at read traced
  cases traced with
  | failed stops => cases read
  | @done x d leads ends =>
    dsimp only at read
    split at read
    · rename_i ended
      exact ⟨d, leads, scanEnd.mpr (by simpa using ended)⟩
    · cases read

theorem concludesParse (concludes : Concludes (.item 0) ⟨0, Source.closed ⟨name, text⟩⟩) :
    ∃ p, parse [⟨name, text⟩] = .ok p := by
  cases read : parse [⟨name, text⟩] with
  | ok p => exact ⟨p, rfl⟩
  | error e =>
    obtain ⟨l, rfl⟩ := parseLocated read
    exact absurd (parseStops read) (concludesThrough concludes)

end Parse

theorem closedAppend (name : String) (u : Bytes) {s : Bytes} (ends : Ended s) :
    ∃ t, Ended t ∧ Source.closed ⟨name, u ++ s⟩ = u ++ t := by
  unfold Source.closed
  split
  · exact ⟨s, ends, rfl⟩
  · refine ⟨s ++ [newline], fun b next => ?_, List.append_assoc ..⟩
    cases s with
    | nil =>
      cases next
      decide
    | cons a s => exact ends b next

/- Where a text fails to be a program: `b` is the text with its closing newline, and `q` the place of the next word or
sign. -/
theorem failureViable {name : String} {text b : Bytes} {l : Located} (closed : Source.closed ⟨name, text⟩ = b)
    (fails : parse [⟨name, text⟩] = .error (.error (.located l)))
    (small : digitsValue ((b.take l.pos).rtakeWhile isDigit) < literalBound) :
    (∃ s p, parse [⟨name, b.take l.pos ++ s⟩] = .ok p) ∧
      ∀ q, q = Blanks.all.skip ⟨l.pos, b.drop l.pos⟩ → q.rest ≠ [] → ∀ s, Ended s → ∀ p,
        parse [⟨name, b.take (q.pos + (lexeme q.rest).length) ++ s⟩] ≠ .ok p := by
  have stops := parseStops fails
  rw [closed] at stops
  constructor
  · obtain ⟨s, last, concludes⟩ := stopsViable stops small
    have same : Source.closed ⟨name, b.take l.pos ++ s⟩ = b.take l.pos ++ s := by
      rw [Source.closed, if_pos]
      rw [List.getLast?_append, last]
      rfl
    rw [← same] at concludes
    exact ⟨s, concludesParse concludes⟩
  · intro q here more s ends p read
    obtain ⟨t, ends', same⟩ := closedAppend name (b.take (q.pos + (lexeme q.rest).length)) ends
    have concludes := parseConcludes read
    rw [same] at concludes
    exact stopsRefused stops small here.symm more ends' concludes

theorem letterInNumber :
    ∃ l, parse [⟨"c", utf8 "print (4 +\n12a);"⟩] = .error (.error (.located l)) ∧ l.pos = 13 ∧
      (∃ s p, parse [⟨"c", utf8 "print (4 +\n12" ++ s⟩] = .ok p) ∧
      ∀ s, Ended s → ∀ p, parse [⟨"c", utf8 "print (4 +\n12a" ++ s⟩] ≠ .ok p := by
  obtain ⟨l, fails, place⟩ : ∃ l, parse [⟨"c", utf8 "print (4 +\n12a);"⟩] = .error (.error (.located l)) ∧ l.pos = 13 :=
    ⟨_, rfl, rfl⟩
  have closed : Source.closed ⟨"c", utf8 "print (4 +\n12a);"⟩ = utf8 "print (4 +\n12a);\n" := by decide
  have front : (utf8 "print (4 +\n12a);\n").take 13 = utf8 "print (4 +\n12" := by decide
  have number : digitsValue ((utf8 "print (4 +\n12").rtakeWhile isDigit) < literalBound := by decide
  have next : (⟨13, utf8 "a);\n"⟩ : Cursor) = Blanks.all.skip ⟨13, (utf8 "print (4 +\n12a);\n").drop 13⟩ := by decide
  have word : (utf8 "print (4 +\n12a);\n").take (13 + (lexeme (utf8 "a);\n")).length) = utf8 "print (4 +\n12a" := by decide
  obtain ⟨viable, refused⟩ := failureViable closed fails (by rw [place, front]; exact number)
  rw [place, front] at viable
  rw [place] at refused
  have refused := refused _ next (by decide)
  rw [word] at refused
  exact ⟨l, fails, place, viable, refused⟩

end Abacus
