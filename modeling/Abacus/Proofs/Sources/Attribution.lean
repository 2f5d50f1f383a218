import Abacus.Proofs.Sources.Concatenation

/-! The source that a failure is laid to. What is wrong in the last of several sources is found where it is found in that
source alone, as long as it is past the first token. A first token that starts no statement is reported in front of the
blanks before it, and so at the end of what was read before: in an earlier source. -/
namespace Abacus
open Parsing

theorem bufferAppend (srcs more : List Source) : buffer (srcs ++ more) = buffer srcs ++ buffer more := by
  simp [buffer]

theorem bufferLined (srcs : List Source) : Lined (buffer srcs) := by
  induction srcs with
  | nil => exact .inl rfl
  | cons s srcs ih =>
    rw [bufferCons]
    rcases ih with none | ⟨u, same⟩
    · rw [none, List.append_nil]
      exact closedLined s
    · exact .inr ⟨s.closed ++ u, by rw [same, List.append_assoc]⟩

section Places

variable (earlier : List Source) (last : Source)

theorem sourceAtNext (base : Nat) (s : Source) (pos : Nat) :
    sourceAt base (s :: (earlier ++ [last])) pos =
      if pos < base + s.closed.length then (s.name, base)
      else sourceAt (base + s.closed.length) (earlier ++ [last]) pos := by
  cases earlier with
  | nil => rfl
  | cons next earlier => rfl

theorem sourceAtLast (base pos : Nat) (past : base + (buffer earlier).length ≤ pos) :
    sourceAt base (earlier ++ [last]) pos = (last.name, base + (buffer earlier).length) := by
  induction earlier generalizing base with
  | nil => rfl
  | cons s earlier ih =>
    rw [bufferCons, List.length_append, ← Nat.add_assoc] at past ⊢
    rw [List.cons_append, sourceAtNext, if_neg (by omega), ih _ past]

theorem sourceAtEarlier (base pos : Nat) (low : base ≤ pos) (inside : pos < base + (buffer earlier).length) :
    ∃ s ∈ earlier, (sourceAt base (earlier ++ [last]) pos).1 = s.name := by
  induction earlier generalizing base with
  | nil =>
    have short : pos < base := inside
    omega
  | cons s earlier ih =>
    rw [bufferCons, List.length_append, ← Nat.add_assoc] at inside
    rw [List.cons_append, sourceAtNext]
    by_cases here : pos < base + s.closed.length
    · rw [if_pos here]
      exact ⟨s, by simp, rfl⟩
    · rw [if_neg here]
      obtain ⟨found, member, name⟩ := ih (base + s.closed.length) (by omega) inside
      exact ⟨found, by simp [member], name⟩

theorem locateLast (pos : Nat) (complaint complaint' : Complaint) :
    locate (earlier ++ [last]) (pos + (buffer earlier).length) complaint =
      { locate [last] pos complaint' with pos := pos + (buffer earlier).length, complaint } := by
  have found := sourceAtLast earlier last 0 (pos + (buffer earlier).length) (by omega)
  rw [Nat.zero_add] at found
  simp only [locate, found, bufferAppend, bufferOne, sourceAt, List.drop_left, Nat.add_sub_cancel, List.drop_zero,
    Nat.sub_zero]

end Places

theorem parseLocates {srcs : List Source} {l : Located} (h : parse srcs = .error (.error (.located l))) :
    l = locate srcs l.pos l.complaint := by
  rw [parseProgram] at h
  cases found : Rule.program ⟨0, buffer srcs⟩ with
  | failed r i =>
    simp only [found, Except.error.injEq, Stop.error.injEq, SourceError.located.injEq] at h
    subst h
    rfl
  | broken f => simp [found] at h
  | done p c =>
    simp only [found] at h
    split at h
    · contradiction
    · simp only [Except.error.injEq, Stop.error.injEq, SourceError.located.injEq] at h
      subst h
      rfl

theorem earlierParse {earlier : List Source} (alone : ∀ s ∈ earlier, ∃ p, s.parse = .ok p) :
    ∃ p, parse earlier = .ok p := by
  have parts : ∃ parts : List (Source × Program), parts.map Prod.fst = earlier ∧
      ∀ part ∈ parts, part.1.parse = .ok part.2 := by
    induction earlier with
    | nil => exact ⟨[], rfl, by simp⟩
    | cons s earlier ih =>
      obtain ⟨p, own⟩ := alone s (by simp)
      obtain ⟨parts, names, each⟩ := ih fun s member => alone s (by simp [member])
      exact ⟨(s, p) :: parts, by rw [List.map_cons, names], List.forall_mem_cons.mpr ⟨own, each⟩⟩
  obtain ⟨parts, rfl, each⟩ := parts
  obtain ⟨p, read, -⟩ := sourcesParse each
  exact ⟨p, read⟩

theorem parseItems (srcs : List Source) :
    parse srcs =
      match Rule.items (buffer srcs).length [] [] ⟨0, buffer srcs⟩ with
      | .failed r i => .error (.error (.located (locate srcs i (.grammar r))))
      | .broken f => .error (.fault f)
      | .done l c =>
        let left := Blanks.all.skip c
        if left.rest.isEmpty then .ok ⟨⟨(Blanks.all.skip ⟨0, buffer srcs⟩).pos, c.pos⟩, l⟩
        else .error (.error (.located (locate srcs left.pos (.leftover left.pos)))) := by
  rw [parseProgram, Rule.program]
  cases Rule.items (buffer srcs).length [] [] ⟨0, buffer srcs⟩ <;> rfl

def Located.AtStart (l : Located) : Prop := l.pos = 0 ∧ ∃ r, l.complaint = .grammar r

theorem failureMoves {earlier : List Source} {last : Source} {before : Program} {l : Located}
    (read : parse earlier = .ok before) (fails : parse [last] = .error (.error (.located l))) :
    ∃ whole, parse (earlier ++ [last]) = .error (.error (.located whole)) ∧
      (¬ l.AtStart ∧ whole.pos = l.pos + (buffer earlier).length ∨ l.AtStart ∧ (whole.pos : Int) = before.span.stop) := by
  obtain ⟨c, ⟨stop, rest⟩, items, gap, ended, span⟩ := (parseExact earlier before).mp read
  simp only at ended
  subst ended
  obtain ⟨d, longer, gap', same⟩ := itemsFollowed (bufferLined earlier) items gap last.closed
  obtain ⟨m, enough, accepted⟩ := Rule.itemsAccepted longer [] [] _ (Nat.le_refl _)
  have aligned : Aligned (buffer earlier).length ⟨0, last.closed⟩ d := alignedGap gap'
  have run : Rule.Parallel (buffer earlier).length before.stmts ⟨0, last.closed⟩ d 0
      (Rule.items last.closed.length [] [] ⟨0, last.closed⟩) (Rule.items m [] (before.stmts ++ []) d) :=
    Rule.itemsParallel _ m (.top []) aligned (Nat.le_refl _) enough
  rw [parseItems, bufferOne] at fails
  rw [parseItems, bufferAppend, bufferOne, accepted, List.nil_append]
  rw [List.append_nil] at run
  generalize Rule.items last.closed.length [] [] ⟨0, last.closed⟩ = o at run fails
  generalize Rule.items m [] before.stmts d = o' at run ⊢
  cases run with
  | @done l e e' aligned =>
    have left : (Blanks.all.skip e').rest = (Blanks.all.skip e).rest := by rw [aligned]; rfl
    dsimp only at fails ⊢
    split at fails
    · contradiction
    · rename_i more
      simp only [Except.error.injEq, Stop.error.injEq, SourceError.located.injEq] at fails
      subst fails
      rw [left, if_neg more]
      exact ⟨_, rfl, .inl ⟨by simp [Located.AtStart, locate], alignedPos aligned⟩⟩
  | @failed i r r' onward past =>
    simp only [Except.error.injEq, Stop.error.injEq, SourceError.located.injEq] at fails
    subst fails
    have later : 0 < i := Nat.lt_of_le_of_lt (Nat.zero_le _) (past rfl)
    refine ⟨_, rfl, .inl ⟨?_, rfl⟩⟩
    rintro ⟨zero, -⟩
    exact absurd zero (Nat.ne_of_gt later)
  | stayed r r' =>
    simp only [Except.error.injEq, Stop.error.injEq, SourceError.located.injEq] at fails
    subst fails
    refine ⟨_, rfl, .inr ⟨⟨rfl, r, rfl⟩, ?_⟩⟩
    rw [span]
    exact congrArg Nat.cast same

theorem stopInside {srcs : List Source} {p : Program} (read : parse srcs = .ok p) (some : buffer srcs ≠ []) :
    0 ≤ p.span.stop ∧ p.span.stop < (buffer srcs).length := by
  obtain ⟨c, d, items, -, -, span⟩ := (parseExact srcs p).mp read
  have finish := itemsFinish items
  rcases bufferLined srcs with none | ⟨u, same⟩
  · exact absurd none some
  · rw [same] at items
    obtain ⟨e, rfl, -⟩ := itemsRetract (c := ⟨0, u⟩) items
    simp only [Cursor.finish, Cursor.close, Cursor.extend, List.length_append, List.length_singleton] at finish
    rw [span]
    simp only [Cursor.close, Cursor.extend]
    omega

theorem stopNothing {srcs : List Source} {p : Program} (read : parse srcs = .ok p) (none : buffer srcs = []) :
    p.span.stop = 0 := by
  obtain ⟨c, d, items, -, -, span⟩ := (parseExact srcs p).mp read
  obtain ⟨-, rfl⟩ := itemsNothing items none
  rw [span]
  rfl

theorem sourcesFail {srcs : List Source} {l : Located} :
    parseSources srcs = .error (.source (.located l)) ↔ parse srcs = .error (.error (.located l)) := by
  unfold parseSources
  cases read : parse srcs with
  | ok p => simp [mapErrorOk]
  | error e =>
    obtain ⟨place, rfl⟩ := parseLocated read
    simp [mapErrorError, Failure.ofStop]

/- Sources that can be read, and a last one that cannot. The failure is reported with the name, line and column that it
has in the last source alone, unless that source starts with no statement: then it is reported where the last statement
before it ends, in one of the other sources. -/
theorem lastSourceReported {earlier : List Source} {last : Source} {l : Located}
    (alone : ∀ s ∈ earlier, ∃ p, s.parse = .ok p) (fails : parseSources [last] = .error (.source (.located l))) :
    ∃ before whole, parseSources earlier = .ok before ∧
      parseSources (earlier ++ [last]) = .error (.source (.located whole)) ∧
      (¬ l.AtStart ∨ buffer earlier = [] → whole.file = last.name ∧ whole.line = l.line ∧ whole.col = l.col ∧
        whole.pos = l.pos + (buffer earlier).length) ∧
      (l.AtStart → buffer earlier ≠ [] → whole.pos = before.span.stop ∧ ∃ s ∈ earlier, whole.file = s.name) := by
  obtain ⟨before, read⟩ := earlierParse alone
  obtain ⟨whole, together, place⟩ := failureMoves read (sourcesFail.mp fails)
  have own := parseLocates (sourcesFail.mp fails)
  have whose := parseLocates together
  refine ⟨before, whole, ?_, sourcesFail.mpr together, ?_, ?_⟩
  · rw [parseSources, read]
    rfl
  · intro held
    have pos : whole.pos = l.pos + (buffer earlier).length := by
      rcases place with ⟨-, pos⟩ | ⟨start, stop⟩
      · exact pos
      · have none := held.resolve_left (not_not_intro start)
        have zero := stopNothing read none
        rw [none, start.1, List.length_nil]
        omega
    rw [pos, locateLast earlier last l.pos whole.complaint l.complaint, ← own] at whose
    rw [whose]
    exact ⟨by rw [own]; rfl, rfl, rfl, rfl⟩
  · intro start some
    rcases place with ⟨other, -⟩ | ⟨-, stop⟩
    · exact absurd start other
    · have inside := stopInside read some
      obtain ⟨s, member, name⟩ := sourceAtEarlier earlier last 0 whole.pos (Nat.zero_le _) (by omega)
      refine ⟨stop, s, member, ?_⟩
      rw [← name, whose]
      rfl

theorem missingOperandReported :
    (∀ s ∈ [(⟨"a", utf8 "mem;# note"⟩ : Source), ⟨"b", []⟩], ∃ p, s.parse = .ok p) ∧
      ∃ l whole, parseSources [⟨"c", utf8 "5;\n print mem +;"⟩] = .error (.source (.located l)) ∧ l.line = 2 ∧ l.col = 13 ∧
        parseSources ([⟨"a", utf8 "mem;# note"⟩, ⟨"b", []⟩] ++ [⟨"c", utf8 "5;\n print mem +;"⟩]) =
          .error (.source (.located whole)) ∧
        whole.file = "c" ∧ whole.line = 2 ∧ whole.col = 13 ∧ whole.pos = 26 := by
  have alone : ∀ s ∈ [(⟨"a", utf8 "mem;# note"⟩ : Source), ⟨"b", []⟩], ∃ p, s.parse = .ok p := by
    simp only [List.forall_mem_cons]
    exact ⟨⟨_, rfl⟩, ⟨_, rfl⟩, by simp⟩
  obtain ⟨l, fails, later, line, col, pos⟩ : ∃ l, parseSources [⟨"c", utf8 "5;\n print mem +;"⟩] = .error (.source (.located l)) ∧
      ¬ l.AtStart ∧ l.line = 2 ∧ l.col = 13 ∧ l.pos = 15 := by
    refine ⟨_, rfl, ?_, rfl, rfl, rfl⟩
    rintro ⟨zero, -⟩
    exact absurd zero (by decide)
  obtain ⟨before, whole, -, together, same, -⟩ := lastSourceReported alone fails
  obtain ⟨file, line', col', pos'⟩ := same (.inl later)
  exact ⟨alone, l, whole, fails, line, col, together, file, line'.trans line, col'.trans col, by rw [pos', pos]; rfl⟩

theorem firstTokenMisplaced :
    (∃ p, (⟨"a", utf8 "1;"⟩ : Source).parse = .ok p) ∧
      ∃ l whole, parseSources [⟨"b", utf8 ")"⟩] = .error (.source (.located l)) ∧
        l.file = "b" ∧ l.line = 1 ∧ l.col = 1 ∧
        parseSources [⟨"a", utf8 "1;"⟩, ⟨"b", utf8 ")"⟩] = .error (.source (.located whole)) ∧
        whole.file = "a" ∧ whole.line = 1 ∧ whole.col = 3 :=
  ⟨⟨_, rfl⟩, _, _, rfl, rfl, rfl, rfl, rfl, rfl, rfl, rfl⟩

end Abacus
