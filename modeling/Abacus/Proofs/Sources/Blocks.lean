import Abacus.Proofs.Sources.Concatenation

/-! Blocks leave no trace. Braces can be taken for spaces, and statements can be put into a block of their own, without
any change to the statements that are read. -/
namespace Abacus
open Parsing

def isBrace (b : UInt8) : Bool := b == openBrace || b == closeBrace

def unbracedFrom (inComment : Bool) : Bytes → Bytes
  | [] => []
  | b :: rest =>
    if inComment && b != newline then b :: unbracedFrom true rest
    else (if isBrace b then 0x20 else b) :: unbracedFrom (b == Blanks.commentSign) rest

def unbraced (text : Bytes) : Bytes := unbracedFrom false text

namespace Parsing

theorem unbracedOutside (b : UInt8) (rest : Bytes) :
    unbraced (b :: rest) = (if isBrace b then 0x20 else b) :: unbracedFrom (b == Blanks.commentSign) rest := rfl

theorem unbracedPlain {w : Bytes} (plain : w.all isTokenByte = true) (rest : Bytes) :
    unbraced (w ++ rest) = w ++ unbraced rest := by
  induction w with
  | nil => rfl
  | cons b w ih =>
    rw [List.all_cons, Bool.and_eq_true] at plain
    have brace : isBrace b = false := by
      rw [isBrace, Bool.or_eq_false_iff, beq_eq_false_iff_ne, beq_eq_false_iff_ne]
      constructor
      · rintro rfl
        exact absurd plain.1 (by decide)
      · rintro rfl
        exact absurd plain.1 (by decide)
    have sign : (b == Blanks.commentSign) = false := by
      rw [beq_eq_false_iff_ne]
      rintro rfl
      exact absurd plain.1 (by decide)
    rw [List.cons_append, unbracedOutside, brace, sign]
    exact congrArg (b :: ·) (ih plain.2)

theorem unbracedComment {body : Bytes} (line : newline ∉ body) (rest : Bytes) :
    unbracedFrom true (body ++ rest) = body ++ unbracedFrom true rest := by
  induction body with
  | nil => rfl
  | cons b body ih =>
    rw [List.mem_cons, not_or] at line
    have more := bne_iff_ne.mpr (Ne.symm line.1)
    simp only [List.cons_append, unbracedFrom, more, Bool.and_self, if_true, ih line.2]

theorem unbracedLine {rest : Bytes} (ends : ∀ b, rest.head? = some b → b = newline) :
    unbracedFrom true rest = unbraced rest := by
  cases rest with
  | nil => rfl
  | cons b rest =>
    have last := ends b rfl
    subst last
    rfl

def Cursor.unbraced (c : Cursor) : Cursor := ⟨c.pos, Abacus.unbraced c.rest⟩

theorem unbracedNext {c : Cursor} {b : UInt8} (next : c.unbraced.rest.head? = some b) :
    ∃ a, c.rest.head? = some a ∧ b = if isBrace a then 0x20 else a := by
  obtain ⟨pos, rest⟩ := c
  cases rest with
  | nil => simp [Cursor.unbraced, Abacus.unbraced, unbracedFrom] at next
  | cons a rest => exact ⟨a, rfl, (Option.some.inj next).symm⟩

theorem wordEndsUnbraced {c : Cursor} (h : WordEnds c) : WordEnds c.unbraced := by
  intro b next
  obtain ⟨a, here, rfl⟩ := unbracedNext next
  split
  · decide
  · exact h a here

theorem spellsUnbraced {w : Bytes} {c d : Cursor} (plain : w.all isTokenByte = true) (h : Spells w c d) :
    Spells w c.unbraced d.unbraced := by
  refine ⟨?_, h.2⟩
  simp only [Cursor.unbraced, h.1, unbracedPlain plain]

theorem gapUnbraced {c d : Cursor} (h : Gap c d) : Gap c.unbraced d.unbraced := by
  induction h with
  | none c => exact .none _
  | @space b c d e space here more ih =>
    have other : isBrace b = false ∧ (b == Blanks.commentSign) = false := by
      rcases space with rfl | rfl | rfl | rfl <;> decide
    have same : c.unbraced.rest = [b] ++ d.unbraced.rest := by
      simp only [Cursor.unbraced, here.1, List.singleton_append, unbracedOutside, other]
      rfl
    exact .space space ⟨same, here.2⟩ ih
  | @comment body c d e line here ends more ih =>
    have same : c.unbraced.rest = (Blanks.commentSign :: body) ++ d.unbraced.rest := by
      have inside := unbracedComment line d.rest
      rw [unbracedLine ends] at inside
      simp only [Cursor.unbraced, here.1, List.cons_append, unbracedOutside]
      exact congrArg (Blanks.commentSign :: ·) inside
    have stops : ∀ b, d.unbraced.rest.head? = some b → b = newline := by
      intro b next
      obtain ⟨a, there, rfl⟩ := unbracedNext next
      rw [ends a there]
      rfl
    exact .comment line ⟨same, here.2⟩ stops ih

theorem unbracedRespects : Respects Cursor.unbraced where
  pos _ := rfl
  token plain token := ⟨gapUnbraced token.gap, spellsUnbraced plain token.spelled⟩
  ends := wordEndsUnbraced

theorem braceUnbraced {b : UInt8} {c d e : Cursor} (h : Token [b] c d e) (brace : isBrace b = true) :
    Gap c.unbraced e.unbraced := by
  have sign : (b == Blanks.commentSign) = false := by
    rw [beq_eq_false_iff_ne]
    rintro rfl
    exact absurd brace (by decide)
  have same : d.unbraced.rest = [0x20] ++ e.unbraced.rest := by
    simp only [Cursor.unbraced, h.spelled.1, List.singleton_append, unbracedOutside, brace, sign]
    rfl
  exact gapTrans (gapUnbraced h.gap) (spaceGap ⟨same, h.spelled.2⟩)

theorem readsAfterGap {c d e : Cursor} {l : List Stmt} (gap : Gap c d) (h : Reads d e l) : Reads c e l :=
  readsAppend ⟨c, .none c, gap⟩ h

theorem itemsUnbraced {c d : Cursor} {l : List Stmt} (h : DerivesItems c d l) : Reads c.unbraced d.unbraced l := by
  induction h with
  | none c => exact ⟨_, .none _, .none _⟩
  | @stmt c d e s l first more ih =>
    obtain ⟨f, items, gap⟩ := ih
    exact ⟨f, .stmt (stmtRespects unbracedRespects first) items, gap⟩
  | block left body right more bodyIH moreIH =>
    have inner := readsAfterGap (braceUnbraced left (by decide)) bodyIH
    have outer := readsAfterGap (braceUnbraced right (by decide)) moreIH
    exact readsAppend inner outer

theorem programUnbraced {text : Bytes} {l : List Stmt} (h : DerivesProgram text l) : DerivesProgram (unbraced text) l := by
  obtain ⟨c, d, items, gap, ended⟩ := h
  obtain ⟨e, items', gap'⟩ := itemsUnbraced items
  have none : d.unbraced.rest = [] := by
    simp only [Cursor.unbraced, ended]
    rfl
  exact ⟨e, d.unbraced, items', gapTrans gap' (gapUnbraced gap), none⟩

theorem readsBlock {c d e f g : Cursor} {inner l : List Stmt} (left : Spells [openBrace] c d) (body : Reads d e inner)
    (right : Spells [closeBrace] e f) (more : Reads f g l) : Reads c g (inner ++ l) := by
  obtain ⟨d', items, gap⟩ := body
  obtain ⟨f', items', gap'⟩ := more
  exact ⟨f', .block ⟨.none c, left⟩ items ⟨gap, right⟩ items', gap'⟩

theorem readsLine {text : Bytes} {base : Nat} {e : Cursor} {l : List Stmt} (h : Reads ⟨base, text ++ [newline]⟩ e l)
    (ended : e.rest = []) (rest : Bytes) :
    Reads ⟨base, text ++ newline :: rest⟩ ⟨base + text.length + 1, rest⟩ l := by
  obtain ⟨c, items, gap⟩ := h
  obtain ⟨stop, left⟩ := e
  simp only at ended
  subst ended
  obtain ⟨d, longer, gap', -⟩ := itemsFollowed (.inr ⟨text, rfl⟩) items gap rest
  rw [List.append_assoc, List.singleton_append] at longer
  rw [List.length_append, List.length_singleton, ← Nat.add_assoc] at gap'
  exact ⟨d, longer, gap'⟩

theorem programMoved {text : Bytes} {l : List Stmt} (h : DerivesProgram text l) (base : Nat) :
    ∃ e, Reads ⟨base, text⟩ e (l.map (Stmt.shift base)) ∧ e.rest = [] := by
  obtain ⟨c, d, items, gap, ended⟩ := h
  have moved := readsShift ⟨c, items, gap⟩ ended base
  simp only [Cursor.shift, Nat.zero_add] at moved
  exact ⟨_, moved, ended⟩

theorem programEnclosing {before inner after : Bytes} {l m n : List Stmt} (first : DerivesProgram before l)
    (second : DerivesProgram inner m) (third : DerivesProgram after n) :
    DerivesProgram (before ++ newline :: openBrace :: (inner ++ newline :: closeBrace :: after))
      (l ++ (m.map (Stmt.shift (before.length + 2)) ++ n.map (Stmt.shift (before.length + inner.length + 4)))) := by
  obtain ⟨c, d, items, gap, ended⟩ := (newlineIgnored before l).mpr first
  obtain ⟨e, body, ended'⟩ := programMoved ((newlineIgnored inner m).mpr second) (before.length + 2)
  obtain ⟨f, last, none⟩ := programMoved third (before.length + inner.length + 4)
  have front := readsLine ⟨c, items, gap⟩ ended (openBrace :: (inner ++ newline :: closeBrace :: after))
  rw [Nat.zero_add] at front
  have opened : Spells [openBrace] ⟨before.length + 1, openBrace :: (inner ++ newline :: closeBrace :: after)⟩
      ⟨before.length + 2, inner ++ newline :: closeBrace :: after⟩ := ⟨rfl, rfl⟩
  have closed : Spells [closeBrace] ⟨before.length + 2 + inner.length + 1, closeBrace :: after⟩
      ⟨before.length + inner.length + 4, after⟩ := ⟨rfl, by simp only [List.length_singleton]; omega⟩
  have block := readsBlock opened (readsLine body ended' (closeBrace :: after)) closed last
  obtain ⟨g, whole, gap'⟩ := readsAppend front block
  exact ⟨g, f, whole, gap', none⟩

end Parsing

/- A program keeps its statements, with all positions in them, if every brace outside of comments becomes a space. Three
programs, the second one in a block, are read as the statements of all three, each in its place. -/
theorem blocksTransparent (name : String) :
    (∀ text p, parse [⟨name, text⟩] = .ok p → ∃ q, parse [⟨name, unbraced text⟩] = .ok q ∧ q.stmts = p.stmts) ∧
    ∀ t₁ t₂ t₃ p₁ p₂ p₃, parse [⟨name, t₁⟩] = .ok p₁ → parse [⟨name, t₂⟩] = .ok p₂ → parse [⟨name, t₃⟩] = .ok p₃ →
      ∃ q, parse [⟨name, t₁ ++ newline :: openBrace :: (t₂ ++ newline :: closeBrace :: t₃)⟩] = .ok q ∧
        q.stmts = p₁.stmts ++ (p₂.stmts.map (Stmt.shift (t₁.length + 2)) ++
          p₃.stmts.map (Stmt.shift (t₁.length + t₂.length + 4))) ∧
        q.stmts.map Stmt.bare = (p₁.stmts ++ p₂.stmts ++ p₃.stmts).map Stmt.bare := by
  constructor
  · intro text p read
    exact derivedParses name (programUnbraced (parsedDerives read))
  · intro t₁ t₂ t₃ p₁ p₂ p₃ first second third
    obtain ⟨q, read, stmts⟩ :=
      derivedParses name (programEnclosing (parsedDerives first) (parsedDerives second) (parsedDerives third))
    refine ⟨q, read, stmts, ?_⟩
    simp only [stmts, List.map_append, stmtsShiftBare, List.append_assoc]

theorem nestedTransparent :
    (∃ p q, parse [⟨"", utf8 "\x7b 7; # \x7b\n\x7b print mem;\x7d \x7d"⟩] = .ok p ∧
      parse [⟨"", utf8 "  7; # \x7b\n  print mem;   "⟩] = .ok q ∧ q.stmts = p.stmts ∧ p.stmts.length = 2) ∧
    ∃ q, parse [⟨"", utf8 "1;# one\n\x7b\x7b 2; \x7d\n\x7d3;"⟩] = .ok q ∧
      q.stmts.map Stmt.bare = [.assign .zero (.int .zero 1), .assign .zero (.int .zero 2), .assign .zero (.int .zero 3)] := by
  obtain ⟨plain, block⟩ := blocksTransparent ""
  constructor
  · obtain ⟨p, read, size⟩ : ∃ p, parse [⟨"", utf8 "\x7b 7; # \x7b\n\x7b print mem;\x7d \x7d"⟩] = .ok p ∧ p.stmts.length = 2 :=
      ⟨_, rfl, rfl⟩
    have text : unbraced (utf8 "\x7b 7; # \x7b\n\x7b print mem;\x7d \x7d") = utf8 "  7; # \x7b\n  print mem;   " := by decide
    obtain ⟨q, again, same⟩ := plain _ p read
    rw [text] at again
    exact ⟨p, q, read, again, same, size⟩
  · have text : utf8 "1;# one" ++ newline :: openBrace :: (utf8 "\x7b 2; \x7d" ++ newline :: closeBrace :: utf8 "3;") =
        utf8 "1;# one\n\x7b\x7b 2; \x7d\n\x7d3;" := by decide
    obtain ⟨q, read, -, same⟩ := block (utf8 "1;# one") (utf8 "\x7b 2; \x7d") (utf8 "3;") _ _ _ rfl rfl rfl
    rw [text] at read
    exact ⟨q, read, same⟩

end Abacus
