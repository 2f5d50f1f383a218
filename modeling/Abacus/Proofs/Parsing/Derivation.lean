import Abacus.Parsing.Rules
import Abacus.Proofs.Parsing.Skipping

/-! The language as a grammar, independent of any parser. A derivation relates the cursor before a phrase, the
cursor after it and the tree, positions included. The choice among derivations is left open: a chain of operators
may end anywhere, and blanks may be left for the next token. -/
namespace Abacus.Parsing

def Spells (w : Bytes) (c d : Cursor) : Prop := c.rest = w ++ d.rest ∧ d.pos = c.pos + w.length

def WordEnds (c : Cursor) : Prop := ∀ b, c.rest.head? = some b → isWordByte b = false

def isSpace (b : UInt8) : Prop := b = 0x20 ∨ b = 0x09 ∨ b = 0x0d ∨ b = newline

/-- Any run of spaces, tabs, carriage returns, newlines and comments. A comment goes up to the end of its line. -/
inductive Gap : Cursor → Cursor → Prop where
  | none (c : Cursor) : Gap c c
  | space {b : UInt8} {c d e : Cursor} (space : isSpace b) (here : Spells [b] c d) (more : Gap d e) : Gap c e
  | comment {body : Bytes} {c d e : Cursor} (line : newline ∉ body) (here : Spells (Blanks.commentSign :: body) c d)
      (ends : ∀ b, d.rest.head? = some b → b = newline) (more : Gap d e) : Gap c e

structure Token (w : Bytes) (c d e : Cursor) : Prop where
  gap : Gap c d
  spelled : Spells w d e

inductive Tier where
  | sum
  | product

def Tier.ops : Tier → List Oper
  | .sum => [.add, .sub]
  | .product => [.mul, .div]

inductive Phrase where
  | chain (t : Tier)
  | links (t : Tier) (x : Expr)
  | unary
  | primary

abbrev Phrase.expr : Phrase := .chain .sum

abbrev Phrase.term : Phrase := .chain .product

def Tier.operand : Tier → Phrase
  | .sum => .term
  | .product => .unary

inductive Derives : Phrase → Cursor → Cursor → Expr → Prop where
  | chain {t : Tier} {c d e : Cursor} {x y : Expr} (first : Derives t.operand c d x)
      (more : Derives (.links t x) d e y) : Derives (.chain t) c e y
  | stop {t : Tier} {x : Expr} (c : Cursor) : Derives (.links t x) c c x
  | link {t : Tier} {o : Oper} {c s d e f : Cursor} {x y z : Expr} (oper : o ∈ t.ops)
      (sign : Token (utf8 o.symbol) c s d) (arg : Derives t.operand d e y)
      (more : Derives (.links t (x.join o y)) e f z) : Derives (.links t x) c f z
  | sign {s : Sign} {c b d e : Cursor} {x : Expr} (sign : Token (utf8 s.symbol) c b d)
      (arg : Derives .unary d e x) : Derives .unary c e (.signed ⟨b.pos, x.span.stop⟩ (.known s) x)
  | plain {c d : Cursor} {x : Expr} (body : Derives .primary c d x) : Derives .unary c d x
  | mem {c b d : Cursor} (word : Token (utf8 "mem") c b d) (ends : WordEnds d) :
      Derives .primary c d (.mem ⟨b.pos, d.pos⟩)
  | int {ds : Bytes} {c b d : Cursor} (digits : Token ds c b d) (some : ds ≠ []) (all : ∀ x ∈ ds, isDigit x = true)
      (ends : WordEnds d) (small : digitsValue ds < literalBound) :
      Derives .primary c d (.int ⟨b.pos, d.pos⟩ (Int64.ofNat (digitsValue ds)))
  | paren {c b d e s f : Cursor} {x : Expr} (left : Token (utf8 "(") c b d) (body : Derives .expr d e x)
      (right : Token (utf8 ")") e s f) : Derives .primary c f (.paren ⟨b.pos, f.pos⟩ x)

inductive DerivesStmt : Cursor → Cursor → Stmt → Prop where
  | print {c b d e s f : Cursor} {x : Expr} (word : Token (utf8 "print") c b d) (ends : WordEnds d)
      (body : Derives .expr d e x) (stop : Token (utf8 ";") e s f) : DerivesStmt c f (.print ⟨b.pos, f.pos⟩ x)
  | assign {c d s e : Cursor} {x : Expr} (body : Derives .expr c d x) (stop : Token (utf8 ";") d s e) :
      DerivesStmt c e (.assign ⟨x.span.pos, e.pos⟩ x)

inductive DerivesItems : Cursor → Cursor → List Stmt → Prop where
  | none (c : Cursor) : DerivesItems c c []
  | stmt {c d e : Cursor} {s : Stmt} {l : List Stmt} (first : DerivesStmt c d s) (more : DerivesItems d e l) :
      DerivesItems c e (s :: l)
  | block {c b d e s f g : Cursor} {inner l : List Stmt} (left : Token [openBrace] c b d)
      (body : DerivesItems d e inner) (right : Token [closeBrace] e s f) (more : DerivesItems f g l) :
      DerivesItems c g (inner ++ l)

def DerivesProgram (text : Bytes) (l : List Stmt) : Prop :=
  ∃ c d, DerivesItems ⟨0, text⟩ c l ∧ Gap c d ∧ d.rest = []

theorem spellsAdvance {w : Bytes} {c d : Cursor} (h : Spells w c d) : d = c.advance w.length := by
  obtain ⟨rest, pos⟩ := h
  simp [Cursor.advance, rest, ← pos]

theorem spellsOfPrefix {w : Bytes} {c : Cursor} (h : w <+: c.rest) : Spells w c (c.advance w.length) := by
  obtain ⟨tail, same⟩ := h
  simp [Spells, Cursor.advance, ← same]

theorem spellsPrefix {w : Bytes} {c d : Cursor} (h : Spells w c d) : w <+: c.rest := ⟨d.rest, h.1.symm⟩

theorem spellsAppend {v w : Bytes} {c d e : Cursor} (h : Spells v c d) (k : Spells w d e) : Spells (v ++ w) c e := by
  refine ⟨by rw [h.1, k.1, List.append_assoc], ?_⟩
  rw [k.2, h.2, List.length_append]
  omega

def gapBytes : List UInt8 := [0x20, 0x09, 0x0d, newline, Blanks.commentSign]

theorem gapBytesListed : Blanks.all.Lists gapBytes := Blanks.ofBytesLists rfl

theorem gapBytesMem (b : UInt8) : b ∈ gapBytes ↔ isSpace b ∨ b = Blanks.commentSign := by
  simp [gapBytes, isSpace, or_assoc]

theorem containsAll (b : UInt8) : Blanks.all.contains b = true ↔ isSpace b ∨ b = Blanks.commentSign :=
  (Blanks.containsListed gapBytesListed b).trans (gapBytesMem b)

theorem spacePlain {b : UInt8} (space : isSpace b) : b ≠ Blanks.commentSign := by
  rcases space with h | h | h | h <;> simp [h, newline, Blanks.commentSign]

theorem gapFiller {c d : Cursor} (h : Gap c d) : ∃ w, Spells w c d ∧ Filler gapBytes d.rest w := by
  induction h with
  | none c => exact ⟨[], ⟨rfl, rfl⟩, .none⟩
  | @space b c d e space here more ih =>
    obtain ⟨w, spelled, filler⟩ := ih
    exact ⟨b :: w, spellsAppend here spelled, .blank ((gapBytesMem b).mpr (.inl space)) (spacePlain space) filler⟩
  | @comment body c d e line here ends more ih =>
    obtain ⟨w, spelled, filler⟩ := ih
    rw [spelled.1] at ends
    exact ⟨_, spellsAppend here spelled, .comment ((gapBytesMem _).mpr (.inr rfl)) line ends filler⟩

theorem fillerGap {after w : Bytes} (filler : Filler gapBytes after w) (pos : Nat) :
    Gap ⟨pos, w ++ after⟩ ⟨pos + w.length, after⟩ := by
  induction filler generalizing pos with
  | none => exact .none _
  | @blank b w listed plain more ih =>
    have space := ((gapBytesMem b).mp listed).resolve_right plain
    have gap := ih (pos + 1)
    rw [Nat.add_assoc, Nat.add_comm 1] at gap
    exact .space space ⟨rfl, rfl⟩ gap
  | @comment body w listed line ends more ih =>
    have gap := ih (pos + (Blanks.commentSign :: body).length)
    rw [Nat.add_assoc, ← List.length_append] at gap
    exact .comment line ⟨List.append_assoc .., rfl⟩ ends gap

theorem gapSkip (c : Cursor) : Gap c (Blanks.all.skip c) := by
  obtain ⟨w, rest, pos, filler⟩ := skippedFiller gapBytesListed c.pos c.rest
  have gap := fillerGap filler c.pos
  rwa [← rest, ← pos] at gap

theorem skipGap {c d : Cursor} (h : Gap c d) : Blanks.all.skip c = Blanks.all.skip d := by
  obtain ⟨w, ⟨rest, pos⟩, filler⟩ := gapFiller h
  have same := skipFiller gapBytesListed filler c.pos
  rwa [← rest, ← pos] at same

def Solid (w : Bytes) : Prop := w.head?.any (fun b => !Blanks.all.contains b) = true
instance (w : Bytes) : Decidable (Solid w) := by unfold Solid; infer_instance

theorem tokenSkip {w : Bytes} {c d e : Cursor} (h : Token w c d e) (solid : Solid w) : Blanks.all.skip c = d := by
  rw [skipGap h.gap]
  apply Blanks.skipSame
  rw [h.spelled.1]
  cases w with
  | nil => simp [Solid] at solid
  | cons b w => simpa [Solid] using solid

theorem digitSolid {ds : Bytes} (some : ds ≠ []) (all : ∀ x ∈ ds, isDigit x = true) : Solid ds := by
  cases ds with
  | nil => exact absurd rfl some
  | cons b ds =>
    have digit := all b (by simp)
    have blank : Blanks.all.contains b = false := by
      rw [← Bool.not_eq_true, containsAll]
      rintro ((rfl | rfl | rfl | rfl) | rfl) <;> simp [isDigit, newline, Blanks.commentSign] at digit
    simp [Solid, blank]

theorem signSolid (s : Sign) : Solid (utf8 s.symbol) := by
  cases s <;> decide

def Phrase.start (c : Cursor) : Phrase → Int
  | .links _ x => x.span.pos
  | _ => (Blanks.all.skip c).pos

theorem derivesStart {ph : Phrase} {c d : Cursor} {x : Expr} (h : Derives ph c d x) : x.span.pos = ph.start c := by
  induction h with
  | @chain t c d e x y first more firstStart moreStart =>
    rw [moreStart]
    cases t with
    | sum => exact firstStart
    | product => exact firstStart
  | stop c => rfl
  | link oper sign arg more argStart moreStart => exact moreStart
  | @sign s c b d e x sign arg argStart => simp [Phrase.start, tokenSkip sign (signSolid s), Expr.span]
  | plain body bodyStart => exact bodyStart
  | mem word ends => simp [Phrase.start, tokenSkip word (by decide), Expr.span]
  | int digits some all ends small => simp [Phrase.start, tokenSkip digits (digitSolid some all), Expr.span]
  | paren left body right bodyStart => simp [Phrase.start, tokenSkip left (by decide), Expr.span]

end Abacus.Parsing
