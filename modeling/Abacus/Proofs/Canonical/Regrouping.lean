import Abacus.Proofs.Parsing.Language
import Abacus.Proofs.Positions

/-! The canonical text of a tree has a derivation. It denotes the tree with parentheses put around the operands that
bind too weakly where they stand; a tree that was read from a text has no such operands. -/
namespace Abacus
open Parsing

namespace Expr

/-- The tree that the canonical text denotes where an expression of a lower precedence than `prec` has to be in
parentheses. -/
def grouped (prec : Nat) : Expr → Expr
  | .paren s x => .paren s (x.grouped 0)
  | .signed s op x => .signed s op (x.grouped signPrecedence)
  | .binary s (.known op) l r =>
    let y := .binary s (.known op) (l.grouped op.precedence) (r.grouped (op.precedence + 1))
    if op.precedence < prec then .paren s y else y
  | x => x

def Unsigned : Expr → Prop
  | .int _ v => 0 ≤ v.toInt
  | .paren _ x | .signed _ _ x => x.Unsigned
  | .binary _ _ l r => l.Unsigned ∧ r.Unsigned
  | _ => True

end Expr

namespace Parsing

theorem spellsSplit {v w : Bytes} {c e : Cursor} (h : Spells (v ++ w) c e) : ∃ d, Spells v c d ∧ Spells w d e := by
  refine ⟨⟨c.pos + v.length, w ++ e.rest⟩, ⟨by rw [h.1, List.append_assoc], rfl⟩, rfl, ?_⟩
  rw [h.2, List.length_append, Nat.add_assoc]

theorem spaceGap {c d : Cursor} (h : Spells [0x20] c d) : Gap c d := .space (.inl rfl) h (.none d)

theorem spellsWordEnds {b : UInt8} {w : Bytes} {c d : Cursor} (h : Spells (b :: w) c d) (other : isWordByte b = false) :
    WordEnds c := by
  intro a next
  rw [h.1, List.cons_append, List.head?_cons] at next
  cases next
  exact other

theorem tokenAfterGap {w : Bytes} {c d e f : Cursor} (gap : Gap c d) (h : Token w d e f) : Token w c e f :=
  ⟨gapTrans gap h.gap, h.spelled⟩

theorem derivesAfterGap {ph : Phrase} {d e : Cursor} {x : Expr} (h : Derives ph d e x) :
    match ph with
    | .links _ _ => True
    | _ => ∀ c, Gap c d → Derives ph c e x := by
  induction h with
  | @chain t c d e x y first more firstIH moreIH =>
    intro b gap
    have earlier : Derives t.operand b d x := by
      cases t with
      | sum => exact firstIH b gap
      | product => exact firstIH b gap
    exact .chain earlier more
  | stop c => trivial
  | link oper sign arg more argIH moreIH => trivial
  | sign sign arg argIH => exact fun b gap => .sign (tokenAfterGap gap sign) arg
  | plain body bodyIH => exact fun b gap => .plain (bodyIH b gap)
  | mem word ends => exact fun b gap => .mem (tokenAfterGap gap word) ends
  | int digits some all ends small => exact fun b gap => .int (tokenAfterGap gap digits) some all ends small
  | paren left body right bodyIH => exact fun b gap => .paren (tokenAfterGap gap left) body right

theorem operandAfterGap {t : Tier} {c d e : Cursor} {x : Expr} (gap : Gap c d) (h : Derives t.operand d e x) :
    Derives t.operand c e x := by
  cases t with
  | sum => exact derivesAfterGap h c gap
  | product => exact derivesAfterGap h c gap

theorem linksSnoc {ph : Phrase} {c d : Cursor} {z : Expr} (h : Derives ph c d z) {t : Tier} {x y : Expr}
    (links : ph = .links t x) {o : Oper} {s e f : Cursor} (oper : o ∈ t.ops) (sign : Token (utf8 o.symbol) d s e)
    (arg : Derives t.operand e f y) : Derives (.links t x) c f (z.join o y) := by
  induction h generalizing x with
  | stop c =>
    cases links
    exact .link oper sign arg (.stop f)
  | link oper' sign' arg' more' argIH moreIH =>
    cases links
    exact .link oper' sign' arg' (moreIH rfl sign)
  | chain => cases links
  | sign => cases links
  | plain => cases links
  | mem => cases links
  | int => cases links
  | paren => cases links

theorem chainSnoc {t : Tier} {o : Oper} {c d s e f : Cursor} {x y : Expr} (h : Derives (.chain t) c d x)
    (oper : o ∈ t.ops) (sign : Token (utf8 o.symbol) d s e) (arg : Derives t.operand e f y) :
    Derives (.chain t) c f (x.join o y) := by
  cases h with
  | chain first more => exact .chain first (linksSnoc more rfl oper sign arg)

/- Wherever the text stands, unless a word goes on behind it, it is a phrase that denotes `x` up to positions. -/
def Writes (ph : Phrase) (w : Bytes) (x : Expr) : Prop :=
  ∀ c d, Spells w c d → WordEnds d → ∃ y, Derives ph c d y ∧ y.bare = x.bare

theorem writesMem (span : Span) : Writes .primary (utf8 "mem") (.mem span) := by
  intro c d spelled ends
  exact ⟨_, .mem ⟨.none c, spelled⟩ ends, rfl⟩

theorem writesInt {v : Int64} (unsigned : 0 ≤ v.toInt) (span : Span) :
    Writes .primary (signedDecimal v.toInt) (.int span v) := by
  intro c d spelled ends
  have small : v.toInt.natAbs < literalBound := by
    have bound := v.toInt_lt
    simp only [literalBound]
    omega
  have back : Int64.ofNat v.toInt.natAbs = v := by
    rw [← Int64.ofInt_eq_ofNat, Int.natAbs_of_nonneg unsigned, Int64.ofInt_toInt]
  rw [signedDecimal, if_neg (by omega)] at spelled
  refine ⟨_, .int ⟨.none c, spelled⟩ (decimalSome _) (fun b => decimalDigit) ends ?_, ?_⟩
  · rw [decimalValue]
    exact small
  · simp only [Expr.bare, decimalValue, back]

theorem writesParen {w : Bytes} {x : Expr} (h : Writes .expr w x) (span : Span) :
    Writes .primary (utf8 "(" ++ w ++ utf8 ")") (.paren span x) := by
  intro c f spelled ends
  obtain ⟨e, before, right⟩ := spellsSplit spelled
  obtain ⟨d, left, inside⟩ := spellsSplit before
  have closing : utf8 ")" = [0x29] := by decide
  rw [closing] at right
  obtain ⟨y, body, same⟩ := h d e inside (spellsWordEnds right (by decide))
  rw [← closing] at right
  exact ⟨_, .paren ⟨.none c, left⟩ body ⟨.none e, right⟩, by simp only [Expr.bare, same]⟩

theorem writesSign {w : Bytes} {x : Expr} (h : Writes .unary w x) (s : Sign) (span : Span) :
    Writes .unary (utf8 s.symbol ++ w) (.signed span (.known s) x) := by
  intro c e spelled ends
  obtain ⟨d, sign, arg⟩ := spellsSplit spelled
  obtain ⟨y, body, same⟩ := h d e arg ends
  exact ⟨_, .sign ⟨.none c, sign⟩ body, by simp only [Expr.bare, same]⟩

theorem writesLink {t : Tier} {o : Oper} {v w : Bytes} {x y : Expr} (oper : o ∈ t.ops) (left : Writes (.chain t) v x)
    (right : Writes t.operand w y) (span : Span) :
    Writes (.chain t) (v ++ utf8 (" " ++ o.symbol ++ " ") ++ w) (.binary span (.known o) x y) := by
  intro c f spelled ends
  have middle : utf8 (" " ++ o.symbol ++ " ") = [0x20] ++ utf8 o.symbol ++ [0x20] := by cases o <;> decide
  rw [middle] at spelled
  obtain ⟨e, before, last⟩ := spellsSplit spelled
  obtain ⟨d, first, around⟩ := spellsSplit before
  obtain ⟨d2, around', space'⟩ := spellsSplit around
  obtain ⟨d1, space, sign⟩ := spellsSplit around'
  obtain ⟨x', leftPart, leftSame⟩ := left c d first (spellsWordEnds space (by decide))
  obtain ⟨y', rightPart, rightSame⟩ := right e f last ends
  have arg := operandAfterGap (spaceGap space') rightPart
  exact ⟨_, chainSnoc leftPart oper ⟨spaceGap space, sign⟩ arg,
    by simp only [Expr.bare, Expr.join, leftSame, rightSame]⟩

def phraseAt : Nat → Phrase
  | 0 | 1 => .expr
  | 2 => .term
  | _ => .unary

theorem writesChain {t : Tier} {w : Bytes} {x : Expr} (h : Writes t.operand w x) : Writes (.chain t) w x := by
  intro c d spelled ends
  obtain ⟨y, derived, same⟩ := h c d spelled ends
  exact ⟨y, .chain derived (.stop d), same⟩

theorem writesExpr {n : Nat} {w : Bytes} {x : Expr} (h : Writes (phraseAt n) w x) : Writes .expr w x := by
  match n with
  | 0 | 1 => exact h
  | 2 => exact writesChain (t := .sum) h
  | n + 3 => exact writesChain (t := .sum) (writesChain (t := .product) h)

theorem writesWeaker {m n : Nat} {w : Bytes} {x : Expr} (h : Writes (phraseAt n) w x) (weaker : m ≤ n) :
    Writes (phraseAt m) w x := by
  match m with
  | 0 | 1 => exact writesExpr h
  | 2 =>
    match n with
    | 0 | 1 => omega
    | 2 => exact h
    | n + 3 => exact writesChain (t := .product) h
  | m + 3 =>
    match n with
    | 0 | 1 | 2 => omega
    | n + 3 => exact h

theorem writesPrimary {w : Bytes} {x : Expr} (h : Writes .primary w x) (n : Nat) : Writes (phraseAt n) w x := by
  have unary : Writes (phraseAt (n + 3)) w x := by
    intro c d spelled ends
    obtain ⟨y, derived, same⟩ := h c d spelled ends
    exact ⟨y, .plain derived, same⟩
  exact writesWeaker unary (by omega)

end Parsing

end Abacus
