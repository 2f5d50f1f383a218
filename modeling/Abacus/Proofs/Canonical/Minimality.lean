import Abacus.Proofs.Canonical.RoundTrip

/-! The number of parentheses in canonical text. Of a tree without parentheses the canonical text has those only that
every text of the same operators has to have: where a text does without, its operators group differently. -/
namespace Abacus
open Parsing

namespace Expr

def stripped : Expr → Expr
  | .paren _ x => x.stripped
  | .signed s op x => .signed s op x.stripped
  | .binary s op l r => .binary s op l.stripped r.stripped
  | x => x

def parens : Expr → Nat
  | .paren _ x => x.parens + 1
  | .signed _ _ x => x.parens
  | .binary _ _ l r => l.parens + r.parens
  | _ => 0

theorem strippedFormed {x : Expr} (formed : x.WellFormed) : x.stripped.WellFormed := by
  induction x with
  | absent | foreign | mem | int => exact formed
  | paren span x ih => exact ih formed
  | signed span op x ih => exact ⟨formed.1, ih formed.2⟩
  | binary span op l r left right => exact ⟨formed.1, left formed.2.1, right formed.2.2⟩

theorem strippedUnsigned {x : Expr} (unsigned : x.Unsigned) : x.stripped.Unsigned := by
  induction x with
  | absent | foreign | mem | int => exact unsigned
  | paren span x ih => exact ih unsigned
  | signed span op x ih => exact ih unsigned
  | binary span op l r left right => exact ⟨left unsigned.1, right unsigned.2⟩

theorem strippedTwice (x : Expr) : x.stripped.stripped = x.stripped := by
  induction x with
  | absent | foreign | mem | int => rfl
  | paren span x ih => exact ih
  | signed span op x ih => simp only [stripped, ih]
  | binary span op l r left right => simp only [stripped, left, right]

theorem strippedBare (x : Expr) : x.bare.stripped = x.stripped.bare := by
  induction x with
  | absent | foreign | mem | int => rfl
  | paren span x ih => exact ih
  | signed span op x ih => simp only [bare, stripped, ih]
  | binary span op l r left right => simp only [bare, stripped, left, right]

theorem strippedGrouped (x : Expr) (prec : Nat) : (x.grouped prec).stripped = x.stripped := by
  induction x generalizing prec with
  | absent | foreign | mem | int => rfl
  | paren span x ih => exact ih 0
  | signed span op x ih => simp only [grouped, stripped, ih]
  | binary span op l r left right =>
    cases op with
    | beyond n => rfl
    | known o =>
      simp only [grouped]
      split <;> simp only [stripped, left, right]

theorem groupedParens (x : Expr) (m n : Nat) : (x.grouped n).parens ≤ (x.grouped m).parens + 1 := by
  cases x with
  | absent | foreign | mem | int | paren | signed => exact Nat.le_succ _
  | binary span op l r =>
    cases op with
    | beyond k => exact Nat.le_succ _
    | known o =>
      simp only [grouped]
      split <;> split <;> simp only [parens] <;> omega

/- Where no parentheses are missing, taking all of them away and putting back the missing ones leaves no more than
there were. The pair around a group goes away with it, and pays for the one that its content may need there. -/
theorem strippedParens {x : Expr} (formed : x.WellFormed) {prec : Nat} (settled : x.grouped prec = x) :
    (x.stripped.grouped prec).parens ≤ x.parens := by
  induction x generalizing prec with
  | absent | foreign => exact formed.elim
  | mem | int => exact Nat.le_refl 0
  | paren span x ih =>
    have inner : x.grouped 0 = x := by simpa only [grouped, paren.injEq, true_and] using settled
    have kept := ih formed inner
    have more := groupedParens x.stripped 0 prec
    simp only [stripped, parens]
    omega
  | signed span op x ih =>
    have inner : x.grouped signPrecedence = x := by simpa only [grouped, signed.injEq, true_and] using settled
    exact ih formed.2 inner
  | binary span op l r left right =>
    obtain ⟨⟨o, rfl⟩, formedLeft, formedRight⟩ := formed
    simp only [grouped] at settled
    split at settled
    · contradiction
    · rename_i strong
      simp only [binary.injEq, true_and] at settled
      have first := left formedLeft settled.1
      have second := right formedRight settled.2
      simp only [stripped, grouped, if_neg strong, parens]
      omega

end Expr

namespace Parsing

def openParen : UInt8 := 0x28

end Parsing

theorem literalOpens (z : Int) : (signedDecimal z).count openParen = 0 := by
  have digits : openParen ∉ decimal z.natAbs := fun member => absurd (decimalDigit member) (by decide)
  have sign : (0x2d : UInt8) ≠ openParen := by decide
  unfold signedDecimal
  split
  · simp [sign, digits, List.count_eq_zero]
  · exact List.count_eq_zero.mpr digits

theorem bracketedOpens (wrap : Bool) (w : Bytes) :
    (bracketed wrap w).count openParen = w.count openParen + if wrap then 1 else 0 := by
  have before : (utf8 "(").count openParen = 1 := by decide
  have behind : (utf8 ")").count openParen = 0 := by decide
  cases wrap with
  | false => rfl
  | true => simp only [bracketed, if_true, List.count_append, before, behind]; omega

theorem exprOpens {x : Expr} (formed : x.WellFormed) (prec : Nat) :
    ∃ w, x.format prec = .ok w ∧ w.count openParen = (x.grouped prec).parens := by
  have word : (utf8 "mem").count openParen = 0 := by decide
  induction x generalizing prec with
  | absent | foreign => exact formed.elim
  | mem span => exact ⟨utf8 "mem", rfl, word⟩
  | int span v => exact ⟨_, rfl, literalOpens v.toInt⟩
  | paren span x ih =>
    obtain ⟨w, text, count⟩ := ih formed 0
    exact ⟨_, parenFormat text span prec, by simp only [bracketedOpens, count, Expr.grouped, Expr.parens, if_true]⟩
  | signed span op x ih =>
    obtain ⟨⟨s, rfl⟩, inner⟩ := formed
    obtain ⟨w, text, count⟩ := ih inner signPrecedence
    have sign : (utf8 s.symbol).count openParen = 0 := by cases s <;> decide
    exact ⟨_, signedFormat text span s prec,
      by simp only [List.count_append, sign, count, Expr.grouped, Expr.parens, Nat.zero_add]⟩
  | binary span op l r left right =>
    obtain ⟨⟨o, rfl⟩, formedLeft, formedRight⟩ := formed
    obtain ⟨v, leftText, leftCount⟩ := left formedLeft o.precedence
    obtain ⟨w, rightText, rightCount⟩ := right formedRight (o.precedence + 1)
    have oper : (utf8 (" " ++ o.symbol ++ " ")).count openParen = 0 := by cases o <;> decide
    refine ⟨_, binaryFormat leftText rightText span prec, ?_⟩
    simp only [bracketedOpens, List.count_append, leftCount, rightCount, oper, Expr.grouped, decide_eq_true_eq]
    split <;> simp only [Expr.parens] <;> omega

namespace Stmt

def stripped : Stmt → Stmt
  | .assign s x => .assign s x.stripped
  | .print s x => .print s x.stripped
  | s => s

def parens : Stmt → Nat
  | .assign _ x | .print _ x => x.parens
  | _ => 0

theorem strippedFormed {s : Stmt} (formed : s.WellFormed) : s.stripped.WellFormed := by
  cases s with
  | absent | foreign => exact formed
  | assign span x => exact Expr.strippedFormed formed
  | print span x => exact Expr.strippedFormed formed

theorem strippedUnsigned {s : Stmt} (unsigned : s.Unsigned) : s.stripped.Unsigned := by
  cases s with
  | absent | foreign => exact unsigned
  | assign span x => exact Expr.strippedUnsigned unsigned
  | print span x => exact Expr.strippedUnsigned unsigned

theorem strippedBare (s : Stmt) : s.bare.stripped = s.stripped.bare := by
  cases s with
  | absent | foreign => rfl
  | assign span x => simp only [bare, stripped, Expr.strippedBare]
  | print span x => simp only [bare, stripped, Expr.strippedBare]

theorem strippedAgain (s : Stmt) : s.stripped.grouped.stripped = s.stripped := by
  cases s with
  | absent | foreign => rfl
  | assign span x => simp only [stripped, grouped, Expr.strippedGrouped, Expr.strippedTwice]
  | print span x => simp only [stripped, grouped, Expr.strippedGrouped, Expr.strippedTwice]

theorem strippedParens {s : Stmt} (formed : s.WellFormed) (settled : s.grouped = s) :
    s.stripped.grouped.parens ≤ s.parens := by
  cases s with
  | absent | foreign => exact formed.elim
  | assign span x => exact Expr.strippedParens formed (by simpa only [grouped, assign.injEq, true_and] using settled)
  | print span x => exact Expr.strippedParens formed (by simpa only [grouped, print.injEq, true_and] using settled)

end Stmt

def parensIn : List Stmt → Nat
  | [] => 0
  | s :: l => s.parens + parensIn l

theorem parensInAppend (l m : List Stmt) : parensIn (l ++ m) = parensIn l + parensIn m := by
  induction l with
  | nil => exact (Nat.zero_add _).symm
  | cons s l ih => simp only [List.cons_append, parensIn, ih, Nat.add_assoc]

theorem stmtOpens {s : Stmt} (formed : s.WellFormed) :
    ∃ w, s.format = .ok w ∧ w.count openParen = s.grouped.parens := by
  have ending : (utf8 ";\n").count openParen = 0 := by decide
  have begin : (utf8 "print ").count openParen = 0 := by decide
  cases s with
  | absent | foreign => exact formed.elim
  | assign span x =>
    obtain ⟨w, text, count⟩ := exprOpens formed 0
    exact ⟨_, assignFormat text span, by simp only [List.count_append, ending, count]; rfl⟩
  | print span x =>
    obtain ⟨w, text, count⟩ := exprOpens formed 0
    exact ⟨_, printFormat text span, by simp only [List.count_append, ending, begin, count, Nat.zero_add]; rfl⟩

/- The statements are as they stand in a text, so the canonical text of their operators has no more parentheses. -/
theorem stmtsOpen {l : List Stmt} (settled : ∀ s ∈ l, s.WellFormed ∧ s.Unsigned ∧ s.grouped = s) (i : Nat) :
    ∃ w, formatStmts i (l.map Stmt.stripped) = .ok w ∧ w.count openParen ≤ parensIn l := by
  induction l generalizing i with
  | nil => exact ⟨[], rfl, Nat.le_refl 0⟩
  | cons s l ih =>
    obtain ⟨⟨formed, -, same⟩, others⟩ := List.forall_mem_cons.mp settled
    obtain ⟨v, text, count⟩ := stmtOpens (Stmt.strippedFormed formed)
    obtain ⟨w, more, rest⟩ := ih others (i + 1)
    have fewer := Stmt.strippedParens formed same
    refine ⟨v ++ w, ?_, ?_⟩
    · simp only [List.map_cons, formatStmts, text, withinOk, more]
      rfl
    · simp only [List.count_append, count, parensIn]
      omega

namespace Program

def stripped (p : Program) : Program := { p with stmts := p.stmts.map Stmt.stripped }

def parens (p : Program) : Nat := parensIn p.stmts

end Program

namespace Parsing

theorem tokenOpens {w : Bytes} {c d e : Cursor} (token : Token w c d e) :
    w.count openParen + e.rest.count openParen ≤ c.rest.count openParen := by
  obtain ⟨v, spelled⟩ := tokenSpells token
  rw [spelled.1, List.count_append, List.count_append]
  omega

def Phrase.opened : Phrase → Nat
  | .links _ x => x.parens
  | _ => 0

theorem operandOpened (t : Tier) : t.operand.opened = 0 := by
  cases t <;> rfl

theorem derivesOpens {ph : Phrase} {c d : Cursor} {x : Expr} (h : Derives ph c d x) :
    x.parens + d.rest.count openParen ≤ ph.opened + c.rest.count openParen := by
  induction h with
  | @chain t c d e x y first more firstIH moreIH =>
    have none := operandOpened t
    simp only [Phrase.opened] at moreIH ⊢
    omega
  | stop c => exact Nat.le_refl _
  | @link t o c s d e f x y z oper sign arg more argIH moreIH =>
    have none := operandOpened t
    have before := tokenOpens sign
    simp only [Phrase.opened, Expr.join, Expr.parens] at moreIH ⊢
    omega
  | sign sign arg argIH =>
    have before := tokenOpens sign
    simp only [Phrase.opened, Expr.parens] at argIH ⊢
    omega
  | plain body bodyIH => exact bodyIH
  | mem word ends =>
    have here := tokenOpens word
    simp only [Expr.parens]
    omega
  | int digits some all ends small =>
    have here := tokenOpens digits
    simp only [Expr.parens]
    omega
  | paren left body right bodyIH =>
    have before := tokenOpens left
    have behind := tokenOpens right
    have one : (utf8 "(").count openParen = 1 := by decide
    simp only [Phrase.opened, Expr.parens] at bodyIH ⊢
    omega

theorem stmtParens {c d : Cursor} {s : Stmt} (h : DerivesStmt c d s) :
    s.parens + d.rest.count openParen ≤ c.rest.count openParen := by
  cases h with
  | print word ends body stop =>
    have before := tokenOpens word
    have inside := derivesOpens body
    have behind := tokenOpens stop
    simp only [Phrase.opened, Stmt.parens] at inside ⊢
    omega
  | assign body stop =>
    have inside := derivesOpens body
    have behind := tokenOpens stop
    simp only [Phrase.opened, Stmt.parens] at inside ⊢
    omega

theorem itemsParens {c d : Cursor} {l : List Stmt} (h : DerivesItems c d l) :
    parensIn l + d.rest.count openParen ≤ c.rest.count openParen := by
  induction h with
  | none c => simp only [parensIn, Nat.zero_add, Nat.le_refl]
  | stmt first more ih =>
    have here := stmtParens first
    simp only [parensIn]
    omega
  | block left body right more bodyIH moreIH =>
    have before := tokenOpens left
    have behind := tokenOpens right
    simp only [parensInAppend]
    omega

end Parsing

theorem parsedParens {s : Source} {p : Program} (read : s.parse = .ok p) : p.parens ≤ s.text.count openParen := by
  obtain ⟨c, d, items, -⟩ := parsedDerives (sourceParses.mp read)
  exact Nat.le_trans (Nat.le_add_right _ _) (itemsParens items)

theorem parsedSettled {s : Source} {p : Program} (read : s.parse = .ok p) :
    ∀ s ∈ p.stmts, s.WellFormed ∧ s.Unsigned ∧ s.grouped = s := by
  obtain ⟨c, d, items, -⟩ := parsedDerives (sourceParses.mp read)
  exact itemsSettled items

theorem strippedReads {p : Program} (settled : ∀ s ∈ p.stmts, s.WellFormed ∧ s.Unsigned ∧ s.grouped = s) (name : String) :
    ∃ text q, p.stripped.format = .ok text ∧ (⟨name, text⟩ : Source).parse = .ok q ∧
      q.stripped.SameTree p.stripped := by
  have formed : ∀ s ∈ p.stripped.stmts, s.WellFormed :=
    List.forall_mem_map.mpr fun s member => Stmt.strippedFormed (settled s member).1
  have unsigned : ∀ s ∈ p.stripped.stmts, s.Unsigned :=
    List.forall_mem_map.mpr fun s member => Stmt.strippedUnsigned (settled s member).2.1
  obtain ⟨text, q, written, read, same⟩ := formedFormats formed unsigned name
  refine ⟨text, q, written, read, ?_⟩
  have again := congrArg (List.map Stmt.stripped) same
  simpa only [Program.SameTree, Program.stripped, List.map_map, Function.comp_def, Stmt.strippedBare,
    Stmt.strippedAgain] using again

/- Take away the parentheses of a program that was read from a text: the canonical text of what is left has no more
parentheses than the program had, and it is read as the same operators. No text that is read as these operators has
fewer. -/
theorem fewestParens {s : Source} {p : Program} (read : s.parse = .ok p) (name : String) :
    ∃ text q, (Node.program p.stripped).format [] = .ok text ∧ text.count openParen ≤ p.parens ∧
      (⟨name, text⟩ : Source).parse = .ok q ∧ q.stripped.SameTree p.stripped ∧
      ∀ (t : Source) (r : Program), t.parse = .ok r → r.stripped.SameTree p.stripped →
        text.count openParen ≤ r.parens ∧ r.parens ≤ t.text.count openParen := by
  obtain ⟨text, q, written, again, same⟩ := strippedReads (parsedSettled read) name
  have fewest : ∀ (t : Source) (r : Program), t.parse = .ok r → r.stripped.SameTree p.stripped →
      text.count openParen ≤ r.parens := by
    intro t r other alike
    obtain ⟨w, text', count⟩ := stmtsOpen (parsedSettled other) 0
    have equal : w = text := Except.ok.inj (text'.symm.trans ((Program.formatSame alike).trans written))
    exact equal ▸ count
  refine ⟨text, q, ?_, fewest s p read rfl, again, same, fun t r other alike => ?_⟩
  · simp only [Node.format, written]
    rfl
  · exact ⟨fewest t r other alike, parsedParens other⟩

def lavish : Source := ⟨"lavish", utf8 "print (1) - ((2 - 3) - (-(mem)) * ((4 + 5)));"⟩

def lavishTree : Program :=
  ⟨⟨0, 45⟩, [.print ⟨0, 45⟩ (.binary ⟨6, 44⟩ (.known .sub) (.paren ⟨6, 9⟩ (.int ⟨7, 8⟩ 1))
    (.paren ⟨12, 44⟩ (.binary ⟨13, 43⟩ (.known .sub)
      (.paren ⟨13, 20⟩ (.binary ⟨14, 19⟩ (.known .sub) (.int ⟨14, 15⟩ 2) (.int ⟨18, 19⟩ 3)))
      (.binary ⟨23, 43⟩ (.known .mul)
        (.paren ⟨23, 31⟩ (.signed ⟨24, 30⟩ (.known .minus) (.paren ⟨25, 30⟩ (.mem ⟨26, 29⟩))))
        (.paren ⟨34, 43⟩ (.paren ⟨35, 42⟩ (.binary ⟨36, 41⟩ (.known .add) (.int ⟨36, 37⟩ 4) (.int ⟨40, 41⟩ 5))))))))]⟩

theorem lavishFewest :
    lavish.parse = .ok lavishTree ∧ lavishTree.parens = 7 ∧
      ∃ text q, text = utf8 "print 1 - (2 - 3 - -mem * (4 + 5));\n" ∧ text.count openParen = 2 ∧
        (Node.program lavishTree.stripped).format [] = .ok text ∧ (⟨"clean", text⟩ : Source).parse = .ok q ∧
          q.stripped.SameTree lavishTree.stripped ∧ text.count openParen ≤ q.parens := by
  have read : lavish.parse = .ok lavishTree := rfl
  have format : (Node.program lavishTree.stripped).format [] =
      .ok (utf8 "print 1 - (2 - 3 - -mem * (4 + 5));\n") := rfl
  obtain ⟨text, q, written, -, again, same, fewest⟩ := fewestParens read "clean"
  have known : utf8 "print 1 - (2 - 3 - -mem * (4 + 5));\n" = text := Except.ok.inj (format.symm.trans written)
  subst known
  exact ⟨read, rfl, _, q, rfl, by decide, written, again, same, (fewest _ q again same).1⟩

end Abacus
