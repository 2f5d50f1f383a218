import Abacus.Proofs.Canonical.RoundTrip

/-! The literals that canonical text cannot bring back. A word has an absolute value that is a literal of the grammar,
except for the least word; a text where its digits stand cannot be read, whatever stands around them. -/
namespace Abacus.Parsing

def Apart (lead : Bytes) : Prop := ∀ b, lead.getLast? = some b → isWordByte b = false

def Ended (rest : Bytes) : Prop := ∀ b, rest.head? = some b → isWordByte b = false

def Barred (text : Bytes) : Prop :=
  ∃ lead ds rest, text = lead ++ (ds ++ rest) ∧ Blanks.commentSign ∉ lead ∧ Apart lead ∧
    (∀ b ∈ ds, isDigit b = true) ∧ literalBound ≤ digitsValue ds ∧ Ended rest

theorem apartAppend {w lead : Bytes} (h : Apart (w ++ lead)) : Apart lead := by
  intro b last
  refine h b ?_
  rw [List.getLast?_append, last]
  rfl

theorem barredPast {w lead ds rest : Bytes} (comment : Blanks.commentSign ∉ w ++ lead) (apart : Apart (w ++ lead))
    (digits : ∀ b ∈ ds, isDigit b = true) (large : literalBound ≤ digitsValue ds) (ends : Ended rest) :
    Barred (lead ++ (ds ++ rest)) :=
  ⟨lead, ds, rest, rfl, fun inside => comment (by simp [inside]), apartAppend apart, digits, large, ends⟩

theorem largeSome {ds : Bytes} (large : literalBound ≤ digitsValue ds) : ds ≠ [] := by
  rintro rfl
  revert large
  decide

theorem barredWord {w text : Bytes} (h : Barred (w ++ text)) (plain : w.any isDigit = false) : Barred text := by
  obtain ⟨lead, ds, rest, same, comment, apart, digits, large, ends⟩ := h
  rcases List.append_eq_append_iff.mp same with ⟨a, rfl, rfl⟩ | ⟨a, rfl, split⟩
  · exact barredPast comment apart digits large ends
  · cases a with
    | nil => exact ⟨[], ds, rest, split.symm, by simp, by simp [Apart], digits, large, ends⟩
    | cons b a =>
      obtain ⟨d, ds', rfl⟩ := List.exists_cons_of_ne_nil (largeSome large)
      obtain ⟨rfl, -⟩ := List.cons.inj split
      exact absurd (digits d (by simp)) (List.any_eq_false.mp plain d (by simp))

theorem barredDigits {w text : Bytes} (h : Barred (w ++ text)) (all : ∀ b ∈ w, isDigit b = true) (ended : Ended text)
    (small : digitsValue w < literalBound) : Barred text := by
  obtain ⟨lead, ds, rest, same, comment, apart, digits, large, ends⟩ := h
  rcases List.append_eq_append_iff.mp same with ⟨a, rfl, rfl⟩ | ⟨a, rfl, split⟩
  · exact barredPast comment apart digits large ends
  · cases last : lead.getLast? with
    | some b =>
      have digit := all b (List.mem_append_left _ (List.mem_of_getLast? last))
      have other := apart b last
      simp [isWordByte, digit] at other
    | none =>
      obtain rfl := List.getLast?_eq_none_iff.mp last
      rw [List.nil_append] at all small
      have run := Rule.digitRun all ended
      rw [← split, Rule.digitRun digits ends] at run
      subst run
      exact absurd large (Nat.not_le.mpr small)

theorem barredGap {c d : Cursor} (gap : Gap c d) (h : Barred c.rest) : Barred d.rest := by
  induction gap with
  | none c => exact h
  | space space here more ih =>
    rw [here.1] at h
    refine ih (barredWord h ?_)
    rcases space with rfl | rfl | rfl | rfl <;> decide
  | comment line here ends more ih =>
    rw [here.1] at h
    obtain ⟨lead, ds, rest, same, comment, apart, digits, large, ends⟩ := h
    cases lead with
    | nil =>
      obtain ⟨d, ds', rfl⟩ := List.exists_cons_of_ne_nil (largeSome large)
      obtain ⟨rfl, -⟩ := List.cons.inj same
      exact absurd (digits Blanks.commentSign (by simp)) (by decide)
    | cons b lead =>
      obtain ⟨rfl, -⟩ := List.cons.inj same
      exact absurd (by simp) comment

theorem barredToken {w : Bytes} {c d e : Cursor} (token : Token w c d e) (plain : w.any isDigit = false)
    (h : Barred c.rest) : Barred e.rest := by
  have start := barredGap token.gap h
  rw [token.spelled.1] at start
  exact barredWord start plain

theorem derivesBarred {ph : Phrase} {c d : Cursor} {x : Expr} (derived : Derives ph c d x) (h : Barred c.rest) :
    Barred d.rest := by
  induction derived with
  | chain first more firstIH moreIH => exact moreIH (firstIH h)
  | stop c => exact h
  | @link t o c s d e f x y z oper sign arg more argIH moreIH =>
    exact moreIH (argIH (barredToken sign (by cases o <;> decide) h))
  | @sign s c b d e x sign arg argIH => exact argIH (barredToken sign (by cases s <;> decide) h)
  | plain body bodyIH => exact bodyIH h
  | mem word ends => exact barredToken word (by decide) h
  | int digits some all ends small =>
    have start := barredGap digits.gap h
    rw [digits.spelled.1] at start
    exact barredDigits start all ends small
  | paren left body right bodyIH => exact barredToken right (by decide) (bodyIH (barredToken left (by decide) h))

theorem stmtBarred {c d : Cursor} {s : Stmt} (derived : DerivesStmt c d s) (h : Barred c.rest) : Barred d.rest := by
  cases derived with
  | print word ends body stop =>
    exact barredToken stop (by decide) (derivesBarred body (barredToken word (by decide) h))
  | assign body stop => exact barredToken stop (by decide) (derivesBarred body h)

theorem itemsBarred {c d : Cursor} {l : List Stmt} (derived : DerivesItems c d l) (h : Barred c.rest) : Barred d.rest := by
  induction derived with
  | none c => exact h
  | stmt first more ih => exact ih (stmtBarred first h)
  | block left body right more bodyIH moreIH =>
    exact moreIH (barredToken right (by decide) (bodyIH (barredToken left (by decide) h)))

theorem barredProgram {text : Bytes} (h : Barred text) (l : List Stmt) : ¬ DerivesProgram text l := by
  rintro ⟨c, d, items, gap, none⟩
  obtain ⟨lead, ds, rest, same, -, -, -, large, -⟩ := barredGap gap (itemsBarred items h)
  rw [none] at same
  have empty : lead = [] ∧ ds = [] ∧ rest = [] := by simpa using same
  exact largeSome large empty.2.1

theorem barredAppend {text more : Bytes} (h : Barred text) (ended : Ended more) : Barred (text ++ more) := by
  obtain ⟨lead, ds, rest, rfl, comment, apart, digits, large, ends⟩ := h
  refine ⟨lead, ds, rest ++ more, by simp only [List.append_assoc], comment, apart, digits, large, ?_⟩
  cases rest with
  | nil => exact ended
  | cons b rest => exact fun a next => ends a next

theorem barredBehind {before text : Bytes} (h : Barred text) (plain : Blanks.commentSign ∉ before) (stop : Apart before) :
    Barred (before ++ text) := by
  obtain ⟨lead, ds, rest, rfl, comment, apart, digits, large, ends⟩ := h
  refine ⟨before ++ lead, ds, rest, by simp only [List.append_assoc], by simp [plain, comment], ?_, digits, large, ends⟩
  intro b last
  rw [List.getLast?_append] at last
  cases own : lead.getLast? with
  | none => exact stop b (by simpa [own] using last)
  | some a => exact apart b (by simpa [own] using last)

end Abacus.Parsing

namespace Abacus
open Parsing

def Expr.Spellable : Expr → Prop
  | .int _ v => v ≠ Int64.minValue
  | .paren _ x | .signed _ _ x => x.Spellable
  | .binary _ _ l r => l.Spellable ∧ r.Spellable
  | _ => True

def Stmt.Spellable : Stmt → Prop
  | .assign _ x | .print _ x => x.Spellable
  | _ => True

def Exposes (least : Prop) (w : Bytes) : Prop := Blanks.commentSign ∉ w ∧ (least → Barred w)

theorem exposesBetween {least : Prop} {v w text : Bytes} (h : Exposes least text) (before : Blanks.commentSign ∉ v)
    (behind : Blanks.commentSign ∉ w) (apart : Apart v) (ended : Ended w) : Exposes least (v ++ text ++ w) := by
  refine ⟨by simp [before, behind, h.1], fun inside => ?_⟩
  exact barredAppend (barredBehind (h.2 inside) before apart) ended

theorem exposesBracketed {least : Prop} {text : Bytes} (h : Exposes least text) (wrap : Bool) :
    Exposes least (bracketed wrap text) := by
  cases wrap with
  | false => exact h
  | true =>
    refine exposesBetween h (by decide) (by decide) ?_ ?_
    · rintro b ⟨⟩
      decide
    · rintro b ⟨⟩
      decide

theorem exposesJoin {least other : Prop} {v mid w : Bytes} (left : Exposes least v) (right : Exposes other w)
    (some : mid ≠ []) (plain : Blanks.commentSign ∉ mid) (ended : Ended mid) (apart : Apart mid) :
    Exposes (least ∨ other) (v ++ mid ++ w) := by
  refine ⟨by simp [left.1, right.1, plain], ?_⟩
  rintro (inside | inside)
  · rw [List.append_assoc]
    obtain ⟨b, more, rfl⟩ := List.exists_cons_of_ne_nil some
    exact barredAppend (left.2 inside) ended
  · refine barredBehind (right.2 inside) (by simp [left.1, plain]) ?_
    intro b last
    rw [List.getLast?_append, List.getLast?_eq_some_getLast some] at last
    exact apart b ((List.getLast?_eq_some_getLast some).trans last)

theorem exposesLiteral (v : Int64) : Exposes (¬ v ≠ Int64.minValue) (signedDecimal v.toInt) := by
  have digits : ∀ n, Blanks.commentSign ∉ decimal n := fun n member => absurd (decimalDigit member) (by decide)
  refine ⟨?_, fun least => ?_⟩
  · unfold signedDecimal
    split
    · rw [List.mem_cons, not_or]
      exact ⟨by decide, digits _⟩
    · exact digits _
  · rw [Decidable.not_not.mp least]
    refine ⟨[0x2d], decimal literalBound, [], by decide, by decide, ?_, fun b => decimalDigit, ?_, by simp [Ended]⟩
    · rintro b ⟨⟩
      decide
    · exact Nat.le_of_eq (decimalValue literalBound).symm

theorem exprExposes {x : Expr} (formed : x.WellFormed) (prec : Nat) :
    ∃ w, x.format prec = .ok w ∧ Exposes (¬ x.Spellable) w := by
  induction x generalizing prec with
  | absent | foreign => exact formed.elim
  | mem span => exact ⟨_, rfl, by decide, fun least => absurd trivial least⟩
  | int span v => exact ⟨_, rfl, exposesLiteral v⟩
  | paren span x ih =>
    obtain ⟨w, text, exposes⟩ := ih formed 0
    exact ⟨_, parenFormat text span prec, exposesBracketed exposes true⟩
  | signed span op x ih =>
    obtain ⟨⟨s, rfl⟩, inner⟩ := formed
    obtain ⟨w, text, exposes⟩ := ih inner signPrecedence
    refine ⟨_, signedFormat text span s prec, ?_⟩
    rw [← List.append_nil (_ ++ w)]
    refine exposesBetween exposes ?_ (by simp) ?_ (by simp [Ended])
    · cases s <;> decide
    · cases s <;> (rintro b ⟨⟩; decide)
  | binary span op l r left right =>
    obtain ⟨⟨o, rfl⟩, formedLeft, formedRight⟩ := formed
    obtain ⟨v, leftText, leftExposes⟩ := left formedLeft o.precedence
    obtain ⟨w, rightText, rightExposes⟩ := right formedRight (o.precedence + 1)
    refine ⟨_, binaryFormat leftText rightText span prec, ?_⟩
    refine exposesBracketed ?_ _
    unfold Expr.Spellable
    rw [not_and_or]
    refine exposesJoin leftExposes rightExposes ?_ ?_ ?_ ?_
    · cases o <;> decide
    · cases o <;> decide
    · cases o <;> (rintro b ⟨⟩; decide)
    · cases o <;> (rintro b ⟨⟩; decide)

theorem stmtExposes {s : Stmt} (formed : s.WellFormed) :
    ∃ w, s.format = .ok (w ++ [newline]) ∧ Exposes (¬ s.Spellable) w := by
  have ending : utf8 ";\n" = utf8 ";" ++ [newline] := by decide
  have ended : Ended (utf8 ";") := by
    rintro b ⟨⟩
    decide
  cases s with
  | absent | foreign => exact formed.elim
  | assign span x =>
    obtain ⟨w, text, exposes⟩ := exprExposes formed 0
    refine ⟨[] ++ w ++ utf8 ";", ?_, exposesBetween exposes (by simp) (by decide) (by simp [Apart]) ended⟩
    rw [assignFormat text, ending, List.nil_append, List.append_assoc]
  | print span x =>
    obtain ⟨w, text, exposes⟩ := exprExposes formed 0
    refine ⟨utf8 "print " ++ w ++ utf8 ";", ?_, exposesBetween exposes (by decide) (by decide) ?_ ended⟩
    · rw [printFormat text, ending, ← List.append_assoc]
    · rintro b ⟨⟩
      decide

theorem stmtsExpose {l : List Stmt} (formed : ∀ s ∈ l, s.WellFormed) (i : Nat) :
    ∃ w, formatStmts i l = .ok w ∧ Exposes (¬ ∀ s ∈ l, s.Spellable) w := by
  induction l generalizing i with
  | nil => exact ⟨[], rfl, by simp, fun least => absurd (by simp) least⟩
  | cons s l ih =>
    obtain ⟨v, text, first⟩ := stmtExposes (formed s (by simp))
    obtain ⟨w, others, rest⟩ := ih (fun s member => formed s (by simp [member])) (i + 1)
    refine ⟨v ++ [newline] ++ w, ?_, ?_⟩
    · simp only [formatStmts, text, withinOk, others]
      rfl
    · rw [List.forall_mem_cons, not_and_or]
      exact exposesJoin first rest (by simp) (by decide) (by rintro b ⟨⟩; decide) (by rintro b ⟨⟩; decide)

theorem formatExposes {p : Program} (formed : p.WellFormed) :
    ∃ text, p.format = .ok text ∧ ∀ name q, (⟨name, text⟩ : Source).parse = .ok q → ∀ s ∈ p.stmts, s.Spellable := by
  obtain ⟨text, written, exposes⟩ := stmtsExpose formed 0
  refine ⟨text, written, fun name q read => ?_⟩
  by_contra least
  exact barredProgram (exposes.2 least) q.stmts (parsedDerives (sourceParses.mp read))

end Abacus
