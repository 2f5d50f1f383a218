import Abacus.Proofs.Canonical.RoundTrip

/-! The parentheses that canonical text adds to a tree of any shape: those around operands that would be read
differently without them, and no others. -/
namespace Abacus
open Parsing

inductive Seat where
  | sign
  | left (parent : Oper)
  | right (parent : Oper)

def Seat.encloses (seat : Seat) (o : Oper) : Bool :=
  match seat with
  | .sign => true
  | .left parent => (parent = .mul || parent = .div) && o.precedence = 1
  | .right parent => (parent = .mul || parent = .div) && o.precedence = 1 || o.precedence ≤ parent.precedence

namespace Expr

def enclosed (weak : Oper → Bool) : Expr → Expr
  | .binary s (.known o) l r =>
    if weak o then .paren s (.binary s (.known o) l r) else .binary s (.known o) l r
  | x => x

def guarded : Expr → Expr
  | .paren s x => .paren s x.guarded
  | .signed s op x => .signed s op (x.guarded.enclosed Seat.sign.encloses)
  | .binary s (.known o) l r =>
    .binary s (.known o) (l.guarded.enclosed (Seat.left o).encloses) (r.guarded.enclosed (Seat.right o).encloses)
  | x => x

end Expr

def Stmt.guarded : Stmt → Stmt
  | .assign s x => .assign s x.guarded
  | .print s x => .print s x.guarded
  | s => s

def Program.guarded (p : Program) : Program := { p with stmts := p.stmts.map Stmt.guarded }

theorem signEncloses (o : Oper) : Seat.sign.encloses o = decide (o.precedence < signPrecedence) := by
  cases o <;> rfl

theorem leftEncloses (parent o : Oper) : (Seat.left parent).encloses o = decide (o.precedence < parent.precedence) := by
  cases parent <;> cases o <;> rfl

theorem rightEncloses (parent o : Oper) :
    (Seat.right parent).encloses o = decide (o.precedence < parent.precedence + 1) := by
  cases parent <;> cases o <;> rfl

theorem enclosedNone (x : Expr) : x.enclosed (fun o => o.precedence < 0) = x := by
  unfold Expr.enclosed
  split
  · simp
  · rfl

theorem groupedGuarded (x : Expr) (prec : Nat) :
    x.grouped prec = x.guarded.enclosed fun o => o.precedence < prec := by
  induction x generalizing prec with
  | absent | foreign | mem | int => rfl
  | paren span x ih =>
    simp only [Expr.grouped, Expr.guarded, ih, enclosedNone]
    rfl
  | signed span op x ih =>
    simp only [Expr.grouped, Expr.guarded, ih, ← signEncloses]
    rfl
  | binary span op l r left right =>
    cases op with
    | beyond n => rfl
    | known o =>
      simp only [Expr.grouped, Expr.guarded, left, right, ← leftEncloses, ← rightEncloses, Expr.enclosed,
        decide_eq_true_eq]

theorem stmtGuarded (s : Stmt) : s.grouped = s.guarded := by
  cases s with
  | absent | foreign => rfl
  | assign span x => simp only [Stmt.grouped, Stmt.guarded, groupedGuarded, enclosedNone]
  | print span x => simp only [Stmt.grouped, Stmt.guarded, groupedGuarded, enclosedNone]

/- A tree of any shape has a canonical text, which is read as the tree with just those parentheses added. -/
theorem formatEncloses {p : Program} (formed : p.WellFormed) (unsigned : ∀ s ∈ p.stmts, s.Unsigned) (name : String) :
    ∃ text q, (Node.program p).format [] = .ok text ∧ (⟨name, text⟩ : Source).parse = .ok q ∧ q.SameTree p.guarded := by
  obtain ⟨text, q, written, read, same⟩ := formedFormats formed unsigned name
  refine ⟨text, q, ?_, read, ?_⟩
  · simp only [Node.format, written]
    rfl
  · have guarded : p.stmts.map Stmt.grouped = p.guarded.stmts := List.map_congr_left fun s _ => stmtGuarded s
    rw [Program.SameTree, same, guarded]

def bareOperands : Program :=
  ⟨⟨0, 0⟩, [.print ⟨0, 0⟩ (.binary ⟨0, 0⟩ (.known .sub) (.int ⟨0, 0⟩ 1)
    (.binary ⟨0, 0⟩ (.known .mul)
      (.binary ⟨0, 0⟩ (.known .sub) (.int ⟨0, 0⟩ 2)
        (.signed ⟨0, 0⟩ (.known .minus) (.binary ⟨0, 0⟩ (.known .div) (.mem ⟨0, 0⟩) (.int ⟨0, 0⟩ 3))))
      (.paren ⟨0, 0⟩ (.binary ⟨0, 0⟩ (.known .add) (.int ⟨0, 0⟩ 4)
        (.binary ⟨0, 0⟩ (.known .add) (.int ⟨0, 0⟩ 5) (.mem ⟨0, 0⟩))))))]⟩

theorem bareOperandsEnclosed :
    bareOperands.WellFormed ∧ (∀ s ∈ bareOperands.stmts, s.Unsigned) ∧ ∃ text q,
      text = utf8 "print 1 - (2 - -(mem / 3)) * (4 + (5 + mem));\n" ∧
        (Node.program bareOperands).format [] = .ok text ∧ (⟨"clean", text⟩ : Source).parse = .ok q ∧
          q.SameTree bareOperands.guarded := by
  have formed : bareOperands.WellFormed := by
    simp [bareOperands, Program.WellFormed, Stmt.WellFormed, Expr.WellFormed]
  have unsigned : ∀ s ∈ bareOperands.stmts, s.Unsigned := by
    simp [bareOperands, Stmt.Unsigned, Expr.Unsigned]
  have format : (Node.program bareOperands).format [] =
      .ok (utf8 "print 1 - (2 - -(mem / 3)) * (4 + (5 + mem));\n") := rfl
  obtain ⟨text, q, written, read, same⟩ := formatEncloses formed unsigned "clean"
  refine ⟨formed, unsigned, text, q, ?_, written, read, same⟩
  rw [format] at written
  exact (Except.ok.inj written).symm

end Abacus
