import Abacus.Canonical
import Abacus.Lowering

/-! Trees up to positions. Canonical text and intermediate code do not depend on where the nodes of a tree stand. -/
namespace Abacus

def Span.zero : Span := ⟨0, 0⟩

namespace Expr

def bare : Expr → Expr
  | .absent => .absent
  | .foreign kind => .foreign kind
  | .mem _ => .mem .zero
  | .int _ v => .int .zero v
  | .paren _ x => .paren .zero x.bare
  | .signed _ op x => .signed .zero op x.bare
  | .binary _ op l r => .binary .zero op l.bare r.bare

theorem formatBare (prec : Nat) (x : Expr) : x.bare.format prec = x.format prec := by
  induction x generalizing prec with
  | absent => rfl
  | foreign kind => rfl
  | mem span => rfl
  | int span v => rfl
  | paren span x ih => simp only [bare, format, ih]
  | signed span op x ih => simp only [bare, format, ih]
  | binary span op l r left right => simp only [bare, format, left, right]

theorem lowerBare (x : Expr) : x.bare.lower = x.lower := by
  induction x with
  | absent => rfl
  | foreign kind => rfl
  | mem span => rfl
  | int span v => rfl
  | paren span x ih => simp only [bare, lower, ih]
  | signed span op x ih => simp only [bare, lower, ih]
  | binary span op l r left right => simp only [bare, lower, left, right]

end Expr

namespace Stmt

def bare : Stmt → Stmt
  | .absent => .absent
  | .foreign kind => .foreign kind
  | .assign _ x => .assign .zero x.bare
  | .print _ x => .print .zero x.bare

theorem formatBare (s : Stmt) : s.bare.format = s.format := by
  cases s with
  | absent => rfl
  | foreign kind => rfl
  | assign span x => simp only [bare, format, Expr.formatBare]
  | print span x => simp only [bare, format, Expr.formatBare]

theorem lowerBare (s : Stmt) : s.bare.lower = s.lower := by
  cases s with
  | absent => rfl
  | foreign kind => rfl
  | assign span x => simp only [bare, lower, Expr.lowerBare]
  | print span x => simp only [bare, lower, Expr.lowerBare]

end Stmt

namespace Program

def SameTree (p q : Program) : Prop := p.stmts.map Stmt.bare = q.stmts.map Stmt.bare

theorem formatSame {p q : Program} (same : p.SameTree q) : p.format = q.format := by
  have plain : ∀ (l : List Stmt) (i : Nat), formatStmts i (l.map Stmt.bare) = formatStmts i l := by
    intro l
    induction l with
    | nil => exact fun _ => rfl
    | cons s l ih => exact fun i => by simp only [List.map_cons, formatStmts, Stmt.formatBare, ih]
  rw [format, format, ← plain p.stmts, ← plain q.stmts, same]

theorem lowerSame {p q : Program} (same : p.SameTree q) : p.lower = q.lower := by
  have plain : ∀ l : List Stmt, lowerStmts (l.map Stmt.bare) = lowerStmts l := by
    intro l
    induction l with
    | nil => rfl
    | cons s l ih => simp only [List.map_cons, lowerStmts, Stmt.lowerBare, ih]
  rw [lower, lower, ← plain p.stmts, ← plain q.stmts, same]

end Program

end Abacus
