import Abacus.Pipeline
import Abacus.Proofs.Arena.Emission
import Abacus.Proofs.Acceptance
import Abacus.Proofs.Positions
import Mathlib.Logic.Relation

/-! What leaves no trace in the code: parentheses, plus signs and positions, and nothing else. Handles and names come from
counters that everything lowered later shares, so nothing may be drawn for these anywhere in the program; the rest of the
program can be read back from the code. -/
namespace Abacus
open Relation (EqvGen)

theorem editedWithin {α β : Type} {r : α → α → Prop} {s : β → β → Prop} (f : α → β)
    (step : ∀ {x y : α}, r x y → s (f x) (f y)) {x y : α} (edited : EqvGen r x y) : EqvGen s (f x) (f y) := by
  induction edited with
  | rel x y edit => exact .rel _ _ (step edit)
  | refl x => exact .refl _
  | symm x y _ ih => exact .symm _ _ ih
  | trans x y z _ _ first second => exact .trans _ _ _ first second

namespace Expr

/- One change at any depth: parentheses or a plus sign are put around a part, or parts are moved. -/
inductive Edit : Expr → Expr → Prop
  | enclose (span : Span) (x : Expr) : Edit x (.paren span x)
  | plus (span : Span) (x : Expr) : Edit x (.signed span (.known .plus) x)
  | move {x y : Expr} (same : x.bare = y.bare) : Edit x y
  | inParen {x y : Expr} (span : Span) (inner : Edit x y) : Edit (.paren span x) (.paren span y)
  | inSigned {x y : Expr} (span : Span) (op : Coded Sign) (inner : Edit x y) : Edit (.signed span op x) (.signed span op y)
  | inLeft {x y : Expr} (span : Span) (op : Coded Oper) (r : Expr) (inner : Edit x y) :
    Edit (.binary span op x r) (.binary span op y r)
  | inRight {x y : Expr} (span : Span) (op : Coded Oper) (l : Expr) (inner : Edit x y) :
    Edit (.binary span op l x) (.binary span op l y)

def core : Expr → Expr
  | .absent => .absent
  | .foreign kind => .foreign kind
  | .mem _ => .mem .zero
  | .int _ v => .int .zero v
  | .paren _ x | .signed _ (.known .plus) x => x.core
  | .signed _ op x => .signed .zero op x.core
  | .binary _ op l r => .binary .zero op l.core r.core

theorem signedCore {x y : Expr} (same : x.core = y.core) (op : Coded Sign) (s t : Span) :
    (signed s op x).core = (signed t op y).core := by
  cases op with
  | beyond n => simp only [core, same]
  | known s => cases s <;> simp only [core, same]

theorem coreBare (x : Expr) : x.bare.core = x.core := by
  induction x with
  | absent | foreign | mem | int => rfl
  | paren span x ih => exact ih
  | signed span op x ih => exact signedCore ih op .zero span
  | binary span op l r left right => simp only [bare, core, left, right]

theorem editCore {x y : Expr} (edit : Edit x y) : x.core = y.core := by
  induction edit with
  | enclose span x => rfl
  | plus span x => rfl
  | move same => exact (coreBare _).symm.trans ((congrArg core same).trans (coreBare _))
  | inParen span inner ih => exact ih
  | inSigned span op inner ih => exact signedCore ih op span span
  | inLeft span op r inner ih => simp only [core, ih]
  | inRight span op l inner ih => simp only [core, ih]

theorem coreEdited (x : Expr) : EqvGen Edit x x.core := by
  induction x with
  | absent | foreign => exact .refl _
  | mem | int => exact .rel _ _ (.move rfl)
  | paren span x ih => exact .trans _ _ _ (.symm _ _ (.rel _ _ (.enclose span x))) ih
  | signed span op x ih =>
    have inside : EqvGen Edit (signed span op x) (signed .zero op x.core) :=
      .trans _ _ _ (editedWithin (signed span op) (Edit.inSigned span op) ih) (.rel _ _ (.move rfl))
    cases op with
    | beyond n => exact inside
    | known s =>
      cases s with
      | plus => exact .trans _ _ _ (.symm _ _ (.rel _ _ (.plus span x))) ih
      | minus => exact inside
  | binary span op l r left right =>
    have first := editedWithin (binary span op · r) (Edit.inLeft span op r) left
    have second := editedWithin (binary span op l.core) (Edit.inRight span op l.core) right
    exact .trans _ _ _ first (.trans _ _ _ second (.rel _ _ (.move rfl)))

theorem plusLower (span : Span) (x : Expr) : (signed span (.known .plus) x).lower = x.lower := by
  funext a
  cases run : x.lower a with
  | ok id b =>
    rw [lower, Build.bindOk run, Build.bindOk (knownOk Sign.plus)]
    rfl
  | error e b => rw [lower, Build.bindError run]

theorem coreLower (x : Expr) : x.core.lower = x.lower := by
  induction x with
  | absent | foreign | mem | int => rfl
  | paren span x ih => exact ih
  | signed span op x ih =>
    cases op with
    | beyond n => simp only [core, lower, ih]
    | known s =>
      cases s with
      | plus => exact ih.trans (plusLower span x).symm
      | minus => simp only [core, lower, ih]
  | binary span op l r left right => simp only [core, lower, left, right]

end Expr

namespace Stmt

inductive Edit : Stmt → Stmt → Prop
  | move {s t : Stmt} (same : s.bare = t.bare) : Edit s t
  | assign {x y : Expr} (span : Span) (inner : x.Edit y) : Edit (.assign span x) (.assign span y)
  | print {x y : Expr} (span : Span) (inner : x.Edit y) : Edit (.print span x) (.print span y)

def core : Stmt → Stmt
  | .absent => .absent
  | .foreign kind => .foreign kind
  | .assign _ x => .assign .zero x.core
  | .print _ x => .print .zero x.core

theorem coreBare (s : Stmt) : s.bare.core = s.core := by
  cases s with
  | absent | foreign => rfl
  | assign span x => simp only [bare, core, Expr.coreBare]
  | print span x => simp only [bare, core, Expr.coreBare]

theorem editCore {s t : Stmt} (edit : Edit s t) : s.core = t.core := by
  cases edit with
  | move same => exact (coreBare _).symm.trans ((congrArg core same).trans (coreBare _))
  | assign span inner => simp only [core, Expr.editCore inner]
  | print span inner => simp only [core, Expr.editCore inner]

theorem coreEdited (s : Stmt) : EqvGen Edit s s.core := by
  cases s with
  | absent | foreign => exact .refl _
  | assign span x =>
    have inside := editedWithin (assign span) (Edit.assign span) x.coreEdited
    exact .trans _ _ _ inside (.rel _ _ (.move rfl))
  | print span x =>
    have inside := editedWithin (print span) (Edit.print span) x.coreEdited
    exact .trans _ _ _ inside (.rel _ _ (.move rfl))

theorem coreLower (s : Stmt) : s.core.lower = s.lower := by
  cases s with
  | absent | foreign => rfl
  | assign span x => simp only [core, lower, Expr.coreLower]
  | print span x => simp only [core, lower, Expr.coreLower]

end Stmt

namespace Program

inductive Edit : Program → Program → Prop
  | move {p q : Program} (same : p.SameTree q) : Edit p q
  | stmt {s t : Stmt} (span : Span) (before after : List Stmt) (inner : s.Edit t) :
    Edit ⟨span, before ++ s :: after⟩ ⟨span, before ++ t :: after⟩

def core (p : Program) : List Stmt := p.stmts.map Stmt.core

theorem editCore {p q : Program} (edit : Edit p q) : p.core = q.core := by
  cases edit with
  | move same =>
    have again := congrArg (List.map Stmt.core) same
    simpa only [core, List.map_map, Function.comp_def, Stmt.coreBare] using again
  | stmt span before after inner => simp only [core, List.map_append, List.map_cons, Stmt.editCore inner]

theorem stmtsEdited (span : Span) (before l : List Stmt) :
    EqvGen Edit ⟨span, before ++ l⟩ ⟨span, before ++ l.map Stmt.core⟩ := by
  induction l generalizing before with
  | nil => exact .refl _
  | cons s l ih =>
    have first := editedWithin (fun t => Program.mk span (before ++ t :: l)) (Edit.stmt span before l) s.coreEdited
    have rest := ih (before ++ [s.core])
    simp only [List.append_assoc, List.singleton_append] at rest
    exact .trans _ _ _ first rest

theorem editedIff (p q : Program) : EqvGen Edit p q ↔ p.core = q.core := by
  constructor
  · intro edited
    induction edited with
    | rel p q edit => exact editCore edit
    | refl p => rfl
    | symm p q _ ih => exact ih.symm
    | trans p q r _ _ first second => exact first.trans second
  · intro same
    have left : EqvGen Edit p ⟨p.span, p.core⟩ := stmtsEdited p.span [] p.stmts
    have right : EqvGen Edit q ⟨q.span, q.core⟩ := stmtsEdited q.span [] q.stmts
    have middle : Edit ⟨p.span, p.core⟩ ⟨q.span, q.core⟩ := .move (congrArg (List.map Stmt.bare) same)
    exact .trans _ _ _ left (.trans _ _ _ (.rel _ _ middle) (.symm _ _ right))

theorem coreLower {p q : Program} (same : p.core = q.core) : p.lower = q.lower := by
  have plain : ∀ l : List Stmt, lowerStmts (l.map Stmt.core) = lowerStmts l := by
    intro l
    induction l with
    | nil => rfl
    | cons s l ih => simp only [List.map_cons, lowerStmts, Stmt.coreLower, ih]
  exact (plain p.stmts).symm.trans ((congrArg lowerStmts same).trans (plain q.stmts))

end Program

/- What was read back from code so far: operands that are still to be used, the last one first, and statements. -/
structure Raised where
  operands : List Expr := []
  stmts : List Stmt := []

namespace Raised

def step (s : Raised) : Value → Raised
  | .load _ _ => { s with operands := .mem .zero :: s.operands }
  | .const v => { s with operands := .int .zero v :: s.operands }
  | .binop _ op l r =>
    match s.operands with
    | y :: x :: rest =>
      { s with operands := (if l < r then .binary .zero op x y else .signed .zero (.known .minus) x) :: rest }
    | _ => s
  | .store _ _ =>
    match s.operands with
    | x :: rest => ⟨rest, s.stmts ++ [.assign .zero x]⟩
    | [] => s
  | .print _ =>
    match s.operands with
    | x :: rest => ⟨rest, s.stmts ++ [.print .zero x]⟩
    | [] => s
  | .global _ _ | .alloca _ _ => s

def steps (s : Raised) (vs : List Value) : Raised := vs.foldl step s

theorem stepsAppend (s : Raised) (vs ws : List Value) : s.steps (vs ++ ws) = (s.steps vs).steps ws := List.foldl_append

end Raised

theorem appendsEnd {vs new : List Value} {x : Expr} {id : Int} (appends : x.Appends vs new id) :
    id + 1 = vs.length + new.length ∧ 0 < new.length := by
  obtain ⟨front, v, rfl, -, rfl⟩ := appendsLast appends
  simp only [List.length_append, List.length_singleton]
  omega

theorem exprRaised {vs new : List Value} {x : Expr} {id : Int} (appends : x.Appends vs new id) (s : Raised) :
    s.steps new = { s with operands := x.core :: s.operands } := by
  induction appends generalizing s with
  | mem vs span => rfl
  | int vs span v => rfl
  | paren span inner ih => exact ih s
  | plus span inner ih => exact ih s
  | @minus vs new x id span inner ih =>
    have last := (appendsEnd inner).1
    have later : ¬ ((vs ++ new).length : Int) < id := by
      simp only [List.length_append]
      omega
    rw [Raised.stepsAppend, ih]
    simp only [Raised.steps, List.foldl_cons, List.foldl_nil, Raised.step, if_neg later]
    rfl
  | @binary vs new more l r i j span o left right ihl ihr =>
    have first := (appendsEnd left).1
    have second := appendsEnd right
    have earlier : i < j := by
      simp only [List.length_append] at second
      omega
    rw [Raised.stepsAppend, Raised.stepsAppend, ihl, ihr]
    simp only [Raised.steps, List.foldl_cons, List.foldl_nil, Raised.step, if_pos earlier]
    rfl

theorem stmtsRaised {vs new : List Value} {l : List Stmt} (appends : StmtsAppend vs l new) (s : Raised) :
    s.steps new = { s with stmts := s.stmts ++ l.map Stmt.core } := by
  induction appends generalizing s with
  | nil vs => simp [Raised.steps]
  | cons first rest ih =>
    rw [Raised.stepsAppend]
    cases first with
    | assign span value =>
      rw [Raised.stepsAppend, exprRaised value, ih]
      simp [Raised.steps, Raised.step, Stmt.core]
    | print span value =>
      rw [Raised.stepsAppend, exprRaised value, ih]
      simp [Raised.steps, Raised.step, Stmt.core]

def Arena.raise (a : Arena) : List Stmt := (({} : Raised).steps (a.values.toList.filterMap (·.known.toOption))).stmts

theorem loweredRaised {p : Program} {a : Arena} (run : p.lower Arena.new = .ok () a) : a.raise = p.core := by
  have formed := (programLowers p).mp ⟨a, run⟩
  obtain ⟨_, a', new, run', holds, appends⟩ := grownThrough (stmtsGrown p.stmts newHolds) formed
  cases run.symm.trans run'
  have values : a.values.toList.filterMap (·.known.toOption) = [memory] ++ new := by
    simp [holds.values, List.filterMap_map, Slot.known, Except.toOption]
  rw [Arena.raise, values, Raised.stepsAppend, stmtsRaised appends]
  rfl

/- Two programs of which one becomes the other by putting in and taking out parentheses and plus signs and by moving nodes,
as often as one likes, are lowered into a new arena to the same values, code and names, and have the same assembly text.
No other two programs are lowered to the same. -/
theorem editsLeaveNoTrace {p q : Program} (formed : p.WellFormed) :
    (EqvGen Program.Edit p q → ∃ a b text, p.lower Arena.new = .ok () a ∧ q.lower Arena.new = .ok () a ∧
      Build.emit a = .ok text b ∧ p.compile = .ok text ∧ q.compile = .ok text) ∧
    ∀ a, p.lower Arena.new = .ok () a → q.lower Arena.new = .ok () a → EqvGen Program.Edit p q := by
  constructor
  · intro edited
    have same : p.lower = q.lower := Program.coreLower ((Program.editedIff p q).mp edited)
    obtain ⟨_, a, new, run, holds, -⟩ := grownThrough (stmtsGrown p.stmts newHolds) formed
    have lowered : p.lower Arena.new = .ok () a := run
    have emitted := Build.emitOk holds
    have compiled : p.compile = .ok (moduleText ([memory] ++ new)) := by
      rw [Program.compile, build, Build.bindOk lowered, emitted]
      rfl
    refine ⟨a, _, _, lowered, same ▸ lowered, emitted, compiled, ?_⟩
    rw [Program.compile, ← same]
    exact compiled
  · intro a left right
    exact (Program.editedIff p q).mpr ((loweredRaised left).symm.trans (loweredRaised right))

def plainDifference : Program :=
  ⟨⟨0, 0⟩, [.print ⟨0, 0⟩ (.binary ⟨0, 0⟩ (.known .sub) (.paren ⟨0, 0⟩ (.mem ⟨0, 0⟩))
    (.signed ⟨0, 0⟩ (.known .minus) (.int ⟨0, 0⟩ 3)))]⟩

def adornedDifference : Program :=
  ⟨⟨0, 21⟩, [.print ⟨0, 21⟩ (.binary ⟨6, 20⟩ (.known .sub) (.signed ⟨6, 10⟩ (.known .plus) (.mem ⟨7, 10⟩))
    (.paren ⟨13, 20⟩ (.signed ⟨14, 19⟩ (.known .plus) (.signed ⟨15, 19⟩ (.known .minus)
      (.paren ⟨16, 19⟩ (.int ⟨17, 18⟩ 3))))))]⟩

theorem adornmentLeavesNoTrace :
    plainDifference.WellFormed ∧ EqvGen Program.Edit plainDifference adornedDifference ∧
      ∃ a b text, plainDifference.lower Arena.new = .ok () a ∧ adornedDifference.lower Arena.new = .ok () a ∧
        Build.emit a = .ok text b ∧ plainDifference.compile = .ok text ∧ adornedDifference.compile = .ok text := by
  have formed : plainDifference.WellFormed := by
    simp [plainDifference, Program.WellFormed, Stmt.WellFormed, Expr.WellFormed]
  have edited : EqvGen Program.Edit plainDifference adornedDifference := (Program.editedIff _ _).mpr rfl
  exact ⟨formed, edited, (editsLeaveNoTrace formed).1 edited⟩

end Abacus
