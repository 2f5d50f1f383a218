import Abacus.Canonical
import Abacus.Proofs.Arena.Execution
import Abacus.Proofs.Lowering.Linearity
import Abacus.Proofs.Parsing.Language

/-! The trees that can be written out, lowered and evaluated. Writing out stops at a bad operator before it looks at the
operands and at a bad node with an error; lowering and evaluation look at the operands first and stop with a fault. They
accept the same trees all the same. -/
namespace Abacus

def Succeeds {ε α : Type} (result : Except ε α) : Prop := ∃ x, result = .ok x

section Succeeds

variable {ε α β : Type}

theorem succeedsBind {first : Except ε α} {next : α → Except ε β} {P : Prop} (rest : ∀ x, Succeeds (next x) ↔ P) :
    Succeeds (first >>= next) ↔ Succeeds first ∧ P := by
  cases first with
  | error e => simp [Succeeds, bind, Except.bind]
  | ok x =>
    have here : Succeeds (Except.ok x : Except ε α) := ⟨x, rfl⟩
    exact (rest x).trans (and_iff_right here).symm

theorem succeedsReturn {first : Except ε α} (f : α → β) : Succeeds (do return f (← first)) ↔ Succeeds first :=
  (succeedsBind (P := True) fun x => iff_true_intro ⟨f x, rfl⟩).trans (and_iff_left trivial)

theorem succeedsWithin (label : String) (text : Formatted) : Succeeds (text.within label) ↔ Succeeds text := by
  cases text with
  | ok w => exact Iff.rfl
  | error e => simp [Succeeds, Formatted.within]

theorem succeedsKnown (code : Coded α) : Succeeds (Formatted.known code) ↔ ∃ a, code = .known a := by
  cases code with
  | known a => simp [Succeeds, Formatted.known, Coded.get]
  | beyond n => simp [Succeeds, Formatted.known, Coded.get]

end Succeeds

/- The precedence asked for decides about parentheses and about nothing else, so the induction is for all of them. -/
theorem exprFormats (x : Expr) (prec : Nat) : Succeeds (x.format prec) ↔ x.WellFormed := by
  induction x generalizing prec with
  | absent | foreign => simp [Succeeds, Expr.format, Expr.WellFormed]
  | mem span => exact iff_of_true ⟨_, rfl⟩ trivial
  | int span v => exact iff_of_true ⟨_, rfl⟩ trivial
  | paren span x ih =>
    rw [Expr.format, succeedsReturn, succeedsWithin, ih, Expr.WellFormed]
  | signed span op x ih =>
    have operand : ∀ s : Sign, Succeeds (do
        let text ← (x.format signPrecedence).within "operand"
        return utf8 s.symbol ++ text) ↔ x.WellFormed := by
      intro s
      rw [succeedsReturn, succeedsWithin, ih]
    rw [Expr.format, succeedsBind operand, succeedsKnown, Expr.WellFormed]
  | binary span op l r left right =>
    have operands : ∀ o : Oper, Succeeds (do
        let v ← (l.format o.precedence).within "left"
        let w ← (r.format (o.precedence + 1)).within "right"
        return bracketed (o.precedence < prec) (v ++ utf8 (" " ++ o.symbol ++ " ") ++ w)) ↔
          l.WellFormed ∧ r.WellFormed := by
      intro o
      have second : ∀ v : Bytes, Succeeds (do
          let w ← (r.format (o.precedence + 1)).within "right"
          return bracketed (o.precedence < prec) (v ++ utf8 (" " ++ o.symbol ++ " ") ++ w)) ↔ r.WellFormed := by
        intro v
        rw [succeedsReturn, succeedsWithin, right]
      rw [succeedsBind second, succeedsWithin, left]
    rw [Expr.format, succeedsBind operands, succeedsKnown, Expr.WellFormed]

theorem stmtFormats (s : Stmt) : Succeeds s.format ↔ s.WellFormed := by
  cases s with
  | absent | foreign => simp [Succeeds, Stmt.format, Stmt.WellFormed]
  | assign span x => rw [Stmt.format, succeedsReturn, succeedsWithin, exprFormats, Stmt.WellFormed]
  | print span x => rw [Stmt.format, succeedsReturn, succeedsWithin, exprFormats, Stmt.WellFormed]

theorem stmtsFormat (l : List Stmt) (i : Nat) : Succeeds (formatStmts i l) ↔ ∀ s ∈ l, s.WellFormed := by
  induction l generalizing i with
  | nil => exact iff_of_true ⟨_, rfl⟩ (by simp)
  | cons s l ih =>
    have rest : ∀ text : Bytes, Succeeds (do return text ++ (← formatStmts (i + 1) l)) ↔ ∀ s ∈ l, s.WellFormed := by
      intro text
      rw [succeedsReturn, ih]
    rw [formatStmts, succeedsBind rest, succeedsWithin, stmtFormats, List.forall_mem_cons]

theorem programFormats (p : Program) (lead : Bytes) : Succeeds (Node.format lead (.program p)) ↔ p.WellFormed := by
  unfold Node.format
  rw [succeedsReturn]
  exact stmtsFormat p.stmts 0

section Lowering

variable {α β : Type} {a c : Arena}

theorem bindThrough {p : Build α} {q : α → Build β} {y : β} (h : (p >>= q) a = .ok y c) :
    ∃ x b, p a = .ok x b ∧ q x b = .ok y c := by
  cases run : p a with
  | error e b => simp [Build.bindError run] at h
  | ok x b =>
    rw [Build.bindOk run] at h
    exact ⟨x, b, rfl, h⟩

theorem knownThrough {code : Coded α} {x : α} (h : Build.known code a = .ok x c) : ∃ b, code = .known b := by
  cases code with
  | known b => exact ⟨b, rfl⟩
  | beyond n => simp [knownError] at h

theorem exprThrough {x : Expr} {id : Handle} (h : x.lower a = .ok id c) : x.WellFormed := by
  induction x generalizing a c id with
  | absent | foreign => contradiction
  | mem | int => trivial
  | paren span x ih => exact ih h
  | signed span op x ih =>
    obtain ⟨y, b, operand, rest⟩ := bindThrough h
    obtain ⟨s, d, sign, -⟩ := bindThrough rest
    exact ⟨knownThrough sign, ih operand⟩
  | binary span op l r left right =>
    obtain ⟨x, b, first, rest⟩ := bindThrough h
    obtain ⟨y, d, second, rest⟩ := bindThrough rest
    obtain ⟨o, e, oper, -⟩ := bindThrough rest
    exact ⟨knownThrough oper, left first, right second⟩

theorem stmtThrough {s : Stmt} (h : s.lower a = .ok () c) : s.WellFormed := by
  cases s with
  | absent | foreign => contradiction
  | assign span x =>
    obtain ⟨y, b, value, -⟩ := bindThrough h
    exact exprThrough value
  | print span x =>
    obtain ⟨y, b, value, -⟩ := bindThrough h
    exact exprThrough value

theorem stmtsThrough {l : List Stmt} (h : lowerStmts l a = .ok () c) : ∀ s ∈ l, s.WellFormed := by
  induction l generalizing a with
  | nil => simp
  | cons s l ih =>
    obtain ⟨_, b, first, rest⟩ := bindThrough h
    exact List.forall_mem_cons.mpr ⟨stmtThrough first, ih rest⟩

theorem programLowers (p : Program) : (∃ a, p.lower Arena.new = .ok () a) ↔ p.WellFormed := by
  constructor
  · rintro ⟨a, run⟩
    exact stmtsThrough run
  · intro formed
    obtain ⟨_, a, _, run, -⟩ := grownThrough (stmtsGrown p.stmts newHolds) formed
    exact ⟨a, run⟩

end Lowering

inductive Computes {α : Type} : Except (Stop EvalError) α → Prop
  | value (x : α) : Computes (.ok x)
  | zero (pos : Int) : Computes (.error (.error (.divisionByZero pos)))

theorem computesBind {α β : Type} {first : Except (Stop EvalError) α} {next : α → Except (Stop EvalError) β}
    (here : Computes first) (rest : ∀ x, Computes (next x)) : Computes (first >>= next) := by
  cases here with
  | value x => exact rest x
  | zero pos => exact .zero pos

theorem applyComputes (o : Oper) (l r : Int64) (pos : Int) : Computes (applyCoded (.known o) l r pos) := by
  cases o with
  | add | sub | mul => exact .value _
  | div =>
    by_cases none : r = 0
    · simp only [applyCoded, Coded.get, mapErrorOk, bind, Except.bind, Oper.apply, if_pos none]
      exact .zero pos
    · simp only [applyCoded, Coded.get, mapErrorOk, bind, Except.bind, Oper.apply, if_neg none]
      exact .value _

theorem exprComputes {x : Expr} (formed : x.WellFormed) (m : Int64) : Computes (x.eval m) := by
  induction x with
  | absent | foreign => exact formed.elim
  | mem | int => exact .value _
  | paren span x ih => exact ih formed
  | signed span op x ih =>
    obtain ⟨⟨s, rfl⟩, inner⟩ := formed
    exact computesBind (ih inner) fun v => .value _
  | binary span op l r left right =>
    obtain ⟨⟨o, rfl⟩, formedLeft, formedRight⟩ := formed
    exact computesBind (left formedLeft) fun v => computesBind (right formedRight) fun w => applyComputes o v w span.pos

def Env.Roomy (env : Env) : Prop := ∀ t, env.tape = some t → t.room = none

/- How statements end that start where every line is taken or, if `P` fails, perhaps not. They meet no fault. -/
inductive Evaluates (P : Prop) : EStateM.Result (Stop EvalError) Env Unit → Prop
  | through {env : Env} (roomy : P → env.Roomy) : Evaluates P (.ok () env)
  | stopped {e : EvalError} {env : Env} (zero : P → e.isDivisionByZero = true) : Evaluates P (.error (.error e) env)

section Evaluation

variable {P : Prop} {env : Env}

theorem valueEvaluates {x : Expr} (formed : x.WellFormed) {next : Int64 → Eval Unit}
    (rest : ∀ v, Evaluates P (next v env)) : Evaluates P ((Env.eval x >>= next) env) := by
  rw [evalThen]
  have value := exprComputes formed env.mem
  generalize x.eval env.mem = result at value
  cases value with
  | value v => exact rest v
  | zero pos => exact .stopped fun _ => rfl

variable (roomy : P → env.Roomy)
include roomy

theorem printEvaluates (v : Int64) : Evaluates P (Env.print v env) := by
  rw [printThen]
  cases tape : env.tape with
  | none => exact .through fun _ t given => by simp at given
  | some t =>
    dsimp only
    cases written : t.write? (toString v.toInt ++ "\n") with
    | some t' =>
      refine .through fun given t'' same => ?_
      cases same
      rw [Tape.write?, roomy given t tape] at written
      cases written
      rfl
    | none =>
      refine .stopped fun given => ?_
      rw [Tape.write?, roomy given t tape] at written
      contradiction

theorem stmtEvaluates {s : Stmt} (formed : s.WellFormed) : Evaluates P (Env.stmt s env) := by
  cases s with
  | absent | foreign => exact formed.elim
  | assign span x => exact valueEvaluates formed fun v => .through roomy
  | print span x => exact valueEvaluates formed fun v => printEvaluates roomy v

theorem stmtsEvaluate {l : List Stmt} (formed : ∀ s ∈ l, s.WellFormed) (i : Nat) : Evaluates P (Env.stmts i l env) := by
  induction l generalizing i env with
  | nil => exact .through roomy
  | cons s l ih =>
    obtain ⟨first, others⟩ := List.forall_mem_cons.mp formed
    have here := stmtEvaluates roomy first
    simp only [Env.stmts, bind, EStateM.bind, EStateM.adaptExcept]
    generalize Env.stmt s env = result at here
    cases here with
    | through kept => exact ih kept others (i + 1)
    | stopped zero => exact .stopped zero

end Evaluation

/- A program is written out just if it is lowered into a new arena, and both just if no node is missing or foreign and
every operator is known. Evaluating such a program from any state never meets a fault, and if every line is taken that is
printed, only a division by zero keeps it from its end. What is read from sources is such a program. -/
theorem treesAccepted (p : Program) (lead : Bytes) :
    ((∃ text, Node.format lead (.program p) = .ok text) ↔ ∃ a, p.lower Arena.new = .ok () a) ∧
      ((∃ text, Node.format lead (.program p) = .ok text) ↔ p.WellFormed) ∧
      (p.WellFormed → ∀ env : Env, (∃ env', Env.run p env = .ok () env') ∨
        ∃ e env', Env.run p env = .error (.error e) env' ∧ (env.Roomy → e.isDivisionByZero = true)) ∧
      ∀ srcs, parse srcs = .ok p → p.WellFormed := by
  have written := programFormats p lead
  refine ⟨written.trans (programLowers p).symm, written, fun formed env => ?_, fun srcs read => parsedWellFormed read⟩
  have ends := stmtsEvaluate (P := env.Roomy) (fun roomy => roomy) formed 0
  unfold Env.run
  generalize Env.stmts 0 p.stmts env = result at ends
  cases ends with
  | through kept => exact .inl ⟨_, rfl⟩
  | stopped zero => exact .inr ⟨_, _, rfl, zero⟩

def quotient : Program :=
  ⟨⟨0, 12⟩, [.print ⟨0, 12⟩ (.binary ⟨6, 11⟩ (.known .div) (.int ⟨6, 7⟩ 1) (.mem ⟨8, 11⟩))]⟩

theorem quotientAccepted :
    parse [⟨"", utf8 "print 1/mem;"⟩] = .ok quotient ∧ quotient.WellFormed ∧
      (∃ text, Node.format (utf8 "# ") (.program quotient) = .ok text) ∧ (∃ a, quotient.lower Arena.new = .ok () a) ∧
      ∃ e env, Env.run quotient { tape := some {} } = .error (.error e) env ∧ e.isDivisionByZero = true := by
  have read : parse [⟨"", utf8 "print 1/mem;"⟩] = .ok quotient := rfl
  have stops : Env.run quotient { tape := some {} } =
      .error (.error (.stmt 0 (.divisionByZero 6))) { tape := some {} } := rfl
  obtain ⟨lowers, writes, runs, reads⟩ := treesAccepted quotient (utf8 "# ")
  have formed := reads _ read
  have written := writes.mpr formed
  refine ⟨read, formed, written, lowers.mp written, ?_⟩
  rcases runs formed { tape := some {} } with ⟨env, through⟩ | ⟨e, env, stopped, zero⟩
  · rw [stops] at through
    cases through
  · refine ⟨e, env, stopped, zero fun t given => ?_⟩
    cases given
    rfl

end Abacus
