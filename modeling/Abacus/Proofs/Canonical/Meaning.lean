import Abacus.Proofs.Canonical.Literals

/-! What canonical text means. The grammar has no negative literals: a negative literal of a tree is read back as a minus
sign in front of its absolute value, which comes to the same. The least word has no absolute value, and its text cannot be
read. -/
namespace Abacus
open Parsing

namespace Expr

def spelled : Expr → Expr
  | .int s v => if v.toInt < 0 then .signed s (.known .minus) (.int s (-v)) else .int s v
  | .paren s x => .paren s x.spelled
  | .signed s op x => .signed s op x.spelled
  | .binary s op l r => .binary s op l.spelled r.spelled
  | x => x

theorem spelledFormed {x : Expr} (formed : x.WellFormed) : x.spelled.WellFormed := by
  induction x with
  | absent | foreign | mem => exact formed
  | int span v =>
    unfold spelled
    split
    · exact ⟨⟨.minus, rfl⟩, trivial⟩
    · trivial
  | paren span x ih => exact ih formed
  | signed span op x ih => exact ⟨formed.1, ih formed.2⟩
  | binary span op l r left right => exact ⟨formed.1, left formed.2.1, right formed.2.2⟩

theorem negateInt {v : Int64} (other : v ≠ Int64.minValue) : (-v).toInt = -v.toInt := by
  have low := v.minValue_le_toInt
  have high := v.toInt_lt
  have apart : v.toInt ≠ Int64.minValue.toInt := fun same => other (Int64.toInt_inj.mp same)
  rw [Int64.toInt_minValue] at low apart
  rw [Int64.toInt_neg]
  exact Int.bmod_eq_of_le (by omega) (by omega)

theorem spelledUnsigned {x : Expr} (spellable : x.Spellable) : x.spelled.Unsigned := by
  induction x with
  | absent | foreign | mem => trivial
  | int span v =>
    unfold spelled
    split
    · have opposite := negateInt spellable
      simp only [Unsigned]
      omega
    · simp only [Unsigned]
      omega
  | paren span x ih => exact ih spellable
  | signed span op x ih => exact ih spellable
  | binary span op l r left right => exact ⟨left spellable.1, right spellable.2⟩

theorem spelledFormat {x : Expr} (spellable : x.Spellable) (prec : Nat) : x.spelled.format prec = x.format prec := by
  induction x generalizing prec with
  | absent | foreign | mem => rfl
  | int span v =>
    unfold spelled
    split
    · rename_i negative
      have opposite := negateInt spellable
      have text : signedDecimal v.toInt = utf8 "-" ++ signedDecimal (-v).toInt := by
        rw [opposite, signedDecimal, signedDecimal, if_pos negative, if_neg (by omega), Int.natAbs_neg]
        rfl
      simp only [format, text]
      rfl
    · rfl
  | paren span x ih => simp only [spelled, format, ih spellable]
  | signed span op x ih => simp only [spelled, format, ih spellable]
  | binary span op l r left right => simp only [spelled, format, left spellable.1, right spellable.2]

theorem spelledEval (m : Int64) (x : Expr) : x.spelled.eval m = x.eval m := by
  induction x with
  | absent | foreign | mem => rfl
  | int span v =>
    unfold spelled
    split
    · exact congrArg Except.ok Int64.neg_neg
    · rfl
  | paren span x ih => exact ih
  | signed span op x ih => simp only [spelled, eval, ih]
  | binary span op l r left right => simp only [spelled, eval, left, right]

theorem groupedEval (m : Int64) (x : Expr) (prec : Nat) : (x.grouped prec).eval m = x.eval m := by
  induction x generalizing prec with
  | absent | foreign | mem | int => rfl
  | paren span x ih => exact ih 0
  | signed span op x ih => simp only [grouped, eval, ih]
  | binary span op l r left right =>
    cases op with
    | beyond n => rfl
    | known o =>
      simp only [grouped]
      split
      · simp only [eval, left, right]
      · simp only [eval, left, right]

end Expr

namespace Stmt

def spelled : Stmt → Stmt
  | .assign s x => .assign s x.spelled
  | .print s x => .print s x.spelled
  | s => s

theorem spelledFormed {s : Stmt} (formed : s.WellFormed) : s.spelled.WellFormed := by
  cases s with
  | absent | foreign => exact formed
  | assign span x => exact Expr.spelledFormed formed
  | print span x => exact Expr.spelledFormed formed

theorem spelledUnsigned {s : Stmt} (spellable : s.Spellable) : s.spelled.Unsigned := by
  cases s with
  | absent | foreign => trivial
  | assign span x => exact Expr.spelledUnsigned spellable
  | print span x => exact Expr.spelledUnsigned spellable

theorem spelledFormat {s : Stmt} (spellable : s.Spellable) : s.spelled.format = s.format := by
  cases s with
  | absent | foreign => rfl
  | assign span x => simp only [spelled, format, Expr.spelledFormat spellable]
  | print span x => simp only [spelled, format, Expr.spelledFormat spellable]

end Stmt

theorem stmtsSpelled {l : List Stmt} (spellable : ∀ s ∈ l, s.Spellable) (i : Nat) :
    formatStmts i (l.map Stmt.spelled) = formatStmts i l := by
  induction l generalizing i with
  | nil => rfl
  | cons s l ih =>
    have first := Stmt.spelledFormat (spellable s (by simp))
    have rest := ih (fun s member => spellable s (by simp [member])) (i + 1)
    simp only [List.map_cons, formatStmts, first, rest]

def EvalError.unplaced : EvalError → EvalError
  | .divisionByZero _ => .divisionByZero 0
  | .writeFailed => .writeFailed
  | .stmt i e => .stmt i e.unplaced

namespace Env

def unplaced {α : Type} : EStateM.Result (Stop EvalError) Env α → EStateM.Result (Stop EvalError) Env α
  | .ok x env => .ok x env
  | .error e env => .error (e.mapError EvalError.unplaced) env

theorem applyBare (op : Coded Oper) (a b : Int64) (pos : Int) :
    applyCoded op a b 0 = (applyCoded op a b pos).mapError (Stop.mapError EvalError.unplaced) := by
  cases op with
  | beyond n => rfl
  | known o =>
    cases o with
    | add | sub | mul => rfl
    | div =>
      by_cases zero : b = 0
      · simp only [applyCoded, Coded.get, mapErrorOk, bind, Except.bind, Oper.apply, zero, if_true, mapErrorError]
        rfl
      · simp only [applyCoded, Coded.get, mapErrorOk, bind, Except.bind, Oper.apply, zero, if_false]

theorem evalBare (m : Int64) (x : Expr) : x.bare.eval m = (x.eval m).mapError (Stop.mapError EvalError.unplaced) := by
  induction x with
  | absent | foreign | mem | int => rfl
  | paren span x ih => exact ih
  | signed span op x ih =>
    simp only [Expr.bare, Expr.eval, ih]
    cases x.eval m with
    | error e => rfl
    | ok v => cases op <;> rfl
  | binary span op l r left right =>
    simp only [Expr.bare, Expr.eval, left, right]
    cases l.eval m with
    | error e => rfl
    | ok a =>
      cases r.eval m with
      | error e => rfl
      | ok b => exact applyBare op a b span.pos

theorem sameEval {x y : Expr} (same : ∀ m, y.eval m = x.eval m) : Env.eval y = Env.eval x := by
  unfold Env.eval
  simp only [same]

theorem sameSpelled (s : Stmt) : stmt s.spelled = stmt s := by
  cases s with
  | absent | foreign => rfl
  | assign span x => simp only [Stmt.spelled, stmt, sameEval fun m => Expr.spelledEval m x]
  | print span x => simp only [Stmt.spelled, stmt, sameEval fun m => Expr.spelledEval m x]

theorem sameGrouped (s : Stmt) : stmt s.grouped = stmt s := by
  cases s with
  | absent | foreign => rfl
  | assign span x => simp only [Stmt.grouped, stmt, sameEval fun m => Expr.groupedEval m x 0]
  | print span x => simp only [Stmt.grouped, stmt, sameEval fun m => Expr.groupedEval m x 0]

theorem sameStmts {f : Stmt → Stmt} (same : ∀ s, stmt (f s) = stmt s) (i : Nat) (l : List Stmt) :
    stmts i (l.map f) = stmts i l := by
  induction l generalizing i with
  | nil => rfl
  | cons s l ih => simp only [List.map_cons, stmts, same, ih]

theorem printBare (v : Int64) (env : Env) : unplaced (print v env) = print v env := by
  rw [printThen]
  split
  · rfl
  · split
    · rfl
    · rfl

theorem resumeBare {e : Int64 → Eval Unit} (placeless : ∀ v env, unplaced (e v env) = e v env) (x : Expr) (env : Env) :
    (Env.eval x.bare >>= e) env = unplaced ((Env.eval x >>= e) env) := by
  rw [evalThen, evalThen, evalBare]
  cases x.eval env.mem with
  | error stop => rfl
  | ok v => exact (placeless v env).symm

theorem stmtBare (s : Stmt) (env : Env) : stmt s.bare env = unplaced (stmt s env) := by
  cases s with
  | absent | foreign => rfl
  | assign span x => exact resumeBare (e := fun v => modify fun env => { env with mem := v }) (fun _ _ => rfl) x env
  | print span x => exact resumeBare printBare x env

theorem stmtsBare (i : Nat) (l : List Stmt) (env : Env) : stmts i (l.map Stmt.bare) env = unplaced (stmts i l env) := by
  induction l generalizing i env with
  | nil => rfl
  | cons s l ih =>
    simp only [List.map_cons, stmts, bind, EStateM.bind, EStateM.adaptExcept, stmtBare]
    cases stmt s env with
    | ok u env => exact ih (i + 1) env
    | error stop env => cases stop <;> rfl

end Env

/- If no literal is the least word, canonical text is read as a program that does the same from any state. -/
theorem spellableMeansSame {p : Program} (formed : p.WellFormed) (spellable : ∀ s ∈ p.stmts, s.Spellable) (name : String) :
    ∃ text q, p.format = .ok text ∧ (⟨name, text⟩ : Source).parse = .ok q ∧
      ∀ env, Env.unplaced (Env.run q env) = Env.unplaced (Env.run p env) := by
  have formed' : Program.WellFormed ⟨p.span, p.stmts.map Stmt.spelled⟩ :=
    List.forall_mem_map.mpr fun s member => Stmt.spelledFormed (formed s member)
  have unsigned : ∀ s ∈ p.stmts.map Stmt.spelled, s.Unsigned :=
    List.forall_mem_map.mpr fun s member => Stmt.spelledUnsigned (spellable s member)
  obtain ⟨text, q, written, read, same⟩ := formedFormats formed' unsigned name
  rw [Program.format, stmtsSpelled spellable] at written
  refine ⟨text, q, written, read, fun env => ?_⟩
  simp only [Env.run]
  rw [← Env.stmtsBare, same, Env.stmtsBare, Env.sameStmts Env.sameGrouped, Env.sameStmts Env.sameSpelled]

/- A tree of any shape has a canonical text. The text can be read just if no literal is the least word, and it is then read
as a program that does the same from any state: it leaves the same state, or stops at the same statement for the same
reason. -/
theorem formatMeansSame {p : Program} (formed : p.WellFormed) (name : String) :
    ∃ text, (Node.program p).format [] = .ok text ∧
      ((∃ q, (⟨name, text⟩ : Source).parse = .ok q) ↔ ∀ s ∈ p.stmts, s.Spellable) ∧
        ∀ q, (⟨name, text⟩ : Source).parse = .ok q →
          ∀ env, Env.unplaced (Env.run q env) = Env.unplaced (Env.run p env) := by
  obtain ⟨text, written, readable⟩ := formatExposes formed
  have means : (∀ s ∈ p.stmts, s.Spellable) → ∃ q, (⟨name, text⟩ : Source).parse = .ok q ∧
      ∀ env, Env.unplaced (Env.run q env) = Env.unplaced (Env.run p env) := by
    intro spellable
    obtain ⟨text', q, written', read, same⟩ := spellableMeansSame formed spellable name
    obtain rfl := Except.ok.inj (written.symm.trans written')
    exact ⟨q, read, same⟩
  refine ⟨text, ?_, ⟨?_, ?_⟩, ?_⟩
  · simp only [Node.format, written]
    rfl
  · rintro ⟨q, read⟩
    exact readable name q read
  · intro spellable
    obtain ⟨q, read, -⟩ := means spellable
    exact ⟨q, read⟩
  · intro q read
    obtain ⟨q', read', same⟩ := means (readable name q read)
    obtain rfl := Except.ok.inj (read.symm.trans read')
    exact same

def negatives : Program :=
  ⟨⟨0, 0⟩, [.assign ⟨0, 0⟩ (.binary ⟨0, 0⟩ (.known .sub) (.int ⟨0, 0⟩ (-3)) (.int ⟨0, 0⟩ (-9223372036854775807))),
    .print ⟨0, 0⟩ (.binary ⟨0, 0⟩ (.known .mul) (.signed ⟨0, 0⟩ (.known .minus) (.int ⟨0, 0⟩ (-5))) (.mem ⟨0, 0⟩)),
    .assign ⟨0, 0⟩ (.binary ⟨0, 0⟩ (.known .div) (.int ⟨0, 0⟩ (-1))
      (.binary ⟨0, 0⟩ (.known .sub) (.mem ⟨0, 0⟩) (.mem ⟨0, 0⟩)))]⟩

theorem negativesMeanSame :
    negatives.WellFormed ∧ (∀ s ∈ negatives.stmts, s.Spellable) ∧
      ∃ text, text = utf8 "-3 - -9223372036854775807;\nprint --5 * mem;\n-1 / (mem - mem);\n" ∧
        (Node.program negatives).format [] = .ok text ∧ ∃ q, (⟨"clean", text⟩ : Source).parse = .ok q ∧
          Env.unplaced (Env.run q { mem := 7 }) = .error (.error (.stmt 2 (.divisionByZero 0)))
            { mem := 9223372036854775804, printed := [9223372036854775788] } := by
  have formed : negatives.WellFormed := by
    simp [negatives, Program.WellFormed, Stmt.WellFormed, Expr.WellFormed]
  have spellable : ∀ s ∈ negatives.stmts, s.Spellable := by
    obtain ⟨three, most, five, one⟩ : (-3 : Int64) ≠ Int64.minValue ∧ (-9223372036854775807 : Int64) ≠ Int64.minValue ∧
        (-5 : Int64) ≠ Int64.minValue ∧ (-1 : Int64) ≠ Int64.minValue := by decide
    simp only [negatives, List.forall_mem_cons]
    exact ⟨⟨three, most⟩, ⟨five, trivial⟩, ⟨one, trivial, trivial⟩, by simp⟩
  have format : (Node.program negatives).format [] =
      .ok (utf8 "-3 - -9223372036854775807;\nprint --5 * mem;\n-1 / (mem - mem);\n") := rfl
  obtain ⟨text, written, readable, means⟩ := formatMeansSame formed "clean"
  obtain ⟨q, read⟩ := readable.mpr spellable
  have same := means q read
  refine ⟨formed, spellable, text, ?_, written, q, read, ?_⟩
  · rw [format] at written
    exact (Except.ok.inj written).symm
  · rw [same]
    rfl

theorem leastUnreadable :
    Program.WellFormed ⟨⟨0, 0⟩, [.assign ⟨0, 0⟩ (.int ⟨0, 0⟩ Int64.minValue)]⟩ ∧
      (Node.program ⟨⟨0, 0⟩, [.assign ⟨0, 0⟩ (.int ⟨0, 0⟩ Int64.minValue)]⟩).format [] =
        .ok (utf8 "-9223372036854775808;\n") ∧
      ∀ q, (⟨"", utf8 "-9223372036854775808;\n"⟩ : Source).parse ≠ .ok q := by
  refine ⟨?_, rfl, fun q read => ?_⟩
  · simp [Program.WellFormed, Stmt.WellFormed, Expr.WellFormed]
  · have fails : ∃ f, (⟨"", utf8 "-9223372036854775808;\n"⟩ : Source).parse = .error f := ⟨_, rfl⟩
    obtain ⟨f, failed⟩ := fails
    rw [failed] at read
    contradiction

end Abacus
