import Abacus.Proofs.Acceptance

/-! Where a running program stops. A statement that fails leaves no trace, so the state is that of the program cut off
before it; a program that is cut in two runs as its two parts, one after the other. -/
namespace Abacus

def EvalError.shifted (n : Nat) : EvalError → EvalError
  | .stmt i e => .stmt (n + i) e
  | e => e

namespace Env

def shifted (n : Nat) : EStateM.Result (Stop EvalError) Env Unit → EStateM.Result (Stop EvalError) Env Unit
  | .ok x env => .ok x env
  | .error stop env => .error (stop.mapError (EvalError.shifted n)) env

theorem stmtsCons (i : Nat) (s : Stmt) (l : List Stmt) (env : Env) :
    stmts i (s :: l) env = match stmt s env with
      | .ok _ mid => stmts (i + 1) l mid
      | .error stop mid => .error (stop.mapError (.stmt i)) mid := by
  simp only [stmts, bind, EStateM.bind, EStateM.adaptExcept]
  cases stmt s env <;> rfl

theorem stmtsShifted (n i : Nat) (l : List Stmt) (env : Env) : stmts (n + i) l env = shifted n (stmts i l env) := by
  induction l generalizing i env with
  | nil => rfl
  | cons s l ih =>
    simp only [stmtsCons]
    cases stmt s env with
    | ok u mid => exact ih (i + 1) mid
    | error stop mid => cases stop <;> rfl

theorem stmtsAppend (i : Nat) (l m : List Stmt) (env : Env) :
    stmts i (l ++ m) env = match stmts i l env with
      | .ok _ mid => stmts (i + l.length) m mid
      | .error stop mid => .error stop mid := by
  induction l generalizing i env with
  | nil => rfl
  | cons s l ih =>
    simp only [List.cons_append, stmtsCons]
    cases stmt s env with
    | ok u mid =>
      have shift : i + (s :: l).length = i + 1 + l.length := by
        simp only [List.length_cons]
        omega
      simp only [shift, ih]
    | error stop mid => rfl

end Env

inductive Ends (env : Env) : EStateM.Result (Stop EvalError) Env Unit → Prop
  | through {env' : Env} (roomy : env'.Roomy) : Ends env (.ok () env')
  | stopped (pos : Int) : Ends env (.error (.error (.divisionByZero pos)) env)

theorem valueEnds {x : Expr} (formed : x.WellFormed) {env : Env} {next : Int64 → Eval Unit}
    (rest : ∀ v, Ends env (next v env)) : Ends env ((Env.eval x >>= next) env) := by
  rw [evalThen]
  have value := exprComputes formed env.mem
  generalize x.eval env.mem = result at value
  cases value with
  | value v => exact rest v
  | zero pos => exact .stopped pos

theorem printEnds {env : Env} (roomy : env.Roomy) (v : Int64) : Ends env (Env.print v env) := by
  rw [printThen]
  cases tape : env.tape with
  | none => exact .through fun t given => by simp at given
  | some t =>
    have written : t.write? (toString v.toInt ++ "\n") = some { t with text := t.text ++ (toString v.toInt ++ "\n") } := by
      simp only [Tape.write?, roomy t tape]
    simp only [written]
    refine .through fun t' same => ?_
    cases same
    exact roomy t tape

theorem stmtEnds {s : Stmt} (formed : s.WellFormed) {env : Env} (roomy : env.Roomy) : Ends env (Env.stmt s env) := by
  cases s with
  | absent | foreign => exact formed.elim
  | assign span x => exact valueEnds formed fun v => .through roomy
  | print span x => exact valueEnds formed fun v => printEnds roomy v

theorem stmtsEnd {l : List Stmt} (formed : ∀ s ∈ l, s.WellFormed) {env : Env} (roomy : env.Roomy) (i : Nat) :
    (∃ env', Env.stmts i l env = .ok () env') ∨
      ∃ done s rest mid pos, l = done ++ s :: rest ∧ Env.stmts i done env = .ok () mid ∧
        Env.stmt s mid = .error (.error (.divisionByZero pos)) mid := by
  induction l generalizing i env with
  | nil => exact .inl ⟨env, rfl⟩
  | cons s l ih =>
    obtain ⟨first, others⟩ := List.forall_mem_cons.mp formed
    have here := stmtEnds first roomy
    cases run : Env.stmt s env with
    | error stop mid =>
      rw [run] at here
      cases here with
      | stopped pos => exact .inr ⟨[], s, l, env, pos, rfl, rfl, run⟩
    | ok u mid =>
      rw [run] at here
      cases here with
      | through kept =>
        rcases ih others kept (i + 1) with ⟨env', through⟩ | ⟨done, t, rest, last, pos, rfl, before, stopped⟩
        · exact .inl ⟨env', by simp only [Env.stmtsCons, run, through]⟩
        · exact .inr ⟨s :: done, t, rest, last, pos, rfl, by simp only [Env.stmtsCons, run, before], stopped⟩

theorem stmtsStopped {done : List Stmt} {s : Stmt} {env mid env' : Env} {stop : Stop EvalError} {i : Nat}
    (before : Env.stmts i done env = .ok () mid) (stopped : Env.stmt s mid = .error stop env') (rest : List Stmt) :
    Env.stmts i (done ++ s :: rest) env = .error (stop.mapError (.stmt (i + done.length))) env' := by
  simp only [Env.stmtsAppend, before, Env.stmtsCons, stopped]

theorem stmtsRoomy {l : List Stmt} (formed : ∀ s ∈ l, s.WellFormed) {env mid : Env} (roomy : env.Roomy) {i : Nat}
    (run : Env.stmts i l env = .ok () mid) : mid.Roomy := by
  have ends := stmtsEvaluate (P := env.Roomy) id formed i
  rw [run] at ends
  cases ends with
  | through kept => exact kept roomy

theorem splitAt {l : List Stmt} {i : Nat} {s : Stmt} (found : l[i]? = some s) :
    l = l.take i ++ s :: l.drop (i + 1) ∧ (l.take i).length = i := by
  obtain ⟨less, same⟩ := List.getElem?_eq_some_iff.mp found
  refine ⟨?_, List.length_take_of_le (Nat.le_of_lt less)⟩
  rw [← same, List.getElem_cons_drop, List.take_append_drop]

/- Where every line is taken that is printed: a program fails just if one of its statements does after those before it
went through. It then leaves the state that those leave, and its error is the division by zero of the statement under the
number of the statement. Any program runs as its two parts would, however it is cut in two. -/
theorem runStopsFirst {p : Program} (formed : p.WellFormed) {env : Env} (roomy : env.Roomy) :
    ((∃ stop env', Env.run p env = .error stop env') ↔
      ∃ i s mid stop env', p.stmts[i]? = some s ∧ Env.run { p with stmts := p.stmts.take i } env = .ok () mid ∧
        Env.stmt s mid = .error stop env') ∧
    (∀ i s mid stop env', p.stmts[i]? = some s → Env.run { p with stmts := p.stmts.take i } env = .ok () mid →
      Env.stmt s mid = .error stop env' →
        ∃ pos, stop = .error (.divisionByZero pos) ∧
          Env.run p env = .error (.error (.stmt i (.divisionByZero pos))) mid ∧
          (EvalError.stmt i (.divisionByZero pos)).message =
            "stmt " ++ toString i ++ ": " ++ (EvalError.divisionByZero pos).message) ∧
    ∀ first second, p.stmts = first ++ second →
      Env.run p env = match Env.run { p with stmts := first } env with
        | .ok _ mid => Env.shifted first.length (Env.run { p with stmts := second } mid)
        | .error stop mid => .error stop mid := by
  -- Earlier statements keep the tape as it is, so the one that fails can only have divided by zero.
  have fails : ∀ i s mid stop env', p.stmts[i]? = some s → Env.stmts 0 (p.stmts.take i) env = .ok () mid →
      Env.stmt s mid = .error stop env' → ∃ pos, stop = .error (.divisionByZero pos) ∧
        Env.stmts 0 p.stmts env = .error (.error (.stmt i (.divisionByZero pos))) mid := by
    intro i s mid stop env' found before stopped
    obtain ⟨split, size⟩ := splitAt found
    have early : ∀ t ∈ p.stmts.take i, t.WellFormed := fun t member => formed t (List.mem_of_mem_take member)
    have ends := stmtEnds (formed s (List.mem_of_getElem? found)) (stmtsRoomy early roomy before)
    rw [stopped] at ends
    cases ends with
    | stopped pos =>
      have whole := stmtsStopped before stopped (p.stmts.drop (i + 1))
      rw [← split, size, Nat.zero_add] at whole
      exact ⟨pos, rfl, whole⟩
  refine ⟨⟨?_, ?_⟩, ?_, ?_⟩
  · rintro ⟨stop, env', failed⟩
    rcases stmtsEnd formed roomy 0 with ⟨env'', through⟩ | ⟨done, s, rest, mid, pos, split, before, stopped⟩
    · cases through.symm.trans failed
    · refine ⟨done.length, s, mid, _, _, ?_, ?_, stopped⟩
      · simp [split]
      · simpa only [Env.run, split, List.take_left] using before
  · rintro ⟨i, s, mid, stop, env', found, before, stopped⟩
    obtain ⟨pos, -, whole⟩ := fails i s mid stop env' found before stopped
    exact ⟨_, _, whole⟩
  · intro i s mid stop env' found before stopped
    obtain ⟨pos, zero, whole⟩ := fails i s mid stop env' found before stopped
    exact ⟨pos, zero, whole, rfl⟩
  · intro first second split
    simp only [Env.run, split, Env.stmtsAppend, ← Env.stmtsShifted, Nat.zero_add, Nat.add_zero]

def storedQuotient : Program :=
  ⟨⟨0, 0⟩, [.assign ⟨0, 0⟩ (.int ⟨0, 0⟩ 7), .print ⟨0, 0⟩ (.mem ⟨0, 0⟩),
    .assign ⟨0, 0⟩ (.binary ⟨0, 0⟩ (.known .div) (.mem ⟨0, 0⟩)
      (.binary ⟨0, 0⟩ (.known .sub) (.mem ⟨0, 0⟩) (.int ⟨0, 0⟩ 7))),
    .print ⟨0, 0⟩ (.int ⟨0, 0⟩ 1)]⟩

theorem storedQuotientStops :
    storedQuotient.WellFormed ∧ Env.Roomy { mem := 5, printed := [3], tape := some { text := "3\n" } } ∧
      Env.run { storedQuotient with stmts := storedQuotient.stmts.take 2 }
          { mem := 5, printed := [3], tape := some { text := "3\n" } } =
        .ok () { mem := 7, printed := [3, 7], tape := some { text := "3\n7\n" } } ∧
      ∃ pos, Env.run storedQuotient { mem := 5, printed := [3], tape := some { text := "3\n" } } =
        .error (.error (.stmt 2 (.divisionByZero pos))) { mem := 7, printed := [3, 7], tape := some { text := "3\n7\n" } } := by
  have formed : storedQuotient.WellFormed := by
    simp [storedQuotient, Program.WellFormed, Stmt.WellFormed, Expr.WellFormed]
  have roomy : Env.Roomy { mem := 5, printed := [3], tape := some { text := "3\n" } } := by
    rintro t ⟨⟩
    rfl
  have before : Env.run { storedQuotient with stmts := storedQuotient.stmts.take 2 }
      { mem := 5, printed := [3], tape := some { text := "3\n" } } =
        .ok () { mem := 7, printed := [3, 7], tape := some { text := "3\n7\n" } } := rfl
  obtain ⟨-, stops, -⟩ := runStopsFirst formed roomy
  obtain ⟨pos, -, whole, -⟩ := stops 2 _ _ _ _ rfl before rfl
  exact ⟨formed, roomy, before, pos, whole⟩

end Abacus
