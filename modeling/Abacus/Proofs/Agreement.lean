import Abacus.Proofs.Assembly.Simulation
import Abacus.Proofs.Parsing.Language

/-! Evaluating programs and running their assembly text come to the same, so the check that compares the two finds
fault with nothing but the text of a program. -/
namespace Abacus

open Assembly

def Reported (r : Result) (env : Env) : Prop :=
  r.printed = env.printed ∧ r.globals.lookup Arena.memName = some env.mem

inductive Matches (writer : Bool) : Except RunError Result → EStateM.Result (Stop EvalError) Env Unit → Prop
  | done {r : Result} {env : Env} (reported : Reported r env) : Matches writer (.ok r) (.ok () env)
  | stopped {i : Nat} {inst : String} {r : Result} {e : EvalError} {env : Env} (zero : e.isDivisionByZero = true)
    (reported : Reported r env) : Matches writer (.error (.trapped i inst .divisionByZero r)) (.error (.error e) env)
  | unwritten {out : Except RunError Result} {e : EvalError} {env : Env} (full : e.isDivisionByZero = false)
    (given : writer = true) : Matches writer out (.error (.error e) env)

theorem reported {vs : List Value} (head : vs.head? = some memory) {r : Result} {t : Direct} {env : Env}
    (reports : Reports vs r t) (agrees : Agrees t env) : Reported r env := by
  refine ⟨reports.printed.trans agrees.2, ?_⟩
  have first : behind vs 0 = some memory := by
    obtain ⟨rest, rfl⟩ := List.head?_eq_some_iff.mp head
    rfl
  rw [reports.globals 0 Arena.memName first, agrees.1]

theorem matchesThrough {vs : List Value} (head : vs.head? = some memory) {writer : Bool} {out : Except RunError Result}
    {direct : Except Direct Direct} {result : EStateM.Result (Stop EvalError) Env Unit} (finishes : Finishes vs out direct)
    (follows : Follows writer direct result) : Matches writer out result := by
  cases follows with
  | done agrees same =>
    cases finishes with
    | done reports => exact .done (reported head reports agrees)
  | stopped zero agrees =>
    cases finishes with
    | trapped reports => exact .stopped zero (reported head reports agrees)
  | unwritten full given => exact .unwritten full given

section Reader

variable {read : Reader} (reads : ReadsBack read)
include reads

theorem emittedMatches {b : Build Unit} {e : Eval Unit} (carries : Carries b e) :
    ∃ text a, build (do b; Build.emit) = .ok (text, a) ∧
      ∀ tape, Matches tape.isSome (runAssembly read text) (e { tape }) := by
  obtain ⟨new, a, run, holds, follows⟩ := carries Arena.new [memory] newHolds
  have emitted := Build.emitOk holds
  refine ⟨moduleText ([memory] ++ new), { a with frozen := true }, ?_, fun tape => ?_⟩
  · rw [build, Build.bindOk run, emitted]
  · have direct := follows {} { tape } ⟨rfl, rfl⟩
    have whole : ({} : Direct).performAll 0 ([memory] ++ new) = ({} : Direct).performAll [memory].length new := rfl
    exact matchesThrough rfl (textRuns reads holds.laid) (whole ▸ direct)

/- Programs that are lowered one after another into one arena, against one environment that runs them in turn. Without a
tape, which could refuse a line, only a division by zero ends the evaluation early. -/
theorem compiledAgrees {ps : List Program} (formed : ∀ p ∈ ps, p.WellFormed) (tape : Option Tape) :
    ∃ text a, build (do ps.forM Program.lower; Build.emit) = .ok (text, a) ∧
      (∀ env, ps.forM Env.run { tape } = .ok () env → ∃ r, runAssembly read text = .ok r ∧ Reported r env) ∧
      (∀ e env, ps.forM Env.run { tape } = .error (.error e) env → e.isDivisionByZero = true →
        ∃ i inst r, runAssembly read text = .error (.trapped i inst .divisionByZero r) ∧ Reported r env) ∧
      (tape = none → ∀ stop env, ps.forM Env.run { tape } = .error stop env →
        ∃ e, stop = .error e ∧ e.isDivisionByZero = true) := by
  obtain ⟨text, a, built, agrees⟩ := emittedMatches reads (programsCarried formed)
  refine ⟨text, a, built, ?_⟩
  have here := agrees tape
  generalize runAssembly read text = out at here ⊢
  generalize ps.forM Env.run { tape } = result at here ⊢
  cases here with
  | done reported =>
    refine ⟨?_, by simp, by simp⟩
    rintro env ⟨⟩
    exact ⟨_, rfl, reported⟩
  | stopped zero reported =>
    refine ⟨by simp, ?_, ?_⟩
    · rintro e env ⟨⟩ _
      exact ⟨_, _, _, rfl, reported⟩
    · rintro _ stop env ⟨⟩
      exact ⟨_, rfl, zero⟩
  | unwritten full given =>
    refine ⟨by simp, ?_, ?_⟩
    · rintro e env ⟨⟩ zero
      simp [full] at zero
    · rintro rfl
      simp at given

end Reader

def storeProgram : Program :=
  ⟨⟨0, 0⟩, [.assign ⟨0, 0⟩ (.int ⟨0, 0⟩ (-7)), .print ⟨0, 0⟩ (.signed ⟨0, 0⟩ (.known .minus) (.mem ⟨0, 0⟩))]⟩

def divideProgram : Program :=
  ⟨⟨0, 0⟩, [.assign ⟨0, 0⟩ (.binary ⟨0, 0⟩ (.known .mul) (.mem ⟨0, 0⟩) (.mem ⟨0, 0⟩)),
    .print ⟨0, 0⟩ (.binary ⟨0, 0⟩ (.known .div) (.int ⟨0, 0⟩ 1)
      (.binary ⟨0, 0⟩ (.known .sub) (.mem ⟨0, 0⟩) (.int ⟨0, 0⟩ 49)))]⟩

theorem storeDivideAgrees :
    ReadsBack Module.ofText? ∧ (∀ p ∈ [storeProgram, divideProgram], p.WellFormed) ∧
      ∃ text a, build (do [storeProgram, divideProgram].forM Program.lower; Build.emit) = .ok (text, a) ∧
        ∃ i inst r, runAssembly Module.ofText? text = .error (.trapped i inst .divisionByZero r) ∧ r.printed = [7] ∧
          r.globals.lookup Arena.memName = some 49 := by
  have formed : ∀ p ∈ [storeProgram, divideProgram], p.WellFormed := by
    simp [storeProgram, divideProgram, Program.WellFormed, Stmt.WellFormed, Expr.WellFormed]
  refine ⟨moduleReread, formed, ?_⟩
  obtain ⟨text, a, built, agrees⟩ := compiledAgrees moduleReread formed none
  have stops : [storeProgram, divideProgram].forM Env.run { tape := none } =
      .error (.error (.stmt 1 (.divisionByZero 0))) { mem := 49, printed := [7] } := rfl
  obtain ⟨i, inst, r, trapped, reported⟩ := agrees.2.1 _ _ stops rfl
  exact ⟨text, a, built, i, inst, r, trapped, reported⟩

theorem compareReported {r : Result} {env : Env} (h : Reported r env) : compareRuns env r = .ok () := by
  simp [compareRuns, h.1, h.2]

theorem formedCompiles {read : Reader} (reads : ReadsBack read) {p : Program} (formed : p.WellFormed) :
    ∃ text, p.compile = .ok text ∧ Matches false (runAssembly read text) (Env.run p {}) := by
  obtain ⟨text, a, built, agrees⟩ := emittedMatches reads (stmtsCarried formed 0)
  refine ⟨text, ?_, agrees none⟩
  rw [Program.compile, Program.lower, built]
  rfl

theorem formedChecks {read : Reader} (reads : ReadsBack read) {p : Program} (formed : p.WellFormed) :
    p.check read = .ok () := by
  obtain ⟨text, compiled, agrees⟩ := formedCompiles reads formed
  rw [Program.check, compiled]
  simp only [bind, Except.bind]
  generalize runAssembly read text = out at agrees ⊢
  generalize Env.run p {} = result at agrees ⊢
  cases agrees with
  | done reported => exact compareReported reported
  | stopped zero reported =>
    simp only [zero, if_true]
    exact compareReported reported
  | unwritten full given => simp at given

theorem sourceParse (s : Source) :
    s.parse = (Abacus.parse [s]).mapError fun stop => .within "parse text" (Failure.ofStop .source stop) := by
  rw [Source.parse, labelFailure, parseSources]
  cases Abacus.parse [s] <;> rfl

theorem parseFails {s : Source} {f : Failure} (h : s.parse = .error f) :
    ∃ l, f = .within "parse text" (.source (.located l)) := by
  rw [sourceParse] at h
  cases read : Abacus.parse [s] with
  | ok p => simp [read] at h
  | error e =>
    obtain ⟨l, rfl⟩ := parseLocated read
    simp only [read, mapErrorError, Failure.ofStop, Except.error.injEq] at h
    exact ⟨l, h.symm⟩

theorem sourceParses {s : Source} {p : Program} : s.parse = .ok p ↔ Abacus.parse [s] = .ok p := by
  rw [sourceParse]
  cases Abacus.parse [s] <;> simp

theorem parsesFormed {s : Source} {p : Program} (h : s.parse = .ok p) : p.WellFormed :=
  parsedWellFormed (sourceParses.mp h)

/- A check says what reading the text says; the failures that are left to it are places in the text. -/
theorem checkIffParses {read : Reader} (reads : ReadsBack read) (s : Source) :
    (s.check read = .ok () ↔ ∃ p, s.parse = .ok p) ∧ (∀ f, s.check read = .error f ↔ s.parse = .error f) ∧
      ∀ f, s.check read = .error f → ∃ l, f = .within "parse text" (.source (.located l)) := by
  cases parsed : s.parse with
  | ok p =>
    have checked : s.check read = .ok () := by
      rw [Source.check, parsed]
      exact formedChecks reads (parsesFormed parsed)
    simp [checked]
  | error f =>
    have failed : s.check read = .error f := by
      rw [Source.check, parsed]
      rfl
    obtain ⟨l, rfl⟩ := parseFails parsed
    simp [failed]

theorem dividingChecked :
    ReadsBack Module.ofText? ∧ Source.check Module.ofText? ⟨"half", utf8 "print mem; print 1/mem;"⟩ = .ok () := by
  have parsed : Source.parse ⟨"half", utf8 "print mem; print 1/mem;"⟩ = .ok ⟨⟨0, 23⟩,
      [.print ⟨0, 10⟩ (.mem ⟨6, 9⟩),
        .print ⟨11, 23⟩ (.binary ⟨17, 22⟩ (.known .div) (.int ⟨17, 18⟩ 1) (.mem ⟨19, 22⟩))]⟩ := rfl
  exact ⟨moduleReread, (checkIffParses moduleReread _).1.mpr ⟨_, parsed⟩⟩

end Abacus
