import Abacus.Proofs.Evaluation.Stopping

/-! What is printed and what reaches the tape. A value counts as printed before its line is written, and a line that the
tape refuses stops a program but not the calls after it; so the two may part, but only behind the last line that the tape
has room for. -/
namespace Abacus

def Node.evaluate : Node → Eval Unit
  | .program p => Env.run p
  | .stmt s => Env.stmt s
  | .expr x => do
    let _ ← Env.eval x
    return
  | .foreign _ => throw (.fault .node)

theorem utf8Append (s t : String) : utf8 (s ++ t) = utf8 s ++ utf8 t := by
  simp [utf8]

theorem utf8Nat (n : Nat) : utf8 (toString n) = decimal n := by
  have digits : utf8 (toString n) = (Nat.toDigits 10 n).flatMap String.utf8EncodeChar := by
    rw [← String.ofList_toList (s := toString n), Assembly.Token.natChars]
    simp [utf8, List.utf8Encode]
  rw [digits, decimal, List.map_eq_flatMap]
  refine List.flatMap_congr fun c member => ?_
  have digit := Assembly.Token.digitsAll n c member
  simp only [Char.isDigit, Bool.and_eq_true, decide_eq_true_eq] at digit
  exact String.utf8EncodeChar_eq_singleton (Char.utf8Size_eq_one_iff.mpr (UInt32.le_trans digit.2 (by decide)))

theorem utf8Int (z : Int) : utf8 (toString z) = signedDecimal z := by
  cases z with
  | ofNat n => exact utf8Nat n
  | negSucc n =>
    have sign : toString (Int.negSucc n) = "-" ++ toString (n + 1) := rfl
    rw [sign, utf8Append, utf8Nat, signedDecimal, if_pos (Int.negSucc_lt_zero n)]
    rfl

namespace Env

def reached {α : Type} (env : Env) (step : Eval α) : Env :=
  match step env with
  | .ok _ env' => env'
  | .error _ env' => env'

/- The environment after trees in order, where one that evaluation stops at does not keep the next ones from being
evaluated. -/
def after (env : Env) (nodes : List Node) : Env := nodes.foldl (fun env n => env.reached n.evaluate) env

def line (v : Int64) : Bytes := signedDecimal v.toInt ++ [newline]

def Tallies (n : Nat) (env : Env) : Prop :=
  ∃ text, env.tape = some ⟨some (n - env.printed.length), text⟩ ∧ utf8 text = (env.printed.take n).flatMap line

structure Prints (env env' : Env) : Prop where
  printed : env.printed <+: env'.printed
  tallies : ∀ n, env.Tallies n → env'.Tallies n

section Steps

variable {env env' env'' : Env}

theorem printsSame (env : Env) : Prints env env := ⟨List.prefix_refl _, fun _ tallies => tallies⟩

theorem printsTrans (first : Prints env env') (second : Prints env' env'') : Prints env env'' :=
  ⟨first.printed.trans second.printed, fun n tallies => second.tallies n (first.tallies n tallies)⟩

theorem storePrints (env : Env) (v : Int64) : Prints env { env with mem := v } :=
  ⟨List.prefix_refl _, fun _ tallies => tallies⟩

theorem printRefused {text : String} (tape : env.tape = some ⟨some 0, text⟩) (v : Int64) :
    env.reached (print v) = { env with printed := env.printed ++ [v] } := by
  rw [reached, printThen, tape]
  rfl

theorem printTaken {m : Nat} {text : String} (tape : env.tape = some ⟨some (m + 1), text⟩) (v : Int64) :
    env.reached (print v) =
      { env with printed := env.printed ++ [v], tape := some ⟨some m, text ++ (toString v.toInt ++ "\n")⟩ } := by
  rw [reached, printThen, tape]
  rfl

theorem printTallies {n : Nat} (tallies : env.Tallies n) (v : Int64) : (env.reached (print v)).Tallies n := by
  obtain ⟨text, tape, written⟩ := tallies
  have longer : (env.printed ++ [v]).length = env.printed.length + 1 := List.length_append
  cases room : n - env.printed.length with
  | zero =>
    have full : n ≤ env.printed.length := Nat.le_of_sub_eq_zero room
    have left : n - (env.printed.length + 1) = 0 := by omega
    rw [room] at tape
    rw [printRefused tape]
    refine ⟨text, ?_, ?_⟩
    · simp only [tape, longer, left]
    · rw [List.take_append_of_le_length full]
      exact written
  | succ m =>
    have less : env.printed.length < n := by omega
    have left : n - (env.printed.length + 1) = m := by omega
    rw [room] at tape
    rw [printTaken tape]
    refine ⟨text ++ (toString v.toInt ++ "\n"), ?_, ?_⟩
    · simp only [longer, left]
    · rw [List.take_of_length_le (Nat.le_of_lt less)] at written
      rw [List.take_of_length_le (longer ▸ less), List.flatMap_append, List.flatMap_singleton, utf8Append, utf8Append,
        utf8Int, written]
      rfl

theorem printPrints (env : Env) (v : Int64) : Prints env (env.reached (print v)) := by
  refine ⟨?_, fun n tallies => printTallies tallies v⟩
  rw [reached, printThen]
  cases env.tape with
  | none => exact List.prefix_append _ _
  | some t =>
    dsimp only
    cases t.write? (toString v.toInt ++ "\n") with
    | some t' => exact List.prefix_append _ _
    | none => exact List.prefix_append _ _

theorem evalPrints {next : Int64 → Eval Unit} (x : Expr) (rest : ∀ v, Prints env (env.reached (next v))) :
    Prints env (env.reached (eval x >>= next)) := by
  rw [reached, evalThen]
  cases x.eval env.mem with
  | ok v => exact rest v
  | error stop => exact printsSame env

theorem stmtPrints (s : Stmt) (env : Env) : Prints env (env.reached (stmt s)) := by
  cases s with
  | absent | foreign => exact printsSame env
  | assign span x => exact evalPrints x fun v => storePrints env v
  | print span x => exact evalPrints x fun v => printPrints env v

theorem stmtsPrint (i : Nat) (l : List Stmt) (env : Env) : Prints env (env.reached (stmts i l)) := by
  induction l generalizing i env with
  | nil => exact printsSame env
  | cons s l ih =>
    have first := stmtPrints s env
    rw [reached] at first ⊢
    rw [stmtsCons]
    cases run : stmt s env with
    | ok u mid =>
      rw [run] at first
      exact printsTrans first (ih (i + 1) mid)
    | error stop mid =>
      rw [run] at first
      exact first

theorem nodePrints (n : Node) (env : Env) : Prints env (env.reached n.evaluate) := by
  cases n with
  | program p => exact stmtsPrint 0 p.stmts env
  | stmt s => exact stmtPrints s env
  | expr x => exact evalPrints x fun v => printsSame env
  | foreign kind => exact printsSame env

theorem afterPrints (nodes : List Node) (env : Env) : Prints env (env.after nodes) := by
  induction nodes generalizing env with
  | nil => exact printsSame env
  | cons n nodes ih => exact printsTrans (nodePrints n env) (ih _)

end Steps

def limited (m : Int64) (n : Nat) : Env := { mem := m, tape := some { room := some n } }

theorem limitedTallies (m : Int64) (n : Nat) : (limited m n).Tallies n := ⟨"", rfl, by simp [limited, utf8]⟩

theorem cutPrints (p : Program) (i : Nat) (env : Env) :
    Prints (env.reached (run { p with stmts := p.stmts.take i })) (env.reached (run p)) := by
  have whole : run p env = stmts 0 (p.stmts.take i ++ p.stmts.drop i) env := by rw [List.take_append_drop, run]
  rw [reached, reached, whole, stmtsAppend, run]
  cases stmts 0 (p.stmts.take i) env with
  | ok u mid => exact stmtsPrint _ _ mid
  | error stop mid => exact printsSame mid

/- Whatever trees are evaluated one after another and wherever evaluation stops in them, on a tape that takes `n` lines:
the tape holds the lines of the first `n` printed values, or of all if there are fewer. What was printed at any time is
still there later and comes first, also from statement to statement of one program. -/
theorem tapeHoldsFirst (m : Int64) (n : Nat) (nodes : List Node) :
    (∃ t, ((limited m n).after nodes).tape = some t ∧
      utf8 t.text = (((limited m n).after nodes).printed.take (min n ((limited m n).after nodes).printed.length)).flatMap line) ∧
      (∀ more, ((limited m n).after nodes).printed <+: ((limited m n).after (nodes ++ more)).printed) ∧
      ∀ p i, ((limited m n).after (nodes ++ [.program { p with stmts := p.stmts.take i }])).printed <+:
        ((limited m n).after (nodes ++ [.program p])).printed := by
  have further : ∀ more, (limited m n).after (nodes ++ more) = ((limited m n).after nodes).after more :=
    fun more => List.foldl_append
  obtain ⟨text, tape, written⟩ := (afterPrints nodes (limited m n)).tallies n (limitedTallies m n)
  refine ⟨⟨_, tape, ?_⟩, fun more => ?_, fun p i => ?_⟩
  · rw [written, List.take_eq_take_min]
  · rw [further]
    exact (afterPrints more _).printed
  · rw [further, further]
    exact (cutPrints p i _).printed

example : (limited 0 1).after [.program ⟨⟨0, 0⟩, [.print ⟨0, 0⟩ (.int ⟨0, 0⟩ (-7)), .print ⟨0, 0⟩ (.int ⟨0, 0⟩ 8),
      .assign ⟨0, 0⟩ (.int ⟨0, 0⟩ 9)]⟩, .stmt .absent, .stmt (.print ⟨0, 0⟩ (.mem ⟨0, 0⟩))] =
    { mem := 0, printed := [-7, 8, 0], tape := some { room := some 0, text := "-7\n" } } := by
  decide

end Env

end Abacus
