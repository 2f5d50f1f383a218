import Abacus.Evaluation
import Abacus.Proofs.Lowering.Growth
import Mathlib.Logic.Function.Basic

/-! Running the values of an arena one after another, and lowering: what the lowered code does is what the
evaluation of the tree does, up to and including a division by zero. -/
namespace Abacus

structure Direct where
  cells : Int → Int64 := fun _ => 0
  results : Int → Int64 := fun _ => 0
  printed : List Int64 := []

namespace Direct

def define (s : Direct) (id : Int) (v : Int64) : Direct := { s with results := Function.update s.results id v }

def perform (s : Direct) (id : Int) : Value → Option Direct
  | .global _ _ | .alloca _ _ => some s
  | .const v => some (s.define id v)
  | .load _ src => some (s.define id (s.cells src))
  | .store src dst => some { s with cells := Function.update s.cells dst (s.results src) }
  | .binop _ (.known o) l r => (o.apply (s.results l) (s.results r) 0).toOption.map (s.define id)
  | .binop _ (.beyond _) _ _ => some s
  | .print x => some { s with printed := s.printed ++ [s.results x] }

def performAll (s : Direct) (id : Nat) : List Value → Except Direct Direct
  | [] => .ok s
  | v :: vs =>
    match s.perform id v with
    | some s => s.performAll (id + 1) vs
    | none => .error s

theorem performAppend (s : Direct) (id : Nat) (vs ws : List Value) :
    s.performAll id (vs ++ ws) = s.performAll id vs >>= fun s => s.performAll (id + vs.length) ws := by
  induction vs generalizing s id with
  | nil => rfl
  | cons v vs ih =>
    simp only [List.cons_append, performAll]
    cases s.perform id v with
    | none => rfl
    | some t =>
      have shift : id + 1 + vs.length = id + (vs.length + 1) := by omega
      simp only [ih, List.length_cons, shift]

end Direct

structure Keeps (n : Int) (s t : Direct) : Prop where
  cells : t.cells = s.cells
  printed : t.printed = s.printed
  results : ∀ id, id < n → t.results id = s.results id

theorem keepsTrans {n m : Int} {s t u : Direct} (less : n ≤ m) (first : Keeps n s t) (second : Keeps m t u) :
    Keeps n s u where
  cells := second.cells.trans first.cells
  printed := second.printed.trans first.printed
  results id old := (second.results id (by omega)).trans (first.results id old)

theorem keepsDefine (s : Direct) {n id : Int} (new : n ≤ id) (v : Int64) : Keeps n s (s.define id v) where
  cells := rfl
  printed := rfl
  results k old := Function.update_of_ne (by omega) ..

inductive Yields (n : Int) (s : Direct) (id : Int) : Except Direct Direct → Except (Stop EvalError) Int64 → Prop
  | value {t : Direct} {v : Int64} (keeps : Keeps n s t) (here : t.results id = v) : Yields n s id (.ok t) (.ok v)
  | stopped {t : Direct} {pos : Int} (keeps : Keeps n s t) :
    Yields n s id (.error t) (.error (.error (.divisionByZero pos)))

theorem yieldsTrans {n m : Int} {s t : Direct} {id : Int} {out : Except Direct Direct}
    {result : Except (Stop EvalError) Int64} (less : n ≤ m) (keeps : Keeps n s t) (h : Yields m t id out result) :
    Yields n s id out result := by
  cases h with
  | value later here => exact .value (keepsTrans less keeps later) here
  | stopped later => exact .stopped (keepsTrans less keeps later)

theorem yieldsBind {n : Int} {s : Direct} {i j : Int} {out : Except Direct Direct}
    {result : Except (Stop EvalError) Int64} {next : Direct → Except Direct Direct}
    {more : Int64 → Except (Stop EvalError) Int64} (h : Yields n s i out result)
    (later : ∀ t v, Keeps n s t → t.results i = v → Yields n s j (next t) (more v)) :
    Yields n s j (out >>= next) (result >>= more) := by
  cases h with
  | value keeps here => exact later _ _ keeps here
  | stopped keeps => exact .stopped keeps

theorem yieldsDefine (s : Direct) (n : Int) (v : Int64) : Yields n s n (.ok (s.define n v)) (.ok v) :=
  .value (keepsDefine s (Int.le_refl _) v) (by simp [Direct.define])

theorem yieldsBinop {s : Direct} {l r : Int} {u v : Int64} (left : s.results l = u) (right : s.results r = v)
    (name : String) (o : Oper) (n : Nat) (pos : Int) :
    Yields n s n (s.performAll n [.binop name (.known o) l r]) ((o.apply u v pos).mapError Stop.error) := by
  cases o with
  | add | sub | mul =>
    simp only [Direct.performAll, Direct.perform, left, right, Oper.apply]
    exact yieldsDefine ..
  | div =>
    simp only [Direct.performAll, Direct.perform, left, right, Oper.apply]
    by_cases zero : v = 0
    · rw [if_pos zero, if_pos zero]
      exact .stopped ⟨rfl, rfl, fun _ _ => rfl⟩
    · rw [if_neg zero, if_neg zero]
      exact yieldsDefine ..

structure Lowered (vs new : List Value) (id : Int) (x : Expr) : Prop where
  scalar : Scalar (vs ++ new) id
  run : ∀ s : Direct, Yields vs.length s id (s.performAll vs.length new) (x.eval (s.cells 0))

theorem loweredMem (vs : List Value) (span : Span) (name : String) :
    Lowered vs [.load name 0] vs.length (.mem span) where
  scalar := scalarLast vs rfl
  run s := yieldsDefine s _ _

theorem loweredInt (vs : List Value) (span : Span) (v : Int64) : Lowered vs [.const v] vs.length (.int span v) where
  scalar := scalarLast vs rfl
  run s := yieldsDefine s _ _

theorem scalarBound {vs : List Value} {id : Int} (h : Scalar vs id) : id < vs.length := by
  obtain ⟨v, found, -⟩ := h
  exact (behindBound found).2

theorem loweredMinus {vs new : List Value} {i : Int} {x : Expr} (h : Lowered vs new i x) (span : Span)
    (name : String) :
    Lowered vs (new ++ [.const 0, .binop name (.known .sub) (vs ++ new).length i]) ((vs ++ new).length + 1 : Nat)
      (.signed span (.known .minus) x) where
  scalar := by
    have last := scalarLast (vs ++ new ++ [.const 0]) (v := .binop name (.known .sub) (vs ++ new).length i) rfl
    simpa [Int.add_assoc] using last
  run s := by
    have bound := scalarBound h.scalar
    have before : (vs.length : Int) ≤ (vs ++ new).length := by
      rw [List.length_append]
      omega
    rw [Direct.performAppend, Expr.eval, ← List.length_append]
    generalize (vs ++ new).length = k at bound before
    refine yieldsBind (h.run s) fun t v keeps here => ?_
    have zero := keepsDefine t (Int.le_refl k) 0
    have same : (t.define k 0).results i = v := (zero.results i bound).trans here
    have minus := yieldsBinop (l := k) (u := 0) (by simp [Direct.define]) same name .sub (k + 1) 0
    have value : Oper.sub.apply 0 v 0 = .ok (-v) := by simp [Oper.apply]
    rw [value] at minus
    exact yieldsTrans (by omega) (keepsTrans before keeps zero) minus

theorem loweredBinary {vs new more : List Value} {i j : Int} {x y : Expr} (left : Lowered vs new i x)
    (right : Lowered (vs ++ new) more j y) (span : Span) (o : Oper) (name : String) :
    Lowered vs (new ++ (more ++ [.binop name (.known o) i j])) (vs ++ new ++ more).length
      (.binary span (.known o) x y) where
  scalar := by
    have last := scalarLast (vs ++ new ++ more) (v := .binop name (.known o) i j) rfl
    simpa only [List.append_assoc] using last
  run s := by
    have bound := scalarBound left.scalar
    have before : (vs.length : Int) ≤ (vs ++ new).length := by
      rw [List.length_append]
      omega
    have before' : ((vs ++ new).length : Int) ≤ (vs ++ new ++ more).length := by
      rw [@List.length_append _ (vs ++ new)]
      omega
    rw [Direct.performAppend, Expr.eval]
    refine yieldsBind (left.run s) fun t u keeps here => ?_
    have second := right.run t
    rw [keeps.cells] at second
    rw [← List.length_append, Direct.performAppend, ← List.length_append]
    refine yieldsTrans before keeps (yieldsBind second fun w v keeps' here' => yieldsTrans before' keeps' ?_)
    have old : w.results i = u := (keeps'.results i bound).trans here
    exact yieldsBinop old here' name o _ span.pos

theorem appendsLowered {vs new : List Value} {x : Expr} {id : Int} (appends : x.Appends vs new id) :
    Lowered vs new id x := by
  induction appends with
  | mem vs span => exact loweredMem vs span _
  | int vs span v => exact loweredInt vs span v
  | paren span inner ih => exact ⟨ih.scalar, ih.run⟩
  | @plus vs new x id span inner ih =>
    refine ⟨ih.scalar, fun s => ?_⟩
    have same : (Expr.signed span (.known .plus) x).eval (s.cells 0) = x.eval (s.cells 0) := by
      rw [Expr.eval]
      cases x.eval (s.cells 0) <;> rfl
    rw [same]
    exact ih.run s
  | minus span inner ih => exact loweredMinus ih span _
  | binary span o left right ihl ihr => exact loweredBinary ihl ihr span o _

def Agrees (s : Direct) (env : Env) : Prop := s.cells 0 = env.mem ∧ s.printed = env.printed

/- How running new values compares to an evaluation that may write to a tape. Nothing is said of the values after a
line that the tape would not take. -/
inductive Follows (writer : Bool) : Except Direct Direct → EStateM.Result (Stop EvalError) Env Unit → Prop
  | done {t : Direct} {env : Env} (agrees : Agrees t env) (same : env.tape.isSome = writer) :
    Follows writer (.ok t) (.ok () env)
  | stopped {t : Direct} {e : EvalError} {env : Env} (zero : e.isDivisionByZero = true) (agrees : Agrees t env) :
    Follows writer (.error t) (.error (.error e) env)
  | unwritten {out : Except Direct Direct} {e : EvalError} {env : Env} (full : e.isDivisionByZero = false)
    (given : writer = true) : Follows writer out (.error (.error e) env)

def Carries (b : Build Unit) (e : Eval Unit) : Prop :=
  ∀ a vs, a.Holds vs → ∃ new a', b a = .ok () a' ∧ a'.Holds (vs ++ new) ∧
    ∀ s env, Agrees s env → Follows env.tape.isSome (s.performAll vs.length new) (e env)

theorem carriesNothing : Carries (pure ()) (pure ()) := by
  intro a vs holds
  refine ⟨[], a, rfl, by simpa using holds, fun s env agrees => ?_⟩
  exact .done agrees rfl

theorem followsBind {writer : Bool} {out : Except Direct Direct} {e : Eval Unit} {env : Env}
    {next : Direct → Except Direct Direct} {e' : Unit → Eval Unit} (h : Follows writer out (e env))
    (later : ∀ t env', Agrees t env' → env'.tape.isSome = writer → Follows writer (next t) (e' () env')) :
    Follows writer (out >>= next) ((e >>= e') env) := by
  simp only [bind, EStateM.bind]
  generalize e env = result at h
  cases h with
  | done agrees same => exact later _ _ agrees same
  | stopped zero agrees => exact .stopped zero agrees
  | unwritten full given => exact .unwritten full given

theorem carriesThen {b b' : Build Unit} {e e' : Eval Unit} (first : Carries b e) (second : Carries b' e') :
    Carries (do b; b') (do e; e') := by
  intro a vs holds
  obtain ⟨new, a', run, holds', follows⟩ := first a vs holds
  obtain ⟨more, a'', run', holds'', follows'⟩ := second a' _ holds'
  refine ⟨new ++ more, a'', by rw [Build.bindOk run, run'], by simpa using holds'', fun s env agrees => ?_⟩
  rw [Direct.performAppend, ← List.length_append]
  exact followsBind (follows s env agrees) fun t env' agrees' same => same ▸ follows' t env' agrees'

theorem carriesNumbered {b : Build Unit} {e : Eval Unit} (h : Carries b e) (i : Nat) :
    Carries b (EStateM.adaptExcept (Stop.mapError (.stmt i)) e) := by
  intro a vs holds
  obtain ⟨new, a', run, holds', follows⟩ := h a vs holds
  refine ⟨new, a', run, holds', fun s env agrees => ?_⟩
  have result := follows s env agrees
  simp only [EStateM.adaptExcept]
  generalize e env = outcome at result ⊢
  generalize s.performAll vs.length new = out at result ⊢
  cases result with
  | done agrees same => exact .done agrees same
  | stopped zero agrees => exact .stopped (e := .stmt i _) zero agrees
  | unwritten full given => exact .unwritten (e := .stmt i _) full given

def resume (e : Int64 → Eval Unit) (env : Env) : Except (Stop EvalError) Int64 → EStateM.Result (Stop EvalError) Env Unit
  | .ok v => e v env
  | .error stop => .error stop env

theorem followsValue {n : Int} {s : Direct} {env : Env} {id : Int} {out : Except Direct Direct}
    {result : Except (Stop EvalError) Int64} {writer : Bool} {next : Direct → Except Direct Direct} {e : Int64 → Eval Unit}
    (h : Yields n s id out result) (agrees : Agrees s env)
    (later : ∀ t, Agrees t env → Follows writer (next t) (e (t.results id) env)) :
    Follows writer (out >>= next) (resume e env result) := by
  have kept : ∀ t, Keeps n s t → Agrees t env := fun t keeps =>
    ⟨by rw [keeps.cells]; exact agrees.1, keeps.printed.trans agrees.2⟩
  cases h with
  | value keeps here => exact here ▸ later _ (kept _ keeps)
  | stopped keeps => exact .stopped rfl (kept _ keeps)

theorem evalThen (x : Expr) (e : Int64 → Eval Unit) (env : Env) :
    (Env.eval x >>= e) env = resume e env (x.eval env.mem) := by
  simp only [bind, EStateM.bind, Env.eval, getOk]
  cases x.eval env.mem <;> rfl

theorem printThen (v : Int64) (env : Env) :
    Env.print v env = match env.tape with
      | none => .ok () { env with printed := env.printed ++ [v] }
      | some t =>
        match t.write? (toString v.toInt ++ "\n") with
        | some t' => .ok () { env with printed := env.printed ++ [v], tape := some t' }
        | none => .error (.error .writeFailed) { env with printed := env.printed ++ [v] } := by
  obtain ⟨mem, printed, tape⟩ := env
  cases tape with
  | none => rfl
  | some t =>
    simp only [Env.print, bind, EStateM.bind, modifyOk, getOk]
    cases t.write? (toString v.toInt ++ "\n") <;> rfl

theorem printFollows {s : Direct} {env : Env} (id : Int) (n : Nat) (agrees : Agrees s env) :
    Follows env.tape.isSome (s.performAll n [.print id]) (Env.print (s.results id) env) := by
  have printed : Agrees { s with printed := s.printed ++ [s.results id] }
      { env with printed := env.printed ++ [s.results id] } := ⟨agrees.1, by simp [agrees.2]⟩
  rw [printThen]
  cases tape : env.tape with
  | none => exact .done printed rfl
  | some t =>
    dsimp only
    cases t.write? (toString (s.results id).toInt ++ "\n") with
    | none => exact .unwritten rfl rfl
    | some t' => exact .done ⟨printed.1, printed.2⟩ rfl

theorem valueFollows {vs new : List Value} {x : Expr} {id : Int} (appends : x.Appends vs new id) {last : Value}
    {e : Int64 → Eval Unit} {s : Direct} {env : Env} (agrees : Agrees s env)
    (runs : ∀ t n, Agrees t env → Follows env.tape.isSome (t.performAll n [last]) (e (t.results id) env)) :
    Follows env.tape.isSome (s.performAll vs.length (new ++ [last])) ((Env.eval x >>= e) env) := by
  rw [evalThen, ← agrees.1, Direct.performAppend]
  exact followsValue ((appendsLowered appends).run s) agrees fun t agrees' => runs t _ agrees'

theorem stmtCarried {s : Stmt} (formed : s.WellFormed) : Carries s.lower (Env.stmt s) := by
  intro a vs holds
  obtain ⟨_, a', new, run, holds', appends⟩ := grownThrough (stmtGrown s holds) formed
  refine ⟨new, a', run, holds', fun t env agrees => ?_⟩
  cases appends with
  | assign span value => exact valueFollows value agrees fun t n agrees' => .done ⟨by simp, agrees'.2⟩ rfl
  | print span value => exact valueFollows value agrees fun t n agrees' => printFollows _ n agrees'

theorem stmtsCarried {l : List Stmt} (formed : ∀ s ∈ l, s.WellFormed) (i : Nat) :
    Carries (lowerStmts l) (Env.stmts i l) := by
  induction l generalizing i with
  | nil => exact carriesNothing
  | cons s l ih =>
    have first := carriesNumbered (stmtCarried (formed s (by simp))) i
    exact carriesThen first (ih (fun s member => formed s (by simp [member])) (i + 1))

theorem programsCarried {ps : List Program} (formed : ∀ p ∈ ps, p.WellFormed) :
    Carries (ps.forM Program.lower) (ps.forM Env.run) := by
  induction ps with
  | nil => exact carriesNothing
  | cons p ps ih =>
    exact carriesThen (stmtsCarried (formed p (by simp)) 0) (ih fun p member => formed p (by simp [member]))

end Abacus
