import Abacus.Assembly.Machine

/-! Where a run stops. An instruction that cannot run leaves no trace: what is observed is what the instructions before it
leave, as if the main function returned in its place, and nothing behind it matters. -/
namespace Abacus.Assembly

def Func.cut (f : Func) (n : Nat) : Func :=
  { f with blocks := f.blocks.map fun b => { b with insts := b.insts.take n, term := .ret none } }

def Module.cut (mod : Module) (n : Nat) : Module :=
  { mod with funcs := mod.funcs.map fun f => if f.name == mainName then f.cut n else f }

def Module.main? (mod : Module) : Option Func := mod.funcs.reverse.find? fun f => f.name == mainName

theorem mainCut (mod : Module) (n : Nat) : (mod.cut n).main? = mod.main?.map (Func.cut · n) := by
  have named : ((fun f : Func => f.name == mainName) ∘ fun f => if f.name == mainName then f.cut n else f) =
      fun f => f.name == mainName := by
    funext f
    simp only [Function.comp_apply]
    split <;> rfl
  unfold Module.main? Module.cut
  rw [← List.map_reverse, List.find?_map, named]
  cases found : mod.funcs.reverse.find? fun f => f.name == mainName with
  | none => rfl
  | some f =>
    have name := List.find?_some found
    simp only [Option.map_some, name, if_true]

theorem runStarted {mod : Module} {m : Machine} {names : List String} (start : Machine.start {} [] mod.globals = .ok (m, names)) :
    mod.run = match mod.main? with
      | none => .error .noMain
      | some f => f.run m names := by
  simp only [Module.run, start, bind, Except.bind, Module.main?]
  cases mod.funcs.reverse.find? fun f => f.name == mainName <;> rfl

theorem startNames {gs : List Global} {m m' : Machine} {names names' : List String}
    (start : Machine.start m names gs = .ok (m', names')) :
    names' = names ++ (gs.filter fun g => g.type.isInt).map Global.name := by
  induction gs generalizing m names with
  | nil =>
    cases start
    simp
  | cons g gs ih =>
    unfold Machine.start at start
    split at start
    · rename_i int
      split at start
      · simp [ih start, int]
      · simp [ih start, int]
      · contradiction
    · rename_i other
      simp [ih start, other]

section Trap

variable {α β : Type}

def Exec.Keeps (x : Exec α) : Prop := ∀ m t m', x m = .error t m' → m' = m

theorem throwKeeps (t : Trap) : Exec.Keeps (throw t : Exec α) := by
  intro m u m' trapped
  cases trapped
  rfl

theorem modifyKeeps (f : Machine → Machine) : Exec.Keeps (modify f : Exec PUnit) := by
  intro m t m' trapped
  cases trapped

theorem askKeeps {f : Machine → Except Trap α} {g : α → Exec β} (rest : ∀ x, Exec.Keeps (g x)) :
    Exec.Keeps (Exec.ask f >>= g) := by
  intro m t m' trapped
  rw [Exec.bindAsk] at trapped
  cases asked : f m with
  | ok x =>
    rw [asked] at trapped
    exact rest x m t m' trapped
  | error u =>
    rw [asked] at trapped
    cases trapped
    rfl

end Trap

-- Whatever an instruction writes, it writes last.
theorem execKeeps (i : Inst) : i.exec.Keeps := by
  obtain ⟨name, action⟩ := i
  cases action with
  | alloca t =>
    simp only [Inst.exec]
    split
    · exact modifyKeeps _
    · exact throwKeeps _
  | load t src => exact askKeeps fun v => modifyKeeps _
  | store src dst => exact askKeeps fun _ => askKeeps fun v => modifyKeeps _
  | binary op x y =>
    simp only [Inst.exec]
    split
    · exact askKeeps fun l => askKeeps fun r => askKeeps fun v => modifyKeeps _
    · exact throwKeeps _
  | call ret signature f args =>
    simp only [Inst.exec]
    split
    · split
      · exact askKeeps fun v => modifyKeeps _
      · exact throwKeeps _
    · exact throwKeeps _
  | element => exact throwKeeps _

namespace Machine

theorem stepsThrough (names : List String) (n : Nat) (m : Machine) (first more : List Inst) :
    steps names n m (first ++ more) = match steps names n m first with
      | .ok mid => steps names (n + first.length) mid more
      | .error e => .error e := by
  induction first generalizing n m with
  | nil => rfl
  | cons i first ih =>
    simp only [List.cons_append, steps]
    cases i.exec m with
    | error t left => rfl
    | ok _ mid =>
      have count : n + (i :: first).length = n + 1 + first.length := by
        simp only [List.length_cons]
        omega
      simp only [count, ih]

/- Instructions either all run, or there is a first one that does not, and the machine is still what those before it
left. -/
theorem stepsEnd (names : List String) (n : Nat) (m : Machine) (l : List Inst) :
    (∃ m', steps names n m l = .ok m') ∨
      ∃ done i rest mid t, l = done ++ i :: rest ∧ steps names n m done = .ok mid ∧ i.exec mid = .error t mid := by
  induction l generalizing n m with
  | nil => exact .inl ⟨m, rfl⟩
  | cons i l ih =>
    cases here : i.exec m with
    | error t left =>
      obtain rfl := execKeeps i m t left here
      exact .inr ⟨[], i, l, left, t, rfl, rfl, here⟩
    | ok _ mid =>
      rcases ih (n + 1) mid with ⟨m', through⟩ | ⟨done, j, rest, last, t, rfl, before, stopped⟩
      · exact .inl ⟨m', by simp only [steps, here, through]⟩
      · exact .inr ⟨i :: done, j, rest, last, t, rfl, by simp only [steps, here, before], stopped⟩

theorem stepsStopped {names : List String} {n : Nat} {m mid : Machine} {done : List Inst} {i : Inst} {t : Trap}
    (before : steps names n m done = .ok mid) (stopped : i.exec mid = .error t mid) (rest : List Inst) :
    steps names n m (done ++ i :: rest) =
      .error (.trapped (n + done.length) i.text t (mid.observe names)) := by
  simp only [stepsThrough, before, steps, stopped]

end Machine

theorem startRefused {gs : List Global} {m : Machine} {names : List String} {e : RunError}
    (start : Machine.start m names gs = .error e) : ∃ global init, e = .initializer global init := by
  induction gs generalizing m names with
  | nil => cases start
  | cons g gs ih =>
    unfold Machine.start at start
    split at start
    · split at start
      · exact ih start
      · exact ih start
      · cases start
        exact ⟨_, _, rfl⟩
    · exact ih start

theorem runReturns {f : Func} {b : Block} (only : f.blocks = [b]) {v : Option Arg} (returns : b.term = .ret v) (m : Machine)
    (names : List String) : f.run m names = (Machine.steps names 0 m b.insts).map (·.observe names) := by
  simp only [Func.run, only, returns, bind, Except.bind]
  cases Machine.steps names 0 m b.insts <;> rfl

theorem runTrapped {f : Func} {m : Machine} {names : List String} {i : Nat} {text : String} {t : Trap} {reached : Result}
    (trapped : f.run m names = .error (.trapped i text t reached)) :
    ∃ b done inst rest mid, f.blocks = [b] ∧ b.insts = done ++ inst :: rest ∧ Machine.steps names 0 m done = .ok mid ∧
      inst.exec mid = .error t mid ∧ i = done.length ∧ text = inst.text ∧ reached = mid.observe names := by
  unfold Func.run at trapped
  split at trapped
  · rename_i b only
    rcases Machine.stepsEnd names 0 m b.insts with ⟨m', through⟩ | ⟨done, inst, rest, mid, u, split, before, stopped⟩
    · simp only [through, bind, Except.bind] at trapped
      split at trapped
      · cases trapped
      · cases trapped
    · have whole := Machine.stepsStopped before stopped rest
      rw [← split, Nat.zero_add] at whole
      simp only [whole, bind, Except.bind] at trapped
      cases trapped
      exact ⟨b, done, inst, rest, mid, only, split, before, stopped, rfl, rfl, rfl⟩
  · cases trapped

theorem runCut {f : Func} {b : Block} (only : f.blocks = [b]) (m : Machine) (names : List String) (n : Nat) :
    (f.cut n).run m names = (Machine.steps names 0 m (b.insts.take n)).map (·.observe names) := by
  have left : (f.cut n).blocks = [{ b with insts := b.insts.take n, term := .ret none }] := by
    simp only [Func.cut, only, List.map_cons, List.map_nil]
  exact runReturns left rfl m names

/- A main function that stops at instruction `i`: what is observed is all integer globals and the printed numbers as they
are if the function returns in the place of that instruction, and the function stops in the same way if it would return
right after it. -/
theorem trappedReaches {mod : Module} {i : Nat} {text : String} {t : Trap} {reached : Result}
    (trapped : mod.run = .error (.trapped i text t reached)) :
    (mod.cut i).run = .ok reached ∧
      reached.globals.map Prod.fst = (mod.globals.filter fun g => g.type.isInt).map Global.name ∧
      (mod.cut (i + 1)).run = .error (.trapped i text t reached) ∧
      ∃ f b inst, mod.main? = some f ∧ f.blocks = [b] ∧ b.insts[i]? = some inst ∧ inst.text = text := by
  cases start : Machine.start {} [] mod.globals with
  | error e =>
    obtain ⟨global, init, rfl⟩ := startRefused start
    simp only [Module.run, start, bind, Except.bind] at trapped
    cases trapped
  | ok started =>
    obtain ⟨m, names⟩ := started
    rw [runStarted start] at trapped
    cases main : mod.main? with
    | none => simp [main] at trapped
    | some f =>
      rw [main] at trapped
      obtain ⟨b, done, inst, rest, mid, only, split, before, stopped, rfl, rfl, rfl⟩ := runTrapped trapped
      have shorter : ∀ n, (mod.cut n).run = (Machine.steps names 0 m (b.insts.take n)).map (·.observe names) := by
        intro n
        have run := @runStarted (mod.cut n) m names start
        rw [mainCut, main] at run
        exact run.trans (runCut only m names n)
      have named := startNames start
      refine ⟨?_, ?_, ?_, f, b, inst, rfl, only, by simp [split], rfl⟩
      · rw [shorter, split, List.take_left, before]
        rfl
      · simp only [Machine.observe, List.map_map, named, List.nil_append]
        simp
      · have last : b.insts.take (done.length + 1) = done ++ inst :: [] := by
          rw [split, List.take_length_add_append]
          rfl
        rw [shorter, last, Machine.stepsStopped before stopped, Nat.zero_add]
        rfl

def dividing : Module where
  globals := [⟨".str", .array 6 (.int 8), some (.text "%lld")⟩, ⟨"mem", .int 64, some (.int 0)⟩, ⟨"limit", .int 64, some (.int 9)⟩]
  funcs := [
    ⟨"print", .void, [⟨.int 64, some "x"⟩], false, []⟩,
    ⟨"main", .void, [], false, [⟨some "0", [
      ⟨none, .store ⟨.int 64, .int 4⟩ ⟨.pointer (.int 64), .symbol "mem"⟩⟩,
      ⟨none, .call .void none ⟨.pointer (.func .void [.int 64] false), .symbol "print"⟩ [⟨.int 64, .int 3⟩]⟩,
      ⟨some "1", .binary .sdiv ⟨.int 64, .int 1⟩ (.int 0)⟩,
      ⟨none, .call .void none ⟨.pointer (.func .void [.int 64] false), .symbol "print"⟩ [⟨.int 64, .int 5⟩]⟩],
      .unreachable⟩]⟩]

theorem dividingReaches :
    dividing.run = .error (.trapped 2 "%1 = sdiv i64 1, 0" .divisionByZero ⟨[("mem", 4), ("limit", 9)], [3]⟩) ∧
      (dividing.cut 2).run = .ok ⟨[("mem", 4), ("limit", 9)], [3]⟩ := by
  have trapped : dividing.run =
      .error (.trapped 2 "%1 = sdiv i64 1, 0" .divisionByZero ⟨[("mem", 4), ("limit", 9)], [3]⟩) := rfl
  exact ⟨trapped, (trappedReaches trapped).1⟩

end Abacus.Assembly
