import Abacus.Pipeline
import Abacus.Proofs.Arena.Execution
import Abacus.Proofs.Assembly.Resolution

/-! Running a module that was read back: after each instruction the machine shows what running the values one after
another gives, and it traps where that stops. -/
namespace Abacus

open Assembly

structure Shows (vs : List Value) (m : Machine) (s : Direct) : Prop where
  printed : m.printed = s.printed
  cells : ∀ id name, behind vs id = some (.global name (.known .int)) →
    m.cells.lookup (.symbol name) = some (s.cells id)

structure Tracks (vs done : List Value) (m : Machine) (s : Direct) : Prop extends Shows vs m s where
  results : ∀ id, Scalar done id → m.value (operandAt vs id) = .ok (s.results id)

section Layout

variable {vs done todo : List Value} (laid : Laid vs) (split : vs = done ++ todo)
include laid split

theorem scalarOlder {id : Int} (scalar : Scalar done id) :
    (∃ z, operandAt vs id = .int z) ∨ ∃ k, k < fresh done ∧ operandAt vs id = .register (toString k) := by
  have older : Laid done := by
    intro before v after split'
    exact laid before v (after ++ todo) (by rw [split, split', List.append_assoc, List.cons_append])
  have scalar' := scalar
  obtain ⟨v, found, -⟩ := scalar'
  have same : operandAt vs id = operandAt done id := by
    rw [operandAt, operandAt, found, split, behindAppend found todo]
  rw [same]
  rcases scalarOperand older scalar with constant | ⟨before, w, after, split', -, named, register⟩
  · exact .inl constant
  · refine .inr ⟨fresh before, ?_, register⟩
    rw [split']
    simp [fresh, named]

omit split in
theorem globalUnique {i j : Int} {name : String} {t u : Coded Ty} (first : behind vs i = some (.global name t))
    (second : behind vs j = some (.global name u)) : i = j := by
  have apart : ∀ i j t u, behind vs i = some (.global name t) → behind vs j = some (.global name u) → ¬ i < j := by
    intro i j t u first second less
    obtain ⟨before, after, split', rfl⟩ := behindSplit second
    have bound := behindBound first
    have member : .global name t ∈ before := by
      rw [behind, if_neg (by omega), split', List.getElem?_append_left (by omega)] at first
      exact List.mem_of_getElem? first
    have fits := laid before _ after split'
    exact (fits.2.1 _ member).2 rfl
  have ij := apart i j t u first second
  have ji := apart j i u t second first
  omega

end Layout

section Step

variable {vs done todo : List Value} {v : Value} {m : Machine} {s : Direct} (laid : Laid vs)
  (split : vs = done ++ v :: todo) (tracks : Tracks vs done m s)
include laid split tracks

theorem resultTracks (named : v.isNamed = true) (x : Int64) :
    Tracks vs (done ++ [v]) (m.define (some (toString (fresh done))) x) (s.define done.length x) where
  printed := tracks.printed
  cells := tracks.cells
  results id scalar := by
    have fits := laid done v todo split
    rcases scalarSnoc scalar with old | ⟨rfl, -⟩
    · have bound := scalarBound old
      have kept : (s.define done.length x).results id = s.results id := Function.update_of_ne (by omega) ..
      have before := tracks.results id old
      rw [kept, ← before]
      rcases scalarOlder laid split old with ⟨z, constant⟩ | ⟨k, less, register⟩
      · rw [constant]
        rfl
      · have other : toString k ≠ toString (fresh done) := fun same => by
          have equal := Token.natInjective same
          omega
        rw [register]
        simp only [Machine.value, Machine.define, List.lookup_cons, beq_false_of_ne other]
    · have here : operandAt vs done.length = .register (toString (fresh done)) := by
        rw [operandAt, split, behindLast]
        exact namedOperand fits named
      rw [here]
      simp [Machine.value, Machine.define, Direct.define]

omit laid split in
theorem silentTracks {m' : Machine} {s' : Direct} (shows : Shows vs m' s') (silent : v.isScalar = false)
    (registers : m'.registers = m.registers) (results : s'.results = s.results) : Tracks vs (done ++ [v]) m' s' where
  toShows := shows
  results id scalar := by
    rcases scalarSnoc scalar with old | ⟨-, number⟩
    · have same : m'.value (operandAt vs id) = m.value (operandAt vs id) := by
        unfold Machine.value
        rw [registers]
      rw [same, results]
      exact tracks.results id old
    · simp [silent] at number

omit laid in
theorem quietTracks (quiet : v.isInstruction = false) :
    ∃ t, s.perform done.length v = some t ∧ Tracks vs (done ++ [v]) m t := by
  cases v with
  | load | store | alloca | binop | print => simp [Value.isInstruction] at quiet
  | global name type => exact ⟨s, rfl, silentTracks tracks tracks.toShows rfl rfl rfl⟩
  | const c =>
    refine ⟨_, rfl, ⟨tracks.printed, tracks.cells⟩, fun id scalar => ?_⟩
    rcases scalarSnoc scalar with old | ⟨rfl, -⟩
    · have bound := scalarBound old
      have kept : (s.define done.length c).results id = s.results id := Function.update_of_ne (by omega) ..
      rw [kept]
      exact tracks.results id old
    · have here : operandAt vs done.length = .int c.toInt := by
        rw [operandAt, split, behindLast]
        rfl
      rw [here]
      simp [Machine.value, Direct.define]

omit laid in
theorem cellRead {id : Int} (cell : Cell done id) :
    ∃ name, behind vs id = some (.global name (.known .int)) ∧ operandAt vs id = .symbol name ∧
      m.cells.lookup (.symbol name) = some (s.cells id) := by
  obtain ⟨name, found⟩ := cell
  have found' : behind vs id = some (.global name (.known .int)) := by
    rw [split]
    exact behindAppend found _
  refine ⟨name, found', ?_, tracks.cells id name found'⟩
  rw [operandAt, found']
  rfl

omit split in
theorem storeShows {dst : Int} {name : String} (target : behind vs dst = some (.global name (.known .int))) (x : Int64) :
    Shows vs (m.setCell (some (.symbol name)) x) { s with cells := Function.update s.cells dst x } where
  printed := tracks.printed
  cells id other found := by
    by_cases same : other = name
    · subst same
      have here := globalUnique laid found target
      subst here
      simp [Machine.setCell]
    · have apart : id ≠ dst := by
        rintro rfl
        rw [target] at found
        cases found
        exact same rfl
      have different : (Place.symbol other == Place.symbol name) = false := by simp [same]
      simp only [Machine.setCell, List.lookup_cons, different, Function.update_of_ne apart]
      exact tracks.cells id other found

end Step

inductive Steps (vs done : List Value) (s : Direct) : EStateM.Result Trap Machine Unit → Option Direct → Prop
  | next {m : Machine} {t : Direct} (tracks : Tracks vs done m t) : Steps vs done s (.ok () m) (some t)
  | trap {m : Machine} (shows : Shows vs m s) : Steps vs done s (.error .divisionByZero m) none

section Step

variable {vs done todo : List Value} {m : Machine} {s : Direct} (laid : Laid vs) (tracks : Tracks vs done m s)
include laid tracks

theorem loadSteps {name : String} {src : Handle} (split : vs = done ++ .load name src :: todo) :
    Steps vs (done ++ [.load name src]) s ((Value.inst (operandAt vs) (.load name src)).exec m)
      (s.perform done.length (.load name src)) := by
  obtain ⟨rfl, cell⟩ := laid done _ todo split
  obtain ⟨symbol, -, operand, content⟩ := cellRead split tracks cell
  have run : (Value.inst (operandAt vs) (.load (freshName done) src)).exec m =
      .ok () (m.define (some (toString (fresh done))) (s.cells src)) := by
    simp only [Inst.exec, Value.inst, Exec.bindAsk, Machine.cell, operand, Operand.place?, Option.bind_some, content,
      bareFresh, Exec.modifyRun]
  rw [run]
  exact .next (resultTracks laid split tracks rfl (s.cells src))

theorem storeSteps {src dst : Handle} (split : vs = done ++ .store src dst :: todo) :
    Steps vs (done ++ [.store src dst]) s ((Value.inst (operandAt vs) (.store src dst)).exec m)
      (s.perform done.length (.store src dst)) := by
  obtain ⟨scalar, cell⟩ := laid done _ todo split
  obtain ⟨symbol, target, operand, content⟩ := cellRead split tracks cell
  have value := tracks.results src scalar
  have run : (Value.inst (operandAt vs) (.store src dst)).exec m =
      .ok () (m.setCell (some (.symbol symbol)) (s.results src)) := by
    simp only [Inst.exec, Value.inst, Exec.bindAsk, Machine.cell, operand, Operand.place?, Option.bind_some, content, value,
      Exec.modifyRun]
  rw [run]
  exact .next (silentTracks tracks (storeShows laid tracks target _) rfl rfl rfl)

omit laid in
theorem allocaSteps (name : String) (type : Coded Ty) :
    Steps vs (done ++ [.alloca name type]) s ((Value.inst (operandAt vs) (.alloca name type)).exec m)
      (s.perform done.length (.alloca name type)) := by
  have shows : Shows vs (m.setCell (some (.register (bareName name))) 0) s := by
    refine ⟨tracks.printed, fun id other found => ?_⟩
    have different : (Place.symbol other == Place.register (bareName name)) = false := by simp
    simp only [Machine.setCell, List.lookup_cons, different]
    exact tracks.cells id other found
  exact .next (silentTracks tracks shows rfl rfl rfl)

theorem binopSteps {name : String} {op : Coded Oper} {l r : Handle} (split : vs = done ++ .binop name op l r :: todo) :
    Steps vs (done ++ [.binop name op l r]) s ((Value.inst (operandAt vs) (.binop name op l r)).exec m)
      (s.perform done.length (.binop name op l r)) := by
  obtain ⟨rfl, ⟨known, rfl⟩, left, right⟩ := laid done _ todo split
  have first := tracks.results l left
  have second := tracks.results r right
  have run : (Value.inst (operandAt vs) (.binop (freshName done) (.known known) l r)).exec m =
      match Machine.apply known.binary (s.results l) (s.results r) with
      | .ok x => .ok () (m.define (some (toString (fresh done))) x)
      | .error t => .error t m := by
    rw [← bareFresh]
    have arithmetic : Machine.isArithmetic known.binary = true := by cases known <;> rfl
    simp only [Inst.exec, Value.inst, arithmetic, if_true, Exec.bindAsk, first, second, mapErrorOk,
      Exec.modifyRun]
    cases Machine.apply known.binary (s.results l) (s.results r) <;> rfl
  have result := fun x => @Steps.next _ _ s _ _ (resultTracks laid split tracks rfl x)
  rw [run]
  cases known with
  | add | sub | mul => exact result _
  | div =>
    simp only [Oper.binary, Machine.apply, Direct.perform, Oper.apply]
    by_cases zero : s.results r = 0
    · rw [if_pos zero, if_pos zero]
      exact .trap tracks.toShows
    · rw [if_neg zero, if_neg zero]
      exact result _

theorem printSteps {x : Handle} (split : vs = done ++ .print x :: todo) :
    Steps vs (done ++ [.print x]) s ((Value.inst (operandAt vs) (.print x)).exec m) (s.perform done.length (.print x)) := by
  have value := tracks.results x (laid done _ todo split)
  have run : (Value.inst (operandAt vs) (.print x)).exec m =
      .ok () { m with printed := m.printed ++ [s.results x] } := by
    have callee : (printName == printName && Typ.isFuncPointer (.pointer (.func .void [i64] false))) = true := by decide
    simp only [Inst.exec, Value.inst, callee, if_true, Exec.bindAsk, value, Exec.modifyRun]
  have shows : Shows vs { m with printed := m.printed ++ [s.results x] } { s with printed := s.printed ++ [s.results x] } :=
    ⟨by simp [tracks.printed], tracks.cells⟩
  rw [run]
  exact .next (silentTracks tracks shows rfl rfl rfl)

theorem instSteps {v : Value} (split : vs = done ++ v :: todo) (code : v.isInstruction = true) :
    Steps vs (done ++ [v]) s ((v.inst (operandAt vs)).exec m) (s.perform done.length v) := by
  cases v with
  | global | const => simp [Value.isInstruction] at code
  | load name src => exact loadSteps laid tracks split
  | store src dst => exact storeSteps laid tracks split
  | alloca name type => exact allocaSteps tracks name type
  | binop name op l r => exact binopSteps laid tracks split
  | print x => exact printSteps laid tracks split

end Step

inductive Runs (vs : List Value) (names : List String) : Except RunError Machine → Except Direct Direct → Prop
  | done {m : Machine} {t : Direct} (shows : Shows vs m t) : Runs vs names (.ok m) (.ok t)
  | trapped {i : Nat} {text : String} {m : Machine} {t : Direct} (shows : Shows vs m t) :
    Runs vs names (.error (.trapped i text .divisionByZero (m.observe names))) (.error t)

theorem stepsRun {vs : List Value} (laid : Laid vs) (names : List String) {done todo : List Value}
    (split : vs = done ++ todo) (n : Nat) {m : Machine} {s : Direct} (tracks : Tracks vs done m s) :
    Runs vs names (Machine.steps names n m ((todo.filter Value.isInstruction).map (Value.inst (operandAt vs))))
      (s.performAll done.length todo) := by
  induction todo generalizing done n m s with
  | nil => exact .done tracks.toShows
  | cons v todo ih =>
    have rest := fun n m s => @ih _ (splitNext split) n m s
    rw [List.length_append, List.length_singleton] at rest
    rw [Direct.performAll]
    cases code : v.isInstruction with
    | false =>
      obtain ⟨t, quiet, tracks'⟩ := quietTracks split tracks code
      rw [List.filter_cons_of_neg (by simp [code]), quiet]
      exact rest n m t tracks'
    | true =>
      have outcome := instSteps laid tracks split code
      rw [List.filter_cons_of_pos code, List.map_cons, Machine.steps]
      generalize (v.inst (operandAt vs)).exec m = out at outcome ⊢
      generalize s.perform done.length v = next at outcome ⊢
      cases outcome with
      | next tracks' => exact rest (n + 1) _ _ tracks'
      | trap shows => exact .trapped shows

theorem globalsStart (l : List Value) (m : Machine) (names : List String) :
    ∃ m', Machine.start m names (l.map Value.asGlobal) = .ok (m', names ++ l.map Value.name) ∧
      m'.printed = m.printed ∧
        ∀ name, name ∈ l.map Value.name ∨ m.cells.lookup (.symbol name) = some 0 →
          m'.cells.lookup (.symbol name) = some 0 := by
  induction l generalizing m names with
  | nil => exact ⟨m, by simp [Machine.start], rfl, by simp⟩
  | cons v l ih =>
    obtain ⟨m', run, printed, cells⟩ := ih (m.setCell (some (.symbol v.name)) 0) (names ++ [v.name])
    refine ⟨m', ?_, printed, fun name known => cells name ?_⟩
    · have first : Machine.start m names (v.asGlobal :: l.map Value.asGlobal) =
          Machine.start (m.setCell (some (.symbol v.name)) 0) (names ++ [v.name]) (l.map Value.asGlobal) := rfl
      rw [List.map_cons, first, run]
      simp
    · by_cases same : name = v.name
      · right
        simp [Machine.setCell, same]
      · have different : (Place.symbol name == Place.symbol v.name) = false := by simp [same]
        rcases known with member | zero
        · left
          simpa [same] using member
        · right
          simpa only [Machine.setCell, List.lookup_cons, different] using zero

structure Reports (vs : List Value) (r : Result) (t : Direct) : Prop where
  printed : r.printed = t.printed
  globals : ∀ id name, behind vs id = some (.global name (.known .int)) → r.globals.lookup name = some (t.cells id)

inductive Finishes (vs : List Value) : Except RunError Result → Except Direct Direct → Prop
  | done {r : Result} {t : Direct} (reports : Reports vs r t) : Finishes vs (.ok r) (.ok t)
  | trapped {i : Nat} {text : String} {r : Result} {t : Direct} (reports : Reports vs r t) :
    Finishes vs (.error (.trapped i text .divisionByZero r)) (.error t)

theorem observeLookup {m : Machine} {names : List String} {name : String} (member : name ∈ names) :
    (m.observe names).globals.lookup name = some ((m.cells.lookup (.symbol name)).getD 0) := by
  simp only [Machine.observe]
  induction names with
  | nil => simp at member
  | cons other names ih =>
    by_cases same : name = other
    · simp [same]
    · have inside : name ∈ names := by simpa [same] using member
      simpa only [List.map_cons, List.lookup_cons, beq_false_of_ne same] using ih inside

theorem observeReports {vs : List Value} {m : Machine} {t : Direct} (shows : Shows vs m t) :
    Reports vs (m.observe ((vs.filter Value.isGlobal).map Value.name)) t where
  printed := shows.printed
  globals id name found := by
    obtain ⟨done, todo, split, -⟩ := behindSplit found
    have member : name ∈ (vs.filter Value.isGlobal).map Value.name :=
      List.mem_map.mpr ⟨.global name (.known .int), List.mem_filter.mpr ⟨by simp [split], rfl⟩, rfl⟩
    rw [observeLookup member, shows.cells id name found]
    rfl

theorem textRuns {read : Reader} (reads : ReadsBack read) {vs : List Value} (laid : Laid vs) :
    Finishes vs (runAssembly read (moduleText vs)) (({} : Direct).performAll 0 vs) := by
  obtain ⟨print, entry, reread⟩ := reads vs laid
  obtain ⟨m, start, printed, cells⟩ := globalsStart (vs.filter Value.isGlobal) {} []
  have tracks : Tracks vs [] m {} := by
    refine ⟨⟨printed, fun id name found => cells name (.inl ?_)⟩, fun id scalar => ?_⟩
    · obtain ⟨done, todo, split, -⟩ := behindSplit found
      exact List.mem_map.mpr ⟨.global name (.known .int), List.mem_filter.mpr ⟨by simp [split], rfl⟩, rfl⟩
    · obtain ⟨v, found, -⟩ := scalar
      simp [behind] at found
  have whole : vs = [] ++ vs := rfl
  have run := stepsRun laid ((vs.filter Value.isGlobal).map Value.name) whole 0 tracks
  have outcome : runAssembly read (moduleText vs) =
      (Machine.steps ((vs.filter Value.isGlobal).map Value.name) 0 m (codeInsts vs)).map
        (·.observe ((vs.filter Value.isGlobal).map Value.name)) := by
    have globals : Machine.start {} [] (readModule print entry vs).globals =
        .ok (m, (vs.filter Value.isGlobal).map Value.name) := start
    have main : (readModule print entry vs).funcs.reverse.find? (fun f => f.name == mainName) =
        some (mainFunc entry (codeInsts vs)) := rfl
    rw [runAssembly, reread]
    simp only [Module.run, globals, main, bind, Except.bind, Func.run, mainFunc]
    cases Machine.steps ((vs.filter Value.isGlobal).map Value.name) 0 m (codeInsts vs) <;> rfl
  rw [outcome]
  rw [← codeInsts, List.length_nil] at run
  generalize ({} : Direct).performAll 0 vs = direct at run ⊢
  generalize Machine.steps ((vs.filter Value.isGlobal).map Value.name) 0 m (codeInsts vs) = out at run ⊢
  cases run with
  | done shows => exact .done (observeReports shows)
  | trapped shows => exact .trapped (observeReports shows)

end Abacus
