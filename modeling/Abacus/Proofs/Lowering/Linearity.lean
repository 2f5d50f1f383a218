import Abacus.Proofs.Lowering.Interruption

/-! What lowering a well-formed program leaves in a new arena: no cell but the memory, results that are numbered without a
gap, and loads and operations that are used once each, within their statement. -/
namespace Abacus

open Arena (numberName)

namespace Arena

def operandsAt (a : Arena) (id : Int) : List Int :=
  match a.slot? id with
  | some (.value v) => v.operands
  | _ => []

def codeUses (a : Arena) : List Int := a.code.toList.flatMap a.operandsAt

end Arena

/- From some arena on, the two handles are given out while one of the statements is lowered, `id` before `user`. -/
def WithinStmt (a : Arena) (l : List Stmt) (id user : Int) : Prop :=
  ∃ done s todo before after, l = done ++ s :: todo ∧ lowerStmts done a = .ok () before ∧
    s.lower before = .ok () after ∧ before.values.size ≤ id ∧ id < user ∧ user < after.values.size

theorem holdsSize {a : Arena} {vs : List Value} (holds : a.Holds vs) : a.values.size = vs.length := by
  simpa using congrArg List.length holds.values

theorem userFound {vs new : List Value} (laid : Laid (vs ++ new)) {id : Int} (member : id ∈ uses new) :
    ∃ user w, behind (vs ++ new) user = some w ∧ id ∈ w.operands ∧ id < user ∧ user < (vs ++ new).length := by
  obtain ⟨w, inside, operand⟩ := List.mem_flatMap.mp member
  obtain ⟨done, todo, rfl⟩ := List.append_of_mem inside
  have split : vs ++ (done ++ w :: todo) = (vs ++ done) ++ w :: todo := (List.append_assoc ..).symm
  obtain ⟨v, found, -⟩ := fitsUsable (laid _ w todo split) id operand
  have bound := behindBound found
  refine ⟨(vs ++ done).length, w, by rw [split, behindLast], operand, bound.2, ?_⟩
  rw [split, @List.length_append _ (vs ++ done), List.length_cons]
  omega

theorem stmtsLinked {l : List Stmt} (formed : ∀ s ∈ l, s.WellFormed) {a : Arena} {vs : List Value} (holds : a.Holds vs)
    (started : 0 < vs.length) :
    ∃ a' new, lowerStmts l a = .ok () a' ∧ a'.Holds (vs ++ new) ∧ Linear vs.length new ∧
      ∀ id, numberAt vs.length new id = true →
        ∃ user w, behind (vs ++ new) user = some w ∧ id ∈ w.operands ∧ WithinStmt a l id user := by
  induction l generalizing a vs with
  | nil =>
    refine ⟨a, [], rfl, by rwa [List.append_nil], linearNil _, fun id number => ?_⟩
    simp [numberAt, behind] at number
  | cons s l ih =>
    obtain ⟨_, b, new, run, holds', appends⟩ := grownThrough (stmtGrown s holds) (formed s (by simp))
    have first := stmtAppendsLinear appends
    obtain ⟨a', more, run', holds'', second, linked⟩ := ih (fun s member => formed s (by simp [member])) holds'
      (by rw [List.length_append]; omega)
    rw [List.length_append] at second linked
    refine ⟨a', new ++ more, by rw [lowerStmts, Build.bindOk run, run'], by rwa [← List.append_assoc],
      linearAppend first second, fun id number => ?_⟩
    rw [numberAtAppend, Bool.or_eq_true] at number
    rcases number with here | later
    -- A number of the first statement is used in it, since it is used at all and no other statement uses it.
    · have bound := numberAtBound here
      have once := first.once id (by omega)
      have member : id ∈ uses new := List.count_pos_iff.mp (by rw [once, if_pos here]; omega)
      obtain ⟨user, w, found, operand, before, inside⟩ := userFound holds'.laid member
      refine ⟨user, w, by rw [← List.append_assoc, behindAppend found], operand, [], s, l, a, b, rfl, rfl, run, ?_,
        before, ?_⟩
      · rw [holdsSize holds]
        exact bound.1
      · rwa [holdsSize holds']
    · obtain ⟨user, w, found, operand, done, t, todo, before, after, rfl, runDone, rest⟩ := linked id later
      refine ⟨user, w, by rwa [← List.append_assoc], operand, s :: done, t, todo, before, after, rfl, ?_, rest⟩
      rw [lowerStmts, Build.bindOk run, runDone]

theorem holdsUsed {a : Arena} {vs : List Value} (holds : a.Holds vs) : a.codeUses = uses vs := by
  rw [Arena.codeUses, holds.code]
  refine codeCollected holds.values (fun id v found code => ?_) (fun v value => ?_) (List.append_nil vs).symm
  · rw [Arena.operandsAt, found]
  · cases v <;> first | rfl | simp [Value.isInstruction] at value

theorem memoryOnly {new : List Value} (memory : ∀ v ∈ new, v.onMemory = true) (i : Nat) :
    handles Value.isGlobal i new = [] := by
  induction new generalizing i with
  | nil => rfl
  | cons v new ih =>
    have plain : v.isGlobal = false := by
      have here := memory v (by simp)
      cases v <;> first | rfl | simp [Value.onMemory] at here
    rw [handles, if_neg (by simp [plain])]
    exact ih (fun v member => memory v (by simp [member])) (i + 1)

theorem newFound {a : Arena} {new : List Value} (holds : a.Holds (memory :: new)) {id : Int} {v : Value}
    (found : a.slot? id = some (.value v)) : v = memory ∨ v ∈ new ∧ behind new (id - 1) = some v := by
  have here : behind (memory :: new) id = some v := by simpa [Arena.slotBehind holds.values] using found
  obtain ⟨done, todo, split, rfl⟩ := behindSplit here
  cases done with
  | nil =>
    cases split
    exact .inl rfl
  | cons w done =>
    rw [List.cons_append] at split
    obtain ⟨rfl, rfl⟩ := List.cons.inj split
    have shift : ((memory :: done).length : Int) - 1 = done.length := by simp
    exact .inr ⟨by simp, by rw [shift, behindLast]⟩

theorem namedScalar {v : Value} (named : v.isNamed = true) (memory : v.onMemory = true) : v.isScalar = true := by
  cases v with
  | load | binop => rfl
  | global | const | store | print => simp [Value.isNamed] at named
  | alloca => simp [Value.onMemory] at memory

theorem operandsCode {v : Value} {id : Int} (operand : id ∈ v.operands) : v.isInstruction = true := by
  cases v <;> first | rfl | simp [Value.operands] at operand

theorem behindRecorded {a : Arena} {vs : List Value} (holds : a.Holds vs) {id : Int} {v : Value}
    (found : behind vs id = some v) (code : v.isInstruction = true) : id ∈ a.code.toList := by
  obtain ⟨done, todo, rfl, rfl⟩ := behindSplit found
  rw [holds.code]
  have front := handlesPrefix Value.isInstruction 0 (done ++ [v]) todo
  rw [handlesSnoc, if_pos code, Nat.zero_add, List.append_assoc] at front
  exact front.subset (by simp)

theorem loweredLinear {p : Program} (formed : p.WellFormed) :
    ∃ a, p.lower Arena.new = .ok () a ∧ a.mem = .ok (0 : Int) ∧ a.globals.toList = [(0 : Int)] ∧
      (∀ id name src, a.slot? id = some (.value (.load name src)) → src = (0 : Int)) ∧
      (∀ id src dst, a.slot? id = some (.value (.store src dst)) → dst = (0 : Int)) ∧
      (∀ id name type, a.slot? id ≠ some (.value (.alloca name type))) ∧
      (∃ k, a.resultNames = (List.range' 1 k).map numberName) ∧
      ∀ id ∈ a.code.toList, ∀ v, a.slot? id = some (.value v) → v.isNamed = true →
        a.codeUses.count id = 1 ∧
          ∃ user ∈ a.code.toList, id ∈ a.operandsAt user ∧ WithinStmt Arena.new p.stmts id user := by
  obtain ⟨a, new, run, holds, linear, linked⟩ := stmtsLinked formed newHolds (by simp)
  have inMemory : ∀ id v, a.slot? id = some (.value v) → v = memory ∨ v.onMemory = true := fun id v found =>
    (newFound holds found).imp_right fun inside => linear.memory v inside.1
  refine ⟨a, run, ?_, ?_, ?_, ?_, ?_, ⟨_, holdsNames holds⟩, ?_⟩
  · simp [Arena.mem, Arena.global, holds.registry, memory, registered]
  · rw [holds.globals, List.singleton_append, handles, memoryOnly linear.memory]
    rfl
  · intro id name src found
    simpa [memory, Value.onMemory] using inMemory id _ found
  · intro id src dst found
    simpa [memory, Value.onMemory] using inMemory id _ found
  · intro id name type found
    simpa [memory, Value.onMemory] using inMemory id _ found
  · intro id member v found named
    have number : numberAt 1 new id = true := by
      rcases newFound holds found with rfl | ⟨inside, here⟩
      · simp [memory, Value.isNamed] at named
      · have shift : behind new (id - (1 : Nat)) = some v := here
        rw [numberAt, shift]
        exact namedScalar named (linear.memory v inside)
    have positive := (numberAtBound number).1
    constructor
    · have zero : uses [memory] = [] := rfl
      rw [holdsUsed holds, usesAppend, zero, List.nil_append, linear.once id (by omega)]
      exact if_pos number
    · obtain ⟨user, w, behindUser, operand, within⟩ := linked id number
      refine ⟨user, behindRecorded holds behindUser (operandsCode operand), ?_, within⟩
      rw [Arena.operandsAt, Arena.slotBehind holds.values, behindUser]
      exact operand

def negatedSum : Program where
  span := ⟨0, 22⟩
  stmts := [.assign ⟨0, 11⟩ (.binary ⟨0, 10⟩ (.known .add) (.mem ⟨0, 3⟩)
      (.signed ⟨4, 10⟩ (.known .minus) (.paren ⟨5, 10⟩ (.mem ⟨6, 9⟩)))), .print ⟨12, 22⟩ (.mem ⟨18, 21⟩)]

def negatedSumArena : Arena where
  values := #[.value memory, .value (.load "%1" 0), .value (.load "%2" 0), .value (.const 0),
    .value (.binop "%3" (.known .sub) 3 2), .value (.binop "%4" (.known .add) 1 4), .value (.store 5 0),
    .value (.load "%5" 0), .value (.print 7)]
  code := #[1, 2, 4, 5, 6, 7, 8]
  globals := #[0]
  registry := [("mem", 0)]
  next := 6
  closed := true

theorem negatedSumLinear :
    negatedSum.WellFormed ∧ negatedSum.lower Arena.new = .ok () negatedSumArena ∧
      (∃ k, negatedSumArena.resultNames = (List.range' 1 k).map numberName) ∧ negatedSumArena.codeUses.count 2 = 1 ∧
        ∃ user ∈ negatedSumArena.code.toList, 2 ∈ negatedSumArena.operandsAt user ∧
          WithinStmt Arena.new negatedSum.stmts 2 user := by
  have formed : negatedSum.WellFormed := by
    simp [negatedSum, Program.WellFormed, Stmt.WellFormed, Expr.WellFormed]
  have reached : negatedSum.lower.reached Arena.new = negatedSumArena := by decide +kernel
  obtain ⟨a, run, -, -, -, -, -, names, linear⟩ := loweredLinear formed
  obtain rfl : negatedSumArena = a := reached.symm.trans (Build.reachedOk run)
  exact ⟨formed, run, names, linear 2 (by decide) (.load "%2" 0) rfl rfl⟩

end Abacus
