import Abacus.Proofs.Assembly.Rereading

/-! The names of a module that was read back. Registers are numbered as they were named, every name is defined once, and
every operand already has the type of its definition. -/
namespace Abacus

open Assembly

theorem mapMSame {α : Type} {f : α → Option α} {l : List α} (same : ∀ x ∈ l, f x = some x) : l.mapM f = some l := by
  induction l with
  | nil => rfl
  | cons x l ih => simp [same x (by simp), ih fun y member => same y (by simp [member])]

theorem namedOperand {done : List Value} {v : Value} (fits : Fits done v) (named : v.isNamed = true) :
    v.operand = .register (toString (fresh done)) := by
  cases v with
  | global | const | store | print => simp [Value.isNamed] at named
  | load | alloca | binop =>
    obtain ⟨rfl, -⟩ := fits
    exact congrArg Operand.register (bareFresh done)

section Operands

variable {vs : List Value} (laid : Laid vs)
include laid

theorem scalarOperand {id : Int} (scalar : Scalar vs id) :
    (∃ z, operandAt vs id = .int z) ∨
      ∃ done v todo, vs = done ++ v :: todo ∧ v.isScalar = true ∧ v.isNamed = true ∧
        operandAt vs id = .register (toString (fresh done)) := by
  obtain ⟨v, found, number⟩ := scalar
  obtain ⟨done, todo, split, -⟩ := behindSplit found
  have fits := laid done v todo split
  rw [operandAt, found]
  cases named : v.isNamed with
  | true => exact .inr ⟨done, v, todo, split, number, named, namedOperand fits named⟩
  | false =>
    cases v with
    | const v => exact .inl ⟨_, rfl⟩
    | global | load | store | alloca | binop | print => simp [Value.isScalar, Value.isNamed] at number named

theorem scalarNumber {id : Int} (scalar : Scalar vs id) : (operandAt vs id).Number := by
  rcases scalarOperand laid scalar with constant | ⟨done, v, todo, -, -, -, register⟩
  · exact .inl constant
  · exact .inr ⟨_, register⟩

omit laid in
theorem cellOperand {id : Int} (cell : Cell vs id) :
    ∃ name, .global name (.known .int) ∈ vs ∧ operandAt vs id = .symbol name := by
  obtain ⟨name, found⟩ := cell
  obtain ⟨done, todo, split, -⟩ := behindSplit found
  exact ⟨name, by simp [split], by rw [operandAt, found]; rfl⟩

theorem fitsTakes {done todo : List Value} {v : Value} (split : vs = done ++ v :: todo) (code : v.isInstruction = true) :
    v.Takes (operandAt vs) := by
  have fits := laid done v todo split
  have number : ∀ id, Scalar done id → (operandAt vs id).Number := fun id scalar =>
    scalarNumber laid (split ▸ scalarAppend scalar _)
  have address : ∀ id, Cell done id → ∃ name, operandAt vs id = .symbol name := fun id cell =>
    (cellOperand (split ▸ cellAppend cell _)).imp fun _ h => h.2
  cases v with
  | global | const => simp [Value.isInstruction] at code
  | load name src => exact address src fits.2
  | store src dst => exact ⟨number src fits.1, address dst fits.2⟩
  | alloca name type => exact trivial
  | binop name op l r => exact ⟨fits.2.1, number l fits.2.2.1, number r fits.2.2.2⟩
  | print x => exact number x fits

end Operands

namespace Assembly.Naming

theorem registerFresh (n : Nat) : register n (some (toString n)) = some (toString n, n + 1) := by
  simp [register, Token.digitsNumber]

theorem unnamedVoid {v : Value} (code : v.isInstruction = true) (unnamed : v.isNamed = false) (o : Int → Operand) :
    (v.inst o).action.type.isVoid = true ∧ (v.inst o).name = none := by
  cases v with
  | global | const => simp [Value.isInstruction] at code
  | load | alloca | binop => simp [Value.isNamed] at unnamed
  | store | print => exact ⟨rfl, rfl⟩

theorem namedResult {done : List Value} {v : Value} (fits : Fits done v) (named : v.isNamed = true) (o : Int → Operand) :
    (v.inst o).action.type.isVoid = false ∧ (v.inst o).name = some (toString (fresh done)) := by
  cases v with
  | global | const | store | print => simp [Value.isNamed] at named
  | load name src =>
    obtain ⟨rfl, -⟩ := fits
    exact ⟨rfl, congrArg some (bareFresh done)⟩
  | alloca name type =>
    obtain ⟨rfl, -⟩ := fits
    exact ⟨rfl, congrArg some (bareFresh done)⟩
  | binop name op l r =>
    obtain ⟨rfl, ⟨known, rfl⟩, -⟩ := fits
    exact ⟨rfl, congrArg some (bareFresh done)⟩

theorem namedCode {v : Value} (named : v.isNamed = true) : v.isInstruction = true := by
  cases v <;> simp [Value.isNamed, Value.isInstruction] at named ⊢

theorem instsNumbered {vs : List Value} (laid : Laid vs) (o : Int → Operand) {done todo : List Value}
    (split : vs = done ++ todo) :
    insts (fresh done) ((todo.filter Value.isInstruction).map (Value.inst o)) =
      some ((todo.filter Value.isInstruction).map (Value.inst o), fresh vs) := by
  induction todo generalizing done with
  | nil => simp [insts, split]
  | cons v todo ih =>
    have rest := ih (splitNext split)
    have fits := laid done v todo split
    cases named : v.isNamed with
    | true =>
      have next : fresh (done ++ [v]) = fresh done + 1 := by simp [fresh, named]
      obtain ⟨result, name⟩ := namedResult fits named o
      rw [next] at rest
      rw [List.filter_cons_of_pos (namedCode named), List.map_cons, insts, result, name, registerFresh]
      simp only [Bool.false_eq_true, if_false, bind, Option.bind, rest]
      rw [← name]
      rfl
    | false =>
      have next : fresh (done ++ [v]) = fresh done := by simp [fresh, named]
      rw [next] at rest
      cases code : v.isInstruction with
      | false => simpa [code] using rest
      | true =>
        have void := (unnamedVoid code named o).1
        rw [List.filter_cons_of_pos code, List.map_cons, insts, if_pos void]
        simp only [bind, Option.bind, rest]
        rfl

def results (is : List Inst) : Names := is.filterMap fun i => i.name.map (·, i.action.type)

theorem resultsNumbered {vs : List Value} (laid : Laid vs) (o : Int → Operand) {done todo : List Value}
    (split : vs = done ++ todo) :
    ((results ((todo.filter Value.isInstruction).map (Value.inst o))).map Prod.fst).Nodup ∧
      ∀ p ∈ results ((todo.filter Value.isInstruction).map (Value.inst o)), ∃ k, fresh done ≤ k ∧ p.1 = toString k := by
  induction todo generalizing done with
  | nil => simp [results]
  | cons v todo ih =>
    obtain ⟨once, later⟩ := ih (splitNext split)
    have fits := laid done v todo split
    cases named : v.isNamed with
    | true =>
      have next : fresh (done ++ [v]) = fresh done + 1 := by simp [fresh, named]
      obtain ⟨-, name⟩ := namedResult fits named o
      have first : results (((v :: todo).filter Value.isInstruction).map (Value.inst o)) =
          (toString (fresh done), (v.inst o).action.type) ::
            results ((todo.filter Value.isInstruction).map (Value.inst o)) := by
        simp [results, List.filter_cons_of_pos (namedCode named), name]
      rw [next] at later
      rw [first, List.map_cons, List.nodup_cons]
      refine ⟨⟨?_, once⟩, ?_⟩
      · intro member
        obtain ⟨p, inside, same⟩ := List.mem_map.mp member
        obtain ⟨k, bound, number⟩ := later p inside
        have equal := Token.natInjective (number.symm.trans same)
        omega
      · intro p member
        rcases List.mem_cons.mp member with rfl | inside
        · exact ⟨fresh done, Nat.le_refl _, rfl⟩
        · obtain ⟨k, bound, number⟩ := later p inside
          exact ⟨k, by omega, number⟩
    | false =>
      have next : fresh (done ++ [v]) = fresh done := by simp [fresh, named]
      have skip : results (((v :: todo).filter Value.isInstruction).map (Value.inst o)) =
          results ((todo.filter Value.isInstruction).map (Value.inst o)) := by
        cases code : v.isInstruction with
        | false => simp [code]
        | true => simp [results, code, (unnamedVoid code named o).2]
      rw [next] at later
      rw [skip]
      exact ⟨once, later⟩

structure Knows (symbols registers : Names) (vs : List Value) : Prop where
  print : symbols.lookup printName = some (.pointer (.func .void [i64] false))
  cells : ∀ name, .global name (.known .int) ∈ vs → symbols.lookup name = some (.pointer i64)
  numbers : ∀ done v todo, vs = done ++ v :: todo → v.isScalar = true → v.isNamed = true →
    registers.lookup (toString (fresh done)) = some i64

section Known

variable {symbols registers : Names} {vs : List Value} (laid : Laid vs) (knows : Knows symbols registers vs)
include laid knows

theorem numberKept {id : Int} (scalar : Scalar vs id) :
    arg symbols registers ⟨i64, operandAt vs id⟩ = some ⟨i64, operandAt vs id⟩ ∧
      operand symbols registers (operandAt vs id) = some (operandAt vs id) := by
  rcases scalarOperand laid scalar with ⟨z, constant⟩ | ⟨done, v, todo, split, number, named, register⟩
  · rw [constant]
    exact ⟨rfl, rfl⟩
  · have type := knows.numbers done v todo split number named
    rw [register]
    exact ⟨by simp only [arg, type, Option.map_some], by simp only [operand, arg, type, Option.map_some]⟩

omit laid in
theorem addressKept {id : Int} (cell : Cell vs id) :
    arg symbols registers ⟨.pointer i64, operandAt vs id⟩ = some ⟨.pointer i64, operandAt vs id⟩ := by
  obtain ⟨name, member, symbol⟩ := cellOperand cell
  rw [symbol]
  simp [arg, knows.cells name member]

theorem actionKept {done todo : List Value} {v : Value} (split : vs = done ++ v :: todo) (code : v.isInstruction = true) :
    action symbols registers (v.inst (operandAt vs)).action = some (v.inst (operandAt vs)).action := by
  have fits := laid done v todo split
  have number := fun id (scalar : Scalar done id) => numberKept laid knows (split ▸ scalarAppend scalar (v :: todo))
  have address := fun id (cell : Cell done id) => addressKept knows (split ▸ cellAppend cell (v :: todo))
  cases v with
  | global | const => simp [Value.isInstruction] at code
  | load name src => simp [Value.inst, action, address src fits.2]
  | store src dst => simp [Value.inst, action, (number src fits.1).1, address dst fits.2]
  | alloca name type => rfl
  | binop name op l r =>
    obtain ⟨-, ⟨known, rfl⟩, left, right⟩ := fits
    simp [Value.inst, action, (number l left).1, (number r right).2]
  | print x =>
    have callee : arg symbols registers ⟨.pointer (.func .void [i64] false), .symbol printName⟩ =
        some ⟨.pointer (.func .void [i64] false), .symbol printName⟩ := by simp [arg, knows.print]
    simp [Value.inst, action, callee, (number x fits).1]

theorem blockKept (entry : Option String) :
    block symbols registers ⟨entry, codeInsts vs, .ret none⟩ = some ⟨entry, codeInsts vs, .ret none⟩ := by
  have each : ∀ i ∈ codeInsts vs,
      (do return { i with action := ← action symbols registers i.action } : Option Inst) = some i := by
    intro i member
    obtain ⟨v, inside, rfl⟩ := List.mem_map.mp member
    obtain ⟨inside, code⟩ := List.mem_filter.mp inside
    obtain ⟨done, todo, split⟩ := List.append_of_mem inside
    rw [actionKept laid knows split code]
    rfl
  rw [block, mapMSame each]
  rfl

end Known

theorem mainNumbered {vs : List Value} (laid : Laid vs) :
    func (mainFunc none (codeInsts vs)) = some (mainFunc (some "0") (codeInsts vs)) := by
  have numbered := instsNumbered laid (operandAt vs) (show vs = [] ++ vs from rfl)
  have start : fresh [] = 1 := rfl
  rw [start] at numbered
  simp [func, mainFunc, params, blocks, register, codeInsts, numbered]
  rfl

theorem mainRegisters (code : List Inst) (entry : String) :
    (mainFunc (some entry) code).registers = (entry, .label) :: results code := by
  simp [Func.registers, mainFunc, results]

theorem mainOnce {vs : List Value} (laid : Laid vs) :
    (((mainFunc (some "0") (codeInsts vs)).registers).map Prod.fst).Nodup := by
  obtain ⟨once, later⟩ := resultsNumbered laid (operandAt vs) (show vs = [] ++ vs from rfl)
  rw [mainRegisters, List.map_cons, List.nodup_cons]
  refine ⟨?_, once⟩
  intro member
  obtain ⟨p, inside, same⟩ := List.mem_map.mp member
  obtain ⟨k, bound, number⟩ := later p inside
  have zero : toString k = toString 0 := number.symm.trans same
  have equal := Token.natInjective zero
  simp [fresh] at bound
  omega

theorem mainNumbers {vs : List Value} (laid : Laid vs) {done todo : List Value} {v : Value} (split : vs = done ++ v :: todo)
    (number : v.isScalar = true) (named : v.isNamed = true) :
    (mainFunc (some "0") (codeInsts vs)).registers.lookup (toString (fresh done)) = some i64 := by
  have fits := laid done v todo split
  have inside : v ∈ vs.filter Value.isInstruction := List.mem_filter.mpr ⟨by simp [split], namedCode named⟩
  have type : (v.inst (operandAt vs)).action.type = i64 := by
    cases v with
    | global | const | store | alloca | print => simp [Value.isScalar, Value.isNamed] at number named
    | load name src => rfl
    | binop name op l r =>
      obtain ⟨-, ⟨known, rfl⟩, -⟩ := fits
      rfl
  apply lookupMember (mainOnce laid)
  rw [mainRegisters]
  refine List.mem_cons_of_mem _ (List.mem_filterMap.mpr ⟨_, List.mem_map_of_mem inside, ?_⟩)
  simp [(namedResult fits named _).2, type]

theorem mainResolved {symbols : Names} {vs : List Value} (laid : Laid vs)
    (print : symbols.lookup printName = some (.pointer (.func .void [i64] false)))
    (cells : ∀ name, .global name (.known .int) ∈ vs → symbols.lookup name = some (.pointer i64)) :
    resolved symbols (mainFunc none (codeInsts vs)) = some (mainFunc (some "0") (codeInsts vs)) := by
  have knows : Knows symbols (mainFunc (some "0") (codeInsts vs)).registers vs :=
    ⟨print, cells, fun done v todo split number named => mainNumbers laid split number named⟩
  have kept := blockKept laid knows (some "0")
  rw [resolved, mainNumbered laid]
  simp only [bind, Option.bind, if_pos (mainOnce laid)]
  simp only [mainFunc] at kept ⊢
  simp [kept]

theorem printfResolved (symbols : Names) : resolved symbols printfFunc = some printfFunc := rfl

theorem printResolved {symbols : Names} {a b : Typ} (format : symbols.lookup ".str" = some a)
    (printf : symbols.lookup "printf" = some b) :
    ∃ f, resolved symbols printFunc = some f := by
  have numbered : func printFunc = some printFunc := by rfl
  have once : (printFunc.registers.map Prod.fst).Nodup := by decide
  have registers : printFunc.registers.lookup "fmt" = some (.pointer (.int 8)) ∧
      printFunc.registers.lookup "x" = some i64 := ⟨rfl, rfl⟩
  have body : ∃ b, block symbols printFunc.registers ⟨some "entry", printInsts, .ret none⟩ = some b := by
    simp [block, printInsts, action, arg, format, printf, registers, term]
  obtain ⟨b, body⟩ := body
  refine ⟨{ printFunc with blocks := [b] }, ?_⟩
  rw [resolved, numbered]
  simp only [bind, Option.bind, if_pos once]
  generalize printFunc.registers = names at body ⊢
  simp [printFunc, body]

end Assembly.Naming

theorem globalsOnce {vs : List Value} (laid : Laid vs) {done todo : List Value} (split : vs = done ++ todo) :
    ((todo.filter Value.isGlobal).map Value.name).Nodup ∧
      ∀ v ∈ todo.filter Value.isGlobal, v.name ∉ takenSymbols ∧ ∀ w ∈ done, w.name ≠ v.name := by
  induction todo generalizing done with
  | nil => simp
  | cons v todo ih =>
    obtain ⟨once, later⟩ := ih (splitNext split)
    cases symbol : v.isGlobal with
    | false =>
      rw [List.filter_cons_of_neg (by simp [symbol])]
      exact ⟨once, fun w member => ⟨(later w member).1, fun x before => (later w member).2 x (by simp [before])⟩⟩
    | true =>
      have fits := laid done v todo split
      have here : v.name ∉ takenSymbols ∧ ∀ w ∈ done, w.name ≠ v.name := by
        cases v with
        | global name type => exact ⟨fits.2.2.2, fun w member => (fits.2.1 w member).2⟩
        | const | load | store | alloca | binop | print => simp [Value.isGlobal] at symbol
      rw [List.filter_cons_of_pos symbol, List.map_cons, List.nodup_cons]
      refine ⟨⟨?_, once⟩, ?_⟩
      · intro member
        obtain ⟨w, inside, same⟩ := List.mem_map.mp member
        exact (later w inside).2 v (by simp) same.symm
      · intro w member
        rcases List.mem_cons.mp member with rfl | inside
        · exact here
        · exact ⟨(later w inside).1, fun x before => (later w inside).2 x (by simp [before])⟩

theorem symbolsRead (entry : Option String) (vs : List Value) :
    (readModule printFunc entry vs).symbols = (".str", .pointer (.array 6 (.int 8))) ::
      ((vs.filter Value.isGlobal).map (fun v => (v.name, .pointer i64)) ++
        [("printf", .pointer (.func (.int 32) [.pointer (.int 8)] true)), (printName, .pointer (.func .void [i64] false)),
          (mainName, .pointer (.func .void [] false))]) := by
  simp [Module.symbols, readModule, formatGlobal, printfFunc, printFunc, mainFunc, Value.asGlobal]

theorem symbolsOnce {vs : List Value} (laid : Laid vs) (entry : Option String) :
    ((readModule printFunc entry vs).symbols.map Prod.fst).Nodup := by
  obtain ⟨once, apart⟩ := globalsOnce laid (show vs = [] ++ vs from rfl)
  have names : (readModule printFunc entry vs).symbols.map Prod.fst =
      ".str" :: ((vs.filter Value.isGlobal).map Value.name ++ ["printf", printName, mainName]) := by
    simp [symbolsRead, Function.comp_def]
  have absent : ∀ name ∈ takenSymbols, name ∉ (vs.filter Value.isGlobal).map Value.name := by
    intro name taken member
    obtain ⟨v, inside, rfl⟩ := List.mem_map.mp member
    exact (apart v inside).1 taken
  rw [names, List.nodup_cons, List.nodup_append]
  refine ⟨?_, once, by decide, ?_⟩
  · intro member
    rcases List.mem_append.mp member with inside | last
    · exact absent ".str" (by decide) inside
    · revert last
      decide
  · intro name inside other last
    rintro rfl
    exact absent name (List.mem_cons_of_mem _ last) inside

/- What is asked of a reader: the text of laid out values is read as the module that the text denotes. Neither the function
that prints nor the name of the block in main is ever looked at. -/
def ReadsBack (read : String → Option Module) : Prop :=
  ∀ vs, Laid vs → ∃ print entry, read (moduleText vs) = some (readModule print entry vs)

theorem moduleReread : ReadsBack Module.ofText? := by
  intro vs laid
  have takes : ∀ v ∈ vs.filter Value.isInstruction, v.Takes (operandAt vs) := by
    intro v member
    obtain ⟨inside, code⟩ := List.mem_filter.mp member
    obtain ⟨done, todo, split⟩ := List.append_of_mem inside
    exact fitsTakes laid split code
  have once := symbolsOnce laid none
  have known : ∀ name type, (name, type) ∈ (readModule printFunc none vs).symbols →
      (readModule printFunc none vs).symbols.lookup name = some type := fun name type => lookupMember once
  have cells : ∀ name, .global name (.known .int) ∈ vs →
      (readModule printFunc none vs).symbols.lookup name = some (.pointer i64) := by
    intro name member
    apply known
    have inside := List.mem_filter.mpr ⟨member, show Value.isGlobal (.global name (.known .int)) = true from rfl⟩
    rw [symbolsRead]
    exact List.mem_cons_of_mem _ (List.mem_append_left _ (List.mem_map.mpr ⟨_, inside, rfl⟩))
  have format := known ".str" (.pointer (.array 6 (.int 8))) (by simp [symbolsRead])
  have printf := known "printf" (.pointer (.func (.int 32) [.pointer (.int 8)] true)) (by simp [symbolsRead])
  have call := known printName (.pointer (.func .void [i64] false)) (by simp [symbolsRead])
  obtain ⟨print, printed⟩ := Naming.printResolved format printf
  have funcs : (readModule printFunc none vs).funcs.mapM (Naming.resolved (readModule printFunc none vs).symbols) =
      some [printfFunc, print, mainFunc (some "0") (codeInsts vs)] := by
    have written : (readModule printFunc none vs).funcs = [printfFunc, printFunc, mainFunc none (codeInsts vs)] := rfl
    rw [written]
    simp [Naming.printfResolved, printed, Naming.mainResolved laid call cells]
  refine ⟨print, some "0", ?_⟩
  rw [Module.ofText?, moduleSpelled laid, Reading.moduleRead takes]
  simp only [bind, Option.bind, Module.resolve?, if_pos once, funcs]
  rfl

end Abacus
