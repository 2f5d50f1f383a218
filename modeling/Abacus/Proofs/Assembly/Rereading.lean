import Abacus.Assembly.Machine
import Abacus.Assembly.Naming
import Abacus.Proofs.Assembly.Spelling

/-! Reading an emitted text back: its tokens make the module that the values denote, and resolving its names changes
nothing in the main function. -/
namespace Abacus

open Assembly

def i64 : Typ := .int 64

def Oper.binary : Oper → BinOp
  | .add => .add
  | .sub => .sub
  | .mul => .mul
  | .div => .sdiv

def Value.inst (o : Int → Operand) : Value → Inst
  | .load name src => ⟨some (bareName name), .load i64 ⟨.pointer i64, o src⟩⟩
  | .store src dst => ⟨none, .store ⟨i64, o src⟩ ⟨.pointer i64, o dst⟩⟩
  | .binop name (.known op) l r => ⟨some (bareName name), .binary op.binary ⟨i64, o l⟩ (o r)⟩
  | .print x => ⟨none, .call .void none ⟨.pointer (.func .void [i64] false), .symbol printName⟩ [⟨i64, o x⟩]⟩
  | .alloca name _ => ⟨some (bareName name), .alloca i64⟩
  | .global _ _ | .const _ | .binop _ (.beyond _) _ _ => ⟨none, .alloca i64⟩

def Assembly.Operand.Number (o : Operand) : Prop := (∃ z, o = .int z) ∨ ∃ name, o = .register name

def Value.Takes (o : Int → Operand) : Value → Prop
  | .global _ _ | .const _ => False
  | .load _ src => ∃ name, o src = .symbol name
  | .store src dst => (o src).Number ∧ ∃ name, o dst = .symbol name
  | .alloca _ _ => True
  | .binop _ op l r => (∃ known, op = .known known) ∧ (o l).Number ∧ (o r).Number
  | .print x => (o x).Number

namespace Assembly.Reading

theorem bindRead {α β : Type} {p : Reading α} {ts ts' : List Token} {x : α} (h : p ts = some (x, ts')) (q : α → Reading β) :
    (p >>= q) ts = q x ts' := by
  simp [bind, StateT.bind, h]

def Leads (ts : List Token) : Prop := ∀ c, ts.head? ≠ some (.mark c)

theorem alignmentNone {ts : List Token} (h : Leads ts) : alignment ts = some ((), ts) := by
  unfold alignment
  split
  · exact absurd rfl (h ',')
  · rfl

theorem typRead {ts : List Token} (h : Leads ts) : typ (.intType 64 :: ts) = some (i64, ts) := by
  cases ts with
  | nil => rfl
  | cons t ts =>
    cases t with
    | mark c => exact absurd rfl (h c)
    | symbol | register | label | word | int | intType | text | dots => rfl

section Instructions

variable {ts : List Token}

theorem loadRead (name : String) (h : Leads ts) :
    action (.word "load" :: .intType 64 :: .mark ',' :: .intType 64 :: .mark '*' :: .symbol name :: ts) =
      some (.load i64 ⟨.pointer i64, .symbol name⟩, ts) := by
  have start : action (.word "load" :: .intType 64 :: .mark ',' :: .intType 64 :: .mark '*' :: .symbol name :: ts) =
      (do alignment; return Action.load i64 ⟨.pointer i64, .symbol name⟩ : Reading Action) ts := rfl
  rw [start, bindRead (alignmentNone h)]
  rfl

theorem storeRead {o : Operand} (number : o.Number) (name : String) (h : Leads ts) :
    action (.word "store" :: .intType 64 :: o.token :: .mark ',' :: .intType 64 :: .mark '*' :: .symbol name :: ts) =
      some (.store ⟨i64, o⟩ ⟨.pointer i64, .symbol name⟩, ts) := by
  have start : action
      (.word "store" :: .intType 64 :: o.token :: .mark ',' :: .intType 64 :: .mark '*' :: .symbol name :: ts) =
      (do alignment; return Action.store ⟨i64, o⟩ ⟨.pointer i64, .symbol name⟩ : Reading Action) ts := by
    rcases number with ⟨z, rfl⟩ | ⟨n, rfl⟩ <;> rfl
  rw [start, bindRead (alignmentNone h)]
  rfl

theorem allocaRead (h : Leads ts) : action (.word "alloca" :: .intType 64 :: ts) = some (.alloca i64, ts) := by
  have start : action (.word "alloca" :: .intType 64 :: ts) =
      (do let t ← typ; alignment; return Action.alloca t : Reading Action) (.intType 64 :: ts) := rfl
  rw [start, bindRead (typRead h), bindRead (alignmentNone h)]
  rfl

theorem binaryRead (op : Oper) {l r : Operand} (left : l.Number) (right : r.Number) (ts : List Token) :
    action (.word op.mnemonic :: .intType 64 :: l.token :: .mark ',' :: r.token :: ts) =
      some (.binary op.binary ⟨i64, l⟩ r, ts) := by
  cases op <;> rcases left with ⟨z, rfl⟩ | ⟨n, rfl⟩ <;> rcases right with ⟨z, rfl⟩ | ⟨n, rfl⟩ <;> rfl

theorem printRead {o : Operand} (number : o.Number) :
    action (.word "call" :: .word "void" :: .symbol "print" :: .mark '(' :: .intType 64 :: o.token :: .mark ')' :: ts) =
      some (.call .void none ⟨.pointer (.func .void [i64] false), .symbol printName⟩ [⟨i64, o⟩], ts) := by
  rcases number with ⟨z, rfl⟩ | ⟨n, rfl⟩ <;> rfl

theorem instUnnamed {w : String} {a : Action} {more : List Token} (read : action (.word w :: more) = some (a, ts)) :
    inst (.word w :: more) = some (⟨none, a⟩, ts) := by
  simp [inst, Functor.map, StateT.map, read]

theorem instRead {o : Int → Operand} {v : Value} (takes : v.Takes o) (h : Leads ts) :
    inst (v.tokens o ++ ts) = some (v.inst o, ts) := by
  cases v with
  | global | const => exact takes.elim
  | load name src =>
    obtain ⟨symbol, address⟩ := takes
    simp only [Value.tokens, Value.inst, address, Operand.token, List.cons_append, List.nil_append, inst, loadRead symbol h]
  | store src dst =>
    obtain ⟨number, symbol, address⟩ := takes
    simp only [Value.tokens, Value.inst, address, Operand.token, List.cons_append, List.nil_append]
    exact instUnnamed (storeRead number symbol h)
  | alloca name type =>
    simp only [Value.tokens, Value.inst, List.cons_append, List.nil_append, inst, allocaRead h]
  | binop name op l r =>
    obtain ⟨⟨known, rfl⟩, left, right⟩ := takes
    have read := binaryRead known left right ts
    simp only [Value.tokens, Value.inst, List.cons_append, List.nil_append, inst, Oper.shown, read]
  | print x =>
    exact instUnnamed (printRead takes)

theorem termNone {o : Int → Operand} {v : Value} (takes : v.Takes o) :
    term (v.tokens o ++ ts) = some (none, v.tokens o ++ ts) := by
  cases v with
  | global | const => exact takes.elim
  | load | store | alloca | binop | print => rfl

theorem tokensLead {o : Int → Operand} {v : Value} (takes : v.Takes o) : Leads (v.tokens o ++ ts) := by
  intro c
  cases v with
  | global | const => exact takes.elim
  | load | store | alloca | binop | print => simp [Value.tokens]

theorem codeLeads {o : Int → Operand} {l : List Value} (takes : ∀ v ∈ l, v.Takes o) (h : Leads ts) :
    Leads (l.flatMap (Value.tokens o) ++ ts) := by
  cases l with
  | nil => exact h
  | cons v l =>
    rw [List.flatMap_cons, List.append_assoc]
    exact tokensLead (takes v (by simp))

theorem straightRead {o : Int → Operand} {l : List Value} (takes : ∀ v ∈ l, v.Takes o) {n : Nat} (enough : l.length < n) :
    straight n (l.flatMap (Value.tokens o) ++ endTokens) = some ((l.map (Value.inst o), .ret none), [.mark '\x7d']) := by
  induction l generalizing n with
  | nil =>
    cases n with
    | zero => simp at enough
    | succ n => rfl
  | cons v l ih =>
    cases n with
    | zero => simp at enough
    | succ n =>
      have here := takes v (by simp)
      have rest : ∀ v ∈ l, v.Takes o := fun v member => takes v (by simp [member])
      have leads : Leads (l.flatMap (Value.tokens o) ++ endTokens) := codeLeads rest (by simp [Leads, endTokens])
      rw [List.flatMap_cons, List.append_assoc, straight, bindRead (termNone here)]
      dsimp only
      rw [bindRead (instRead here leads), bindRead (ih rest (by simpa using enough))]
      rfl

theorem codeEnough {o : Int → Operand} {l : List Value} (takes : ∀ v ∈ l, v.Takes o) :
    l.length ≤ (l.flatMap (Value.tokens o)).length := by
  induction l with
  | nil => simp
  | cons v l ih =>
    have rest := ih fun v member => takes v (by simp [member])
    have here : 0 < (v.tokens o).length := by
      have takes' := takes v (by simp)
      cases v with
      | global | const => exact takes'.elim
      | load | store | alloca | binop | print => simp [Value.tokens]
    simp only [List.flatMap_cons, List.length_append, List.length_cons]
    omega

theorem labelNone {o : Int → Operand} {l : List Value} (takes : ∀ v ∈ l, v.Takes o) :
    label (l.flatMap (Value.tokens o) ++ endTokens) = some (none, l.flatMap (Value.tokens o) ++ endTokens) := by
  cases l with
  | nil => rfl
  | cons v l =>
    have takes' := takes v (by simp)
    cases v with
    | global | const => exact takes'.elim
    | load | store | alloca | binop | print => rfl

end Instructions

end Assembly.Reading

def formatGlobal : Global := ⟨".str", .array 6 (.int 8), some (.text "%lld\\0A\\00")⟩

def printfFunc : Func := ⟨"printf", .int 32, [⟨.pointer (.int 8), none⟩], true, []⟩

def printInsts : List Inst :=
  [⟨some "fmt", .element true (.array 6 (.int 8)) ⟨.pointer (.array 6 (.int 8)), .symbol ".str"⟩
      [⟨i64, .int 0⟩, ⟨i64, .int 0⟩]⟩,
    ⟨some "r", .call (.int 32) (some ([.pointer (.int 8)], true))
      ⟨.pointer (.func (.int 32) [.pointer (.int 8), i64] false), .symbol "printf"⟩
      [⟨.pointer (.int 8), .register "fmt"⟩, ⟨i64, .register "x"⟩]⟩]

def printFunc : Func := ⟨printName, .void, [⟨i64, some "x"⟩], false, [⟨some "entry", printInsts, .ret none⟩]⟩

def mainFunc (name : Option String) (insts : List Inst) : Func := ⟨mainName, .void, [], false, [⟨name, insts, .ret none⟩]⟩

def Value.asGlobal (v : Value) : Global := ⟨v.name, i64, some (.int 0)⟩

def codeInsts (vs : List Value) : List Inst := (vs.filter Value.isInstruction).map (Value.inst (operandAt vs))

/- The module of the values, where `print` is the function that prints and `entry` the name of the block of main. -/
def readModule (print : Func) (entry : Option String) (vs : List Value) : Module :=
  ⟨formatGlobal :: (vs.filter Value.isGlobal).map Value.asGlobal, [printfFunc, print, mainFunc entry (codeInsts vs)]⟩

namespace Assembly.Reading

theorem preludeRead (n : Nat) (ts : List Token) :
    entities (n + 3) ⟨[], []⟩ (preludeTokens ++ ts) = entities n ⟨[formatGlobal], [printfFunc, printFunc]⟩ ts := by
  rfl

theorem globalRead (name : String) {ts : List Token} (h : Leads ts) :
    global name (.word "global" :: .intType 64 :: .int 0 :: ts) = some (⟨name, i64, some (.int 0)⟩, ts) := by
  have start : global name (.word "global" :: .intType 64 :: .int 0 :: ts) =
      (do alignment; return ⟨name, i64, some (.int 0)⟩ : Reading Global) ts := rfl
  rw [start, bindRead (alignmentNone h)]
  rfl

theorem globalsRead (l : List Value) (n : Nat) (m : Module) {ts : List Token} (h : Leads ts) :
    entities (n + l.length) m (l.flatMap globalTokens ++ ts) =
      entities n { m with globals := m.globals ++ l.map Value.asGlobal } ts := by
  induction l generalizing m with
  | nil => simp
  | cons v l ih =>
    have leads : Leads (l.flatMap globalTokens ++ ts) := by
      cases l with
      | nil => exact h
      | cons w l => simp [Leads, globalTokens]
    have read := globalRead v.name leads
    simp only [List.flatMap_cons, globalTokens, List.cons_append, List.nil_append, List.length_cons,
      ← Nat.add_assoc, entities, read, bind, Option.bind] at ih ⊢
    rw [ih]
    simp [Value.asGlobal]

theorem mainRead {o : Int → Operand} {l : List Value} (takes : ∀ v ∈ l, v.Takes o) (n : Nat) (m : Module) :
    entities (n + 1) m (mainTokens ++ (l.flatMap (Value.tokens o) ++ endTokens)) =
      some ({ m with funcs := m.funcs ++ [mainFunc none (l.map (Value.inst o))] }, []) := by
  have enough : l.length < (l.flatMap (Value.tokens o) ++ endTokens).length := by
    have each := codeEnough takes
    simp only [List.length_append, endTokens, List.length_cons]
    omega
  have body : block (l.flatMap (Value.tokens o) ++ endTokens) =
      some (⟨none, l.map (Value.inst o), .ret none⟩, [.mark '\x7d']) := by
    rw [block, bindRead (labelNone takes), bindRead (p := fun ts => straight ts.length ts) (straightRead takes enough)]
    rfl
  have all : ∀ k, 0 < k → blocks k (l.flatMap (Value.tokens o) ++ endTokens) =
      some ([⟨none, l.map (Value.inst o), .ret none⟩], []) := by
    intro k some
    obtain ⟨k, rfl⟩ := Nat.exists_eq_add_of_lt some
    rw [Nat.zero_add, blocks, bindRead body]
    rfl
  have func : define (.word "void" :: .symbol "main" :: .mark '(' :: .mark ')' :: .mark '\x7b' ::
      (l.flatMap (Value.tokens o) ++ endTokens)) = some (mainFunc none (l.map (Value.inst o)), []) := by
    have head : ∀ ts, header (.word "void" :: .symbol "main" :: .mark '(' :: .mark ')' :: ts) =
        some (⟨mainName, .void, [], false, []⟩, ts) := fun _ => rfl
    have opened : ∀ ts, expect (.mark '\x7b') (.mark '\x7b' :: ts) = some ((), ts) := fun _ => rfl
    rw [define, bindRead (head _), bindRead (opened _), bindRead (p := fun ts => blocks ts.length ts) (all _ (by omega))]
    rfl
  simp only [mainTokens, List.cons_append, List.nil_append, entities, func, bind, Option.bind]

theorem moduleRead {vs : List Value} (takes : ∀ v ∈ vs.filter Value.isInstruction, v.Takes (operandAt vs)) :
    Module.ofTokens? (moduleTokens vs) = some (readModule printFunc none vs) := by
  have globals : ∀ l : List Value, (l.flatMap globalTokens).length = 5 * l.length := by
    intro l
    induction l with
    | nil => rfl
    | cons v l ih =>
      simp only [List.flatMap_cons, List.length_append, ih, globalTokens, List.length_cons, List.length_nil]
      omega
  have fuel : ∃ n, (moduleTokens vs).length = n + 1 + (vs.filter Value.isGlobal).length + 3 := by
    have prelude : preludeTokens.length = 78 := rfl
    refine ⟨(moduleTokens vs).length - (vs.filter Value.isGlobal).length - 4, ?_⟩
    simp only [moduleTokens, List.length_append, globals, prelude]
    omega
  obtain ⟨n, fuel⟩ := fuel
  rw [Module.ofTokens?, fuel, moduleTokens, Reading.preludeRead, Reading.globalsRead _ _ _ (by simp [Leads, mainTokens]),
    codeTokens, Reading.mainRead takes]
  rfl

end Assembly.Reading
end Abacus
