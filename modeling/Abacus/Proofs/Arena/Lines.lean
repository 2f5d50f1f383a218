import Abacus.Proofs.Arena.Emission
import Abacus.Proofs.Arena.Verification

/-! The text of verified arenas, whatever calls have built them. The verifier knows nothing of types, so it may let an
arena pass that has no text; and it lets code use an instruction that was never recorded, whose register no line of the
text defines. There is nothing else that it lets pass. -/
namespace Abacus

inductive Fragment where
  | word (text : String)
  | register (name : String)
  deriving DecidableEq, Repr

def Fragment.text : Fragment → String
  | .word text => text
  | .register name => name

structure Line where
  result : Option String
  fragments : List Fragment
  deriving DecidableEq, Repr

def Line.text (l : Line) : String :=
  "  " ++ (l.result.getD "" ++ String.join (l.fragments.map Fragment.text)) ++ "\n"

namespace Value

def fragment : Value → Fragment
  | .global name _ => .word ("@" ++ name)
  | .const v => .word (toString v.toInt)
  | .load name _ | .alloca name _ | .binop name _ _ _ => .register name
  | .store _ _ | .print _ => .word ""

def line (p : Int → Fragment) : Value → Line
  | .global _ _ | .const _ => ⟨none, []⟩
  | .load name src => ⟨some name, [.word " = load i64, ", .word "i64", .word "* ", p src]⟩
  | .store src dst => ⟨none, [.word "store i64 ", p src, .word ", ", .word "i64", .word "* ", p dst]⟩
  | .alloca name _ => ⟨some name, [.word " = alloca ", .word "i64"]⟩
  | .binop name op l r => ⟨some name, [.word " = ", .word (Oper.shown op), .word " i64 ", p l, .word ", ", p r]⟩
  | .print x => ⟨none, [.word "call void @print(i64 ", p x, .word ")"]⟩

def types (t : Int → List (Coded Ty)) : Value → List (Coded Ty)
  | .load _ src => t src
  | .store _ dst => t dst
  | .alloca _ type => [type]
  | _ => []

theorem fragmentsText (x : Fragment) (l : List Fragment) :
    String.join ((x :: l).map Fragment.text) = x.text ++ String.join (l.map Fragment.text) :=
  String.join_cons

theorem lineText {v : Value} (code : v.isInstruction = true) (p : Int → Fragment) :
    (v.line p).text = "  " ++ v.code (fun id => (p id).text) ++ "\n" := by
  unfold Line.text
  congr 2
  cases v with
  | global | const => simp [isInstruction] at code
  | load | alloca | binop =>
    unfold line Value.code
    simp only [fragmentsText, List.map_nil, String.join_nil, String.append_assoc, String.append_empty]
    rfl
  | store | print =>
    unfold line Value.code
    simp only [fragmentsText, List.map_nil, String.join_nil, String.append_assoc, String.append_empty, Option.getD_none,
      String.empty_append]
    rfl

theorem lineRegisters {v : Value} {p : Int → Fragment} {name : String} (member : .register name ∈ (v.line p).fragments) :
    ∃ used ∈ v.operands, p used = .register name := by
  cases v with
  | global | const | alloca => simp [line] at member
  | load n src => exact ⟨src, by simp [operands], by simpa [line, eq_comm] using member⟩
  | store src dst =>
    have either : p src = .register name ∨ p dst = .register name := by simpa [line, eq_comm] using member
    rcases either with same | same
    · exact ⟨src, by simp [operands], same⟩
    · exact ⟨dst, by simp [operands], same⟩
  | binop n op l r =>
    have either : p l = .register name ∨ p r = .register name := by simpa [line, eq_comm] using member
    rcases either with same | same
    · exact ⟨l, by simp [operands], same⟩
    · exact ⟨r, by simp [operands], same⟩
  | print x => exact ⟨x, by simp [operands], by simpa [line, eq_comm] using member⟩

theorem registerResult {v : Value} {name : String} (register : v.fragment = .register name) (p : Int → Fragment) :
    v.isInstruction = true ∧ v.name = name ∧ (v.line p).result = some name := by
  cases v with
  | global | const | store | print => simp [fragment] at register
  | load | alloca | binop =>
    cases register
    exact ⟨rfl, rfl, rfl⟩

end Value

namespace Arena

def fragmentAt (a : Arena) (id : Int) : Fragment :=
  match a.slot? id with
  | some (.value v) => v.fragment
  | _ => .word ""

def lineAt (a : Arena) (id : Int) : Line :=
  match a.slot? id with
  | some (.value v) => v.line a.fragmentAt
  | _ => ⟨none, []⟩

def typeAt (a : Arena) (id : Int) : List (Coded Ty) :=
  match a.slot? id with
  | some (.value v) => [v.type]
  | _ => []

def typesAt (a : Arena) (id : Int) : List (Coded Ty) :=
  match a.slot? id with
  | some (.value v) => v.types a.typeAt
  | _ => []

def codeTypes (a : Arena) : List (Coded Ty) := a.code.toList.flatMap a.typesAt

def otherType? (types : List (Coded Ty)) : Option (Coded Ty) := types.find? (· ≠ .known .int)

theorem otherAppend (l m : List (Coded Ty)) : otherType? (l ++ m) = (otherType? l).or (otherType? m) :=
  List.find?_append

def lineText (a : Arena) : String :=
  Assembly.prelude ++ "\n" ++ String.join (a.registry.map fun p => "@" ++ p.1 ++ " = global " ++ "i64" ++ " 0\n")
    ++ "\ndefine void @main() \x7b\n" ++ String.join ((a.code.toList.map a.lineAt).map Line.text) ++ "  ret void\n\x7d\n"

theorem scalarOther {t : Coded Ty} (other : t ≠ .known .int) : scalar t = .error (.fault (.code (Ty.code t))) := by
  unfold scalar
  split
  · exact absurd rfl other
  · rfl

def unlessOther {α : Type} (types : List (Coded Ty)) (x : α) : Except (Stop Defect) α :=
  match otherType? types with
  | none => .ok x
  | some t => .error (.fault (.code (Ty.code t)))

def Integers (a : Arena) : Prop := ∀ id name type, a.slot? id = some (.value (.global name type)) → type = .known .int

section Text

variable {a : Arena}

theorem usedSlot {id : Int} {v : Value} (found : a.slot? id = some (.value v)) : a.used id = .ok v := by
  simp [used, slot, found, bind, Except.bind, Slot.known]

theorem operandFragment {id : Int} (provides : a.Provides id) : a.operandText id = .ok (a.fragmentAt id).text := by
  obtain ⟨v, found, result⟩ := provides
  rw [operandText, usedSlot found, fragmentAt, found]
  cases v with
  | store | print => simp [Value.hasResult] at result
  | global | const | load | alloca | binop => rfl

theorem scalarTyped (t : Coded Ty) : scalar t = unlessOther [t] "i64" := by
  by_cases same : t = .known .int
  · subst same
    rfl
  · rw [scalarOther same, unlessOther, otherType?, List.find?_cons_of_pos (by simpa using same)]

theorem addressFragment {id : Int} (provides : a.Provides id) :
    ∃ w, a.used id = .ok w ∧ scalar w.type = unlessOther (a.typeAt id) "i64" ∧
      a.operandText id = .ok (a.fragmentAt id).text := by
  have text := operandFragment provides
  obtain ⟨w, found, -⟩ := provides
  refine ⟨w, usedSlot found, ?_, text⟩
  rw [typeAt, found, scalarTyped]

theorem instWritten {v : Value} (code : v.isInstruction = true) (operands : ∀ used ∈ v.operands, a.Provides used) :
    a.instText v = unlessOther (v.types a.typeAt) (v.code fun id => (a.fragmentAt id).text) := by
  cases v with
  | global | const => simp [Value.isInstruction] at code
  | load name src =>
    obtain ⟨w, used, type, text⟩ := addressFragment (operands src (by simp [Value.operands]))
    simp only [instText, used, type, text, Value.types, unlessOther, bind, Except.bind]
    cases otherType? (a.typeAt src) <;> rfl
  | store src dst =>
    have value := operandFragment (operands src (by simp [Value.operands]))
    obtain ⟨w, used, type, text⟩ := addressFragment (operands dst (by simp [Value.operands]))
    simp only [instText, value, used, type, text, Value.types, unlessOther, bind, Except.bind]
    cases otherType? (a.typeAt dst) <;> rfl
  | alloca name type =>
    simp only [instText, scalarTyped, Value.types, unlessOther, bind, Except.bind]
    cases otherType? [type] <;> rfl
  | binop name op l r =>
    have left := operandFragment (operands l (by simp [Value.operands]))
    have right := operandFragment (operands r (by simp [Value.operands]))
    simp only [instText, left, right, bind, Except.bind]
    rfl
  | print x =>
    have value := operandFragment (operands x (by simp [Value.operands]))
    simp only [instText, value, bind, Except.bind]
    rfl

variable (sound : a.Sound)
include sound

theorem codeLineAt {id : Int} (member : id ∈ a.code.toList) {v : Value} (found : a.slot? id = some (.value v)) :
    a.codeText id = unlessOther (a.typesAt id) (a.lineAt id).text := by
  have code : v.isInstruction = true := valueInstruction sound member found
  have operands := fun used member => (valueOperands sound found used member).2.2
  rw [codeText, usedSlot found, lineAt, typesAt, found]
  simp only [bind, Except.bind, instWritten code operands, Value.lineText code]
  unfold unlessOther
  cases otherType? (v.types a.typeAt) <;> rfl

theorem codeLines {ids : List Int} (inside : ∀ id ∈ ids, id ∈ a.code.toList)
    (known : ∀ id ∈ ids, ∃ v, a.slot? id = some (.value v)) :
    ids.mapM a.codeText = unlessOther (ids.flatMap a.typesAt) ((ids.map a.lineAt).map Line.text) := by
  induction ids with
  | nil => rfl
  | cons id ids ih =>
    obtain ⟨v, found⟩ := known id (by simp)
    have first := codeLineAt sound (inside id (by simp)) found
    have rest := ih (fun id member => inside id (by simp [member])) fun id member => known id (by simp [member])
    rw [List.mapM_cons, first, rest, List.flatMap_cons]
    unfold unlessOther
    rw [otherAppend]
    cases otherType? (a.typesAt id) with
    | some t => rfl
    | none => cases otherType? (ids.flatMap a.typesAt) <;> rfl

variable (integers : a.Integers)
include integers

theorem globalDefined {name : String} {id : Int} (entry : (name, id) ∈ a.registry) :
    a.globalText id = .ok ("@" ++ name ++ " = global " ++ "i64" ++ " 0\n") := by
  obtain ⟨type, found⟩ := (sound.registry name id).mp entry
  obtain rfl := integers id name type found
  rw [globalText, usedSlot found]
  rfl

theorem globalLines {entries : List (String × Int)} (inside : ∀ p ∈ entries, p ∈ a.registry) :
    (entries.map Prod.snd).mapM a.globalText =
      .ok (entries.map fun p => "@" ++ p.1 ++ " = global " ++ "i64" ++ " 0\n") := by
  induction entries with
  | nil => rfl
  | cons p entries ih =>
    have first := globalDefined sound integers (inside p (by simp))
    have rest := ih fun p member => inside p (by simp [member])
    rw [List.map_cons, List.mapM_cons, first, rest]
    rfl

theorem textLines (known : ∀ id ∈ a.code.toList, ∃ v, a.slot? id = some (.value v)) :
    a.text = unlessOther a.codeTypes a.lineText := by
  have globals := globalLines sound integers (fun p member => member)
  have code := codeLines sound (fun id member => member) known
  rw [← sound.listed] at globals
  rw [text, globals, code, codeTypes]
  unfold unlessOther
  cases otherType? (a.code.toList.flatMap a.typesAt) <;> rfl

end Text

section Calls

variable {a : Arena}

theorem integersPush {b : Arena} {s : Slot} (push : b.values = a.values.push s) (integers : a.Integers)
    (new : ∀ name type, s = .value (.global name type) → type = .known .int) : b.Integers := by
  intro id name type found
  rcases (slotPush push id _).mp found with old | ⟨-, same⟩
  · exact integers id name type old
  · exact new name type same.symm

theorem acceptedInteger {s : Slot} (plain : s.isGlobal = false) :
    ∀ name type, s = .value (.global name type) → type = .known .int := by
  rintro name type rfl
  simp [Slot.isGlobal, Value.isGlobal] at plain

theorem growsIntegers {b : Arena} (h : Grows a b) (integers : a.Integers) : b.Integers := by
  cases h with
  | same | name | freeze => exact integers
  | global admits =>
    refine integersPush rfl integers fun name type same => ?_
    cases same
    rfl
  | const v accepts => exact integersPush rfl integers (acceptedInteger accepts.plain)
  | silent code silent accepts => exact integersPush rfl integers (acceptedInteger accepts.plain)
  | result code result name accepts => exact integersPush rfl integers (acceptedInteger accepts.plain)

theorem callIntegers (sound : a.Sound) (integers : a.Integers) (c : Call) : (c.run.reached a).Integers := by
  cases builder : c.isBuilder with
  | true => exact growsIntegers (builderGrows sound builder) integers
  | false =>
    cases c with
    | alloc s =>
      rw [Call.run, Build.discardReached]
      exact Build.reachedEither (Build.allocCases s a)
        (fun accepts => integersPush rfl integers (acceptedInteger accepts.plain)) integers
    | record id => exact Build.reachedEither (Build.recordCases id a) (fun _ => integers) integers
    | createGlobal | nextName | const | load | store | alloca | binop | print | freeze =>
      simp [Call.isBuilder] at builder

theorem newIntegers : Arena.new.Integers := by
  intro id name type found
  have values : Arena.new.values = ({} : Arena).values.push (.value memory) := rfl
  rcases (slotPush values id _).mp found with none | ⟨-, same⟩
  · simp [slot?] at none
  · cases same
    rfl

theorem callsIntegers (calls : List Call) : (Arena.new.after calls).Sound ∧ (Arena.new.after calls).Integers :=
  afterKeeps (P := fun a => a.Sound ∧ a.Integers)
    (fun c _ _ before => ⟨callSound before.1 c, callIntegers before.1 before.2 c⟩) ⟨newSound, newIntegers⟩

end Calls

theorem codeFrozen {a : Arena} (sound : a.Sound) {ids : List Int} (inside : ∀ id ∈ ids, id ∈ a.code.toList) (i : Nat)
    {last : Int} (increasing : (last :: ids).Pairwise (· < ·)) (names : List (String × Int)) :
    verifyCode { a with frozen := true } i last names ids = a.verifyCode i last names ids := by
  induction ids generalizing i last names with
  | nil => rfl
  | cons id ids ih =>
    obtain ⟨s, found, code⟩ := sound.instructions id (inside id (by simp))
    obtain ⟨later, rest⟩ := List.pairwise_cons.mp increasing
    have next := ih (fun id member => inside id (by simp [member])) (i + 1) rest
    have order := later id (by simp)
    cases s with
    | absent => simp [Slot.isInstruction] at code
    | foreign f => rw [foreignStep sound order found code, foreignStep (frozenSound sound) order found code]
    | value v =>
      rw [codeStep sound order found code, codeStep (frozenSound sound) order found code]
      simp only [next]

theorem verifyFrozen {a : Arena} (sound : a.Sound) : verify { a with frozen := true } = a.verify := by
  rw [verifySymbols sound, verifySymbols (frozenSound sound)]
  exact codeFrozen sound (fun id member => member) 0 (codeFromStart sound) a.symbols

theorem registersDefined {a : Arena} (sound : a.Sound) {done todo : List Int} {id : Int} {v : Value}
    (split : a.code.toList = done ++ id :: todo) (found : a.slot? id = some (.value v)) {name : String}
    (register : .register name ∈ (a.lineAt id).fragments) :
    ∃ used ∈ v.operands, (∃ w, a.slot? used = some (.value w) ∧ w.isInstruction = true ∧ w.name = name) ∧
      (used ∈ a.code.toList → ∃ earlier ∈ done.map a.lineAt, earlier.result = some name) := by
  rw [lineAt, found] at register
  obtain ⟨used, member, fragment⟩ := Value.lineRegisters register
  obtain ⟨-, before, w, here, -⟩ := valueOperands sound found used member
  rw [fragmentAt, here] at fragment
  obtain ⟨code, called, result⟩ := Value.registerResult fragment a.fragmentAt
  refine ⟨used, member, ⟨w, here, code, called⟩, fun recorded => ?_⟩
  refine ⟨a.lineAt used, List.mem_map_of_mem (recordedBefore sound split before recorded), ?_⟩
  rw [lineAt, here]
  exact result

section Emit

variable {calls : List Call} {a : Arena} (reached : Arena.new.after calls = a) (verified : a.verify = .ok ())
include reached verified

theorem reachedText :
    a.Sound ∧ verify { a with frozen := true } = .ok () ∧
      text { a with frozen := true } = unlessOther a.codeTypes a.lineText := by
  obtain ⟨sound, integers⟩ : a.Sound ∧ a.Integers := reached ▸ callsIntegers calls
  have known := verifiedKnown sound verified
  exact ⟨sound, (verifyFrozen sound).trans verified, textLines (frozenSound sound) integers known⟩

theorem emitsLines (same : ∀ t ∈ a.codeTypes, t = .known .int) :
    Build.emit a = .ok a.lineText { a with frozen := true } := by
  obtain ⟨-, frozen, text⟩ := reachedText reached verified
  have none : otherType? a.codeTypes = none := List.find?_eq_none.mpr fun t member => by simpa using same t member
  rw [unlessOther, none] at text
  exact Build.emitText frozen text

theorem emitStops {t : Coded Ty} (other : otherType? a.codeTypes = some t) :
    Build.emit a = .error (.fault (.code (Ty.code t))) { a with frozen := true } := by
  obtain ⟨-, frozen, text⟩ := reachedText reached verified
  rw [unlessOther, other] at text
  rw [Build.emitAsks frozen]
  exact Build.askError text

/- Whatever calls were made: an arena that passes the verifier has a text, with a line for each instruction, unless a type
other than the integers is written with the code. The first such type is what stops it. A register on a line is the name
of an instruction that the line's own instruction uses; if that one was recorded, an earlier line defines the register. -/
theorem verifiedText :
    ((∀ t ∈ a.codeTypes, t = .known .int) → Build.emit a = .ok a.lineText { a with frozen := true }) ∧
      (∀ t, otherType? a.codeTypes = some t →
        Build.emit a = .error (.fault (.code (Ty.code t))) { a with frozen := true }) ∧
      ∀ done id todo v name, a.code.toList = done ++ id :: todo → a.slot? id = some (.value v) →
        .register name ∈ (a.lineAt id).fragments →
          ∃ used ∈ v.operands, (∃ w, a.slot? used = some (.value w) ∧ w.isInstruction = true ∧ w.name = name) ∧
            (used ∈ a.code.toList → ∃ earlier ∈ done.map a.lineAt, earlier.result = some name) := by
  obtain ⟨sound, -⟩ := reachedText reached verified
  refine ⟨emitsLines reached verified, fun t => emitStops reached verified, ?_⟩
  intro done id todo v name split found register
  exact registersDefined sound split found register

end Emit

def handCalls : List Call :=
  [.alloca (.known .int), .alloc (.value (.load "%a" 1)), .record 2, .alloc (.value (.load "%b" 1)),
    .binop (.known .mul) 2 2, .alloc (.value (.store 4 1)), .record 5, .print 4]

def handArena : Arena where
  values := #[.value memory, .value (.alloca "%1" (.known .int)), .value (.load "%a" 1), .value (.load "%b" 1),
    .value (.binop "%2" (.known .mul) 2 2), .value (.store 4 1), .value (.print 4)]
  code := #[1, 2, 4, 5, 6]
  globals := #[0]
  registry := [("mem", 0)]
  next := 3
  closed := true

theorem handText :
    Arena.new.after handCalls = handArena ∧ handArena.verify = .ok () ∧ (∀ t ∈ handArena.codeTypes, t = .known .int) ∧
      Build.emit handArena = .ok handArena.lineText { handArena with frozen := true } ∧
      .register "%a" ∈ (handArena.lineAt 4).fragments ∧
        ∃ earlier ∈ [(1 : Int), 2].map handArena.lineAt, earlier.result = some "%a" := by
  have reached : Arena.new.after handCalls = handArena := rfl
  have verified : handArena.verify = .ok () := rfl
  have same : ∀ t ∈ handArena.codeTypes, t = .known .int := by decide
  have register : .register "%a" ∈ (handArena.lineAt 4).fragments := by decide
  obtain ⟨emits, -, defined⟩ := verifiedText reached verified
  obtain ⟨used, member, -, earlier⟩ := defined [1, 2] 4 [5, 6] _ "%a" rfl rfl register
  have recorded : used ∈ handArena.code.toList := by
    have operand : used ∈ [(2 : Int), 2] := member
    have only : used = 2 := by simpa using operand
    rw [only]
    decide
  exact ⟨reached, verified, same, emits same, register, earlier recorded⟩

/- A cell without a type passes the verifier and has no text. A load that was not recorded is used all the same, and the
only line of the text reads a register that nothing defines. -/
theorem verifiedUndefined :
    (∃ a, Arena.new.after [.alloca (.known .void)] = a ∧ a.verify = .ok () ∧
      Build.emit a = .error (.fault (.code 0)) { a with frozen := true }) ∧
      ∃ a, Arena.new.after [.alloc (.value (.load "%1" 0)), .print 1] = a ∧ a.verify = .ok () ∧
        Build.emit a = .ok a.lineText { a with frozen := true } ∧
        a.code.toList.map a.lineAt =
          [⟨none, [.word "call void @print(i64 ", .register "%1", .word ")"]⟩] := by
  refine ⟨⟨_, rfl, rfl, ?_⟩, _, rfl, rfl, ?_, rfl⟩
  · exact emitStops (t := .known .void) rfl rfl rfl
  · exact emitsLines rfl rfl (by decide)

end Arena

end Abacus
