import Abacus.Assembly.Emission
import Abacus.Proofs.Arena.Layout

/-! What the builder made passes the verifier and has a text: a line for each global and a line for each instruction. -/
namespace Abacus

theorem namesApart (s : String) (k : Nat) : "@" ++ s ≠ "%" ++ toString k := by
  intro same
  have chars := congrArg String.toList same
  simp at chars

theorem freshApart {vs : List Value} {k : Nat} (old : k < fresh vs) : "%" ++ toString k ≠ freshName vs := by
  intro same
  have numbers : toString k = toString (fresh vs) := by simpa [freshName] using same
  have equal := Assembly.Token.natInjective numbers
  omega

def Taken (vs : List Value) (names : List (String × Handle)) : Prop :=
  ∀ p ∈ names, (∃ s, p.1 = "@" ++ s) ∨ ∃ k, k < fresh vs ∧ p.1 = "%" ++ toString k

theorem takenLookup {vs : List Value} {names : List (String × Handle)} (h : Taken vs names) :
    names.lookup (freshName vs) = none := by
  rw [List.lookup_eq_none_iff]
  intro p member
  rcases h p member with ⟨s, same⟩ | ⟨k, old, same⟩
  · simpa [same, freshName] using (namesApart s (fresh vs)).symm
  · simpa [same] using (freshApart old).symm

theorem takenMore {vs : List Value} {names : List (String × Handle)} (h : Taken vs names) (v : Value) :
    Taken (vs ++ [v]) names := by
  intro p member
  rcases h p member with symbol | ⟨k, old, same⟩
  · exact .inl symbol
  · refine .inr ⟨k, ?_, same⟩
    have grows : fresh vs ≤ fresh (vs ++ [v]) := by simp [fresh]
    omega

theorem takenName {vs : List Value} {names : List (String × Handle)} (h : Taken vs names) {v : Value}
    (named : v.isNamed = true) (id : Handle) : Taken (vs ++ [v]) ((freshName vs, id) :: names) := by
  intro p member
  rcases List.mem_cons.mp member with rfl | old
  · exact .inr ⟨fresh vs, by simp [fresh, named], rfl⟩
  · exact takenMore h v p old

theorem fitsName {vs : List Value} {v : Value} (fits : Fits vs v) (named : v.isNamed = true) :
    v.name = freshName vs := by
  cases v with
  | global | const | store | print => simp [Value.isNamed] at named
  | load | alloca | binop => exact fits.1

theorem unnamedName {v : Value} (code : v.isInstruction = true) (unnamed : v.isNamed = false) : v.name = "" := by
  cases v <;> simp [Value.isInstruction, Value.isNamed, Value.name] at code unnamed ⊢

namespace Arena

variable {a : Arena} {vs : List Value}

theorem operandsVerified (values : a.values.toList = vs.map Slot.value) {done : List Value} {ids : List Int}
    (usable : ∀ id ∈ ids, Usable done id) {more : List Value} (split : vs = done ++ more) (i : Nat) :
    a.verifyOperands i done.length ids = .ok () := by
  induction ids with
  | nil => rfl
  | cons id ids ih =>
    obtain ⟨v, found, result⟩ := usable id (by simp)
    have bound := behindBound found
    have inside : ¬ (id < 0 ∨ id ≥ done.length) := by omega
    have slot : a.slot? id = some (.value v) := by
      rw [slotBehind values, split, behindAppend found more]
      rfl
    rw [verifyOperands, if_neg (by simpa using inside), slot]
    simp only [result, if_true]
    exact ih fun id member => usable id (by simp [member])

theorem codeVerified (h : a.Contains vs) (laid : Laid vs) {done todo : List Value} (split : vs = done ++ todo) (i : Nat)
    (last : Int) (before : last < done.length) {names : List (String × Handle)} (taken : Taken done names) :
    a.verifyCode i last names (handles Value.isInstruction done.length todo) = .ok () := by
  induction todo generalizing done i last names with
  | nil => rfl
  | cons v todo ih =>
    have fits := laid done v todo split
    have next := splitNext split
    have length : (done ++ [v]).length = done.length + 1 := by simp
    rw [handles]
    split
    · rename_i code
      have slot : a.slot? done.length = some (.value v) := by
        rw [slotBehind h.values, split, behindLast]
        rfl
      have operands := operandsVerified h.values (fitsUsable fits) split i
      rw [verifyKnown before slot code, operands]
      have rest : ∀ names', Taken (done ++ [v]) names' →
          a.verifyCode (i + 1) done.length names' (handles Value.isInstruction (done.length + 1) todo) = .ok () := by
        intro names' taken'
        have all := ih next (i + 1) done.length (by rw [length]; omega) taken'
        rwa [length] at all
      cases named : v.isNamed with
      | false =>
        rw [unnamedName code named]
        exact rest names (takenMore taken v)
      | true =>
        rw [fitsName fits named]
        have some : freshName done ≠ "" := by simp [freshName]
        simp only [bind, Except.bind, some, if_false, takenLookup taken]
        exact rest _ (takenName taken named _)
    · have rest := ih next i last (by rw [length]; omega) (takenMore taken v)
      rwa [length] at rest

theorem registeredLookup {i : Nat} {done todo : List Value} {name : String} {type : Coded Ty}
    (apart : ∀ v ∈ done, v.name ≠ name) :
    (registered i (done ++ .global name type :: todo)).lookup name = some ((i + done.length : Nat) : Int) := by
  induction done generalizing i with
  | nil => simp [registered]
  | cons v done ih =>
    have rest := ih (i := i + 1) fun w member => apart w (by simp [member])
    have shift : i + 1 + done.length = i + (v :: done).length := by
      rw [List.length_cons]
      omega
    rw [shift] at rest
    cases v with
    | global other t =>
      have different : name ≠ other := (apart (.global other t) (by simp)).symm
      simpa [registered, List.lookup_cons, beq_false_of_ne different] using rest
    | const | load | store | alloca | binop | print => simpa [registered] using rest

theorem globalsVerified (h : a.Contains vs) (laid : Laid vs) {done todo : List Value} (split : vs = done ++ todo)
    (names : List (String × Handle)) (symbols : ∀ p ∈ names, ∃ s, p.1 = "@" ++ s) :
    ∃ all, a.verifyGlobals names (handles Value.isGlobal done.length todo) = .ok all ∧
      ∀ p ∈ all, ∃ s, p.1 = "@" ++ s := by
  induction todo generalizing done names with
  | nil => exact ⟨names, rfl, symbols⟩
  | cons v todo ih =>
    have next := splitNext split
    have length : (done ++ [v]).length = done.length + 1 := by simp
    have fits := laid done v todo split
    have rest := @ih (done ++ [v])
    rw [length] at rest
    cases v with
    | global name type =>
      have slot : a.slot? done.length = some (.value (.global name type)) := by
        rw [slotBehind h.values, split, behindLast]
        rfl
      have lookup : a.registry.lookup name = some (done.length : Int) := by
        rw [h.registry, split, registeredLookup fun v member => (fits.2.1 v member).2]
        simp
      have symbols' : ∀ p ∈ ("@" ++ name, (done.length : Handle)) :: names, ∃ s, p.1 = "@" ++ s := by
        intro p member
        rcases List.mem_cons.mp member with rfl | old
        · exact ⟨name, rfl⟩
        · exact symbols p old
      obtain ⟨all, verified, marked⟩ := rest next _ symbols'
      refine ⟨all, ?_, marked⟩
      rw [handles, if_pos (show Value.isGlobal (.global name type) = true from rfl), verifyGlobals, slot]
      simp only [lookup, Option.getD_some, if_true]
      exact verified
    | const | load | store | alloca | binop | print => exact rest next names symbols

theorem registeredLength (i : Nat) (vs : List Value) : (handles Value.isGlobal i vs).length = (registered i vs).length := by
  induction vs generalizing i with
  | nil => rfl
  | cons v vs ih => cases v <;> simp [handles, registered, Value.isGlobal, ih]

theorem verified (h : a.Contains vs) (laid : Laid vs) : a.verify = .ok () := by
  have size : a.globals.size = a.registry.length := by
    rw [← Array.length_toList, h.globals, h.registry, registeredLength]
  have split : vs = [] ++ vs := rfl
  obtain ⟨names, globals, symbols⟩ := globalsVerified h laid split [] (by simp)
  have code := codeVerified h laid split 0 (-1) (by simp) fun p member => .inl (symbols p member)
  rw [verify, if_neg (by simp [size]), h.globals, h.code]
  simp only [List.length_nil] at globals code
  rw [globals]
  exact code

end Arena

namespace Value

def written : Value → String
  | .global name _ => "@" ++ name
  | .const v => toString v.toInt
  | .load name _ | .alloca name _ | .binop name _ _ _ => name
  | .store _ _ | .print _ => ""

def code (w : Int → String) : Value → String
  | .global _ _ | .const _ => ""
  | .load name src => name ++ " = load i64, " ++ "i64" ++ "* " ++ w src
  | .store src dst => "store i64 " ++ w src ++ ", " ++ "i64" ++ "* " ++ w dst
  | .alloca name _ => name ++ " = alloca " ++ "i64"
  | .binop name op l r => name ++ " = " ++ Oper.shown op ++ " i64 " ++ w l ++ ", " ++ w r
  | .print x => "call void @print(i64 " ++ w x ++ ")"

end Value

def writtenAt (vs : List Value) (id : Int) : String := ((behind vs id).map Value.written).getD ""

def globalLine (v : Value) : String := "@" ++ v.name ++ " = global " ++ "i64" ++ " 0\n"

def codeLine (vs : List Value) (v : Value) : String := "  " ++ v.code (writtenAt vs) ++ "\n"

def moduleText (vs : List Value) : String :=
  Assembly.prelude ++ "\n" ++ String.join ((vs.filter Value.isGlobal).map globalLine) ++ "\ndefine void @main() \x7b\n"
    ++ String.join ((vs.filter Value.isInstruction).map (codeLine vs)) ++ "  ret void\n\x7d\n"

theorem handlesMap {keep : Value → Bool} {vs : List Value} {f : Int → Except (Stop Defect) String} {g : Value → String}
    (each : ∀ done v todo, vs = done ++ v :: todo → keep v = true → f done.length = .ok (g v))
    {done todo : List Value} (split : vs = done ++ todo) :
    (handles keep done.length todo).mapM f = .ok ((todo.filter keep).map g) := by
  induction todo generalizing done with
  | nil => rfl
  | cons v todo ih =>
    have rest := ih (splitNext split)
    rw [List.length_append, List.length_singleton] at rest
    rw [handles]
    cases kept : keep v with
    | false => simpa [kept] using rest
    | true => simp [kept, each done v todo split kept, rest, bind, Except.bind, pure, Except.pure]

namespace Arena

variable {a : Arena} {vs : List Value}

theorem usedFound (values : a.values.toList = vs.map Slot.value) {id : Int} {v : Value} (found : behind vs id = some v) :
    a.used id = .ok v := by
  simp [used, slotFound values found, bind, Except.bind, Slot.known]

theorem scalarText (values : a.values.toList = vs.map Slot.value) {id : Int} (scalar : Scalar vs id) :
    a.operandText id = .ok (writtenAt vs id) := by
  obtain ⟨v, found, number⟩ := scalar
  rw [operandText, usedFound values found, writtenAt, found]
  cases v with
  | global | store | alloca | print => simp [Value.isScalar] at number
  | const | load | binop => rfl

theorem cellText (values : a.values.toList = vs.map Slot.value) {id : Int} (cell : Cell vs id) :
    ∃ v, a.used id = .ok v ∧ scalar v.type = .ok "i64" ∧ a.operandText id = .ok (writtenAt vs id) := by
  obtain ⟨name, found⟩ := cell
  have used := usedFound values found
  refine ⟨_, used, rfl, ?_⟩
  rw [operandText, used, writtenAt, found]
  rfl

theorem globalWritten (values : a.values.toList = vs.map Slot.value) {done : List Value} {v : Value} {todo : List Value}
    (split : vs = done ++ v :: todo) (fits : Fits done v) (symbol : v.isGlobal = true) :
    a.globalText done.length = .ok (globalLine v) := by
  have here := usedFound values (split ▸ behindLast done v todo)
  cases v with
  | global name type =>
    obtain ⟨rfl, -⟩ := fits
    rw [globalText, here]
    rfl
  | const | load | store | alloca | binop | print => simp [Value.isGlobal] at symbol

theorem codeWritten (values : a.values.toList = vs.map Slot.value) {done : List Value} {v : Value} {todo : List Value}
    (split : vs = done ++ v :: todo) (fits : Fits done v) (code : v.isInstruction = true) :
    a.codeText done.length = .ok (codeLine vs v) := by
  have here := usedFound values (split ▸ behindLast done v todo)
  have number : ∀ id, Scalar done id → a.operandText id = .ok (writtenAt vs id) := fun id scalar =>
    scalarText values (split ▸ scalarAppend scalar _)
  have address : ∀ id, Cell done id →
      ∃ v, a.used id = .ok v ∧ scalar v.type = .ok "i64" ∧ a.operandText id = .ok (writtenAt vs id) := fun id cell =>
    cellText values (split ▸ cellAppend cell _)
  have text : a.instText v = .ok (v.code (writtenAt vs)) := by
    cases v with
    | global | const => simp [Value.isInstruction] at code
    | load name src =>
      obtain ⟨g, used, type, text⟩ := address src fits.2
      simp only [instText, used, type, text, bind, Except.bind]
      rfl
    | store src dst =>
      obtain ⟨g, used, type, text⟩ := address dst fits.2
      simp only [instText, number src fits.1, used, type, text, bind, Except.bind]
      rfl
    | alloca name type =>
      obtain ⟨-, rfl⟩ := fits
      rfl
    | binop name op l r =>
      obtain ⟨-, -, left, right⟩ := fits
      simp only [instText, number l left, number r right, bind, Except.bind]
      rfl
    | print x =>
      simp only [instText, number x fits, bind, Except.bind]
      rfl
  rw [codeText, here]
  simp only [bind, Except.bind, text, pure, Except.pure, codeLine]

theorem textJoined (globals : a.globals.toList.mapM a.globalText = .ok ((vs.filter Value.isGlobal).map globalLine))
    (code : a.code.toList.mapM a.codeText = .ok ((vs.filter Value.isInstruction).map (codeLine vs))) :
    a.text = .ok (moduleText vs) := by
  rw [text, globals, code]
  rfl

theorem textWritten (h : a.Contains vs) (laid : Laid vs) : a.text = .ok (moduleText vs) := by
  have whole : vs = [] ++ vs := rfl
  have globals := handlesMap (f := a.globalText)
    (fun done v todo split => globalWritten h.values split (laid done v todo split)) whole
  have code := handlesMap (f := a.codeText)
    (fun done v todo split => codeWritten h.values split (laid done v todo split)) whole
  rw [List.length_nil] at globals code
  exact textJoined (h.globals ▸ globals) (h.code ▸ code)

end Arena

theorem Build.emitAsks {a : Arena} (verified : Arena.verify { a with frozen := true } = .ok ()) :
    Build.emit a = Build.ask Arena.text { a with frozen := true } := by
  have frozen : Build.freeze a = .ok () { a with frozen := true } := rfl
  have asked : Build.ask (fun a => a.verify.mapError (Stop.mapError .unverified)) { a with frozen := true } =
      .ok () { a with frozen := true } :=
    Build.askOk (by rw [verified]; rfl)
  rw [Build.emit, Build.bindOk frozen, Build.bindOk asked]

theorem Build.emitText {a : Arena} {text : String} (verified : Arena.verify { a with frozen := true } = .ok ())
    (written : Arena.text { a with frozen := true } = .ok text) : Build.emit a = .ok text { a with frozen := true } := by
  rw [Build.emitAsks verified]
  exact Build.askOk written

theorem Build.emitOk {a : Arena} {vs : List Value} (h : a.Holds vs) :
    Build.emit a = .ok (moduleText vs) { a with frozen := true } := by
  have contains : Arena.Contains { a with frozen := true } vs := ⟨h.values, h.code, h.globals, h.registry⟩
  exact Build.emitText (Arena.verified contains h.laid) (Arena.textWritten contains h.laid)

end Abacus
