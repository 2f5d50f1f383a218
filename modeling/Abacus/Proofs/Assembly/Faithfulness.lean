import Abacus.Proofs.Arena.Interpretation
import Abacus.Proofs.Arena.Soundness
import Abacus.Proofs.Assembly.Simulation

/-! Whatever the builder was told to compute, running the emitted text does what executing the code does, as long as no
global takes a symbol that every text has. -/
namespace Abacus

open Assembly

def Arena.isNumber (a : Arena) (id : Int) : Bool :=
  match a.slot? id with
  | some (.value v) => v.isScalar
  | _ => false

def Call.isPlain (taken : List String) (a : Arena) : Call → Bool
  | .createGlobal name => decide (Token.Identifier name) && !taken.contains name
  | .const _ | .load _ => true
  | .store src _ => a.isNumber src
  | .alloca type => type = .known .int
  | .binop (.known _) l r => a.isNumber l && a.isNumber r
  | .print x => a.isNumber x
  | .binop (.beyond _) _ _ | .alloc _ | .record _ | .nextName | .freeze => false

/- Calls that are plain, each one where it is made. Those that are refused change nothing, so every name that was drawn
is used. -/
def Arena.plainCalls (taken : List String) (a : Arena) : List Call → Bool
  | [] => true
  | c :: calls => c.isPlain taken a && (c.run.reached a).plainCalls taken calls

section Step

variable {a : Arena} {vs : List Value} (holds : a.Holds vs)
include holds

theorem numberScalar {id : Int} (number : a.isNumber id = true) : Scalar vs id := by
  rw [Arena.isNumber, Arena.slotBehind holds.values] at number
  cases found : behind vs id with
  | none => simp [found] at number
  | some v => exact ⟨v, found, by simpa [found] using number⟩

theorem globalInteger {id : Int} {name : String} {type : Coded Ty} (found : behind vs id = some (.global name type)) :
    type = .known .int := by
  obtain ⟨done, todo, split, -⟩ := behindSplit found
  exact (holds.laid done _ todo split).1

theorem checkedCell {id : Int} (checked : a.checkGlobal id = .ok ()) : Cell vs id := by
  rw [Arena.checkGlobal, Arena.slot, Arena.slotBehind holds.values] at checked
  cases found : behind vs id with
  | none => simp [found, bind, Except.bind] at checked
  | some v =>
    cases v with
    | global name type =>
      obtain rfl := globalInteger holds found
      exact ⟨name, found⟩
    | const | load | store | alloca | binop | print =>
      simp [found, bind, Except.bind, Slot.isGlobal, Value.isGlobal, throw, throwThe, MonadExceptOf.throw] at checked

theorem valueSlot {i : Nat} {v : Value} (found : vs[i]? = some v) : a.slot? i = some (.value v) := by
  rw [Arena.slotBehind holds.values]
  simp [behind, found]

variable (sound : a.Sound)
include sound

theorem onlyGlobals {name : String} (admits : a.Admits name) : ∀ v ∈ vs, v.isGlobal = true ∧ v.name ≠ name := by
  intro v member
  obtain ⟨i, found⟩ := List.mem_iff_getElem?.mp member
  have slot := valueSlot holds found
  have bound := (Arena.slotBound slot).2
  have size := sound.opened admits.opened
  have listed : (i : Int) ∈ a.globals.toList := by
    rw [sound.first]
    exact List.mem_map.mpr ⟨i, List.mem_range.mpr (by omega), rfl⟩
  rw [sound.listed] at listed
  obtain ⟨⟨other, id⟩, entry, same⟩ := List.mem_map.mp listed
  obtain rfl : id = i := same
  obtain ⟨type, here⟩ := (sound.registry other _).mp entry
  rw [slot] at here
  cases here
  refine ⟨rfl, ?_⟩
  rintro rfl
  have taken := lookupMember sound.once entry
  rw [Value.name] at admits
  simp [admits.new] at taken

theorem admittedHolds {name : String} (admits : a.Admits name) (identifier : Token.Identifier name)
    (free : name ∉ takenSymbols) : (a.admitted name).Holds (vs ++ [.global name (.known .int)]) := by
  have size : a.values.size = vs.length := by simpa using congrArg List.length holds.values
  refine ⟨⟨?_, ?_, ?_, ?_⟩, ?_, admits.writable, ?_, ?_⟩
  · simp [Arena.admitted, holds.values]
  · simp [Arena.admitted, holds.code, handlesSnoc, Value.isInstruction]
  · simp [Arena.admitted, holds.globals, handlesSnoc, Value.isGlobal, size]
  · simp [Arena.admitted, holds.registry, registeredGlobal, size]
  · simp [Arena.admitted, holds.next, fresh, Value.isNamed]
  · exact laidSnoc holds.laid ⟨rfl, onlyGlobals holds sound admits, identifier, free⟩
  · simp [holds.memory]

theorem plainHolds {c : Call} (plain : c.isPlain takenSymbols a = true) :
    ∃ more, (c.run.reached a).Holds (vs ++ more) := by
  have through : ∀ {α : Type} {b : Build α} {v : Value}, (∃ x a', b a = .ok x a' ∧ a'.Holds (vs ++ [v])) →
      ∃ more, ((discard b).reached a).Holds (vs ++ more) := by
    rintro α b v ⟨x, a', done, holds'⟩
    exact ⟨[v], by rwa [Build.discardReached, Build.reachedOk done]⟩
  have refused : ∀ {α : Type} {b : Build α}, (∃ e, b a = .error e a) →
      ∃ more, ((discard b).reached a).Holds (vs ++ more) := by
    rintro α b ⟨e, failed⟩
    exact ⟨[], by rwa [Build.discardReached, Build.reachedError failed, List.append_nil]⟩
  cases c with
  | createGlobal name =>
    simp only [Call.isPlain, Bool.and_eq_true, decide_eq_true_eq, Bool.not_eq_true', List.contains_eq_mem,
      decide_eq_false_iff_not] at plain
    rcases Build.createGlobalCases name a with ⟨admits, done⟩ | ⟨-, failed⟩
    · exact through ⟨_, _, done, admittedHolds holds sound admits plain.1 plain.2⟩
    · exact refused failed
  | const c => exact through ⟨_, Build.constOk holds c⟩
  | load src =>
    cases checked : a.checkGlobal src with
    | ok => exact through ⟨_, Build.loadOk holds (checkedCell holds checked)⟩
    | error e => exact refused ⟨e, Build.bindError (Build.askError checked) _⟩
  | store src dst =>
    cases checked : a.checkGlobal dst with
    | ok => exact through ⟨_, Build.storeOk holds (numberScalar holds plain) (checkedCell holds checked)⟩
    | error e => exact refused ⟨e, Build.bindError (Build.askError checked) _⟩
  | alloca type =>
    obtain rfl : type = .known .int := by simpa [Call.isPlain] using plain
    exact through ⟨_, Build.allocaOk holds⟩
  | binop op l r =>
    cases op with
    | beyond n => simp [Call.isPlain] at plain
    | known o =>
      simp only [Call.isPlain, Bool.and_eq_true] at plain
      exact through ⟨_, Build.binopOk holds o (numberScalar holds plain.1) (numberScalar holds plain.2)⟩
  | print x => exact through ⟨_, Build.printOk holds (numberScalar holds plain)⟩
  | alloc | record | nextName | freeze => simp [Call.isPlain] at plain

end Step

theorem plainCallsHold {calls : List Call} {a : Arena} {vs : List Value} (holds : a.Holds vs) (sound : a.Sound)
    (plain : a.plainCalls takenSymbols calls = true) : ∃ more, (a.after calls).Holds (vs ++ more) := by
  induction calls generalizing a vs with
  | nil => exact ⟨[], by simpa [Arena.after] using holds⟩
  | cons c calls ih =>
    simp only [Arena.plainCalls, Bool.and_eq_true] at plain
    obtain ⟨first, rest⟩ := plain
    obtain ⟨here, holds'⟩ := plainHolds holds sound first
    obtain ⟨more, all⟩ := ih holds' (Arena.callSound sound c) rest
    exact ⟨here ++ more, by simpa [Arena.after] using all⟩

/- A report of a run has what executing the code came to: the printed numbers and what is in each registered global. -/
structure Arena.Reported (a : Arena) (r : Result) (s : Direct) : Prop where
  printed : r.printed = s.printed
  globals : ∀ name id, (name, id) ∈ a.registry → r.globals.lookup name = some (s.cells id)

def Arena.Faithful (read : Reader) (a : Arena) : Prop :=
  ∃ text b, Build.emit a = .ok text b ∧
    match a.execute with
    | .ok s => ∃ r, runAssembly read text = .ok r ∧ a.Reported r s
    | .error s => ∃ i inst r, runAssembly read text = .error (.trapped i inst .divisionByZero r) ∧ a.Reported r s

theorem reportedThrough {a : Arena} {vs : List Value} (holds : a.Holds vs) (sound : a.Sound) {r : Result} {s t : Direct}
    (reports : Reports vs r s) (cells : t.cells = s.cells) (printed : t.printed = s.printed) : a.Reported r t where
  printed := reports.printed.trans printed.symm
  globals name id entry := by
    obtain ⟨type, found⟩ := (sound.registry name id).mp entry
    rw [Arena.slotBehind holds.values] at found
    cases here : behind vs id with
    | none => simp [here] at found
    | some v =>
      obtain rfl : v = .global name type := by simpa [here] using found
      obtain rfl := globalInteger holds here
      rw [cells]
      exact reports.globals id name here

theorem holdsFaithful {read : Reader} (reads : ReadsBack read) {a : Arena} {vs : List Value} (holds : a.Holds vs)
    (sound : a.Sound) : a.Faithful read := by
  refine ⟨moduleText vs, _, Build.emitOk holds, ?_⟩
  have runs := textRuns reads holds.laid
  have executes := executeCoincides holds
  generalize runAssembly read (moduleText vs) = out at runs ⊢
  generalize ({} : Direct).performAll 0 vs = direct at runs executes
  generalize a.execute = code at executes ⊢
  cases executes with
  | done cells printed =>
    cases runs with
    | done reports => exact ⟨_, rfl, reportedThrough holds sound reports cells printed⟩
  | stopped cells printed =>
    cases runs with
    | trapped reports => exact ⟨_, _, _, rfl, reportedThrough holds sound reports cells printed⟩

theorem plainFaithful {read : Reader} (reads : ReadsBack read) {calls : List Call}
    (plain : Arena.new.plainCalls takenSymbols calls = true) : (Arena.new.after calls).Faithful read := by
  obtain ⟨more, holds⟩ := plainCallsHold newHolds Arena.newSound plain
  exact holdsFaithful reads holds (afterKeeps (fun c _ _ before => Arena.callSound before c) Arena.newSound)

def leastCalls : List Call :=
  [.createGlobal "x", .const Int64.minValue, .const (-1), .binop (.known .div) 2 3, .store 4 1, .alloca (.known .int),
    .load 1, .print 7, .load 0, .binop (.known .div) 7 9, .print 10]

theorem leastFaithful :
    ReadsBack Module.ofText? ∧ Arena.new.plainCalls takenSymbols leastCalls = true ∧
      ∃ text b i inst r, Build.emit (Arena.new.after leastCalls) = .ok text b ∧
        runAssembly Module.ofText? text = .error (.trapped i inst .divisionByZero r) ∧ r.printed = [Int64.minValue] ∧
          r.globals.lookup "x" = some Int64.minValue ∧ r.globals.lookup Arena.memName = some 0 := by
  have plain : Arena.new.plainCalls takenSymbols leastCalls = true := by decide +kernel
  obtain ⟨text, b, emitted, runs⟩ := plainFaithful moduleReread plain
  obtain ⟨s, stopped, printed, x, mem⟩ : ∃ s, (Arena.new.after leastCalls).execute = .error s ∧
      s.printed = [Int64.minValue] ∧ s.cells 1 = Int64.minValue ∧ s.cells 0 = 0 := ⟨_, rfl, rfl, rfl, rfl⟩
  rw [stopped] at runs
  obtain ⟨i, inst, r, trapped, reported⟩ := runs
  have entries : (Arena.new.after leastCalls).registry = [(Arena.memName, 0), ("x", 1)] := rfl
  refine ⟨moduleReread, plain, text, b, i, inst, r, emitted, trapped, reported.printed.trans printed, ?_, ?_⟩
  · rw [reported.globals "x" 1 (by simp [entries]), x]
  · rw [reported.globals Arena.memName 0 (by simp [entries]), mem]

/- Readers that refuse a text of globals in which a symbol is defined twice, be it by another global or by what every text
has. -/
def Refuses (read : Reader) : Prop :=
  ∀ names : List String, (∀ name ∈ names, Token.Identifier name) → ¬(takenSymbols ++ names).Nodup →
    read (moduleText (names.map fun name => .global name (.known .int))) = none

theorem twiceRefused : Refuses Module.ofText? := by
  intro names identifiers twice
  obtain ⟨vs, made⟩ : ∃ vs : List Value, vs = names.map fun name => .global name (.known .int) := ⟨_, rfl⟩
  have globals : vs.filter Value.isGlobal = vs := by simp [made, Value.isGlobal]
  have quiet : vs.filter Value.isInstruction = [] := by simp [made, Value.isInstruction]
  have named : vs.map Value.name = names := by simp [made, Value.name, Function.comp_def]
  have spelled : Token.ofText (moduleText vs) = moduleTokens vs := by
    refine moduleJoined (fun v member => identifiers v.name ?_) (by simp [quiet])
    rw [← named]
    exact List.mem_map_of_mem (List.mem_filter.mp member).1
  have symbols : ((readModule printFunc none vs).symbols.map Prod.fst).Perm (takenSymbols ++ names) := by
    have order : (readModule printFunc none vs).symbols.map Prod.fst = ".str" :: (names ++ ["printf", printName, mainName]) := by
      simp [symbolsRead, globals, ← named, Function.comp_def]
    rw [order]
    exact List.Perm.cons _ List.perm_append_comm
  rw [← made, Module.ofText?, spelled, Reading.moduleRead (by simp [quiet])]
  simp only [bind, Option.bind, Module.resolve?, symbols.nodup_iff, if_neg twice]

theorem formatUnfaithful :
    Arena.new.plainCalls ["main", "print", "printf"] [.createGlobal ".str"] = true ∧ Refuses Module.ofText? ∧
      ∀ read, Refuses read → ¬(Arena.new.after [.createGlobal ".str"]).Faithful read := by
  refine ⟨by decide +kernel, twiceRefused, ?_⟩
  rintro read refuses ⟨text, b, emitted, runs⟩
  have written : Arena.text { Arena.new.after [.createGlobal ".str"] with frozen := true } =
      .ok (moduleText ([Arena.memName, ".str"].map fun name => .global name (.known .int))) := Arena.textJoined rfl rfl
  rw [Build.emitText rfl written] at emitted
  obtain ⟨rfl, -⟩ := EStateM.Result.ok.inj emitted
  have executed : (Arena.new.after [.createGlobal ".str"]).execute = .ok {} := rfl
  have refused := refuses [Arena.memName, ".str"] (by decide) (by decide)
  rw [executed, runAssembly, refused] at runs
  obtain ⟨r, ran, -⟩ := runs
  cases ran

end Abacus
