import Abacus.Proofs.Arena.Layout

/-! Calls of the building operations, with whatever arguments. For each operation it is said once when it goes through
and what it does to the arena then; when it does not go through, at most a name is lost. -/
namespace Abacus

namespace Arena

variable {a : Arena}

theorem slotBound {id : Int} {s : Slot} (h : a.slot? id = some s) : 0 ≤ id ∧ id < a.values.size := by
  by_cases negative : id < 0
  · simp [slot?, negative] at h
  · rw [slot?, if_neg negative] at h
    have bound := (Array.getElem?_eq_some_iff.mp h).1
    omega

theorem slotPush {b : Arena} {s : Slot} (push : b.values = a.values.push s) (id : Int) (t : Slot) :
    b.slot? id = some t ↔ a.slot? id = some t ∨ id = a.values.size ∧ t = s := by
  by_cases negative : id < 0
  · have other : id ≠ a.values.size := by omega
    simp [slot?, negative, other]
  · rw [slot?, slot?, if_neg negative, if_neg negative, push, Array.getElem?_push]
    by_cases last : id = a.values.size
    · simp [last, eq_comm]
    · have other : id.toNat ≠ a.values.size := by omega
      simp [last, other]

def Provides (a : Arena) (id : Int) : Prop := ∃ v, a.slot? id = some (.value v) ∧ v.hasResult = true

theorem operandAccepted {user used : Int} :
    a.checkOperand user used = .ok () ↔ used < user ∧ a.Provides used := by
  by_cases before : used < user
  · rw [checkOperand, if_neg (Int.not_le.mpr before), slot, Provides]
    cases found : a.slot? used with
    | none => simp [bind, Except.bind]
    | some s =>
      cases s with
      | absent | foreign => simp [bind, Except.bind, Slot.known]
      | value v =>
        cases result : v.hasResult with
        | false => simp [bind, Except.bind, Slot.known, result, throw, throwThe, MonadExceptOf.throw]
        | true => simp [bind, Except.bind, Slot.known, before, result, pure, Except.pure]
  · rw [checkOperand, if_pos (Int.not_lt.mp before)]
    simp [before]

theorem operandsAccepted {user : Int} {ids : List Int} :
    a.checkOperands user ids = .ok () ↔ ∀ used ∈ ids, used < user ∧ a.Provides used := by
  induction ids with
  | nil => simp [checkOperands]
  | cons used ids ih =>
    rw [checkOperands, List.forall_mem_cons, ← operandAccepted, ← ih]
    cases a.checkOperand user used with
    | ok => simp [bind, Except.bind]
    | error e => simp [bind, Except.bind]

theorem usesAccepted {user : Int} {s : Slot} :
    a.checkUses user s = .ok () ↔ ∃ ids, s.operands = .ok ids ∧ ∀ used ∈ ids, used < user ∧ a.Provides used := by
  rw [checkUses]
  cases asked : s.operands with
  | error e => simp [bind, Except.bind]
  | ok ids => simp [bind, Except.bind, operandsAccepted]

structure Accepts (a : Arena) (s : Slot) : Prop where
  writable : a.frozen = false
  plain : s.isGlobal = false
  operands : ∃ ids, s.operands = .ok ids ∧ ∀ used ∈ ids, a.Provides used

structure Admits (a : Arena) (name : String) : Prop where
  writable : a.frozen = false
  opened : a.closed = false
  new : a.registry.lookup name = none

structure Records (a : Arena) (id : Int) (s : Slot) : Prop where
  writable : a.frozen = false
  found : a.slot? id = some s
  code : s.isInstruction = true
  later : ∀ last, a.code.back? = some last → last < id
  operands : ∃ ids, s.operands = .ok ids ∧ ∀ used ∈ ids, used < id ∧ a.Provides used

def allocated (a : Arena) (s : Slot) : Arena := { a with values := a.values.push s, closed := true }

def admitted (a : Arena) (name : String) : Arena :=
  { a with
    values := a.values.push (.value (.global name (.known .int)))
    registry := a.registry ++ [(name, (a.values.size : Int))]
    globals := a.globals.push (a.values.size : Int) }

def recorded (a : Arena) (id : Int) : Arena := { a with code := a.code.push id }

def numbered (a : Arena) : Arena := { a with next := a.next + 1 }

def nextResult (a : Arena) : String := "%" ++ toString a.next

theorem admittedOnce {name : String} (once : (a.registry.map Prod.fst).Nodup) (admits : a.Admits name) :
    ((a.admitted name).registry.map Prod.fst).Nodup := by
  have new : name ∉ a.registry.map Prod.fst := by
    intro member
    obtain ⟨p, inside, rfl⟩ := List.mem_map.mp member
    have absent := List.lookup_eq_none_iff.mp admits.new p inside
    simp at absent
  simp only [admitted, List.map_append, List.map_cons, List.map_nil]
  rw [List.nodup_append]
  exact ⟨once, by simp, fun x old y last => by
    rintro rfl
    rw [List.mem_singleton.mp last] at old
    exact new old⟩

end Arena

theorem failed {ε : Type} {x : Except ε Unit} (h : x ≠ .ok ()) : ∃ e, x = .error e := by
  cases x with
  | ok => exact absurd rfl h
  | error e => exact ⟨e, rfl⟩

namespace Build

theorem bindError {α β : Type} {a a' : Arena} {p : Build α} {e : Stop Defect} (h : p a = .error e a') (q : α → Build β) :
    (p >>= q) a = .error e a' := by
  simp [bind, EStateM.bind, h]

theorem askError {α : Type} {a : Arena} {f : Arena → Except (Stop Defect) α} {e : Stop Defect} (h : f a = .error e) :
    ask f a = .error e a := by
  rw [ask, bindOk (getOk a), h]
  rfl

theorem frozenError {a : Arena} (h : ¬ a.frozen = false) : ask Arena.checkWritable a = .error (.error .frozen) a :=
  askError (by simp [Arena.checkWritable, h])

theorem allocCases (s : Slot) (a : Arena) :
    a.Accepts s ∧ alloc s a = .ok (a.values.size : Int) (a.allocated s) ∨
      ¬ a.Accepts s ∧ ∃ e, alloc s a = .error e a := by
  by_cases writable : a.frozen = false
  · by_cases plain : s.isGlobal = false
    · by_cases checked : a.checkUses (a.values.size : Int) s = .ok ()
      · left
        obtain ⟨ids, operands, provided⟩ := Arena.usesAccepted.mp checked
        refine ⟨⟨writable, plain, ids, operands, fun used member => (provided used member).2⟩, ?_⟩
        have asked := askOk (f := fun a => a.checkUses (a.values.size : Int) s) checked
        rw [alloc, bindOk (writableOk writable), if_neg (by simp [plain])]
        dsimp only
        rw [bindOk asked]
        rfl
      · right
        constructor
        · intro accepts
          obtain ⟨ids, operands, provided⟩ := accepts.operands
          refine checked (Arena.usesAccepted.mpr ⟨ids, operands, fun used member => ?_⟩)
          obtain ⟨v, found, result⟩ := provided used member
          exact ⟨(Arena.slotBound found).2, v, found, result⟩
        · obtain ⟨e, failed⟩ := failed checked
          have asked := askError (f := fun a => a.checkUses (a.values.size : Int) s) failed
          refine ⟨e, ?_⟩
          rw [alloc, bindOk (writableOk writable), if_neg (by simp [plain])]
          exact bindError asked _
    · right
      refine ⟨fun accepts => plain accepts.plain, .error .bareGlobal, ?_⟩
      rw [alloc, bindOk (writableOk writable), if_pos (by simpa using plain)]
      rfl
  · right
    exact ⟨fun accepts => writable accepts.writable, _, bindError (frozenError writable) _⟩

theorem createGlobalCases (name : String) (a : Arena) :
    a.Admits name ∧ createGlobal name a = .ok (a.values.size : Int) (a.admitted name) ∨
      ¬ a.Admits name ∧ ∃ e, createGlobal name a = .error e a := by
  by_cases writable : a.frozen = false
  · by_cases opened : a.closed = false
    · by_cases new : a.registry.lookup name = none
      · left
        refine ⟨⟨writable, opened, new⟩, ?_⟩
        rw [createGlobal, bindOk (writableOk writable), bindOk (getOk a), if_neg (by simp [opened])]
        dsimp only
        rw [bindOk (getOk a), if_neg (by simp [new])]
        rfl
      · right
        refine ⟨fun admits => new admits.new, .error (.globalTwice name), ?_⟩
        rw [createGlobal, bindOk (writableOk writable), bindOk (getOk a), if_neg (by simp [opened])]
        dsimp only
        rw [bindOk (getOk a), if_pos (by simpa [Option.isSome_iff_ne_none] using new)]
        rfl
    · right
      refine ⟨fun admits => opened admits.opened, .error (.lateGlobal name), ?_⟩
      rw [createGlobal, bindOk (writableOk writable), bindOk (getOk a), if_pos (by simpa using opened)]
      rfl
  · right
    exact ⟨fun admits => writable admits.writable, _, bindError (frozenError writable) _⟩

theorem nextNameCases (a : Arena) :
    a.frozen = false ∧ nextName a = .ok a.nextResult a.numbered ∨ ¬ a.frozen = false ∧ ∃ e, nextName a = .error e a := by
  by_cases writable : a.frozen = false
  · left
    refine ⟨writable, ?_⟩
    rw [nextName, bindOk (writableOk writable)]
    rfl
  · right
    exact ⟨writable, _, bindError (frozenError writable) _⟩

section Record

variable {id : Int} {a : Arena} (writable : a.frozen = false)
include writable

theorem recordDangling (dangling : a.slot? id = none) : ∃ e, record id a = .error e a := by
  refine ⟨.error (.dangling id a.values.size), ?_⟩
  rw [record, bindOk (writableOk writable)]
  exact bindError (askError (by rw [Arena.slot, dangling])) _

theorem recordOther {s : Slot} (found : a.slot? id = some s) (other : s.isInstruction = false) :
    ∃ e, record id a = .error e a := by
  have slot : a.slot id = .ok s := by rw [Arena.slot, found]
  refine ⟨.error (.notInstruction id s.kind), ?_⟩
  rw [record, bindOk (writableOk writable), bindOk (askOk (f := (·.slot id)) slot), if_pos (by simpa using other)]
  rfl

variable {s : Slot} (found : a.slot? id = some s) (code : s.isInstruction = true)
include found code

theorem recordLate {last : Int} (back : a.code.back? = some last) (late : ¬ last < id) : ∃ e, record id a = .error e a := by
  have slot : a.slot id = .ok s := by rw [Arena.slot, found]
  refine ⟨.error (.outOfOrder id last), ?_⟩
  rw [record, bindOk (writableOk writable), bindOk (askOk (f := (·.slot id)) slot), if_neg (by simp [code])]
  dsimp only
  rw [bindOk (getOk a), back]
  simp only [if_pos (Int.not_lt.mp late)]
  rfl

theorem recordLater (later : ∀ last, a.code.back? = some last → last < id) :
    record id a = match a.checkUses id s with
      | .ok _ => .ok () (a.recorded id)
      | .error e => .error e a := by
  have slot : a.slot id = .ok s := by rw [Arena.slot, found]
  have operands : (do ask (·.checkUses id s); modify (·.recorded id) : Build Unit) a =
      match a.checkUses id s with
      | .ok _ => .ok () (a.recorded id)
      | .error e => .error e a := by
    cases checked : a.checkUses id s with
    | ok => exact bindOk (askOk (f := (·.checkUses id s)) checked) _
    | error e => exact bindError (askError (f := (·.checkUses id s)) checked) _
  rw [record, bindOk (writableOk writable), bindOk (askOk (f := (·.slot id)) slot), if_neg (by simp [code])]
  dsimp only
  rw [bindOk (getOk a)]
  cases back : a.code.back? with
  | none => exact operands
  | some last =>
    simp only [if_neg (Int.not_le.mpr (later last back))]
    exact operands

end Record

theorem recordCases (id : Int) (a : Arena) :
    (∃ s, a.Records id s) ∧ record id a = .ok () (a.recorded id) ∨
      ¬ (∃ s, a.Records id s) ∧ ∃ e, record id a = .error e a := by
  by_cases writable : a.frozen = false
  · cases found : a.slot? id with
    | none => exact .inr ⟨fun ⟨s, records⟩ => by simp [records.found] at found, recordDangling writable found⟩
    | some s =>
      have same : ∀ t, a.Records id t → s = t := fun t records => by simpa [found] using records.found
      cases code : s.isInstruction with
      | false =>
        refine .inr ⟨?_, recordOther writable found code⟩
        rintro ⟨t, records⟩
        simp [same t records, records.code] at code
      | true =>
        by_cases later : ∀ last, a.code.back? = some last → last < id
        · rw [recordLater writable found code later]
          cases checked : a.checkUses id s with
          | ok => exact .inl ⟨⟨s, writable, found, code, later, Arena.usesAccepted.mp checked⟩, rfl⟩
          | error e =>
            refine .inr ⟨?_, e, rfl⟩
            rintro ⟨t, records⟩
            obtain rfl := same t records
            rw [Arena.usesAccepted.mpr records.operands] at checked
            simp at checked
        · obtain ⟨last, broken⟩ := Classical.not_forall.mp later
          obtain ⟨back, late⟩ := Classical.not_imp.mp broken
          exact .inr ⟨fun ⟨t, records⟩ => late (records.later last back), recordLate writable found code back late⟩
  · exact .inr ⟨fun ⟨s, records⟩ => writable records.writable, _, bindError (frozenError writable) _⟩

def reached {α : Type} (b : Build α) (a : Arena) : Arena :=
  match b a with
  | .ok _ a' => a'
  | .error _ a' => a'

theorem reachedOk {α : Type} {b : Build α} {a a' : Arena} {x : α} (h : b a = .ok x a') : b.reached a = a' := by
  rw [reached, h]

theorem reachedError {α : Type} {b : Build α} {a a' : Arena} {e : Stop Defect} (h : b a = .error e a') :
    b.reached a = a' := by
  rw [reached, h]

/- An operation that goes through just under a condition, and otherwise leaves the arena as it is. -/
theorem reachedEither {α : Type} {b : Build α} {a a' : Arena} {x : α} {Q : Prop} {P : Arena → Prop}
    (either : Q ∧ b a = .ok x a' ∨ ¬ Q ∧ ∃ e, b a = .error e a) (through : Q → P a') (refused : P a) : P (b.reached a) := by
  rcases either with ⟨condition, run⟩ | ⟨-, e, run⟩
  · rw [reachedOk run]
    exact through condition
  · rw [reachedError run]
    exact refused

theorem discardOk {α : Type} {b : Build α} {a a' : Arena} {x : α} (h : b a = .ok x a') : (discard b) a = .ok () a' := by
  simp [discard, Functor.discard, EStateM.map, Functor.mapConst, h]

theorem discardError {α : Type} {b : Build α} {a a' : Arena} {e : Stop Defect} (h : b a = .error e a') :
    (discard b) a = .error e a' := by
  simp [discard, Functor.discard, EStateM.map, Functor.mapConst, h]

theorem discardReached {α : Type} (b : Build α) (a : Arena) : (discard b).reached a = b.reached a := by
  cases h : b a with
  | ok x a' => rw [reachedOk h, reachedOk (discardOk h)]
  | error e a' => rw [reachedError h, reachedError (discardError h)]

end Build

inductive Call where
  | createGlobal (name : String)
  | alloc (s : Slot)
  | record (id : Handle)
  | nextName
  | const (v : Int64)
  | load (src : Handle)
  | store (src dst : Handle)
  | alloca (type : Coded Ty)
  | binop (op : Coded Oper) (l r : Handle)
  | print (x : Handle)
  | freeze
  deriving DecidableEq, Repr

namespace Call

def run : Call → Build Unit
  | .createGlobal name => discard (Build.createGlobal name)
  | .alloc s => discard (Build.alloc s)
  | .record id => Build.record id
  | .nextName => discard Build.nextName
  | .const v => discard (Build.const v)
  | .load src => discard (Build.load src)
  | .store src dst => discard (Build.store src dst)
  | .alloca type => discard (Build.alloca type)
  | .binop op l r => discard (Build.binop op l r)
  | .print x => discard (Build.print x)
  | .freeze => Build.freeze

def isBuilder : Call → Bool
  | .alloc _ | .record _ => false
  | _ => true

end Call

/-- The arena after calls in order, where a call that fails does not keep the next ones from being made. -/
def Arena.after (a : Arena) : List Call → Arena
  | [] => a
  | c :: calls => (c.run.reached a).after calls

theorem afterKeeps {P : Arena → Prop} {calls : List Call} {a : Arena}
    (step : ∀ c ∈ calls, ∀ a, P a → P (c.run.reached a)) (start : P a) : P (a.after calls) := by
  induction calls generalizing a with
  | nil => exact start
  | cons c calls ih =>
    exact ih (fun c member => step c (by simp [member])) (step c (by simp) a start)

end Abacus
