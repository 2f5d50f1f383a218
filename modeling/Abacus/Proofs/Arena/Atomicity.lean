import Abacus.Arena.Listing
import Abacus.Proofs.Arena.Verification

/-! Requests to an arena are served whole or not at all. A request that is served only appends, and one that is refused
leaves the arena as it was; the one thing that a refusal can take is the name that was drawn for an operation before its
operands were looked at. The names of loads are safe, because a load looks at its global first. -/
namespace Abacus

inductive Request where
  | call (c : Call)
  | global (name : String)
  | mem
  | slot (id : Handle)
  | frozen
  | verify
  | listing
  deriving DecidableEq, Repr

def Arena.verdict (a : Arena) : Except (Stop Defect) (Option Flaw) :=
  match a.verify with
  | .ok () => .ok none
  | .error (.error flaw) => .ok (some flaw)
  | .error (.fault f) => .error (.fault f)

namespace Request

def run : Request → Build Unit
  | .call c => c.run
  | .global name => discard (Build.ask (·.global name))
  | .mem => discard (Build.ask Arena.mem)
  | .slot id => discard (Build.ask (·.slot id))
  | .frozen => discard (Build.ask fun a => .ok a.frozen)
  | .verify => discard (Build.ask Arena.verdict)
  | .listing => discard (Build.ask fun a => .ok a.listing)

end Request

namespace Arena

def served (a : Arena) (requests : List Request) : Arena := requests.foldl (fun a r => r.run.reached a) a

structure Extends (a b : Arena) : Prop where
  values : a.values.toList <+: b.values.toList
  code : a.code.toList <+: b.code.toList
  globals : a.globals.toList <+: b.globals.toList
  registry : a.registry <+: b.registry
  next : a.next ≤ b.next
  closed : a.closed = true → b.closed = true
  frozen : a.frozen = true → b.frozen = true

theorem extendsSame (a : Arena) : a.Extends a :=
  ⟨List.prefix_rfl, List.prefix_rfl, List.prefix_rfl, List.prefix_rfl, Nat.le_refl _, id, id⟩

theorem extendsTrans {a b c : Arena} (first : a.Extends b) (second : b.Extends c) : a.Extends c where
  values := first.values.trans second.values
  code := first.code.trans second.code
  globals := first.globals.trans second.globals
  registry := first.registry.trans second.registry
  next := Nat.le_trans first.next second.next
  closed := second.closed ∘ first.closed
  frozen := second.frozen ∘ first.frozen

theorem pushPrefix {α : Type} (xs : Array α) (x : α) : xs.toList <+: (xs.push x).toList := by
  rw [Array.toList_push]
  exact List.prefix_append _ _

theorem extendsAllocated (a : Arena) (s : Slot) : a.Extends (a.allocated s) :=
  { extendsSame a with values := pushPrefix _ _, closed := fun _ => rfl }

theorem extendsAdmitted (a : Arena) (name : String) : a.Extends (a.admitted name) :=
  { extendsSame a with values := pushPrefix _ _, globals := pushPrefix _ _, registry := List.prefix_append _ _ }

theorem extendsRecorded (a : Arena) (id : Int) : a.Extends (a.recorded id) :=
  { extendsSame a with code := pushPrefix _ _ }

theorem extendsNumbered (a : Arena) : a.Extends a.numbered :=
  { extendsSame a with next := Nat.le_succ _ }

theorem extendsFrozen (a : Arena) : a.Extends { a with frozen := true } :=
  { extendsSame a with frozen := fun _ => rfl }

theorem extendsInstruction (a : Arena) (v : Value) (id : Int) : a.Extends ((a.allocated (.value v)).recorded id) :=
  extendsTrans (extendsAllocated a _) (extendsRecorded _ id)

end Arena

open Arena

inductive Settles {α : Type} (a lost : Arena) : EStateM.Result (Stop Defect) Arena α → Prop
  | served {x : α} {b : Arena} (more : a.Extends b) (kept : a.frozen = true → b = a) : Settles a lost (.ok x b)
  | refused (e : Stop Defect) : Settles a lost (.error e lost)

section Settles

variable {α β : Type} {a lost : Arena}

theorem settlesDiscard {p : Build α} (h : Settles a lost (p a)) : Settles a lost ((discard p) a) := by
  cases run : p a with
  | ok x b =>
    rw [run] at h
    rw [Build.discardOk run]
    cases h with
    | served more kept => exact .served more kept
  | error e b =>
    rw [run] at h
    rw [Build.discardError run]
    cases h with
    | refused => exact .refused e

theorem settlesEither {p : Build α} {b : Arena} {x : α} {Q : Prop}
    (either : Q ∧ p a = .ok x b ∨ ¬ Q ∧ ∃ e, p a = .error e lost) (writable : Q → a.frozen = false)
    (more : a.Extends b) : Settles a lost (p a) := by
  rcases either with ⟨condition, run⟩ | ⟨-, e, run⟩
  · rw [run]
    exact .served more fun frozen => by simp [writable condition] at frozen
  · rw [run]
    exact .refused e

theorem settlesAsk (f : Arena → Except (Stop Defect) α) : Settles a a (Build.ask f a) := by
  cases asked : f a with
  | ok x =>
    rw [Build.askOk asked]
    exact .served (extendsSame a) fun _ => rfl
  | error e =>
    rw [Build.askError asked]
    exact .refused e

theorem askReached (f : Arena → Except (Stop Defect) α) : (Build.ask f).reached a = a := by
  cases asked : f a with
  | ok x => exact Build.reachedOk (Build.askOk asked)
  | error e => exact Build.reachedError (Build.askError asked)

theorem settlesAfter {f : Arena → Except (Stop Defect) α} {p : α → Build β}
    (rest : ∀ x, f a = .ok x → Settles a a (p x a)) : Settles a a ((Build.ask f >>= p) a) := by
  cases asked : f a with
  | ok x =>
    rw [Build.bindOk (Build.askOk asked)]
    exact rest x asked
  | error e =>
    rw [Build.bindError (Build.askError asked)]
    exact .refused e

end Settles

namespace Arena

variable {a : Arena}

theorem checkedGlobal {id : Int} (checked : a.checkGlobal id = .ok ()) : a.Provides id := by
  unfold checkGlobal slot at checked
  cases found : a.slot? id with
  | none => simp [found, bind, Except.bind] at checked
  | some s =>
    cases s with
    | absent | foreign =>
      simp [found, bind, Except.bind, Slot.isGlobal, throw, throwThe, MonadExceptOf.throw] at checked
    | value v =>
      refine ⟨v, found, ?_⟩
      cases v with
      | global => rfl
      | const | load | store | alloca | binop | print =>
        simp [found, bind, Except.bind, Slot.isGlobal, Value.isGlobal, throw, throwThe, MonadExceptOf.throw] at checked

def drawn (a : Arena) : Arena := if a.frozen then a else a.numbered

def lostTo (a : Arena) : Request → Arena
  | .call (.binop _ _ _) => a.drawn
  | _ => a

theorem lostNothing {r : Request} (other : ¬ ∃ o x y, r = .call (.binop o x y) ∧ a.frozen = false) :
    a.lostTo r = a := by
  unfold lostTo drawn
  split
  · rename_i o x y
    split
    · rfl
    · rename_i writable
      exact absurd ⟨o, x, y, rfl, by simpa using writable⟩ other
  · rfl

section Sound

variable (sound : a.Sound)
include sound

theorem namedCases {f : String → Value} (code : ∀ n, (f n).isInstruction = true) :
    (a.Accepts (.value (f a.nextResult)) ∧ (do Build.instruction (f (← Build.nextName)) : Build Handle) a =
        .ok (a.values.size : Int) ((a.numbered.allocated (.value (f a.nextResult))).recorded a.values.size)) ∨
      ¬ a.Accepts (.value (f a.nextResult)) ∧
        ∃ e, (do Build.instruction (f (← Build.nextName)) : Build Handle) a = .error e a.drawn := by
  rcases Build.nextNameCases a with ⟨writable, named⟩ | ⟨frozen, e, named⟩
  · have lost : a.drawn = a.numbered := by simp [drawn, writable]
    rw [Build.bindOk named, lost]
    rcases instructionCases (numberedSound sound) (code a.nextResult) with ⟨accepts, run⟩ | ⟨refused, e, run⟩
    · exact .inl ⟨⟨accepts.writable, accepts.plain, accepts.operands⟩, run⟩
    · exact .inr ⟨fun accepts => refused ⟨accepts.writable, accepts.plain, accepts.operands⟩, e, run⟩
  · have lost : a.drawn = a := by simp [drawn, frozen]
    rw [lost]
    exact .inr ⟨fun accepts => frozen accepts.writable, e, Build.bindError named _⟩

theorem namedSettles {f : String → Value} (code : ∀ n, (f n).isInstruction = true) :
    Settles a a.drawn ((do Build.instruction (f (← Build.nextName)) : Build Handle) a) :=
  settlesEither (namedCases sound code) (fun accepts => accepts.writable)
    (extendsTrans (extendsNumbered a) (extendsInstruction _ _ _))

theorem providedSettles {f : String → Value} (code : ∀ n, (f n).isInstruction = true)
    (operands : ∀ n, ∀ used ∈ (f n).operands, a.Provides used) :
    Settles a a ((do Build.instruction (f (← Build.nextName)) : Build Handle) a) := by
  cases frozen : a.frozen with
  | true =>
    have lost : a.drawn = a := by simp [drawn, frozen]
    have settles := namedSettles sound code
    rwa [lost] at settles
  | false =>
    have plain : (f a.nextResult).isGlobal = false := by
      have instruction := code a.nextResult
      cases made : f a.nextResult <;> simp [made, Value.isInstruction, Value.isGlobal] at instruction ⊢
    have accepts : a.Accepts (.value (f a.nextResult)) := ⟨frozen, plain, _, rfl, operands _⟩
    rcases namedCases sound code with served | ⟨refused, -⟩
    · exact settlesEither (.inl served) (fun _ => frozen) (extendsTrans (extendsNumbered a) (extendsInstruction _ _ _))
    · exact absurd accepts refused

theorem instructionSettles {v : Value} (code : v.isInstruction = true) : Settles a a (Build.instruction v a) :=
  settlesEither (instructionCases sound code) (fun accepts => accepts.writable) (extendsInstruction a v _)

theorem callSettles (c : Call) : Settles a (a.lostTo (.call c)) (c.run a) := by
  cases c with
  | createGlobal name =>
    exact settlesDiscard (settlesEither (Build.createGlobalCases name a) (·.writable) (extendsAdmitted a name))
  | alloc s => exact settlesDiscard (settlesEither (Build.allocCases s a) (·.writable) (extendsAllocated a s))
  | record id =>
    exact settlesEither (Build.recordCases id a) (fun ⟨_, records⟩ => records.writable) (extendsRecorded a id)
  | nextName => exact settlesDiscard (settlesEither (Build.nextNameCases a) id (extendsNumbered a))
  | const v => exact settlesDiscard (settlesEither (Build.allocCases _ a) (·.writable) (extendsAllocated a _))
  | load src =>
    refine settlesDiscard (settlesAfter fun _ checked => providedSettles sound (f := (.load · src)) (fun _ => rfl) ?_)
    intro n used member
    rw [List.mem_singleton.mp member]
    exact checkedGlobal checked
  | store src dst => exact settlesDiscard (settlesAfter fun _ _ => instructionSettles sound rfl)
  | alloca type =>
    exact settlesDiscard (providedSettles sound (f := (.alloca · type)) (fun _ => rfl) (by simp [Value.operands]))
  | binop op l r => exact settlesDiscard (namedSettles sound (f := (.binop · op l r)) fun _ => rfl)
  | print x => exact settlesDiscard (instructionSettles sound rfl)
  | freeze =>
    refine .served (extendsFrozen a) fun frozen => ?_
    rw [← frozen]

theorem requestSettles (r : Request) : Settles a (a.lostTo r) (r.run a) := by
  cases r with
  | call c => exact callSettles sound c
  | global | mem | slot | frozen | verify | listing => exact settlesDiscard (settlesAsk _)

theorem binopRefused (writable : a.frozen = false) (o : Coded Oper) (x y : Int) :
    ¬ (a.Provides x ∧ a.Provides y) ↔ ∃ e, (Call.binop o x y).run a = .error e { a with next := a.next + 1 } := by
  have accepts : a.Accepts (.value (.binop a.nextResult o x y)) ↔ a.Provides x ∧ a.Provides y := by
    refine ⟨fun accepts => ?_, fun provided => ⟨writable, rfl, [x, y], rfl, by simpa using provided⟩⟩
    obtain ⟨ids, operands, provided⟩ := accepts.operands
    cases operands
    exact ⟨provided x (by simp [Value.operands]), provided y (by simp [Value.operands])⟩
  have lost : a.drawn = { a with next := a.next + 1 } := by simp [drawn, writable, numbered]
  rw [← accepts]
  rcases namedCases sound (f := (.binop · o x y)) (fun _ => rfl) with ⟨provided, run⟩ | ⟨wanting, e, run⟩
  · refine iff_of_false (not_not_intro provided) ?_
    rintro ⟨e, refused⟩
    cases (Build.discardOk run).symm.trans refused
  · rw [lost] at run
    exact iff_of_true wanting ⟨e, Build.discardError run⟩

theorem frozenSame (frozen : a.frozen = true) (r : Request) : r.run.reached a = a := by
  have lost : a.lostTo r = a := lostNothing fun ⟨_, _, _, _, writable⟩ => by simp [frozen] at writable
  have settles := requestSettles sound r
  rw [lost] at settles
  unfold Build.reached
  generalize r.run a = result at settles
  cases settles with
  | served more kept => exact kept frozen
  | refused e => rfl

theorem requestSound (r : Request) : (r.run.reached a).Sound := by
  cases r with
  | call c => exact callSound sound c
  | global | mem | slot | frozen | verify | listing =>
    rw [Request.run, Build.discardReached, askReached]
    exact sound

theorem servedSound (requests : List Request) : (a.served requests).Sound := by
  induction requests generalizing a with
  | nil => exact sound
  | cons r requests ih => exact ih (requestSound sound r)

theorem servedFrozen (frozen : a.frozen = true) (requests : List Request) : a.served requests = a := by
  induction requests with
  | nil => rfl
  | cons r requests ih =>
    have same := frozenSame sound frozen r
    rw [served, List.foldl_cons, same]
    exact ih

end Sound

/- Whatever requests were made before: one that is served appends to values, code and globals and reopens nothing; one
that is refused leaves everything as it was, but for the name that a binary operation draws before its operands are found
wanting, which is the next one and no other. A frozen arena is never changed again. -/
theorem requestsAtomic (before : List Request) (r : Request) {a : Arena} (reached : Arena.new.served before = a) :
    (∀ b, r.run a = .ok () b → a.Extends b) ∧
      (∀ e b, r.run a = .error e b → b = a ∨ ∃ o x y, r = .call (.binop o x y) ∧ a.frozen = false ∧
        ¬ (a.Provides x ∧ a.Provides y) ∧ b = { a with next := a.next + 1 }) ∧
      (∀ o x y, r = .call (.binop o x y) → a.frozen = false → ¬ (a.Provides x ∧ a.Provides y) →
        ∃ e, r.run a = .error e { a with next := a.next + 1 }) ∧
      (a.frozen = true → ∀ later, a.served later = a) := by
  have sound : a.Sound := reached ▸ servedSound newSound before
  have settles := requestSettles sound r
  refine ⟨fun b run => ?_, fun e b run => ?_, ?_, fun frozen => servedFrozen sound frozen⟩
  · rw [run] at settles
    cases settles with
    | served more kept => exact more
  · by_cases operation : ∃ o x y, r = .call (.binop o x y) ∧ a.frozen = false
    · obtain ⟨o, x, y, rfl, writable⟩ := operation
      rw [run] at settles
      cases settles with
      | refused =>
        have lost : a.lostTo (.call (.binop o x y)) = { a with next := a.next + 1 } := by
          simp [lostTo, drawn, writable, numbered]
        rw [lost] at run ⊢
        exact .inr ⟨o, x, y, rfl, writable, (binopRefused sound writable o x y).mpr ⟨e, run⟩, rfl⟩
    · left
      rw [run] at settles
      cases settles with
      | refused => exact lostNothing operation
  · rintro o x y rfl writable wanting
    exact (binopRefused sound writable o x y).mp wanting

theorem silentOperandRefused :
    ∃ a, Arena.new.served [.call (.print 0), .slot 9, .verify] = a ∧ a.frozen = false ∧ ¬ (a.Provides 0 ∧ a.Provides 1) ∧
      ∃ e, (Request.call (.binop (.known .add) 0 1)).run a = .error e { a with next := a.next + 1 } := by
  refine ⟨_, rfl, rfl, ?_⟩
  have wanting : ¬ ((Arena.new.served [.call (.print 0), .slot 9, .verify]).Provides 0 ∧
      (Arena.new.served [.call (.print 0), .slot 9, .verify]).Provides 1) := by
    rintro ⟨-, v, found, result⟩
    cases found
    contradiction
  obtain ⟨-, -, refused, -⟩ := requestsAtomic [.call (.print 0), .slot 9, .verify] (.call (.binop (.known .add) 0 1)) rfl
  exact ⟨wanting, refused _ _ _ rfl rfl wanting⟩

end Arena

end Abacus
