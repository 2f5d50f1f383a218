import Abacus.Proofs.Arena.Calls

/-! What no sequence of calls can break, whatever their arguments and whether or not they go through: the globals stand
first and are registered under their names, instructions use what stands before them, and code lists instructions in
order. -/
namespace Abacus

namespace Arena

structure Sound (a : Arena) : Prop where
  registry : ∀ name id, (name, id) ∈ a.registry ↔ ∃ type, a.slot? id = some (.value (.global name type))
  once : (a.registry.map Prod.fst).Nodup
  listed : a.globals.toList = a.registry.map Prod.snd
  first : a.globals.toList = (List.range a.globals.size).map Int.ofNat
  operands : ∀ id s, a.slot? id = some s →
    ∃ ids, s.operands = .ok ids ∧ ∀ used ∈ ids, 0 ≤ used ∧ used < id ∧ a.Provides used
  increasing : a.code.toList.Pairwise (· < ·)
  instructions : ∀ id ∈ a.code.toList, ∃ s, a.slot? id = some s ∧ s.isInstruction = true
  opened : a.closed = false → a.values.size = a.globals.size

section Push

variable {a b : Arena} {s : Slot} (push : b.values = a.values.push s)
include push

theorem slotKept {id : Int} {t : Slot} (found : a.slot? id = some t) : b.slot? id = some t :=
  (slotPush push id t).mpr (.inl found)

theorem providesKept {id : Int} (h : a.Provides id) : b.Provides id := by
  obtain ⟨v, found, result⟩ := h
  exact ⟨v, slotKept push found, result⟩

theorem operandsKept (old : ∀ id t, a.slot? id = some t →
      ∃ ids, t.operands = .ok ids ∧ ∀ used ∈ ids, 0 ≤ used ∧ used < id ∧ a.Provides used)
    (new : ∃ ids, s.operands = .ok ids ∧ ∀ used ∈ ids, a.Provides used) :
    ∀ id t, b.slot? id = some t →
      ∃ ids, t.operands = .ok ids ∧ ∀ used ∈ ids, 0 ≤ used ∧ used < id ∧ b.Provides used := by
  intro id t found
  rcases (slotPush push id t).mp found with before | ⟨rfl, rfl⟩
  · obtain ⟨ids, operands, usable⟩ := old id t before
    refine ⟨ids, operands, fun used member => ?_⟩
    obtain ⟨low, high, provides⟩ := usable used member
    exact ⟨low, high, providesKept push provides⟩
  · obtain ⟨ids, operands, provided⟩ := new
    refine ⟨ids, operands, fun used member => ?_⟩
    obtain ⟨w, here, result⟩ := provided used member
    have bound := slotBound here
    exact ⟨bound.1, bound.2, w, slotKept push here, result⟩

end Push

theorem emptySound : ({} : Arena).Sound where
  registry name id := by simp [slot?]
  once := List.nodup_nil
  listed := rfl
  first := rfl
  operands id s found := by simp [slot?] at found
  increasing := List.Pairwise.nil
  instructions := by simp
  opened := fun _ => rfl

section Step

variable {a : Arena} (sound : a.Sound)
include sound

theorem admittedSound {name : String} (admits : a.Admits name) : (a.admitted name).Sound where
  registry other id := by
    have values : (a.admitted name).values = a.values.push (.value (.global name (.known .int))) := rfl
    have entries : (other, id) ∈ (a.admitted name).registry ↔ (other, id) ∈ a.registry ∨ other = name ∧ id = a.values.size := by
      simp [admitted]
    rw [entries, sound.registry]
    constructor
    · rintro (⟨type, found⟩ | ⟨rfl, rfl⟩)
      · exact ⟨type, slotKept values found⟩
      · exact ⟨.known .int, (slotPush values _ _).mpr (.inr ⟨rfl, rfl⟩)⟩
    · rintro ⟨type, found⟩
      rcases (slotPush values id _).mp found with old | ⟨rfl, same⟩
      · exact .inl ⟨type, old⟩
      · cases same
        exact .inr ⟨rfl, rfl⟩
  once := admittedOnce sound.once admits
  listed := by simp [admitted, sound.listed]
  first := by
    have size := sound.opened admits.opened
    simp [admitted, sound.first, List.range_succ, size]
  operands := operandsKept rfl sound.operands ⟨[], rfl, by simp⟩
  increasing := sound.increasing
  instructions id member := by
    obtain ⟨v, found, code⟩ := sound.instructions id member
    exact ⟨v, slotKept rfl found, code⟩
  opened closed := by
    have size := sound.opened closed
    simp [admitted, size]

theorem allocatedSound {s : Slot} (accepts : a.Accepts s) : (a.allocated s).Sound where
  registry name id := by
    have values : (a.allocated s).values = a.values.push s := rfl
    rw [allocated, sound.registry]
    constructor
    · rintro ⟨type, found⟩
      exact ⟨type, slotKept values found⟩
    · rintro ⟨type, found⟩
      rcases (slotPush values id _).mp found with old | ⟨-, rfl⟩
      · exact ⟨type, old⟩
      · have plain := accepts.plain
        simp [Slot.isGlobal, Value.isGlobal] at plain
  once := sound.once
  listed := sound.listed
  first := sound.first
  operands := operandsKept rfl sound.operands accepts.operands
  increasing := sound.increasing
  instructions id member := by
    obtain ⟨v, found, code⟩ := sound.instructions id member
    exact ⟨v, slotKept rfl found, code⟩
  opened closed := by simp [allocated] at closed

theorem codeBelow {id : Int} (later : ∀ last, a.code.back? = some last → last < id) : ∀ x ∈ a.code.toList, x < id := by
  intro x member
  have increasing := sound.increasing
  rcases List.eq_nil_or_concat a.code.toList with none | ⟨front, last, split⟩
  · simp [none] at member
  · rw [List.concat_eq_append] at split
    have final : a.code.back? = some last := by
      rw [← Array.getLast?_toList, split]
      simp
    rw [split, List.pairwise_append] at increasing
    rw [split] at member
    have bound := later last final
    rcases List.mem_append.mp member with inside | same
    · exact Int.lt_trans (increasing.2.2 x inside last (by simp)) bound
    · rw [List.mem_singleton.mp same]
      exact bound

theorem recordedBefore {done todo : List Int} {id used : Int}
    (split : a.code.toList = done ++ id :: todo) (before : used < id) (member : used ∈ a.code.toList) : used ∈ done := by
  have order := sound.increasing
  rw [split] at member order
  rcases List.mem_append.mp member with old | later
  · exact old
  · have below := (List.pairwise_cons.mp (List.pairwise_append.mp order).2.1).1
    rcases List.mem_cons.mp later with rfl | last
    · exact absurd before (Int.lt_irrefl _)
    · exact absurd (Int.lt_trans before (below used last)) (Int.lt_irrefl _)

theorem valueOperands {id : Int} {v : Value} (found : a.slot? id = some (.value v)) :
    ∀ used ∈ v.operands, 0 ≤ used ∧ used < id ∧ a.Provides used := by
  obtain ⟨ids, operands, usable⟩ := sound.operands id _ found
  cases operands
  exact usable

theorem valueInstruction {id : Int} (member : id ∈ a.code.toList) {v : Value} (found : a.slot? id = some (.value v)) :
    v.isInstruction = true := by
  obtain ⟨s, here, code⟩ := sound.instructions id member
  rw [found] at here
  cases here
  exact code

theorem recordedSound {id : Int} {s : Slot} (records : a.Records id s) : (a.recorded id).Sound where
  registry := sound.registry
  once := sound.once
  listed := sound.listed
  first := sound.first
  operands := sound.operands
  increasing := by
    simp only [recorded, Array.toList_push]
    rw [List.pairwise_append]
    refine ⟨sound.increasing, List.pairwise_singleton _ _, fun x old y last => ?_⟩
    rw [List.mem_singleton.mp last]
    exact codeBelow sound records.later x old
  instructions x member := by
    simp only [recorded, Array.toList_push, List.mem_append, List.mem_singleton] at member
    rcases member with old | rfl
    · exact sound.instructions x old
    · exact ⟨s, records.found, records.code⟩
  opened := sound.opened

theorem numberedSound : a.numbered.Sound :=
  ⟨sound.registry, sound.once, sound.listed, sound.first, sound.operands, sound.increasing, sound.instructions,
    sound.opened⟩

theorem frozenSound : ({ a with frozen := true } : Arena).Sound :=
  ⟨sound.registry, sound.once, sound.listed, sound.first, sound.operands, sound.increasing, sound.instructions,
    sound.opened⟩

end Step

theorem newSound : Arena.new.Sound := by
  have admits : Admits {} memName := ⟨rfl, rfl, rfl⟩
  exact admittedSound emptySound admits

inductive Grows (a : Arena) : Arena → Prop
  | same : Grows a a
  | name : Grows a a.numbered
  | freeze : Grows a { a with frozen := true }
  | global {name : String} (admits : a.Admits name) : Grows a (a.admitted name)
  | const (v : Int64) (accepts : a.Accepts (.value (.const v))) : Grows a (a.allocated (.value (.const v)))
  | silent {v : Value} (code : v.isInstruction = true) (silent : v.hasResult = false) (accepts : a.Accepts (.value v)) :
    Grows a ((a.allocated (.value v)).recorded a.values.size)
  | result {v : Value} (code : v.isInstruction = true) (result : v.hasResult = true) (name : v.name = a.nextResult)
    (accepts : a.Accepts (.value v)) : Grows a ((a.numbered.allocated (.value v)).recorded a.values.size)

section Grow

variable {a : Arena} (sound : a.Sound)
include sound

theorem acceptedRecords {v : Value} (code : v.isInstruction = true) (accepts : a.Accepts (.value v)) :
    (a.allocated (.value v)).Records a.values.size (.value v) where
  writable := accepts.writable
  found := (slotPush rfl _ _).mpr (.inr ⟨rfl, rfl⟩)
  code := code
  later last back := by
    have member : last ∈ a.code.toList := by
      rw [← Array.getLast?_toList] at back
      exact List.mem_of_getLast? back
    obtain ⟨w, found, -⟩ := sound.instructions last member
    exact (slotBound found).2
  operands := by
    obtain ⟨ids, operands, provided⟩ := accepts.operands
    refine ⟨ids, operands, fun used member => ?_⟩
    obtain ⟨w, found, result⟩ := provided used member
    exact ⟨(slotBound found).2, w, slotKept rfl found, result⟩

theorem growsSound {b : Arena} (h : Grows a b) : b.Sound := by
  cases h with
  | same => exact sound
  | name => exact numberedSound sound
  | freeze => exact frozenSound sound
  | global admits => exact admittedSound sound admits
  | const v accepts => exact allocatedSound sound accepts
  | silent code silent accepts =>
    exact recordedSound (allocatedSound sound accepts) (acceptedRecords sound code accepts)
  | result code result name accepts =>
    have accepts' : a.numbered.Accepts (.value _) := ⟨accepts.writable, accepts.plain, accepts.operands⟩
    have sound' := numberedSound sound
    exact recordedSound (allocatedSound sound' accepts') (acceptedRecords sound' code accepts')

theorem instructionCases {v : Value} (code : v.isInstruction = true) :
    a.Accepts (.value v) ∧ Build.instruction v a =
        .ok (a.values.size : Int) ((a.allocated (.value v)).recorded a.values.size) ∨
      ¬ a.Accepts (.value v) ∧ ∃ e, Build.instruction v a = .error e a := by
  rcases Build.allocCases (.value v) a with ⟨accepts, run⟩ | ⟨refused, e, run⟩
  · left
    refine ⟨accepts, ?_⟩
    rcases Build.recordCases a.values.size (a.allocated (.value v)) with ⟨-, run'⟩ | ⟨none, -⟩
    · rw [Build.instruction, Build.bindOk run, Build.bindOk run']
      rfl
    · exact absurd ⟨_, acceptedRecords sound code accepts⟩ none
  · exact .inr ⟨refused, e, Build.bindError run _⟩

theorem silentGrows {v : Value} (code : v.isInstruction = true) (silent : v.hasResult = false) :
    Grows a ((Build.instruction v).reached a) :=
  Build.reachedEither (instructionCases sound code) (fun accepts => .silent code silent accepts) .same

theorem resultGrows {f : String → Value} (code : ∀ n, (f n).isInstruction = true) (result : ∀ n, (f n).hasResult = true)
    (name : ∀ n, (f n).name = n) : Grows a (Build.reached (do Build.instruction (f (← Build.nextName))) a) := by
  rcases Build.nextNameCases a with ⟨-, named⟩ | ⟨-, e, named⟩
  · rcases instructionCases (numberedSound sound) (code a.nextResult) with ⟨accepts, run⟩ | ⟨-, e, run⟩
    · rw [Build.reachedOk (by rw [Build.bindOk named, run])]
      exact .result (code _) (result _) (name _) ⟨accepts.writable, accepts.plain, accepts.operands⟩
    · rw [Build.reachedError (by rw [Build.bindOk named, run])]
      exact .name
  · rw [Build.reachedError (Build.bindError named _)]
    exact .same

omit sound in
theorem askGrows {α β : Type} (f : Arena → Except (Stop Defect) α) {b : α → Build β} (h : ∀ x, Grows a ((b x).reached a)) :
    Grows a ((Build.ask f >>= b).reached a) := by
  cases asked : f a with
  | ok x =>
    have same : (Build.ask f >>= b).reached a = (b x).reached a := by
      rw [Build.reached, Build.bindOk (Build.askOk asked), Build.reached]
    rw [same]
    exact h x
  | error e =>
    rw [Build.reachedError (Build.bindError (Build.askError asked) _)]
    exact .same

theorem builderGrows {c : Call} (builder : c.isBuilder = true) : Grows a (c.run.reached a) := by
  cases c with
  | alloc s | record id => simp [Call.isBuilder] at builder
  | createGlobal name =>
    rw [Call.run, Build.discardReached]
    exact Build.reachedEither (Build.createGlobalCases name a) (fun admits => .global admits) .same
  | nextName =>
    rw [Call.run, Build.discardReached]
    exact Build.reachedEither (Build.nextNameCases a) (fun _ => .name) .same
  | const v =>
    rw [Call.run, Build.discardReached, Build.const]
    exact Build.reachedEither (Build.allocCases (.value (.const v)) a) (fun accepts => .const v accepts) .same
  | load src =>
    rw [Call.run, Build.discardReached]
    exact askGrows _ fun _ => resultGrows sound (f := (.load · src)) (fun _ => rfl) (fun _ => rfl) fun _ => rfl
  | store src dst =>
    rw [Call.run, Build.discardReached]
    exact askGrows _ fun _ => silentGrows sound rfl rfl
  | alloca type =>
    rw [Call.run, Build.discardReached]
    exact resultGrows sound (f := (.alloca · type)) (fun _ => rfl) (fun _ => rfl) fun _ => rfl
  | binop op l r =>
    rw [Call.run, Build.discardReached]
    exact resultGrows sound (f := (.binop · op l r)) (fun _ => rfl) (fun _ => rfl) fun _ => rfl
  | print x =>
    rw [Call.run, Build.discardReached]
    exact silentGrows sound rfl rfl
  | freeze => exact .freeze

theorem callSound (c : Call) : (c.run.reached a).Sound := by
  cases builder : c.isBuilder with
  | true => exact growsSound sound (builderGrows sound builder)
  | false =>
    cases c with
    | alloc s =>
      rw [Call.run, Build.discardReached]
      exact Build.reachedEither (Build.allocCases s a) (fun accepts => allocatedSound sound accepts) sound
    | record id =>
      exact Build.reachedEither (Build.recordCases id a) (fun ⟨_, records⟩ => recordedSound sound records) sound
    | createGlobal | nextName | const | load | store | alloca | binop | print | freeze =>
      simp [Call.isBuilder] at builder

end Grow

end Arena

end Abacus
