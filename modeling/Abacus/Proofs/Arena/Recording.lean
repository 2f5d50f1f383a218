import Abacus.Proofs.Arena.Emission
import Abacus.Proofs.Arena.Verification
import Mathlib.Data.List.Basic

/-! Arenas that only the builder filled. Every instruction is recorded as soon as it is allocated, and names are numbers
that only go up, so nothing is used before it is defined and no name is given twice, also when calls fail in between. -/
namespace Abacus.Arena

def resultNames (a : Arena) : List String := a.code.toList.filterMap a.resultName?

def numberName (n : Nat) : String := "%" ++ toString n

structure Built (a : Arena) : Prop extends a.Sound where
  recorded : ∀ id s, a.slot? id = some s → ∃ v, s = .value v ∧ (v.isInstruction = true → id ∈ a.code.toList)
  numbers : ∃ ns : List Nat, a.resultNames = ns.map numberName ∧ ns.Pairwise (· < ·) ∧ ∀ n ∈ ns, n < a.next

theorem newBuilt : Arena.new.Built where
  toSound := newSound
  recorded id s found := by
    have values : Arena.new.values = ({} : Arena).values.push (.value memory) := rfl
    rcases (slotPush values id s).mp found with none | ⟨-, rfl⟩
    · simp [slot?] at none
    · exact ⟨memory, rfl, by simp [memory, Value.isInstruction]⟩
  numbers := ⟨[], rfl, .nil, by simp⟩

theorem builtKnown {a : Arena} (built : a.Built) : ∀ id ∈ a.code.toList, ∃ v, a.slot? id = some (.value v) := by
  intro id member
  obtain ⟨s, found, -⟩ := built.instructions id member
  obtain ⟨v, rfl, -⟩ := built.recorded id s found
  exact ⟨v, found⟩

section Push

variable {a b : Arena} (built : a.Built) {v : Value} (push : b.values = a.values.push (.value v))
include built push

theorem recordedPush (kept : ∀ id ∈ a.code.toList, id ∈ b.code.toList)
    (new : v.isInstruction = true → (a.values.size : Int) ∈ b.code.toList) :
    ∀ id s, b.slot? id = some s → ∃ w, s = .value w ∧ (w.isInstruction = true → id ∈ b.code.toList) := by
  intro id s found
  rcases (slotPush push id s).mp found with old | ⟨rfl, rfl⟩
  · obtain ⟨w, same, inside⟩ := built.recorded id s old
    exact ⟨w, same, fun code => kept id (inside code)⟩
  · exact ⟨v, rfl, new⟩

theorem namesPush : a.code.toList.filterMap b.resultName? = a.resultNames := by
  refine List.filterMap_congr fun id member => ?_
  obtain ⟨w, found⟩ := builtKnown built id member
  rw [resultNameFound found, resultNameFound (slotKept push found)]

theorem namesSnoc (code : b.code = a.code.push a.values.size) :
    b.resultNames = a.resultNames ++ if v.hasResult then [v.name] else [] := by
  have last : b.slot? a.values.size = some (.value v) := (slotPush push _ _).mpr (.inr ⟨rfl, rfl⟩)
  rw [resultNames, code, Array.toList_push, List.filterMap_append, namesPush built push]
  rw [List.filterMap_cons, resultNameFound last]
  split <;> simp_all

end Push

theorem growsBuilt {a b : Arena} (built : a.Built) (h : Grows a b) : b.Built := by
  have sound := growsSound built.toSound h
  obtain ⟨ns, names, up, bound⟩ := built.numbers
  cases h with
  | same => exact built
  | name => exact ⟨sound, built.recorded, ns, names, up, fun n member => Nat.lt_succ_of_lt (bound n member)⟩
  | freeze => exact ⟨sound, built.recorded, ns, names, up, bound⟩
  | global admits =>
    refine ⟨sound, recordedPush built rfl (fun id member => member) (by simp [Value.isInstruction]), ns, ?_, up, bound⟩
    exact (namesPush built rfl).trans names
  | const c accepts =>
    refine ⟨sound, recordedPush built rfl (fun id member => member) (by simp [Value.isInstruction]), ns, ?_, up, bound⟩
    exact (namesPush built rfl).trans names
  | silent code silent accepts =>
    refine ⟨sound, recordedPush built rfl (fun id member => by simp [recorded, allocated, member])
      (fun _ => by simp [recorded]), ns, ?_, up, bound⟩
    rw [namesSnoc built rfl rfl, names, silent]
    simp
  | result code result name accepts =>
    refine ⟨sound, recordedPush built rfl (fun id member => by simp [recorded, allocated, numbered, member])
      (fun _ => by simp [recorded]), ns ++ [a.next], ?_, ?_, ?_⟩
    · rw [namesSnoc built rfl rfl, names, result, name, List.map_append]
      rfl
    · rw [List.pairwise_append]
      refine ⟨up, List.pairwise_singleton _ _, fun m old n last => ?_⟩
      rw [List.mem_singleton.mp last]
      exact bound m old
    · intro n member
      rcases List.mem_append.mp member with old | last
      · exact Nat.lt_succ_of_lt (bound n old)
      · rw [List.mem_singleton.mp last]
        exact Nat.lt_succ_self a.next

section Built

variable {a : Arena} (built : a.Built)
include built

theorem namesDistinct : a.resultNames.Nodup := by
  obtain ⟨ns, names, up, -⟩ := built.numbers
  rw [names, List.nodup_iff_pairwise_ne, List.pairwise_map]
  refine up.imp fun {m n} less same => ?_
  have equal := Assembly.Token.natInjective (by simpa [numberName] using same)
  omega

theorem namesNoSymbols (name : String) : "@" ++ name ∉ a.resultNames := by
  obtain ⟨ns, names, -⟩ := built.numbers
  rw [names]
  intro member
  obtain ⟨n, -, same⟩ := List.mem_map.mp member
  exact namesApart name n same.symm

theorem builtVerified : a.verify = .ok () := by
  have new : ∀ name ∈ a.resultNames, a.symbols.lookup name = none := by
    intro name member
    rw [List.lookup_eq_none_iff]
    intro p symbol
    rw [symbols, List.mem_reverse] at symbol
    obtain ⟨q, -, rfl⟩ := List.mem_map.mp symbol
    have other : name ≠ "@" ++ q.1 := fun same => namesNoSymbols built q.1 (same ▸ member)
    simpa using other
  rw [verifySymbols built.toSound]
  exact codePassed built.toSound (fun id member => member) 0 (codeFromStart built.toSound) (builtKnown built)
    (namesDistinct built) new

theorem usedBefore {done todo : List Int} {id : Int} {v : Value} (split : a.code.toList = done ++ id :: todo)
    (found : a.slot? id = some (.value v)) {used : Int} (member : used ∈ v.operands) :
    ∃ w, a.slot? used = some (.value w) ∧
      (w.isGlobal = true ∨ (∃ c, w = .const c) ∨ w.isInstruction = true ∧ used ∈ done) := by
  obtain ⟨-, before, w, here, -⟩ := valueOperands built.toSound found used member
  refine ⟨w, here, ?_⟩
  obtain ⟨x, same, inside⟩ := built.recorded used _ here
  cases same
  have earlier : w.isInstruction = true → used ∈ done := fun code =>
    recordedBefore built.toSound split before (inside code)
  cases w with
  | global name type => exact .inl rfl
  | const c => exact .inr (.inl ⟨c, rfl⟩)
  | load | store | alloca | binop | print => exact .inr (.inr ⟨rfl, earlier rfl⟩)

end Built

/- Whatever calls of the builder are made, and whether or not they go through: the verifier finds nothing, results have
names of their own that are no symbols, and what an instruction uses was defined before it. -/
theorem builderVerified {calls : List Call} (builder : ∀ c ∈ calls, c.isBuilder = true) {a : Arena}
    (reached : Arena.new.after calls = a) :
    a.verify = .ok () ∧ a.resultNames.Nodup ∧ (∀ name id, (name, id) ∈ a.registry → "@" ++ name ∉ a.resultNames) ∧
      ∀ done id todo, a.code.toList = done ++ id :: todo → ∃ v, a.slot? id = some (.value v) ∧ ∀ used ∈ v.operands,
        ∃ w, a.slot? used = some (.value w) ∧
          (w.isGlobal = true ∨ (∃ c, w = .const c) ∨ w.isInstruction = true ∧ used ∈ done) := by
  have built : a.Built := by
    rw [← reached]
    exact afterKeeps (fun c member _ before => growsBuilt before (builderGrows before.toSound (builder c member))) newBuilt
  refine ⟨builtVerified built, namesDistinct built, fun name _ _ => namesNoSymbols built name, fun done id todo split => ?_⟩
  obtain ⟨v, found⟩ := builtKnown built id (by simp [split])
  exact ⟨v, found, fun used member => usedBefore built split found member⟩

def mixedCalls : List Call :=
  [.createGlobal "x", .createGlobal "x", .load 1, .binop (.known .div) 2 9, .createGlobal "y", .const 7,
    .binop (.known .div) 2 3, .store 4 2, .store 4 1, .print 5, .freeze, .const 1]

def mixedArena : Arena where
  values := #[.value memory, .value (.global "x" (.known .int)), .value (.load "%1" 1), .value (.const 7),
    .value (.binop "%3" (.known .div) 2 3), .value (.store 4 1)]
  code := #[2, 4, 5]
  globals := #[0, 1]
  registry := [("mem", 0), ("x", 1)]
  next := 4
  closed := true
  frozen := true

theorem mixedVerified :
    (∀ c ∈ mixedCalls, c.isBuilder = true) ∧ Arena.new.after mixedCalls = mixedArena ∧
      mixedArena.resultNames = ["%1", "%3"] ∧ mixedArena.verify = .ok () ∧ mixedArena.resultNames.Nodup ∧
        ∃ w, mixedArena.slot? 2 = some (.value w) ∧
          (w.isGlobal = true ∨ (∃ c, w = .const c) ∨ w.isInstruction = true ∧ (2 : Int) ∈ [2]) := by
  have builder : ∀ c ∈ mixedCalls, c.isBuilder = true := by decide
  have reached : Arena.new.after mixedCalls = mixedArena := rfl
  obtain ⟨verified, distinct, -, before⟩ := builderVerified builder reached
  obtain ⟨v, found, uses⟩ := before [2] 4 [5] rfl
  cases found
  exact ⟨builder, reached, rfl, verified, distinct, uses 2 (by decide)⟩

end Abacus.Arena
