import Abacus.Arena.Verify
import Abacus.Proofs.Arena.Soundness

/-! The verifier on arenas that calls have built: it has nothing left to find but a name that is used twice. -/
namespace Abacus.Arena

def resultName? (a : Arena) (id : Int) : Option String :=
  match a.slot? id with
  | some (.value v) => if v.hasResult then some v.name else none
  | _ => none

theorem resultNameFound {a : Arena} {id : Int} {v : Value} (found : a.slot? id = some (.value v)) :
    a.resultName? id = if v.hasResult then some v.name else none := by
  rw [resultName?, found]

theorem nameResult {v : Value} (named : v.name ≠ "") : v.hasResult = true := by
  cases v <;> simp [Value.name, Value.hasResult] at named ⊢

def symbols (a : Arena) : List (String × Int) := (a.registry.map fun p => ("@" ++ p.1, p.2)).reverse

structure Registers (a : Arena) : Prop where
  once : (a.registry.map Prod.fst).Nodup
  listed : a.globals.toList = a.registry.map Prod.snd
  globals : ∀ name id, (name, id) ∈ a.registry → ∃ type, a.slot? id = some (.value (.global name type))

section Registry

variable {a : Arena} (registers : a.Registers)
include registers

theorem globalsAccepted {entries : List (String × Int)} (inside : ∀ p ∈ entries, p ∈ a.registry)
    (names : List (String × Int)) :
    a.verifyGlobals names (entries.map Prod.snd) = .ok ((entries.map fun p => ("@" ++ p.1, p.2)).reverse ++ names) := by
  induction entries generalizing names with
  | nil => rfl
  | cons p entries ih =>
    have here := inside p (by simp)
    obtain ⟨type, found⟩ := registers.globals p.1 p.2 here
    have lookup := lookupMember registers.once here
    have rest := ih (fun q member => inside q (by simp [member])) (("@" ++ p.1, p.2) :: names)
    rw [List.map_cons, verifyGlobals, found]
    simp only [lookup, Option.getD_some, if_true, rest]
    simp

theorem registryPassed : a.verify = a.verifyCode 0 (-1) a.symbols a.code.toList := by
  have size : a.globals.size = a.registry.length := by
    rw [← Array.length_toList, registers.listed, List.length_map]
  have inside : ∀ p ∈ a.registry, p ∈ a.registry := fun p member => member
  have globals := globalsAccepted registers inside []
  rw [List.append_nil, ← registers.listed] at globals
  rw [verify, if_neg (by simp [size]), globals]
  rfl

end Registry

/- What can come of code that calls have recorded: a foreign instruction is the only thing that the verifier cannot cope
with, and it never passes one. -/
inductive Verdict (a : Arena) (code : List Int) : Except (Stop Flaw) Unit → Prop
  | passed (known : ∀ id ∈ code, ∃ v, a.slot? id = some (.value v)) : Verdict a code (.ok ())
  | named {i : Nat} {name : String} {id holder : Int} : Verdict a code (.error (.error (.nameTaken i name id holder)))
  | unknown {id : Int} (member : id ∈ code) {f : Foreign} (found : a.slot? id = some (.foreign f)) :
    Verdict a code (.error (.fault .node))

theorem verdictNext {a : Arena} {id : Int} {v : Value} (found : a.slot? id = some (.value v)) {ids : List Int}
    {out : Except (Stop Flaw) Unit} (rest : Verdict a ids out) : Verdict a (id :: ids) out := by
  cases rest with
  | passed known => exact .passed (List.forall_mem_cons.mpr ⟨⟨v, found⟩, known⟩)
  | named => exact .named
  | unknown member here => exact .unknown (List.mem_cons_of_mem _ member) here

section Verdict

variable {a : Arena} (sound : a.Sound)
include sound

theorem soundRegisters : a.Registers :=
  ⟨sound.once, sound.listed, fun name id member => (sound.registry name id).mp member⟩

theorem verifySymbols : a.verify = a.verifyCode 0 (-1) a.symbols a.code.toList := registryPassed (soundRegisters sound)

omit sound in
theorem operandsPassed {i : Nat} {id : Int} {ids : List Int}
    (usable : ∀ used ∈ ids, 0 ≤ used ∧ used < id ∧ a.Provides used) : a.verifyOperands i id ids = .ok () := by
  induction ids with
  | nil => rfl
  | cons used ids ih =>
    obtain ⟨low, high, v, found, result⟩ := usable used (by simp)
    have inside : ¬ (used < 0 ∨ used ≥ id) := by omega
    rw [verifyOperands, if_neg (by simpa using inside), found]
    simp only [result, if_true]
    exact ih fun used member => usable used (by simp [member])

theorem codeStep {id last : Int} (later : last < id) {v : Value} (found : a.slot? id = some (.value v))
    (code : v.isInstruction = true) (i : Nat) (names : List (String × Int)) (ids : List Int) :
    a.verifyCode i last names (id :: ids) =
      if v.name = "" then a.verifyCode (i + 1) id names ids
      else match names.lookup v.name with
        | some holder => .error (.error (.nameTaken i v.name id holder))
        | none => a.verifyCode (i + 1) id ((v.name, id) :: names) ids := by
  rw [verifyKnown later found code, operandsPassed (valueOperands sound found)]
  rfl

theorem foreignStep {id last : Int} (later : last < id) {f : Foreign} (found : a.slot? id = some (.foreign f))
    (code : (Slot.foreign f).isInstruction = true) (i : Nat) (names : List (String × Int)) (ids : List Int) :
    a.verifyCode i last names (id :: ids) = .error (.fault .node) := by
  obtain ⟨used, operands, usable⟩ := sound.operands id _ found
  rw [verifyCode, if_neg (Int.not_le.mpr later), found]
  simp only [code, Bool.not_true, Bool.false_eq_true, if_false, operands]
  simp only [bind, Except.bind, mapErrorOk, operandsPassed usable, Slot.known]
  rfl

theorem codeVerdict {ids : List Int} (inside : ∀ id ∈ ids, id ∈ a.code.toList) (i : Nat) {last : Int}
    (increasing : (last :: ids).Pairwise (· < ·)) (names : List (String × Int)) :
    Verdict a ids (a.verifyCode i last names ids) := by
  induction ids generalizing i last names with
  | nil => exact .passed (by simp)
  | cons id ids ih =>
    obtain ⟨s, found, code⟩ := sound.instructions id (inside id (by simp))
    obtain ⟨later, rest⟩ := List.pairwise_cons.mp increasing
    have next := fun names => ih (fun id member => inside id (by simp [member])) (i + 1) rest names
    cases s with
    | absent => simp [Slot.isInstruction] at code
    | foreign f =>
      rw [foreignStep sound (later id (by simp)) found code]
      exact .unknown (List.mem_cons_self ..) found
    | value v =>
      rw [codeStep sound (later id (by simp)) found code]
      split
      · exact verdictNext found (next names)
      · split
        · exact .named
        · exact verdictNext found (next _)

theorem codePassed {ids : List Int} (inside : ∀ id ∈ ids, id ∈ a.code.toList) (i : Nat) {last : Int}
    (increasing : (last :: ids).Pairwise (· < ·)) {names : List (String × Int)}
    (known : ∀ id ∈ ids, ∃ v, a.slot? id = some (.value v)) (distinct : (ids.filterMap a.resultName?).Nodup)
    (new : ∀ name ∈ ids.filterMap a.resultName?, names.lookup name = none) : a.verifyCode i last names ids = .ok () := by
  induction ids generalizing i last names with
  | nil => rfl
  | cons id ids ih =>
    obtain ⟨v, found⟩ := known id (by simp)
    have code := valueInstruction sound (inside id (by simp)) found
    obtain ⟨later, rest⟩ := List.pairwise_cons.mp increasing
    have next := fun names => @ih (fun id member => inside id (by simp [member])) (i + 1) id rest names
      fun id member => known id (by simp [member])
    rw [List.filterMap_cons, resultNameFound found] at distinct new
    rw [codeStep sound (later id (by simp)) found code]
    cases result : v.hasResult with
    | false =>
      have unnamed : v.name = "" := Classical.byContradiction fun named => by simp [nameResult named] at result
      simp only [result, Bool.false_eq_true, if_false] at distinct new
      rw [if_pos unnamed]
      exact next names distinct new
    | true =>
      simp only [result, if_true, List.nodup_cons, List.forall_mem_cons] at distinct new
      split
      · exact next names distinct.2 new.2
      · rw [new.1]
        refine next _ distinct.2 fun name member => ?_
        have other : name ≠ v.name := fun same => distinct.1 (same ▸ member)
        simp only [List.lookup_cons, beq_false_of_ne other]
        exact new.2 name member

theorem codeFromStart : ((-1 : Int) :: a.code.toList).Pairwise (· < ·) := by
  refine List.pairwise_cons.mpr ⟨fun id member => ?_, sound.increasing⟩
  obtain ⟨s, found, -⟩ := sound.instructions id member
  have bound := slotBound found
  omega

theorem verdictReached : Verdict a a.code.toList a.verify := by
  rw [verifySymbols sound]
  exact codeVerdict sound (fun id member => member) 0 (codeFromStart sound) _

theorem verifiedKnown (verified : a.verify = .ok ()) : ∀ id ∈ a.code.toList, ∃ v, a.slot? id = some (.value v) := by
  have verdict := verdictReached sound
  rw [verified] at verdict
  cases verdict with
  | passed known => exact known

end Verdict

example : (Arena.new.after [.alloc (.value (.load "%1" 0)), .record 1, .load 0]).verify =
    .error (.error (.nameTaken 1 "%1" 2 1)) := rfl

def reference : Foreign := ⟨"*ir.Alloca", "*ir.alloca", "&\x7bName:%1 Type:i64\x7d", .operands []⟩

end Abacus.Arena
