import Abacus.Arena.Verify
import Abacus.Proofs.Arena.Calls
import Mathlib.Data.List.Nodup
import Mathlib.Data.List.Perm.Subperm

/-! What the verifier promises of the globals when values and the list of globals may have been replaced from outside.
It counts the listed handles and looks each one up under the name that it finds there. It does not ask whether a handle
is listed twice, and a name that is not registered is as good as one registered at handle zero; with these two ruled
out, each registered global is listed exactly once. -/
namespace Abacus

inductive Act where
  | call (c : Call)
  | setValues (values : Array Slot)
  | setGlobals (globals : Array Handle)
  deriving DecidableEq, Repr

def Act.apply (a : Arena) : Act → Arena
  | .call c => c.run.reached a
  | .setValues values => { a with values }
  | .setGlobals globals => { a with globals }

def Arena.acted (a : Arena) (acts : List Act) : Arena := acts.foldl Act.apply a

namespace Build

def SparesRegistry {α : Type} (b : Build α) : Prop := ∀ a, (b.reached a).registry = a.registry

theorem bindSpares {α β : Type} {p : Build α} {q : α → Build β} (first : p.SparesRegistry)
    (second : ∀ x, (q x).SparesRegistry) : (p >>= q).SparesRegistry := by
  intro a
  have kept := first a
  cases run : p a with
  | ok x b =>
    rw [reachedOk run] at kept
    have whole : (p >>= q).reached a = (q x).reached b := by rw [reached, bindOk run, reached]
    rw [whole, second x b, kept]
  | error e b =>
    rw [reachedError run] at kept
    rw [reachedError (bindError run q), kept]

theorem pureSpares {α : Type} (x : α) : (pure x : Build α).SparesRegistry := fun _ => rfl

theorem askSpares {α : Type} (f : Arena → Except (Stop Defect) α) : (ask f).SparesRegistry := by
  intro a
  cases asked : f a with
  | ok x => rw [reachedOk (askOk asked)]
  | error e => rw [reachedError (askError asked)]

theorem allocSpares (s : Slot) : (alloc s).SparesRegistry := fun a =>
  reachedEither (P := fun b => b.registry = a.registry) (allocCases s a) (fun _ => rfl) rfl

theorem recordSpares (id : Int) : (record id).SparesRegistry := fun a =>
  reachedEither (P := fun b => b.registry = a.registry) (recordCases id a) (fun _ => rfl) rfl

theorem nextNameSpares : nextName.SparesRegistry := fun a =>
  reachedEither (P := fun b => b.registry = a.registry) (nextNameCases a) (fun _ => rfl) rfl

theorem instructionSpares (v : Value) : (instruction v).SparesRegistry :=
  bindSpares (allocSpares (.value v)) fun id => bindSpares (recordSpares id) fun _ => pureSpares id

theorem discardSpares {α : Type} {b : Build α} (h : b.SparesRegistry) : SparesRegistry (discard b) := by
  intro a
  rw [discardReached]
  exact h a

end Build

namespace Arena

def NamedOnce (a : Arena) : Prop := (a.registry.map Prod.fst).Nodup

theorem sparedNamed {a b : Arena} (named : a.NamedOnce) (spared : b.registry = a.registry) : b.NamedOnce := by
  unfold NamedOnce
  rw [spared]
  exact named

theorem callNamed {a : Arena} (named : a.NamedOnce) (c : Call) : (c.run.reached a).NamedOnce := by
  cases c with
  | createGlobal name =>
    rw [Call.run, Build.discardReached]
    exact Build.reachedEither (Build.createGlobalCases name a) (fun admits => admittedOnce named admits) named
  | alloc s => exact sparedNamed named (Build.discardSpares (Build.allocSpares s) a)
  | record id => exact sparedNamed named (Build.recordSpares id a)
  | nextName => exact sparedNamed named (Build.discardSpares Build.nextNameSpares a)
  | const v => exact sparedNamed named (Build.discardSpares (Build.allocSpares _) a)
  | load src =>
    have spared : (Build.load src).SparesRegistry := Build.bindSpares (Build.askSpares _) fun _ =>
      Build.bindSpares Build.nextNameSpares fun _ => Build.instructionSpares _
    exact sparedNamed named (Build.discardSpares spared a)
  | store src dst =>
    have spared : (Build.store src dst).SparesRegistry := Build.bindSpares (Build.askSpares _) fun _ =>
      Build.instructionSpares _
    exact sparedNamed named (Build.discardSpares spared a)
  | alloca type =>
    have spared : (Build.alloca type).SparesRegistry :=
      Build.bindSpares Build.nextNameSpares fun _ => Build.instructionSpares _
    exact sparedNamed named (Build.discardSpares spared a)
  | binop op l r =>
    have spared : (Build.binop op l r).SparesRegistry :=
      Build.bindSpares Build.nextNameSpares fun _ => Build.instructionSpares _
    exact sparedNamed named (Build.discardSpares spared a)
  | print x => exact sparedNamed named (Build.discardSpares (Build.instructionSpares _) a)
  | freeze => exact named

theorem actNamed {a : Arena} (named : a.NamedOnce) (act : Act) : (act.apply a).NamedOnce := by
  cases act with
  | call c => exact callNamed named c
  | setValues values => exact named
  | setGlobals globals => exact named

theorem actedNamed {a : Arena} (named : a.NamedOnce) (acts : List Act) : (a.acted acts).NamedOnce := by
  induction acts generalizing a with
  | nil => exact named
  | cons act acts ih => exact ih (actNamed named act)

theorem newNamed : Arena.new.NamedOnce := by
  unfold NamedOnce
  decide

def Looked (a : Arena) (id : Int) : Prop :=
  ∃ name type, a.slot? id = some (.value (.global name type)) ∧ (a.registry.lookup name).getD 0 = id

theorem globalsLooked {a : Arena} {ids : List Int} {names : List (String × Int)} :
    (∃ all, a.verifyGlobals names ids = .ok all) ↔ ∀ id ∈ ids, a.Looked id := by
  induction ids generalizing names with
  | nil => simp [verifyGlobals]
  | cons id ids ih =>
    rw [List.forall_mem_cons]
    constructor
    · rintro ⟨all, passed⟩
      unfold verifyGlobals at passed
      split at passed
      · contradiction
      · rename_i name type found
        dsimp only at passed
        split at passed
        · rename_i same
          exact ⟨⟨name, type, found, same⟩, ih.mp ⟨all, passed⟩⟩
        · contradiction
      · contradiction
    · rintro ⟨⟨name, type, found, same⟩, rest⟩
      obtain ⟨all, passed⟩ := ih.mpr rest
      refine ⟨all, ?_⟩
      rw [verifyGlobals, found]
      simp only [same, if_true]
      exact passed

theorem verifiedLooked {a : Arena} (verified : a.verify = .ok ()) :
    a.globals.size = a.registry.length ∧ ∀ id ∈ a.globals.toList, a.Looked id := by
  unfold verify at verified
  split at verified
  · contradiction
  · rename_i size
    refine ⟨not_not.mp size, ?_⟩
    cases passed : a.verifyGlobals [] a.globals.toList with
    | ok all => exact globalsLooked.mp ⟨all, passed⟩
    | error e =>
      rw [passed] at verified
      contradiction

def nameAt (a : Arena) (id : Int) : String :=
  match a.slot? id with
  | some (.value v) => v.name
  | _ => ""

def Registered (a : Arena) (id : Int) : Prop :=
  ∃ name type, a.slot? id = some (.value (.global name type)) ∧ a.registry.lookup name = some id

theorem registeredName {a : Arena} {id : Int} (h : a.Registered id) : a.registry.lookup (a.nameAt id) = some id := by
  obtain ⟨name, type, found, lookup⟩ := h
  rw [nameAt, found]
  exact lookup

structure ListsOnce (a : Arena) : Prop where
  distinct : a.globals.toList.Nodup
  size : a.globals.size = a.registry.length
  registered : ∀ id ∈ a.globals.toList, a.Registered id
  declared : (a.globals.toList.map a.nameAt).Perm (a.registry.map Prod.fst)

theorem registeredDeclared {a : Arena} (distinct : a.globals.toList.Nodup) (size : a.globals.size = a.registry.length)
    (registered : ∀ id ∈ a.globals.toList, a.Registered id) :
    (a.globals.toList.map a.nameAt).Perm (a.registry.map Prod.fst) := by
  have apart : (a.globals.toList.map a.nameAt).Nodup := by
    refine distinct.map_on fun id member other member' same => ?_
    have here := registeredName (registered id member)
    rw [same, registeredName (registered other member')] at here
    exact (Option.some.inj here).symm
  have inside : a.globals.toList.map a.nameAt ⊆ a.registry.map Prod.fst := by
    intro name member
    obtain ⟨id, listed, rfl⟩ := List.mem_map.mp member
    obtain ⟨before, after, same, -⟩ := List.lookup_eq_some_iff.mp (registeredName (registered id listed))
    rw [same]
    simp
  refine (List.subperm_of_subset apart inside).perm_of_length_le ?_
  simp [size]

def ZeroRegistered (a : Arena) : Prop :=
  (0 : Int) ∈ a.globals.toList → a.registry.lookup (a.nameAt 0) ≠ none

theorem lookedRegistered {a : Arena} (zero : a.ZeroRegistered) {id : Int} (listed : id ∈ a.globals.toList)
    (looked : a.Looked id) : a.Registered id := by
  obtain ⟨name, type, found, same⟩ := looked
  refine ⟨name, type, found, ?_⟩
  cases lookup : a.registry.lookup name with
  | some other =>
    rw [lookup] at same
    exact congrArg some same
  | none =>
    -- an absent name passes at handle zero only
    rw [lookup] at same
    have here : (0 : Int) = id := same
    subst here
    have known := zero listed
    rw [nameAt, found] at known
    exact absurd lookup known

/- Whatever calls are made and however values and the list of globals are replaced: if the verifier finds nothing, there
are as many listed handles as registered names, and each names a global that is registered there, or that is not
registered and has handle zero. Just when the handles are distinct and the name at handle zero is registered, every
registered global is listed exactly once. -/
theorem verifiedListing {acts : List Act} {a : Arena} (reached : Arena.new.acted acts = a) (verified : a.verify = .ok ()) :
    a.NamedOnce ∧ a.globals.size = a.registry.length ∧
      (∀ id ∈ a.globals.toList, ∃ name type, a.slot? id = some (.value (.global name type)) ∧
        (a.registry.lookup name = some id ∨ a.registry.lookup name = none ∧ id = 0)) ∧
      (a.ListsOnce ↔ a.globals.toList.Nodup ∧ a.ZeroRegistered) := by
  obtain ⟨size, looked⟩ := verifiedLooked verified
  refine ⟨reached ▸ actedNamed newNamed acts, size, fun id listed => ?_, fun once => ?_, fun ⟨distinct, zero⟩ => ?_⟩
  · obtain ⟨name, type, found, same⟩ := looked id listed
    refine ⟨name, type, found, ?_⟩
    cases lookup : a.registry.lookup name with
    | some other =>
      rw [lookup] at same
      exact .inl (congrArg some same)
    | none =>
      rw [lookup] at same
      exact .inr ⟨rfl, Eq.symm same⟩
  · refine ⟨once.distinct, fun listed => ?_⟩
    rw [registeredName (once.registered 0 listed)]
    simp
  · have registered := fun id listed => lookedRegistered zero listed (looked id listed)
    exact ⟨distinct, size, registered, registeredDeclared distinct size registered⟩

theorem reversedListing :
    ∃ a, Arena.new.acted [.call (.createGlobal "x"), .call (.const 3), .setGlobals #[1, 0]] = a ∧ a.verify = .ok () ∧
      a.ListsOnce ∧ a.globals.toList.map a.nameAt = ["x", "mem"] := by
  refine ⟨_, rfl, rfl, ?_, rfl⟩
  refine (verifiedListing rfl rfl).2.2.2.mpr ⟨by decide, fun _ => ?_⟩
  decide

/- The verifier lets pass a list with one global twice, which leaves out the other one, and a global under a name that is
not registered at all. -/
theorem listingUnchecked :
    (∃ a, Arena.new.acted [.call (.createGlobal "x"), .setGlobals #[0, 0]] = a ∧ a.verify = .ok () ∧
      ¬ a.globals.toList.Nodup ∧ a.registry.map Prod.fst = ["mem", "x"] ∧
      a.globals.toList.map a.nameAt = ["mem", "mem"]) ∧
    ∃ a, Arena.new.acted [.setValues #[.value (.global "other" (.known .int))]] = a ∧ a.verify = .ok () ∧
      a.registry.map Prod.fst = ["mem"] ∧ a.globals.toList.map a.nameAt = ["other"] ∧
      a.registry.lookup "other" = none :=
  ⟨⟨_, rfl, rfl, by decide, rfl, rfl⟩, _, rfl, rfl, rfl, rfl, rfl⟩

end Arena

end Abacus
