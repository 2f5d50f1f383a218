import Abacus.Proofs.Arena.Execution

/-! Executing the code of an arena over its values. This comes to the same as running all the values one after another,
constants included. -/
namespace Abacus

namespace Arena

def worth (a : Arena) (s : Direct) (id : Int) : Int64 :=
  match a.slot? id with
  | some (.value (.const v)) => v
  | _ => s.results id

def executeOne (a : Arena) (s : Direct) (id : Int) : Option Direct :=
  match a.slot? id with
  | some (.value (.load _ src)) => some (s.define id (s.cells src))
  | some (.value (.store src dst)) => some { s with cells := Function.update s.cells dst (a.worth s src) }
  | some (.value (.binop _ (.known o) l r)) => (o.apply (a.worth s l) (a.worth s r) 0).toOption.map (s.define id)
  | some (.value (.print x)) => some { s with printed := s.printed ++ [a.worth s x] }
  | _ => some s

def executeAll (a : Arena) (s : Direct) : List Int → Except Direct Direct
  | [] => .ok s
  | id :: ids =>
    match a.executeOne s id with
    | some t => a.executeAll t ids
    | none => .error s

/- The code from the start, where all cells hold zero; an error holds the state that was reached. -/
def execute (a : Arena) : Except Direct Direct := a.executeAll {} a.code.toList

theorem worthConst {a : Arena} {id : Int} {c : Int64} (found : a.slot? id = some (.value (.const c))) (s : Direct) :
    a.worth s id = c := by
  rw [worth, found]

theorem worthCode {a : Arena} {id : Int} {v : Value} (found : a.slot? id = some (.value v)) (code : v.isInstruction = true)
    (s : Direct) : a.worth s id = s.results id := by
  rw [worth, found]
  cases v with
  | global | const => simp [Value.isInstruction] at code
  | load | store | alloca | binop | print => rfl

theorem worthResults {a : Arena} {s t : Direct} {id : Int} (same : t.results id = s.results id) :
    a.worth t id = a.worth s id := by
  unfold worth
  split
  · rfl
  · exact same

end Arena

structure Alike (a : Arena) (done : List Value) (s t : Direct) : Prop where
  cells : t.cells = s.cells
  printed : t.printed = s.printed
  results : ∀ id, Scalar done id → a.worth t id = s.results id

inductive Coincide : Except Direct Direct → Except Direct Direct → Prop
  | done {s t : Direct} (cells : t.cells = s.cells) (printed : t.printed = s.printed) : Coincide (.ok s) (.ok t)
  | stopped {s t : Direct} (cells : t.cells = s.cells) (printed : t.printed = s.printed) : Coincide (.error s) (.error t)

section Step

variable {a : Arena} {done : List Value} {v : Value} {s t : Direct} (alike : Alike a done s t)
include alike

theorem silentAlike {s' t' : Direct} (silent : v.isScalar = false) (cells : t'.cells = s'.cells)
    (printed : t'.printed = s'.printed) (kept : s'.results = s.results) (kept' : t'.results = t.results) :
    Alike a (done ++ [v]) s' t' where
  cells := cells
  printed := printed
  results id scalar := by
    rcases scalarSnoc scalar with old | ⟨-, number⟩
    · rw [Arena.worthResults (congrFun kept' id), kept]
      exact alike.results id old
    · simp [silent] at number

theorem resultAlike (found : a.slot? done.length = some (.value v)) (code : v.isInstruction = true) (x : Int64) :
    Alike a (done ++ [v]) (s.define done.length x) (t.define done.length x) where
  cells := alike.cells
  printed := alike.printed
  results id scalar := by
    rcases scalarSnoc scalar with old | ⟨rfl, -⟩
    · have bound := scalarBound old
      have other : id ≠ done.length := by omega
      have kept : (s.define done.length x).results id = s.results id := Function.update_of_ne other ..
      have kept' : (t.define done.length x).results id = t.results id := Function.update_of_ne other ..
      rw [kept, Arena.worthResults kept']
      exact alike.results id old
    · rw [Arena.worthCode found code]
      simp [Direct.define]

theorem constAlike {c : Int64} (found : a.slot? done.length = some (.value (.const c))) :
    Alike a (done ++ [.const c]) (s.define done.length c) t where
  cells := alike.cells
  printed := alike.printed
  results id scalar := by
    rcases scalarSnoc scalar with old | ⟨rfl, -⟩
    · have bound := scalarBound old
      have other : id ≠ done.length := by omega
      have kept : (s.define done.length c).results id = s.results id := Function.update_of_ne other ..
      rw [kept]
      exact alike.results id old
    · rw [Arena.worthConst found]
      simp [Direct.define]

end Step

theorem quietAlike {a : Arena} {done : List Value} {v : Value} {s t : Direct} (alike : Alike a done s t)
    (found : a.slot? done.length = some (.value v)) (quiet : v.isInstruction = false) :
    ∃ s', s.perform done.length v = some s' ∧ Alike a (done ++ [v]) s' t := by
  cases v with
  | load | store | alloca | binop | print => simp [Value.isInstruction] at quiet
  | global name type => exact ⟨s, rfl, silentAlike alike rfl alike.cells alike.printed rfl rfl⟩
  | const c => exact ⟨_, rfl, constAlike alike found⟩

inductive Paired (a : Arena) (done : List Value) : Option Direct → Option Direct → Prop
  | next {s t : Direct} (alike : Alike a done s t) : Paired a done (some s) (some t)
  | stop : Paired a done none none

theorem codePaired {a : Arena} {done : List Value} {v : Value} {s t : Direct} (alike : Alike a done s t)
    (found : a.slot? done.length = some (.value v)) (code : v.isInstruction = true) (fits : Fits done v) :
    Paired a (done ++ [v]) (s.perform done.length v) (a.executeOne t done.length) := by
  rw [Arena.executeOne, found]
  cases v with
  | global | const => simp [Value.isInstruction] at code
  | load name src =>
    dsimp only
    rw [alike.cells]
    exact .next (resultAlike alike found code _)
  | store src dst =>
    dsimp only
    rw [alike.cells, alike.results src fits.1]
    exact .next (silentAlike alike rfl rfl alike.printed rfl rfl)
  | alloca name type => exact .next (silentAlike alike rfl alike.cells alike.printed rfl rfl)
  | binop name op l r =>
    obtain ⟨-, ⟨o, rfl⟩, left, right⟩ := fits
    dsimp only [Direct.perform]
    rw [alike.results l left, alike.results r right]
    cases o.apply (s.results l) (s.results r) 0 with
    | ok x => exact .next (resultAlike alike found code x)
    | error e => exact .stop
  | print x =>
    dsimp only [Direct.perform]
    rw [alike.printed, alike.results x fits]
    exact .next (silentAlike alike rfl alike.cells rfl rfl rfl)

theorem codeCoincides {a : Arena} {vs : List Value} (values : a.values.toList = vs.map Slot.value) (laid : Laid vs)
    {done todo : List Value} (split : vs = done ++ todo) {s t : Direct} (alike : Alike a done s t) :
    Coincide (s.performAll done.length todo) (a.executeAll t (handles Value.isInstruction done.length todo)) := by
  induction todo generalizing done s t with
  | nil => exact .done alike.cells alike.printed
  | cons v todo ih =>
    have found : a.slot? done.length = some (.value v) := by
      rw [Arena.slotBehind values, split, behindLast]
      rfl
    have rest := fun s t => @ih _ (splitNext split) s t
    rw [List.length_append, List.length_singleton] at rest
    rw [Direct.performAll, handles]
    cases code : v.isInstruction with
    | false =>
      obtain ⟨s', run, alike'⟩ := quietAlike alike found code
      rw [run]
      exact rest s' t alike'
    | true =>
      have outcome := codePaired alike found code (laid done v todo split)
      simp only [if_true, Arena.executeAll]
      generalize s.perform done.length v = one at outcome ⊢
      generalize a.executeOne t done.length = other at outcome ⊢
      cases outcome with
      | next alike' => exact rest _ _ alike'
      | stop => exact .stopped alike.cells alike.printed

theorem executeCoincides {a : Arena} {vs : List Value} (holds : a.Holds vs) :
    Coincide (({} : Direct).performAll 0 vs) a.execute := by
  have whole : vs = [] ++ vs := rfl
  have start : Alike a [] {} {} := ⟨rfl, rfl, fun id scalar => by
    obtain ⟨v, found, -⟩ := scalar
    simp [behind] at found⟩
  rw [Arena.execute, holds.code]
  exact codeCoincides holds.values holds.laid whole start

end Abacus
