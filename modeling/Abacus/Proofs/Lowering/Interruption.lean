import Abacus.Proofs.Arena.Recording
import Abacus.Proofs.Lowering.Threading
import Mathlib.Data.List.Induction

/-! Lowering of any tree, also of one that lowering stops at somewhere inside. Whatever it had done by then is as sound as
if it had been asked for: an interrupted lowering leaves no name that was drawn and not used, and no instruction that was
not recorded. -/
namespace Abacus

open Arena (numberName)

def Node.lower : Node → Build Unit
  | .program p => p.lower
  | .stmt s => s.lower
  | .expr x => discard x.lower
  | .foreign _ => throw (.fault .node)

def Arena.lowered (a : Arena) (nodes : List Node) : Arena := nodes.foldl (fun a n => n.lower.reached a) a

theorem grownReached {α : Type} {b : Build α} {a : Arena} {vs : List Value} {formed : Prop} {post : α → List Value → Prop}
    (grown : Grown vs formed post (b a)) : ∃ new, (b.reached a).Holds (vs ++ new) := by
  unfold Build.reached
  generalize b a = result at grown
  cases grown with
  | through holds met => exact ⟨_, holds⟩
  | stopped holds malformed => exact ⟨_, holds⟩

theorem nodeReached (n : Node) {a : Arena} {vs : List Value} (holds : a.Holds vs) :
    ∃ new, (n.lower.reached a).Holds (vs ++ new) := by
  cases n with
  | program p => exact grownReached (stmtsGrown p.stmts holds)
  | stmt s => exact grownReached (stmtGrown s holds)
  | expr x =>
    rw [Node.lower, Build.discardReached]
    exact grownReached (exprGrown x holds)
  | foreign kind => exact ⟨[], by rwa [List.append_nil]⟩

theorem nodesReached (nodes : List Node) {a : Arena} {vs : List Value} (holds : a.Holds vs) :
    ∃ new, (a.lowered nodes).Holds (vs ++ new) := by
  induction nodes generalizing a vs with
  | nil => exact ⟨[], by rwa [List.append_nil]⟩
  | cons n nodes ih =>
    obtain ⟨new, holds'⟩ := nodeReached n holds
    obtain ⟨more, holds''⟩ := ih holds'
    exact ⟨new ++ more, by simpa [Arena.lowered] using holds''⟩

theorem codeCollected {β : Type} {a : Arena} {vs : List Value} (values : a.values.toList = vs.map Slot.value) {f : Int → List β}
    {g : Value → List β} (same : ∀ id v, a.slot? id = some (.value v) → v.isInstruction = true → f id = g v)
    (none : ∀ v, v.isInstruction = false → g v = []) {done todo : List Value} (split : vs = done ++ todo) :
    (handles Value.isInstruction 0 done).flatMap f = done.flatMap g := by
  induction done using List.reverseRecOn generalizing todo with
  | nil => rfl
  | append_singleton done v ih =>
    have split' : vs = done ++ v :: todo := by simpa using split
    have slot : a.slot? done.length = some (.value v) := by
      rw [Arena.slotBehind values, split', behindLast]
      rfl
    rw [handlesSnoc, List.flatMap_append, ih split', List.flatMap_append, Nat.zero_add]
    cases code : v.isInstruction with
    | false => simp [none v code]
    | true => simp [same _ v slot code]

theorem namesCounted {vs : List Value} (laid : Laid vs) {done todo : List Value} (split : vs = done ++ todo) :
    done.flatMap (fun v => if v.isNamed then [v.name] else []) =
      (List.range' 1 (done.countP Value.isNamed)).map numberName := by
  induction done using List.reverseRecOn generalizing todo with
  | nil => rfl
  | append_singleton done v ih =>
    have split' : vs = done ++ v :: todo := by simpa using split
    rw [List.flatMap_append, ih split', List.countP_append, List.countP_singleton]
    cases named : v.isNamed with
    | false => simp [named]
    | true =>
      have name : v.name = numberName (1 + done.countP Value.isNamed) := by
        rw [fitsName (laid done v todo split') named, freshName, fresh, Nat.add_comm]
        rfl
      simp [named, name, List.range'_1_concat]

theorem holdsNames {a : Arena} {vs : List Value} (holds : a.Holds vs) :
    a.resultNames = (List.range' 1 (vs.countP Value.isNamed)).map numberName := by
  rw [← namesCounted holds.laid (List.append_nil vs).symm, Arena.resultNames, holds.code, List.filterMap_eq_flatMap_toList]
  refine codeCollected holds.values (fun id v found code => ?_) (fun v value => ?_) (List.append_nil vs).symm
  · rw [Arena.resultNameFound found]
    cases v <;> first | rfl | simp [Value.isInstruction] at code
  · cases v <;> first | rfl | simp [Value.isInstruction] at value

theorem handlesPrefix (keep : Value → Bool) (i : Nat) (vs new : List Value) :
    handles keep i vs <+: handles keep i (vs ++ new) := by
  induction vs generalizing i with
  | nil => exact List.nil_prefix
  | cons v vs ih =>
    simp only [List.cons_append, handles]
    split
    · exact List.cons_prefix_cons.mpr ⟨rfl, ih (i + 1)⟩
    · exact ih (i + 1)

theorem holdsPrefix {a b : Arena} {vs new : List Value} (before : a.Holds vs) (after : b.Holds (vs ++ new)) :
    a.values.toList <+: b.values.toList ∧ a.code.toList <+: b.code.toList := by
  constructor
  · rw [before.values, after.values, List.map_append]
    exact List.prefix_append ..
  · rw [before.code, after.code]
    exact handlesPrefix ..

/- Whatever trees are lowered one after another and wherever lowering stops in them: the verifier finds nothing, results
are numbered without a gap, what was there at any time is still there, and there is a text. -/
theorem interruptedSound (nodes : List Node) :
    (Arena.new.lowered nodes).verify = .ok () ∧
      (∃ k, (Arena.new.lowered nodes).resultNames = (List.range' 1 k).map numberName) ∧
      (∀ done todo, nodes = done ++ todo →
        (Arena.new.lowered done).values.toList <+: (Arena.new.lowered nodes).values.toList ∧
          (Arena.new.lowered done).code.toList <+: (Arena.new.lowered nodes).code.toList) ∧
      ∃ text a, Build.emit (Arena.new.lowered nodes) = .ok text a := by
  obtain ⟨new, holds⟩ := nodesReached nodes newHolds
  refine ⟨Arena.verified holds.toContains holds.laid, ⟨_, holdsNames holds⟩, ?_, _, _, Build.emitOk holds⟩
  rintro done todo rfl
  obtain ⟨early, before⟩ := nodesReached done newHolds
  obtain ⟨late, after⟩ := nodesReached todo before
  have joined : (Arena.new.lowered done).lowered todo = Arena.new.lowered (done ++ todo) := List.foldl_append.symm
  rw [joined] at after
  exact holdsPrefix before after

example : (Arena.new.lowered [.expr (.binary ⟨0, 0⟩ (.known .add) (.mem ⟨0, 0⟩) .absent), .stmt .absent,
    .stmt (.print ⟨0, 0⟩ (.mem ⟨0, 0⟩))]).values.toList =
      [.value memory, .value (.load "%1" 0), .value (.load "%2" 0), .value (.print 2)] := by
  decide +kernel

end Abacus
