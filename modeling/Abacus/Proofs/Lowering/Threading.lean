import Abacus.Proofs.Lowering.Growth
import Mathlib.Tactic.SplitIfs

/-! Values in which every number is used once. An expression leaves one number that is still to be used, and a statement
uses it up, so any number of statements can follow each other. -/
namespace Abacus

namespace Value

def onMemory : Value → Bool
  | .global _ _ | .alloca _ _ => false
  | .load _ src => src = 0
  | .store _ dst => dst = 0
  | .const _ | .binop _ _ _ _ | .print _ => true

end Value

def uses (vs : List Value) : List Int := vs.flatMap Value.operands

theorem usesAppend (vs ws : List Value) : uses (vs ++ ws) = uses vs ++ uses ws := List.flatMap_append

/- The values of an expression, the first of which has the handle `n`: each of them but `id` is used once, and nothing
else is used but the memory cell. -/
structure Threads (n : Nat) (new : List Value) (id : Int) : Prop where
  scalar : ∀ v ∈ new, v.isScalar = true
  memory : ∀ v ∈ new, v.onMemory = true
  inside : n ≤ id ∧ id < n + new.length
  once : ∀ h : Int, 0 < h → (uses new).count h = if n ≤ h ∧ h < n + new.length ∧ h ≠ id then 1 else 0

theorem threadsLeaf (n : Nat) {v : Value} (scalar : v.isScalar = true) (memory : v.onMemory = true)
    (free : ∀ h ∈ v.operands, h = 0) : Threads n [v] n where
  scalar := by simpa using scalar
  memory := by simpa using memory
  inside := by
    simp only [List.length_singleton]
    omega
  once h positive := by
    have unused : h ∉ uses [v] := by
      intro member
      have zero : h = 0 := free h (by simpa [uses] using member)
      omega
    rw [List.count_eq_zero_of_not_mem unused, if_neg]
    simp only [List.length_singleton]
    omega

theorem threadsMinus {n : Nat} {new : List Value} {i : Int} (x : Threads n new i) (name : String) :
    Threads n (new ++ [.const 0, .binop name (.known .sub) (n + new.length : Nat) i]) (n + new.length + 1 : Nat) where
  scalar := by simpa [or_imp, forall_and, Value.isScalar] using x.scalar
  memory := by simpa [or_imp, forall_and, Value.onMemory] using x.memory
  inside := by
    simp only [List.length_append, List.length_cons, List.length_nil]
    omega
  once h positive := by
    have inside := x.inside
    have last : uses [.const 0, .binop name (.known .sub) (n + new.length : Nat) i] =
        [((n + new.length : Nat) : Int), i] := rfl
    rw [usesAppend, List.count_append, x.once h positive, last]
    simp only [List.count_cons, List.count_nil, List.length_append, List.length_cons, List.length_nil, beq_iff_eq]
    split_ifs <;> omega

theorem threadsBinary {n : Nat} {new more : List Value} {i j : Int} (x : Threads n new i)
    (y : Threads (n + new.length) more j) (name : String) (o : Coded Oper) :
    Threads n (new ++ (more ++ [.binop name o i j])) (n + new.length + more.length : Nat) where
  scalar := by simpa [or_imp, forall_and, Value.isScalar] using ⟨x.scalar, y.scalar⟩
  memory := by simpa [or_imp, forall_and, Value.onMemory] using ⟨x.memory, y.memory⟩
  inside := by
    simp only [List.length_append, List.length_cons, List.length_nil]
    omega
  once h positive := by
    have left := x.inside
    have right := y.inside
    have last : uses [.binop name o i j] = [i, j] := rfl
    rw [usesAppend, usesAppend, List.count_append, List.count_append, x.once h positive, y.once h positive, last]
    simp only [List.count_cons, List.count_nil, List.length_append, List.length_cons, List.length_nil, beq_iff_eq]
    split_ifs <;> omega

theorem appendsThreads {vs new : List Value} {x : Expr} {id : Int} (appends : x.Appends vs new id) :
    Threads vs.length new id := by
  induction appends with
  | mem vs span => exact threadsLeaf _ rfl rfl (by simp [Value.operands])
  | int vs span v => exact threadsLeaf _ rfl rfl (by simp [Value.operands])
  | paren span inner ih => exact ih
  | plus span inner ih => exact ih
  | @minus vs new x id span inner ih =>
    have minus := threadsMinus ih (freshName (vs ++ new ++ [.const 0]))
    simpa only [List.length_append] using minus
  | @binary vs new more l r i j span o left right ihl ihr =>
    rw [List.length_append] at ihr
    have binary := threadsBinary ihl ihr (freshName (vs ++ new ++ more)) (.known o)
    simpa only [List.length_append] using binary

def numberAt (n : Nat) (new : List Value) (h : Int) : Bool := (behind new (h - n)).any Value.isScalar

/- The values of statements: every number is used once, and nothing else is used but the memory cell. -/
structure Linear (n : Nat) (new : List Value) : Prop where
  memory : ∀ v ∈ new, v.onMemory = true
  once : ∀ h : Int, 0 < h → (uses new).count h = if numberAt n new h then 1 else 0

theorem linearNil (n : Nat) : Linear n [] where
  memory := by simp
  once h positive := by
    have none : numberAt n [] h = false := by simp [numberAt, behind]
    simp [none, uses]

theorem numberAtAppend (n : Nat) (new more : List Value) (h : Int) :
    numberAt n (new ++ more) h = (numberAt n new h || numberAt (n + new.length) more h) := by
  have shift : (h - n).toNat - new.length = (h - (n + new.length : Nat)).toNat := by omega
  unfold numberAt behind
  by_cases before : h - n < 0
  · rw [if_pos before, if_pos before, if_pos (by omega)]
    rfl
  · rw [if_neg before, if_neg before]
    by_cases inside : (h - n).toNat < new.length
    · rw [List.getElem?_append_left inside, if_pos (by omega)]
      simp
    · rw [List.getElem?_append_right (by omega), if_neg (by omega), shift,
        List.getElem?_eq_none (Nat.le_of_not_lt inside)]
      rfl

theorem numberAtBound {n : Nat} {new : List Value} {h : Int} (number : numberAt n new h = true) :
    n ≤ h ∧ h < n + new.length := by
  cases found : behind new (h - n) with
  | none => simp [numberAt, found] at number
  | some v =>
    have bound := behindBound found
    omega

theorem linearAppend {n : Nat} {new more : List Value} (first : Linear n new) (second : Linear (n + new.length) more) :
    Linear n (new ++ more) where
  memory v member := (List.mem_append.mp member).elim (first.memory v) (second.memory v)
  once h positive := by
    rw [usesAppend, List.count_append, first.once h positive, second.once h positive, numberAtAppend]
    cases left : numberAt n new h with
    | false => simp
    | true =>
      have right : numberAt (n + new.length) more h = false := by
        rw [← Bool.not_eq_true]
        intro right
        have bound := numberAtBound left
        have bound' := numberAtBound right
        omega
      simp [right]

theorem numberAtScalars {n : Nat} {new : List Value} (scalar : ∀ v ∈ new, v.isScalar = true) (h : Int) :
    numberAt n new h = true ↔ n ≤ h ∧ h < n + new.length := by
  refine ⟨numberAtBound, fun bound => ?_⟩
  have inside : (h - n).toNat < new.length := by omega
  rw [numberAt, behind, if_neg (by omega), List.getElem?_eq_getElem inside]
  exact scalar _ (List.getElem_mem inside)

theorem linearStmt {n : Nat} {new : List Value} {i : Int} (x : Threads n new i) {last : Value}
    (silent : last.isScalar = false) (memory : last.onMemory = true)
    (consumes : ∀ h : Int, 0 < h → last.operands.count h = if h = i then 1 else 0) : Linear n (new ++ [last]) where
  memory := by simpa [or_imp, forall_and] using ⟨x.memory, memory⟩
  once h positive := by
    have number : numberAt (n + new.length) [last] h = false := by
      rw [← Bool.not_eq_true]
      intro number
      have bound := numberAtBound number
      obtain rfl : h = (n + new.length : Nat) := by
        simp only [List.length_singleton] at bound
        omega
      simp [numberAt, behind, silent] at number
    have inside := x.inside
    have only : uses [last] = last.operands := by simp [uses]
    rw [usesAppend, List.count_append, x.once h positive, only, consumes h positive, numberAtAppend, number, Bool.or_false]
    simp only [numberAtScalars x.scalar]
    split_ifs <;> omega

theorem stmtAppendsLinear {vs new : List Value} {s : Stmt} (appends : s.Appends vs new) : Linear vs.length new := by
  cases appends with
  | assign span value =>
    refine linearStmt (appendsThreads value) rfl rfl fun h positive => ?_
    simp only [Value.operands, List.count_cons, List.count_nil, beq_iff_eq]
    split_ifs <;> omega
  | print span value =>
    refine linearStmt (appendsThreads value) rfl rfl fun h positive => ?_
    simp only [Value.operands, List.count_cons, List.count_nil, beq_iff_eq]
    split_ifs <;> omega

end Abacus
