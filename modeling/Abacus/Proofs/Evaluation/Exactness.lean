import Abacus.Proofs.Acceptance
import Abacus.Proofs.Sources.Spans

/-! Evaluation in words against evaluation in unbounded integers. Wrapping around commutes with sums, differences, products
and signs, so it may be put off to the end; it does not commute with division, whose operands have to be exact. -/
namespace Abacus

namespace Oper

def exact (o : Oper) (a b : Int) : Option Int :=
  match o with
  | .add => some (a + b)
  | .sub => some (a - b)
  | .mul => some (a * b)
  | .div => if b = 0 then none else some (a.tdiv b)

end Oper

def Sign.exact : Sign → Int → Int
  | .plus, v => v
  | .minus, v => -v

def InWord (v : Int) : Prop := Int64.minValue.toInt ≤ v ∧ v ≤ Int64.maxValue.toInt

namespace Expr

def exact (m : Int) : Expr → Option Int
  | .mem _ => some m
  | .int _ v => some v.toInt
  | .paren _ x => x.exact m
  | .signed _ (.known s) x => (x.exact m).map s.exact
  | .binary _ (.known o) l r => do o.exact (← l.exact m) (← r.exact m)
  | _ => none

def Undivided : Expr → Prop
  | .paren _ x | .signed _ _ x => x.Undivided
  | .binary _ op l r => op ≠ .known .div ∧ l.Undivided ∧ r.Undivided
  | _ => True

def Divisible (m : Int) : Expr → Prop
  | .paren _ x | .signed _ _ x => x.Divisible m
  | .binary _ op l r =>
    (op = .known .div → (∀ v, l.exact m = some v → InWord v) ∧ ∀ v, r.exact m = some v → InWord v) ∧
      l.Divisible m ∧ r.Divisible m
  | _ => True

end Expr

theorem wordInt {v : Int} (fits : InWord v) : (Int64.ofInt v).toInt = v := by
  obtain ⟨low, high⟩ := fits
  rw [Int64.toInt_minValue] at low
  rw [Int64.toInt_maxValue] at high
  exact Int64.toInt_ofInt_of_le low (by omega)

inductive Wraps : Option Int → Except (Stop EvalError) Int64 → Prop
  | value (v : Int) : Wraps (some v) (.ok (Int64.ofInt v))
  | zero (pos : Int) : Wraps none (.error (.error (.divisionByZero pos)))

theorem wrapsApply (o : Oper) (a b : Int) (fits : o = .div → InWord a ∧ InWord b) (pos : Int) :
    Wraps (o.exact a b) (applyCoded (.known o) (.ofInt a) (.ofInt b) pos) := by
  cases o with
  | add =>
    have sum : applyCoded (.known .add) (.ofInt a) (.ofInt b) pos = .ok (.ofInt (a + b)) :=
      congrArg Except.ok (Int64.ofInt_add a b).symm
    exact sum ▸ .value _
  | sub =>
    have difference : applyCoded (.known .sub) (.ofInt a) (.ofInt b) pos = .ok (.ofInt (a - b)) :=
      congrArg Except.ok (Int64.ofInt_sub a b).symm
    exact difference ▸ .value _
  | mul =>
    have product : applyCoded (.known .mul) (.ofInt a) (.ofInt b) pos = .ok (.ofInt (a * b)) :=
      congrArg Except.ok (Int64.ofInt_mul a b).symm
    exact product ▸ .value _
  | div =>
    obtain ⟨left, right⟩ := fits rfl
    have divisor : Int64.ofInt b = 0 ↔ b = 0 := by
      rw [← Int64.toInt_inj, wordInt right, Int64.toInt_zero]
    simp only [applyCoded, Coded.get, mapErrorOk, bind, Except.bind, Oper.apply, Oper.exact, divisor]
    split
    · exact .zero pos
    · rw [← Int64.ofInt_tdiv left.1 left.2 right.1 right.2]
      exact .value _

/- One induction for trees without divisions, where nothing has to be in range, and for those with them. -/
theorem evalWraps {x : Expr} (formed : x.WellFormed) {m : Int64} (divisible : x.Divisible m.toInt) :
    Wraps (x.exact m.toInt) (x.eval m) := by
  induction x with
  | absent | foreign => exact formed.elim
  | mem span =>
    have here := Wraps.value m.toInt
    rwa [Int64.ofInt_toInt] at here
  | int span v =>
    have here := Wraps.value v.toInt
    rwa [Int64.ofInt_toInt] at here
  | paren span x ih => exact ih formed divisible
  | signed span op x ih =>
    obtain ⟨⟨s, rfl⟩, inner⟩ := formed
    have operand := ih inner divisible
    simp only [Expr.exact, Expr.eval]
    generalize x.exact m.toInt = v at operand
    generalize x.eval m = w at operand
    cases operand with
    | zero pos => exact .zero pos
    | value v =>
      cases s with
      | plus => exact .value v
      | minus =>
        have opposite := Wraps.value (-v)
        rwa [Int64.ofInt_neg] at opposite
  | binary span op l r left right =>
    obtain ⟨⟨o, rfl⟩, formedLeft, formedRight⟩ := formed
    obtain ⟨operands, divisibleLeft, divisibleRight⟩ := divisible
    have first := left formedLeft divisibleLeft
    have second := right formedRight divisibleRight
    simp only [Expr.exact, Expr.eval]
    generalize l.exact m.toInt = a at first operands
    generalize l.eval m = u at first
    generalize r.exact m.toInt = b at second operands
    generalize r.eval m = v at second
    cases first with
    | zero pos => exact .zero pos
    | value a =>
      cases second with
      | zero pos => exact .zero pos
      | value b =>
        refine wrapsApply o a b (fun division => ?_) span.pos
        obtain ⟨dividend, divisor⟩ := operands (congrArg Coded.known division)
        exact ⟨dividend a rfl, divisor b rfl⟩

theorem undividedDivisible {x : Expr} (plain : x.Undivided) (m : Int) : x.Divisible m := by
  induction x with
  | absent | foreign | mem | int => trivial
  | paren span x ih => exact ih plain
  | signed span op x ih => exact ih plain
  | binary span op l r left right =>
    exact ⟨fun division => absurd division plain.1, left plain.2.1, right plain.2.2⟩

theorem undividedExact {x : Expr} (formed : x.WellFormed) (plain : x.Undivided) (m : Int) : ∃ v, x.exact m = some v := by
  induction x with
  | absent | foreign => exact formed.elim
  | mem span => exact ⟨m, rfl⟩
  | int span v => exact ⟨v.toInt, rfl⟩
  | paren span x ih => exact ih formed plain
  | signed span op x ih =>
    obtain ⟨⟨s, rfl⟩, inner⟩ := formed
    obtain ⟨v, value⟩ := ih inner plain
    exact ⟨s.exact v, by simp only [Expr.exact, value, Option.map_some]⟩
  | binary span op l r left right =>
    obtain ⟨⟨o, rfl⟩, formedLeft, formedRight⟩ := formed
    obtain ⟨other, plainLeft, plainRight⟩ := plain
    obtain ⟨a, first⟩ := left formedLeft plainLeft
    obtain ⟨b, second⟩ := right formedRight plainRight
    simp only [Expr.exact, first, second, bind, Option.bind]
    cases o with
    | add | sub | mul => exact ⟨_, rfl⟩
    | div => exact absurd rfl other

theorem belowTrans {a b c : Node} (above : Node.Below a b) (below : Node.Below b c) : Node.Below a c := by
  induction below with
  | root => exact above
  | child _ member ih => exact .child ih member

theorem belowRoot {a c : Node} (below : Node.Below a c) : c = a ∨ ∃ b ∈ a.children, Node.Below b c := by
  induction below with
  | root => exact .inl rfl
  | child above member ih =>
    rcases ih with rfl | ⟨b, inside, rest⟩
    · exact .inr ⟨_, member, .root⟩
    · exact .inr ⟨b, inside, .child rest member⟩

def Ranged (m : Int) (x : Expr) : Prop :=
  ∀ y : Expr, Node.Below (.expr x) (.expr y) → ∀ v, y.exact m = some v → InWord v

theorem rangedPart {m : Int} {x y : Expr} (ranged : Ranged m x) (member : .expr y ∈ (Node.expr x).children) :
    Ranged m y :=
  fun z below => ranged z (belowTrans (.child .root member) below)

theorem rangedWhole {m : Int} {x : Expr} (own : ∀ v, x.exact m = some v → InWord v)
    (parts : ∀ y ∈ x.operands, Ranged m y) : Ranged m x := by
  intro z below
  rcases belowRoot below with same | ⟨b, member, rest⟩
  · cases same
    exact own
  · obtain ⟨y, inside, rfl⟩ := List.mem_map.mp member
    exact parts y inside z rest

theorem rangedDivisible {m : Int} {x : Expr} (ranged : Ranged m x) : x.Divisible m := by
  induction x with
  | absent | foreign | mem | int => trivial
  | paren span x ih => exact ih (rangedPart ranged (by simp [Node.children, Expr.operands]))
  | signed span op x ih => exact ih (rangedPart ranged (by simp [Node.children, Expr.operands]))
  | binary span op l r left right =>
    have first : Ranged m l := rangedPart ranged (by simp [Node.children, Expr.operands])
    have second : Ranged m r := rangedPart ranged (by simp [Node.children, Expr.operands])
    exact ⟨fun _ => ⟨first l .root, second r .root⟩, left first, right second⟩

theorem evalRuns (x : Expr) (env : Env) :
    Env.eval x env = match x.eval env.mem with
      | .ok v => .ok v env
      | .error e => .error e env := by
  simp only [Env.eval, bind, EStateM.bind, getOk]
  cases x.eval env.mem <;> rfl

/- Without divisions an expression has a value, which is that in unbounded integers wrapped around at the end. With
divisions, if no part that has a value leaves the range of words, there is a division by zero just if there is one in
unbounded integers, and the value is the same otherwise. The state is left as it is. -/
theorem evalExact {x : Expr} (formed : x.WellFormed) (env : Env) :
    (x.Undivided → ∃ v w, x.exact env.mem.toInt = some v ∧ Env.eval x env = .ok w env ∧ w.toInt = v.bmod Int64.size) ∧
    (Ranged env.mem.toInt x →
      ((∃ pos, Env.eval x env = .error (.error (.divisionByZero pos)) env) ↔ x.exact env.mem.toInt = none) ∧
        ∀ v, x.exact env.mem.toInt = some v → ∃ w, Env.eval x env = .ok w env ∧ w.toInt = v) := by
  constructor
  · intro plain
    obtain ⟨v, value⟩ := undividedExact formed plain env.mem.toInt
    have wraps := evalWraps formed (undividedDivisible plain env.mem.toInt)
    rw [value] at wraps
    refine ⟨v, .ofInt v, value, ?_, Int64.toInt_ofInt⟩
    rw [evalRuns]
    generalize x.eval env.mem = result at wraps
    cases wraps
    rfl
  · intro ranged
    have whole := ranged x .root
    have wraps := evalWraps formed (rangedDivisible ranged)
    rw [evalRuns]
    generalize x.exact env.mem.toInt = value at whole wraps
    generalize x.eval env.mem = result at wraps
    cases wraps with
    | value v =>
      refine ⟨by simp, ?_⟩
      rintro _ ⟨⟩
      exact ⟨_, rfl, wordInt (whole v rfl)⟩
    | zero pos => exact ⟨iff_of_true ⟨pos, rfl⟩ rfl, by simp⟩

def tripled : Expr :=
  .binary ⟨0, 0⟩ (.known .mul) (.paren ⟨0, 0⟩ (.binary ⟨0, 0⟩ (.known .add) (.mem ⟨0, 0⟩) (.int ⟨0, 0⟩ 1))) (.int ⟨0, 0⟩ 3)

def neighbours : Expr :=
  .binary ⟨0, 0⟩ (.known .div) (.mem ⟨0, 0⟩) (.binary ⟨0, 0⟩ (.known .add) (.mem ⟨0, 0⟩) (.int ⟨0, 0⟩ 1))

theorem limitsExact :
    (∃ v w, tripled.exact Int64.maxValue.toInt = some v ∧ v = 27670116110564327424 ∧
      Env.eval tripled { mem := Int64.maxValue } = .ok w { mem := Int64.maxValue } ∧ w.toInt = -9223372036854775808) ∧
    Ranged (-1) neighbours ∧ neighbours.exact (-1) = none ∧
      ∃ pos, Env.eval neighbours { mem := -1 } = .error (.error (.divisionByZero pos)) { mem := -1 } := by
  have formed : tripled.WellFormed ∧ neighbours.WellFormed := by
    simp [tripled, neighbours, Expr.WellFormed]
  have plain : tripled.Undivided := by
    simp [tripled, Expr.Undivided]
  have word : ∀ v ∈ [(-1 : Int), 0, 1], InWord v := by
    unfold InWord
    decide
  have literal (n : Int64) (fits : InWord n.toInt) : Ranged (-1) (.int ⟨0, 0⟩ n) :=
    rangedWhole (by rintro v ⟨⟩; exact fits) (by simp [Expr.operands])
  have cell : Ranged (-1) (.mem ⟨0, 0⟩) :=
    rangedWhole (by rintro v ⟨⟩; exact word (-1) (by simp)) (by simp [Expr.operands])
  have sum : Ranged (-1) (.binary ⟨0, 0⟩ (.known .add) (.mem ⟨0, 0⟩) (.int ⟨0, 0⟩ 1)) := by
    refine rangedWhole (by rintro v ⟨⟩; exact word 0 (by simp)) ?_
    simpa [Expr.operands] using ⟨cell, literal 1 (word 1 (by simp))⟩
  have ranged : Ranged (-1) neighbours := by
    refine rangedWhole (by rintro v ⟨⟩) ?_
    simpa [neighbours, Expr.operands] using ⟨cell, sum⟩
  have none : neighbours.exact (-1) = none := rfl
  obtain ⟨v, w, value, run, wraps⟩ := (evalExact formed.1 { mem := Int64.maxValue }).1 plain
  have known : v = 27670116110564327424 := by
    have here : tripled.exact Int64.maxValue.toInt = some 27670116110564327424 := rfl
    exact Option.some.inj (value.symm.trans here)
  refine ⟨⟨v, w, value, known, run, ?_⟩, ranged, none, ?_⟩
  · rw [wraps, known]
    rfl
  · exact ((evalExact formed.2 { mem := -1 }).2 ranged).1.mpr none

end Abacus
