import Abacus.Arena.Basic
import Abacus.Proofs.Assembly.Scanning

/-! Arenas that only the builder filled. Such an arena is determined by its values in the order of their allocation:
which of them are registered, which are code and which name comes next can be read off them. -/
namespace Abacus

section Effects

variable {α ε ε' σ : Type}

theorem getOk (s : σ) : (get : EStateM ε σ σ) s = .ok s s := rfl

theorem modifyOk (f : σ → σ) (s : σ) : (modify f : EStateM ε σ PUnit) s = .ok () (f s) := rfl

@[simp] theorem mapErrorOk (f : ε → ε') (x : α) : (Except.ok x).mapError f = .ok x := rfl

@[simp] theorem mapErrorError (f : ε → ε') (e : ε) : (Except.error e : Except ε α).mapError f = .error (f e) := rfl

end Effects

theorem lookupMember {α : Type} {l : List (String × α)} {name : String} {x : α} (once : (l.map Prod.fst).Nodup)
    (member : (name, x) ∈ l) : l.lookup name = some x := by
  obtain ⟨before, after, rfl⟩ := List.append_of_mem member
  refine List.lookup_eq_some_iff.mpr ⟨before, after, rfl, fun p inside => ?_⟩
  rw [List.map_append, List.map_cons, List.nodup_append] at once
  have apart := once.2.2 p.1 (List.mem_map_of_mem inside) name (by simp)
  rw [bne_iff_ne]
  exact apart.symm

namespace Value

def isScalar : Value → Bool
  | .const _ | .load _ _ | .binop _ _ _ _ => true
  | _ => false

def isNamed : Value → Bool
  | .load _ _ | .alloca _ _ | .binop _ _ _ _ => true
  | _ => false

end Value

def behind (vs : List Value) (id : Int) : Option Value := if id < 0 then none else vs[id.toNat]?

def Scalar (vs : List Value) (id : Int) : Prop := ∃ v, behind vs id = some v ∧ v.isScalar = true

def Cell (vs : List Value) (id : Int) : Prop := ∃ name, behind vs id = some (.global name (.known .int))

def fresh (vs : List Value) : Nat := vs.countP Value.isNamed + 1

def freshName (vs : List Value) : String := "%" ++ toString (fresh vs)

def takenSymbols : List String := [".str", "printf", "print", "main"]

def Fits (vs : List Value) : Value → Prop
  | .global name type => type = .known .int ∧ (∀ v ∈ vs, v.isGlobal = true ∧ v.name ≠ name) ∧
      Assembly.Token.Identifier name ∧ name ∉ takenSymbols
  | .const _ => True
  | .load name src => name = freshName vs ∧ Cell vs src
  | .store src dst => Scalar vs src ∧ Cell vs dst
  | .alloca name type => name = freshName vs ∧ type = .known .int
  | .binop name op l r => name = freshName vs ∧ (∃ o, op = .known o) ∧ Scalar vs l ∧ Scalar vs r
  | .print x => Scalar vs x

def Laid (vs : List Value) : Prop := ∀ done v todo, vs = done ++ v :: todo → Fits done v

theorem splitNext {vs done todo : List Value} {v : Value} (split : vs = done ++ v :: todo) :
    vs = (done ++ [v]) ++ todo := by
  simpa using split

theorem laidSnoc {vs : List Value} {v : Value} (laid : Laid vs) (fits : Fits vs v) : Laid (vs ++ [v]) := by
  intro done w todo split
  rcases List.eq_nil_or_concat todo with rfl | ⟨front, last, rfl⟩
  · obtain ⟨rfl, same⟩ := List.append_inj' split rfl
    cases same
    exact fits
  · have split' : vs ++ [v] = (done ++ w :: front) ++ [last] := by simpa using split
    obtain ⟨rfl, -⟩ := List.append_inj' split' rfl
    exact laid done w front rfl

theorem behindBound {vs : List Value} {id : Int} {v : Value} (h : behind vs id = some v) :
    0 ≤ id ∧ id < vs.length := by
  unfold behind at h
  split at h
  · simp at h
  · have bound := (List.getElem?_eq_some_iff.mp h).1
    omega

theorem behindAppend {vs : List Value} {id : Int} {v : Value} (h : behind vs id = some v) (more : List Value) :
    behind (vs ++ more) id = some v := by
  have bound := behindBound h
  unfold behind at h ⊢
  rw [if_neg (by omega)] at h ⊢
  rw [List.getElem?_append_left (by omega)]
  exact h

theorem behindLast (vs : List Value) (v : Value) (more : List Value) :
    behind (vs ++ v :: more) vs.length = some v := by
  simp [behind]

theorem behindSplit {vs : List Value} {id : Int} {v : Value} (h : behind vs id = some v) :
    ∃ done todo, vs = done ++ v :: todo ∧ id = done.length := by
  have bound := behindBound h
  rw [behind, if_neg (by omega)] at h
  obtain ⟨less, found⟩ := List.getElem?_eq_some_iff.mp h
  refine ⟨vs.take id.toNat, vs.drop (id.toNat + 1), ?_, ?_⟩
  · rw [← found, List.getElem_cons_drop, List.take_append_drop]
  · rw [List.length_take]
    omega

theorem scalarAppend {vs : List Value} {id : Int} (h : Scalar vs id) (more : List Value) :
    Scalar (vs ++ more) id := by
  obtain ⟨v, found, scalar⟩ := h
  exact ⟨v, behindAppend found more, scalar⟩

theorem cellAppend {vs : List Value} {id : Int} (h : Cell vs id) (more : List Value) : Cell (vs ++ more) id := by
  obtain ⟨name, found⟩ := h
  exact ⟨name, behindAppend found more⟩

theorem scalarSnoc {done : List Value} {v : Value} {id : Int} (h : Scalar (done ++ [v]) id) :
    Scalar done id ∨ id = done.length ∧ v.isScalar = true := by
  obtain ⟨w, found, scalar⟩ := h
  have bound := behindBound found
  rw [List.length_append, List.length_singleton] at bound
  by_cases old : id < done.length
  · left
    refine ⟨w, ?_, scalar⟩
    rw [behind, if_neg (by omega)] at found ⊢
    rwa [List.getElem?_append_left (by omega)] at found
  · right
    have last : id = done.length := by omega
    subst last
    rw [behindLast] at found
    cases found
    exact ⟨rfl, scalar⟩

def handles (keep : Value → Bool) (i : Nat) : List Value → List Int
  | [] => []
  | v :: vs => if keep v then i :: handles keep (i + 1) vs else handles keep (i + 1) vs

def registered (i : Nat) : List Value → List (String × Int)
  | [] => []
  | .global name _ :: vs => (name, i) :: registered (i + 1) vs
  | _ :: vs => registered (i + 1) vs

theorem handlesSnoc (keep : Value → Bool) (i : Nat) (vs : List Value) (v : Value) :
    handles keep i (vs ++ [v]) = handles keep i vs ++ if keep v then [((i + vs.length : Nat) : Int)] else [] := by
  induction vs generalizing i with
  | nil => simp [handles]
  | cons w vs ih =>
    simp only [List.cons_append, handles, ih, List.length_cons]
    have shift : i + 1 + vs.length = i + (vs.length + 1) := by omega
    split <;> simp [shift]

theorem handlesBound {keep : Value → Bool} {i : Nat} {vs : List Value} {id : Int} (h : id ∈ handles keep i vs) :
    i ≤ id ∧ id < i + vs.length := by
  induction vs generalizing i with
  | nil => simp [handles] at h
  | cons v vs ih =>
    rw [handles] at h
    split at h
    · rcases List.mem_cons.mp h with rfl | later
      · simp only [List.length_cons]
        omega
      · have bound := ih later
        simp only [List.length_cons]
        omega
    · have bound := ih h
      simp only [List.length_cons]
      omega

theorem registeredSnoc (i : Nat) (vs : List Value) {v : Value} (local' : v.isGlobal = false) :
    registered i (vs ++ [v]) = registered i vs := by
  induction vs generalizing i with
  | nil => cases v <;> simp [registered, Value.isGlobal] at local' ⊢
  | cons w vs ih => cases w <;> simp [registered, ih]

theorem registeredGlobal (i : Nat) (vs : List Value) (name : String) (type : Coded Ty) :
    registered i (vs ++ [.global name type]) = registered i vs ++ [(name, ((i + vs.length : Nat) : Int))] := by
  induction vs generalizing i with
  | nil => simp [registered]
  | cons v vs ih =>
    have shift : i + 1 + vs.length = i + (vs.length + 1) := by omega
    cases v <;> simp [registered, ih, shift]

def memory : Value := .global Arena.memName (.known .int)

structure Arena.Contains (a : Arena) (vs : List Value) : Prop where
  values : a.values.toList = vs.map Slot.value
  code : a.code.toList = handles Value.isInstruction 0 vs
  globals : a.globals.toList = handles Value.isGlobal 0 vs
  registry : a.registry = registered 0 vs

structure Arena.Holds (a : Arena) (vs : List Value) : Prop extends a.Contains vs where
  next : a.next = fresh vs
  writable : a.frozen = false
  laid : Laid vs
  memory : vs.head? = some memory

namespace Arena

theorem slotBehind {a : Arena} {vs : List Value} (h : a.values.toList = vs.map Slot.value) (id : Int) :
    a.slot? id = (behind vs id).map Slot.value := by
  unfold slot? behind
  split
  · rfl
  · rw [← Array.getElem?_toList, h, List.getElem?_map]

theorem slotFound {a : Arena} {vs : List Value} (h : a.values.toList = vs.map Slot.value) {id : Int} {v : Value}
    (found : behind vs id = some v) : a.slot id = .ok (.value v) := by
  simp [slot, slotBehind h, found]

end Arena

def Usable (vs : List Value) (id : Int) : Prop := ∃ v, behind vs id = some v ∧ v.hasResult = true

theorem scalarUsable {vs : List Value} {id : Int} (h : Scalar vs id) : Usable vs id := by
  obtain ⟨v, found, scalar⟩ := h
  refine ⟨v, found, ?_⟩
  cases v <;> simp [Value.isScalar, Value.hasResult] at scalar ⊢

theorem cellUsable {vs : List Value} {id : Int} (h : Cell vs id) : Usable vs id := by
  obtain ⟨name, found⟩ := h
  exact ⟨_, found, rfl⟩

theorem fitsUsable {vs : List Value} {v : Value} (fits : Fits vs v) : ∀ id ∈ v.operands, Usable vs id := by
  cases v with
  | global | const | alloca => simp [Value.operands]
  | load name src => simpa [Value.operands] using cellUsable fits.2
  | store src dst => simpa [Value.operands] using ⟨scalarUsable fits.1, cellUsable fits.2⟩
  | binop name op l r =>
    obtain ⟨-, -, left, right⟩ := fits
    simpa [Value.operands] using ⟨scalarUsable left, scalarUsable right⟩
  | print x => simpa [Value.operands] using scalarUsable fits

namespace Arena

theorem operandsChecked {a : Arena} {vs more : List Value} (h : a.values.toList = (vs ++ more).map Slot.value) {ids : List Handle}
    (usable : ∀ id ∈ ids, Usable vs id) : a.checkOperands vs.length ids = .ok () := by
  induction ids with
  | nil => rfl
  | cons id ids ih =>
    obtain ⟨v, found, result⟩ := usable id (by simp)
    have before : ¬ ((id : Int) ≥ (vs.length : Int)) := Int.not_le.mpr (behindBound found).2
    have here : a.checkOperand vs.length id = .ok () := by
      rw [checkOperand, if_neg before, slotFound h (behindAppend found more)]
      simp [Slot.known, bind, Except.bind, result, pure, Except.pure]
    rw [checkOperands, here]
    exact ih fun id member => usable id (by simp [member])

theorem usesChecked {a : Arena} {vs more : List Value} (h : a.values.toList = (vs ++ more).map Slot.value) {v : Value}
    (usable : ∀ id ∈ v.operands, Usable vs id) : a.checkUses vs.length (.value v) = .ok () :=
  operandsChecked h usable

end Arena

namespace Build

variable {a : Arena} {vs : List Value}

theorem bindOk {α β : Type} {p : Build α} {x : α} {a' : Arena} (h : p a = .ok x a') (q : α → Build β) :
    (p >>= q) a = q x a' := by
  simp [bind, EStateM.bind, h]

theorem askOk {α : Type} {f : Arena → Except (Stop Defect) α} {x : α} (h : f a = .ok x) : ask f a = .ok x a := by
  rw [ask, bindOk (getOk a), h]
  rfl

theorem writableOk (h : a.frozen = false) : ask Arena.checkWritable a = .ok () a :=
  askOk (by simp [Arena.checkWritable, h])

theorem allocOk (h : a.Contains vs) (writable : a.frozen = false) {v : Value} (plain : v.isGlobal = false)
    (usable : ∀ id ∈ v.operands, Usable vs id) :
    alloc (.value v) a = .ok (vs.length : Int) { a with values := a.values.push (.value v), closed := true } := by
  have size : a.values.size = vs.length := by simpa using congrArg List.length h.values
  have values : a.values.toList = (vs ++ []).map Slot.value := by simpa using h.values
  have checked := Arena.usesChecked values usable
  have operands : ask (fun a => a.checkUses a.values.size (.value v)) a = .ok () a :=
    askOk (by rw [size]; exact checked)
  rw [alloc, bindOk (writableOk writable), if_neg (by simp [Slot.isGlobal, plain])]
  dsimp only
  rw [bindOk operands, bindOk (modifyOk _ a), ← size]
  rfl

theorem codeBefore {keep : Value → Bool} {last : Int} (h : (handles keep 0 vs).getLast? = some last) :
    last < vs.length := by
  have bound := handlesBound (List.mem_of_getLast? h)
  omega

theorem recordOk {v : Value} {todo : List Value} (values : a.values.toList = (vs ++ v :: todo).map Slot.value)
    (recorded : a.code.toList = handles Value.isInstruction 0 vs) (writable : a.frozen = false)
    (code : v.isInstruction = true) (usable : ∀ id ∈ v.operands, Usable vs id) :
    record (vs.length : Int) a = .ok () { a with code := a.code.push (vs.length : Int) } := by
  have found := askOk (f := (·.slot (vs.length : Int))) (Arena.slotFound values (behindLast vs v todo))
  have operands := askOk (a := a) (f := (·.checkUses (vs.length : Int) (.value v))) (Arena.usesChecked values usable)
  rw [record, bindOk (writableOk writable), bindOk found, if_neg (by simp [Slot.isInstruction, code])]
  dsimp only
  have order : ∀ last, a.code.back? = some last → ¬ (last : Int) ≥ vs.length := by
    intro last back
    rw [← Array.getLast?_toList, recorded] at back
    have before := codeBefore back
    exact Int.not_le.mpr before
  rw [bindOk (getOk a)]
  cases back : a.code.back? with
  | none =>
    dsimp only
    rw [bindOk operands]
    rfl
  | some last =>
    simp only [if_neg (order last back)]
    rw [bindOk operands]
    rfl

theorem instructionOk (h : a.Contains vs) (writable : a.frozen = false) {v : Value} (code : v.isInstruction = true)
    (usable : ∀ id ∈ v.operands, Usable vs id) :
    instruction v a = .ok (vs.length : Int)
      { a with values := a.values.push (.value v), code := a.code.push (vs.length : Int), closed := true } := by
  have plain : v.isGlobal = false := by cases v <;> simp [Value.isInstruction, Value.isGlobal] at code ⊢
  have values : (a.values.push (.value v)).toList = (vs ++ v :: []).map Slot.value := by simp [h.values]
  have recorded := recordOk (a := { a with values := a.values.push (.value v), closed := true }) values h.code writable code
    usable
  rw [instruction, bindOk (allocOk h writable plain usable), bindOk recorded]
  rfl

theorem constOk (h : a.Holds vs) (v : Int64) :
    ∃ a', const v a = .ok (vs.length : Int) a' ∧ a'.Holds (vs ++ [.const v]) := by
  refine ⟨_, allocOk h.toContains h.writable rfl (by simp [Value.operands]), ⟨?_, ?_, ?_, ?_⟩, ?_, h.writable, ?_, ?_⟩
  · simp [h.values]
  · simp [h.code, handlesSnoc, Value.isInstruction]
  · simp [h.globals, handlesSnoc, Value.isGlobal]
  · rw [registeredSnoc 0 vs rfl]
    exact h.registry
  · simp [h.next, fresh, Value.isNamed]
  · exact laidSnoc h.laid trivial
  · simp [h.memory]

theorem instructionHolds (h : a.Holds vs) {v : Value} (code : v.isInstruction = true) (fits : Fits vs v) :
    ∃ a', instruction v { a with next := fresh (vs ++ [v]) } = .ok (vs.length : Int) a' ∧ a'.Holds (vs ++ [v]) := by
  have plain : v.isGlobal = false := by cases v <;> simp [Value.isInstruction, Value.isGlobal] at code ⊢
  have contains : Arena.Contains { a with next := fresh (vs ++ [v]) } vs := ⟨h.values, h.code, h.globals, h.registry⟩
  refine ⟨_, instructionOk contains h.writable code (fitsUsable fits), ⟨?_, ?_, ?_, ?_⟩, rfl, h.writable, ?_, ?_⟩
  · simp [h.values]
  · simp [h.code, handlesSnoc, code]
  · simp [h.globals, handlesSnoc, plain]
  · simp [h.registry, registeredSnoc, plain]
  · exact laidSnoc h.laid fits
  · simp [h.memory]

theorem nextNameOk (h : a.Holds vs) {v : Value} (named : v.isNamed = true) :
    nextName a = .ok (freshName vs) { a with next := fresh (vs ++ [v]) } := by
  have count : a.next + 1 = fresh (vs ++ [v]) := by simp [h.next, fresh, named]
  rw [nextName, bindOk (writableOk h.writable), freshName, ← h.next, ← count]
  rfl

theorem unnamedSame (h : a.Holds vs) {v : Value} (unnamed : v.isNamed = false) :
    { a with next := fresh (vs ++ [v]) } = a := by
  have count : fresh (vs ++ [v]) = a.next := by simp [h.next, fresh, unnamed]
  rw [count]

theorem cellOk (h : a.Holds vs) {id : Int} (cell : Cell vs id) : ask (·.checkGlobal id) a = .ok () a := by
  obtain ⟨name, found⟩ := cell
  apply askOk
  simp [Arena.checkGlobal, Arena.slotFound h.values found, bind, Except.bind, Slot.isGlobal, Value.isGlobal, pure,
    Except.pure]

theorem loadOk (h : a.Holds vs) {src : Int} (cell : Cell vs src) :
    ∃ a', load src a = .ok (vs.length : Int) a' ∧ a'.Holds (vs ++ [.load (freshName vs) src]) := by
  obtain ⟨a', run, holds⟩ := instructionHolds h (v := .load (freshName vs) src) rfl ⟨rfl, cell⟩
  have name := nextNameOk h (v := .load (freshName vs) src) rfl
  exact ⟨a', by rw [load, bindOk (cellOk h cell), bindOk name, run], holds⟩

theorem storeOk (h : a.Holds vs) {src dst : Int} (scalar : Scalar vs src) (cell : Cell vs dst) :
    ∃ a', store src dst a = .ok (vs.length : Int) a' ∧ a'.Holds (vs ++ [.store src dst]) := by
  obtain ⟨a', run, holds⟩ := instructionHolds h (v := .store src dst) rfl ⟨scalar, cell⟩
  rw [unnamedSame h rfl] at run
  exact ⟨a', by rw [store, bindOk (cellOk h cell), run], holds⟩

theorem allocaOk (h : a.Holds vs) :
    ∃ a', alloca (.known .int) a = .ok (vs.length : Int) a' ∧
      a'.Holds (vs ++ [.alloca (freshName vs) (.known .int)]) := by
  obtain ⟨a', run, holds⟩ := instructionHolds h (v := .alloca (freshName vs) (.known .int)) rfl ⟨rfl, rfl⟩
  have name := nextNameOk h (v := .alloca (freshName vs) (.known .int)) rfl
  exact ⟨a', by rw [alloca, bindOk name, run], holds⟩

theorem binopOk (h : a.Holds vs) (o : Oper) {l r : Int} (left : Scalar vs l) (right : Scalar vs r) :
    ∃ a', binop (.known o) l r a = .ok (vs.length : Int) a' ∧
      a'.Holds (vs ++ [.binop (freshName vs) (.known o) l r]) := by
  obtain ⟨a', run, holds⟩ := instructionHolds h (v := .binop (freshName vs) (.known o) l r) rfl
    ⟨rfl, ⟨o, rfl⟩, left, right⟩
  have name := nextNameOk h (v := .binop (freshName vs) (.known o) l r) rfl
  exact ⟨a', by rw [binop, bindOk name, run], holds⟩

theorem printOk (h : a.Holds vs) {x : Int} (scalar : Scalar vs x) :
    ∃ a', print x a = .ok (vs.length : Int) a' ∧ a'.Holds (vs ++ [.print x]) := by
  obtain ⟨a', run, holds⟩ := instructionHolds h (v := .print x) rfl scalar
  rw [unnamedSame h rfl] at run
  exact ⟨a', run, holds⟩

end Build

theorem memoryLaid : Laid [memory] := by
  intro done v todo split
  cases done with
  | nil =>
    cases split
    exact ⟨rfl, by simp, by decide, by decide⟩
  | cons w done => simp at split

theorem newHolds : Arena.new.Holds [memory] :=
  ⟨⟨rfl, by decide, by decide, by decide⟩, by decide, rfl, memoryLaid, rfl⟩

section Memory

variable {a : Arena} {vs : List Value} (h : a.Holds vs)
include h

theorem memoryCell : Cell vs 0 := by
  obtain ⟨rest, rfl⟩ := List.head?_eq_some_iff.mp h.memory
  exact ⟨_, rfl⟩

theorem memOk : Build.ask Arena.mem a = .ok (0 : Int) a := by
  obtain ⟨rest, rfl⟩ := List.head?_eq_some_iff.mp h.memory
  apply Build.askOk
  simp [Arena.mem, Arena.global, h.registry, memory, registered]

end Memory

end Abacus
