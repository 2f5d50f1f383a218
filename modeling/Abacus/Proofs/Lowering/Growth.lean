import Abacus.Lowering
import Abacus.Proofs.Arena.Calls

/-! What lowering appends to an arena, for any tree: of a tree that is not well formed, what it had appended when it
stopped. Whatever holds of lowered code is shown of these values, without the arena. -/
namespace Abacus

theorem scalarLast (vs : List Value) {v : Value} (scalar : v.isScalar = true) : Scalar (vs ++ [v]) vs.length :=
  ⟨v, behindLast vs v [], scalar⟩

inductive Expr.Appends : List Value → Expr → List Value → Int → Prop
  | mem (vs : List Value) (span : Span) : Appends vs (.mem span) [.load (freshName vs) 0] vs.length
  | int (vs : List Value) (span : Span) (v : Int64) : Appends vs (.int span v) [.const v] vs.length
  | paren {vs new : List Value} {x : Expr} {id : Int} (span : Span) (inner : Appends vs x new id) :
    Appends vs (.paren span x) new id
  | plus {vs new : List Value} {x : Expr} {id : Int} (span : Span) (inner : Appends vs x new id) :
    Appends vs (.signed span (.known .plus) x) new id
  | minus {vs new : List Value} {x : Expr} {id : Int} (span : Span) (inner : Appends vs x new id) :
    Appends vs (.signed span (.known .minus) x)
      (new ++ [.const 0, .binop (freshName (vs ++ new ++ [.const 0])) (.known .sub) (vs ++ new).length id])
      ((vs ++ new).length + 1 : Nat)
  | binary {vs new more : List Value} {l r : Expr} {i j : Int} (span : Span) (o : Oper) (left : Appends vs l new i)
    (right : Appends (vs ++ new) r more j) :
    Appends vs (.binary span (.known o) l r) (new ++ (more ++ [.binop (freshName (vs ++ new ++ more)) (.known o) i j]))
      (vs ++ new ++ more).length

inductive Stmt.Appends (vs : List Value) : Stmt → List Value → Prop
  | assign {new : List Value} {x : Expr} {id : Int} (span : Span) (value : x.Appends vs new id) :
    Appends vs (.assign span x) (new ++ [.store id 0])
  | print {new : List Value} {x : Expr} {id : Int} (span : Span) (value : x.Appends vs new id) :
    Appends vs (.print span x) (new ++ [.print id])

inductive StmtsAppend : List Value → List Stmt → List Value → Prop
  | nil (vs : List Value) : StmtsAppend vs [] []
  | cons {vs new more : List Value} {s : Stmt} {l : List Stmt} (first : s.Appends vs new)
    (rest : StmtsAppend (vs ++ new) l more) : StmtsAppend vs (s :: l) (new ++ more)

theorem appendsLast {vs new : List Value} {x : Expr} {id : Int} (appends : x.Appends vs new id) :
    ∃ front v, new = front ++ [v] ∧ v.isScalar = true ∧ id = (vs ++ front).length := by
  induction appends with
  | mem vs span => exact ⟨[], _, rfl, rfl, by simp⟩
  | int vs span v => exact ⟨[], _, rfl, rfl, by simp⟩
  | paren span inner ih => exact ih
  | plus span inner ih => exact ih
  | @minus vs new x id span inner ih =>
    exact ⟨new ++ [.const 0], _, List.append_cons .., rfl, by simp [Nat.add_assoc]⟩
  | @binary vs new more l r i j span o left right ihl ihr =>
    exact ⟨new ++ more, _, (List.append_assoc ..).symm, rfl, by rw [List.append_assoc]⟩

theorem appendsScalar {vs new : List Value} {x : Expr} {id : Int} (appends : x.Appends vs new id) :
    Scalar (vs ++ new) id := by
  obtain ⟨front, v, rfl, scalar, rfl⟩ := appendsLast appends
  rw [← List.append_assoc]
  exact scalarLast _ scalar

/- How a building step ended that started with the values `vs`. It stops only at what is not well formed, and what it has
appended is fit to go on from in both cases. -/
inductive Grown {α : Type} (vs : List Value) (formed : Prop) (post : α → List Value → Prop) :
    EStateM.Result (Stop Defect) Arena α → Prop
  | through {x : α} {a : Arena} {new : List Value} (holds : a.Holds (vs ++ new)) (met : post x new) :
    Grown vs formed post (.ok x a)
  | stopped {e : Stop Defect} {a : Arena} {new : List Value} (holds : a.Holds (vs ++ new)) (malformed : ¬ formed) :
    Grown vs formed post (.error e a)

section Grown

variable {α β : Type} {vs : List Value} {a : Arena}

theorem grownSame {x : α} {formed : Prop} {post : α → List Value → Prop} (holds : a.Holds vs) (met : post x []) :
    Grown vs formed post (.ok x a) := by
  rw [← List.append_nil vs] at holds
  exact .through holds met

theorem grownRefused {e : Stop Defect} {formed : Prop} {post : α → List Value → Prop} (holds : a.Holds vs)
    (malformed : ¬ formed) : Grown vs formed post (.error e a) := by
  rw [← List.append_nil vs] at holds
  exact .stopped holds malformed

theorem grownBind {formed first second : Prop} {post : α → List Value → Prop} {post' : β → List Value → Prop}
    {p : Build α} {q : α → Build β} (here : formed → first) (later : formed → second) (head : Grown vs first post (p a))
    (tail : ∀ x new a', a'.Holds (vs ++ new) → post x new →
      Grown (vs ++ new) second (fun y more => post' y (new ++ more)) (q x a')) :
    Grown vs formed post' ((p >>= q) a) := by
  simp only [bind, EStateM.bind]
  generalize p a = result at head
  cases head with
  | stopped holds malformed => exact .stopped holds (mt here malformed)
  | @through x a' new holds met =>
    have rest := tail x new a' holds met
    dsimp only
    generalize q x a' = result at rest
    cases rest with
    | through holds' met' => exact .through (by simpa only [List.append_assoc] using holds') met'
    | stopped holds' malformed => exact .stopped (by simpa only [List.append_assoc] using holds') (mt later malformed)

end Grown

theorem grownThrough {α : Type} {vs : List Value} {formed : Prop} {post : α → List Value → Prop}
    {result : EStateM.Result (Stop Defect) Arena α} (grown : Grown vs formed post result) (all : formed) :
    ∃ x a new, result = .ok x a ∧ a.Holds (vs ++ new) ∧ post x new := by
  cases grown with
  | through holds met => exact ⟨_, _, _, rfl, holds, met⟩
  | stopped holds malformed => exact absurd all malformed

theorem knownOk {α : Type} {a : Arena} (x : α) : Build.known (.known x) a = .ok x a := Build.askOk rfl

theorem knownError {α : Type} {a : Arena} (n : Int) : Build.known (.beyond n : Coded α) a = .error (.fault (.code n)) a :=
  Build.askError rfl

theorem exprGrown (x : Expr) {a : Arena} {vs : List Value} (holds : a.Holds vs) :
    Grown vs x.WellFormed (fun id new => x.Appends vs new id) (x.lower a) := by
  induction x generalizing a vs with
  | absent | foreign => exact grownRefused holds id
  | mem span =>
    obtain ⟨a', run, holds'⟩ := Build.loadOk holds (memoryCell holds)
    rw [Expr.lower, Build.bindOk (memOk holds), run]
    exact .through holds' (.mem vs span)
  | int span v =>
    obtain ⟨a', run, holds'⟩ := Build.constOk holds v
    rw [Expr.lower, run]
    exact .through holds' (.int vs span v)
  | paren span x ih =>
    have inner := ih holds
    rw [Expr.lower]
    generalize x.lower a = result at inner
    cases inner with
    | through holds' appends => exact .through holds' (.paren span appends)
    | stopped holds' malformed => exact .stopped holds' malformed
  | signed span op x ih =>
    refine grownBind And.right And.left (ih holds) fun i new b holds' appends => ?_
    cases op with
    | beyond n =>
      rw [Build.bindError (knownError n)]
      exact grownRefused holds' (by simp)
    | known sign =>
      rw [Build.bindOk (knownOk sign)]
      cases sign with
      | plus => exact grownSame holds' (by simpa using .plus span appends)
      | minus =>
        obtain ⟨c, runZero, holdsZero⟩ := Build.constOk holds' 0
        have zero := scalarLast (vs ++ new) (v := .const 0) rfl
        obtain ⟨d, runMinus, holdsMinus⟩ := Build.binopOk holdsZero .sub zero (scalarAppend (appendsScalar appends) _)
        dsimp only
        rw [Build.bindOk runZero, runMinus]
        rw [List.append_assoc, List.singleton_append] at holdsMinus
        refine .through holdsMinus ?_
        rw [@List.length_append _ (vs ++ new)]
        exact .minus span appends
  | binary span op l r ihl ihr =>
    refine grownBind (fun formed => formed.2.1) (fun formed => And.intro formed.1 formed.2.2) (ihl holds)
      fun i new b holdsL left => ?_
    refine grownBind And.right And.left (ihr holdsL) fun j more c holdsR right => ?_
    cases op with
    | beyond n =>
      rw [Build.bindError (knownError n)]
      exact grownRefused holdsR (by simp)
    | known o =>
      obtain ⟨d, run, holds'⟩ := Build.binopOk holdsR o (scalarAppend (appendsScalar left) more) (appendsScalar right)
      rw [Build.bindOk (knownOk o), run]
      exact .through holds' (.binary span o left right)

theorem valueGrown {x : Expr} {s : Stmt} (last : Int → Value) {b : Handle → Build Unit}
    (build : ∀ a vs id, a.Holds vs → Scalar vs id → ∃ a', b id a = .ok () a' ∧ a'.Holds (vs ++ [last id]))
    {a : Arena} {vs : List Value} (whole : ∀ id new, x.Appends vs new id → s.Appends vs (new ++ [last id]))
    (holds : a.Holds vs) : Grown vs x.WellFormed (fun _ new => s.Appends vs new) ((x.lower >>= b) a) := by
  have always : x.WellFormed → True := fun _ => trivial
  refine grownBind id always (exprGrown x holds) fun id new a' holds' appends => ?_
  obtain ⟨a'', run, holds''⟩ := build a' _ id holds' (appendsScalar appends)
  rw [run]
  exact .through holds'' (whole id new appends)

theorem stmtGrown (s : Stmt) {a : Arena} {vs : List Value} (holds : a.Holds vs) :
    Grown vs s.WellFormed (fun _ new => s.Appends vs new) (s.lower a) := by
  cases s with
  | absent | foreign => exact grownRefused holds id
  | assign span x =>
    refine valueGrown (fun id => .store id 0) (b := fun y => do discard (Build.store y (← Build.ask Arena.mem)))
      (fun a vs id holds scalar => ?_) (fun id new => .assign span) holds
    obtain ⟨a', run, holds'⟩ := Build.storeOk holds scalar (memoryCell holds)
    exact ⟨a', by rw [Build.bindOk (memOk holds), Build.discardOk run], holds'⟩
  | print span x =>
    refine valueGrown .print (b := fun y => discard (Build.print y)) (fun a vs id holds scalar => ?_)
      (fun id new => .print span) holds
    obtain ⟨a', run, holds'⟩ := Build.printOk holds scalar
    exact ⟨a', Build.discardOk run, holds'⟩

theorem stmtsGrown (l : List Stmt) {a : Arena} {vs : List Value} (holds : a.Holds vs) :
    Grown vs (∀ s ∈ l, s.WellFormed) (fun _ new => StmtsAppend vs l new) (lowerStmts l a) := by
  induction l generalizing a vs with
  | nil => exact grownSame holds (.nil vs)
  | cons s l ih =>
    have later : (∀ t ∈ s :: l, t.WellFormed) → ∀ t ∈ l, t.WellFormed :=
      fun formed t member => formed t (by simp [member])
    refine grownBind (fun formed => formed s (by simp)) later (stmtGrown s holds) fun _ new a' holds' first => ?_
    have rest := ih holds'
    generalize lowerStmts l a' = result at rest
    cases rest with
    | through holds'' second => exact .through holds'' (.cons first second)
    | stopped holds'' malformed => exact .stopped holds'' malformed

end Abacus
