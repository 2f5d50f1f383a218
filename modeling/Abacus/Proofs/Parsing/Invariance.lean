import Abacus.Parsing.Grammar
import Abacus.Proofs.Parsing.Relocation

/-! Where a text stands does not matter to reading it. With the same text `k` bytes further on, every grammar yields the
same tree `k` bytes further on, fails for the same reason `k` bytes further on, or breaks in the same way. -/
namespace Abacus

def Program.shift (k : Nat) (p : Program) : Program := ⟨p.span.shift k, p.stmts.map (Stmt.shift k)⟩

namespace Parsing

mutual

def Item.shift (k : Nat) : Item → Item
  | .program p => .program (p.shift k)
  | .stmt s => .stmt (s.shift k)
  | .expr x => .expr (x.shift k)
  | .text t => .text t
  | .word w => .word w
  | .oper o => .oper o
  | .list xs => .list (Item.shiftAll k xs)

def Item.shiftAll (k : Nat) : List Item → List Item
  | [] => []
  | x :: xs => x.shift k :: Item.shiftAll k xs

end

def Outcome.shift (k : Nat) : Outcome Item → Outcome Item
  | .done x d => .done (x.shift k) (d.shift k)
  | .failed r i => .failed r (i + k)
  | .broken e => .broken e

inductive Carried {α : Type} (k : Nat) (S : α → α → Prop) : Outcome α → Outcome α → Prop
  | done {x y : α} (same : S x y) (d : Cursor) : Carried k S (.done x d) (.done y (d.shift k))
  | failed (r : Reason) (i : Nat) : Carried k S (.failed r i) (.failed r (i + k))
  | broken (e : Fault) : Carried k S (.broken e) (.broken e)

def Carries {α : Type} (k : Nat) (S : α → α → Prop) (p p' : Parser α) : Prop := ∀ c, Carried k S (p c) (p' (c.shift k))

section Combinators

variable {α β : Type} {k : Nat} {S : α → α → Prop} {T : β → β → Prop} {p p' : Parser α}

theorem carriedTracks {v : Cursor} {i : Nat} {o o' : Outcome α} (h : Tracks k v i (i + k) S o o') : Carried k S o o' := by
  cases h with
  | past moves =>
    cases moves with
    | done same _ _ => exact .done same _
    | failed r _ => exact .failed r _
  | stayed r => exact .failed r i

theorem carriedMap {o o' : Outcome α} (h : Carried k S o o') {f : α → β} (same : ∀ x y, S x y → T (f x) (f y)) :
    Carried k T (o.map f) (o'.map f) := by
  cases h with
  | done related d => exact .done (same _ _ related) d
  | failed r i => exact .failed r i
  | broken e => exact .broken e

theorem carriesPure {x y : α} (same : S x y) : Carries k S (pure x) (pure y) := fun c => .done same c

theorem carriesFail {r r' : Reason} (same : r' = r) : Carries k S (Parser.fail r) (Parser.fail r') := by
  subst same
  exact fun c => .failed _ c.pos

theorem carriesHalt (e : Fault) : Carries k S (Parser.halt e) (Parser.halt e) := fun _ => .broken e

theorem carriesBind {f f' : α → Parser β} (first : Carries k S p p') (next : ∀ x y, S x y → Carries k T (f x) (f' y)) :
    Carries k T (p >>= f) (p' >>= f') := by
  intro c
  have start := first c
  rw [Parser.bindApply, Parser.bindApply]
  generalize p c = o at start ⊢
  generalize p' (c.shift k) = o' at start ⊢
  cases start with
  | done same d => exact next _ _ same d
  | failed r i => exact .failed r i
  | broken e => exact .broken e

theorem carriesWithin (h : Carries k S p p') (label : String) : Carries k S (p.within label) (p'.within label) := by
  intro c
  have start := h c
  unfold Parser.within
  generalize p c = o at start ⊢
  generalize p' (c.shift k) = o' at start ⊢
  cases start with
  | done same d => exact .done same d
  | failed r i => exact .failed _ i
  | broken e => exact .broken e

theorem carriesText (t : Bytes) : Carries k Eq (Parser.text t) (Parser.text t) := by
  intro c
  unfold Parser.text
  rw [Cursor.shiftRest, Cursor.shiftAdvance]
  split
  · exact .done rfl _
  · exact .failed _ _

theorem carriesWord (w : Bytes) : Carries k Eq (Parser.word w) (Parser.word w) := by
  intro c
  unfold Parser.word
  dsimp only
  rw [Cursor.shiftAdvance, Cursor.shiftRest, Cursor.shiftRest]
  split
  · exact .done rfl _
  · exact .failed _ _

theorem carriesSpaced {q : Named α} (h : Carries k S q.parse q.parse) (s : Blanks) :
    Carries k S (q.spaced s).parse (q.spaced s).parse := by
  intro c
  have start := h (s.skip c)
  unfold Named.spaced
  dsimp only
  rw [skipShift]
  generalize q.parse (s.skip c) = o at start ⊢
  generalize q.parse ((s.skip c).shift k) = o' at start ⊢
  cases start with
  | done same d => exact .done same d
  | failed r i =>
    simp only [Cursor.shiftPos, Nat.add_right_cancel_iff]
    split
    · exact .failed _ _
    · exact .failed _ _
  | broken e => exact .broken e

theorem carriesSequence {qs : List (Named α)} (each : ∀ q ∈ qs, Carries k S q.parse q.parse) (j : Nat) :
    Carries k (List.Forall₂ S) (Parser.sequence j qs) (Parser.sequence j qs) := by
  induction qs generalizing j with
  | nil => exact carriesPure .nil
  | cons q qs ih =>
    obtain ⟨first, others⟩ := List.forall_mem_cons.mp each
    refine carriesBind (carriesWithin first _) fun x y head => ?_
    exact carriesBind (ih others (j + 1)) fun xs ys tail => carriesPure (.cons head tail)

theorem carriedFirstAt {qs : List (Named α)} (each : ∀ q ∈ qs, Carries k S q.parse q.parse) (c : Cursor)
    (names : List String) (kept : Option (Reason × Nat)) :
    Carried k S (Parser.firstAt c names kept qs)
      (Parser.firstAt (c.shift k) names (kept.map fun (r, i) => (r, i + k)) qs) := by
  induction qs generalizing kept with
  | nil =>
    cases kept with
    | none => exact .failed _ _
    | some pair => exact .failed _ _
  | cons q qs ih =>
    obtain ⟨first, others⟩ := List.forall_mem_cons.mp each
    have start := first c
    rw [firstAtCons, firstAtCons]
    generalize q.parse c = o at start ⊢
    generalize q.parse (c.shift k) = o' at start ⊢
    cases start with
    | done same d => exact .done same d
    | failed r i =>
      simp only [Cursor.shiftPos, Nat.add_right_cancel_iff]
      split
      · exact ih others kept
      · have next := ih others (kept.or (some (.within q.name r, i)))
        cases kept with
        | none => exact next
        | some pair => exact next
    | broken e => exact .broken e

theorem carriesFirstOf {qs : List (Named α)} (each : ∀ q ∈ qs, Carries k S q.parse q.parse) :
    Carries k S (Parser.firstOf qs) (Parser.firstOf qs) :=
  fun c => carriedFirstAt each c _ none

theorem carriesLinks {step : Expr → α → Parser Expr} (op : Carries k S p p)
    (arg : ∀ x y o o', Moved k x y → S o o' → Carries k (Moved k) (step x o) (step y o')) (n : Nat) {x y : Expr}
    (moved : Moved k x y) : Carries k (Moved k) (Parser.links p step n x) (Parser.links p step n y) := by
  induction n generalizing x y with
  | zero => exact carriesPure moved
  | succ n ih =>
    intro c
    have start := op c
    unfold Parser.links
    rw [Cursor.shiftRest]
    split
    · exact .done moved c
    · generalize p c = out at start ⊢
      generalize p (c.shift k) = out' at start ⊢
      cases start with
      | @done o o' same d =>
        simp only [Cursor.shiftPos, Nat.add_right_cancel_iff]
        split
        · exact .done moved c
        · exact carriesBind (arg x y o o' moved same) (fun _ _ => ih) d
      | failed r i =>
        simp only [Cursor.shiftPos, Nat.add_right_cancel_iff]
        split
        · exact .done moved c
        · exact .failed _ i
      | broken e => exact .broken e

theorem carriesChain {first : Parser Expr} {step : Expr → α → Parser Expr} (start : Carries k (Moved k) first first)
    (op : Carries k S p p)
    (arg : ∀ x y o o', Moved k x y → S o o' → Carries k (Moved k) (step x o) (step y o')) :
    Carries k (Moved k) (Parser.chain first p step) (Parser.chain first p step) :=
  carriesBind start fun _ _ moved c => carriesLinks op arg c.rest.length moved c

end Combinators

def ItemMoved (k : Nat) (x y : Item) : Prop := y = x.shift k ∧ ∀ e, x = .expr e → Moved k e (e.shift k)

def StmtsMoved (k : Nat) (l l' : List Stmt) : Prop := l' = l.map (Stmt.shift k)

namespace Rule

variable {k : Nat}

theorem stmtsMoved (l : List Stmt) : StmtsMoved k l (l.map (Stmt.shift k)) := rfl

theorem endCarried (outer : List (List Stmt)) (inner : List Stmt) (c : Cursor) :
    Carried k (StmtsMoved k) (atEnd outer inner c)
      (atEnd (outer.map (List.map (Stmt.shift k))) (inner.map (Stmt.shift k)) (c.shift k)) := by
  unfold atEnd
  rw [List.isEmpty_map, List.length_map, skipShift]
  split
  · exact .done (stmtsMoved inner) c
  · exact .failed _ _

theorem itemsCarried (n : Nat) (outer : List (List Stmt)) (inner : List Stmt) (c : Cursor) :
    Carried k (StmtsMoved k) (items n outer inner c)
      (items n (outer.map (List.map (Stmt.shift k))) (inner.map (Stmt.shift k)) (c.shift k)) := by
  induction n generalizing outer inner c with
  | zero => exact endCarried outer inner c
  | succ n ih =>
    unfold items
    dsimp only
    rw [skipShift, Cursor.shiftRest, Cursor.shiftAdvance]
    split
    · exact endCarried outer inner c
    · split
      · exact ih (inner :: outer) [] _
      · split
        · cases outer with
          | nil => exact .done (stmtsMoved inner) c
          | cons before outer =>
            have rest := ih outer (before ++ inner) ((Blanks.all.skip c).advance 1)
            rw [List.map_append] at rest
            exact rest
        · have first := carriedTracks (stmtTracks (alignedShift k c))
          generalize stmt c = o at first ⊢
          generalize stmt (c.shift k) = o' at first ⊢
          cases first with
          | @done s s' same d =>
            subst same
            have rest := ih outer (inner ++ [s]) d
            rw [List.map_append] at rest
            exact rest
          | failed r i =>
            simp only [List.length_map]
            exact .failed _ i
          | broken e => exact .broken e

theorem programCarries : Carries k (fun q q' => q' = q.shift k) program program := by
  intro c
  have all : Carried k (StmtsMoved k) (items c.rest.length [] [] c) (items c.rest.length [] [] (c.shift k)) :=
    itemsCarried c.rest.length [] [] c
  unfold program
  rw [Cursor.shiftRest, skipShift]
  generalize items c.rest.length [] [] c = o at all ⊢
  generalize items c.rest.length [] [] (c.shift k) = o' at all ⊢
  cases all with
  | @done l l' same d =>
    refine .done ?_ d
    rw [same, Cursor.shiftPos, Cursor.shiftPos, spanMoved]
    rfl
  | failed r i => exact .failed r i
  | broken e => exact .broken e

end Rule

section Items

variable {k : Nat}

theorem exprMoved {x y : Expr} (h : Moved k x y) : ItemMoved k (.expr x) (.expr y) := by
  obtain ⟨rfl, span⟩ := h
  refine ⟨rfl, fun e same => ?_⟩
  cases same
  exact ⟨rfl, span⟩

theorem otherMoved {x : Item} (other : ∀ e, x ≠ .expr e) : ItemMoved k x (x.shift k) :=
  ⟨rfl, fun e same => absurd same (other e)⟩

theorem listMoved {xs ys : List Item} (h : List.Forall₂ (ItemMoved k) xs ys) : ItemMoved k (.list xs) (.list ys) := by
  have all : ys = Item.shiftAll k xs := by
    induction h with
    | nil => rfl
    | cons first rest ih => rw [first.1, ih, Item.shiftAll]
  subst all
  exact otherMoved nofun

theorem carriedExpr {o o' : Outcome Expr} (h : Carried k (Moved k) o o') :
    Carried k (ItemMoved k) (o.map .expr) (o'.map .expr) :=
  carriedMap h fun _ _ => exprMoved

theorem carriedStmt {o o' : Outcome Stmt} (h : Carried k (fun s s' => s' = s.shift k) o o') :
    Carried k (ItemMoved k) (o.map .stmt) (o'.map .stmt) := by
  refine carriedMap h fun s s' same => ?_
  subst same
  exact otherMoved (x := .stmt s) nofun

end Items

namespace RuleName

variable {k : Nat}

theorem ruleCarries (r : RuleName) : Carries k (ItemMoved k) r.parse r.parse := by
  intro c
  have aligned := alignedShift k c
  have inside : Rule.Inside k (Blanks.all.skip c) Rule.expr Rule.expr :=
    fun d _ _ => tracksMove (Rule.exprTracks (alignedShift k d))
  cases r with
  | program =>
    refine carriedMap (Rule.programCarries c) fun q q' same => ?_
    subst same
    exact otherMoved (x := .program q) nofun
  | stmt => exact carriedStmt (carriedTracks (Rule.stmtTracks aligned))
  | printStmt => exact carriedStmt (carriedTracks (Rule.printTracks aligned))
  | assignStmt => exact carriedStmt (carriedTracks (Rule.assignTracks aligned))
  | expr => exact carriedExpr (carriedTracks (Rule.exprTracks aligned))
  | term => exact carriedExpr (carriedTracks (Rule.termTracks aligned inside))
  | unary => exact carriedExpr (carriedTracks (Rule.unaryTracks aligned inside))
  | primary => exact carriedExpr (carriedTracks (Rule.primaryTracks aligned inside))
  | mem => exact carriedExpr (carriedTracks (Rule.memTracks c))
  | paren => exact carriedExpr (carriedTracks (Rule.parenTracks aligned inside))
  | int => exact carriedExpr (carriedTracks (Rule.intTracks c))

end RuleName

namespace Grammar

variable {k : Nat}

theorem kindShift (x : Item) : (x.shift k).kind = x.kind := by
  cases x with
  | stmt s => cases s <;> rfl
  | expr x => cases x <;> rfl
  | program | text | word | oper | list => rfl

theorem operandCarries {x y : Item} (h : ItemMoved k x y) : Carries k (Moved k) (operand x) (operand y) := by
  obtain ⟨rfl, placed⟩ := h
  have kind := kindShift (k := k) x
  cases x with
  | expr x => exact carriesPure (placed x rfl)
  | program | stmt | text | word | oper | list => exact carriesFail (congrArg Reason.notExpr kind)

theorem laterOperandCarries {x y : Item} (h : ItemMoved k x y) :
    Carries k (Moved k) (laterOperand x) (laterOperand y) := by
  obtain ⟨rfl, placed⟩ := h
  cases x with
  | expr x => exact carriesPure (placed x rfl)
  | program | stmt | text | word | oper | list => exact carriesHalt _

theorem linkCarries {arg : Parser Item} (h : Carries k (ItemMoved k) arg arg) (x y : Expr) (i i' : Item)
    (moved : Moved k x y) (same : ItemMoved k i i') : Carries k (Moved k) (link arg x i) (link arg y i') := by
  obtain ⟨rfl, placed⟩ := same
  have kind := kindShift (k := k) i
  cases i with
  | oper o =>
    refine carriesBind (carriesBind (carriesWithin h _) fun _ _ => laterOperandCarries) fun z z' related => ?_
    exact carriesPure (joinMoved moved related o)
  | program | stmt | expr | text | word | list => exact carriesFail (congrArg Reason.notOper kind)

mutual

theorem grammarCarries : (g : Grammar) → Carries k (ItemMoved k) g.parse g.parse
  | .rule r => r.ruleCarries
  | .text t => carriesBind (carriesText t) fun _ _ _ => carriesPure (otherMoved (x := .text t) nofun)
  | .word w => carriesBind (carriesWord w) fun _ _ _ => carriesPure (otherMoved (x := .word w) nofun)
  | .oper (.known o) => by
    refine carriesBind (S := Eq) (carriesBind (carriesText _) fun _ _ _ => carriesPure rfl) fun o o' same => ?_
    subst same
    exact carriesPure (otherMoved (x := .oper o) nofun)
  | .oper (.beyond n) => carriesHalt _
  | .allOf gs => carriesBind (carriesSequence (partsCarry gs) 0) fun _ _ same => carriesPure (listMoved same)
  | .anyOf gs => carriesFirstOf (partsCarry gs)
  | .spaced s g => carriesSpaced (grammarCarries g) s
  | .leftToRight op arg => by
    have later := grammarCarries arg
    refine carriesBind ?_ fun x y moved => carriesPure (exprMoved moved)
    refine carriesChain (carriesBind (carriesWithin later _) fun _ _ => operandCarries) (grammarCarries op) ?_
    exact linkCarries later

theorem partsCarry : (gs : List Grammar) → ∀ q ∈ parts gs, Carries k (ItemMoved k) q.parse q.parse
  | [] => fun _ member => absurd member List.not_mem_nil
  | g :: gs => List.forall_mem_cons.mpr ⟨grammarCarries g, partsCarry gs⟩

end

theorem shiftOfCarried {o o' : Outcome Item} (h : Carried k (ItemMoved k) o o') : o' = o.shift k := by
  cases h with
  | done same d => rw [same.1, Outcome.shift]
  | failed r i => rfl
  | broken e => rfl

/- Reading from the place `st` of a text is reading what is left of it as a text of its own, with all positions moved by
`st`. -/
theorem parseTranslates (g : Grammar) (b : Bytes) (st : Nat) :
    g.parse ⟨st, b.drop st⟩ = (g.parse ⟨0, b.drop st⟩).shift st := by
  have carried := grammarCarries (k := st) g ⟨0, b.drop st⟩
  rw [Cursor.shift, Nat.zero_add] at carried
  exact shiftOfCarried carried

end Grammar

end Parsing

end Abacus
