import Abacus.Parsing.Grammar
import Abacus.Proofs.Parsing.Translation

/-! Every outcome is in the text that was read: what is taken is the start of it, and a failure is reported no earlier than
where reading began and no later than at the end. Nothing breaks reading but a value of another kind than the one that is
asked for. Combinators keep this, whatever they are put together from. -/
namespace Abacus.Parsing

def Outcome.InText {α : Type} (c : Cursor) : Outcome α → Prop
  | .done _ d => ∃ w, Spells w c d
  | .failed _ i => c.pos ≤ i ∧ i ≤ c.finish
  | .broken e => e = .node

def Confined {α : Type} (p : Parser α) : Prop := ∀ c, (p c).InText c

section Combinators

variable {α β : Type} {c d : Cursor} {p : Parser α}

theorem inTextHere (r : Reason) (c : Cursor) : Outcome.InText c (.failed r c.pos : Outcome α) :=
  ⟨Nat.le_refl _, Nat.le_add_right _ _⟩

theorem inTextLater {w : Bytes} {o : Outcome α} (before : Spells w c d) (h : o.InText d) : o.InText c := by
  cases o with
  | done x e =>
    obtain ⟨v, after⟩ := h
    exact ⟨w ++ v, spellsAppend before after⟩
  | failed r i =>
    have size := spellsLength before
    have moved := before.2
    simp only [Outcome.InText, Cursor.finish] at h ⊢
    omega
  | broken e => exact h

theorem inTextMap {f : α → β} {o : Outcome α} (h : o.InText c) : (o.map f).InText c := by
  cases o with
  | done x d => exact h
  | failed r i => exact h
  | broken e => exact h

theorem confinedPure (x : α) : Confined (pure x : Parser α) := fun _ => ⟨[], rfl, rfl⟩

theorem confinedHere : Confined Parser.here := fun _ => ⟨[], rfl, rfl⟩

theorem confinedAhead : Confined Parser.ahead := fun _ => ⟨[], rfl, rfl⟩

theorem confinedFail (r : Reason) : Confined (Parser.fail r : Parser α) := inTextHere r

theorem confinedBind {f : α → Parser β} (first : Confined p) (next : ∀ x, Confined (f x)) : Confined (p >>= f) := by
  intro c
  have start := first c
  rw [Parser.bindApply]
  generalize p c = o at start ⊢
  cases o with
  | done x d =>
    obtain ⟨w, spelled⟩ := start
    exact inTextLater spelled (next x d)
  | failed r i => exact start
  | broken e => exact start

theorem confinedWithin (h : Confined p) (label : String) : Confined (p.within label) := by
  intro c
  have inside := h c
  unfold Parser.within
  generalize p c = o at inside ⊢
  cases o with
  | done x d => exact inside
  | failed r i => exact inside
  | broken e => exact inside

theorem confinedText (t : Bytes) : Confined (Parser.text t) := by
  intro c
  unfold Parser.text
  split
  · rename_i found
    exact ⟨_, spellsOfPrefix (List.isPrefixOf_iff_prefix.mp found)⟩
  · exact inTextHere _ c

theorem confinedWord (w : Bytes) : Confined (Parser.word w) := by
  intro c
  unfold Parser.word
  dsimp only
  split
  · rename_i found
    rw [Bool.and_eq_true, List.isPrefixOf_iff_prefix] at found
    exact ⟨_, spellsOfPrefix found.1⟩
  · exact inTextHere _ c

theorem skipSpells (s : Blanks) (c : Cursor) : ∃ w, Spells w c (s.skip c) := by
  obtain ⟨n, inside, same⟩ := s.skipAdvances c
  have spelled := spellsOfPrefix (List.take_prefix n c.rest)
  rw [List.length_take_of_le inside, ← same] at spelled
  exact ⟨_, spelled⟩

theorem byteSpells {c : Cursor} {b : UInt8} (next : c.rest.head? = some b) : Spells [b] c (c.advance 1) := by
  obtain ⟨rest, same⟩ := List.head?_eq_some_iff.mp next
  exact ⟨by simp [Cursor.advance, same], rfl⟩

/- A failure on the spot goes back over the blanks, and so no further than to where the blanks begin. -/
theorem confinedSpaced {q : Named α} (h : Confined q.parse) (s : Blanks) : Confined (q.spaced s).parse := by
  intro c
  obtain ⟨w, blanks⟩ := skipSpells s c
  have inside := inTextLater blanks (h (s.skip c))
  unfold Named.spaced
  dsimp only
  generalize q.parse (s.skip c) = o at inside ⊢
  cases o with
  | done x d => exact inside
  | failed r i =>
    dsimp only
    split
    · exact inTextHere _ c
    · exact inside
  | broken e => exact inside

theorem confinedToken {q : Named α} (h : Confined q.parse) : Confined q.token.parse := confinedSpaced h .all

theorem confinedPart {q : Named α} (h : Confined q.parse) (j : Nat) : Confined (q.part j) := confinedWithin h _

theorem inTextFirstAt {names : List String} {qs : List (Named α)} (each : ∀ q ∈ qs, Confined q.parse)
    {kept : Option (Reason × Nat)} (before : ∀ r i, kept = some (r, i) → c.pos ≤ i ∧ i ≤ c.finish) :
    (Parser.firstAt c names kept qs).InText c := by
  induction qs generalizing kept with
  | nil =>
    cases kept with
    | none => exact inTextHere _ c
    | some pair => exact before pair.1 pair.2 rfl
  | cons q qs ih =>
    obtain ⟨first, others⟩ := List.forall_mem_cons.mp each
    have inside := first c
    rw [firstAtCons]
    generalize q.parse c = o at inside ⊢
    cases o with
    | done x d => exact inside
    | failed r i =>
      dsimp only
      split
      · exact ih others before
      · apply ih others
        intro r' i' same
        cases kept with
        | none =>
          cases same
          exact inside
        | some pair => exact before r' i' same
    | broken e => exact inside

theorem confinedFirstOf {qs : List (Named α)} (each : ∀ q ∈ qs, Confined q.parse) : Confined (Parser.firstOf qs) :=
  fun _ => inTextFirstAt each fun _ _ none => nomatch none

theorem confinedLinks {step : Expr → α → Parser Expr} (op : Confined p) (arg : ∀ x o, Confined (step x o)) (n : Nat)
    (x : Expr) : Confined (Parser.links p step n x) := by
  induction n generalizing x with
  | zero => exact confinedPure x
  | succ n ih =>
    intro c
    have inside := op c
    unfold Parser.links
    split
    · exact confinedPure x c
    · generalize p c = out at inside ⊢
      cases out with
      | done o d =>
        obtain ⟨w, spelled⟩ := inside
        dsimp only
        split
        · exact confinedPure x c
        · exact inTextLater spelled (confinedBind (arg x o) ih d)
      | failed r i =>
        dsimp only
        split
        · exact confinedPure x c
        · exact inside
      | broken e => exact inside

theorem confinedSequence {qs : List (Named α)} (each : ∀ q ∈ qs, Confined q.parse) (j : Nat) :
    Confined (Parser.sequence j qs) := by
  induction qs generalizing j with
  | nil => exact confinedPure []
  | cons q qs ih =>
    obtain ⟨first, others⟩ := List.forall_mem_cons.mp each
    refine confinedBind (confinedPart first j) fun x => ?_
    exact confinedBind (ih others (j + 1)) fun xs => confinedPure (x :: xs)

theorem confinedChain {first : Parser Expr} {step : Expr → α → Parser Expr} (start : Confined first) (op : Confined p)
    (arg : ∀ x o, Confined (step x o)) : Confined (Parser.chain first p step) :=
  confinedBind start fun x c => confinedLinks op arg c.rest.length x c

end Combinators

namespace Rule

theorem memConfined : Confined mem.parse :=
  confinedBind confinedHere fun _ => confinedBind (confinedWord _) fun _ => confinedBind confinedHere fun _ => confinedPure _

theorem intConfined : Confined int.parse := by
  intro c
  have spelled := spellsOfPrefix (c := c) (List.takeWhile_prefix isDigit)
  have size := spellsLength spelled
  have after : c.pos ≤ (c.advance (c.rest.takeWhile isDigit).length).pos ∧
      (c.advance (c.rest.takeWhile isDigit).length).pos ≤ c.finish := by
    simp only [Cursor.advance, Cursor.finish] at size ⊢
    omega
  unfold int
  dsimp only
  split
  · exact inTextHere _ c
  · split
    · exact after
    · split
      · exact ⟨_, spelled⟩
      · exact after

section Expressions

variable {inner : Parser Expr} (h : Confined inner)

include h

theorem parenConfined : Confined (paren inner).parse := by
  refine confinedBind confinedAhead fun _ => ?_
  refine confinedBind (confinedPart (confinedToken (confinedText _)) _) fun _ => ?_
  refine confinedBind (confinedPart h _) fun _ => ?_
  refine confinedBind (confinedPart (confinedToken (confinedText _)) _) fun _ => ?_
  exact confinedBind confinedHere fun _ => confinedPure _

theorem primaryConfined : Confined (primary inner) := by
  apply confinedFirstOf
  simp only [List.forall_mem_cons, List.not_mem_nil, false_implies, implies_true, and_true]
  exact ⟨confinedToken memConfined, confinedToken intConfined, parenConfined h⟩

theorem unaryUpToConfined (n : Nat) : Confined (unaryUpTo inner n) := by
  induction n with
  | zero => exact primaryConfined h
  | succ n ih =>
    intro c
    unfold unaryUpTo
    dsimp only
    split
    · exact primaryConfined h c
    · rename_i s sign
      obtain ⟨w, blanks⟩ := skipSpells .all c
      obtain ⟨b, next, -⟩ := Option.bind_eq_some_iff.mp sign
      exact inTextLater blanks (inTextLater (byteSpells next) (inTextMap (confinedWithin ih _ _)))

theorem unaryConfined : Confined (unary inner) := fun c => unaryUpToConfined h c.rest.length c

end Expressions

theorem operConfined (ops : List Oper) : Confined (Parser.firstOf (ops.map Named.oper)) := by
  apply confinedFirstOf
  intro q member
  obtain ⟨o, -, rfl⟩ := List.mem_map.mp member
  exact confinedBind (confinedText _) fun _ => confinedPure _

theorem joinedConfined {arg : Parser Expr} (h : Confined arg) (ops : List Oper) : Confined (joined ops arg) :=
  confinedChain (confinedWithin h _) (confinedToken (operConfined ops)) fun _ _ =>
    confinedBind (confinedWithin h _) fun _ => confinedPure _

theorem termConfined {inner : Parser Expr} (h : Confined inner) : Confined (term inner) :=
  joinedConfined (unaryConfined h) _

theorem exprOverConfined {inner : Parser Expr} (h : Confined inner) : Confined (exprOver inner) :=
  joinedConfined (termConfined h) _

theorem exprUpToConfined (n : Nat) : Confined (exprUpTo n) := by
  induction n with
  | zero => exact exprOverConfined (confinedFail _)
  | succ n ih => exact exprOverConfined ih

theorem exprConfined : Confined expr := fun c => exprUpToConfined c.rest.length c

theorem printConfined : Confined printStmt.parse := by
  refine confinedBind confinedAhead fun _ => ?_
  refine confinedBind (confinedPart (confinedToken (confinedWord _)) _) fun _ => ?_
  refine confinedBind (confinedPart exprConfined _) fun _ => ?_
  refine confinedBind (confinedPart (confinedToken (confinedText _)) _) fun _ => ?_
  exact confinedBind confinedHere fun _ => confinedPure _

theorem assignConfined : Confined assignStmt.parse := by
  refine confinedBind confinedAhead fun _ => ?_
  refine confinedBind (confinedPart exprConfined _) fun _ => ?_
  refine confinedBind (confinedPart (confinedToken (confinedText _)) _) fun _ => ?_
  exact confinedBind confinedHere fun _ => confinedPure _

theorem stmtConfined : Confined stmt := by
  apply confinedFirstOf
  simp only [List.forall_mem_cons, List.not_mem_nil, false_implies, implies_true, and_true]
  exact ⟨printConfined, assignConfined⟩

theorem endConfined (outer : List (List Stmt)) (inner : List Stmt) : Confined (atEnd outer inner) := by
  intro c
  obtain ⟨onward, finish⟩ := skipOnward c
  unfold atEnd
  split
  · exact confinedPure inner c
  · refine ⟨onward, ?_⟩
    rw [← finish]
    exact Nat.le_add_right _ _

theorem itemsConfined (n : Nat) (outer : List (List Stmt)) (inner : List Stmt) : Confined (items n outer inner) := by
  induction n generalizing outer inner with
  | zero => exact endConfined outer inner
  | succ n ih =>
    intro c
    unfold items
    dsimp only
    split
    · exact endConfined outer inner c
    · rename_i b next
      obtain ⟨w, blanks⟩ := skipSpells .all c
      have behind : ∀ outer inner, (items n outer inner ((Blanks.all.skip c).advance 1)).InText c :=
        fun outer inner => inTextLater blanks (inTextLater (byteSpells next) (ih outer inner _))
      split
      · exact behind _ _
      · split
        · split
          · exact confinedPure inner c
          · exact behind _ _
        · have first := stmtConfined c
          generalize stmt c = o at first ⊢
          cases o with
          | done s d =>
            obtain ⟨v, spelled⟩ := first
            exact inTextLater spelled (ih outer (inner ++ [s]) d)
          | failed r i => exact first
          | broken e => exact first

theorem programConfined : Confined program := by
  intro c
  have inside := itemsConfined c.rest.length [] [] c
  unfold program
  generalize items c.rest.length [] [] c = o at inside ⊢
  cases o with
  | done l d => exact inside
  | failed r i => exact inside
  | broken e => exact inside

end Rule

namespace RuleName

theorem ruleConfined (r : RuleName) : Confined r.parse := by
  intro c
  cases r with
  | program => exact inTextMap (Rule.programConfined c)
  | stmt => exact inTextMap (Rule.stmtConfined c)
  | printStmt => exact inTextMap (Rule.printConfined c)
  | assignStmt => exact inTextMap (Rule.assignConfined c)
  | expr => exact inTextMap (Rule.exprConfined c)
  | term => exact inTextMap (Rule.termConfined Rule.exprConfined c)
  | unary => exact inTextMap (Rule.unaryConfined Rule.exprConfined c)
  | primary => exact inTextMap (Rule.primaryConfined Rule.exprConfined c)
  | mem => exact inTextMap (Rule.memConfined c)
  | paren => exact inTextMap (Rule.parenConfined Rule.exprConfined c)
  | int => exact inTextMap (Rule.intConfined c)

end RuleName

namespace Grammar

mutual

def Known : Grammar → Prop
  | .rule _ | .text _ | .word _ => True
  | .oper o => ∃ a, o = .known a
  | .allOf gs | .anyOf gs => AllKnown gs
  | .spaced _ g => g.Known
  | .leftToRight op arg => op.Known ∧ arg.Known

def AllKnown : List Grammar → Prop
  | [] => True
  | g :: gs => g.Known ∧ AllKnown gs

end

theorem operandConfined (i : Item) : Confined (operand i) := by
  cases i with
  | expr x => exact confinedPure x
  | program | stmt | text | word | oper | list => exact confinedFail _

theorem laterOperandConfined (i : Item) : Confined (laterOperand i) := by
  cases i with
  | expr x => exact confinedPure x
  | program | stmt | text | word | oper | list => exact fun _ => rfl

theorem linkConfined {arg : Parser Item} (h : Confined arg) (x : Expr) (i : Item) : Confined (link arg x i) := by
  cases i with
  | oper o =>
    refine confinedBind (confinedBind (confinedWithin h _) laterOperandConfined) fun y => ?_
    exact confinedPure (x.join o y)
  | program | stmt | expr | text | word | list => exact confinedFail _

mutual

theorem grammarConfined : (g : Grammar) → g.Known → Confined g.parse
  | .rule r, _ => r.ruleConfined
  | .text t, _ => confinedBind (confinedText t) fun _ => confinedPure _
  | .word w, _ => confinedBind (confinedWord w) fun _ => confinedPure _
  | .oper (.known o), _ =>
    confinedBind (confinedBind (confinedText _) fun _ => confinedPure o) fun _ => confinedPure _
  | .oper (.beyond n), known => by
    obtain ⟨a, same⟩ := known
    contradiction
  | .allOf gs, known => confinedBind (confinedSequence (partsConfined gs known) 0) fun _ => confinedPure _
  | .anyOf gs, known => confinedFirstOf (partsConfined gs known)
  | .spaced s g, known => confinedSpaced (grammarConfined g known) s
  | .leftToRight op arg, known => by
    have first := grammarConfined op known.1
    have later := grammarConfined arg known.2
    refine confinedBind ?_ fun x => confinedPure _
    exact confinedChain (confinedBind (confinedWithin later _) operandConfined) first (linkConfined later)

theorem partsConfined : (gs : List Grammar) → AllKnown gs → ∀ q ∈ parts gs, Confined q.parse
  | [], _ => fun _ member => absurd member List.not_mem_nil
  | g :: gs, known => List.forall_mem_cons.mpr ⟨grammarConfined g known.1, partsConfined gs known.2⟩

end

end Grammar

end Abacus.Parsing
