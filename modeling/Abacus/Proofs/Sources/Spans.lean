import Abacus.Proofs.Parsing.Slices

/-! Where the nodes of a tree stand in the text that it was read from. A node stands inside of its parent and before
the siblings that follow it, and what stands there is the node and nothing else. A program stands on all of its text but
for the blanks at both ends, except that it stands nowhere in a text of blanks. -/
namespace Abacus
open Parsing

def Expr.operands : Expr → List Expr
  | .paren _ x | .signed _ _ x => [x]
  | .binary _ _ l r => [l, r]
  | _ => []

namespace Node

def span : Node → Span
  | .program p => p.span
  | .stmt s => s.span
  | .expr x => x.span
  | .foreign _ => ⟨0, 0⟩

def children : Node → List Node
  | .program p => p.stmts.map .stmt
  | .stmt (.assign _ x) | .stmt (.print _ x) => [.expr x]
  | .expr x => x.operands.map .expr
  | _ => []

inductive Below (root : Node) : Node → Prop
  | root : Below root root
  | child {n m : Node} (above : Below root n) (member : m ∈ n.children) : Below root m

def Exact (text : Bytes) : Node → Prop
  | .stmt s => Parsing.Exact text Rule.stmt Stmt.shift s.span s
  | .expr x => Parsing.Exact text Rule.expr Expr.shift x.span x
  | _ => False

def Ordered (l : List Node) : Prop := l.Pairwise fun m n => m.span.stop ≤ n.span.pos

def Encloses (n m : Node) : Prop := n.span.pos ≤ m.span.pos ∧ m.span.stop ≤ n.span.stop

end Node

namespace Parsing

theorem chainExpr {t : Tier} {c d : Cursor} {x : Expr} (h : Derives (.chain t) c d x) : Derives .expr c d x := by
  cases t with
  | sum => exact h
  | product => exact .chain (t := .sum) h (.stop d)

theorem operandExpr {t : Tier} {c d : Cursor} {x : Expr} (h : Derives t.operand c d x) : Derives .expr c d x :=
  chainExpr (.chain h (.stop d))

theorem exprEnclosed {n : Node} {c d : Cursor} {x : Expr} (h : Derives .expr c d x)
    (front : n.span.pos ≤ (Blanks.all.skip c).pos) (back : d.pos ≤ n.span.stop) : n.Encloses (.expr x) := by
  simp only [Node.Encloses, Node.span, (exprPlace h).1] at front back ⊢
  exact ⟨front, back⟩

structure Parts (c : Cursor) (x : Expr) : Prop where
  ordered : Node.Ordered (x.operands.map .expr)
  inside : ∀ y ∈ x.operands, Node.Encloses (.expr x) (.expr y)
  derived : ∀ y ∈ x.operands, ∃ w e f, Spells w c e ∧ Derives .expr e f y

theorem partsNone {c : Cursor} {x : Expr} (none : x.operands = []) : Parts c x where
  ordered := by simp [none, Node.Ordered]
  inside := by simp [none]
  derived := by simp [none]

theorem partsOne {w : Bytes} {c d e : Cursor} {x y : Expr} (one : x.operands = [y]) (spelled : Spells w c d)
    (h : Derives .expr d e y) (inside : Node.Encloses (.expr x) (.expr y)) : Parts c x where
  ordered := by simp [one, Node.Ordered]
  inside := by simpa [one] using inside
  derived := by
    simp only [one, List.mem_singleton, forall_eq]
    exact ⟨w, d, e, spelled, h⟩

theorem joinOperands (o : Oper) (x y : Expr) : (x.join o y).operands = [x, y] := rfl

theorem joinSpan (o : Oper) (x y : Expr) : (x.join o y).span = ⟨x.span.pos, y.span.stop⟩ := rfl

theorem partsJoin {w : Bytes} {b c d e : Cursor} {x y : Expr} (left : Derives .expr b c x) (spelled : Spells w c d)
    (right : Derives .expr d e y) (o : Oper) : Parts b (x.join o y) := by
  obtain ⟨leftPlace, leftInside⟩ := exprPlace left
  obtain ⟨rightPlace, rightInside⟩ := exprPlace right
  have onward := spellsOnward spelled
  have skipped := (skipOnward d).1
  have whole : (Node.expr (x.join o y)).span = ⟨(Blanks.all.skip b).pos, e.pos⟩ := by
    rw [Node.span, joinSpan, leftPlace, rightPlace]
  refine ⟨?_, ?_, ?_⟩
  · simp only [joinOperands, List.map_cons, List.map_nil, Node.Ordered, List.pairwise_pair, Node.span, leftPlace,
      rightPlace]
    omega
  · intro z member
    rcases List.mem_pair.mp member with rfl | rfl
    · exact exprEnclosed left (by simp only [whole]; omega) (by simp only [whole]; omega)
    · exact exprEnclosed right (by simp only [whole]; omega) (by simp only [whole]; omega)
  · intro z member
    obtain ⟨v, before⟩ := derivesSpells left
    rcases List.mem_pair.mp member with rfl | rfl
    · exact ⟨[], b, c, ⟨rfl, rfl⟩, left⟩
    · exact ⟨v ++ w, d, e, spellsAppend before spelled, right⟩

/- No parser reads the left operand of the last operator by itself, so the links of a chain carry along what there is
before them, as an expression from the start of the chain. -/
theorem derivesParts {ph : Phrase} {c d : Cursor} {x : Expr} (h : Derives ph c d x) :
    match ph with
    | .links t y => ∀ b, Derives (.chain t) b c y → Parts b y → Parts b x
    | _ => Parts c x := by
  induction h with
  | @chain t c d e x y first more firstIH moreIH =>
    have parts : Parts c x := by
      cases t with
      | sum => exact firstIH
      | product => exact firstIH
    exact moreIH c (.chain first (.stop d)) parts
  | stop c => exact fun b prior parts => parts
  | @link t o c s d e f x y z oper sign arg more argIH moreIH =>
    intro b prior parts
    obtain ⟨w, spelled⟩ := tokenSpells sign
    exact moreIH b (chainSnoc prior oper sign arg) (partsJoin (chainExpr prior) spelled (operandExpr arg) o)
  | @sign s c b d e x sign arg argIH =>
    obtain ⟨w, spelled⟩ := tokenSpells sign
    have operand : Derives .expr d e x := operandExpr (t := .product) arg
    have before := tokenBefore sign (signSolid s)
    have start : x.span.pos = (Blanks.all.skip d).pos := derivesStart operand
    have front : (b.pos : Int) ≤ x.span.pos := by omega
    exact partsOne rfl spelled operand ⟨front, Int.le_refl _⟩
  | plain body bodyIH => exact bodyIH
  | mem word ends => exact partsNone rfl
  | int digits some all ends small => exact partsNone rfl
  | @paren c b d e s f x left body right bodyIH =>
    obtain ⟨w, spelled⟩ := tokenSpells left
    have opened := tokenBefore left (by decide)
    have closed := tokenInside right (by decide)
    have front : (b.pos : Int) ≤ (Blanks.all.skip d).pos := by omega
    have back : (e.pos : Int) ≤ f.pos := by omega
    exact partsOne rfl spelled body (exprEnclosed body front back)

theorem itemsPlace {c d : Cursor} {l : List Stmt} (h : DerivesItems c d l) :
    d = c ∧ l = [] ∨ (Blanks.all.skip c).pos < d.pos := by
  induction h with
  | none c => exact .inl ⟨rfl, rfl⟩
  | @stmt c d e s l first more ih =>
    have inside := (stmtPlace first).2
    have skipped := (skipOnward d).1
    rcases ih with ⟨rfl, rfl⟩ | onward
    · exact .inr inside
    · exact .inr (by omega)
  | @block c b d e s f g inner l left body right more bodyIH moreIH =>
    have opened := tokenInside left (by decide)
    have closed := tokenInside right (by decide)
    have skipped := (skipOnward d).1
    have skipped' := (skipOnward f).1
    rw [tokenSkip left (by decide)]
    have within : b.pos < f.pos := by
      rcases bodyIH with ⟨rfl, rfl⟩ | onward <;> omega
    rcases moreIH with ⟨rfl, rfl⟩ | onward
    · exact .inr within
    · exact .inr (by omega)

theorem itemsOnward {c d : Cursor} {l : List Stmt} (h : DerivesItems c d l) : c.pos ≤ d.pos := by
  have skipped := (skipOnward c).1
  rcases itemsPlace h with ⟨rfl, -⟩ | onward
  · exact Nat.le_refl _
  · omega

theorem itemsInside {c d : Cursor} {l : List Stmt} (h : DerivesItems c d l) :
    ∀ s ∈ l, ((Blanks.all.skip c).pos : Int) ≤ s.span.pos ∧ s.span.stop ≤ d.pos := by
  induction h with
  | none c => simp
  | @stmt c d e s l first more ih =>
    obtain ⟨place, inside⟩ := stmtPlace first
    have skipped := (skipOnward d).1
    have onward := itemsOnward more
    intro t member
    rcases List.mem_cons.mp member with rfl | later
    · simp only [place]
      omega
    · have further := ih t later
      omega
  | @block c b d e s f g inner l left body right more bodyIH moreIH =>
    have opened := tokenInside left (by decide)
    have closed := tokenInside right (by decide)
    have skipped := (skipOnward d).1
    have skipped' := (skipOnward f).1
    have onward := itemsOnward body
    have onward' := itemsOnward more
    rw [tokenSkip left (by decide)]
    intro t member
    rcases List.mem_append.mp member with within | later
    · have between := bodyIH t within
      omega
    · have further := moreIH t later
      omega

theorem itemsOrdered {c d : Cursor} {l : List Stmt} (h : DerivesItems c d l) : Node.Ordered (l.map .stmt) := by
  unfold Node.Ordered
  rw [List.pairwise_map]
  induction h with
  | none c => exact .nil
  | @stmt c d e s l first more ih =>
    refine List.pairwise_cons.mpr ⟨?_, ih⟩
    intro t member
    have further := (itemsInside more t member).1
    have skipped := (skipOnward d).1
    simp only [Node.span, (stmtPlace first).1]
    omega
  | @block c b d e s f g inner l left body right more bodyIH moreIH =>
    refine List.pairwise_append.mpr ⟨bodyIH, moreIH, ?_⟩
    intro t within u later
    have between := (itemsInside body t within).2
    have further := (itemsInside more u later).1
    have closed := tokenInside right (by decide)
    have skipped := (skipOnward f).1
    simp only [Node.span]
    omega

theorem itemsStand {text : Bytes} {c d : Cursor} {l : List Stmt} (h : DerivesItems c d l) (stands : Stands text c) :
    Stands text d ∧ ∀ s ∈ l, ∃ e f, Stands text e ∧ DerivesStmt e f s := by
  induction h with
  | none c => exact ⟨stands, by simp⟩
  | @stmt c d e s l first more ih =>
    obtain ⟨last, later⟩ := ih (standsStmt stands first)
    exact ⟨last, List.forall_mem_cons.mpr ⟨⟨c, d, stands, first⟩, later⟩⟩
  | block left body right more bodyIH moreIH =>
    obtain ⟨closing, within⟩ := bodyIH (standsToken stands left)
    obtain ⟨last, later⟩ := moreIH (standsToken closing right)
    exact ⟨last, List.forall_mem_append.mpr ⟨within, later⟩⟩

end Parsing

namespace Node

structure Spanned (text : Bytes) (n : Node) : Prop where
  ordered : Ordered n.children
  inside : ∀ m ∈ n.children, n.Encloses m
  exact : ∀ m ∈ n.children, m.Exact text

def Sited (text : Bytes) : Node → Prop
  | .stmt s => ∃ c d, Stands text c ∧ DerivesStmt c d s
  | .expr x => ∃ c d, Stands text c ∧ Derives .expr c d x
  | _ => False

theorem sitedExact {text : Bytes} {n : Node} (h : n.Sited text) : n.Exact text := by
  cases n with
  | program p => exact h.elim
  | stmt s =>
    obtain ⟨c, d, stands, derived⟩ := h
    exact stmtExact stands derived
  | expr x =>
    obtain ⟨c, d, stands, derived⟩ := h
    exact exprExact stands derived
  | foreign kind => exact h.elim

theorem stmtBody {c g : Cursor} {s : Stmt} (h : DerivesStmt c g s) :
    ∃ w e f x, (Node.stmt s).children = [.expr x] ∧ Spells w c e ∧ Derives .expr e f x ∧
      Encloses (.stmt s) (.expr x) := by
  cases h with
  | @print b d e s _ x word ends body last =>
    obtain ⟨w, spelled⟩ := tokenSpells word
    have opened := tokenBefore word (by decide)
    have closed := tokenInside last (by decide)
    have front : (b.pos : Int) ≤ (Blanks.all.skip d).pos := by omega
    have back : (e.pos : Int) ≤ g.pos := by omega
    exact ⟨_, d, e, x, rfl, spelled, body, exprEnclosed body front back⟩
  | @assign d s _ x body last =>
    have closed := tokenInside last (by decide)
    have front : x.span.pos ≤ (Blanks.all.skip c).pos := Int.le_of_eq (derivesStart body)
    have back : (d.pos : Int) ≤ g.pos := by omega
    exact ⟨[], c, d, x, rfl, ⟨rfl, rfl⟩, body, exprEnclosed body front back⟩

/- The step: below a node that is derived somewhere in the text, nodes are where they have to be and are derived too. -/
theorem sitedSpanned {text : Bytes} {n : Node} (h : n.Sited text) :
    n.Spanned text ∧ ∀ m ∈ n.children, m.Sited text := by
  have places : Ordered n.children ∧ ∀ m ∈ n.children, n.Encloses m ∧ m.Sited text := by
    cases n with
    | program p => exact h.elim
    | stmt s =>
      obtain ⟨c, d, stands, derived⟩ := h
      obtain ⟨w, e, f, x, only, spelled, body, inside⟩ := stmtBody derived
      rw [only]
      refine ⟨List.pairwise_singleton _ _, ?_⟩
      intro m member
      obtain rfl := List.mem_singleton.mp member
      exact ⟨inside, e, f, standsSpelled stands spelled, body⟩
    | expr x =>
      obtain ⟨c, d, stands, derived⟩ := h
      have parts : Parts c x := derivesParts derived
      refine ⟨parts.ordered, ?_⟩
      intro m member
      obtain ⟨y, operand, rfl⟩ := List.mem_map.mp member
      obtain ⟨w, e, f, spelled, body⟩ := parts.derived y operand
      exact ⟨parts.inside y operand, e, f, standsSpelled stands spelled, body⟩
    | foreign kind => exact h.elim
  obtain ⟨ordered, each⟩ := places
  exact ⟨⟨ordered, fun m member => (each m member).1, fun m member => sitedExact (each m member).2⟩,
    fun m member => (each m member).2⟩

end Node

/- The span of a program is taken from the text as it is closed by a newline, the places of all below it are in the text
itself. -/
theorem programSpanned {name : String} {text : Bytes} {p : Program} (read : parse [⟨name, text⟩] = .ok p) :
    (Node.program p).Spanned text ∧ ∀ m ∈ (Node.program p).children, m.Sited text := by
  obtain ⟨c, d, items, -, -, place⟩ := (parseExact _ p).mp read
  obtain ⟨c', d', items', -, -⟩ := parsedDerives read
  have sited : ∀ m ∈ (Node.program p).children, m.Sited text := by
    intro m member
    obtain ⟨s, stmt, rfl⟩ := List.mem_map.mp member
    exact (itemsStand items' (standsStart text)).2 s stmt
  refine ⟨⟨itemsOrdered items, ?_, fun m member => Node.sitedExact (sited m member)⟩, sited⟩
  intro m member
  obtain ⟨s, stmt, rfl⟩ := List.mem_map.mp member
  have inside := itemsInside items s stmt
  simpa only [Node.Encloses, Node.span, place] using inside

/- Every node of a tree that was read from a text has the nodes right below it inside of its span, in the order of the
text and apart from each other, and each of them is read by itself from the bytes that it spans, with the positions
counted from there. -/
theorem spansExact {name : String} {text : Bytes} {p : Program} (read : parse [⟨name, text⟩] = .ok p) {n : Node}
    (below : Node.Below (.program p) n) : n.Spanned text := by
  have invariant : n.Spanned text ∧ ∀ m ∈ n.children, m.Sited text := by
    induction below with
    | root => exact programSpanned read
    | child above member ih => exact Node.sitedSpanned (ih.2 _ member)
  exact invariant.1

def differences : Bytes := utf8 "\x7b print 8 - 2 # two\n- -mem; \x7d 7;"

def difference : Expr :=
  .binary ⟨8, 26⟩ (.known .sub) (.binary ⟨8, 13⟩ (.known .sub) (.int ⟨8, 9⟩ 8) (.int ⟨12, 13⟩ 2))
    (.signed ⟨22, 26⟩ (.known .minus) (.mem ⟨23, 26⟩))

def differencesTree : Program := ⟨⟨0, 32⟩, [.print ⟨2, 27⟩ difference, .assign ⟨30, 32⟩ (.int ⟨30, 31⟩ 7)]⟩

theorem differenceExact :
    parse [⟨"d", differences⟩] = .ok differencesTree ∧ Node.Below (.program differencesTree) (.expr difference) ∧
      (Node.expr difference).Spanned differences := by
  have read : parse [⟨"d", differences⟩] = .ok differencesTree := rfl
  have below : Node.Below (.program differencesTree) (.expr difference) :=
    .child (.child .root (List.mem_cons_self ..)) (List.mem_singleton_self _)
  exact ⟨read, below, spansExact read below⟩

namespace Parsing

def Blank (text : Bytes) (i j : Nat) : Prop := Gap ⟨i, text.drop i⟩ ⟨j, text.drop j⟩

theorem standsBlank {text : Bytes} {c d : Cursor} (stands : Stands text c) (gap : Gap c d) :
    Blank text c.pos d.pos := by
  unfold Blank
  rw [← (standsRest stands).1, ← (standsRest (standsGap stands gap)).1]
  exact gap

theorem standsEnd {text : Bytes} {c : Cursor} (stands : Stands text c) (ended : c.rest = []) : c.pos = text.length := by
  obtain ⟨rest, inside⟩ := standsRest stands
  rw [ended] at rest
  have size := List.drop_eq_nil_iff.mp rest.symm
  omega

theorem blankNothing {text : Bytes} (blank : Blank text 0 text.length) {c : Cursor} {l : List Stmt}
    (items : DerivesItems ⟨0, text⟩ c l) : c = ⟨0, text⟩ ∧ l = [] := by
  rcases itemsPlace items with nothing | onward
  · exact nothing
  · have skipped : Blanks.all.skip ⟨0, text⟩ = ⟨text.length, []⟩ := by
      unfold Blank at blank
      rw [List.drop_length] at blank
      exact skipGap blank
    have inside := (standsRest (itemsStand items (standsStart text)).1).2
    rw [skipped] at onward
    exact absurd inside (Nat.not_le_of_lt onward)

theorem closedLength (name : String) (text : Bytes) : text.length ≤ (Source.closed ⟨name, text⟩).length := by
  unfold Source.closed
  split
  · exact Nat.le_refl _
  · simp

section Closed

variable {name : String} {text : Bytes}

theorem itemsBehind {c d : Cursor} {l : List Stmt} (items : DerivesItems ⟨0, text⟩ c l) (gap : Gap c d)
    (ended : d.rest = []) : Blank text c.pos text.length := by
  have stands := (itemsStand items (standsStart text)).1
  rw [← standsEnd (standsGap stands gap) ended]
  exact standsBlank stands gap

theorem closedItems {c d : Cursor} {l : List Stmt} (items : DerivesItems ⟨0, Source.closed ⟨name, text⟩⟩ c l)
    (gap : Gap c d) (ended : d.rest = []) :
    ∃ e, e.pos = c.pos ∧ DerivesItems ⟨0, text⟩ e l ∧ Blank text e.pos text.length := by
  unfold Source.closed at items
  split at items
  · exact ⟨c, rfl, items, itemsBehind items gap ended⟩
  · obtain ⟨e, rfl, items'⟩ := itemsRetract (c := ⟨0, text⟩) items
    refine ⟨e, rfl, items', ?_⟩
    rcases gapRetract gap with ⟨f, rfl, -⟩ | ⟨-, f, none, gap'⟩
    · simp [Cursor.close, Cursor.extend] at ended
    · exact itemsBehind items' gap' none

theorem closedBlank {v : Cursor} (gap : Gap ⟨0, Source.closed ⟨name, text⟩⟩ v) (more : v.rest ≠ []) :
    Blank text 0 v.pos := by
  unfold Source.closed at gap
  split at gap
  · exact standsBlank (standsStart text) gap
  · rcases gapRetract (c := ⟨0, text⟩) gap with ⟨e, rfl, gap'⟩ | ⟨ended, -⟩
    · have inside := standsBlank (standsStart text) gap'
      exact inside
    · exact absurd ended more

end Closed

end Parsing

/- A program spans all of its text but for the blanks and comments at both ends, unless there is nothing else in the
text. A text of blanks and comments is passed over twice: the program starts behind it and ends in front of it. -/
theorem programExtent {name : String} {text : Bytes} {p : Program} (read : parse [⟨name, text⟩] = .ok p) :
    ∃ i j : Nat, p.span = ⟨i, j⟩ ∧ j ≤ text.length ∧ (∀ s ∈ p.stmts, Node.Encloses (.program p) (.stmt s)) ∧
      Blank text j text.length ∧
      ((text = [] ∨ ¬ Blank text 0 text.length) ∧ i ≤ j ∧ Blank text 0 i ∨
        (text ≠ [] ∧ Blank text 0 text.length) ∧ p.stmts = [] ∧ j = 0 ∧ i = (Source.closed ⟨name, text⟩).length) := by
  obtain ⟨c, d, items, gap, ended, place⟩ := (parseExact _ p).mp read
  rw [bufferOne] at items place
  obtain ⟨e, same, items', behind⟩ := closedItems items gap ended
  have enclosed : ∀ s ∈ p.stmts, Node.Encloses (.program p) (.stmt s) := by
    intro s stmt
    exact (programSpanned read).1.inside _ (List.mem_map_of_mem stmt)
  have inside := (standsRest (itemsStand items' (standsStart text)).1).2
  refine ⟨_, e.pos, place.trans (by rw [same]), inside, enclosed, behind, ?_⟩
  rcases itemsPlace items with ⟨rfl, none⟩ | onward
  · have start : e.pos = 0 := same
    have finish := standsEnd (standsGap (standsStart _) gap) ended
    have skipped : (Blanks.all.skip ⟨0, Source.closed ⟨name, text⟩⟩).pos = (Source.closed ⟨name, text⟩).length := by
      rw [skipGap gap, ← finish]
      simp [Blanks.skip, Blanks.skipFrom, ended]
    by_cases empty : text = []
    · subst empty
      exact .inl ⟨.inl rfl, Nat.zero_le _, .none _⟩
    · rw [start] at behind
      exact .inr ⟨⟨empty, behind⟩, none, start, skipped⟩
  · refine .inl ⟨.inr ?_, by omega, closedBlank (gapSkip _) ?_⟩
    · intro blank
      have nothing := (blankNothing blank items').1
      simp only [nothing] at same
      omega
    · intro none
      have finish := standsEnd (standsGap (standsStart _) (gapSkip _)) none
      have long := closedLength name text
      omega

def enclosed : Bytes := utf8 "# a\n{ 7; } \n# b"

theorem enclosedExtent :
    parse [⟨"", enclosed⟩] = .ok ⟨⟨4, 10⟩, [.assign ⟨6, 8⟩ (.int ⟨6, 7⟩ 7)]⟩ ∧
      ∃ i j : Nat, (⟨4, 10⟩ : Span) = ⟨i, j⟩ ∧ j ≤ enclosed.length ∧ i ≤ j ∧ Blank enclosed 0 i ∧
        Blank enclosed j enclosed.length := by
  have read : parse [⟨"", enclosed⟩] = .ok ⟨⟨4, 10⟩, [.assign ⟨6, 8⟩ (.int ⟨6, 7⟩ 7)]⟩ := rfl
  obtain ⟨i, j, place, inside, -, behind, ⟨-, less, front⟩ | ⟨-, none, -⟩⟩ := programExtent read
  · exact ⟨read, i, j, place, inside, less, front, behind⟩
  · exact absurd none (List.cons_ne_nil _ _)

theorem blankBackwards : ∃ p, parse [⟨"", [newline]⟩] = .ok p ∧ p.span = ⟨1, 0⟩ ∧ ¬ p.span.pos ≤ p.span.stop :=
  ⟨_, rfl, rfl, by decide⟩

end Abacus
