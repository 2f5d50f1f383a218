import Abacus.Proofs.Canonical.Regrouping
import Abacus.Proofs.Parsing.Relocation

/-! Phrases on their own. What a phrase takes of a text can be cut out and read by itself: nothing that follows it is
needed to read it, and nothing that stands before it, but for the positions. -/
namespace Abacus

def Stmt.span : Stmt → Span
  | .absent | .foreign _ => ⟨0, 0⟩
  | .assign s _ | .print s _ => s

namespace Parsing

theorem spellsOnward {w : Bytes} {c d : Cursor} (h : Spells w c d) : c.pos ≤ d.pos := by
  rw [h.2]
  exact Nat.le_add_right _ _

theorem gapOnward {c d : Cursor} (h : Gap c d) : c.pos ≤ d.pos := by
  obtain ⟨w, spelled⟩ := gapSpells h
  exact spellsOnward spelled

theorem derivesSpells {ph : Phrase} {c d : Cursor} {x : Expr} (h : Derives ph c d x) : ∃ w, Spells w c d := by
  induction h with
  | chain first more firstIH moreIH =>
    obtain ⟨v, first⟩ := firstIH
    obtain ⟨w, more⟩ := moreIH
    exact ⟨v ++ w, spellsAppend first more⟩
  | stop c => exact ⟨[], rfl, rfl⟩
  | link oper sign arg more argIH moreIH =>
    obtain ⟨u, sign⟩ := tokenSpells sign
    obtain ⟨v, arg⟩ := argIH
    obtain ⟨w, more⟩ := moreIH
    exact ⟨_, spellsAppend sign (spellsAppend arg more)⟩
  | sign sign arg argIH =>
    obtain ⟨v, sign⟩ := tokenSpells sign
    obtain ⟨w, arg⟩ := argIH
    exact ⟨_, spellsAppend sign arg⟩
  | plain body bodyIH => exact bodyIH
  | mem word ends =>
    obtain ⟨v, word⟩ := tokenSpells word
    exact ⟨_, word⟩
  | int digits some all ends small =>
    obtain ⟨v, digits⟩ := tokenSpells digits
    exact ⟨_, digits⟩
  | paren left body right bodyIH =>
    obtain ⟨u, left⟩ := tokenSpells left
    obtain ⟨v, body⟩ := bodyIH
    obtain ⟨w, right⟩ := tokenSpells right
    exact ⟨_, spellsAppend left (spellsAppend body right)⟩

theorem derivesOnward {ph : Phrase} {c d : Cursor} {x : Expr} (h : Derives ph c d x) : c.pos ≤ d.pos := by
  obtain ⟨w, spelled⟩ := derivesSpells h
  exact spellsOnward spelled

theorem tokenInside {w : Bytes} {c d e : Cursor} (h : Token w c d e) (solid : Solid w) :
    c.pos ≤ d.pos ∧ d.pos < e.pos := by
  have shrinks := tokenShrinks ⟨.none d, h.spelled⟩ solid
  exact ⟨gapOnward h.gap, shrinks.2⟩

theorem tokenBefore {w : Bytes} {c d e : Cursor} (h : Token w c d e) (solid : Solid w) :
    d.pos < (Blanks.all.skip e).pos := by
  have inside := (tokenInside h solid).2
  have skipped := (skipOnward e).1
  omega

theorem derivesStop {ph : Phrase} {c d : Cursor} {x : Expr} (h : Derives ph c d x)
    (prior : ph.Prior fun y => y.span.stop = c.pos ∧ y.span.pos < c.pos) :
    x.span.stop = d.pos ∧ x.span.pos < d.pos := by
  induction h with
  | @chain t c d e x y first more firstIH moreIH =>
    exact moreIH (firstIH (by cases t <;> trivial))
  | stop c => exact prior
  | @link t o c s d e f x y z oper sign arg more argIH moreIH =>
    apply moreIH
    have stop := (argIH (by cases t <;> trivial)).1
    have before : x.span.pos < c.pos := prior.2
    have signed := tokenInside sign (operSolid o)
    have onward := derivesOnward arg
    have whole : x.span.pos < e.pos := by omega
    exact ⟨stop, whole⟩
  | @sign s c b d e x sign arg argIH =>
    have stop := (argIH trivial).1
    have signed := tokenInside sign (signSolid s)
    have onward := derivesOnward arg
    exact ⟨stop, by simp only [Expr.span]; omega⟩
  | plain body bodyIH => exact bodyIH trivial
  | mem word ends =>
    have inside := tokenInside word (by decide)
    exact ⟨rfl, by simp only [Expr.span]; omega⟩
  | int digits some all ends small =>
    have inside := tokenInside digits (digitSolid some all)
    exact ⟨rfl, by simp only [Expr.span]; omega⟩
  | paren left body right bodyIH =>
    have opened := tokenInside left (by decide)
    have onward := derivesOnward body
    have closed := tokenInside right (by decide)
    exact ⟨rfl, by simp only [Expr.span]; omega⟩

def Cursor.upTo (j : Nat) (c : Cursor) : Cursor := ⟨c.pos, c.rest.take (j - c.pos)⟩

section UpTo

variable {j : Nat}

theorem spellsUpTo {w : Bytes} {c d : Cursor} (h : Spells w c d) (inside : d.pos ≤ j) :
    Spells w (c.upTo j) (d.upTo j) := by
  refine ⟨?_, h.2⟩
  have size : j - c.pos = w.length + (j - d.pos) := by
    have moved := h.2
    omega
  simp only [Cursor.upTo, h.1, size, List.take_length_add_append]

theorem headUpTo {c : Cursor} {b : UInt8} (next : (c.upTo j).rest.head? = some b) : c.rest.head? = some b := by
  simp only [Cursor.upTo, List.head?_take] at next
  split at next
  · contradiction
  · exact next

theorem gapUpTo {c d : Cursor} (h : Gap c d) (inside : d.pos ≤ j) : Gap (c.upTo j) (d.upTo j) := by
  induction h with
  | none c => exact .none _
  | space space here more ih =>
    exact .space space (spellsUpTo here (Nat.le_trans (gapOnward more) inside)) (ih inside)
  | comment line here ends more ih =>
    exact .comment line (spellsUpTo here (Nat.le_trans (gapOnward more) inside)) (fun b next => ends b (headUpTo next))
      (ih inside)

theorem tokenUpTo {w : Bytes} {c d e : Cursor} (h : Token w c d e) (inside : e.pos ≤ j) :
    Token w (c.upTo j) (d.upTo j) (e.upTo j) :=
  ⟨gapUpTo h.gap (Nat.le_trans (spellsOnward h.spelled) inside), spellsUpTo h.spelled inside⟩

theorem wordEndsUpTo {c : Cursor} (h : WordEnds c) : WordEnds (c.upTo j) := fun b next => h b (headUpTo next)

theorem derivesUpTo {ph : Phrase} {c d : Cursor} {x : Expr} (h : Derives ph c d x) (inside : d.pos ≤ j) :
    Derives ph (c.upTo j) (d.upTo j) x := by
  induction h with
  | chain first more firstIH moreIH =>
    have onward := derivesOnward more
    exact .chain (firstIH (by omega)) (moreIH inside)
  | stop c => exact .stop _
  | link oper sign arg more argIH moreIH =>
    have argOnward := derivesOnward arg
    have onward := derivesOnward more
    exact .link oper (tokenUpTo sign (by omega)) (argIH (by omega)) (moreIH inside)
  | sign sign arg argIH =>
    have onward := derivesOnward arg
    have signed := Derives.sign (tokenUpTo (j := j) sign (by omega)) (argIH inside)
    exact signed
  | plain body bodyIH => exact .plain (bodyIH inside)
  | mem word ends =>
    have cell := Derives.mem (tokenUpTo word inside) (wordEndsUpTo ends)
    exact cell
  | int digits some all ends small =>
    have literal := Derives.int (tokenUpTo digits inside) some all (wordEndsUpTo ends) small
    exact literal
  | paren left body right bodyIH =>
    have bodyOnward := derivesOnward body
    have closed := tokenInside right (by decide)
    have group := Derives.paren (tokenUpTo (j := j) left (by omega)) (bodyIH (by omega)) (tokenUpTo right inside)
    exact group

theorem stmtUpTo {c d : Cursor} {s : Stmt} (h : DerivesStmt c d s) (inside : d.pos ≤ j) :
    DerivesStmt (c.upTo j) (d.upTo j) s := by
  cases h with
  | print word ends body last =>
    have bodyOnward := derivesOnward body
    have closed := tokenInside last (by decide)
    have printed := DerivesStmt.print (tokenUpTo (j := j) word (by omega)) (wordEndsUpTo ends)
      (derivesUpTo body (by omega)) (tokenUpTo last inside)
    exact printed
  | assign body last =>
    have closed := tokenInside last (by decide)
    exact .assign (derivesUpTo body (by omega)) (tokenUpTo last inside)

end UpTo

def Stands (text : Bytes) (c : Cursor) : Prop := ∃ w, Spells w ⟨0, text⟩ c

theorem standsStart (text : Bytes) : Stands text ⟨0, text⟩ := ⟨[], rfl, rfl⟩

theorem standsRest {text : Bytes} {c : Cursor} (h : Stands text c) :
    c.rest = text.drop c.pos ∧ c.pos ≤ text.length := by
  obtain ⟨w, rest, pos⟩ := h
  obtain rfl : text = w ++ c.rest := rest
  rw [pos]
  simp

theorem standsSpelled {text w : Bytes} {c d : Cursor} (h : Stands text c) (spelled : Spells w c d) : Stands text d := by
  obtain ⟨v, before⟩ := h
  exact ⟨v ++ w, spellsAppend before spelled⟩

theorem standsGap {text : Bytes} {c d : Cursor} (h : Stands text c) (gap : Gap c d) : Stands text d := by
  obtain ⟨w, spelled⟩ := gapSpells gap
  exact standsSpelled h spelled

theorem standsToken {text w : Bytes} {c d e : Cursor} (h : Stands text c) (token : Token w c d e) : Stands text e :=
  standsSpelled (standsGap h token.gap) token.spelled

theorem standsPhrase {text : Bytes} {ph : Phrase} {c d : Cursor} {x : Expr} (h : Stands text c)
    (phrase : Derives ph c d x) : Stands text d := by
  obtain ⟨w, spelled⟩ := derivesSpells phrase
  exact standsSpelled h spelled

theorem sliceAligned {text : Bytes} {c : Cursor} (stands : Stands text c) {j : Nat}
    (inside : (Blanks.all.skip c).pos ≤ j) :
    Aligned (Blanks.all.skip c).pos ⟨0, text.extract (Blanks.all.skip c).pos j⟩ (c.upTo j) := by
  have rest := (standsRest (standsGap stands (gapSkip c))).1
  have there : (Blanks.all.skip c).upTo j =
      Cursor.shift (Blanks.all.skip c).pos ⟨0, text.extract (Blanks.all.skip c).pos j⟩ := by
    simp only [Cursor.upTo, Cursor.shift, Nat.zero_add, rest]
  apply alignedGap
  rw [← there]
  exact gapUpTo (gapSkip c) inside

theorem tracksDone {α : Type} {k i i' : Nat} {v d : Cursor} {S : α → α → Prop} {o : Outcome α} {y : α}
    (h : Tracks k v i i' S o (.done y d)) : ∃ x e, o = .done x e ∧ S x y ∧ d = e.shift k := by
  cases h with
  | past moves =>
    cases moves with
    | done same onward inside => exact ⟨_, _, rfl, same, rfl⟩

def Exact {α : Type} (text : Bytes) (p : Parser α) (shift : Nat → α → α) (place : Span) (x : α) : Prop :=
  ∃ i j : Nat, place = ⟨i, j⟩ ∧ i < j ∧ j ≤ text.length ∧
    ∃ y, p ⟨0, text.extract i j⟩ = .done y ⟨j - i, []⟩ ∧ x = shift i y

theorem exactOf {α : Type} {text : Bytes} {p : Parser α} {shift : Nat → α → α} {S : α → α → Prop} {i m n : Nat}
    {v d : Cursor} {x : α} (less : i < d.pos) (stands : Stands text d)
    (tracks : Tracks i v m n S (p ⟨0, text.extract i d.pos⟩) (.done x (d.upTo d.pos)))
    (same : ∀ y, S y x → x = shift i y) : Exact text p shift ⟨i, d.pos⟩ x := by
  obtain ⟨y, e, done, related, there⟩ := tracksDone tracks
  have ended : e = ⟨d.pos - i, []⟩ := by
    obtain ⟨pos, rest⟩ := e
    simp only [Cursor.upTo, Nat.sub_self, List.take_zero, Cursor.shift, Cursor.mk.injEq] at there ⊢
    exact ⟨by omega, there.2.symm⟩
  rw [ended] at done
  exact ⟨i, d.pos, rfl, less, (standsRest stands).2, y, done, same y related⟩

theorem exprPlace {c d : Cursor} {x : Expr} (h : Derives .expr c d x) :
    x.span = ⟨(Blanks.all.skip c).pos, d.pos⟩ ∧ (Blanks.all.skip c).pos < d.pos := by
  have start : x.span.pos = (Blanks.all.skip c).pos := derivesStart h
  obtain ⟨stop, less⟩ := derivesStop h trivial
  rw [start] at less
  refine ⟨?_, by omega⟩
  rw [← start, ← stop]

theorem exprExact {text : Bytes} {c d : Cursor} {x : Expr} (stands : Stands text c) (h : Derives .expr c d x) :
    Exact text Rule.expr Expr.shift x.span x := by
  obtain ⟨place, inside⟩ := exprPlace h
  have ends : Phrase.expr.Ends (d.upTo d.pos) := by
    intro o _
    simp [Cursor.upTo, Blanks.skip, Blanks.skipFrom]
  have tracks := Rule.exprTracks (sliceAligned stands (Nat.le_of_lt inside))
  rw [Rule.exprDone (derivesUpTo h (Nat.le_refl _)) ends] at tracks
  rw [place]
  exact exactOf inside (standsPhrase stands h) tracks fun y moved => moved.1

theorem stmtPlace {c d : Cursor} {s : Stmt} (h : DerivesStmt c d s) :
    s.span = ⟨(Blanks.all.skip c).pos, d.pos⟩ ∧ (Blanks.all.skip c).pos < d.pos := by
  cases h with
  | print word ends body last =>
    have start := tokenSkip word (by decide)
    have opened := tokenInside word (by decide)
    have onward := derivesOnward body
    have closed := tokenInside last (by decide)
    rw [start]
    exact ⟨rfl, by omega⟩
  | assign body last =>
    obtain ⟨place, inside⟩ := exprPlace body
    have closed := tokenInside last (by decide)
    simp only [Stmt.span, place]
    exact ⟨trivial, by omega⟩

theorem standsStmt {text : Bytes} {c d : Cursor} {s : Stmt} (h : Stands text c) (stmt : DerivesStmt c d s) :
    Stands text d := by
  cases stmt with
  | print word ends body last => exact standsToken (standsPhrase (standsToken h word) body) last
  | assign body last => exact standsToken (standsPhrase h body) last

theorem stmtExact {text : Bytes} {c d : Cursor} {s : Stmt} (stands : Stands text c) (h : DerivesStmt c d s) :
    Exact text Rule.stmt Stmt.shift s.span s := by
  obtain ⟨place, inside⟩ := stmtPlace h
  have tracks := Rule.stmtTracks (sliceAligned stands (Nat.le_of_lt inside))
  rw [Rule.stmtDone (stmtUpTo h (Nat.le_refl _))] at tracks
  rw [place]
  exact exactOf inside (standsStmt stands h) tracks fun y moved => moved

end Parsing

end Abacus
