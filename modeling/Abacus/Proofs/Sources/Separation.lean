import Abacus.Proofs.Sources.Location
import Abacus.Proofs.Sources.Spans

/-! Sources are kept apart. Every source is closed by a newline, and nothing that is read as one piece goes on behind a
newline: so words, numbers and comments are in the text of a single source each, however a program is spread over
sources. -/
namespace Abacus
open Parsing

def InOneSource (srcs : List Source) (i j : Nat) : Prop :=
  ∃ before s after, srcs = before ++ s :: after ∧ (buffer before).length ≤ i ∧ j ≤ (buffer before).length + s.text.length

theorem closedEnds {s : Source} (some : s.closed ≠ []) : ∃ u, s.closed = u ++ [newline] ∧ u.length ≤ s.text.length := by
  obtain ⟨u, same⟩ := (closedLined s).resolve_left some
  refine ⟨u, same, ?_⟩
  have size := congrArg List.length same
  rw [List.length_append, List.length_singleton] at size
  unfold Source.closed at size
  split at size
  · omega
  · rw [List.length_append, List.length_singleton] at size
    omega

theorem lineInOneSource {srcs : List Source} {i j : Nat} (less : i < j) (inside : j ≤ (buffer srcs).length)
    (single : ∀ k, i ≤ k → k < j → (buffer srcs)[k]? ≠ some newline) : InOneSource srcs i j := by
  have some : srcs ≠ [] := by
    rintro rfl
    exact absurd inside (Nat.not_le_of_lt (Nat.lt_of_le_of_lt (Nat.zero_le i) less))
  obtain ⟨before, s, after, split, -, onward, held⟩ := sourceAtFound some (Nat.zero_le i) (by omega)
  rw [Nat.zero_add] at onward held
  have here : i < (buffer before).length + s.closed.length := by
    rcases held with here | ⟨ended, -⟩ <;> omega
  obtain ⟨u, closed, short⟩ : ∃ u, s.closed = u ++ [newline] ∧ u.length ≤ s.text.length := by
    apply closedEnds
    intro none
    rw [none, List.length_nil] at here
    omega
  have last : (buffer srcs)[(buffer before).length + u.length]? = .some newline := by
    rw [split, bufferAppend, bufferCons, closed, List.getElem?_append_right (Nat.le_add_right _ _)]
    simp
  rw [closed, List.length_append, List.length_singleton] at here
  refine ⟨before, s, after, split, onward, Nat.le_of_not_lt fun past => ?_⟩
  exact single ((buffer before).length + u.length) (by omega) (by omega) last

namespace Parsing

/- The loop of `skipFrom` once more. For each byte that is passed over it keeps the place where the comment began that the
byte is part of. -/
def Blanks.passed (s : Blanks) (began : Option Nat) (pos : Nat) : Bytes → List (Option Nat)
  | [] => []
  | b :: rest =>
    if began.isSome && b != newline then began :: s.passed began (pos + 1) rest
    else if s.contains b then
      let comment := if b == Blanks.commentSign then some pos else none
      comment :: s.passed comment (pos + 1) rest
    else []

theorem passedStep (s : Blanks) (began : Option Nat) (pos : Nat) (b : UInt8) (rest : Bytes) :
    s.passed began pos (b :: rest) = [] ∧ s.skipFrom began.isSome pos (b :: rest) = ⟨pos, b :: rest⟩ ∨
      ∃ mark, s.passed began pos (b :: rest) = mark :: s.passed mark (pos + 1) rest ∧
        s.skipFrom began.isSome pos (b :: rest) = s.skipFrom mark.isSome (pos + 1) rest ∧
        ∀ i, mark = some i → b ≠ newline ∧ (began = some i ∨ b = Blanks.commentSign ∧ pos = i) := by
  rw [Blanks.passed, Blanks.skipFrom]
  split
  · rename_i inside
    obtain ⟨still, other⟩ := Bool.and_eq_true_iff.mp inside
    refine .inr ⟨began, rfl, by rw [still], ?_⟩
    rintro i rfl
    exact ⟨bne_iff_ne.mp other, .inl rfl⟩
  · split
    · by_cases sign : b = Blanks.commentSign
      · subst sign
        refine .inr ⟨some pos, rfl, rfl, ?_⟩
        intro i same
        exact ⟨by decide, .inr ⟨rfl, Option.some.inj same⟩⟩
      · rw [beq_false_of_ne sign]
        refine .inr ⟨none, rfl, rfl, ?_⟩
        intro i same
        contradiction
    · exact .inl ⟨rfl, rfl⟩

theorem passedSkips (s : Blanks) (began : Option Nat) (pos : Nat) (rest : Bytes) :
    (s.passed began pos rest).length ≤ rest.length ∧
      s.skipFrom began.isSome pos rest = Cursor.advance ⟨pos, rest⟩ (s.passed began pos rest).length := by
  induction rest generalizing began pos with
  | nil => exact ⟨Nat.le_refl _, rfl⟩
  | cons b rest ih =>
    rcases passedStep s began pos b rest with ⟨none, stays⟩ | ⟨mark, more, goes, -⟩
    · rw [none, stays]
      exact ⟨Nat.zero_le _, rfl⟩
    · obtain ⟨short, same⟩ := ih mark (pos + 1)
      rw [more, goes, same, List.length_cons, List.length_cons]
      refine ⟨Nat.succ_le_succ short, ?_⟩
      simp only [Cursor.advance, List.drop_succ_cons]
      congr 1
      omega

/- A byte that is passed over in a comment: the comment goes back to a number sign, and there is no newline in it so far. -/
theorem passedComment {s : Blanks} {began : Option Nat} {pos n i : Nat} {rest : Bytes}
    (h : (s.passed began pos rest)[n]? = some (some i)) :
    (began = some i ∨ pos ≤ i ∧ i ≤ pos + n ∧ rest[i - pos]? = some Blanks.commentSign) ∧
      ∀ k, i ≤ pos + k → k ≤ n → rest[k]? ≠ some newline := by
  induction rest generalizing began pos n with
  | nil => simp [Blanks.passed] at h
  | cons b rest ih =>
    rcases passedStep s began pos b rest with ⟨none, -⟩ | ⟨mark, more, -, marked⟩
    · simp [none] at h
    · rw [more] at h
      have first : ∀ {m}, mark = some i → b ≠ newline ∧
          (began = some i ∨ pos ≤ i ∧ i ≤ pos + m ∧ (b :: rest)[i - pos]? = some Blanks.commentSign) := by
        intro m same
        obtain ⟨other, old | ⟨rfl, rfl⟩⟩ := marked i same
        · exact ⟨other, .inl old⟩
        · exact ⟨other, .inr ⟨Nat.le_refl _, Nat.le_add_right _ _, by simp⟩⟩
      cases n with
      | zero =>
        obtain ⟨other, start⟩ := first (Option.some.inj h)
        refine ⟨start, fun k _ less => ?_⟩
        obtain rfl := Nat.le_zero.mp less
        simpa using other
      | succ n =>
        obtain ⟨start, clear⟩ := ih h
        have later : ∀ k, i ≤ pos + (k + 1) → k + 1 ≤ n + 1 → (b :: rest)[k + 1]? ≠ some newline := by
          intro k onward less
          rw [List.getElem?_cons_succ]
          exact clear k (by omega) (by omega)
        rcases start with same | ⟨past, before, sign⟩
        · obtain ⟨other, start⟩ := first same
          refine ⟨start, fun k onward less => ?_⟩
          cases k with
          | zero => simpa using other
          | succ k => exact later k onward less
        · have moved : i - pos = i - (pos + 1) + 1 := by omega
          refine ⟨.inr ⟨by omega, by omega, by rwa [moved, List.getElem?_cons_succ]⟩, fun k onward less => ?_⟩
          cases k with
          | zero => omega
          | succ k => exact later k onward less

theorem skipRenewed (inComment : Bool) (pos : Nat) (u rest : Bytes)
    (past : pos + u.length + 1 ≤ (Blanks.all.skipFrom inComment pos (u ++ newline :: rest)).pos) :
    Blanks.all.skipFrom inComment pos (u ++ newline :: rest) = Blanks.all.skip ⟨pos + u.length + 1, rest⟩ := by
  induction u generalizing inComment pos with
  | nil => cases inComment <;> rfl
  | cons b u ih =>
    have moved : pos + (b :: u).length + 1 = pos + 1 + u.length + 1 := by
      rw [List.length_cons]
      omega
    rw [moved] at past ⊢
    rw [List.cons_append, Blanks.skipFrom] at past ⊢
    split at past
    · rename_i inside
      rw [if_pos inside]
      exact ih _ _ past
    · rename_i outside
      rw [if_neg outside]
      split at past
      · rename_i blank
        rw [if_pos blank]
        exact ih _ _ past
      · exact absurd past (by simp only; omega)

theorem leafSpelled {ph : Phrase} {c d : Cursor} {x : Expr} (h : Derives ph c d x) (leaf : x.operands = []) :
    match ph with
    | .links _ y => x = y ∧ d = c
    | _ => ∃ w b, newline ∉ w ∧ Solid w ∧ Token w c b d ∧ x.span = ⟨b.pos, d.pos⟩ := by
  induction h with
  | @chain t c d e x y first more firstIH moreIH =>
    obtain ⟨rfl, rfl⟩ := moreIH leaf
    cases t with
    | sum => exact firstIH leaf
    | product => exact firstIH leaf
  | stop c => exact ⟨rfl, rfl⟩
  | @link t o c s d e f x y z oper sign arg more argIH moreIH =>
    obtain ⟨rfl, -⟩ := moreIH leaf
    exact absurd leaf (List.cons_ne_nil _ _)
  | sign sign arg argIH => exact absurd leaf (List.cons_ne_nil _ _)
  | plain body bodyIH => exact bodyIH leaf
  | mem word ends => exact ⟨_, _, by decide, by decide, word, rfl⟩
  | int digits some all ends small => exact ⟨_, _, digitsLine all, digitSolid some all, digits, rfl⟩
  | paren left body right bodyIH => exact absurd leaf (List.cons_ne_nil _ _)

theorem spelledAt {text w : Bytes} {c d : Cursor} (stands : Stands text c) (spelled : Spells w c d) (k : Nat)
    (inside : k < w.length) : text[c.pos + k]? = w[k]? := by
  have rest := spelled.1
  rw [(standsRest stands).1] at rest
  have there : (text.drop c.pos)[k]? = w[k]? := by rw [rest, List.getElem?_append_left inside]
  rwa [List.getElem?_drop] at there

end Parsing

theorem belowSited {srcs : List Source} {p : Program} (read : parse srcs = .ok p) {n : Node}
    (below : Node.Below (.program p) n) : ∀ m ∈ n.children, m.Sited (buffer srcs) := by
  induction below with
  | root =>
    obtain ⟨c, d, items, -⟩ := (parseExact srcs p).mp read
    intro m member
    obtain ⟨s, stmt, rfl⟩ := List.mem_map.mp member
    exact (itemsStand items (standsStart _)).2 s stmt
  | child above member ih => exact (Node.sitedSpanned (ih _ member)).2

theorem leafInOneSource {srcs : List Source} {p : Program} (read : parse srcs = .ok p) {x : Expr}
    (below : Node.Below (.program p) (.expr x)) (leaf : x.operands = []) :
    ∃ i j : Nat, x.span = ⟨i, j⟩ ∧ i < j ∧ InOneSource srcs i j := by
  obtain ⟨c, d, stands, derived⟩ : (Node.expr x).Sited (buffer srcs) := by
    cases below with
    | child above member => exact belowSited read above _ member
  obtain ⟨w, b, single, solid, token, span⟩ := leafSpelled derived leaf
  have inside := (standsRest (standsToken stands token)).2
  have less := (tokenInside token solid).2
  have size := token.spelled.2
  refine ⟨b.pos, d.pos, span, less, lineInOneSource less inside fun k onward before line => ?_⟩
  have here := spelledAt (standsGap stands token.gap) token.spelled (k - b.pos) (by omega)
  rw [Nat.add_sub_cancel' onward, line] at here
  exact single (List.mem_of_getElem? here.symm)

theorem commentInOneSource {srcs : List Source} {c : Cursor} (stands : Stands (buffer srcs) c) {n i : Nat}
    (passed : (Blanks.all.passed none c.pos c.rest)[n]? = some (some i)) :
    i ≤ c.pos + n ∧ (buffer srcs)[i]? = some Blanks.commentSign ∧ InOneSource srcs i (c.pos + n + 1) := by
  obtain ⟨rest, inside⟩ := standsRest stands
  obtain ⟨start, clear⟩ := passedComment passed
  obtain ⟨onward, before, sign⟩ := start.resolve_left nofun
  have there : ∀ k, (buffer srcs)[c.pos + k]? = c.rest[k]? := by
    intro k
    rw [rest, List.getElem?_drop]
  have short : c.pos + n + 1 ≤ (buffer srcs).length := by
    have counted := (List.getElem?_eq_some_iff.mp passed).1
    have enough := (passedSkips .all none c.pos c.rest).1
    have left := congrArg List.length rest
    rw [List.length_drop] at left
    omega
  refine ⟨before, ?_, lineInOneSource (by omega) short fun k later less line => ?_⟩
  · rw [← Nat.add_sub_cancel' onward, there, sign]
  · rw [← Nat.add_sub_cancel' (Nat.le_trans onward later), there] at line
    exact clear (k - c.pos) (by omega) (by omega) line

theorem skipSeparated {before after : List Source} {c : Cursor} (stands : Stands (buffer (before ++ after)) c)
    (onward : c.pos ≤ (buffer before).length) (past : (buffer before).length ≤ (Blanks.all.skip c).pos) :
    Blanks.all.skip c = Blanks.all.skip ⟨(buffer before).length, buffer after⟩ := by
  obtain ⟨pos, left⟩ := c
  have rest := (standsRest stands).1
  simp only at onward rest
  rw [bufferAppend, List.drop_append_of_le_length onward] at rest
  subst rest
  rcases Nat.eq_or_lt_of_le onward with same | less
  · rw [same, List.drop_length, List.nil_append]
  · obtain ⟨u, lines⟩ : ∃ u, (buffer before).drop pos = u ++ [newline] := by
      rcases bufferLined before with none | ⟨v, lines⟩
      · rw [none] at less
        exact absurd less (Nat.not_lt_zero _)
      · rw [lines, List.length_append, List.length_singleton] at less
        rw [lines, List.drop_append_of_le_length (Nat.le_of_lt_succ less)]
        exact ⟨_, rfl⟩
    have size : (buffer before).length = pos + u.length + 1 := by
      have counted := congrArg List.length lines
      rw [List.length_drop, List.length_append, List.length_singleton] at counted
      omega
    rw [size] at past ⊢
    rw [lines, List.append_assoc, List.singleton_append] at past ⊢
    exact skipRenewed false pos u (buffer after) past

/- Sources that make up a program together: every occurrence of the memory cell and every number is in the text of a single
source. Wherever blanks are passed over in the buffer, a byte that is passed over as a part of a comment is in the same
source as the sign that begins the comment. Blanks that reach the start of a source are passed over from there on as if
they began there. -/
theorem sourcesApart {srcs : List Source} {p : Program} (read : parse srcs = .ok p) :
    (∀ span, Node.Below (.program p) (.expr (.mem span)) ∨ (∃ v, Node.Below (.program p) (.expr (.int span v))) →
      ∃ i j : Nat, span = ⟨i, j⟩ ∧ i < j ∧ InOneSource srcs i j) ∧
    ∀ c, Stands (buffer srcs) c →
      (Blanks.all.skip c = c.advance (Blanks.all.passed none c.pos c.rest).length ∧
        ∀ n i, (Blanks.all.passed none c.pos c.rest)[n]? = some (some i) →
          i ≤ c.pos + n ∧ (buffer srcs)[i]? = some Blanks.commentSign ∧ InOneSource srcs i (c.pos + n + 1)) ∧
      ∀ before after, srcs = before ++ after → c.pos ≤ (buffer before).length →
        (buffer before).length ≤ (Blanks.all.skip c).pos →
        Blanks.all.skip c = Blanks.all.skip ⟨(buffer before).length, buffer after⟩ := by
  constructor
  · rintro span (cell | ⟨v, literal⟩)
    · exact leafInOneSource read cell rfl
    · exact leafInOneSource read literal rfl
  · intro c stands
    refine ⟨⟨(passedSkips .all none c.pos c.rest).2, fun n i passed => commentInOneSource stands passed⟩, ?_⟩
    rintro before after rfl onward past
    exact skipSeparated stands onward past

def spread : List Source :=
  [⟨"a", utf8 "1 + # sum"⟩, ⟨"b", []⟩, ⟨"c", utf8 "mem"⟩, ⟨"d", utf8 "; \x7b print 2"⟩, ⟨"e", utf8 ";\x7d"⟩]

def spreadTree : Program :=
  ⟨⟨0, 28⟩, [.assign ⟨0, 15⟩ (.binary ⟨0, 13⟩ (.known .add) (.int ⟨0, 1⟩ 1) (.mem ⟨10, 13⟩)),
    .print ⟨18, 27⟩ (.int ⟨24, 25⟩ 2)]⟩

theorem spreadApart :
    parse spread = .ok spreadTree ∧ InOneSource spread 10 13 ∧
      ∃ c, Stands (buffer spread) c ∧ c.pos = 3 ∧ (Blanks.all.passed none c.pos c.rest)[5]? = some (some 4) ∧
        InOneSource spread 4 9 ∧ Blanks.all.skip c = Blanks.all.skip ⟨10, buffer (spread.drop 2)⟩ := by
  have read : parse spread = .ok spreadTree := rfl
  have below : Node.Below (.program spreadTree) (.expr (.mem ⟨10, 13⟩)) :=
    .child (.child (.child .root (List.mem_cons_self ..)) (List.mem_singleton_self _)) (by simp [Node.children, Expr.operands])
  obtain ⟨leaves, comments⟩ := sourcesApart read
  obtain ⟨i, j, place, -, cell⟩ := leaves ⟨10, 13⟩ (.inl below)
  obtain ⟨rfl, rfl⟩ : i = 10 ∧ j = 13 := by
    simp only [Span.mk.injEq] at place
    omega
  have stands : Stands (buffer spread) ⟨3, (buffer spread).drop 3⟩ :=
    ⟨(buffer spread).take 3, (List.take_append_drop 3 _).symm, rfl⟩
  have passed : (Blanks.all.passed none 3 ((buffer spread).drop 3))[5]? = some (some 4) := rfl
  obtain ⟨⟨-, inside⟩, renewed⟩ := comments _ stands
  exact ⟨read, cell, _, stands, rfl, passed, (inside 5 4 passed).2.2,
    renewed (spread.take 2) (spread.drop 2) rfl (by decide) (by decide)⟩

end Abacus
