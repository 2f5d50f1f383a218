import Abacus.Proofs.Parsing.Completeness
import Mathlib.Data.List.Basic

/-! Reading the same text at another place. Two cursors are aligned if the same text follows the blanks at each of them,
`k` bytes further on at the second. Parsers do the same at both, with the positions moved by `k`; only a failure on the
spot is reported in front of the blanks, wherever these begin. -/
namespace Abacus

def Span.shift (k : Nat) (s : Span) : Span := ⟨s.pos + k, s.stop + k⟩

def Expr.shift (k : Nat) : Expr → Expr
  | .absent => .absent
  | .foreign kind => .foreign kind
  | .mem s => .mem (s.shift k)
  | .int s v => .int (s.shift k) v
  | .paren s x => .paren (s.shift k) (x.shift k)
  | .signed s op x => .signed (s.shift k) op (x.shift k)
  | .binary s op l r => .binary (s.shift k) op (l.shift k) (r.shift k)

def Stmt.shift (k : Nat) : Stmt → Stmt
  | .absent => .absent
  | .foreign kind => .foreign kind
  | .assign s x => .assign (s.shift k) (x.shift k)
  | .print s x => .print (s.shift k) (x.shift k)

namespace Parsing

namespace Cursor

def shift (k : Nat) (c : Cursor) : Cursor := ⟨c.pos + k, c.rest⟩

@[simp] theorem shiftRest (k : Nat) (c : Cursor) : (c.shift k).rest = c.rest := rfl

@[simp] theorem shiftPos (k : Nat) (c : Cursor) : (c.shift k).pos = c.pos + k := rfl

def finish (c : Cursor) : Nat := c.pos + c.rest.length

theorem shiftAdvance (k n : Nat) (c : Cursor) : (c.shift k).advance n = (c.advance n).shift k := by
  simp only [shift, advance, Nat.add_right_comm]

theorem advanceFinish {c : Cursor} {n : Nat} (inside : n ≤ c.rest.length) : (c.advance n).finish = c.finish := by
  simp only [finish, advance, List.length_drop]
  omega

end Cursor

theorem skipFromShift (s : Blanks) (inComment : Bool) (pos k : Nat) (rest : Bytes) :
    s.skipFrom inComment (pos + k) rest = (s.skipFrom inComment pos rest).shift k := by
  induction rest generalizing inComment pos with
  | nil => rfl
  | cons b rest ih =>
    simp only [Blanks.skipFrom, Nat.add_right_comm pos k 1, ih]
    split
    · rfl
    · split
      · rfl
      · rfl

theorem skipShift (s : Blanks) (k : Nat) (c : Cursor) : s.skip (c.shift k) = (s.skip c).shift k :=
  skipFromShift s false c.pos k c.rest

theorem skipOnward (c : Cursor) : c.pos ≤ (Blanks.all.skip c).pos ∧ (Blanks.all.skip c).finish = c.finish := by
  obtain ⟨n, inside, same⟩ := Blanks.all.skipAdvances c
  rw [same]
  exact ⟨Nat.le_add_right _ _, Cursor.advanceFinish inside⟩

theorem skipShrinks (c : Cursor) : (Blanks.all.skip c).rest.length ≤ c.rest.length := by
  obtain ⟨onward, inside⟩ := skipOnward c
  simp only [Cursor.finish] at inside
  omega

def Aligned (k : Nat) (c c' : Cursor) : Prop := Blanks.all.skip c' = (Blanks.all.skip c).shift k

theorem alignedShift (k : Nat) (c : Cursor) : Aligned k c (c.shift k) := skipShift _ k c

theorem alignedPos {k : Nat} {c c' : Cursor} (h : Aligned k c c') :
    (Blanks.all.skip c').pos = (Blanks.all.skip c).pos + k := by
  rw [h]
  rfl

theorem alignedGap {k : Nat} {c c' : Cursor} (gap : Gap c' (c.shift k)) : Aligned k c c' :=
  (skipGap gap).trans (skipShift _ k c)

section Relation

variable {α β : Type} {k : Nat}

/- What both readings come to from some place on: values that are related by `S`, and positions that differ by `k`. No
position is before `low`, and no text is lost before `total`. -/
inductive Moves (k low total : Nat) (S : α → α → Prop) : Outcome α → Outcome α → Prop
  | done {x y : α} {d : Cursor} (same : S x y) (onward : low ≤ d.pos) (inside : d.finish = total) :
    Moves k low total S (.done x d) (.done y (d.shift k))
  | failed {i : Nat} (r : Reason) (onward : low ≤ i) : Moves k low total S (.failed r i) (.failed r (i + k))

/- The same for what starts with a token at `v`: either it gets past the first byte of it, or both readings fail for the
same reason where they started, which is at `i` and at `i'`. -/
inductive Tracks (k : Nat) (v : Cursor) (i i' : Nat) (S : α → α → Prop) : Outcome α → Outcome α → Prop
  | past {o o' : Outcome α} (moves : Moves k (v.pos + 1) v.finish S o o') : Tracks k v i i' S o o'
  | stayed (r : Reason) : Tracks k v i i' S (.failed r i) (.failed r i')

variable {S : α → α → Prop} {T : β → β → Prop} {low total i i' : Nat} {v c c' : Cursor}

theorem movesMono {n : Nat} {o o' : Outcome α} (h : Moves k low total S o o') (less : n ≤ low) :
    Moves k n total S o o' := by
  cases h with
  | done same onward inside => exact .done same (Nat.le_trans less onward) inside
  | failed r onward => exact .failed r (Nat.le_trans less onward)

theorem movesBind {p p' : Parser α} {f f' : α → Parser β} (h : Moves k low total S (p c) (p' c'))
    (next : ∀ x y d, S x y → low ≤ d.pos → d.finish = total → Moves k low total T (f x d) (f' y (d.shift k))) :
    Moves k low total T ((p >>= f) c) ((p' >>= f') c') := by
  rw [Parser.bindApply, Parser.bindApply]
  generalize p c = o at h ⊢
  generalize p' c' = o' at h ⊢
  cases h with
  | done same onward inside => exact next _ _ _ same onward inside
  | failed r onward => exact .failed r onward

theorem movesMap {f : α → β} {f' : α → β} {o o' : Outcome α} (h : Moves k low total S o o')
    (same : ∀ x y, S x y → T (f x) (f' y)) : Moves k low total T (o.map f) (o'.map f') := by
  cases h with
  | done related onward inside => exact .done (same _ _ related) onward inside
  | failed r onward => exact .failed r onward

theorem movesWithin {p p' : Parser α} (h : Moves k low total S (p c) (p' c')) (label : String) :
    Moves k low total S (p.within label c) (p'.within label c') := by
  unfold Parser.within
  generalize p c = o at h ⊢
  generalize p' c' = o' at h ⊢
  cases h with
  | done same onward inside => exact .done same onward inside
  | failed r onward => exact .failed (.within label r) onward

theorem tracksWithin {p p' : Parser α} (h : Tracks k v i i' S (p c) (p' c')) (label : String) :
    Tracks k v i i' S (p.within label c) (p'.within label c') := by
  unfold Parser.within
  generalize p c = o at h ⊢
  generalize p' c' = o' at h ⊢
  cases h with
  | past moves =>
    cases moves with
    | done same onward inside => exact .past (.done same onward inside)
    | failed r onward => exact .past (.failed (.within label r) onward)
  | stayed r => exact .stayed (.within label r)

theorem tracksBind {p p' : Parser α} {f f' : α → Parser β} (h : Tracks k v i i' S (p c) (p' c'))
    (next : ∀ x y d, S x y → v.pos < d.pos → d.finish = v.finish →
      Moves k d.pos d.finish T (f x d) (f' y (d.shift k))) :
    Tracks k v i i' T ((p >>= f) c) ((p' >>= f') c') := by
  rw [Parser.bindApply, Parser.bindApply]
  generalize p c = o at h ⊢
  generalize p' c' = o' at h ⊢
  cases h with
  | past moves =>
    cases moves with
    | done same onward inside =>
      have rest := movesMono (next _ _ _ same onward inside) onward
      rw [inside] at rest
      exact .past rest
    | failed r onward => exact .past (.failed r onward)
  | stayed r => exact .stayed r

/- Where the blanks before a phrase are the same, there is no difference between getting past its first token or not. -/
theorem tracksMove {o o' : Outcome α} (h : Tracks k (Blanks.all.skip c) c.pos (c.pos + k) S o o') :
    Moves k c.pos c.finish S o o' := by
  obtain ⟨onward, inside⟩ := skipOnward c
  cases h with
  | past moves =>
    rw [inside] at moves
    exact movesMono moves (Nat.le_succ_of_le onward)
  | stayed r => exact .failed r (Nat.le_refl _)

variable (aligned : Aligned k c c')
include aligned

theorem alignedOnward : c.pos ≤ (Blanks.all.skip c).pos ∧ c'.pos ≤ (Blanks.all.skip c).pos + k := by
  have there := (skipOnward c').1
  rw [aligned] at there
  exact ⟨(skipOnward c).1, there⟩

theorem tracksToken {p p' : Named α} (name : p.name = p'.name)
    (h : Tracks k (Blanks.all.skip c) (Blanks.all.skip c).pos ((Blanks.all.skip c).pos + k) S
      (p.parse (Blanks.all.skip c)) (p'.parse ((Blanks.all.skip c).shift k))) :
    Tracks k (Blanks.all.skip c) c.pos c'.pos S (p.token.parse c) (p'.token.parse c') := by
  simp only [Named.token, Named.spaced, ← name]
  rw [aligned]
  generalize Blanks.all.skip c = v at h ⊢
  generalize p.parse v = o at h ⊢
  generalize p'.parse (v.shift k) = o' at h ⊢
  cases h with
  | past moves =>
    cases moves with
    | done same onward inside => exact .past (.done same onward inside)
    | @failed j r onward =>
      have here : j ≠ v.pos := by omega
      have there : j + k ≠ v.pos + k := by omega
      simp only [Cursor.shiftPos, here, there, if_false]
      exact .past (.failed _ onward)
  | stayed r =>
    simp only [Cursor.shiftPos, if_true]
    exact .stayed _

def Kept (k : Nat) (v : Cursor) (kept kept' : Option (Reason × Nat)) : Prop :=
  kept = none ∧ kept' = none ∨ ∃ r i, v.pos < i ∧ kept = some (r, i) ∧ kept' = some (r, i + k)

theorem tracksFirstAt {names : List String} {ps ps' : List (Named α)}
    (each : List.Forall₂ (fun p p' => p.name = p'.name ∧
      Tracks k (Blanks.all.skip c) c.pos c'.pos S (p.parse c) (p'.parse c')) ps ps')
    {kept kept' : Option (Reason × Nat)} (same : Kept k (Blanks.all.skip c) kept kept') :
    Tracks k (Blanks.all.skip c) c.pos c'.pos S (Parser.firstAt c names kept ps) (Parser.firstAt c' names kept' ps') := by
  obtain ⟨here, there⟩ := alignedOnward aligned
  induction each generalizing kept kept' with
  | nil =>
    rcases same with ⟨rfl, rfl⟩ | ⟨r, j, onward, rfl, rfl⟩
    · exact .stayed _
    · exact .past (.failed r onward)
  | @cons p p' ps ps' first rest ih =>
    obtain ⟨name, first⟩ := first
    rw [firstAtCons, firstAtCons, ← name]
    generalize p.parse c = o at first ⊢
    generalize p'.parse c' = o' at first ⊢
    cases first with
    | past moves =>
      cases moves with
      | done related onward inside => exact .past (.done related onward inside)
      | @failed j r onward =>
        have moved : j ≠ c.pos := by omega
        have moved' : j + k ≠ c'.pos := by omega
        simp only [moved, moved', if_false]
        apply ih
        rcases same with ⟨rfl, rfl⟩ | ⟨r', j', onward', rfl, rfl⟩
        · exact .inr ⟨_, _, onward, rfl, rfl⟩
        · exact .inr ⟨r', j', onward', rfl, rfl⟩
    | stayed r =>
      simp only [if_true]
      exact ih same

theorem tracksFirstOf {ps ps' : List (Named α)}
    (each : List.Forall₂ (fun p p' => p.name = p'.name ∧
      Tracks k (Blanks.all.skip c) c.pos c'.pos S (p.parse c) (p'.parse c')) ps ps') :
    Tracks k (Blanks.all.skip c) c.pos c'.pos S (Parser.firstOf ps c) (Parser.firstOf ps' c') := by
  have names : ps.map Named.name = ps'.map Named.name := by
    induction each with
    | nil => rfl
    | cons first rest ih => simp [first.1, ih]
  unfold Parser.firstOf
  rw [← names]
  exact tracksFirstAt aligned each (.inl ⟨rfl, rfl⟩)

end Relation

end Parsing

end Abacus
