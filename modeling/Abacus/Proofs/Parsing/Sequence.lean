import Abacus.Proofs.Parsing.Relocation

/-! Statements and blocks at aligned cursors, where one of the two readings may have statements behind it. A block counts
the statements read before it, so reasons differ; what is read does not, and neither do the places of failures, apart from
those that are reported in front of the blanks. -/
namespace Abacus.Parsing.Rule

variable {k : Nat} {c c' : Cursor}

inductive Behind (k : Nat) (before : List Stmt) :
    List (List Stmt) → List Stmt → List (List Stmt) → List Stmt → Prop
  | top (inner : List Stmt) : Behind k before [] inner [] (before ++ inner.map (Stmt.shift k))
  | block {outer outer' : List (List Stmt)} {around around' : List Stmt} (h : Behind k before outer around outer' around')
    (inner : List Stmt) : Behind k before (around :: outer) inner (around' :: outer') (inner.map (Stmt.shift k))

theorem behindAppend {before : List Stmt} {outer outer' : List (List Stmt)} {inner inner' : List Stmt}
    (h : Behind k before outer inner outer' inner') (more : List Stmt) :
    Behind k before outer (inner ++ more) outer' (inner' ++ more.map (Stmt.shift k)) := by
  cases h with
  | top inner =>
    rw [List.append_assoc, ← List.map_append]
    exact .top _
  | block h inner =>
    rw [← List.map_append]
    exact .block h _

/- What becomes of items with `depth` blocks open, on their own and behind other ones. A failure that is not on the spot
is past the first byte of the items, or at the end of an open block. -/
inductive Parallel (k : Nat) (before : List Stmt) (c c' : Cursor) (depth : Nat) :
    Outcome (List Stmt) → Outcome (List Stmt) → Prop
  | done {l : List Stmt} {d d' : Cursor} (aligned : Aligned k d d') :
    Parallel k before c c' depth (.done l d) (.done (before ++ l.map (Stmt.shift k)) d')
  | failed {i : Nat} (r r' : Reason) (onward : (Blanks.all.skip c).pos ≤ i)
    (past : depth = 0 → (Blanks.all.skip c).pos < i) : Parallel k before c c' depth (.failed r i) (.failed r' (i + k))
  | stayed (r r' : Reason) : Parallel k before c c' depth (.failed r c.pos) (.failed r' c'.pos)

theorem parallelLater {before : List Stmt} {d : Cursor} {m : Nat} {o o' : Outcome (List Stmt)}
    (h : Parallel k before d (d.shift k) m o o') (later : (Blanks.all.skip c).pos < d.pos) (n : Nat) :
    Parallel k before c c' n o o' := by
  have onward := (skipOnward d).1
  cases h with
  | done aligned => exact .done aligned
  | failed r r' further past => exact .failed r r' (by omega) fun _ => by omega
  | stayed r r' => exact .failed r r' (by omega) fun _ => by omega

theorem itemsEnded {c : Cursor} (ended : (Blanks.all.skip c).rest.head? = none) (n : Nat) (outer : List (List Stmt))
    (inner : List Stmt) : items n outer inner c = atEnd outer inner c := by
  cases n with
  | zero => rfl
  | succ n =>
    rw [items]
    simp only [ended]

theorem endParallel {before : List Stmt} {outer outer' : List (List Stmt)} {inner inner' : List Stmt}
    (h : Behind k before outer inner outer' inner') (aligned : Aligned k c c') :
    Parallel k before c c' outer.length (atEnd outer inner c) (atEnd outer' inner' c') := by
  cases h with
  | top inner => exact .done aligned
  | block h inner =>
    simp only [atEnd, List.isEmpty_cons, Bool.false_eq_true, if_false, alignedPos aligned]
    exact .failed _ _ (Nat.le_refl _) (by simp)

theorem itemsRest {before : List Stmt} {m m' : Nat} {outer outer' : List (List Stmt)} {inner inner' : List Stmt} {d : Cursor}
    (rest : d.rest.length ≤ m → d.rest.length ≤ m' →
      Parallel k before d (d.shift k) outer.length (items m outer inner d) (items m' outer' inner' (d.shift k)))
    (aligned : Aligned k c c') (room : c.rest.length ≤ m + 1) (room' : c'.rest.length ≤ m' + 1)
    (later : (Blanks.all.skip c).pos < d.pos) (inside : d.finish = (Blanks.all.skip c).finish) (n : Nat) :
    Parallel k before c c' n (items m outer inner d) (items m' outer' inner' (d.shift k)) := by
  have here := skipShrinks c
  have there := skipShrinks c'
  rw [aligned, Cursor.shiftRest] at there
  have shorter : d.rest.length < (Blanks.all.skip c).rest.length := by
    simp only [Cursor.finish] at inside
    omega
  exact parallelLater (rest (by omega) (by omega)) later n

theorem itemsParallel {before : List Stmt} (n n' : Nat) {outer outer' : List (List Stmt)} {inner inner' : List Stmt}
    (h : Behind k before outer inner outer' inner') (aligned : Aligned k c c') (room : c.rest.length ≤ n)
    (room' : c'.rest.length ≤ n') :
    Parallel k before c c' outer.length (items n outer inner c) (items n' outer' inner' c') := by
  induction n using Nat.strongRecOn generalizing n' outer outer' inner inner' c c' with
  | ind n ih =>
    have there : Blanks.all.skip c' = (Blanks.all.skip c).shift k := aligned
    cases next : (Blanks.all.skip c).rest.head? with
    | none =>
      have next' : (Blanks.all.skip c').rest.head? = none := by rw [there]; exact next
      rw [itemsEnded next, itemsEnded next']
      exact endParallel h aligned
    | some b =>
      have long : 0 < (Blanks.all.skip c).rest.length := by
        cases rest : (Blanks.all.skip c).rest with
        | nil => simp [rest] at next
        | cons b rest' => simp
      have less := skipShrinks c
      have less' := skipShrinks c'
      rw [there, Cursor.shiftRest] at less'
      obtain ⟨m, rfl⟩ : ∃ m, n = m + 1 := Nat.exists_eq_succ_of_ne_zero (by omega)
      obtain ⟨m', rfl⟩ : ∃ m, n' = m + 1 := Nat.exists_eq_succ_of_ne_zero (by omega)
      have step : (Blanks.all.skip c).pos < ((Blanks.all.skip c).advance 1).pos := Nat.lt_succ_self _
      have finish := Cursor.advanceFinish (c := Blanks.all.skip c) (n := 1) long
      rw [items, items]
      simp only [there, Cursor.shiftRest, next, Cursor.shiftAdvance]
      split
      · refine itemsRest (fun room room' => ?_) aligned room room' step finish _
        exact ih m (Nat.lt_succ_self m) m' (.block h []) (alignedShift k _) room room'
      · split
        · cases h with
          | top inner => exact .done aligned
          | block h inner =>
            refine itemsRest (fun room room' => ?_) aligned room room' step finish _
            exact ih m (Nat.lt_succ_self m) m' (behindAppend h inner) (alignedShift k _) room room'
        · have first := stmtTracks aligned
          generalize stmt c = o at first ⊢
          generalize stmt c' = o' at first ⊢
          cases first with
          | past moves =>
            cases moves with
            | @done s s' d moved onward inside =>
              subst moved
              refine itemsRest (fun room room' => ?_) aligned room room' onward inside _
              exact ih m (Nat.lt_succ_self m) m' (behindAppend h [s]) (alignedShift k _) room room'
            | failed r onward => exact .failed _ _ (Nat.le_of_lt onward) fun _ => onward
          | stayed r => exact .stayed _ _

end Abacus.Parsing.Rule
