import Abacus.Proofs.Parsing.Translation

/-! The rules of the language at aligned cursors. Bounds on the loops do not matter either, as long as the text is no
longer than they allow. -/
namespace Abacus.Parsing

variable {k : Nat}

def Moved (k : Nat) (x y : Expr) : Prop := y = x.shift k ∧ y.span = x.span.shift k

theorem spanMoved (k m n : Nat) : (⟨(m + k : Nat), (n + k : Nat)⟩ : Span) = Span.shift k ⟨m, n⟩ := by
  simp [Span.shift]

theorem memMoved (k m n : Nat) : Moved k (.mem ⟨m, n⟩) (.mem ⟨(m + k : Nat), (n + k : Nat)⟩) := by
  rw [spanMoved]
  exact ⟨rfl, rfl⟩

theorem intMoved (k m n : Nat) (v : Int64) : Moved k (.int ⟨m, n⟩ v) (.int ⟨(m + k : Nat), (n + k : Nat)⟩ v) := by
  rw [spanMoved]
  exact ⟨rfl, rfl⟩

theorem parenMoved {x y : Expr} (h : Moved k x y) (m n : Nat) :
    Moved k (.paren ⟨m, n⟩ x) (.paren ⟨(m + k : Nat), (n + k : Nat)⟩ y) := by
  rw [spanMoved, h.1]
  exact ⟨rfl, rfl⟩

theorem signedMoved {x y : Expr} (h : Moved k x y) (m : Nat) (op : Coded Sign) :
    Moved k (.signed ⟨m, x.span.stop⟩ op x) (.signed ⟨(m + k : Nat), y.span.stop⟩ op y) := by
  have span : (⟨(m + k : Nat), y.span.stop⟩ : Span) = Span.shift k ⟨m, x.span.stop⟩ := by
    rw [h.2]
    simp [Span.shift]
  rw [span, h.1]
  exact ⟨rfl, rfl⟩

theorem stmtMoved {x y : Expr} (h : Moved k x y) (make : Span → Expr → Stmt)
    (uniform : ∀ s z, (make s z).shift k = make (s.shift k) (z.shift k)) (m n : Nat) :
    make ⟨(m + k : Nat), (n + k : Nat)⟩ y = (make ⟨m, n⟩ x).shift k := by
  rw [spanMoved, h.1, uniform]

theorem joinMoved {x x' y y' : Expr} (h : Moved k x x') (h' : Moved k y y') (o : Oper) :
    Moved k (x.join o y) (x'.join o y') := by
  unfold Expr.join
  rw [h.2, h'.2, h.1, h'.1]
  exact ⟨rfl, rfl⟩

theorem textTracks (v : Cursor) {t : String} (some : utf8 t ≠ []) :
    Tracks k v v.pos (v.pos + k) Eq (Parser.text t v) (Parser.text t (v.shift k)) := by
  unfold Parser.text
  by_cases found : (utf8 t).isPrefixOf v.rest = true
  · have size := (List.isPrefixOf_iff_prefix.mp found).length_le
    have long := List.length_pos_iff.mpr some
    rw [Cursor.shiftRest, if_pos found, if_pos found, Cursor.shiftAdvance]
    exact .past (.done rfl (Nat.add_le_add_left long _) (Cursor.advanceFinish size))
  · rw [Cursor.shiftRest, if_neg found, if_neg found]
    exact .stayed _

theorem wordTracks (v : Cursor) {w : String} (some : utf8 w ≠ []) :
    Tracks k v v.pos (v.pos + k) Eq (Parser.word w v) (Parser.word w (v.shift k)) := by
  unfold Parser.word
  dsimp only
  rw [Cursor.shiftAdvance, Cursor.shiftRest, Cursor.shiftRest]
  by_cases found : ((utf8 w).isPrefixOf v.rest && !(v.advance (utf8 w).length).rest.head?.any isWordByte) = true
  · have size := (List.isPrefixOf_iff_prefix.mp (Bool.and_eq_true_iff.mp found).1).length_le
    have long := List.length_pos_iff.mpr some
    rw [if_pos found, if_pos found]
    exact .past (.done rfl (Nat.add_le_add_left long _) (Cursor.advanceFinish size))
  · rw [if_neg found, if_neg found]
    exact .stayed _

section Tokens

variable {c c' : Cursor} (aligned : Aligned k c c')
include aligned

theorem textTokenTracks {t : String} (some : utf8 t ≠ []) (j : Nat) :
    Tracks k (Blanks.all.skip c) c.pos c'.pos Eq ((Named.text t).token.part j c) ((Named.text t).token.part j c') :=
  tracksWithin (tracksToken aligned rfl (textTracks _ some)) _

theorem wordTokenTracks {w : String} (some : utf8 w ≠ []) (j : Nat) :
    Tracks k (Blanks.all.skip c) c.pos c'.pos Eq ((Named.word w).token.part j c) ((Named.word w).token.part j c') :=
  tracksWithin (tracksToken aligned rfl (wordTracks _ some)) _

end Tokens

namespace Rule

theorem memTracks (v : Cursor) : Tracks k v v.pos (v.pos + k) (Moved k) (mem.parse v) (mem.parse (v.shift k)) := by
  refine tracksBind (p := Parser.word "mem") (wordTracks v (by decide)) ?_
  intro _ _ d _ onward inside
  exact .done (memMoved k v.pos d.pos) (Nat.le_refl _) rfl

theorem intTracks (v : Cursor) : Tracks k v v.pos (v.pos + k) (Moved k) (int.parse v) (int.parse (v.shift k)) := by
  unfold int
  dsimp only
  have size := (List.takeWhile_prefix (l := v.rest) isDigit).length_le
  rw [Cursor.shiftAdvance, Cursor.shiftRest, Cursor.shiftRest]
  generalize v.rest.takeWhile isDigit = ds at size ⊢
  by_cases none : ds.isEmpty = true
  · rw [if_pos none, if_pos none]
    exact .stayed _
  · have onward : v.pos + 1 ≤ (v.advance ds.length).pos := by
      have long := List.length_pos_iff.mpr (by simpa using none : ds ≠ [])
      exact Nat.add_le_add_left long _
    rw [if_neg none, if_neg none]
    cases (v.advance ds.length).rest.head?.filter isWordByte with
    | some b => exact .past (.failed _ onward)
    | none =>
      dsimp only
      split
      · exact .past (.done (intMoved k _ _ _) onward (Cursor.advanceFinish size))
      · exact .past (.failed _ onward)

def Inside (k : Nat) (v : Cursor) (inner inner' : Parser Expr) : Prop :=
  ∀ d, v.pos < d.pos → d.finish = v.finish → Moves k d.pos d.finish (Moved k) (inner d) (inner' (d.shift k))

theorem insideLater {v d : Cursor} {inner inner' : Parser Expr} (h : Inside k v inner inner') (later : v.pos ≤ d.pos)
    (within : d.finish = v.finish) : Inside k (Blanks.all.skip d) inner inner' := by
  intro e onward inside
  have skipped := skipOnward d
  exact h e (by omega) (by omega)

theorem insideEnd {v : Cursor} (ended : v.rest = []) (inner inner' : Parser Expr) : Inside k v inner inner' := by
  intro d onward inside
  simp only [Cursor.finish, ended, List.length_nil] at inside
  omega

theorem parenTracks {inner inner' : Parser Expr} {c c' : Cursor} (aligned : Aligned k c c')
    (h : Inside k (Blanks.all.skip c) inner inner') :
    Tracks k (Blanks.all.skip c) c.pos c'.pos (Moved k) ((paren inner).parse c) ((paren inner').parse c') := by
  refine tracksBind (p := (Named.text "(").token.part 0) (textTokenTracks aligned (by decide) 0) ?_
  intro _ _ d _ onward inside
  refine movesBind (movesWithin (h d onward inside) _) ?_
  intro x y e moved onward inside
  refine movesBind (movesMono (inside ▸ tracksMove (textTokenTracks (alignedShift k e) (by decide) 2)) onward) ?_
  intro _ _ f _ onward inside
  have group := parenMoved moved (Blanks.all.skip c).pos f.pos
  rw [← alignedPos aligned] at group
  exact .done group onward inside

theorem primaryTracks {inner inner' : Parser Expr} {c c' : Cursor} (aligned : Aligned k c c')
    (h : Inside k (Blanks.all.skip c) inner inner') :
    Tracks k (Blanks.all.skip c) c.pos c'.pos (Moved k) (primary inner c) (primary inner' c') := by
  refine tracksFirstOf aligned (.cons ⟨rfl, ?_⟩ (.cons ⟨rfl, ?_⟩ (.cons ⟨rfl, ?_⟩ .nil)))
  · exact tracksToken aligned rfl (memTracks _)
  · exact tracksToken aligned rfl (intTracks _)
  · exact parenTracks aligned h

theorem unaryUnsigned {inner : Parser Expr} {c : Cursor}
    (none : (Blanks.all.skip c).rest.head?.bind Sign.ofByte? = none) (n : Nat) :
    unaryUpTo inner n c = primary inner c := by
  cases n with
  | zero => rfl
  | succ n =>
    unfold unaryUpTo
    simp only [none]

theorem unarySigned {inner : Parser Expr} {c : Cursor} {s : Sign}
    (sign : (Blanks.all.skip c).rest.head?.bind Sign.ofByte? = some s) {n : Nat} (room : c.rest.length ≤ n) :
    ∃ m, n = m + 1 ∧ ((Blanks.all.skip c).advance 1).rest.length ≤ m ∧
      ((Blanks.all.skip c).advance 1).finish = c.finish ∧
      unaryUpTo inner n c = ((unaryUpTo inner m).within (s.symbol ++ " operand") ((Blanks.all.skip c).advance 1)).map
        fun x => .signed ⟨(Blanks.all.skip c).pos, x.span.stop⟩ (.known s) x := by
  obtain ⟨onward, inside⟩ := skipOnward c
  have some : 1 ≤ (Blanks.all.skip c).rest.length := by
    cases rest : (Blanks.all.skip c).rest with
    | nil => simp [rest] at sign
    | cons b rest' => simp
  have finish := Cursor.advanceFinish some
  simp only [Cursor.finish] at inside finish ⊢
  cases n with
  | zero => omega
  | succ m =>
    refine ⟨m, rfl, ?_, by omega, ?_⟩
    · simp only [Cursor.advance] at finish ⊢
      omega
    · rw [unaryUpTo]
      simp only [sign]

theorem unaryUpToTracks {inner inner' : Parser Expr} (n n' : Nat) {c c' : Cursor} (aligned : Aligned k c c')
    (room : c.rest.length ≤ n) (room' : c'.rest.length ≤ n') (h : Inside k (Blanks.all.skip c) inner inner') :
    Tracks k (Blanks.all.skip c) c.pos c'.pos (Moved k) (unaryUpTo inner n c) (unaryUpTo inner' n' c') := by
  induction n using Nat.strongRecOn generalizing n' c c' with
  | ind n ih =>
    have there : Blanks.all.skip c' = (Blanks.all.skip c).shift k := aligned
    cases found : (Blanks.all.skip c).rest.head?.bind Sign.ofByte? with
    | none =>
      have found' : (Blanks.all.skip c').rest.head?.bind Sign.ofByte? = none := by rw [there]; exact found
      rw [unaryUnsigned found, unaryUnsigned found']
      exact primaryTracks aligned h
    | some s =>
      have found' : (Blanks.all.skip c').rest.head?.bind Sign.ofByte? = some s := by rw [there]; exact found
      obtain ⟨m, rfl, less, finish, here⟩ := unarySigned found room
      obtain ⟨m', rfl, less', -, here'⟩ := unarySigned found' room'
      rw [here, here', there, Cursor.shiftAdvance]
      rw [there, Cursor.shiftAdvance] at less'
      have later := insideLater h (d := (Blanks.all.skip c).advance 1) (Nat.le_add_right _ _)
        (finish.trans (skipOnward c).2.symm)
      have arg := tracksMove (ih m (Nat.lt_succ_self m) m' (alignedShift k _) less less' later)
      rw [finish, ← (skipOnward c).2] at arg
      exact .past (movesMap (movesWithin arg _) fun x y moved => signedMoved moved _ _)

theorem operTracks (t : Tier) {c c' : Cursor} (aligned : Aligned k c c') :
    Tracks k (Blanks.all.skip c) c.pos c'.pos Eq (operOf t c) (operOf t c') := by
  have still : Blanks.all.skip (Blanks.all.skip c) = Blanks.all.skip c := (skipGap (gapSkip c)).symm
  have each : ∀ o : Oper, Tracks k (Blanks.all.skip c) (Blanks.all.skip c).pos ((Blanks.all.skip c).shift k).pos Eq
      ((Named.oper o).parse (Blanks.all.skip c)) ((Named.oper o).parse ((Blanks.all.skip c).shift k)) := by
    intro o
    refine tracksBind (textTracks _ (by cases o <;> decide)) ?_
    intro _ _ d _ _ _
    exact .done rfl (Nat.le_refl _) rfl
  have all : ∀ ops : List Oper, List.Forall₂ (fun p p' : Named Oper => p.name = p'.name ∧
      Tracks k (Blanks.all.skip (Blanks.all.skip c)) (Blanks.all.skip c).pos ((Blanks.all.skip c).shift k).pos Eq
        (p.parse (Blanks.all.skip c)) (p'.parse ((Blanks.all.skip c).shift k)))
      (ops.map Named.oper) (ops.map Named.oper) := by
    intro ops
    rw [still]
    induction ops with
    | nil => exact .nil
    | cons o ops ih => exact .cons ⟨rfl, each o⟩ ih
  have choice := tracksFirstOf (alignedShift k (Blanks.all.skip c)) (all t.ops)
  rw [still] at choice
  exact tracksToken aligned rfl choice

section Chains

variable {arg arg' : Parser Expr} {t : Tier}

def linkOf (arg : Parser Expr) (x : Expr) (o : Oper) : Parser Expr := do return x.join o (← arg.within "arg")

def linksOf (t : Tier) (arg : Parser Expr) : Nat → Expr → Parser Expr := Parser.links (operOf t) (linkOf arg)

theorem linksEnd {c : Cursor} (ended : c.rest = []) (n : Nat) (x : Expr) : linksOf t arg n x c = .done x c := by
  cases n with
  | zero => rfl
  | succ n => simp [linksOf, Parser.links, ended]

theorem linksNext {c : Cursor} (more : c.rest ≠ []) (n : Nat) (x : Expr) :
    linksOf t arg (n + 1) x c = match operOf t c with
      | .failed r i => if i = c.pos then .done x c else .failed (.within "op" r) i
      | .broken e => .broken e
      | .done o d => if d.pos = c.pos then .done x c else (linkOf arg x o >>= linksOf t arg n) d := by
  have some : c.rest.isEmpty = false := by simpa using more
  unfold linksOf Parser.links
  rw [if_neg (by simp [some])]
  cases operOf t c <;> rfl

theorem linkMoves {c : Cursor} {x y : Expr} (moved : Moved k x y) (o : Oper)
    (next : Moves k c.pos c.finish (Moved k) (arg c) (arg' (c.shift k))) :
    Moves k c.pos c.finish (Moved k) (linkOf arg x o c) (linkOf arg' y o (c.shift k)) := by
  refine movesBind (movesWithin next _) ?_
  intro z z' d related onward inside
  exact .done (joinMoved moved related o) onward inside

/- The links of a chain, from the same place on. Every operator takes a byte, so the bounds are never reached. -/
theorem linksMoves (n n' : Nat) {c : Cursor} {x y : Expr} (moved : Moved k x y) (room : c.rest.length ≤ n)
    (room' : c.rest.length ≤ n') (later : ∀ d, c.pos < d.pos → d.finish = c.finish →
      Moves k d.pos d.finish (Moved k) (arg d) (arg' (d.shift k))) :
    Moves k c.pos c.finish (Moved k) (linksOf t arg n x c) (linksOf t arg' n' y (c.shift k)) := by
  induction n using Nat.strongRecOn generalizing n' c x y with
  | ind n ih =>
    by_cases ended : c.rest = []
    · rw [linksEnd ended, linksEnd (c := c.shift k) ended]
      exact .done moved (Nat.le_refl _) rfl
    · have long := List.length_pos_iff.mpr ended
      obtain ⟨m, rfl⟩ : ∃ m, n = m + 1 := Nat.exists_eq_succ_of_ne_zero (by omega)
      obtain ⟨m', rfl⟩ : ∃ m, n' = m + 1 := Nat.exists_eq_succ_of_ne_zero (by omega)
      have oper := operTracks t (alignedShift k c)
      obtain ⟨onward, inside⟩ := skipOnward c
      rw [linksNext ended, linksNext (c := c.shift k) ended]
      generalize operOf t c = o at oper ⊢
      generalize operOf t (c.shift k) = o' at oper ⊢
      cases oper with
      | stayed r =>
        simp only [if_true]
        exact .done moved (Nat.le_refl _) rfl
      | past moves =>
        cases moves with
        | @failed j r further =>
          have here : j ≠ c.pos := by omega
          have there : j + k ≠ c.pos + k := by omega
          simp only [Cursor.shiftPos, here, there, if_false]
          exact .failed _ (by omega)
        | @done o _ d same further within =>
          subst same
          have here : d.pos ≠ c.pos := by omega
          have there : d.pos + k ≠ c.pos + k := by omega
          have finish : d.finish = c.finish := within.trans inside
          simp only [Cursor.shiftPos, here, there, if_false]
          have rest : Moves k d.pos d.finish (Moved k) ((linkOf arg x o >>= linksOf t arg m) d)
              ((linkOf arg' y o >>= linksOf t arg' m') (d.shift k)) := by
            refine movesBind (linkMoves moved o (later d (by omega) finish)) ?_
            intro z z' e related beyond ends
            have less : e.rest.length < c.rest.length := by
              simp only [Cursor.finish] at finish ends
              omega
            have links := ih m (Nat.lt_succ_self m) m' (c := e) related (by omega) (by omega)
              fun f past whole => later f (by omega) (by omega)
            rw [ends] at links
            exact movesMono links beyond
          rw [finish] at rest
          exact movesMono rest (by omega)

theorem joinedTracks {c c' : Cursor} (first : Tracks k (Blanks.all.skip c) c.pos c'.pos (Moved k) (arg c) (arg' c'))
    (later : ∀ d, (Blanks.all.skip c).pos < d.pos → d.finish = (Blanks.all.skip c).finish →
      Moves k d.pos d.finish (Moved k) (arg d) (arg' (d.shift k))) :
    Tracks k (Blanks.all.skip c) c.pos c'.pos (Moved k) (joined t.ops arg c) (joined t.ops arg' c') := by
  refine tracksBind (tracksWithin first _) ?_
  intro x y d moved onward inside
  refine linksMoves d.rest.length d.rest.length moved (Nat.le_refl _) (Nat.le_refl _) ?_
  intro e further within
  exact later e (Nat.lt_trans onward further) (within.trans inside)

end Chains

section Expressions

variable {inner inner' : Parser Expr} {c c' : Cursor} (aligned : Aligned k c c')
include aligned

theorem unaryTracks (h : Inside k (Blanks.all.skip c) inner inner') :
    Tracks k (Blanks.all.skip c) c.pos c'.pos (Moved k) (unary inner c) (unary inner' c') :=
  unaryUpToTracks c.rest.length c'.rest.length aligned (Nat.le_refl _) (Nat.le_refl _) h

theorem termTracks (h : Inside k (Blanks.all.skip c) inner inner') :
    Tracks k (Blanks.all.skip c) c.pos c'.pos (Moved k) (term inner c) (term inner' c') := by
  refine joinedTracks (t := .product) (unaryTracks aligned h) ?_
  intro d onward inside
  exact tracksMove (unaryTracks (alignedShift k d) (insideLater h (Nat.le_of_lt onward) inside))

theorem exprOverTracks (h : Inside k (Blanks.all.skip c) inner inner') :
    Tracks k (Blanks.all.skip c) c.pos c'.pos (Moved k) (exprOver inner c) (exprOver inner' c') := by
  refine joinedTracks (t := .sum) (termTracks aligned h) ?_
  intro d onward inside
  exact tracksMove (termTracks (alignedShift k d) (insideLater h (Nat.le_of_lt onward) inside))

end Expressions

def innerUpTo : Nat → Parser Expr
  | 0 => Parser.fail .integer
  | n + 1 => exprUpTo n

theorem exprUpToOver (n : Nat) (c : Cursor) : exprUpTo n c = exprOver (innerUpTo n) c := by
  cases n <;> rfl

theorem exprUpToTracks (n n' : Nat) {c c' : Cursor} (aligned : Aligned k c c') (room : c.rest.length ≤ n)
    (room' : c'.rest.length ≤ n') :
    Tracks k (Blanks.all.skip c) c.pos c'.pos (Moved k) (exprUpTo n c) (exprUpTo n' c') := by
  induction n using Nat.strongRecOn generalizing n' c c' with
  | ind n ih =>
    rw [exprUpToOver, exprUpToOver]
    refine exprOverTracks aligned ?_
    by_cases ended : (Blanks.all.skip c).rest = []
    · exact insideEnd ended _ _
    · have long := List.length_pos_iff.mpr ended
      have less := skipShrinks c
      have less' := skipShrinks c'
      rw [aligned, Cursor.shiftRest] at less'
      obtain ⟨m, rfl⟩ : ∃ m, n = m + 1 := Nat.exists_eq_succ_of_ne_zero (by omega)
      obtain ⟨m', rfl⟩ : ∃ m, n' = m + 1 := Nat.exists_eq_succ_of_ne_zero (by omega)
      intro d onward inside
      have shorter : d.rest.length < (Blanks.all.skip c).rest.length := by
        simp only [Cursor.finish] at inside
        omega
      refine tracksMove (ih m (Nat.lt_succ_self m) m' (alignedShift k d) ?_ ?_)
      · omega
      · rw [Cursor.shiftRest]
        omega

variable {c c' : Cursor} (aligned : Aligned k c c')
include aligned

theorem exprTracks : Tracks k (Blanks.all.skip c) c.pos c'.pos (Moved k) (expr c) (expr c') :=
  exprUpToTracks c.rest.length c'.rest.length aligned (Nat.le_refl _) (Nat.le_refl _)

theorem printTracks :
    Tracks k (Blanks.all.skip c) c.pos c'.pos (fun s s' => s' = s.shift k) (printStmt.parse c) (printStmt.parse c') := by
  refine tracksBind (p := (Named.word "print").token.part 0) (wordTokenTracks aligned (by decide) 0) ?_
  intro _ _ d _ _ _
  refine movesBind (tracksMove (tracksWithin (exprTracks (alignedShift k d)) _)) ?_
  intro x y e moved onward inside
  refine movesBind (movesMono (inside ▸ tracksMove (textTokenTracks (alignedShift k e) (by decide) 2)) onward) ?_
  intro _ _ f _ onward inside
  have whole := stmtMoved moved .print (fun _ _ => rfl) (Blanks.all.skip c).pos f.pos
  rw [← alignedPos aligned] at whole
  exact .done whole onward inside

theorem assignTracks :
    Tracks k (Blanks.all.skip c) c.pos c'.pos (fun s s' => s' = s.shift k) (assignStmt.parse c) (assignStmt.parse c') := by
  refine tracksBind (p := Named.part ⟨"Expr", expr⟩ 0) (tracksWithin (exprTracks aligned) _) ?_
  intro x y d moved _ _
  refine movesBind (tracksMove (textTokenTracks (alignedShift k d) (by decide) 1)) ?_
  intro _ _ e _ onward inside
  have whole := stmtMoved moved .assign (fun _ _ => rfl) (Blanks.all.skip c).pos e.pos
  rw [← alignedPos aligned] at whole
  exact .done whole onward inside

theorem stmtTracks :
    Tracks k (Blanks.all.skip c) c.pos c'.pos (fun s s' => s' = s.shift k) (stmt c) (stmt c') :=
  tracksFirstOf aligned (.cons ⟨rfl, printTracks aligned⟩ (.cons ⟨rfl, assignTracks aligned⟩ .nil))

end Rule

end Abacus.Parsing
