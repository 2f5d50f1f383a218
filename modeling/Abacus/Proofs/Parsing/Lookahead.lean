import Abacus.Proofs.Parsing.Soundness

/-! What one can tell from the next bytes: tokens and phrases move forward, alternatives and words that do not
apply fail where they stand, and the byte after the blanks decides which phrase or operator comes next. -/
namespace Abacus.Parsing

theorem gapSpells {c d : Cursor} (h : Gap c d) : ∃ w, Spells w c d := by
  obtain ⟨w, spelled, -⟩ := gapFiller h
  exact ⟨w, spelled⟩

theorem tokenSpells {w : Bytes} {c d e : Cursor} (h : Token w c d e) : ∃ v, Spells (v ++ w) c e := by
  obtain ⟨v, gap⟩ := gapSpells h.gap
  exact ⟨v, spellsAppend gap h.spelled⟩

theorem spellsLength {w : Bytes} {c d : Cursor} (h : Spells w c d) : c.rest.length = w.length + d.rest.length := by
  rw [h.1, List.length_append]

theorem tokenShrinks {w : Bytes} {c d e : Cursor} (h : Token w c d e) (solid : Solid w) :
    e.rest.length < c.rest.length ∧ c.pos < e.pos := by
  obtain ⟨v, spelled⟩ := tokenSpells h
  have size := spellsLength spelled
  have moved := spelled.2
  have some : 0 < w.length := by
    cases w with
    | nil => simp [Solid] at solid
    | cons b w => simp
  rw [List.length_append] at size moved
  omega

theorem operSolid (o : Oper) : Solid (utf8 o.symbol) := by
  cases o <;> decide

theorem derivesShrinks {ph : Phrase} {c d : Cursor} {x : Expr} (h : Derives ph c d x) :
    match ph with
    | .links _ _ => d.rest.length ≤ c.rest.length
    | _ => d.rest.length < c.rest.length := by
  induction h with
  | @chain t c d e x y first more firstLess moreLess =>
    have less : d.rest.length < c.rest.length := by
      cases t with
      | sum => exact firstLess
      | product => exact firstLess
    exact Nat.lt_of_le_of_lt moreLess less
  | stop c => exact Nat.le_refl _
  | @link t o c s d e f x y z oper sign arg more argLess moreLess =>
    have less : e.rest.length < d.rest.length := by
      cases t with
      | sum => exact argLess
      | product => exact argLess
    have signLess := (tokenShrinks sign (operSolid o)).1
    dsimp only at moreLess ⊢
    omega
  | @sign s c b d e x sign arg argLess => exact Nat.lt_trans argLess (tokenShrinks sign (signSolid s)).1
  | plain body bodyLess => exact bodyLess
  | mem word ends => exact (tokenShrinks word (by decide)).1
  | int digits some all ends small => exact (tokenShrinks digits (digitSolid some all)).1
  | paren left body right bodyLess =>
    have leftLess := (tokenShrinks left (by decide)).1
    have rightLess := (tokenShrinks right (by decide)).1
    dsimp only at bodyLess ⊢
    omega

section Combinators

variable {α β : Type} {c d : Cursor} {x : α}

theorem bindDone {p : Parser α} {f : α → Parser β} (h : p c = .done x d) : (p >>= f) c = f x d := by
  rw [Parser.bindApply, h]

theorem withinDone {label : String} {p : Parser α} (h : p c = .done x d) : p.within label c = .done x d := by
  simp [Parser.within, h]

theorem tokenDone {p : Named α} (h : p.parse (Blanks.all.skip c) = .done x d) : p.token.parse c = .done x d := by
  simp [Named.token, Named.spaced, h]

theorem tokenFailed {p : Named α} {r : Reason} (h : p.parse (Blanks.all.skip c) = .failed r (Blanks.all.skip c).pos) :
    p.token.parse c = .failed (.within p.name r) c.pos := by
  simp [Named.token, Named.spaced, h]

theorem bindFailed {p : Parser α} {f : α → Parser β} {r : Reason} {i : Nat} (h : p c = .failed r i) :
    (p >>= f) c = .failed r i := by
  rw [Parser.bindApply, h]

theorem firstAtDone {names : List String} {kept : Option (Reason × Nat)} (before : List (Named α))
    {after : List (Named α)} {p : Named α} (others : ∀ q ∈ before, ∃ r i, q.parse c = .failed r i)
    (h : p.parse c = .done x d) :
    Parser.firstAt c names kept (before ++ p :: after) = .done x d := by
  induction before generalizing kept with
  | nil => rw [List.nil_append, firstAtCons, h]
  | cons q before ih =>
    obtain ⟨r, i, failed⟩ := others q (by simp)
    rw [List.cons_append, firstAtCons, failed]
    dsimp only
    split
    · exact ih fun p member => others p (by simp [member])
    · exact ih fun p member => others p (by simp [member])

theorem firstAtFailed {names : List String} {ps : List (Named α)} (h : ∀ p ∈ ps, ∃ r, p.parse c = .failed r c.pos) :
    Parser.firstAt c names none ps = .failed (.noneOf names) c.pos := by
  induction ps with
  | nil => rfl
  | cons p ps ih =>
    obtain ⟨r, failed⟩ := h p (by simp)
    rw [firstAtCons, failed]
    simpa using ih fun q member => h q (by simp [member])

end Combinators

theorem textDone {t : String} {c d : Cursor} (h : Spells (utf8 t) c d) : Parser.text t c = .done () d := by
  have found := List.isPrefixOf_iff_prefix.mpr (spellsPrefix h)
  rw [Parser.text, if_pos found, ← spellsAdvance h]

theorem textFailed {t : String} {c : Cursor} (h : ¬ utf8 t <+: c.rest) : Parser.text t c = .failed (.text t) c.pos := by
  rw [Parser.text, if_neg (by simpa using h)]

theorem wordDone {w : String} {c d : Cursor} (h : Spells (utf8 w) c d) (ends : WordEnds d) :
    Parser.word w c = .done () d := by
  have found := List.isPrefixOf_iff_prefix.mpr (spellsPrefix h)
  have stops : d.rest.head?.any isWordByte = false := by
    cases next : d.rest.head? with
    | none => rfl
    | some b => exact ends b next
  simp [Parser.word, found, ← spellsAdvance h, stops]

theorem wordFailed {w : String} {c : Cursor} (h : ¬ utf8 w <+: c.rest) : Parser.word w c = .failed (.word w) c.pos := by
  simp [Parser.word, h]

theorem textTokenDone {t : String} {c s d : Cursor} (h : Token (utf8 t) c s d) (solid : Solid (utf8 t)) (j : Nat) :
    (Named.text t).token.part j c = .done () d := by
  apply withinDone
  apply tokenDone
  rw [tokenSkip h solid]
  exact textDone h.spelled

theorem tokenNext {w : Bytes} {c d e : Cursor} (h : Token w c d e) (solid : Solid w) :
    (Blanks.all.skip c).rest.head? = w.head? := by
  rw [tokenSkip h solid, h.spelled.1]
  cases w with
  | nil => simp [Solid] at solid
  | cons b w => rfl

def operByte : Oper → UInt8
  | .add => 0x2b
  | .sub => 0x2d
  | .mul => 0x2a
  | .div => 0x2f

theorem operSpelled (o : Oper) : utf8 o.symbol = [operByte o] := by
  cases o <;> decide

def PrimaryStart (b : UInt8) : Prop := b = 0x6d ∨ b = 0x28 ∨ isDigit b = true
instance (b : UInt8) : Decidable (PrimaryStart b) := by unfold PrimaryStart; infer_instance

theorem primaryNext {c d : Cursor} {x : Expr} (h : Derives .primary c d x) :
    ∃ b, (Blanks.all.skip c).rest.head? = some b ∧ PrimaryStart b := by
  cases h with
  | mem word ends => exact ⟨0x6d, tokenNext word (by decide), .inl rfl⟩
  | @int ds c b d digits some all ends small =>
    have next := tokenNext digits (digitSolid some all)
    cases ds with
    | nil => exact absurd rfl some
    | cons a ds => exact ⟨a, next, .inr (.inr (all a (by simp)))⟩
  | paren left body right => exact ⟨0x28, tokenNext left (by decide), .inr (.inl rfl)⟩

theorem derivesNext {ph : Phrase} {c d : Cursor} {x : Expr} (h : Derives ph c d x) :
    match ph with
    | .links _ _ => True
    | _ => ∃ b, (Blanks.all.skip c).rest.head? = some b ∧ ((∃ s, Sign.ofByte? b = some s) ∨ PrimaryStart b) := by
  induction h with
  | @chain t c d e x y first more firstNext moreNext =>
    cases t with
    | sum => exact firstNext
    | product => exact firstNext
  | stop c => trivial
  | link oper sign arg more argNext moreNext => trivial
  | @sign s c b d e x sign arg argNext =>
    have next := tokenNext sign (signSolid s)
    cases s with
    | plus => exact ⟨0x2b, next, .inl ⟨.plus, rfl⟩⟩
    | minus => exact ⟨0x2d, next, .inl ⟨.minus, rfl⟩⟩
  | plain body bodyNext =>
    obtain ⟨b, next, start⟩ := primaryNext body
    exact ⟨b, next, .inr start⟩
  | mem word ends => exact ⟨0x6d, tokenNext word (by decide), .inr (.inl rfl)⟩
  | int digits some all ends small =>
    obtain ⟨b, next, start⟩ := primaryNext (.int digits some all ends small)
    exact ⟨b, next, .inr start⟩
  | paren left body right bodyNext => exact ⟨0x28, tokenNext left (by decide), .inr (.inr (.inl rfl))⟩

def Tier.level : Tier → Nat
  | .sum => 1
  | .product => 2

theorem operLevel {t : Tier} {o : Oper} (h : o ∈ t.ops) : o.precedence = t.level := by
  cases t <;> simp only [Tier.ops, List.mem_cons, List.not_mem_nil, or_false] at h <;> rcases h with rfl | rfl <;> rfl

def Phrase.Ends (c : Cursor) : Phrase → Prop
  | .chain t | .links t _ => ∀ o : Oper, t.level ≤ o.precedence → (Blanks.all.skip c).rest.head? ≠ some (operByte o)
  | _ => True

theorem tokenEnds {w : Bytes} {c d e : Cursor} (h : Token w c d e) (solid : Solid w)
    (other : ∀ o : Oper, w.head? ≠ some (operByte o)) (ph : Phrase) : ph.Ends c := by
  cases ph with
  | chain t => exact fun o _ => by rw [tokenNext h solid]; exact other o
  | links t x => exact fun o _ => by rw [tokenNext h solid]; exact other o
  | unary => trivial
  | primary => trivial

theorem operandEnds {t : Tier} {x y : Expr} {c d : Cursor} (h : Derives (.links t x) c d y)
    (ends : (Phrase.links t x).Ends d) : t.operand.Ends c := by
  cases t with
  | product => trivial
  | sum =>
    intro o tight
    cases h with
    | stop c => exact ends o (Nat.le_trans (by decide) tight)
    | @link t p c s d e f x y z oper sign arg more =>
      have loose := operLevel oper
      rw [tokenNext sign (operSolid p), operSpelled]
      intro same
      simp only [List.head?_cons, Option.some.injEq] at same
      cases o <;> cases p <;> simp [Tier.level, Oper.precedence, operByte] at tight loose same

end Abacus.Parsing
