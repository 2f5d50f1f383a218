import Abacus.Proofs.Parsing.Lookahead

/-! What has a derivation is read as such. A parser is greedy where the grammar leaves a choice, so a chain is only
read to the place where its derivation ends if no operator follows there; in a statement that is a parenthesis or
a semicolon. -/
namespace Abacus.Parsing.Rule

def argUpTo (n : Nat) : Tier → Parser Expr
  | .sum => term (exprUpTo n)
  | .product => unary (exprUpTo n)

def operOf (t : Tier) : Parser Oper := (Named.token ⟨"AnyOf", Parser.firstOf (t.ops.map Named.oper)⟩).parse

def linksUpTo (n : Nat) (t : Tier) : Nat → Expr → Parser Expr :=
  Parser.links (operOf t) fun x o => do return x.join o (← (argUpTo n t).within "arg")

/- The parser of the phrase reads `x` up to `d`, whatever bound on its loop the bytes left allow. -/
def Accepts (n : Nat) (c d : Cursor) (x : Expr) : Phrase → Prop
  | .chain t => joined t.ops (argUpTo n t) c = .done x d
  | .links t y => ∀ k, c.rest.length ≤ k → linksUpTo n t k y c = .done x d
  | .unary => ∀ k, c.rest.length ≤ k → unaryUpTo (exprUpTo n) k c = .done x d
  | .primary => primary (exprUpTo n) c = .done x d

theorem acceptsArg {n : Nat} {t : Tier} {c d : Cursor} {x : Expr} (h : Accepts n c d x t.operand) :
    argUpTo n t c = .done x d := by
  cases t with
  | sum => exact h
  | product => exact h c.rest.length (Nat.le_refl _)

theorem exprAccepted {n : Nat} {c d : Cursor} {x : Expr} (h : Accepts n c d x .expr) :
    exprUpTo (n + 1) c = .done x d := h

theorem operDone {t : Tier} {o : Oper} {c s d : Cursor} (known : o ∈ t.ops) (h : Token (utf8 o.symbol) c s d) :
    operOf t c = .done o d := by
  apply tokenDone
  rw [tokenSkip h (operSolid o)]
  have here : (Named.oper o).parse s = .done o d := bindDone (textDone h.spelled)
  have other : ∀ p : Oper, operByte p ≠ operByte o → ∃ r i, (Named.oper p).parse s = .failed r i := by
    intro p differs
    refine ⟨_, _, bindFailed (textFailed ?_)⟩
    rw [h.spelled.1, operSpelled, operSpelled]
    simpa using differs
  cases t <;> simp only [Tier.ops, List.mem_cons, List.not_mem_nil, or_false] at known <;>
    rcases known with rfl | rfl
  · exact firstAtDone [] (by simp) here
  · exact firstAtDone [Named.oper .add] (by simpa using other .add (by decide)) here
  · exact firstAtDone [] (by simp) here
  · exact firstAtDone [Named.oper .mul] (by simpa using other .mul (by decide)) here

theorem operFailed {t : Tier} {x : Expr} {c : Cursor} (ends : (Phrase.links t x).Ends c) :
    ∃ r, operOf t c = .failed r c.pos := by
  refine ⟨_, tokenFailed (firstAtFailed ?_)⟩
  intro p member
  obtain ⟨o, known, rfl⟩ := List.mem_map.mp member
  refine ⟨_, bindFailed (textFailed ?_)⟩
  rw [operSpelled]
  rintro ⟨rest, same⟩
  have next := ends o (Nat.le_of_eq (operLevel known).symm)
  rw [← same] at next
  exact next rfl

theorem linksStop {n k : Nat} {t : Tier} {x : Expr} {c : Cursor} (ends : (Phrase.links t x).Ends c) :
    linksUpTo n t k x c = .done x c := by
  cases k with
  | zero => rfl
  | succ k =>
    obtain ⟨r, failed⟩ := operFailed ends
    simp [linksUpTo, Parser.links, failed]

theorem linksLink {n k : Nat} {t : Tier} {o : Oper} {x y : Expr} {c s d e : Cursor} (known : o ∈ t.ops)
    (sign : Token (utf8 o.symbol) c s d) (arg : argUpTo n t d = .done y e) :
    linksUpTo n t (k + 1) x c = linksUpTo n t k (x.join o y) e := by
  have moved := tokenShrinks sign (operSolid o)
  have some : c.rest ≠ [] := by
    intro none
    simp [none] at moved
  have stay : d.pos ≠ c.pos := Nat.ne_of_gt moved.2
  have step : (do return x.join o (← (argUpTo n t).within "arg") : Parser Expr) d = .done (x.join o y) e :=
    bindDone (withinDone arg)
  have more := bindDone (f := linksUpTo n t k) step
  simpa [linksUpTo, Parser.links, some, operDone known sign, stay] using more

theorem unarySign {inner : Parser Expr} {k : Nat} {s : Sign} {c b d e : Cursor} {x : Expr}
    (sign : Token (utf8 s.symbol) c b d) (arg : unaryUpTo inner k d = .done x e) :
    unaryUpTo inner (k + 1) c = .done (.signed ⟨b.pos, x.span.stop⟩ (.known s) x) e := by
  have start := tokenSkip sign (signSolid s)
  have next : b.rest.head?.bind Sign.ofByte? = some s := by
    rw [sign.spelled.1]
    cases s <;> rfl
  have one : (utf8 s.symbol).length = 1 := by cases s <;> decide
  have after : b.advance 1 = d := by rw [spellsAdvance sign.spelled, one]
  simp [unaryUpTo, start, next, after, withinDone arg, Outcome.map]

theorem unaryPlain {inner : Parser Expr} {k : Nat} {c d : Cursor} {x : Expr} (body : Derives .primary c d x) :
    unaryUpTo inner k c = primary inner c := by
  cases k with
  | zero => rfl
  | succ k =>
    obtain ⟨b, next, start⟩ := primaryNext body
    have none : Sign.ofByte? b = none := by
      rcases start with rfl | rfl | digit
      · rfl
      · rfl
      · unfold Sign.ofByte?
        rw [if_neg (by rintro rfl; simp [isDigit] at digit), if_neg (by rintro rfl; simp [isDigit] at digit)]
    simp [unaryUpTo, next, none]

theorem memDone {c b d : Cursor} (word : Token (utf8 "mem") c b d) (ends : WordEnds d) :
    mem.token.parse c = .done (.mem ⟨b.pos, d.pos⟩) d := by
  apply tokenDone
  rw [tokenSkip word (by decide)]
  exact (bindDone rfl).trans ((bindDone (wordDone word.spelled ends)).trans (bindDone rfl))

theorem memFailed {c : Cursor} {b : UInt8} (next : (Blanks.all.skip c).rest.head? = some b) (other : b ≠ 0x6d) :
    ∃ r i, mem.token.parse c = .failed r i := by
  have absent : ¬ utf8 "mem" <+: (Blanks.all.skip c).rest := by
    have spelled : utf8 "mem" = [0x6d, 0x65, 0x6d] := by decide
    rw [spelled]
    rintro ⟨rest, same⟩
    rw [← same] at next
    exact other (Option.some.inj next).symm
  exact ⟨_, _, tokenFailed ((bindDone rfl).trans (bindFailed (wordFailed absent)))⟩

theorem digitRun {ds rest : Bytes} (all : ∀ x ∈ ds, isDigit x = true)
    (ends : ∀ b, rest.head? = some b → isWordByte b = false) : (ds ++ rest).takeWhile isDigit = ds := by
  have stop : rest.takeWhile isDigit = [] := by
    cases rest with
    | nil => rfl
    | cons a rest =>
      have other := ends a rfl
      simp only [isWordByte, Bool.or_eq_false_iff] at other
      simp [other.1.2]
  rw [List.takeWhile_append_of_pos all, stop, List.append_nil]

theorem intDone {ds : Bytes} {c b d : Cursor} (digits : Token ds c b d) (some : ds ≠ [])
    (all : ∀ x ∈ ds, isDigit x = true) (ends : WordEnds d) (small : digitsValue ds < literalBound) :
    int.token.parse c = .done (.int ⟨b.pos, d.pos⟩ (Int64.ofNat (digitsValue ds))) d := by
  apply tokenDone
  rw [tokenSkip digits (digitSolid some all)]
  have run : b.rest.takeWhile isDigit = ds := by
    rw [digits.spelled.1]
    exact digitRun all ends
  have after := (spellsAdvance digits.spelled).symm
  have last : d.rest.head?.filter isWordByte = none := by
    cases next : d.rest.head? with
    | none => rfl
    | some a => simp [ends a next]
  have nonempty : ds.isEmpty = false := List.isEmpty_eq_false_iff.mpr some
  simp only [int, run, after, nonempty, last, small, Bool.false_eq_true, if_false, if_true]

theorem intFailed {c : Cursor} {b : UInt8} (next : (Blanks.all.skip c).rest.head? = some b)
    (other : isDigit b = false) : ∃ r i, int.token.parse c = .failed r i := by
  have none : (Blanks.all.skip c).rest.takeWhile isDigit = [] := by
    obtain ⟨rest, same⟩ := List.head?_eq_some_iff.mp next
    simp [same, other]
  exact ⟨_, _, tokenFailed (r := .integer) (by simp only [int, none, List.isEmpty_nil, if_true])⟩

theorem parenDone {inner : Parser Expr} {c b d e s f : Cursor} {x : Expr} (left : Token (utf8 "(") c b d)
    (body : inner d = .done x e) (right : Token (utf8 ")") e s f) :
    (paren inner).parse c = .done (.paren ⟨b.pos, f.pos⟩ x) f := by
  have start : Parser.ahead c = .done b.pos c := by rw [Parser.ahead, tokenSkip left (by decide)]
  refine (bindDone start).trans ?_
  refine (bindDone (textTokenDone left (by decide) 0)).trans ?_
  refine (bindDone (withinDone body)).trans ?_
  refine (bindDone (textTokenDone right (by decide) 2)).trans ?_
  exact bindDone rfl

theorem primaryNotMem {n : Nat} {c d : Cursor} {b : UInt8} {x : Expr} (next : (Blanks.all.skip c).rest.head? = some b)
    (other : b ≠ 0x6d) (h : int.token.parse c = .done x d ∨
      isDigit b = false ∧ (paren (exprUpTo n)).parse c = .done x d) : primary (exprUpTo n) c = .done x d := by
  have first := memFailed next other
  rcases h with here | ⟨digit, here⟩
  · exact firstAtDone [mem.token] (by simpa using first) here
  · exact firstAtDone [mem.token, int.token] (by simpa using ⟨first, intFailed next digit⟩) here

/- The induction is on the derivation. Every parenthesis takes a byte, so that `n` goes down with the text. -/
theorem derivesAccepted {ph : Phrase} {c d : Cursor} {x : Expr} (h : Derives ph c d x) :
    ∀ n, c.rest.length ≤ n + 1 → ph.Ends d → Accepts n c d x ph := by
  induction h with
  | @chain t c d e x y first more firstIH moreIH =>
    intro n room ends
    have less := derivesShrinks first
    have arg := acceptsArg (firstIH n room (operandEnds more ends))
    have size : d.rest.length ≤ n + 1 := by
      cases t <;> exact Nat.le_trans (Nat.le_of_lt less) room
    exact (bindDone (withinDone arg)).trans (moreIH n size ends d.rest.length (Nat.le_refl _))
  | stop c =>
    intro n room ends k enough
    exact linksStop ends
  | @link t o c s d e f x y z oper sign arg more argIH moreIH =>
    intro n room ends k enough
    have signLess := (tokenShrinks sign (operSolid o)).1
    have argLess : e.rest.length < d.rest.length := by
      have less := derivesShrinks arg
      cases t <;> exact less
    cases k with
    | zero => omega
    | succ k =>
      have read := acceptsArg (argIH n (by omega) (operandEnds more ends))
      rw [linksLink oper sign read]
      exact moreIH n (by omega) ends k (by omega)
  | @sign s c b d e x sign arg argIH =>
    intro n room ends k enough
    have signLess := (tokenShrinks sign (signSolid s)).1
    cases k with
    | zero => omega
    | succ k => exact unarySign sign (argIH n (by omega) trivial k (by omega))
  | plain body bodyIH =>
    intro n room ends k enough
    rw [unaryPlain body]
    exact bodyIH n room trivial
  | mem word ends =>
    intro n room _
    exact firstAtDone [] (by simp) (memDone word ends)
  | @int ds c b d digits some all ends small =>
    intro n room _
    have next := tokenNext digits (digitSolid some all)
    cases ds with
    | nil => exact absurd rfl some
    | cons a ds =>
      have digit := all a (by simp)
      refine primaryNotMem next ?_ (.inl (intDone digits some all ends small))
      rintro rfl
      simp [isDigit] at digit
  | @paren c b d e s f x left body right bodyIH =>
    intro n room _
    have next := tokenNext left (by decide)
    have leftLess := (tokenShrinks left (by decide)).1
    have bodyLess : e.rest.length < d.rest.length := derivesShrinks body
    cases n with
    | zero => omega
    | succ n =>
      have closing := tokenEnds right (by decide) (by intro o; cases o <;> decide) .expr
      have inside := exprAccepted (bodyIH n (by omega) closing)
      exact primaryNotMem next (by decide) (.inr ⟨by decide, parenDone left inside right⟩)

theorem exprDone {c d : Cursor} {x : Expr} (h : Derives .expr c d x) (ends : Phrase.expr.Ends d) :
    expr c = .done x d := by
  have less : d.rest.length < c.rest.length := derivesShrinks h
  unfold expr
  cases size : c.rest.length with
  | zero => omega
  | succ n => exact exprAccepted (derivesAccepted h n (by omega) ends)

theorem semicolonEnds {c s d : Cursor} (h : Token (utf8 ";") c s d) : Phrase.expr.Ends c :=
  tokenEnds h (by decide) (by intro o; cases o <;> decide) .expr

theorem printDone {c b d e s f : Cursor} {x : Expr} (word : Token (utf8 "print") c b d) (ends : WordEnds d)
    (body : Derives .expr d e x) (stop : Token (utf8 ";") e s f) :
    printStmt.parse c = .done (.print ⟨b.pos, f.pos⟩ x) f := by
  have begins := tokenSkip word (by decide)
  have start : Parser.ahead c = .done b.pos c := by rw [Parser.ahead, begins]
  have first : (Named.word "print").token.part 0 c = .done () d := by
    apply withinDone
    apply tokenDone
    rw [begins]
    exact wordDone word.spelled ends
  refine (bindDone start).trans ?_
  refine (bindDone first).trans ?_
  refine (bindDone (withinDone (exprDone body (semicolonEnds stop)))).trans ?_
  refine (bindDone (textTokenDone stop (by decide) 2)).trans ?_
  exact bindDone rfl

theorem printFailed {c d : Cursor} {x : Expr} (body : Derives .expr c d x) :
    ∃ r i, printStmt.parse c = .failed r i := by
  obtain ⟨b, next, start⟩ := derivesNext body
  have absent : ¬ utf8 "print" <+: (Blanks.all.skip c).rest := by
    have spelled : utf8 "print" = [0x70, 0x72, 0x69, 0x6e, 0x74] := by decide
    rw [spelled]
    rintro ⟨rest, same⟩
    rw [← same] at next
    cases Option.some.inj next
    rcases start with ⟨s, sign⟩ | other
    · simp [Sign.ofByte?] at sign
    · revert other
      decide
  have word : ∃ r i, (Named.word "print").token.part 0 c = .failed r i := by
    have failed := tokenFailed (p := Named.word "print") (wordFailed absent)
    exact ⟨_, _, by simp only [Named.part, Parser.within]; rw [failed]⟩
  obtain ⟨r, i, failed⟩ := word
  exact ⟨r, i, (bindDone rfl).trans (bindFailed failed)⟩

theorem assignDone {c d s e : Cursor} {x : Expr} (body : Derives .expr c d x) (stop : Token (utf8 ";") d s e) :
    assignStmt.parse c = .done (.assign ⟨x.span.pos, e.pos⟩ x) e := by
  rw [derivesStart body]
  refine (bindDone (p := Parser.ahead) rfl).trans ?_
  refine (bindDone (withinDone (exprDone body (semicolonEnds stop)))).trans ?_
  refine (bindDone (textTokenDone stop (by decide) 1)).trans ?_
  exact bindDone rfl

theorem stmtDone {c d : Cursor} {s : Stmt} (h : DerivesStmt c d s) : stmt c = .done s d := by
  cases h with
  | print word ends body stop => exact firstAtDone [] (by simp) (printDone word ends body stop)
  | assign body stop => exact firstAtDone [printStmt] (by simpa using printFailed body) (assignDone body stop)

theorem stmtNext {c d : Cursor} {s : Stmt} (h : DerivesStmt c d s) :
    ∃ b, (Blanks.all.skip c).rest.head? = some b ∧ b ≠ openBrace ∧ b ≠ closeBrace := by
  cases h with
  | print word ends body stop => exact ⟨0x70, tokenNext word (by decide), by decide, by decide⟩
  | assign body stop =>
    obtain ⟨b, next, start⟩ := derivesNext body
    refine ⟨b, next, ?_, ?_⟩
    all_goals
      rintro rfl
      rcases start with ⟨s, sign⟩ | other
      · simp [Sign.ofByte?, openBrace, closeBrace] at sign
      · revert other
        decide

theorem stmtShrinks {c d : Cursor} {s : Stmt} (h : DerivesStmt c d s) : d.rest.length < c.rest.length := by
  cases h with
  | @print b d e s f x word ends body stop =>
    have wordLess := (tokenShrinks word (by decide)).1
    have bodyLess : e.rest.length < d.rest.length := derivesShrinks body
    have stopLess := (tokenShrinks stop (by decide)).1
    omega
  | @assign d s e x body stop =>
    have bodyLess : d.rest.length < c.rest.length := derivesShrinks body
    have stopLess := (tokenShrinks stop (by decide)).1
    omega

theorem itemsStmt {n : Nat} {outer : List (List Stmt)} {inner : List Stmt} {c d : Cursor} {s : Stmt}
    (h : DerivesStmt c d s) : items (n + 1) outer inner c = items n outer (inner ++ [s]) d := by
  obtain ⟨b, next, notOpen, notClose⟩ := stmtNext h
  rw [items]
  simp only [next, notOpen, notClose, if_false, stmtDone h]

theorem itemsOpen {n : Nat} {outer : List (List Stmt)} {inner : List Stmt} {c b d : Cursor}
    (h : Token [openBrace] c b d) : items (n + 1) outer inner c = items n (inner :: outer) [] d := by
  have next := tokenNext h (by decide)
  have after : (Blanks.all.skip c).advance 1 = d := by
    rw [tokenSkip h (by decide), spellsAdvance h.spelled, List.length_singleton]
  rw [items]
  simp only [next, after, List.head?_cons, if_true]

theorem itemsClose {n : Nat} {outer : List (List Stmt)} {inner before : List Stmt} {c b d : Cursor}
    (h : Token [closeBrace] c b d) :
    items (n + 1) (before :: outer) inner c = items n outer (before ++ inner) d := by
  have next := tokenNext h (by decide)
  have after : (Blanks.all.skip c).advance 1 = d := by
    rw [tokenSkip h (by decide), spellsAdvance h.spelled, List.length_singleton]
  have other : closeBrace ≠ openBrace := by decide
  rw [items]
  simp only [next, after, List.head?_cons, other, if_false, if_true]

/- The loop goes from the start of the items to their end; the turns that remain there are enough for what follows. -/
theorem itemsAccepted {c d : Cursor} {l : List Stmt} (h : DerivesItems c d l) :
    ∀ (outer : List (List Stmt)) (inner : List Stmt) (n : Nat), c.rest.length ≤ n →
      ∃ m, d.rest.length ≤ m ∧ items n outer inner c = items m outer (inner ++ l) d := by
  induction h with
  | none c =>
    intro outer inner n room
    exact ⟨n, room, by simp⟩
  | @stmt c d e s l first more ih =>
    intro outer inner n room
    have less := stmtShrinks first
    cases n with
    | zero => omega
    | succ n =>
      obtain ⟨m, enough, rest⟩ := ih outer (inner ++ [s]) n (by omega)
      exact ⟨m, enough, by rw [itemsStmt first, rest, List.append_assoc, List.singleton_append]⟩
  | @block c b d e s f g body l left inside right more insideIH moreIH =>
    intro outer inner n room
    have leftLess := (tokenShrinks left (by decide)).1
    have rightLess := (tokenShrinks right (by decide)).1
    cases n with
    | zero => omega
    | succ n =>
      obtain ⟨m, enough, entered⟩ := insideIH (inner :: outer) [] n (by omega)
      cases m with
      | zero => omega
      | succ m =>
        obtain ⟨k, room', rest⟩ := moreIH outer (inner ++ body) m (by omega)
        refine ⟨k, room', ?_⟩
        rw [itemsOpen left, entered, List.nil_append, itemsClose right, rest, List.append_assoc]

theorem itemsAtEnd {n : Nat} {l : List Stmt} {c d : Cursor} (gap : Gap c d) (none : d.rest = []) :
    items n [] l c = .done l c := by
  have ended : (Blanks.all.skip c).rest.head? = Option.none := by
    rw [skipGap gap, Blanks.skip, none]
    rfl
  cases n with
  | zero => rfl
  | succ n =>
    rw [items]
    simp only [ended]
    rfl

theorem programDone {text : Bytes} {l : List Stmt} {c d : Cursor} (items : DerivesItems ⟨0, text⟩ c l)
    (gap : Gap c d) (none : d.rest = []) :
    program ⟨0, text⟩ = .done ⟨⟨(Blanks.all.skip ⟨0, text⟩).pos, c.pos⟩, l⟩ c := by
  obtain ⟨m, _, read⟩ := itemsAccepted items [] [] text.length (Nat.le_refl _)
  rw [itemsAtEnd gap none] at read
  simp only [program, read, List.nil_append]

end Abacus.Parsing.Rule
