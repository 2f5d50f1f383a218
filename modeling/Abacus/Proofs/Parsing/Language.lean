import Abacus.Proofs.Parsing.Completeness
import Abacus.Source

/-! Reading sources and the grammar agree. A source is closed by a newline before it is read; a derivation neither
needs that newline nor is disturbed by it, because every token ends before it and every comment stops at it. -/
namespace Abacus.Parsing

def isTokenByte (b : UInt8) : Bool := isWordByte b || [0x2b, 0x2d, 0x2a, 0x2f, 0x28, 0x29, 0x3b].contains b

theorem operPlain (o : Oper) : (utf8 o.symbol).all isTokenByte = true := by
  cases o <;> decide

theorem signPlain (s : Sign) : (utf8 s.symbol).all isTokenByte = true := by
  cases s <;> decide

theorem digitsPlain {ds : Bytes} (all : ∀ x ∈ ds, isDigit x = true) : ds.all isTokenByte = true := by
  rw [List.all_eq_true]
  intro b member
  simp [isTokenByte, isWordByte, all b member]

/-- A change of the text that leaves every token and all that is between tokens in its place. -/
structure Respects (f : Cursor → Cursor) : Prop where
  pos : ∀ c, (f c).pos = c.pos
  token : ∀ {w : Bytes} {c d e : Cursor}, w.all isTokenByte = true → Token w c d e → Token w (f c) (f d) (f e)
  ends : ∀ {c : Cursor}, WordEnds c → WordEnds (f c)

section Respects

variable {f : Cursor → Cursor} (respects : Respects f)

include respects

theorem derivesRespects {ph : Phrase} {c d : Cursor} {x : Expr} (h : Derives ph c d x) : Derives ph (f c) (f d) x := by
  induction h with
  | chain first more firstIH moreIH => exact .chain firstIH moreIH
  | stop c => exact .stop _
  | @link t o c s d e f x y z oper sign arg more argIH moreIH =>
    exact .link oper (respects.token (operPlain o) sign) argIH moreIH
  | @sign s c b d e x sign arg argIH =>
    have signed := Derives.sign (respects.token (signPlain s) sign) argIH
    rwa [respects.pos] at signed
  | plain body bodyIH => exact .plain bodyIH
  | mem word ends =>
    have cell := Derives.mem (respects.token (by decide) word) (respects.ends ends)
    rwa [respects.pos, respects.pos] at cell
  | int digits some all ends small =>
    have literal := Derives.int (respects.token (digitsPlain all) digits) some all (respects.ends ends) small
    rwa [respects.pos, respects.pos] at literal
  | paren left body right bodyIH =>
    have group := Derives.paren (respects.token (by decide) left) bodyIH (respects.token (by decide) right)
    rwa [respects.pos, respects.pos] at group

theorem stmtRespects {c d : Cursor} {s : Stmt} (h : DerivesStmt c d s) : DerivesStmt (f c) (f d) s := by
  cases h with
  | print word ends body stop =>
    have printed := DerivesStmt.print (respects.token (by decide) word) (respects.ends ends)
      (derivesRespects respects body) (respects.token (by decide) stop)
    rwa [respects.pos, respects.pos] at printed
  | assign body stop =>
    have assigned := DerivesStmt.assign (derivesRespects respects body) (respects.token (by decide) stop)
    rwa [respects.pos] at assigned

end Respects

def Cursor.extend (c : Cursor) (t : Bytes) : Cursor := ⟨c.pos, c.rest ++ t⟩

theorem spellsExtend {w : Bytes} {c d : Cursor} (h : Spells w c d) (t : Bytes) :
    Spells w (c.extend t) (d.extend t) := by
  refine ⟨?_, h.2⟩
  simp only [Cursor.extend, h.1, List.append_assoc]

section Extend

variable {t : Bytes} (line : t.head? = some newline)

include line

theorem nextExtend {c : Cursor} {b : UInt8} (next : (c.extend t).rest.head? = some b) :
    c.rest.head? = some b ∨ c.rest = [] ∧ b = newline := by
  cases rest : c.rest with
  | nil =>
    simp only [Cursor.extend, rest, List.nil_append, line, Option.some.injEq] at next
    exact .inr ⟨rfl, next.symm⟩
  | cons a rest' => exact .inl (by simpa [Cursor.extend, rest] using next)

theorem wordEndsExtend {c : Cursor} (h : WordEnds c) : WordEnds (c.extend t) := by
  intro b next
  rcases nextExtend line next with inside | ⟨_, rfl⟩
  · exact h b inside
  · decide

theorem gapExtend {c d : Cursor} (h : Gap c d) : Gap (c.extend t) (d.extend t) := by
  induction h with
  | none c => exact .none _
  | space space here more ih => exact .space space (spellsExtend here t) ih
  | @comment body c d e single here ends more ih =>
    refine .comment single (spellsExtend here t) ?_ ih
    intro b next
    rcases nextExtend line next with inside | ⟨_, rfl⟩
    · exact ends b inside
    · rfl

theorem tokenExtend {w : Bytes} {c d e : Cursor} (h : Token w c d e) :
    Token w (c.extend t) (d.extend t) (e.extend t) :=
  ⟨gapExtend line h.gap, spellsExtend h.spelled t⟩

theorem extendRespects : Respects (Cursor.extend · t) where
  pos _ := rfl
  token _ token := tokenExtend line token
  ends := wordEndsExtend line

theorem stmtExtend {c d : Cursor} {s : Stmt} (h : DerivesStmt c d s) : DerivesStmt (c.extend t) (d.extend t) s :=
  stmtRespects (extendRespects line) h

theorem itemsExtend {c d : Cursor} {l : List Stmt} (h : DerivesItems c d l) :
    DerivesItems (c.extend t) (d.extend t) l := by
  induction h with
  | none c => exact .none _
  | stmt first more ih => exact .stmt (stmtExtend line first) ih
  | block left body right more bodyIH moreIH =>
    exact .block (tokenExtend line left) bodyIH (tokenExtend line right) moreIH

end Extend

def Cursor.close (c : Cursor) : Cursor := c.extend [newline]

theorem spellsRetract {w : Bytes} {c d : Cursor} (h : Spells w c.close d) (line : newline ∉ w) :
    ∃ e, d = e.close ∧ Spells w c e := by
  obtain ⟨same, moved⟩ := h
  rcases List.append_eq_append_iff.mp same with ⟨a, spelled, rest⟩ | ⟨a, inside, rest⟩
  · cases a with
    | nil =>
      refine ⟨⟨d.pos, []⟩, ?_, by simpa using spelled.symm, moved⟩
      simp only [Cursor.close, Cursor.extend, List.nil_append]
      rw [show [newline] = d.rest from rest]
    | cons b a =>
      cases List.cons.inj rest with
      | intro first _ => exact absurd (by simp [spelled, first]) line
  · refine ⟨⟨d.pos, a⟩, ?_, inside, moved⟩
    simp only [Cursor.close, Cursor.extend]
    rw [← rest]

theorem spellsOneRetract {b : UInt8} {c d : Cursor} (h : Spells [b] c.close d) :
    (∃ e, d = e.close ∧ Spells [b] c e) ∨ c.rest = [] ∧ d.rest = [] := by
  obtain ⟨pos, rest⟩ := c
  obtain ⟨same, moved⟩ := h
  cases rest with
  | nil =>
    have last : newline = b ∧ d.rest = [] := by simpa [Cursor.close, Cursor.extend] using same
    exact .inr ⟨rfl, last.2⟩
  | cons a rest =>
    left
    simp only [Cursor.close, Cursor.extend, List.cons_append, List.nil_append, List.cons.injEq] at same
    refine ⟨⟨d.pos, rest⟩, ?_, by simp [same.1], moved⟩
    simp only [Cursor.close, Cursor.extend]
    rw [same.2]

theorem gapTrans {c d e : Cursor} (h : Gap c d) (k : Gap d e) : Gap c e := by
  induction h with
  | none c => exact k
  | space space here more ih => exact .space space here (ih k)
  | comment line here ends more ih => exact .comment line here ends (ih k)

theorem gapAtEnd {c d : Cursor} (h : Gap c d) (none : c.rest = []) : d.rest = [] := by
  cases h with
  | none => exact none
  | space space here more => simp [Spells, none] at here
  | comment line here ends more => simp [Spells, none] at here

theorem gapRetract {c d : Cursor} (h : Gap c.close d) :
    (∃ e, d = e.close ∧ Gap c e) ∨ d.rest = [] ∧ ∃ e, e.rest = [] ∧ Gap c e := by
  generalize same : c.close = k at h
  induction h generalizing c with
  | none k => exact .inl ⟨c, same.symm, .none c⟩
  | @space b k d e space here more ih =>
    subst same
    rcases spellsOneRetract here with ⟨d', rfl, inside⟩ | ⟨none, ended⟩
    · rcases ih rfl with ⟨e', rfl, gap⟩ | ⟨ended, e', none, gap⟩
      · exact .inl ⟨e', rfl, .space space inside gap⟩
      · exact .inr ⟨ended, e', none, .space space inside gap⟩
    · exact .inr ⟨gapAtEnd more ended, c, none, .none c⟩
  | @comment body k d e line here ends more ih =>
    subst same
    obtain ⟨d', rfl, inside⟩ := spellsRetract here (commentLine line)
    have stops : ∀ b, d'.rest.head? = some b → b = newline := by
      intro b next
      refine ends b ?_
      obtain ⟨rest, same⟩ := List.head?_eq_some_iff.mp next
      simp [Cursor.close, Cursor.extend, same]
    rcases ih rfl with ⟨e', rfl, gap⟩ | ⟨ended, e', none, gap⟩
    · exact .inl ⟨e', rfl, .comment line inside stops gap⟩
    · exact .inr ⟨ended, e', none, .comment line inside stops gap⟩

theorem tokenRetract {w : Bytes} {c d e : Cursor} (h : Token w c.close d e) (solid : Solid w) (line : newline ∉ w) :
    ∃ d' e', d = d'.close ∧ e = e'.close ∧ Token w c d' e' := by
  rcases gapRetract h.gap with ⟨d', rfl, gap⟩ | ⟨ended, _⟩
  · obtain ⟨e', rfl, spelled⟩ := spellsRetract h.spelled line
    exact ⟨d', e', rfl, rfl, gap, spelled⟩
  · have spelled := h.spelled.1
    rw [ended] at spelled
    cases w with
    | nil => simp [Solid] at solid
    | cons b w => simp at spelled

theorem wordEndsRetract {c : Cursor} (h : WordEnds c.close) : WordEnds c := by
  intro b next
  refine h b ?_
  obtain ⟨rest, same⟩ := List.head?_eq_some_iff.mp next
  simp [Cursor.close, Cursor.extend, same]

theorem digitsLine {ds : Bytes} (all : ∀ x ∈ ds, isDigit x = true) : newline ∉ ds := by
  intro member
  have digit := all newline member
  revert digit
  decide

theorem derivesRetract {ph : Phrase} {c d : Cursor} {x : Expr} (h : Derives ph c.close d x) :
    ∃ e, d = e.close ∧ Derives ph c e x := by
  generalize same : c.close = k at h
  induction h generalizing c with
  | chain first more firstIH moreIH =>
    obtain ⟨d', rfl, first'⟩ := firstIH same
    obtain ⟨e', rfl, more'⟩ := moreIH rfl
    exact ⟨e', rfl, .chain first' more'⟩
  | stop k => exact ⟨c, same.symm, .stop c⟩
  | @link t o k s d e f x y z oper sign arg more argIH moreIH =>
    subst same
    have line : newline ∉ utf8 o.symbol := by cases o <;> decide
    obtain ⟨s', d', rfl, rfl, sign'⟩ := tokenRetract sign (operSolid o) line
    obtain ⟨e', rfl, arg'⟩ := argIH rfl
    obtain ⟨f', rfl, more'⟩ := moreIH rfl
    exact ⟨f', rfl, .link oper sign' arg' more'⟩
  | @sign s k b d e x sign arg argIH =>
    subst same
    have line : newline ∉ utf8 s.symbol := by cases s <;> decide
    obtain ⟨b', d', rfl, rfl, sign'⟩ := tokenRetract sign (signSolid s) line
    obtain ⟨e', rfl, arg'⟩ := argIH rfl
    have signed := Derives.sign sign' arg'
    exact ⟨e', rfl, signed⟩
  | plain body bodyIH =>
    obtain ⟨d', rfl, body'⟩ := bodyIH same
    exact ⟨d', rfl, .plain body'⟩
  | mem word ends =>
    subst same
    obtain ⟨b', d', rfl, rfl, word'⟩ := tokenRetract word (by decide) (by decide)
    have cell := Derives.mem word' (wordEndsRetract ends)
    exact ⟨d', rfl, cell⟩
  | int digits some all ends small =>
    subst same
    obtain ⟨b', d', rfl, rfl, digits'⟩ := tokenRetract digits (digitSolid some all) (digitsLine all)
    have literal := Derives.int digits' some all (wordEndsRetract ends) small
    exact ⟨d', rfl, literal⟩
  | paren left body right bodyIH =>
    subst same
    obtain ⟨b', d', rfl, rfl, left'⟩ := tokenRetract left (by decide) (by decide)
    obtain ⟨e', rfl, body'⟩ := bodyIH rfl
    obtain ⟨s', f', rfl, rfl, right'⟩ := tokenRetract right (by decide) (by decide)
    have group := Derives.paren left' body' right'
    exact ⟨f', rfl, group⟩

theorem stmtRetract {c d : Cursor} {s : Stmt} (h : DerivesStmt c.close d s) : ∃ e, d = e.close ∧ DerivesStmt c e s := by
  cases h with
  | print word ends body stop =>
    obtain ⟨b', d', rfl, rfl, word'⟩ := tokenRetract word (by decide) (by decide)
    obtain ⟨e', rfl, body'⟩ := derivesRetract body
    obtain ⟨s', f', rfl, rfl, stop'⟩ := tokenRetract stop (by decide) (by decide)
    have printed := DerivesStmt.print word' (wordEndsRetract ends) body' stop'
    exact ⟨f', rfl, printed⟩
  | assign body stop =>
    obtain ⟨d', rfl, body'⟩ := derivesRetract body
    obtain ⟨s', e', rfl, rfl, stop'⟩ := tokenRetract stop (by decide) (by decide)
    exact ⟨e', rfl, .assign body' stop'⟩

theorem itemsRetract {c d : Cursor} {l : List Stmt} (h : DerivesItems c.close d l) :
    ∃ e, d = e.close ∧ DerivesItems c e l := by
  generalize same : c.close = k at h
  induction h generalizing c with
  | none k => exact ⟨c, same.symm, .none c⟩
  | stmt first more ih =>
    subst same
    obtain ⟨d', rfl, first'⟩ := stmtRetract first
    obtain ⟨e', rfl, more'⟩ := ih rfl
    exact ⟨e', rfl, .stmt first' more'⟩
  | block left body right more bodyIH moreIH =>
    subst same
    obtain ⟨b', d', rfl, rfl, left'⟩ := tokenRetract left (by decide) (by decide)
    obtain ⟨e', rfl, body'⟩ := bodyIH rfl
    obtain ⟨s', f', rfl, rfl, right'⟩ := tokenRetract right (by decide) (by decide)
    obtain ⟨g', rfl, more'⟩ := moreIH rfl
    exact ⟨g', rfl, .block left' body' right' more'⟩

theorem newlineIgnored (text : Bytes) (l : List Stmt) :
    DerivesProgram (text ++ [newline]) l ↔ DerivesProgram text l := by
  constructor
  · rintro ⟨c, d, items, gap, none⟩
    obtain ⟨c', rfl, items'⟩ := itemsRetract (c := ⟨0, text⟩) items
    rcases gapRetract gap with ⟨d', rfl, _⟩ | ⟨_, e, ended, gap'⟩
    · simp [Cursor.close, Cursor.extend] at none
    · exact ⟨c', e, items', gap', ended⟩
  · rintro ⟨c, d, items, gap, none⟩
    have line : [newline].head? = some newline := rfl
    have closed := gapExtend line gap
    have last : Gap (d.extend [newline]) ⟨d.pos + 1, []⟩ :=
      .space (.inr (.inr (.inr rfl))) ⟨by simp [Cursor.extend, none], rfl⟩ (.none _)
    refine ⟨c.extend [newline], ⟨d.pos + 1, []⟩, itemsExtend line items, ?_, rfl⟩
    exact gapTrans closed last

theorem closedSame (name : String) (text : Bytes) (l : List Stmt) :
    DerivesProgram (Source.closed ⟨name, text⟩) l ↔ DerivesProgram text l := by
  unfold Source.closed
  split
  · rfl
  · exact newlineIgnored text l

def Phrase.Prior (P : Expr → Prop) : Phrase → Prop
  | .links _ x => P x
  | _ => True

theorem derivesClosed {P : Expr → Prop} (join : ∀ o x y, P x → P y → P (x.join o y))
    (signed : ∀ span s x, P x → P (.signed span (.known s) x)) (mem : ∀ span, P (.mem span))
    (int : ∀ span n, n < literalBound → P (.int span (Int64.ofNat n))) (paren : ∀ span x, P x → P (.paren span x))
    {ph : Phrase} {c d : Cursor} {x : Expr} (h : Derives ph c d x) (prior : ph.Prior P) : P x := by
  induction h with
  | @chain t c d e x y first more firstIH moreIH =>
    have operand : P x := firstIH (by cases t <;> trivial)
    exact moreIH operand
  | stop c => exact prior
  | @link t o c s d e f x y z oper sign arg more argIH moreIH =>
    have operand : P y := argIH (by cases t <;> trivial)
    exact moreIH (join o x y prior operand)
  | sign sign arg argIH => exact signed _ _ _ (argIH trivial)
  | plain body bodyIH => exact bodyIH trivial
  | mem word ends => exact mem _
  | int digits some all ends small => exact int _ _ small
  | paren left body right bodyIH => exact paren _ _ (bodyIH trivial)

theorem derivesWellFormed {ph : Phrase} {c d : Cursor} {x : Expr} (h : Derives ph c d x)
    (prior : ph.Prior Expr.WellFormed) : x.WellFormed :=
  derivesClosed (fun o _ _ left right => ⟨⟨o, rfl⟩, left, right⟩) (fun _ s _ inner => ⟨⟨s, rfl⟩, inner⟩) (fun _ => trivial)
    (fun _ _ _ => trivial) (fun _ _ inner => inner) h prior

theorem itemsExprs {c d : Cursor} {l : List Stmt} (h : DerivesItems c d l) :
    ∀ s ∈ l, ∃ span x e f, (s = .assign span x ∨ s = .print span x) ∧ Derives .expr e f x := by
  induction h with
  | none c => simp
  | stmt first more moreIH =>
    intro s member
    rcases List.mem_cons.mp member with rfl | inside
    · cases first with
      | print word ends body stop => exact ⟨_, _, _, _, .inr rfl, body⟩
      | assign body stop => exact ⟨_, _, _, _, .inl rfl, body⟩
    · exact moreIH s inside
  | block left body right more bodyIH moreIH =>
    intro s member
    rcases List.mem_append.mp member with inner | outer
    · exact bodyIH s inner
    · exact moreIH s outer

end Abacus.Parsing

namespace Abacus
open Parsing

theorem parseProgram (srcs : List Source) :
    parse srcs =
      match Rule.program ⟨0, buffer srcs⟩ with
      | .failed r i => .error (.error (.located (locate srcs i (.grammar r))))
      | .broken f => .error (.fault f)
      | .done p c =>
        let left := Blanks.all.skip c
        if left.rest.isEmpty then .ok p
        else .error (.error (.located (locate srcs left.pos (.leftover left.pos)))) := by
  simp only [parse, parseWith, Grammar.parse, RuleName.parse]
  cases Rule.program ⟨0, buffer srcs⟩ <;> rfl

theorem parseExact (srcs : List Source) (p : Program) :
    parse srcs = .ok p ↔ ∃ c d, DerivesItems ⟨0, buffer srcs⟩ c p.stmts ∧ Gap c d ∧ d.rest = [] ∧
      p.span = ⟨(Blanks.all.skip ⟨0, buffer srcs⟩).pos, c.pos⟩ := by
  constructor
  · intro ok
    have read := Rule.programMeets ⟨0, buffer srcs⟩
    rw [parseProgram] at ok
    cases found : Rule.program ⟨0, buffer srcs⟩ with
    | failed r i => simp [found] at ok
    | broken f => simp [found] at ok
    | done q c =>
      rw [found] at read ok
      dsimp only at ok
      split at ok
      · rename_i none
        cases ok
        exact ⟨c, _, read.1, gapSkip c, List.isEmpty_iff.mp none, read.2⟩
      · simp at ok
  · rintro ⟨c, d, items, gap, none, span⟩
    have left : (Blanks.all.skip c).rest.isEmpty = true := by
      rw [skipGap gap, Blanks.skip, none]
      rfl
    rw [parseProgram, Rule.programDone items gap none]
    simp only [left, if_true, ← span]

theorem parseLocated {srcs : List Source} {e : Stop SourceError} (h : parse srcs = .error e) :
    ∃ l, e = .error (.located l) := by
  have read := Rule.programMeets ⟨0, buffer srcs⟩
  rw [parseProgram] at h
  cases found : Rule.program ⟨0, buffer srcs⟩ with
  | failed r i =>
    simp only [found, Except.error.injEq] at h
    exact ⟨_, h.symm⟩
  | broken f =>
    rw [found] at read
    exact read.elim
  | done q c =>
    simp only [found] at h
    split at h
    · contradiction
    · simp only [Except.error.injEq] at h
      exact ⟨_, h.symm⟩

theorem bufferOne (s : Source) : buffer [s] = s.closed := by
  simp [buffer]

theorem parsedDerives {name : String} {text : Bytes} {p : Program} (h : parse [⟨name, text⟩] = .ok p) :
    DerivesProgram text p.stmts := by
  rw [← closedSame name]
  obtain ⟨c, d, items, gap, none, _⟩ := (parseExact _ p).mp h
  rw [bufferOne] at items
  exact ⟨c, d, items, gap, none⟩

theorem derivedParses (name : String) {text : Bytes} {l : List Stmt} (h : DerivesProgram text l) :
    ∃ p, parse [⟨name, text⟩] = .ok p ∧ p.stmts = l := by
  rw [← closedSame name] at h
  obtain ⟨c, d, items, gap, none⟩ := h
  rw [← bufferOne] at items
  exact ⟨⟨⟨_, _⟩, l⟩, (parseExact _ _).mpr ⟨c, d, items, gap, none, rfl⟩, rfl⟩

theorem parseIffDerives (name : String) (text : Bytes) (l : List Stmt) :
    (∃ p, parse [⟨name, text⟩] = .ok p ∧ p.stmts = l) ↔ DerivesProgram text l := by
  constructor
  · rintro ⟨p, ok, rfl⟩
    exact parsedDerives ok
  · exact derivedParses name

theorem parsedWellFormed {srcs : List Source} {p : Program} (h : parse srcs = .ok p) : p.WellFormed := by
  intro s member
  obtain ⟨c, d, items, -⟩ := (parseExact _ p).mp h
  obtain ⟨span, x, e, f, rfl | rfl, body⟩ := itemsExprs items s member
  · exact derivesWellFormed body trivial
  · exact derivesWellFormed body trivial

end Abacus
