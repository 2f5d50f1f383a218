import Abacus.Proofs.Agreement
import Abacus.Proofs.Canonical.Regrouping

/-! Canonical text is read back as the tree that it was made from. -/
namespace Abacus
open Parsing

theorem withinOk (label : String) (text : Bytes) : Formatted.within label (.ok text) = .ok text := rfl

theorem parenFormat {x : Expr} {w : Bytes} (text : x.format 0 = .ok w) (span : Span) (prec : Nat) :
    (Expr.paren span x).format prec = .ok (bracketed true w) := by
  simp only [Expr.format, text, withinOk]
  rfl

theorem signedFormat {x : Expr} {w : Bytes} (text : x.format signPrecedence = .ok w) (span : Span) (s : Sign) (prec : Nat) :
    (Expr.signed span (.known s) x).format prec = .ok (utf8 s.symbol ++ w) := by
  simp only [Expr.format, text, withinOk]
  rfl

theorem binaryFormat {l r : Expr} {o : Oper} {v w : Bytes} (left : l.format o.precedence = .ok v)
    (right : r.format (o.precedence + 1) = .ok w) (span : Span) (prec : Nat) :
    (Expr.binary span (.known o) l r).format prec =
      .ok (bracketed (o.precedence < prec) (v ++ utf8 (" " ++ o.symbol ++ " ") ++ w)) := by
  simp only [Expr.format, Formatted.known, Coded.get]
  simp only [mapErrorOk, bind, Except.bind, left, right, withinOk]
  rfl

theorem assignFormat {x : Expr} {w : Bytes} (text : x.format 0 = .ok w) (span : Span) :
    (Stmt.assign span x).format = .ok (w ++ utf8 ";\n") := by
  simp only [Stmt.format, text, withinOk]
  rfl

theorem printFormat {x : Expr} {w : Bytes} (text : x.format 0 = .ok w) (span : Span) :
    (Stmt.print span x).format = .ok (utf8 "print " ++ w ++ utf8 ";\n") := by
  simp only [Stmt.format, text, withinOk]
  rfl

theorem operTier (o : Oper) : ∃ t : Tier, o ∈ t.ops ∧ phraseAt o.precedence = .chain t ∧
    phraseAt (o.precedence + 1) = t.operand := by
  cases o with
  | add => exact ⟨.sum, by decide, rfl, rfl⟩
  | sub => exact ⟨.sum, by decide, rfl, rfl⟩
  | mul => exact ⟨.product, by decide, rfl, rfl⟩
  | div => exact ⟨.product, by decide, rfl, rfl⟩

theorem exprWritten (x : Expr) (prec : Nat) (formed : x.WellFormed) (unsigned : x.Unsigned) :
    ∃ w, x.format prec = .ok w ∧ Writes (phraseAt prec) w (x.grouped prec) := by
  induction x generalizing prec with
  | absent => exact formed.elim
  | foreign kind => exact formed.elim
  | mem span => exact ⟨_, rfl, writesPrimary (writesMem span) prec⟩
  | int span v => exact ⟨_, rfl, writesPrimary (writesInt unsigned span) prec⟩
  | paren span x ih =>
    obtain ⟨w, text, writes⟩ := ih 0 formed unsigned
    exact ⟨_, parenFormat text span prec, writesPrimary (writesParen writes span) prec⟩
  | signed span op x ih =>
    obtain ⟨⟨s, rfl⟩, inner⟩ := formed
    obtain ⟨w, text, writes⟩ := ih signPrecedence inner unsigned
    have signed := writesSign writes s span
    exact ⟨_, signedFormat text span s prec, writesWeaker (n := prec + 3) signed (by omega)⟩
  | binary span op l r left right =>
    obtain ⟨⟨o, rfl⟩, formedLeft, formedRight⟩ := formed
    obtain ⟨v, leftText, leftWrites⟩ := left o.precedence formedLeft unsigned.1
    obtain ⟨w, rightText, rightWrites⟩ := right (o.precedence + 1) formedRight unsigned.2
    obtain ⟨t, known, chain, operand⟩ := operTier o
    rw [chain] at leftWrites
    rw [operand] at rightWrites
    have link := writesLink known leftWrites rightWrites span
    rw [← chain] at link
    refine ⟨_, binaryFormat leftText rightText span prec, ?_⟩
    by_cases weak : o.precedence < prec
    · have group := writesParen (writesExpr link) span
      simp only [Expr.grouped, bracketed, weak, decide_true, if_true]
      exact writesPrimary group prec
    · simp only [Expr.grouped, bracketed, weak, decide_false, if_false]
      exact writesWeaker link (by omega)

namespace Stmt

def grouped : Stmt → Stmt
  | .assign s x => .assign s (x.grouped 0)
  | .print s x => .print s (x.grouped 0)
  | s => s

def Unsigned : Stmt → Prop
  | .assign _ x | .print _ x => x.Unsigned
  | _ => True

end Stmt

theorem stmtWritten (s : Stmt) (formed : s.WellFormed) (unsigned : s.Unsigned) :
    ∃ w, s.format = .ok (w ++ [newline]) ∧
      ∀ c d, Spells w c d → ∃ s', DerivesStmt c d s' ∧ s'.bare = s.grouped.bare := by
  have ending : utf8 ";\n" = utf8 ";" ++ [newline] := by decide
  have semicolon : utf8 ";" = [0x3b] := by decide
  cases s with
  | absent => exact formed.elim
  | foreign kind => exact formed.elim
  | assign span x =>
    obtain ⟨w, text, writes⟩ := exprWritten x 0 formed unsigned
    refine ⟨w ++ utf8 ";", ?_, ?_⟩
    · rw [assignFormat text, ending, List.append_assoc]
    · intro c e spelled
      obtain ⟨d, body, stop⟩ := spellsSplit spelled
      obtain ⟨y, derived, same⟩ := writes c d body (spellsWordEnds (semicolon ▸ stop) (by decide))
      exact ⟨_, .assign derived ⟨.none d, stop⟩, by simp only [Stmt.bare, Stmt.grouped, same]⟩
  | print span x =>
    obtain ⟨w, text, writes⟩ := exprWritten x 0 formed unsigned
    have begin : utf8 "print " = utf8 "print" ++ [0x20] := by decide
    refine ⟨utf8 "print " ++ w ++ utf8 ";", ?_, ?_⟩
    · rw [printFormat text, ending, ← List.append_assoc]
    · intro c f spelled
      rw [begin] at spelled
      obtain ⟨e, before, stop⟩ := spellsSplit spelled
      obtain ⟨d, start, body⟩ := spellsSplit before
      obtain ⟨b, word, space⟩ := spellsSplit start
      obtain ⟨y, derived, same⟩ := writes d e body (spellsWordEnds (semicolon ▸ stop) (by decide))
      have inside : Derives .expr b e y := derivesAfterGap derived b (spaceGap space)
      exact ⟨_, .print ⟨.none c, word⟩ (spellsWordEnds space (by decide)) inside ⟨.none e, stop⟩,
        by simp only [Stmt.bare, Stmt.grouped, same]⟩

theorem stmtAfterGap {c d e : Cursor} {s : Stmt} (gap : Gap c d) (h : DerivesStmt d e s) : DerivesStmt c e s := by
  cases h with
  | print word ends body stop => exact .print (tokenAfterGap gap word) ends body stop
  | assign body stop => exact .assign (derivesAfterGap body c gap) stop

theorem stmtsWritten (l : List Stmt) (i : Nat) (formed : ∀ s ∈ l, s.WellFormed) (unsigned : ∀ s ∈ l, s.Unsigned) :
    ∃ w, formatStmts i l = .ok w ∧ ∀ c d, Gap c d → d.rest = w → ∃ l' e f, DerivesItems c e l' ∧ Gap e f ∧
      f.rest = [] ∧ l'.map Stmt.bare = (l.map Stmt.grouped).map Stmt.bare := by
  induction l generalizing i with
  | nil =>
    refine ⟨[], rfl, ?_⟩
    intro c d gap none
    exact ⟨[], c, d, .none c, gap, none, rfl⟩
  | cons s l ih =>
    obtain ⟨v, text, reads⟩ := stmtWritten s (formed s (by simp)) (unsigned s (by simp))
    obtain ⟨w, others, more⟩ := ih (i + 1) (fun x h => formed x (by simp [h])) (fun x h => unsigned x (by simp [h]))
    refine ⟨v ++ [newline] ++ w, ?_, ?_⟩
    · simp only [formatStmts, text, withinOk, others]
      rfl
    · intro c d gap same
      have first : Spells v d ⟨d.pos + v.length, newline :: w⟩ := ⟨by simp [same], rfl⟩
      obtain ⟨s', derived, sameStmt⟩ := reads d _ first
      have line : Gap ⟨d.pos + v.length, newline :: w⟩ ⟨d.pos + v.length + 1, w⟩ :=
        .space (.inr (.inr (.inr rfl))) ⟨rfl, rfl⟩ (.none _)
      obtain ⟨l', e, f, items, last, none, sameList⟩ := more _ _ line rfl
      refine ⟨s' :: l', e, f, .stmt (stmtAfterGap gap derived) items, last, none, ?_⟩
      simp only [List.map_cons, sameStmt, sameList]

theorem derivesUnsigned {ph : Phrase} {c d : Cursor} {x : Expr} (h : Derives ph c d x)
    (prior : ph.Prior Expr.Unsigned) : x.Unsigned := by
  have literal : ∀ n, n < literalBound → 0 ≤ (Int64.ofNat n).toInt := by
    intro n small
    rw [Int64.toInt_ofNat_of_lt small]
    omega
  exact derivesClosed (fun _ _ _ left right => ⟨left, right⟩) (fun _ _ _ inner => inner) (fun _ => trivial)
    (fun _ n small => literal n small) (fun _ _ inner => inner) h prior

theorem groupedWeaker {x : Expr} {m n : Nat} (h : x.grouped n = x) (weaker : m ≤ n) : x.grouped m = x := by
  cases x with
  | absent | foreign | mem | int | paren | signed => exact h
  | binary span op l r =>
    cases op with
    | beyond => rfl
    | known o =>
      by_cases weak : o.precedence < n
      · simp [Expr.grouped, weak] at h
      · have weak' : ¬ o.precedence < m := by omega
        simpa [Expr.grouped, weak, weak'] using h

def Settled : Phrase → Expr → Prop
  | .chain t, x => x.grouped t.level = x
  | .links t y, x => y.grouped t.level = y → x.grouped t.level = x
  | .unary, x | .primary, x => x.grouped signPrecedence = x

theorem operandSettled {t : Tier} {x : Expr} (h : Settled t.operand x) : x.grouped (t.level + 1) = x := by
  cases t <;> exact h

theorem derivesSettled {ph : Phrase} {c d : Cursor} {x : Expr} (h : Derives ph c d x) : Settled ph x := by
  induction h with
  | chain first more firstIH moreIH => exact moreIH (groupedWeaker (operandSettled firstIH) (by omega))
  | stop c => exact fun prior => prior
  | @link t o c s d e f x y z oper sign arg more argIH moreIH =>
    intro prior
    apply moreIH
    have right := operandSettled argIH
    simp [Expr.join, Expr.grouped, operLevel oper, prior, right]
  | sign sign arg argIH => exact congrArg (Expr.signed _ _) argIH
  | plain body bodyIH => exact bodyIH
  | mem word ends => rfl
  | int digits some all ends small => rfl
  | paren left body right bodyIH => exact congrArg (Expr.paren _) (groupedWeaker bodyIH (by omega))

theorem itemsSettled {c d : Cursor} {l : List Stmt} (h : DerivesItems c d l) :
    ∀ s ∈ l, s.WellFormed ∧ s.Unsigned ∧ s.grouped = s := by
  intro s member
  obtain ⟨span, x, e, f, shape, body⟩ := itemsExprs h s member
  have formed := derivesWellFormed body trivial
  have unsigned := derivesUnsigned body trivial
  have same : x.grouped 0 = x := groupedWeaker (derivesSettled body) (by omega)
  rcases shape with rfl | rfl
  · exact ⟨formed, unsigned, congrArg (Stmt.assign span) same⟩
  · exact ⟨formed, unsigned, congrArg (Stmt.print span) same⟩

theorem formedFormats {p : Program} (formed : p.WellFormed) (unsigned : ∀ s ∈ p.stmts, s.Unsigned) (name : String) :
    ∃ text q, p.format = .ok text ∧ (⟨name, text⟩ : Source).parse = .ok q ∧
      q.stmts.map Stmt.bare = (p.stmts.map Stmt.grouped).map Stmt.bare := by
  obtain ⟨text, written, reads⟩ := stmtsWritten p.stmts 0 formed unsigned
  obtain ⟨l, e, f, again, gap, none, same⟩ := reads ⟨0, text⟩ ⟨0, text⟩ (.none _) rfl
  obtain ⟨q, read, rfl⟩ := derivedParses name ⟨e, f, again, gap, none⟩
  exact ⟨text, q, written, sourceParses.mpr read, same⟩

theorem parsedFormats {s : Source} {p : Program} (h : s.parse = .ok p) (name : String) :
    ∃ text q, p.format = .ok text ∧ (⟨name, text⟩ : Source).parse = .ok q ∧ q.SameTree p := by
  obtain ⟨c, d, items, -⟩ := parsedDerives (sourceParses.mp h)
  have settled := itemsSettled items
  obtain ⟨text, q, written, read, same⟩ := formedFormats (fun s member => (settled s member).1)
    (fun s member => (settled s member).2.1) name
  have kept : p.stmts.map Stmt.grouped = p.stmts := by
    conv => rhs; rw [← List.map_id p.stmts]
    exact List.map_congr_left fun s member => (settled s member).2.2
  refine ⟨text, q, written, read, ?_⟩
  rw [Program.SameTree, same, kept]

theorem formatOk {s : Source} {p : Program} {text : Bytes} (h : s.parse = .ok p) (written : p.format = .ok text) :
    s.format = .ok text := by
  rw [Source.format, h]
  simp only [bind, Except.bind, written]
  rfl

theorem compileOk {s : Source} {p : Program} (h : s.parse = .ok p) : compileSources [s] = p.compile := by
  have read : labelFailure "parse text" (parseSources [s]) = .ok p := h
  simp only [compileSources, List.isEmpty_cons, Bool.false_eq_true, if_false, read]
  rfl

/- Text that is read has a canonical text, which is read as the same tree, is canonical itself and compiles to the same
assembly text. The name of the source has no bearing on this. -/
theorem formatRoundTrip {s : Source} {p : Program} (h : s.parse = .ok p) (name : String) :
    ∃ text q, s.format = .ok text ∧ (⟨name, text⟩ : Source).parse = .ok q ∧ q.SameTree p ∧
      (⟨name, text⟩ : Source).format = .ok text ∧
        ∃ assembly, compileSources [s] = .ok assembly ∧ compileSources [⟨name, text⟩] = .ok assembly := by
  obtain ⟨text, q, written, again, same⟩ := parsedFormats h name
  obtain ⟨assembly, compiled, -⟩ := formedCompiles moduleReread (parsesFormed h)
  have compiled' : q.compile = .ok assembly := by
    rw [Program.compile, Program.lowerSame same]
    exact compiled
  refine ⟨text, q, formatOk h written, again, same, formatOk again ?_, assembly, ?_, ?_⟩
  · rw [Program.formatSame same, written]
  · rw [compileOk h, compiled]
  · rw [compileOk again, compiled']

def scrawled : Source := ⟨"scrawled", utf8 "print (mem+0)*-7 # x\n;{mem/ 010;}"⟩

def scrawledTree : Program :=
  ⟨⟨0, 33⟩, [.print ⟨0, 22⟩ (.binary ⟨6, 16⟩ (.known .mul)
      (.paren ⟨6, 13⟩ (.binary ⟨7, 12⟩ (.known .add) (.mem ⟨7, 10⟩) (.int ⟨11, 12⟩ 0)))
      (.signed ⟨14, 16⟩ (.known .minus) (.int ⟨15, 16⟩ 7))),
    .assign ⟨23, 32⟩ (.binary ⟨23, 31⟩ (.known .div) (.mem ⟨23, 26⟩) (.int ⟨28, 31⟩ 10))]⟩

theorem scrawledRoundTrip :
    scrawled.parse = .ok scrawledTree ∧ ∃ text q, text = utf8 "print (mem + 0) * -7;\nmem / 10;\n" ∧
      scrawled.format = .ok text ∧ (⟨"clean", text⟩ : Source).parse = .ok q ∧ q.SameTree scrawledTree ∧
        (⟨"clean", text⟩ : Source).format = .ok text ∧
          ∃ assembly, compileSources [scrawled] = .ok assembly ∧ compileSources [⟨"clean", text⟩] = .ok assembly := by
  have read : scrawled.parse = .ok scrawledTree := rfl
  have format : scrawled.format = .ok (utf8 "print (mem + 0) * -7;\nmem / 10;\n") := rfl
  obtain ⟨text, q, written, rest⟩ := formatRoundTrip read "clean"
  have same : text = utf8 "print (mem + 0) * -7;\nmem / 10;\n" := by
    rw [format] at written
    exact (Except.ok.inj written).symm
  exact ⟨read, text, q, same, written, rest⟩

end Abacus
