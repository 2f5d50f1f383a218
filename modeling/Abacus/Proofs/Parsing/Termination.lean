import Abacus.Proofs.Parsing.Running
import Abacus.Proofs.Parsing.Sequence

/-! Reading comes to an end. Each sign, parenthesis, brace, operator and statement takes a byte, so each step down and each
turn has less text before it than the one before; the rules of the language settle with what the parsers answer, and so
does every grammar that is put together from them. -/
namespace Abacus.Parsing

namespace Rule

variable {n : Nat} {inner : Parser Expr}

theorem runsOperators (n : Nat) (ops : List Oper) :
    Runs n (.operators ops) ((Named.token ⟨"AnyOf", Parser.firstOf (ops.map Named.oper)⟩).parse.yields .oper) := by
  have each : AllRun n .oper (ops.map fun o => .oper (.known o)) (ops.map Named.oper) := by
    induction ops with
    | nil => exact .nil
    | cons o ops ih => exact .cons ⟨rfl, runsOper n o⟩ ih
  exact runsSpaced rfl (runsAnyOf each) .all

theorem linkYields (arg : Parser Expr) (x : Expr) (o : Oper) :
    Grammar.link (arg.yields .expr) x (.oper o) = do return x.join o (← arg.within "arg") := by
  funext c
  simp only [Grammar.link, Parser.bindApply, Parser.within, Parser.yields]
  cases arg c with
  | done y d => rfl
  | failed r i => rfl
  | broken e => rfl

theorem linksYield (op : Parser Oper) (arg : Parser Expr) (m : Nat) (x : Expr) (c : Cursor) :
    Parser.links (op.yields .oper) (Grammar.link (arg.yields .expr)) m x c =
      Parser.links op (fun x o => do return x.join o (← arg.within "arg")) m x c := by
  induction m generalizing x c with
  | zero => rfl
  | succ m ih =>
    have later : Parser.links (op.yields .oper) (Grammar.link (arg.yields .expr)) m =
        Parser.links op (fun x o => do return x.join o (← arg.within "arg")) m := funext fun x => funext (ih x)
    simp only [Parser.links, later]
    rw [Parser.yields]
    cases op c with
    | done o d => simp only [Outcome.map, linkYields]
    | failed r i => rfl
    | broken e => rfl

theorem runsJoined {arg : Grammar} {q : Parser Expr} (h : Runs n arg (q.yields .expr)) (inside : Confined q)
    (ops : List Oper) : Runs n (.leftToRight (.operators ops) arg) ((joined ops q).yields .expr) := by
  intro c room
  have opInside := confinedToken (q := ⟨"AnyOf", _⟩) (operConfined ops)
  have runs := runsChain (runsOperators n ops) h (fun c => inTextMap (opInside c)) (fun c => inTextMap (inside c)) c room
  refine Eq.subst ?_ runs
  simp only [Parser.yields, joined, chainApply, Parser.within, Parser.bindApply]
  cases q c with
  | done x d => exact congrArg (Outcome.map Item.expr) (linksYield _ q d.rest.length x d)
  | failed r i => rfl
  | broken e => rfl

theorem textTakes {t : String} (some : utf8 t ≠ []) {c d : Cursor} {u : Unit}
    (h : (Named.text t).token.parse c = .done u d) : d.rest.length < c.rest.length := by
  have blanks := skipShorter .all c
  have long := List.length_pos_iff.mpr some
  simp only [Named.token, Named.spaced, Named.text, Parser.text] at h
  by_cases found : (utf8 t).isPrefixOf (Blanks.all.skip c).rest
  · rw [if_pos found] at h
    cases h
    have size := (List.isPrefixOf_iff_prefix.mp found).length_le
    simp only [Cursor.advance, List.length_drop]
    omega
  · rw [if_neg found] at h
    cases h

theorem runsTextToken (n : Nat) {t : String} (name : Text.quotedBytes (utf8 t) = Text.quoted t) :
    Runs n (.spaced .all (.text (utf8 t))) ((Named.text t).token.parse.yields fun _ => .text (utf8 t)) := by
  have same : (Grammar.text (utf8 t)).name = (Named.text t).name := name
  exact runsSpaced same (runsText n _) .all

theorem between {α : Type} (left right : Named Unit) (inner : Parser Expr) (make : Span → Expr → α) (f : α → Item)
    (l r : Item) (c : Cursor) :
    ((Parser.sequence 0 [left.yields fun _ => l, Named.yields .expr ⟨"Expr", inner⟩, right.yields fun _ => r]).yields
        .list c).assembled (fun s x => f (make s x)) 1 c =
      Parser.yields f (do
        let start ← Parser.ahead
        left.part 0
        let x ← Named.part ⟨"Expr", inner⟩ 1
        right.part 2
        return make ⟨start, ← Parser.here⟩ x) c := by
  simp only [Parser.sequence, Named.yields, Parser.yields, Named.part, Parser.within, Parser.bindApply, Parser.ahead]
  cases left.parse c with
  | done u d =>
    dsimp only [Outcome.map]
    cases inner d with
    | done x e =>
      dsimp only [Outcome.map]
      cases right.parse e with
      | done v k => rfl
      | failed r i => rfl
      | broken e => rfl
    | failed r i => rfl
    | broken e => rfl
  | failed r i => rfl
  | broken e => rfl

section Expressions

variable (h : RunsRule n .expr (inner.yields .expr)) (inside : Confined inner)

include h inside

theorem runsEnding {t : String} (name : Text.quotedBytes (utf8 t) = Text.quoted t) :
    PartsRun n [.rule .expr, .spaced .all (.text (utf8 t))]
      [Named.yields .expr ⟨"Expr", inner⟩, (Named.text t).token.yields fun _ => .text (utf8 t)] := by
  refine partsCons rfl (runsOfRule h) (confinedYields inside _) ?_
  exact partsCons name (runsTextToken n name) (confinedYields (confinedToken (confinedText _)) _) (.nil n)

theorem runsParen : RunsRule (n + 1) .paren ((paren inner).parse.yields .expr) := by
  intro c room
  have parts : PartsRun (n + 1) [.spaced .all (.text "("), .rule .expr, .spaced .all (.text ")")]
      [(Named.text "(").token.yields fun _ => .text "(", Named.yields .expr ⟨"Expr", inner⟩,
        (Named.text ")").token.yields fun _ => .text ")"] := by
    refine .cons (by decide) (runsTextToken _ (by decide)) ?_ (runsEnding h inside (by decide))
    intro c x d room found
    obtain ⟨u, opened⟩ := yieldsDone found
    exact Nat.lt_of_lt_of_le (textTakes (by decide) opened) (Nat.le_of_lt_succ room)
  apply settlesDeeper
  simp only [runRule]
  refine settlesBind (runsAllOf parts c room) ?_
  rw [between (Named.text "(").token (Named.text ")").token inner Expr.paren Item.expr (.text "(") (.text ")") c]
  exact settlesNow _

theorem runsPrimary : RunsRule (n + 1) .primary ((primary inner).yields .expr) := by
  have memRuns : RunsRule (n + 1) .mem (mem.parse.yields .expr) := fun c _ => settlesDeeper (settlesNow _)
  have intRuns : RunsRule (n + 1) .int (int.parse.yields .expr) := fun c _ => settlesDeeper (settlesNow _)
  intro c room
  apply settlesDeeper
  simp only [runRule]
  refine runsAnyOf (.cons ⟨rfl, ?_⟩ (.cons ⟨rfl, ?_⟩ (.cons ⟨rfl, ?_⟩ .nil))) c room
  · exact runsSpaced rfl (runsOfRule memRuns) .all
  · exact runsSpaced rfl (runsOfRule intRuns) .all
  · exact runsOfRule (runsParen h inside)

theorem runsUnaryUpTo (m : Nat) {c : Cursor} (enough : c.rest.length ≤ m) (room : c.rest.length < n + 1) :
    Settles (fun k => runRule k .unary c) ((unaryUpTo inner m).yields .expr c) := by
  induction m generalizing c with
  | zero =>
    have blanks := skipShorter .all c
    have none : (Blanks.all.skip c).rest = [] := List.eq_nil_of_length_eq_zero (by omega)
    apply settlesDeeper
    simp only [runRule, none, List.head?_nil, Option.bind_none]
    exact runsPrimary h inside c room
  | succ m ih =>
    apply settlesDeeper
    simp only [runRule, Parser.yields, unaryUpTo]
    cases sign : (Blanks.all.skip c).rest.head?.bind Sign.ofByte? with
    | none => exact runsPrimary h inside c room
    | some s =>
      obtain ⟨b, next, -⟩ := Option.bind_eq_some_iff.mp sign
      have less : ((Blanks.all.skip c).advance 1).rest.length < c.rest.length := byteShorter next
      refine settlesBind (ih (by omega) (by omega)) ?_
      simp only [Parser.within, Parser.yields]
      cases unaryUpTo inner m ((Blanks.all.skip c).advance 1) with
      | done x d => exact settlesNow _
      | failed r i => exact settlesNow _
      | broken e => exact settlesNow _

theorem runsUnary : RunsRule (n + 1) .unary ((unary inner).yields .expr) :=
  fun c room => runsUnaryUpTo h inside c.rest.length (Nat.le_refl _) room

theorem runsTerm : RunsRule (n + 1) .term ((term inner).yields .expr) := by
  intro c room
  apply settlesDeeper
  simp only [runRule]
  exact runsJoined (runsOfRule (runsUnary h inside)) (unaryConfined inside) _ c room

theorem runsExprOver : RunsRule (n + 1) .expr ((exprOver inner).yields .expr) := by
  intro c room
  apply settlesDeeper
  simp only [runRule]
  exact runsJoined (runsOfRule (runsTerm h inside)) (termConfined inside) _ c room

end Expressions

theorem runsExprUpTo (n : Nat) : RunsRule (n + 1) .expr ((exprUpTo n).yields .expr) := by
  induction n with
  | zero => exact runsExprOver (fun c none => absurd none (Nat.not_lt_zero _)) (confinedFail _)
  | succ n ih => exact runsExprOver ih (exprUpToConfined n)

theorem runsExpr (n : Nat) : RunsRule n .expr (expr.yields .expr) :=
  fun c _ => runsExprUpTo c.rest.length c (Nat.lt_succ_self _)

theorem runsPrint (n : Nat) : RunsRule n .printStmt (printStmt.parse.yields .stmt) := by
  intro c room
  have parts : PartsRun n [.spaced .all (.word "print"), .rule .expr, .spaced .all (.text ";")]
      [(Named.word "print").token.yields fun _ => .word "print", Named.yields .expr ⟨"Expr", expr⟩,
        (Named.text ";").token.yields fun _ => .text ";"] := by
    have same : (Grammar.word (utf8 "print")).name = (Named.word "print").name := by decide
    refine partsCons same (runsSpaced same (runsWord n _) .all) (confinedYields (confinedToken (confinedWord _)) _) ?_
    exact runsEnding (runsExpr n) exprConfined (by decide)
  apply settlesDeeper
  simp only [runRule]
  refine settlesBind (runsAllOf parts c room) ?_
  rw [between (Named.word "print").token (Named.text ";").token expr Stmt.print Item.stmt (.word "print") (.text ";") c]
  exact settlesNow _

theorem runsAssign (n : Nat) : RunsRule n .assignStmt (assignStmt.parse.yields .stmt) := by
  intro c room
  have parts := runsEnding (t := ";") (runsExpr n) exprConfined (by decide)
  apply settlesDeeper
  simp only [runRule]
  refine settlesBind (runsAllOf parts c room) ?_
  simp only [Parser.sequence, Named.yields, Parser.yields, assignStmt, Named.part, Parser.within, Parser.bindApply,
    Parser.ahead]
  cases expr c with
  | done x d =>
    dsimp only [Outcome.map]
    cases (Named.text ";").token.parse d with
    | done u e => exact settlesNow _
    | failed r i => exact settlesNow _
    | broken e => exact settlesNow _
  | failed r i => exact settlesNow _
  | broken e => exact settlesNow _

theorem runsStmt (n : Nat) : RunsRule n .stmt (stmt.yields .stmt) := by
  intro c room
  apply settlesDeeper
  simp only [runRule]
  have print : Runs n (.rule .printStmt) (printStmt.parse.yields .stmt) := runsOfRule (runsPrint n)
  have assign : Runs n (.rule .assignStmt) (assignStmt.parse.yields .stmt) := runsOfRule (runsAssign n)
  exact runsAnyOf (.cons ⟨rfl, print⟩ (.cons ⟨rfl, assign⟩ .nil)) c room

theorem stmtTakes {c d : Cursor} {s : Stmt} (h : stmt c = .done s d) : d.rest.length < c.rest.length := by
  have inside := stmtConfined c
  have onward := (skipOnward c).1
  have tracked := stmtTracks (alignedShift 0 c)
  rw [h] at inside tracked
  refine shorterPast inside ?_
  generalize stmt (c.shift 0) = o at tracked
  cases tracked with
  | past moves =>
    cases moves with
    | done same past within => omega

theorem inBlocksWithin (n : Nat) (r : Reason) : inBlocks n (.within "block" r) = .within "block" (inBlocks n r) := by
  induction n with
  | zero => rfl
  | succ n ih => rw [inBlocks, ih, inBlocks]

/- The outcome `out` with blocks open is that of the innermost block, `o`, and whatever follows this block. -/
def Resumes (out : Outcome (List Stmt)) (outer : List (List Stmt)) (o : Outcome (List Stmt)) : Prop :=
  match outer, o with
  | [], o => out = o
  | before :: outer, .done l d => ∃ m, d.rest.length ≤ m ∧ out = items m outer (before ++ l) d
  | _ :: outer, .failed r i => out = .failed (inBlocks outer.length (.within "block" r)) i
  | _ :: _, .broken e => out = .broken e

theorem resumesFailed (outer : List (List Stmt)) (r : Reason) (i : Nat) :
    Resumes (.failed (inBlocks outer.length r) i) outer (.failed r i) := by
  cases outer with
  | nil => rfl
  | cons before outer =>
    simp only [Resumes, inBlocksWithin]
    rfl

theorem resumesBroken (outer : List (List Stmt)) (e : Fault) : Resumes (.broken e) outer (.broken e) := by
  cases outer with
  | nil => rfl
  | cons before outer => rfl

/- The loop over statements ends in the text, and the loop that keeps the open blocks on a stack agrees with it. -/
def StmtsEnd (block : Bool) (l : List Stmt) (c : Cursor) : Prop :=
  ∃ o, Settles (fun m => runStmts m block l c) o ∧ o.InText c ∧
    ∀ m outer, c.rest.length ≤ m → block = !outer.isEmpty → Resumes (items m outer l c) outer o

section Turns

variable {block : Bool} {l : List Stmt} {c : Cursor} {b : UInt8}

theorem stmtsEndHere (next : (Blanks.all.skip c).rest.head? = none) : StmtsEnd block l c := by
  obtain ⟨w, blanks⟩ := skipSpells .all c
  refine ⟨if block then .failed .unclosed (Blanks.all.skip c).pos else .done l c, ?_, ?_, fun m outer _ same => ?_⟩
  · apply settlesDeeper
    simp only [runStmts, next]
    exact settlesNow _
  · cases block with
    | true => exact inTextLater blanks (inTextHere .unclosed (Blanks.all.skip c))
    | false => exact confinedPure l c
  · rw [itemsEnded next]
    subst same
    cases outer with
    | nil => rfl
    | cons before outer => exact resumesFailed (before :: outer) .unclosed _

theorem itemsTurn (next : (Blanks.all.skip c).rest.head? = some b) {m : Nat} (enough : c.rest.length ≤ m) :
    ∃ k, m = k + 1 ∧ ((Blanks.all.skip c).advance 1).rest.length ≤ k := by
  have less := byteShorter next
  exact ⟨m - 1, by omega, by omega⟩

theorem stmtsEndClose (next : (Blanks.all.skip c).rest.head? = some closeBrace) : StmtsEnd block l c := by
  obtain ⟨w, blanks⟩ := skipSpells .all c
  refine ⟨if block then .done l ((Blanks.all.skip c).advance 1) else .done l c, ?_, ?_, fun m outer enough same => ?_⟩
  · apply settlesDeeper
    simp only [runStmts, next, if_true]
    exact settlesNow _
  · cases block with
    | true => exact inTextLater blanks (inTextLater (byteSpells next) (confinedPure l _))
    | false => exact confinedPure l c
  · obtain ⟨m, rfl, left⟩ := itemsTurn next enough
    have other : closeBrace ≠ openBrace := by decide
    simp only [items, next, other, if_false, if_true]
    subst same
    cases outer with
    | nil => rfl
    | cons before outer => exact ⟨m, left, rfl⟩

theorem stmtsEndOpen (next : (Blanks.all.skip c).rest.head? = some openBrace)
    (body : StmtsEnd true [] ((Blanks.all.skip c).advance 1))
    (rest : ∀ sub d, d.rest.length < c.rest.length → StmtsEnd block (l ++ sub) d) : StmtsEnd block l c := by
  obtain ⟨w, blanks⟩ := skipSpells .all c
  have less := byteShorter next
  have other : openBrace ≠ closeBrace := by decide
  obtain ⟨o, settles, inside, resumes⟩ := body
  have here := inTextLater blanks (inTextLater (byteSpells next) inside)
  cases o with
  | done sub d =>
    have left := shorter inside
    obtain ⟨out, settled, kept, resumed⟩ := rest sub d (by omega)
    refine ⟨out, ?_, ?_, fun m outer enough same => ?_⟩
    · apply settlesDeeper
      simp only [runStmts, next, other, if_false, if_true]
      exact settlesBind settles settled
    · obtain ⟨v, spelled⟩ := here
      exact inTextLater spelled kept
    · obtain ⟨m, rfl, room⟩ := itemsTurn next enough
      obtain ⟨k, further, after⟩ := resumes m (l :: outer) room rfl
      simp only [items, next, if_true, after]
      exact resumed k outer further same
  | failed r i =>
    refine ⟨.failed (.within "block" r) i, ?_, here, fun m outer enough same => ?_⟩
    · apply settlesDeeper
      simp only [runStmts, next, other, if_false, if_true]
      exact settlesBind settles (settlesNow _)
    · obtain ⟨m, rfl, room⟩ := itemsTurn next enough
      have after : items m (l :: outer) [] _ = _ := resumes m (l :: outer) room rfl
      simp only [items, next, if_true, after]
      exact resumesFailed outer _ i
  | broken e =>
    refine ⟨.broken e, ?_, here, fun m outer enough same => ?_⟩
    · apply settlesDeeper
      simp only [runStmts, next, other, if_false, if_true]
      exact settlesBind settles (settlesNow _)
    · obtain ⟨m, rfl, room⟩ := itemsTurn next enough
      have after : items m (l :: outer) [] _ = _ := resumes m (l :: outer) room rfl
      simp only [items, next, if_true, after]
      exact resumesBroken outer e

theorem stmtsEndStmt (next : (Blanks.all.skip c).rest.head? = some b) (opens : b ≠ openBrace) (closes : b ≠ closeBrace)
    (rest : ∀ s d, d.rest.length < c.rest.length → StmtsEnd block (l ++ [s]) d) : StmtsEnd block l c := by
  have runs := runsStmt (c.rest.length + 1) c (Nat.lt_succ_self _)
  have here := stmtConfined c
  simp only [Parser.yields] at runs
  cases found : stmt c with
  | done s d =>
    rw [found] at runs here
    obtain ⟨out, settled, kept, resumed⟩ := rest s d (stmtTakes found)
    refine ⟨out, ?_, ?_, fun m outer enough same => ?_⟩
    · apply settlesDeeper
      simp only [runStmts, next, opens, closes, if_false]
      exact settlesBind runs settled
    · obtain ⟨v, spelled⟩ := here
      exact inTextLater spelled kept
    · obtain ⟨m, rfl, room⟩ := itemsTurn next enough
      simp only [items, next, opens, closes, if_false, found]
      exact resumed m outer (by have := stmtTakes found; omega) same
  | failed r i =>
    rw [found] at runs here
    refine ⟨.failed (.within ("stmt " ++ toString l.length) r) i, ?_, here, fun m outer enough same => ?_⟩
    · apply settlesDeeper
      simp only [runStmts, next, opens, closes, if_false]
      exact settlesBind runs (settlesNow _)
    · obtain ⟨m, rfl, room⟩ := itemsTurn next enough
      simp only [items, next, opens, closes, if_false, found]
      exact resumesFailed outer _ i
  | broken e =>
    rw [found] at runs here
    refine ⟨.broken e, ?_, here, fun m outer enough same => ?_⟩
    · apply settlesDeeper
      simp only [runStmts, next, opens, closes, if_false]
      exact settlesBind runs (settlesNow _)
    · obtain ⟨m, rfl, room⟩ := itemsTurn next enough
      simp only [items, next, opens, closes, if_false, found]
      exact resumesBroken outer e

end Turns

theorem stmtsEnd (n : Nat) {c : Cursor} (room : c.rest.length < n) (block : Bool) (l : List Stmt) : StmtsEnd block l c := by
  induction n generalizing c block l with
  | zero => exact absurd room (Nat.not_lt_zero _)
  | succ n ih =>
    cases next : (Blanks.all.skip c).rest.head? with
    | none => exact stmtsEndHere next
    | some b =>
      have less := byteShorter next
      by_cases closes : b = closeBrace
      · subst closes
        exact stmtsEndClose next
      · by_cases opens : b = openBrace
        · subst opens
          exact stmtsEndOpen next (ih (by omega) _ _) fun sub d shrunk => ih (by omega) _ _
        · exact stmtsEndStmt next opens closes fun s d shrunk => ih (by omega) _ _

theorem runsProgram (n : Nat) : RunsRule n .program (program.yields .program) := by
  intro c room
  obtain ⟨o, settles, -, resumes⟩ := stmtsEnd n room false []
  have same : items c.rest.length [] [] c = o := resumes _ [] (Nat.le_refl _) rfl
  apply settlesDeeper
  simp only [runRule, Parser.yields, program, same]
  refine settlesBind settles ?_
  cases o with
  | done l d => exact settlesNow _
  | failed r i => exact settlesNow _
  | broken e => exact settlesNow _

end Rule

theorem RuleName.runsParse (n : Nat) (r : RuleName) : RunsRule n r r.parse := by
  have bounded : RunsRule (n + 1) r r.parse := by
    cases r with
    | program => exact Rule.runsProgram _
    | stmt => exact Rule.runsStmt _
    | printStmt => exact Rule.runsPrint _
    | assignStmt => exact Rule.runsAssign _
    | expr => exact Rule.runsExpr _
    | term => exact Rule.runsTerm (Rule.runsExpr n) Rule.exprConfined
    | unary => exact Rule.runsUnary (Rule.runsExpr n) Rule.exprConfined
    | primary => exact Rule.runsPrimary (Rule.runsExpr n) Rule.exprConfined
    | mem => exact fun c _ => settlesDeeper (settlesNow _)
    | paren => exact Rule.runsParen (Rule.runsExpr n) Rule.exprConfined
    | int => exact fun c _ => settlesDeeper (settlesNow _)
  exact fun c room => bounded c (Nat.lt_succ_of_lt room)

namespace Grammar

mutual

theorem runsParse (n : Nat) : (g : Grammar) → g.Known → Runs n g g.parse
  | .rule r, _ => runsOfRule (r.runsParse n)
  | .text _, _ | .word _, _ | .oper _, _ => fun _ _ => settlesDeeper (settlesNow _)
  | .allOf gs, known => by
    rw [parse, ← yieldsReturn]
    exact runsAllOf (partsRun n gs known)
  | .anyOf gs, known => by
    rw [parse, ← yieldsSelf (Parser.firstOf _)]
    exact runsAnyOf (allRun n gs known)
  | .spaced s g, known => by
    have inner := runsParse n g known
    rw [parse, ← yieldsSelf (Named.parse _)]
    rw [← yieldsSelf g.parse] at inner
    exact runsSpaced rfl inner s
  | .leftToRight op arg, known => by
    have first := runsParse n op known.1
    have later := runsParse n arg known.2
    rw [parse, ← yieldsReturn]
    exact runsChain first later (grammarConfined op known.1) (grammarConfined arg known.2)

theorem partsRun (n : Nat) : (gs : List Grammar) → AllKnown gs → PartsRun n gs (parts gs)
  | [], _ => .nil n
  | g :: gs, known =>
    partsCons rfl (runsParse n g known.1) (grammarConfined g known.1) (partsRun n gs known.2)

theorem allRun (n : Nat) : (gs : List Grammar) → AllKnown gs → AllRun n id gs (parts gs)
  | [], _ => .nil
  | g :: gs, known => by
    have first := runsParse n g known.1
    rw [← yieldsSelf g.parse] at first
    exact .cons ⟨rfl, first⟩ (allRun n gs known.2)

end

end Grammar

def Outcome.Between {α : Type} (st : Nat) (b : Bytes) : Outcome α → Prop
  | .done _ d => st ≤ d.pos ∧ d.pos ≤ b.length ∧ d.rest = b.drop d.pos
  | .failed _ i => st ≤ i ∧ i ≤ b.length
  | .broken e => e = .node

theorem betweenOfInText {α : Type} {b : Bytes} {st : Nat} (inside : st ≤ b.length) {o : Outcome α}
    (h : o.InText ⟨st, b.drop st⟩) : o.Between st b := by
  cases o with
  | done x d =>
    obtain ⟨w, same, moved⟩ := h
    have size := spellsLength ⟨same, moved⟩
    dsimp only at same moved size
    rw [List.length_drop] at size
    refine ⟨by omega, by omega, ?_⟩
    rw [moved, ← List.drop_drop, same, List.drop_left]
  | failed r i =>
    simp only [Outcome.InText, Cursor.finish, List.length_drop] at h
    exact ⟨h.1, by omega⟩
  | broken e => exact h

/- Whatever a grammar over the operators of the language is put together from, and from whatever place in a text: reading
comes to an end with what the parser answers, which is done or has failed in the text and not before that place, unless a
value is of another kind than the one that is asked for. -/
theorem Grammar.readingEnds {g : Grammar} (known : g.Known) (b : Bytes) {st : Nat} (inside : st ≤ b.length) :
    Settles (fun n => runGrammar n g ⟨st, b.drop st⟩) (g.parse ⟨st, b.drop st⟩) ∧
      (g.parse ⟨st, b.drop st⟩).Between st b :=
  ⟨runsParse _ g known _ (Nat.lt_succ_self _), betweenOfInText inside (grammarConfined g known _)⟩

def Grammar.loose : Grammar :=
  .leftToRight (.anyOf [.oper (.known .sub), .text [], .text [0xff]]) (.anyOf [.rule .paren, .rule .program])

def Grammar.looseText : Bytes := utf8 "1 (2)-\x7bmem;\x7d"

theorem Grammar.looseEnds :
    loose.Known ∧ 2 ≤ looseText.length ∧
      Settles (fun n => runGrammar n loose ⟨2, looseText.drop 2⟩) (loose.parse ⟨2, looseText.drop 2⟩) ∧
      (loose.parse ⟨2, looseText.drop 2⟩).Between 2 looseText := by
  have known : loose.Known := ⟨⟨⟨.sub, rfl⟩, trivial, trivial, trivial⟩, trivial, trivial, trivial⟩
  exact ⟨known, by decide, readingEnds known looseText (by decide)⟩

end Abacus.Parsing
