import Abacus.Proofs.Parsing.Range

/-! The same reading with nothing counted but the calls that are open at a time, and with no answer if there are more than
allowed. The parsers count the turns of their loops and the depth of their recursion instead. Where reading settles with
enough calls, each way to put grammars together settles too, with what the parser for it answers. -/
namespace Abacus.Parsing

def Grammar.operators (ops : List Oper) : Grammar := .spaced .all (.anyOf (ops.map fun o => .oper (.known o)))

def Outcome.assembled (make : Span → Expr → Item) (j : Nat) (c : Cursor) : Outcome Item → Outcome Item
  | .done (.list xs) d =>
    match xs[j]? with
    | some (.expr x) => .done (make ⟨(Blanks.all.skip c).pos, d.pos⟩ x) d
    | _ => .broken .node
  | .done _ _ => .broken .node
  | .failed r i => .failed r i
  | .broken e => .broken e

mutual

/- Reading by a grammar with at most `n` calls open at a time, or `none` if these are not enough. -/
def runGrammar (n : Nat) (g : Grammar) (c : Cursor) : Option (Outcome Item) :=
  match n, g with
  | 0, _ => none
  | n + 1, .rule r => runRule n r c
  | _ + 1, .text t => some (Grammar.parse (.text t) c)
  | _ + 1, .word w => some (Grammar.parse (.word w) c)
  | _ + 1, .oper o => some (Grammar.parse (.oper o) c)
  | n + 1, .allOf gs => runParts n 0 [] gs c
  | n + 1, .anyOf gs => runFirst n (gs.map Grammar.name) none gs c
  | n + 1, .spaced s g => do
    match ← runGrammar n g (s.skip c) with
    | .failed r i => some (.failed (.within g.name r) (if i = (s.skip c).pos then c.pos else i))
    | o => some o
  | n + 1, .leftToRight op arg => do
    match ← runGrammar n arg c with
    | .done (.expr x) d => runLinks n op arg x d
    | .done y d => some (.failed (.notExpr y.kind) d.pos)
    | .failed r i => some (.failed (.within "first arg" r) i)
    | .broken e => some (.broken e)

def runParts (n j : Nat) (xs : List Item) (gs : List Grammar) (c : Cursor) : Option (Outcome Item) :=
  match n, gs with
  | 0, _ => none
  | _ + 1, [] => some (.done (.list xs) c)
  | n + 1, g :: gs => do
    match ← runGrammar n g c with
    | .done x d => runParts n (j + 1) (xs ++ [x]) gs d
    | .failed r i => some (.failed (.within (g.name ++ " (" ++ toString j ++ ")") r) i)
    | .broken e => some (.broken e)

def runFirst (n : Nat) (names : List String) (kept : Option (Reason × Nat)) (gs : List Grammar) (c : Cursor) :
    Option (Outcome Item) :=
  match n, gs with
  | 0, _ => none
  | _ + 1, [] =>
    match kept with
    | some (r, i) => some (.failed r i)
    | none => some (.failed (.noneOf names) c.pos)
  | n + 1, g :: gs => do
    match ← runGrammar n g c with
    | .failed r i =>
      if i = c.pos then runFirst n names kept gs c else runFirst n names (kept.or (some (.within g.name r, i))) gs c
    | o => some o

/- The loop over the operators and the later operands of a chain. It ends where no operator takes any text. -/
def runLinks (n : Nat) (op arg : Grammar) (x : Expr) (c : Cursor) : Option (Outcome Item) :=
  match n with
  | 0 => none
  | n + 1 =>
    if c.rest.isEmpty then some (.done (.expr x) c)
    else do
      match ← runGrammar n op c with
      | .failed r i => some (if i = c.pos then .done (.expr x) c else .failed (.within "op" r) i)
      | .broken e => some (.broken e)
      | .done o d =>
        if d.pos = c.pos then some (.done (.expr x) c)
        else match o with
          | .oper o => do
            match ← runGrammar n arg d with
            | .done (.expr y) e => runLinks n op arg (x.join o y) e
            | .done _ _ => some (.broken .node)
            | .failed r i => some (.failed (.within "arg" r) i)
            | .broken e => some (.broken e)
          | y => some (.failed (.notOper y.kind) d.pos)

def runRule (n : Nat) (r : RuleName) (c : Cursor) : Option (Outcome Item) :=
  match n, r with
  | 0, _ => none
  | _ + 1, .mem => some (RuleName.mem.parse c)
  | _ + 1, .int => some (RuleName.int.parse c)
  | n + 1, .paren => do
    let o ← runGrammar n (.allOf [.spaced .all (.text "("), .rule .expr, .spaced .all (.text ")")]) c
    some (o.assembled (fun s x => .expr (.paren s x)) 1 c)
  | n + 1, .primary => runGrammar n (.anyOf [.spaced .all (.rule .mem), .spaced .all (.rule .int), .rule .paren]) c
  | n + 1, .unary =>
    let start := Blanks.all.skip c
    match start.rest.head?.bind Sign.ofByte? with
    | none => runRule n .primary c
    | some s => do
      match ← runRule n .unary (start.advance 1) with
      | .done (.expr x) d => some (.done (.expr (.signed ⟨start.pos, x.span.stop⟩ (.known s) x)) d)
      | .done _ _ => some (.broken .node)
      | .failed r i => some (.failed (.within (s.symbol ++ " operand") r) i)
      | .broken e => some (.broken e)
  | n + 1, .term => runGrammar n (.leftToRight (.operators [.mul, .div]) (.rule .unary)) c
  | n + 1, .expr => runGrammar n (.leftToRight (.operators [.add, .sub]) (.rule .term)) c
  | n + 1, .printStmt => do
    let o ← runGrammar n (.allOf [.spaced .all (.word "print"), .rule .expr, .spaced .all (.text ";")]) c
    some (o.assembled (fun s x => .stmt (.print s x)) 1 c)
  | n + 1, .assignStmt => do
    let o ← runGrammar n (.allOf [.rule .expr, .spaced .all (.text ";")]) c
    some (o.assembled (fun s x => .stmt (.assign s x)) 0 c)
  | n + 1, .stmt => runGrammar n (.anyOf [.rule .printStmt, .rule .assignStmt]) c
  | n + 1, .program => do
    match ← runStmts n false [] c with
    | .done l d => some (.done (.program ⟨⟨(Blanks.all.skip c).pos, d.pos⟩, l⟩) d)
    | .failed r i => some (.failed r i)
    | .broken e => some (.broken e)

/- The loop over statements and blocks, inside of a block or not, where `l` holds the statements before. -/
def runStmts (n : Nat) (block : Bool) (l : List Stmt) (c : Cursor) : Option (Outcome (List Stmt)) :=
  match n with
  | 0 => none
  | n + 1 =>
    let next := Blanks.all.skip c
    match next.rest.head? with
    | none => some (if block then .failed .unclosed next.pos else .done l c)
    | some b =>
      if b = closeBrace then some (if block then .done l (next.advance 1) else .done l c)
      else if b = openBrace then do
        match ← runStmts n true [] (next.advance 1) with
        | .done sub d => runStmts n block (l ++ sub) d
        | .failed r i => some (.failed (.within "block" r) i)
        | .broken e => some (.broken e)
      else do
        match ← runRule n .stmt c with
        | .done (.stmt s) d => runStmts n block (l ++ [s]) d
        | .done _ _ => some (.broken .node)
        | .failed r i => some (.failed (.within ("stmt " ++ toString l.length) r) i)
        | .broken e => some (.broken e)

end

-- one equation for each rule and each turn of the loop, made once for all proofs that open them
attribute [simp] runRule runStmts

section Settling

variable {α β : Type}

def Settles (run : Nat → Option α) (o : α) : Prop := ∃ n, ∀ m, n ≤ m → run m = some o

variable {run : Nat → Option α} {a : α} {o : β}

theorem settlesNow (o : α) : Settles (fun _ => some o) o := ⟨0, fun _ _ => rfl⟩

theorem settlesDeeper (h : Settles (fun n => run (n + 1)) a) : Settles run a := by
  obtain ⟨n, enough⟩ := h
  refine ⟨n + 1, fun m more => ?_⟩
  obtain ⟨k, rfl⟩ : ∃ k, m = k + 1 := Nat.exists_eq_succ_of_ne_zero (by omega)
  exact enough k (by omega)

theorem settlesBind {f : Nat → α → Option β} (first : Settles run a) (rest : Settles (fun n => f n a) o) :
    Settles (fun n => run n >>= f n) o := by
  obtain ⟨n, before⟩ := first
  obtain ⟨m, after⟩ := rest
  refine ⟨max n m, fun k more => ?_⟩
  dsimp only
  rw [before k (by omega)]
  exact after k (by omega)

end Settling

section Shrinking

variable {α : Type} {x : α} {c d : Cursor}

theorem shorter (h : Outcome.InText c (.done x d)) : d.rest.length ≤ c.rest.length := by
  obtain ⟨w, spelled⟩ := h
  have size := spellsLength spelled
  omega

theorem shorterPast (h : Outcome.InText c (.done x d)) (moved : d.pos ≠ c.pos) : d.rest.length < c.rest.length := by
  obtain ⟨w, spelled⟩ := h
  have size := spellsLength spelled
  have step := spelled.2
  omega

theorem skipShorter (s : Blanks) (c : Cursor) : (s.skip c).rest.length ≤ c.rest.length := by
  obtain ⟨w, spelled⟩ := skipSpells s c
  have size := spellsLength spelled
  omega

theorem byteShorter {b : UInt8} (next : (Blanks.all.skip c).rest.head? = some b) :
    ((Blanks.all.skip c).advance 1).rest.length < c.rest.length := by
  have blanks := skipShorter .all c
  have size := spellsLength (byteSpells next)
  simp only [List.length_singleton] at size
  omega

end Shrinking

def Parser.yields {α : Type} (f : α → Item) (p : Parser α) : Parser Item := fun c => (p c).map f

def Named.yields {α : Type} (f : α → Item) (q : Named α) : Named Item := ⟨q.name, q.parse.yields f⟩

def Runs (n : Nat) (g : Grammar) (p : Parser Item) : Prop :=
  ∀ c, c.rest.length < n → Settles (fun m => runGrammar m g c) (p c)

def RunsRule (n : Nat) (r : RuleName) (p : Parser Item) : Prop :=
  ∀ c, c.rest.length < n → Settles (fun m => runRule m r c) (p c)

section Combinators

variable {α β : Type} {n : Nat} {g op arg : Grammar} {p q : Parser Item} {f : α → Item}

theorem yieldsSelf (p : Parser Item) : p.yields id = p := by
  funext c
  unfold Parser.yields
  cases p c with
  | done x d => rfl
  | failed r i => rfl
  | broken e => rfl

theorem yieldsReturn (p : Parser α) (f : α → Item) : p.yields f = do return f (← p) := by
  funext c
  rw [Parser.bindApply, Parser.yields]
  cases p c with
  | done x d => rfl
  | failed r i => rfl
  | broken e => rfl

theorem yieldsDone {p : Parser α} {c d : Cursor} {y : Item} (h : p.yields f c = .done y d) :
    ∃ x, p c = .done x d := by
  unfold Parser.yields at h
  cases found : p c with
  | done x e =>
    rw [found] at h
    cases h
    exact ⟨x, rfl⟩
  | failed r i =>
    rw [found] at h
    cases h
  | broken e =>
    rw [found] at h
    cases h

theorem confinedYields {p : Parser α} (h : Confined p) (f : α → Item) : Confined (p.yields f) :=
  fun c => inTextMap (h c)

theorem runsText (n : Nat) (t : Bytes) : Runs n (.text t) ((Parser.text t).yields fun _ => .text t) := by
  rw [yieldsReturn]
  exact fun _ _ => settlesDeeper (settlesNow _)

theorem runsWord (n : Nat) (w : Bytes) : Runs n (.word w) ((Parser.word w).yields fun _ => .word w) := by
  rw [yieldsReturn]
  exact fun _ _ => settlesDeeper (settlesNow _)

theorem runsOper (n : Nat) (o : Oper) : Runs n (.oper (.known o)) ((Named.oper o).parse.yields .oper) := by
  rw [yieldsReturn]
  exact fun _ _ => settlesDeeper (settlesNow _)

theorem runsOfRule {r : RuleName} (h : RunsRule n r p) : Runs n (.rule r) p := by
  intro c room
  apply settlesDeeper
  simp only [runGrammar]
  exact h c room

theorem runsSpaced {q : Named α} (name : g.name = q.name) (h : Runs n g (q.parse.yields f)) (s : Blanks) :
    Runs n (.spaced s g) ((q.spaced s).parse.yields f) := by
  intro c room
  have inner := h (s.skip c) (Nat.lt_of_le_of_lt (skipShorter s c) room)
  apply settlesDeeper
  simp only [runGrammar, Named.spaced, Parser.yields, name] at inner ⊢
  refine settlesBind inner ?_
  cases q.parse (s.skip c) with
  | done x d => exact settlesNow _
  | failed r i => exact settlesNow _
  | broken e => exact settlesNow _

/- The parts of a sequence, each of which has to run only in the text that is left by those before it. -/
inductive PartsRun : Nat → List Grammar → List (Named Item) → Prop
  | nil (n : Nat) : PartsRun n [] []
  | cons {n m : Nat} {g : Grammar} {q : Named Item} {gs : List Grammar} {qs : List (Named Item)} (name : g.name = q.name)
    (first : Runs n g q.parse) (leaves : ∀ c x d, c.rest.length < n → q.parse c = .done x d → d.rest.length < m)
    (rest : PartsRun m gs qs) : PartsRun n (g :: gs) (q :: qs)

theorem partsCons {q : Named Item} {gs : List Grammar} {qs : List (Named Item)} (name : g.name = q.name)
    (first : Runs n g q.parse) (inside : Confined q.parse) (rest : PartsRun n gs qs) : PartsRun n (g :: gs) (q :: qs) := by
  refine .cons name first (fun c x d room found => ?_) rest
  have spelled := inside c
  rw [found] at spelled
  exact Nat.lt_of_le_of_lt (shorter spelled) room

theorem runsParts {gs : List Grammar} {qs : List (Named Item)} (h : PartsRun n gs qs) (j : Nat) (xs : List Item) {c : Cursor}
    (room : c.rest.length < n) :
    Settles (fun m => runParts m j xs gs c) ((Parser.sequence j qs c).map fun ys => .list (xs ++ ys)) := by
  induction h generalizing j xs c with
  | nil =>
    apply settlesDeeper
    simp only [runParts, Parser.sequence, Parser.pureApply, Outcome.map, List.append_nil]
    exact settlesNow _
  | @cons n m g q gs qs name first leaves rest ih =>
    have left := leaves c
    apply settlesDeeper
    simp only [runParts, Parser.sequence, Named.part, Parser.within, Parser.bindApply, name]
    refine settlesBind (first c room) ?_
    generalize q.parse c = o at left ⊢
    cases o with
    | done x d =>
      have more := ih (j + 1) (xs ++ [x]) (left x d room rfl)
      dsimp only
      generalize Parser.sequence (j + 1) qs d = out at more ⊢
      cases out with
      | done ys e => simpa [Outcome.map] using more
      | failed r i => exact more
      | broken e => exact more
    | failed r i => exact settlesNow _
    | broken e => exact settlesNow _

theorem runsAllOf {gs : List Grammar} {qs : List (Named Item)} (h : PartsRun n gs qs) :
    Runs n (.allOf gs) ((Parser.sequence 0 qs).yields .list) := by
  intro c room
  apply settlesDeeper
  simp only [runGrammar]
  exact runsParts h 0 [] room

def AllRun (n : Nat) (f : α → Item) (gs : List Grammar) (qs : List (Named α)) : Prop :=
  List.Forall₂ (fun g q => g.name = q.name ∧ Runs n g (q.parse.yields f)) gs qs

theorem runsFirst {gs : List Grammar} {qs : List (Named α)} (h : AllRun n f gs qs) (names : List String)
    (kept : Option (Reason × Nat)) {c : Cursor} (room : c.rest.length < n) :
    Settles (fun m => runFirst m names kept gs c) ((Parser.firstAt c names kept qs).map f) := by
  induction h generalizing kept with
  | nil =>
    apply settlesDeeper
    cases kept with
    | none => exact settlesNow _
    | some pair => exact settlesNow _
  | @cons g q gs qs first rest ih =>
    obtain ⟨name, runs⟩ := first
    have here := runs c room
    apply settlesDeeper
    simp only [runFirst, firstAtCons, Parser.yields, name] at here ⊢
    refine settlesBind here ?_
    cases q.parse c with
    | done x d => exact settlesNow _
    | failed r i =>
      dsimp only [Outcome.map]
      split
      · exact ih kept
      · exact ih _
    | broken e => exact settlesNow _

theorem runsAnyOf {gs : List Grammar} {qs : List (Named α)} (h : AllRun n f gs qs) :
    Runs n (.anyOf gs) ((Parser.firstOf qs).yields f) := by
  have names : gs.map Grammar.name = qs.map Named.name := by
    induction h with
    | nil => rfl
    | cons first rest ih => simp [first.1, ih]
  intro c room
  apply settlesDeeper
  simp only [runGrammar, names]
  exact runsFirst h _ none room

theorem runsLinks (first : Runs n op p) (later : Runs n arg q) (opInside : Confined p) (argInside : Confined q) (m : Nat)
    (x : Expr) {c : Cursor} (enough : c.rest.length ≤ m) (room : c.rest.length < n) :
    Settles (fun k => runLinks k op arg x c) ((Parser.links p (Grammar.link q) m x c).map .expr) := by
  induction m generalizing x c with
  | zero =>
    have empty : c.rest = [] := List.eq_nil_of_length_eq_zero (by omega)
    apply settlesDeeper
    simp only [runLinks, empty, List.isEmpty_nil, if_true]
    exact settlesNow _
  | succ m ih =>
    have moved := opInside c
    apply settlesDeeper
    simp only [runLinks, Parser.links]
    split
    · exact settlesNow _
    · refine settlesBind (first c room) ?_
      generalize p c = o at moved ⊢
      cases o with
      | failed r i =>
        dsimp only
        split
        · exact settlesNow _
        · exact settlesNow _
      | broken e => exact settlesNow _
      | done i d =>
        dsimp only
        split
        · exact settlesNow _
        · rename_i past
          have less := shorterPast moved past
          cases i with
          | oper o =>
            have inside := argInside d
            simp only [Grammar.link, Parser.within, Parser.bindApply]
            refine settlesBind (later d (by omega)) ?_
            generalize q d = out at inside ⊢
            cases out with
            | done y e =>
              have shrunk := shorter inside
              cases y with
              | expr y => exact ih (x.join o y) (by omega) (by omega)
              | program | stmt | text | word | oper | list => exact settlesNow _
            | failed r i => exact settlesNow _
            | broken e => exact settlesNow _
          | program | stmt | expr | text | word | list => exact settlesNow _

theorem bindBroken {p : Parser α} {f : α → Parser β} {c : Cursor} {e : Fault} (h : p c = .broken e) :
    (p >>= f) c = .broken e := by
  rw [Parser.bindApply, h]

theorem chainApply (first : Parser Expr) (op : Parser α) (step : Expr → α → Parser Expr) (c : Cursor) :
    Parser.chain first op step c =
      match first c with
      | .done x d => Parser.links op step d.rest.length x d
      | .failed r i => .failed r i
      | .broken e => .broken e := by
  cases start : first c with
  | done x d => exact bindDone start
  | failed r i => exact bindFailed start
  | broken e => exact bindBroken start

theorem runsChain (first : Runs n op p) (later : Runs n arg q) (opInside : Confined p) (argInside : Confined q) :
    Runs n (.leftToRight op arg)
      ((Parser.chain (q.within "first arg" >>= Grammar.operand) p (Grammar.link q)).yields .expr) := by
  intro c room
  have inside := argInside c
  apply settlesDeeper
  simp only [runGrammar, Parser.yields, chainApply, Parser.within, Parser.bindApply]
  refine settlesBind (later c room) ?_
  generalize q c = o at inside ⊢
  cases o with
  | done y d =>
    cases y with
    | expr x => exact runsLinks first later opInside argInside _ x (Nat.le_refl _) (Nat.lt_of_le_of_lt (shorter inside) room)
    | program | stmt | text | word | oper | list => exact settlesNow _
  | failed r i => exact settlesNow _
  | broken e => exact settlesNow _

end Combinators

end Abacus.Parsing
