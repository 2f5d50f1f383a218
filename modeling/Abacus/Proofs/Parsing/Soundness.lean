import Abacus.Proofs.Parsing.Derivation

/-! Every tree that a parser yields has a derivation, and no parser of the language meets a fault. Both are one
condition on outcomes, which is carried through the combinators first and through the rules after that. -/
namespace Abacus.Parsing

def Outcome.Meets {α : Type} (P : α → Cursor → Prop) : Outcome α → Prop
  | .done x c => P x c
  | .failed _ _ => True
  | .broken _ => False

section Combinators

variable {α β : Type} {P : α → Cursor → Prop} {Q : β → Cursor → Prop} {c : Cursor}

theorem meetsMono {R : α → Cursor → Prop} {o : Outcome α} (h : o.Meets P) (k : ∀ x d, P x d → R x d) : o.Meets R := by
  cases o with
  | done x d => exact k x d h
  | failed r i => trivial
  | broken e => exact h

theorem meetsBind {p : Parser α} {f : α → Parser β} (h : (p c).Meets P) (k : ∀ x d, P x d → (f x d).Meets Q) :
    ((p >>= f) c).Meets Q := by
  rw [Parser.bindApply]
  cases found : p c with
  | done x d =>
    rw [found] at h
    exact k x d h
  | failed r i => trivial
  | broken e =>
    rw [found] at h
    exact h

theorem meetsMap {f : α → β} {o : Outcome α} (h : o.Meets fun x d => Q (f x) d) : (o.map f).Meets Q := by
  cases o with
  | done x d => exact h
  | failed r i => trivial
  | broken e => exact h

theorem meetsWithin {label : String} {p : Parser α} (h : (p c).Meets P) : (p.within label c).Meets P := by
  unfold Parser.within
  cases found : p c with
  | failed r i => trivial
  | done x d =>
    rw [found] at h
    exact h
  | broken e =>
    rw [found] at h
    exact h

theorem meetsToken {p : Named α} (h : (p.parse (Blanks.all.skip c)).Meets P) : (p.token.parse c).Meets P := by
  unfold Named.token Named.spaced
  dsimp only
  cases found : p.parse (Blanks.all.skip c) with
  | failed r i => trivial
  | done x d =>
    rw [found] at h
    exact h
  | broken e =>
    rw [found] at h
    exact h

theorem firstAtCons (names : List String) (kept : Option (Reason × Nat)) (p : Named α) (ps : List (Named α)) :
    Parser.firstAt c names kept (p :: ps) =
      match p.parse c with
      | .failed r i =>
        if i = c.pos then Parser.firstAt c names kept ps
        else Parser.firstAt c names (kept.or (some (.within p.name r, i))) ps
      | o => o := by
  cases kept <;> rfl

theorem meetsFirstAt {names : List String} {ps : List (Named α)} (h : ∀ p ∈ ps, (p.parse c).Meets P)
    (kept : Option (Reason × Nat)) : (Parser.firstAt c names kept ps).Meets P := by
  induction ps generalizing kept with
  | nil =>
    cases kept with
    | none => trivial
    | some pair => trivial
  | cons p ps ih =>
    have first := h p (by simp)
    have others := ih fun q member => h q (by simp [member])
    rw [firstAtCons]
    cases found : p.parse c with
    | failed r i =>
      dsimp only
      split
      · exact others _
      · exact others _
    | done x d =>
      rw [found] at first
      exact first
    | broken e =>
      rw [found] at first
      exact first

theorem meetsFirstOf {ps : List (Named α)} (h : ∀ p ∈ ps, (p.parse c).Meets P) : (Parser.firstOf ps c).Meets P :=
  meetsFirstAt h none

end Combinators

theorem textMeets (t : String) (c : Cursor) : (Parser.text t c).Meets fun _ d => Spells (utf8 t) c d := by
  unfold Parser.text
  split
  · rename_i found
    exact spellsOfPrefix (List.isPrefixOf_iff_prefix.mp found)
  · trivial

theorem wordMeets (w : String) (c : Cursor) :
    (Parser.word w c).Meets fun _ d => Spells (utf8 w) c d ∧ WordEnds d := by
  unfold Parser.word
  dsimp only
  split
  · rename_i found
    rw [Bool.and_eq_true, List.isPrefixOf_iff_prefix, Bool.not_eq_true'] at found
    refine ⟨spellsOfPrefix found.1, ?_⟩
    intro b next
    have stops := found.2
    rw [next] at stops
    exact stops
  · trivial

theorem textTokenMeets (t : String) (j : Nat) (c : Cursor) :
    ((Named.text t).token.part j c).Meets fun _ d => Token (utf8 t) c (Blanks.all.skip c) d :=
  meetsWithin (meetsToken (meetsMono (textMeets t _) fun _ _ spelled => ⟨gapSkip c, spelled⟩))

theorem wordTokenMeets (w : String) (j : Nat) (c : Cursor) :
    ((Named.word w).token.part j c).Meets fun _ d => Token (utf8 w) c (Blanks.all.skip c) d ∧ WordEnds d :=
  meetsWithin (meetsToken (meetsMono (wordMeets w _) fun _ _ found => ⟨⟨gapSkip c, found.1⟩, found.2⟩))

theorem aheadMeets (c : Cursor) : (Parser.ahead c).Meets fun n d => n = (Blanks.all.skip c).pos ∧ d = c := ⟨rfl, rfl⟩

theorem hereMeets (c : Cursor) : (Parser.here c).Meets fun n d => n = c.pos ∧ d = c := ⟨rfl, rfl⟩

namespace Rule

def Sound (inner : Parser Expr) : Prop := ∀ c, (inner c).Meets fun x d => Derives .expr c d x

theorem memMeets (c : Cursor) : (mem.token.parse c).Meets fun x d => Derives .primary c d x := by
  apply meetsToken
  refine meetsBind (hereMeets _) ?_
  rintro start d ⟨rfl, rfl⟩
  refine meetsBind (wordMeets "mem" _) ?_
  intro _ e word
  refine meetsBind (hereMeets _) ?_
  rintro stop d ⟨rfl, rfl⟩
  exact Derives.mem ⟨gapSkip c, word.1⟩ word.2

theorem intMeets (c : Cursor) : (int.token.parse c).Meets fun x d => Derives .primary c d x := by
  apply meetsToken
  unfold int
  dsimp only
  split
  · trivial
  · rename_i nonempty
    split
    · trivial
    · rename_i ends
      split
      · rename_i small
        refine Derives.int ⟨gapSkip c, spellsOfPrefix (List.takeWhile_prefix _)⟩ (by simpa using nonempty) ?_ ?_ small
        · exact List.all_eq_true.mp List.all_takeWhile
        · intro b next
          rw [next] at ends
          simpa using ends
      · trivial

theorem parenMeets {inner : Parser Expr} (sound : Sound inner) (c : Cursor) :
    ((paren inner).parse c).Meets fun x d => Derives .primary c d x := by
  refine meetsBind (aheadMeets c) ?_
  rintro start _ ⟨rfl, rfl⟩
  refine meetsBind (textTokenMeets "(" 0 _) ?_
  intro _ d left
  refine meetsBind (meetsWithin (sound d)) ?_
  intro x e body
  refine meetsBind (textTokenMeets ")" 2 e) ?_
  intro _ f right
  refine meetsBind (hereMeets f) ?_
  rintro stop _ ⟨rfl, rfl⟩
  exact Derives.paren left body right

theorem primaryMeets {inner : Parser Expr} (sound : Sound inner) (c : Cursor) :
    (primary inner c).Meets fun x d => Derives .primary c d x := by
  apply meetsFirstOf
  intro p member
  simp only [List.mem_cons, List.not_mem_nil, or_false] at member
  rcases member with rfl | rfl | rfl
  · exact memMeets c
  · exact intMeets c
  · exact parenMeets sound c

theorem signSpelled {b : UInt8} {s : Sign} (h : Sign.ofByte? b = some s) : utf8 s.symbol = [b] := by
  unfold Sign.ofByte? at h
  split at h
  · rename_i plus
    cases h
    rw [plus]
    decide
  · split at h
    · rename_i minus
      cases h
      rw [minus]
      decide
    · contradiction

theorem unaryUpToMeets {inner : Parser Expr} (sound : Sound inner) (n : Nat) (c : Cursor) :
    (unaryUpTo inner n c).Meets fun x d => Derives .unary c d x := by
  induction n generalizing c with
  | zero => exact meetsMono (primaryMeets sound c) fun _ _ body => .plain body
  | succ n ih =>
    unfold unaryUpTo
    dsimp only
    cases found : (Blanks.all.skip c).rest.head?.bind Sign.ofByte? with
    | none => exact meetsMono (primaryMeets sound c) fun _ _ body => .plain body
    | some s =>
      obtain ⟨b, next, sign⟩ := Option.bind_eq_some_iff.mp found
      have spelled : Spells (utf8 s.symbol) (Blanks.all.skip c) ((Blanks.all.skip c).advance 1) := by
        rw [signSpelled sign]
        obtain ⟨rest, same⟩ := List.head?_eq_some_iff.mp next
        exact spellsOfPrefix ⟨rest, same.symm⟩
      apply meetsMap
      exact meetsMono (meetsWithin (ih _)) fun _ _ arg => .sign ⟨gapSkip c, spelled⟩ arg

theorem unaryMeets {inner : Parser Expr} (sound : Sound inner) (c : Cursor) :
    (unary inner c).Meets fun x d => Derives .unary c d x :=
  unaryUpToMeets sound c.rest.length c

theorem operMeets (t : Tier) (c : Cursor) :
    ((Named.token ⟨"AnyOf", Parser.firstOf (t.ops.map Named.oper)⟩).parse c).Meets fun o d =>
      o ∈ t.ops ∧ Token (utf8 o.symbol) c (Blanks.all.skip c) d := by
  apply meetsToken
  apply meetsFirstOf
  intro p member
  obtain ⟨o, known, rfl⟩ := List.mem_map.mp member
  refine meetsBind (textMeets o.symbol _) ?_
  intro _ d spelled
  exact ⟨known, gapSkip c, spelled⟩

theorem linksMeets {t : Tier} {op : Parser Oper} {arg : Parser Expr}
    (opSound : ∀ c, (op c).Meets fun o d => o ∈ t.ops ∧ Token (utf8 o.symbol) c (Blanks.all.skip c) d)
    (argSound : ∀ c, (arg c).Meets fun x d => Derives t.operand c d x) (n : Nat) (x : Expr) (c : Cursor) :
    (Parser.links op (fun x o => do return x.join o (← arg.within "arg")) n x c).Meets fun y d =>
      Derives (.links t x) c d y := by
  induction n generalizing x c with
  | zero => exact Derives.stop c
  | succ n ih =>
    unfold Parser.links
    have oper := opSound c
    split
    · exact Derives.stop c
    · cases found : op c with
      | failed r i =>
        dsimp only
        split
        · exact Derives.stop c
        · trivial
      | broken e =>
        rw [found] at oper
        exact oper
      | done o d =>
        rw [found] at oper
        dsimp only
        split
        · exact Derives.stop c
        · have step : ((do return x.join o (← arg.within "arg") : Parser Expr) d).Meets fun z e =>
              ∃ y, Derives t.operand d e y ∧ z = x.join o y := by
            refine meetsBind (meetsWithin (argSound d)) ?_
            intro y e derived
            exact ⟨y, derived, rfl⟩
          refine meetsBind step ?_
          rintro z e ⟨y, derived, rfl⟩
          exact meetsMono (ih _ e) fun _ _ more => .link oper.1 oper.2 derived more

theorem joinedMeets {t : Tier} {arg : Parser Expr} (argSound : ∀ c, (arg c).Meets fun x d => Derives t.operand c d x)
    (c : Cursor) : (joined t.ops arg c).Meets fun x d => Derives (.chain t) c d x := by
  refine meetsBind (meetsWithin (argSound c)) ?_
  intro x d first
  exact meetsMono (linksMeets (operMeets t) argSound d.rest.length x d) fun _ _ more => .chain first more

theorem termMeets {inner : Parser Expr} (sound : Sound inner) (c : Cursor) :
    (term inner c).Meets fun x d => Derives .term c d x :=
  joinedMeets (t := .product) (unaryMeets sound) c

theorem exprOverMeets {inner : Parser Expr} (sound : Sound inner) (c : Cursor) :
    (exprOver inner c).Meets fun x d => Derives .expr c d x :=
  joinedMeets (t := .sum) (termMeets sound) c

theorem exprUpToMeets (n : Nat) : Sound (exprUpTo n) := by
  induction n with
  | zero => exact exprOverMeets fun _ => trivial
  | succ n ih => exact exprOverMeets ih

theorem exprMeets : Sound expr := fun c => exprUpToMeets c.rest.length c

theorem printMeets (c : Cursor) : (printStmt.parse c).Meets fun s d => DerivesStmt c d s := by
  refine meetsBind (aheadMeets c) ?_
  rintro start _ ⟨rfl, rfl⟩
  refine meetsBind (wordTokenMeets "print" 0 _) ?_
  intro _ d word
  refine meetsBind (meetsWithin (exprMeets d)) ?_
  intro x e body
  refine meetsBind (textTokenMeets ";" 2 e) ?_
  intro _ f stop
  refine meetsBind (hereMeets f) ?_
  rintro stop _ ⟨rfl, rfl⟩
  exact DerivesStmt.print word.1 word.2 body ‹_›

theorem assignMeets (c : Cursor) : (assignStmt.parse c).Meets fun s d => DerivesStmt c d s := by
  refine meetsBind (aheadMeets c) ?_
  rintro start _ ⟨rfl, rfl⟩
  refine meetsBind (meetsWithin (exprMeets _)) ?_
  intro x d body
  refine meetsBind (textTokenMeets ";" 1 d) ?_
  intro _ e stop
  refine meetsBind (hereMeets e) ?_
  rintro stop _ ⟨rfl, rfl⟩
  have derived := DerivesStmt.assign body ‹_›
  rw [derivesStart body] at derived
  exact derived

theorem stmtMeets (c : Cursor) : (stmt c).Meets fun s d => DerivesStmt c d s := by
  apply meetsFirstOf
  intro p member
  simp only [List.mem_cons, List.not_mem_nil, or_false] at member
  rcases member with rfl | rfl
  · exact printMeets c
  · exact assignMeets c

/- What the text from `c` to `d` adds to the statements read so far, while blocks are open: each block is closed in
turn, and the last statements stand outside of all blocks. -/
def Closes : List (List Stmt) → List Stmt → Cursor → Cursor → List Stmt → Prop
  | [], inner, c, d, l => ∃ more, DerivesItems c d more ∧ l = inner ++ more
  | before :: outer, inner, c, d, l => ∃ more e s f, DerivesItems c e more ∧ Token [closeBrace] e s f ∧
      Closes outer (before ++ (inner ++ more)) f d l

theorem closesStmt {outer : List (List Stmt)} {inner l : List Stmt} {s : Stmt} {c d e : Cursor}
    (first : DerivesStmt c d s) (h : Closes outer (inner ++ [s]) d e l) : Closes outer inner c e l := by
  cases outer with
  | nil =>
    obtain ⟨more, items, rfl⟩ := h
    exact ⟨s :: more, .stmt first items, by simp⟩
  | cons before outer =>
    obtain ⟨more, e, s', f, items, right, rest⟩ := h
    exact ⟨s :: more, e, s', f, .stmt first items, right, by simpa using rest⟩

theorem closesBlock {outer : List (List Stmt)} {inner l : List Stmt} {c b d e : Cursor}
    (left : Token [openBrace] c b d) (h : Closes (inner :: outer) [] d e l) : Closes outer inner c e l := by
  obtain ⟨body, e, s, f, items, right, rest⟩ := h
  cases outer with
  | nil =>
    obtain ⟨more, others, rfl⟩ := rest
    exact ⟨body ++ more, .block left items right others, by simp⟩
  | cons before outer =>
    obtain ⟨more, e', s', f', others, right', rest⟩ := rest
    exact ⟨body ++ more, e', s', f', .block left items right others, right', by simpa using rest⟩

theorem atEndMeets (outer : List (List Stmt)) (inner : List Stmt) (c : Cursor) :
    (atEnd outer inner c).Meets fun l d => Closes outer inner c d l := by
  unfold atEnd
  cases outer with
  | nil => exact ⟨[], .none c, by simp⟩
  | cons before outer => trivial

theorem itemsMeets (n : Nat) (outer : List (List Stmt)) (inner : List Stmt) (c : Cursor) :
    (items n outer inner c).Meets fun l d => Closes outer inner c d l := by
  induction n generalizing outer inner c with
  | zero => exact atEndMeets outer inner c
  | succ n ih =>
    unfold items
    dsimp only
    cases next : (Blanks.all.skip c).rest.head? with
    | none => exact atEndMeets outer inner c
    | some b =>
      have here : Token [b] c (Blanks.all.skip c) ((Blanks.all.skip c).advance 1) := by
        obtain ⟨rest, same⟩ := List.head?_eq_some_iff.mp next
        exact ⟨gapSkip c, spellsOfPrefix ⟨rest, same.symm⟩⟩
      dsimp only
      split
      · rename_i opens
        rw [opens] at here
        exact meetsMono (ih _ _ _) fun _ _ rest => closesBlock here rest
      · split
        · rename_i closes
          rw [closes] at here
          cases outer with
          | nil => exact ⟨[], .none c, by simp⟩
          | cons before outer =>
            refine meetsMono (ih _ _ _) fun _ _ rest => ?_
            exact ⟨[], c, _, _, .none c, here, by simpa using rest⟩
        · have first := stmtMeets c
          cases found : stmt c with
          | done s d =>
            rw [found] at first
            exact meetsMono (ih _ _ _) fun _ _ rest => closesStmt first rest
          | failed r i => trivial
          | broken e =>
            rw [found] at first
            exact first

theorem programMeets (c : Cursor) : (program c).Meets fun p d =>
    DerivesItems c d p.stmts ∧ p.span = ⟨(Blanks.all.skip c).pos, d.pos⟩ := by
  have read := itemsMeets c.rest.length [] [] c
  unfold program
  cases found : items c.rest.length [] [] c with
  | done l d =>
    rw [found] at read
    obtain ⟨more, derived, rfl⟩ := read
    exact ⟨derived, rfl⟩
  | failed r i => trivial
  | broken e =>
    rw [found] at read
    exact read

end Rule

end Abacus.Parsing
