import Abacus.Proofs.Parsing.Automaton
import Abacus.Proofs.Parsing.Sequence

/-! The parser goes where reading from left to right goes, though it tries alternatives and goes back over blanks: what it
reads leads from one stage to another, and where it fails nothing more can be read. -/
namespace Abacus.Parsing

inductive Traces {α : Type} (σ : Stage) (c : Cursor) (τ : Stage) (E : Cursor → Prop) : Outcome α → Prop
  | done {x : α} {d : Cursor} (leads : Leads σ c τ d) (ends : E d) : Traces σ c τ E (.done x d)
  | failed {r : Reason} {i : Nat} (stops : Stops σ c i) : Traces σ c τ E (.failed r i)

section Combinators

variable {α β : Type} {σ ρ τ : Stage} {c d : Cursor} {E F : Cursor → Prop}

theorem tracesLater {o : Outcome α} (leads : Leads σ c ρ d) (h : Traces ρ d τ E o) : Traces σ c τ E o := by
  cases h with
  | done more ends => exact .done (leadsTrans leads more) ends
  | failed stops => exact .failed (stopsLater leads stops)

theorem tracesBind {p : Parser α} {f : α → Parser β} (h : Traces σ c ρ E (p c))
    (next : ∀ x d, Leads σ c ρ d → E d → Traces ρ d τ F (f x d)) : Traces σ c τ F ((p >>= f) c) := by
  rw [Parser.bindApply]
  generalize p c = o at h
  cases h with
  | done leads ends => exact tracesLater leads (next _ _ leads ends)
  | failed stops => exact .failed stops

theorem tracesWithin {p : Parser α} (h : Traces σ c τ E (p c)) (label : String) : Traces σ c τ E (p.within label c) := by
  unfold Parser.within
  generalize p c = o at h
  cases h with
  | done leads ends => exact .done leads ends
  | failed stops => exact .failed stops

theorem tracesMap {o : Outcome α} (h : Traces σ c τ E o) (f : α → β) : Traces σ c τ E (o.map f) := by
  cases h with
  | done leads ends => exact .done leads ends
  | failed stops => exact .failed stops

def Idle (p : Parser α) (c : Cursor) : Prop := ∃ r, p c = .failed r c.pos

theorem idleWithin {p : Parser α} (h : Idle p c) (label : String) : Idle (p.within label) c := by
  obtain ⟨r, failed⟩ := h
  exact ⟨.within label r, by rw [Parser.within, failed]⟩

theorem idleBind {p : Parser α} (h : Idle p c) (f : α → Parser β) : Idle (p >>= f) c := by
  obtain ⟨r, failed⟩ := h
  exact ⟨r, bindFailed failed⟩

theorem firstAtIdle {names : List String} {kept : Option (Reason × Nat)} {before : List (Named α)}
    (idle : ∀ p ∈ before, Idle p.parse c) (after : List (Named α)) :
    Parser.firstAt c names kept (before ++ after) = Parser.firstAt c names kept after := by
  induction before with
  | nil => rfl
  | cons p before ih =>
    obtain ⟨r, failed⟩ := idle p (by simp)
    rw [List.cons_append, firstAtCons, failed]
    simpa using ih fun q member => idle q (by simp [member])

theorem tracesOnly {p : Named α} (before after : List (Named α)) (idle : ∀ q ∈ before, Idle q.parse c)
    (idle' : ∀ q ∈ after, Idle q.parse c) (h : Traces σ c τ E (p.parse c)) :
    Traces σ c τ E (Parser.firstOf (before ++ p :: after) c) := by
  have rest : ∀ names kept, Parser.firstAt c names kept after = Parser.firstAt c names kept [] := by
    intro names kept
    rw [← firstAtIdle idle' [], List.append_nil]
  rw [Parser.firstOf, firstAtIdle idle, firstAtCons]
  generalize p.parse c = o at h
  cases h with
  | done leads ends => exact .done leads ends
  | @failed r i stops =>
    dsimp only
    split
    · rename_i here
      rw [rest, Parser.firstAt, ← here]
      exact .failed stops
    · rw [rest]
      exact .failed stops

end Combinators

section Tokens

variable {c d : Cursor}

theorem scanByte {b : UInt8} {r : Bytes} (start : (Blanks.all.skip c).rest = b :: r) (other : isWordByte b = false) :
    scan c = some ([b], (Blanks.all.skip c).advance 1) := by
  refine scanFound.mpr ⟨by simp, ?_, rfl⟩
  rw [start, lexeme, if_neg (by simp [other])]

theorem scanOther {v w : Bytes} (next : scan c = some (v, d)) (differs : v ≠ w) (e : Cursor) : scan c ≠ some (w, e) := by
  intro found
  rw [next] at found
  cases found
  exact differs rfl

theorem scanHead {w : Bytes} (next : scan c = some (w, d)) : (Blanks.all.skip c).rest.head? = w.head? := by
  rw [(scanSpells next).1, List.head?_append_of_ne_nil _ (scanFound.mp next).1]

theorem scanToken {w : Bytes} (next : scan c = some (w, d)) : Token w c (Blanks.all.skip c) d :=
  ⟨gapSkip c, scanSpells next⟩

theorem textScanned {t : String} (next : scan c = some (utf8 t, d)) (solid : Solid (utf8 t)) (j : Nat) :
    (Named.text t).token.part j c = .done () d :=
  textTokenDone (scanToken next) solid j

theorem textIdle {t : String} {b : UInt8} (spelled : utf8 t = [b]) (other : isWordByte b = false)
    (absent : ∀ d, scan c ≠ some (utf8 t, d)) (j : Nat) : Idle ((Named.text t).token.part j) c := by
  apply idleWithin
  refine ⟨_, tokenFailed (textFailed ?_)⟩
  rintro ⟨r, start⟩
  rw [spelled] at start
  exact absent _ (spelled ▸ scanByte start.symm other)

theorem lexemeWord {w t : Bytes} (run : w ≠ []) (all : ∀ b ∈ w, isWordByte b = true)
    (ends : ∀ b, t.head? = some b → isWordByte b = false) : lexeme (w ++ t) = w := by
  obtain ⟨b, w, rfl⟩ := List.exists_cons_of_ne_nil run
  rw [List.cons_append, lexeme, if_pos (all b (by simp)), List.cons.injEq, wordRun]
  exact ⟨rfl, fun x member => all x (by simp [member]), ends⟩

theorem scanWord {b : UInt8} {w : Bytes} (next : scan c = some (w, d)) (start : w.head? = some b)
    (word : isWordByte b = true) : (∀ x ∈ w, isWordByte x = true) ∧ WordEnds d := by
  obtain ⟨v, rfl⟩ := List.head?_eq_some_iff.mp start
  have whole := (scanFound.mp next).2.1
  rw [(scanSpells next).1, List.cons_append, lexeme, if_pos word, List.cons.injEq] at whole
  obtain ⟨all, ends⟩ := wordRun.mp whole.2.symm
  refine ⟨fun x member => ?_, ends⟩
  rcases List.mem_cons.mp member with rfl | later
  · exact word
  · exact all x later

theorem wordScanned {w : String} {b : UInt8} (start : (utf8 w).head? = some b) (word : isWordByte b = true)
    (next : scan c = some (utf8 w, d)) (j : Nat) : (Named.word w).token.part j c = .done () d :=
  withinDone (tokenDone (wordDone (scanSpells next) (scanWord next start word).2))

theorem wordIdle {w : String} (run : utf8 w ≠ []) (all : (utf8 w).all isWordByte = true)
    (absent : ∀ d, scan c ≠ some (utf8 w, d)) :
    Parser.word w (Blanks.all.skip c) = .failed (.word w) (Blanks.all.skip c).pos := by
  unfold Parser.word
  dsimp only
  refine if_neg fun found => ?_
  obtain ⟨lead, ends⟩ := Bool.and_eq_true_iff.mp found
  have spelled := spellsOfPrefix (List.isPrefixOf_iff_prefix.mp lead)
  refine absent _ (scanFound.mpr ⟨run, ?_, rfl⟩)
  rw [spelled.1]
  refine (lexemeWord run (List.all_eq_true.mp all) fun b next => ?_).symm
  rw [next] at ends
  simpa using ends

end Tokens

theorem digitWord {b : UInt8} (digit : isDigit b = true) : isWordByte b = true := by
  simp [isWordByte, digit]

theorem digitDiffers {b : UInt8} {v : Bytes} (digit : isDigit b = true) (plain : v.any isDigit = false) (w : Bytes) :
    b :: w ≠ v := by
  rintro rfl
  simp [digit] at plain

theorem beginsDigit {k n : Nat} {b : UInt8} {w : Bytes} (digit : isDigit b = true) :
    Stage.begins k n (b :: w) = if isLiteral (b :: w) then some (.operator k n) else none := by
  have word := digitDiffers (v := utf8 "mem") digit (by decide) w
  rw [Stage.begins, if_neg, if_neg (digitDiffers digit (by decide) w)]
  · simp only [word, false_or]
  · exact not_or.mpr ⟨digitDiffers digit (by decide) w, digitDiffers digit (by decide) w⟩

namespace Rule

section Primary

variable {c : Cursor} {k n : Nat} {E : Cursor → Prop}

theorem memTraces {d : Cursor} (next : scan c = some (utf8 "mem", d)) :
    Traces (.operand k n) c (.operator k n) (fun _ => True) (mem.token.parse c) := by
  have ends := (scanWord next (b := 0x6d) (by decide) (by decide)).2
  rw [memDone (scanToken next) ends]
  exact .done (leadsToken next rfl) trivial

theorem memIdle (absent : ∀ d, scan c ≠ some (utf8 "mem", d)) : Idle mem.token.parse c :=
  ⟨_, tokenFailed ((bindDone rfl).trans (bindFailed (wordIdle (by decide) (by decide) absent)))⟩

theorem intIdle (other : ∀ b, (Blanks.all.skip c).rest.head? = some b → isDigit b = false) : Idle int.token.parse c := by
  refine ⟨_, tokenFailed (r := .integer) ?_⟩
  have none : (Blanks.all.skip c).rest.takeWhile isDigit = [] := by
    cases rest : (Blanks.all.skip c).rest with
    | nil => rfl
    | cons b r =>
      rw [List.takeWhile_cons, other b (by rw [rest]; rfl)]
      rfl
  unfold int
  simp [none]

/- Why a word that starts with a digit is no literal: a byte that is no digit, or too large a number. -/
theorem intStops {v : Cursor} {ds rest : Bytes} (split : v.rest = ds ++ rest) (run : ds ≠ [])
    (all : ∀ b ∈ ds, isDigit b = true) (ends : ∀ b, rest.head? = some b → isDigit b = false)
    (bad : rest.head?.any isWordByte = true ∨ literalBound ≤ digitsValue ds) :
    ∃ r, int.parse v = .failed r (v.pos + ds.length) := by
  have digits : v.rest.takeWhile isDigit = ds := by
    rw [split, List.takeWhile_append_of_pos all]
    cases rest with
    | nil => exact List.append_nil _
    | cons b rest => rw [List.takeWhile_cons, ends b rfl]; exact List.append_nil _
  have after : (v.advance ds.length).rest = rest := by simp [Cursor.advance, split]
  have some : ds.isEmpty = false := by simpa using run
  unfold int
  simp only [digits, some, after, Bool.false_eq_true, if_false]
  cases word : rest.head?.filter isWordByte with
  | some b => exact ⟨_, rfl⟩
  | none =>
    have large : ¬ digitsValue ds < literalBound := by
      refine Nat.not_lt.mpr (bad.resolve_left fun goes => ?_)
      cases next : rest.head? with
      | none => simp [next] at goes
      | some b =>
        rw [next] at goes word
        simp only [Option.any_some] at goes
        simp [Option.filter, goes] at word
    simp only [large, if_false]
    exact ⟨_, rfl⟩

theorem intTraces {b : UInt8} (start : (Blanks.all.skip c).rest.head? = some b) (digit : isDigit b = true) :
    Traces (.operand k n) c (.operator k n) (fun _ => True) (int.token.parse c) := by
  obtain ⟨ds, rest, split, all, ends⟩ := runSplit isDigit (Blanks.all.skip c).rest
  obtain ⟨more, tail, split', words, breaks⟩ := runSplit isWordByte rest
  rw [split] at start
  have run : ds ≠ [] := by
    rintro rfl
    simp [ends b start] at digit
  have first : ds.head? = some b := by rwa [List.head?_append_of_ne_nil _ run] at start
  have next : scan c = some (ds ++ more, (Blanks.all.skip c).advance (ds ++ more).length) := by
    refine scanFound.mpr ⟨by simp [run], ?_, rfl⟩
    rw [split, split', ← List.append_assoc]
    refine (lexemeWord (by simp [run]) (fun x member => ?_) breaks).symm
    rcases List.mem_append.mp member with inside | later
    · exact digitWord (all x inside)
    · exact words x later
  obtain ⟨ds', rfl⟩ := List.head?_eq_some_iff.mp first
  by_cases good : more = [] ∧ digitsValue (b :: ds') < literalBound
  · obtain ⟨rfl, small⟩ := good
    rw [List.append_nil] at next
    have literal : isLiteral (b :: ds') = true := by
      simp only [isLiteral, Bool.and_eq_true, List.all_eq_true, decide_eq_true_eq]
      exact ⟨⟨rfl, all⟩, small⟩
    rw [intDone (scanToken next) run all (scanWord next rfl (digitWord digit)).2 small]
    refine .done (leadsToken next ?_) trivial
    rw [Stage.read, beginsDigit digit, if_pos literal]
  · have large : more = [] → literalBound ≤ digitsValue (b :: ds') := fun none =>
      Nat.not_lt.mp fun small => good ⟨none, small⟩
    have bad : rest.head?.any isWordByte = true ∨ literalBound ≤ digitsValue (b :: ds') := by
      cases more with
      | nil => exact .inr (large rfl)
      | cons x more => exact .inl (by rw [split']; exact words x (by simp))
    have literal : ¬ isLiteral (b :: ds' ++ more) = true := by
      simp only [isLiteral, Bool.and_eq_true, List.all_eq_true, decide_eq_true_eq]
      rintro ⟨⟨-, digits⟩, small⟩
      cases more with
      | nil => exact good ⟨rfl, by simpa using small⟩
      | cons x more =>
        have other := ends x (by rw [split']; rfl)
        simp [digits x (by simp)] at other
    obtain ⟨r, failed⟩ := intStops split run all ends bad
    have report : int.token.parse c = .failed (.within int.name r) ((Blanks.all.skip c).pos + (b :: ds').length) := by
      simp [Named.token, Named.spaced, failed]
    rw [report]
    refine .failed (stopsHere ⟨fun w d found => ?_, by simp, .digits next run all large fun literal => ?_⟩)
    · rw [next] at found
      cases found
      rw [Stage.read, List.cons_append, beginsDigit digit, ← List.cons_append, if_neg literal]
    · exact ⟨.operator k n, by rw [Stage.read, beginsDigit digit, if_pos literal]⟩

theorem parenIdle {inner : Parser Expr} (absent : ∀ d, scan c ≠ some (utf8 "(", d)) : Idle (paren inner).parse c := by
  obtain ⟨r, failed⟩ := textIdle (t := "(") (b := 0x28) (by decide) (by decide) absent 0
  exact ⟨r, (bindDone rfl).trans (bindFailed failed)⟩

theorem operAbsent {d : Cursor} {w : Bytes} (ends : Phrase.expr.Ends c) (next : scan c = some (w, d)) :
    isOper w = false := by
  rw [← Bool.not_eq_true, isOper, List.any_eq_true]
  rintro ⟨o, -, same⟩
  have spelled := (scanSpells next).1
  rw [of_decide_eq_true same, operSpelled] at spelled
  refine ends o (by cases o <;> decide) ?_
  rw [spelled]
  rfl

/- The end of an expression: either the token that belongs there follows, or nothing can be read. -/
theorem closeTraces {t : String} {b : UInt8} {τ : Stage} (spelled : utf8 t = [b]) (solid : Solid (utf8 t))
    (other : isWordByte b = false) (read : (Stage.operator k n).read (utf8 t) = some τ)
    (only : ∀ w, isOper w = false → w ≠ utf8 t → (Stage.operator k n).read w = none) (ends : Phrase.expr.Ends c)
    (j : Nat) : Traces (.operator k n) c τ (fun _ => True) ((Named.text t).token.part j c) := by
  by_cases found : ∃ d, scan c = some (utf8 t, d)
  · obtain ⟨d, next⟩ := found
    rw [textScanned next solid]
    exact .done (leadsToken next read) trivial
  · obtain ⟨r, failed⟩ := textIdle spelled other (not_exists.mp found) j
    rw [failed]
    refine .failed (stopsHere ⟨fun w d next => only w (operAbsent ends next) ?_, by simp, .before⟩)
    rintro rfl
    exact found ⟨d, next⟩

theorem parenTraces {inner : Parser Expr} {d : Cursor} (next : scan c = some (utf8 "(", d))
    (body : Traces (.operand (k + 1) n) d (.operator (k + 1) n) (fun e => Phrase.expr.Ends e) (inner d)) :
    Traces (.operand k n) c (.operator k n) (fun _ => True) ((paren inner).parse c) := by
  have left : Traces (.operand k n) c (.operand (k + 1) n) (fun e => e = d) ((Named.text "(").token.part 0 c) := by
    rw [textScanned next (by decide)]
    exact .done (leadsToken next rfl) rfl
  refine tracesBind (p := (Named.text "(").token.part 0) left ?_
  rintro _ _ - rfl
  refine tracesBind (tracesWithin body _) fun x e _ ends => ?_
  have right : Traces (.operator (k + 1) n) e (.operator k n) (fun _ => True) ((Named.text ")").token.part 2 e) := by
    refine closeTraces (b := 0x29) (by decide) (by decide) (by decide) rfl (fun w plain differs => ?_) ends 2
    simp [Stage.read, plain, differs]
  exact tracesBind right fun _ f _ _ => .done (.here _ _) trivial

theorem beginsNothing {d : Cursor} {w : Bytes} (next : scan c = some (w, d))
    (unsigned : (Blanks.all.skip c).rest.head?.bind Sign.ofByte? = none) (mem : w ≠ utf8 "mem") (paren : w ≠ utf8 "(")
    (other : ∀ b, (Blanks.all.skip c).rest.head? = some b → isDigit b = false) : Stage.begins k n w = none := by
  rw [scanHead next] at unsigned other
  have signs : ¬ (w = utf8 "+" ∨ w = utf8 "-") := by
    rintro (rfl | rfl) <;> revert unsigned <;> decide
  have literal : ¬ isLiteral w = true := by
    cases w with
    | nil => simp [isLiteral]
    | cons b v => simp [isLiteral, other b rfl]
  rw [Stage.begins, if_neg signs, if_neg paren, if_neg (not_or.mpr ⟨mem, literal⟩)]

theorem primaryIdle {inner : Parser Expr} (memory : ∀ d, scan c ≠ some (utf8 "mem", d))
    (group : ∀ d, scan c ≠ some (utf8 "(", d))
    (other : ∀ b, (Blanks.all.skip c).rest.head? = some b → isDigit b = false) : Idle (primary inner) c :=
  ⟨_, firstAtFailed (by simpa using ⟨memIdle memory, intIdle other, parenIdle group⟩)⟩

theorem primaryTraces {inner : Parser Expr} (unsigned : (Blanks.all.skip c).rest.head?.bind Sign.ofByte? = none)
    (inside : ∀ d, d.rest.length < c.rest.length →
      Traces (.operand (k + 1) n) d (.operator (k + 1) n) (fun e => Phrase.expr.Ends e) (inner d)) :
    Traces (.operand k n) c (.operator k n) (fun _ => True) (primary inner c) := by
  by_cases number : ∃ b, (Blanks.all.skip c).rest.head? = some b ∧ isDigit b = true
  · obtain ⟨b, start, digit⟩ := number
    have other : ∀ {w : Bytes}, w.any isDigit = false → ∀ d, scan c ≠ some (w, d) := by
      intro w plain d next
      rw [scanHead next] at start
      simp [List.any_eq_false.mp plain b (List.mem_of_head? start)] at digit
    exact tracesOnly [mem.token] [paren inner] (by simpa using memIdle (other (by decide)))
      (by simpa using parenIdle (other (by decide))) (intTraces start digit)
  · have other : ∀ b, (Blanks.all.skip c).rest.head? = some b → isDigit b = false := fun b start =>
      Bool.eq_false_iff.mpr fun digit => number ⟨b, start, digit⟩
    have noInt : Idle int.token.parse c := intIdle other
    by_cases memory : ∃ d, scan c = some (utf8 "mem", d)
    · obtain ⟨d, next⟩ := memory
      have noParen : Idle (paren inner).parse c := parenIdle (scanOther next (by decide))
      exact tracesOnly [] [int.token, paren inner] (by simp) (by simpa using ⟨noInt, noParen⟩) (memTraces next)
    · have noMem : Idle mem.token.parse c := memIdle (not_exists.mp memory)
      by_cases group : ∃ d, scan c = some (utf8 "(", d)
      · obtain ⟨d, next⟩ := group
        exact tracesOnly [mem.token, int.token] [] (by simpa using ⟨noMem, noInt⟩) (by simp)
          (parenTraces next (inside d (scanShrinks next).1))
      · have idle : Idle (primary inner) c := primaryIdle (not_exists.mp memory) (not_exists.mp group) other
        obtain ⟨r, failed⟩ := idle
        rw [failed]
        refine .failed (stopsHere ⟨fun w d next => ?_, by simp, .before⟩)
        refine beginsNothing next unsigned ?_ ?_ other
        · rintro rfl
          exact memory ⟨d, next⟩
        · rintro rfl
          exact group ⟨d, next⟩

end Primary

/- The parser for what stands in parentheses follows the stages wherever the text is shorter than at `c`. -/
def Within (n : Nat) (c : Cursor) (inner : Parser Expr) : Prop :=
  ∀ k d, d.rest.length < c.rest.length →
    Traces (.operand k n) d (.operator k n) (fun e => Phrase.expr.Ends e) (inner d)

theorem withinLater {n : Nat} {c d : Cursor} {inner : Parser Expr} (h : Within n c inner)
    (less : d.rest.length ≤ c.rest.length) : Within n d inner :=
  fun k e shorter => h k e (Nat.lt_of_lt_of_le shorter less)

section Chains

variable {k n : Nat}

theorem signOther {b : UInt8} {s : Sign} (sign : Sign.ofByte? b = some s) : isWordByte b = false := by
  unfold Sign.ofByte? at sign
  split at sign
  · rename_i plus
    subst plus
    decide
  · split at sign
    · rename_i minus
      subst minus
      decide
    · simp at sign

theorem unaryUpToTraces {inner : Parser Expr} (m : Nat) {c : Cursor} (room : c.rest.length ≤ m) (h : Within n c inner) :
    Traces (.operand k n) c (.operator k n) (fun _ => True) (unaryUpTo inner m c) := by
  induction m using Nat.strongRecOn generalizing c with
  | ind m ih =>
    cases found : (Blanks.all.skip c).rest.head?.bind Sign.ofByte? with
    | none =>
      rw [unaryUnsigned found]
      exact primaryTraces found (h (k + 1))
    | some s =>
      obtain ⟨m', rfl, less, -, here⟩ := @unarySigned inner c s found m room
      obtain ⟨b, start, sign⟩ := Option.bind_eq_some_iff.mp found
      obtain ⟨r, spelled⟩ := List.head?_eq_some_iff.mp start
      have next := scanByte spelled (signOther sign)
      have leads : Leads (.operand k n) c (.operand k n) ((Blanks.all.skip c).advance 1) := by
        rw [← signSpelled sign] at next
        exact leadsToken next (by cases s <;> rfl)
      rw [here]
      have arg := ih m' (Nat.lt_succ_self m') less (withinLater h (leadsShrinks leads))
      exact tracesLater leads (tracesMap (tracesWithin arg _) _)

variable {t : Tier} {arg : Parser Expr}

theorem linkTraces {c : Cursor} {σ τ : Stage} {E : Cursor → Prop} (h : Traces σ c τ E (arg c)) (x : Expr) (o : Oper) :
    Traces σ c τ E (linkOf arg x o c) :=
  tracesBind (tracesWithin h _) fun _ _ _ ends => .done (.here _ _) ends

/- The links of a chain. They end where no operator of the tier follows, and the operands see to the tighter ones. -/
theorem linksTraces (m : Nat) {c : Cursor} {x : Expr} (room : c.rest.length ≤ m) (ends : t.operand.Ends c)
    (args : ∀ d, d.rest.length < c.rest.length →
      Traces (.operand k n) d (.operator k n) (fun e => t.operand.Ends e) (arg d)) :
    Traces (.operator k n) c (.operator k n) (fun e => (Phrase.chain t).Ends e) (linksOf t arg m x c) := by
  induction m using Nat.strongRecOn generalizing c x with
  | ind m ih =>
    by_cases oper : ∃ o ∈ t.ops, (Blanks.all.skip c).rest.head? = some (operByte o)
    · obtain ⟨o, known, start⟩ := oper
      obtain ⟨r, spelled⟩ := List.head?_eq_some_iff.mp start
      have next := scanByte spelled (by cases o <;> decide)
      rw [← operSpelled] at next
      obtain ⟨less, onward, -⟩ := scanShrinks next
      have more : c.rest ≠ [] := by
        rintro none
        simp [none] at less
      obtain ⟨m', rfl⟩ : ∃ m', m = m' + 1 := Nat.exists_eq_succ_of_ne_zero (by omega)
      rw [linksNext more, operDone known (scanToken next)]
      simp only [Nat.ne_of_gt onward, if_false]
      refine tracesLater (leadsToken next ?_) (tracesBind (linkTraces (args _ less) x o) fun y e leads ends' => ?_)
      · cases o <;> rfl
      · have shorter := leadsShrinks leads
        exact ih m' (Nat.lt_succ_self m') (by omega) ends' fun f small => args f (by omega)
    · have stop : (Phrase.links t x).Ends c := by
        intro o level same
        cases t with
        | sum =>
          cases o with
          | add | sub => exact oper ⟨_, by decide, same⟩
          | mul | div => exact ends _ (by decide) same
        | product =>
          cases o with
          | add | sub => simp [Tier.level, Oper.precedence] at level
          | mul | div => exact oper ⟨_, by decide, same⟩
      obtain ⟨r, failed⟩ := operFailed stop
      have done : linksOf t arg m x c = .done x c := by
        by_cases ended : c.rest = []
        · exact linksEnd ended m x
        · obtain ⟨m', rfl⟩ : ∃ m', m = m' + 1 := Nat.exists_eq_succ_of_ne_zero fun zero => by
            subst zero
            exact ended (List.length_eq_zero_iff.mp (Nat.le_zero.mp room))
          rw [linksNext ended, failed]
          simp
      rw [done]
      exact .done (.here _ _) stop

theorem joinedTraces {c : Cursor} (first : Traces (.operand k n) c (.operator k n) (fun e => t.operand.Ends e) (arg c))
    (args : ∀ d, d.rest.length < c.rest.length →
      Traces (.operand k n) d (.operator k n) (fun e => t.operand.Ends e) (arg d)) :
    Traces (.operand k n) c (.operator k n) (fun e => (Phrase.chain t).Ends e) (joined t.ops arg c) := by
  refine tracesBind (tracesWithin first _) fun x d leads ends => ?_
  have less := leadsShrinks leads
  exact linksTraces d.rest.length (Nat.le_refl _) ends fun e shorter => args e (by omega)

end Chains

section Expressions

variable {k n : Nat} {c : Cursor} {inner : Parser Expr}

theorem termTraces (h : Within n c inner) :
    Traces (.operand k n) c (.operator k n) (fun e => Phrase.term.Ends e) (term inner c) :=
  joinedTraces (t := .product) (unaryUpToTraces c.rest.length (Nat.le_refl _) h) fun d less =>
    unaryUpToTraces d.rest.length (Nat.le_refl _) (withinLater h (Nat.le_of_lt less))

theorem exprOverTraces (h : Within n c inner) :
    Traces (.operand k n) c (.operator k n) (fun e => Phrase.expr.Ends e) (exprOver inner c) :=
  joinedTraces (t := .sum) (termTraces h) fun _ less => termTraces (withinLater h (Nat.le_of_lt less))

theorem exprUpToTraces (m : Nat) (room : c.rest.length ≤ m) :
    Traces (.operand k n) c (.operator k n) (fun e => Phrase.expr.Ends e) (exprUpTo m c) := by
  induction m using Nat.strongRecOn generalizing k c with
  | ind m ih =>
    rw [exprUpToOver]
    refine exprOverTraces fun k d less => ?_
    obtain ⟨m', rfl⟩ : ∃ m', m = m' + 1 := Nat.exists_eq_succ_of_ne_zero (by omega)
    exact ih m' (Nat.lt_succ_self m') (by omega)

theorem exprTraces : Traces (.operand k n) c (.operator k n) (fun e => Phrase.expr.Ends e) (expr c) :=
  exprUpToTraces c.rest.length (Nat.le_refl _)

end Expressions

section Statements

variable {n : Nat} {c : Cursor}

theorem semicolonTraces (ends : Phrase.expr.Ends c) (j : Nat) :
    Traces (.operator 0 n) c (.item n) (fun _ => True) ((Named.text ";").token.part j c) := by
  refine closeTraces (b := 0x3b) (by decide) (by decide) (by decide) rfl (fun w plain differs => ?_) ends j
  simp [Stage.read, plain, differs]

theorem printTraces {d : Cursor} (next : scan c = some (utf8 "print", d)) :
    Traces (.item n) c (.item n) (fun _ => True) (printStmt.parse c) := by
  have word : Traces (.item n) c (.operand 0 n) (fun e => e = d) ((Named.word "print").token.part 0 c) := by
    rw [wordScanned (b := 0x70) (by decide) (by decide) next]
    exact .done (leadsToken next rfl) rfl
  refine tracesBind (p := (Named.word "print").token.part 0) word ?_
  rintro _ _ - rfl
  refine tracesBind (tracesWithin exprTraces _) fun x e _ ends => ?_
  exact tracesBind (semicolonTraces ends 2) fun _ f _ _ => .done (.here _ _) trivial

theorem printIdle (absent : ∀ d, scan c ≠ some (utf8 "print", d)) : Idle printStmt.parse c := by
  have word : Idle ((Named.word "print").token.part 0) c :=
    idleWithin ⟨_, tokenFailed (wordIdle (by decide) (by decide) absent)⟩ _
  obtain ⟨r, failed⟩ := word
  exact ⟨r, (bindDone rfl).trans (bindFailed failed)⟩

theorem assignTraces : Traces (.operand 0 n) c (.item n) (fun _ => True) (assignStmt.parse c) := by
  refine tracesBind (p := Named.part ⟨"Expr", expr⟩ 0) (tracesWithin exprTraces _) fun x d _ ends => ?_
  exact tracesBind (semicolonTraces ends 1) fun _ e _ _ => .done (.here _ _) trivial

theorem exprIdle (unsigned : (Blanks.all.skip c).rest.head?.bind Sign.ofByte? = none)
    (idle : ∀ inner, Idle (primary inner) c) : Idle expr c := by
  have argument : ∀ inner, Idle (unary inner) c := by
    intro inner
    obtain ⟨r, failed⟩ := idle inner
    exact ⟨r, (unaryUnsigned unsigned _).trans failed⟩
  have product : ∀ inner, Idle (term inner) c := fun inner => idleBind (idleWithin (argument inner) _) _
  obtain ⟨r, failed⟩ := idleBind (idleWithin (product (innerUpTo c.rest.length)) "first arg") _
  exact ⟨r, (exprUpToOver _ _).trans failed⟩

theorem assignIdle (idle : Idle expr c) : Idle assignStmt.parse c := by
  obtain ⟨r, failed⟩ := idleWithin idle ("Expr" ++ " (" ++ toString 0 ++ ")")
  exact ⟨r, (bindDone rfl).trans (bindFailed failed)⟩

theorem itemDigit {b : UInt8} {w : Bytes} (digit : isDigit b = true) :
    (Stage.item n).read (b :: w) = Stage.begins 0 n (b :: w) := by
  have other : ∀ {v : Bytes}, v.any isDigit = false → b :: w ≠ v := fun plain => digitDiffers digit plain w
  rw [Stage.read, if_neg (other (by decide)), if_neg (other (by decide)), if_neg (other (by decide))]

/- Where a statement stands, what is no brace and not the word for printing starts an expression. -/
theorem operandItem {α : Type} {w : Bytes} {d : Cursor} {τ : Stage} {E : Cursor → Prop} {o : Outcome α}
    (next : scan c = some (w, d)) (same : (Stage.item n).read w = (Stage.operand 0 n).read w) (moved : τ ≠ .operand 0 n)
    (h : Traces (.operand 0 n) c τ E o) : Traces (.item n) c τ E o := by
  have first : ∀ {ρ υ : Stage} {e f : Cursor} {v : Bytes}, scan c = some (v, e) → (Stage.operand 0 n).read v = some ρ →
      Leads ρ e υ f → Leads (.item n) c υ f := by
    intro ρ υ e f v found read more
    rw [next] at found
    cases found
    exact .token next (same.trans read) more
  cases h with
  | done leads ends =>
    cases leads with
    | here => exact absurd rfl moved
    | token found read more => exact .done (first found read more) ends
  | failed stops =>
    obtain ⟨υ, e, leads, halts⟩ := stops
    cases leads with
    | token found read more => exact .failed ⟨υ, e, first found read more, halts⟩
    | here =>
      refine .failed (stopsHere ⟨fun v e found => ?_, fun none => by simp [next] at none, ?_⟩)
      · have stuck := halts.stuck v e found
        rw [next] at found
        cases found
        exact same.trans stuck
      · cases halts.spot with
        | before => exact .before
        | ahead => exact .ahead
        | digits found run all large read =>
          refine .digits found run all large fun literal => ⟨.operator 0 n, ?_⟩
          obtain ⟨b, ds, rfl⟩ := List.exists_cons_of_ne_nil run
          have digit := all b (by simp)
          rw [itemDigit digit, beginsDigit digit, if_pos literal]

theorem stmtTraces {w : Bytes} {d : Cursor} (next : scan c = some (w, d)) (left : w ≠ [openBrace])
    (right : w ≠ [closeBrace]) : Traces (.item n) c (.item n) (fun _ => True) (stmt c) := by
  by_cases print : w = utf8 "print"
  · subst print
    have unsigned : (Blanks.all.skip c).rest.head?.bind Sign.ofByte? = none := by
      rw [scanHead next]
      decide
    have other : ∀ b, (Blanks.all.skip c).rest.head? = some b → isDigit b = false := by
      intro b start
      rw [scanHead next] at start
      have letters : (utf8 "print").any isDigit = false := by decide
      simpa using List.any_eq_false.mp letters b (List.mem_of_head? start)
    have idle := assignIdle (exprIdle unsigned fun inner =>
      primaryIdle (scanOther next (by decide)) (scanOther next (by decide)) other)
    exact tracesOnly [] [assignStmt] (by simp) (by simpa using idle) (printTraces next)
  · have same : (Stage.item n).read w = (Stage.operand 0 n).read w := by
      rw [Stage.read, if_neg left, if_neg right, if_neg print]
      rfl
    exact tracesOnly [printStmt] [] (by simpa using printIdle (scanOther next print)) (by simp)
      (operandItem next same (by simp) assignTraces)

/- Statements and blocks. Reading them is done when the text is, or at a brace that closes no block. -/
theorem itemsTraces (m : Nat) {outer : List (List Stmt)} {inner : List Stmt} (room : c.rest.length ≤ m) :
    Traces (.item outer.length) c (.item 0) (fun d => ∀ w e, scan d = some (w, e) → w = [closeBrace])
      (items m outer inner c) := by
  induction m using Nat.strongRecOn generalizing c outer inner with
  | ind m ih =>
    cases start : (Blanks.all.skip c).rest.head? with
    | none =>
      have ended : scan c = none := scanEnd.mpr (List.head?_eq_none_iff.mp start)
      rw [itemsEnded start]
      cases outer with
      | nil => exact .done (.here _ _) fun w e found => by simp [ended] at found
      | cons around outer => exact .failed (stopsHere ⟨endStuck ended, by simp, .ahead⟩)
    | some b =>
      obtain ⟨r, spelled⟩ := List.head?_eq_some_iff.mp start
      have long := skipShrinks c
      rw [spelled, List.length_cons] at long
      obtain ⟨m', rfl⟩ : ∃ m', m = m' + 1 := Nat.exists_eq_succ_of_ne_zero (by omega)
      have shorter : ((Blanks.all.skip c).advance 1).rest.length ≤ m' := by
        simp only [Cursor.advance, spelled, List.drop_succ_cons, List.drop_zero]
        omega
      rw [items]
      simp only [start]
      split
      · rename_i brace
        subst brace
        have rest := @ih m' (Nat.lt_succ_self m') _ (inner :: outer) [] shorter
        exact tracesLater (leadsToken (scanByte spelled (by decide)) rfl) rest
      · rename_i left
        split
        · rename_i brace
          subst brace
          have next := scanByte spelled (by decide)
          cases outer with
          | nil =>
            refine .done (.here _ _) fun w e found => ?_
            rw [next] at found
            cases found
            rfl
          | cons around outer => exact tracesLater (leadsToken next rfl) (ih m' (Nat.lt_succ_self m') shorter)
        · rename_i right
          obtain ⟨w, d, next⟩ : ∃ w d, scan c = some (w, d) := by
            cases found : scan c with
            | none => simp [scanEnd.mp found] at spelled
            | some p => exact ⟨p.1, p.2, rfl⟩
          have lead := scanHead next
          rw [start] at lead
          have first : Traces (.item outer.length) c (.item outer.length) (fun _ => True) (stmt c) :=
            stmtTraces next (fun same => left (by simpa [same] using lead)) fun same => right (by simpa [same] using lead)
          have sound := stmtMeets c
          generalize stmt c = o at first sound
          cases first with
          | failed stops => exact .failed stops
          | done leads _ =>
            have less := stmtShrinks sound
            exact tracesLater leads (ih m' (Nat.lt_succ_self m') (by omega))

end Statements

end Rule

end Abacus.Parsing
