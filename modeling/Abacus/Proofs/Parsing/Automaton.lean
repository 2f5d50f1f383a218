import Abacus.Proofs.Parsing.Translation

/-! The language read from left to right, one word or sign at a time. What can follow depends only on what is expected next
and on how many parentheses and blocks are open, so at every place it is known which texts can still become programs. -/
namespace Abacus.Parsing

def lexeme : Bytes → Bytes
  | [] => []
  | b :: rest => if isWordByte b then b :: rest.takeWhile isWordByte else [b]

def scan (c : Cursor) : Option (Bytes × Cursor) :=
  let next := Blanks.all.skip c
  if next.rest = [] then none else some (lexeme next.rest, next.advance (lexeme next.rest).length)

def Continues (t rest : Bytes) : Prop := ∀ b, t.head? = some b → isWordByte b = true → rest.head? = some b

theorem lineContinues {s : Bytes} (line : s.head? = some newline) (rest : Bytes) : Continues s rest := by
  intro b next word
  rw [line] at next
  cases next
  simp [newline, isWordByte, isDigit] at word

section Lexemes

theorem lexemeSome {bs : Bytes} (some : bs ≠ []) : lexeme bs ≠ [] := by
  cases bs with
  | nil => exact absurd rfl some
  | cons b rest =>
    rw [lexeme]
    split <;> simp

theorem lexemeSpells (c : Cursor) : Spells (lexeme c.rest) c (c.advance (lexeme c.rest).length) := by
  apply spellsOfPrefix
  cases c.rest with
  | nil => exact List.nil_prefix
  | cons b rest =>
    rw [lexeme]
    split
    · exact List.cons_prefix_cons.mpr ⟨rfl, List.takeWhile_prefix _⟩
    · exact List.cons_prefix_cons.mpr ⟨rfl, List.nil_prefix⟩

theorem wordRun {w t : Bytes} : (w ++ t).takeWhile isWordByte = w ↔
    (∀ b ∈ w, isWordByte b = true) ∧ ∀ b, t.head? = some b → isWordByte b = false := by
  constructor
  · intro same
    have all : ∀ b ∈ w, isWordByte b = true := by
      rw [← same]
      exact List.all_eq_true.mp List.all_takeWhile
    rw [List.takeWhile_append_of_pos all] at same
    have stop : t.takeWhile isWordByte = [] := List.append_right_eq_self.mp same
    refine ⟨all, fun b next => ?_⟩
    cases t with
    | nil => simp at next
    | cons a t =>
      cases next
      rw [List.takeWhile_cons] at stop
      split at stop
      · simp at stop
      · rename_i other
        simpa using other
  · rintro ⟨all, ends⟩
    have stop : t.takeWhile isWordByte = [] := by
      cases t with
      | nil => rfl
      | cons b t => simp [ends b rfl]
    rw [List.takeWhile_append_of_pos all, stop, List.append_nil]

theorem lexemeTail {w rest t : Bytes} (some : w ≠ []) (whole : lexeme (w ++ rest) = w) (continues : Continues t rest) :
    lexeme (w ++ t) = w := by
  obtain ⟨b, w, rfl⟩ := List.exists_cons_of_ne_nil some
  rw [List.cons_append, lexeme] at whole ⊢
  by_cases word : isWordByte b = true
  · rw [if_pos word, List.cons.injEq, wordRun] at whole
    rw [if_pos word, List.cons.injEq, wordRun]
    refine ⟨rfl, whole.2.1, fun x next => ?_⟩
    rw [← Bool.not_eq_true]
    intro goes
    have other := whole.2.2 x (continues x next goes)
    simp [goes] at other
  · rw [if_neg word] at whole ⊢
    exact whole

end Lexemes

/-! ### Replacing what follows -/

section Tails

theorem skipFromOnward (s : Blanks) (inside : Bool) (p : Nat) (rest : Bytes) : p ≤ (s.skipFrom inside p rest).pos := by
  obtain ⟨n, -, same⟩ := s.skipFromAdvances inside p rest
  rw [same]
  exact Nat.le_add_right p n

theorem skipFromThrough (s : Blanks) (g r : Bytes) {inside : Bool} {p : Nat}
    (h : s.skipFrom inside p (g ++ r) = ⟨p + g.length, r⟩) :
    ∃ still, s.skipFrom still (p + g.length) r = ⟨p + g.length, r⟩ ∧
      ∀ t, s.skipFrom inside p (g ++ t) = s.skipFrom still (p + g.length) t := by
  induction g generalizing inside p with
  | nil => exact ⟨inside, h, fun t => rfl⟩
  | cons b g ih =>
    have shift : p + (b :: g).length = p + 1 + g.length := by
      rw [List.length_cons]
      omega
    rw [List.cons_append, Blanks.skipFrom, shift] at h
    simp only [List.cons_append, Blanks.skipFrom, shift]
    by_cases comment : (inside && b != newline) = true
    · simp only [comment, if_true] at h ⊢
      exact ih h
    · simp only [comment, Bool.false_eq_true, if_false] at h ⊢
      by_cases blank : s.contains b = true
      · simp only [blank, if_true] at h ⊢
        exact ih h
      · simp only [blank, Bool.false_eq_true, if_false] at h
        have moved := congrArg Cursor.pos h
        dsimp only at moved
        omega

variable {c : Cursor} {g : Bytes} (gap : Spells g c (Blanks.all.skip c))
include gap

theorem skipThrough : ∃ still,
    Blanks.all.skipFrom still (Blanks.all.skip c).pos (Blanks.all.skip c).rest = Blanks.all.skip c ∧
    ∀ t, Blanks.all.skip ⟨c.pos, g ++ t⟩ = Blanks.all.skipFrom still (Blanks.all.skip c).pos t := by
  have here : Blanks.all.skipFrom false c.pos (g ++ (Blanks.all.skip c).rest) =
      ⟨c.pos + g.length, (Blanks.all.skip c).rest⟩ := by
    rw [← gap.1, ← gap.2]
    rfl
  rw [gap.2]
  obtain ⟨still, stays, through⟩ := skipFromThrough Blanks.all g (Blanks.all.skip c).rest here
  refine ⟨still, ?_, through⟩
  rw [stays, ← gap.2]

theorem skipByte {b : UInt8} {r : Bytes} (next : (Blanks.all.skip c).rest = b :: r) (t : Bytes) :
    Blanks.all.skip ⟨c.pos, g ++ b :: t⟩ = ⟨(Blanks.all.skip c).pos, b :: t⟩ := by
  obtain ⟨still, stays, through⟩ := skipThrough gap
  rw [through, Blanks.skipFrom]
  rw [next, Blanks.skipFrom] at stays
  split at stays
  · have onward := skipFromOnward Blanks.all true ((Blanks.all.skip c).pos + 1) r
    rw [stays] at onward
    omega
  · rename_i comment
    split at stays
    · have onward := skipFromOnward Blanks.all (b == Blanks.commentSign) ((Blanks.all.skip c).pos + 1) r
      rw [stays] at onward
      omega
    · rename_i blank
      rw [if_neg comment, if_neg blank]

theorem skipLine {t : Bytes} (line : t.head? = some newline) :
    Blanks.all.skip ⟨c.pos, g ++ t⟩ = Blanks.all.skip ⟨(Blanks.all.skip c).pos, t⟩ := by
  obtain ⟨still, -, through⟩ := skipThrough gap
  obtain ⟨t, rfl⟩ := List.head?_eq_some_iff.mp line
  rw [through]
  simp [Blanks.skip, Blanks.skipFrom]

end Tails

theorem scanEnd {c : Cursor} : scan c = none ↔ (Blanks.all.skip c).rest = [] := by
  simp [scan]

theorem scanFound {c d : Cursor} {w : Bytes} : scan c = some (w, d) ↔
    w ≠ [] ∧ w = lexeme (Blanks.all.skip c).rest ∧ d = (Blanks.all.skip c).advance w.length := by
  unfold scan
  dsimp only
  split
  · rename_i ended
    rw [ended]
    refine ⟨fun none => by simp at none, fun found => absurd found.2.1 found.1⟩
  · rename_i more
    constructor
    · intro found
      cases found
      exact ⟨lexemeSome more, rfl, rfl⟩
    · rintro ⟨-, rfl, rfl⟩
      rfl

theorem scanSame {c c' : Cursor} (same : Blanks.all.skip c = Blanks.all.skip c') : scan c = scan c' := by
  unfold scan
  rw [same]

theorem scanSpells {c d : Cursor} {w : Bytes} (next : scan c = some (w, d)) : Spells w (Blanks.all.skip c) d := by
  obtain ⟨-, rfl, rfl⟩ := scanFound.mp next
  exact lexemeSpells _

theorem scanShrinks {c d : Cursor} {w : Bytes} (next : scan c = some (w, d)) :
    d.rest.length < c.rest.length ∧ c.pos < d.pos ∧ d.finish = c.finish := by
  have spelled := scanSpells next
  have size := spellsLength spelled
  have moved := spelled.2
  have long := List.length_pos_iff.mpr (scanFound.mp next).1
  obtain ⟨onward, finish⟩ := skipOnward c
  simp only [Cursor.finish] at finish ⊢
  omega

theorem scanReplaced {c : Cursor} {b : UInt8} {r g v t : Bytes} (gap : Spells g c (Blanks.all.skip c))
    (start : (Blanks.all.skip c).rest = b :: r) (whole : lexeme (b :: v ++ t) = b :: v) :
    scan ⟨c.pos, g ++ (b :: v ++ t)⟩ = some (b :: v, ⟨(Blanks.all.skip c).pos + (b :: v).length, t⟩) := by
  have skipped := skipByte gap start (v ++ t)
  rw [← List.cons_append] at skipped
  refine scanFound.mpr ⟨by simp, by rw [skipped, whole], ?_⟩
  rw [skipped]
  simp [Cursor.advance]

theorem scanTail {c d : Cursor} {w g t : Bytes} (next : scan c = some (w, d)) (gap : Spells g c (Blanks.all.skip c))
    (continues : Continues t d.rest) : scan ⟨c.pos, g ++ (w ++ t)⟩ = some (w, ⟨d.pos, t⟩) := by
  obtain ⟨some, whole, -⟩ := scanFound.mp next
  have spelled := scanSpells next
  rw [spelled.1] at whole
  have stays := lexemeTail some whole.symm continues
  obtain ⟨b, v, rfl⟩ := List.exists_cons_of_ne_nil some
  rw [spelled.2]
  exact scanReplaced gap spelled.1 stays

/-! ### What can follow -/

def isOper (w : Bytes) : Bool := [Oper.add, .sub, .mul, .div].any fun o => w = utf8 o.symbol

def isLiteral (w : Bytes) : Bool := !w.isEmpty && w.all isDigit && digitsValue w < literalBound

inductive Stage where
  | item (blocks : Nat)
  | operand (parens blocks : Nat)
  | operator (parens blocks : Nat)
  deriving DecidableEq

namespace Stage

def begins (k n : Nat) (w : Bytes) : Option Stage :=
  if w = utf8 "+" ∨ w = utf8 "-" then some (.operand k n)
  else if w = utf8 "(" then some (.operand (k + 1) n)
  else if w = utf8 "mem" ∨ isLiteral w then some (.operator k n)
  else none

def read : Stage → Bytes → Option Stage
  | .item n, w =>
    if w = [openBrace] then some (.item (n + 1))
    else if w = [closeBrace] then if n = 0 then none else some (.item (n - 1))
    else if w = utf8 "print" then some (.operand 0 n)
    else begins 0 n w
  | .operand k n, w => begins k n w
  | .operator k n, w =>
    if isOper w then some (.operand k n)
    else if w = utf8 ")" then if k = 0 then none else some (.operator (k - 1) n)
    else if w = utf8 ";" ∧ k = 0 then some (.item n)
    else none

end Stage

inductive Leads : Stage → Cursor → Stage → Cursor → Prop
  | here (σ : Stage) (c : Cursor) : Leads σ c σ c
  | token {σ ρ τ : Stage} {c d e : Cursor} {w : Bytes} (next : scan c = some (w, d)) (read : σ.read w = some ρ)
    (more : Leads ρ d τ e) : Leads σ c τ e

def Stuck (σ : Stage) (c : Cursor) : Prop := ∀ w d, scan c = some (w, d) → σ.read w = none

section Leads

variable {σ ρ τ : Stage} {c d e : Cursor}

theorem leadsToken {w : Bytes} (next : scan c = some (w, d)) (read : σ.read w = some τ) : Leads σ c τ d :=
  .token next read (.here τ d)

theorem leadsTrans (first : Leads σ c ρ d) (second : Leads ρ d τ e) : Leads σ c τ e := by
  induction first with
  | here σ c => exact second
  | token next read more ih => exact .token next read (ih second)

theorem leadsShrinks (h : Leads σ c τ d) : d.rest.length ≤ c.rest.length := by
  induction h with
  | here σ c => exact Nat.le_refl _
  | token next read more ih =>
    have less := (scanShrinks next).1
    omega

theorem leadsUnique {τ' : Stage} {d' : Cursor} (h : Leads σ c τ d) (h' : Leads σ c τ' d') (stuck : Stuck τ d)
    (stuck' : Stuck τ' d') : τ = τ' ∧ d = d' := by
  induction h with
  | here σ c =>
    cases h' with
    | here => exact ⟨rfl, rfl⟩
    | token next read more => simp [stuck _ _ next] at read
  | token next read more ih =>
    cases h' with
    | here => simp [stuck' _ _ next] at read
    | token next' read' more' =>
      rw [next] at next'
      cases next'
      rw [read] at read'
      cases read'
      exact ih more' stuck

theorem leadsTail (h : Leads σ c τ d) : ∃ u, Spells u c d ∧
    ∀ t, Continues t d.rest → Leads σ ⟨c.pos, u ++ t⟩ τ ⟨d.pos, t⟩ := by
  induction h with
  | here σ c => exact ⟨[], ⟨rfl, rfl⟩, fun t _ => .here σ _⟩
  | @token σ ρ τ c d e w next read more ih =>
    obtain ⟨u, spelled, replaced⟩ := ih
    obtain ⟨g, gap⟩ := gapSpells (gapSkip c)
    refine ⟨g ++ (w ++ u), spellsAppend gap (spellsAppend (scanSpells next) spelled), fun t continues => ?_⟩
    -- Only where nothing more was read does the new text follow at once.
    have tail : Continues (u ++ t) d.rest := by
      rw [spelled.1]
      cases u with
      | nil => exact continues
      | cons b u => exact fun x next _ => next
    rw [List.append_assoc, List.append_assoc]
    exact .token (scanTail next gap tail) read (replaced t continues)

end Leads

def Concludes (σ : Stage) (c : Cursor) : Prop := ∃ d, Leads σ c (.item 0) d ∧ scan d = none

theorem endStuck {σ : Stage} {c : Cursor} (ended : scan c = none) : Stuck σ c := by
  intro w d next
  simp [ended] at next

theorem concludesLater {σ τ : Stage} {c d : Cursor} (leads : Leads σ c τ d) (h : Concludes τ d) : Concludes σ c := by
  obtain ⟨e, more, ended⟩ := h
  exact ⟨e, leadsTrans leads more, ended⟩

theorem concludesSame {σ : Stage} {c c' : Cursor} (same : scan c = scan c') (h : Concludes σ c) : Concludes σ c' := by
  obtain ⟨d, leads, ended⟩ := h
  cases leads with
  | here => exact ⟨c', .here _ _, same ▸ ended⟩
  | token next read more => exact ⟨d, .token (same ▸ next) read more, ended⟩

def Completable (σ : Stage) : Prop :=
  ∃ s, s.head? = some newline ∧ s.getLast? = some newline ∧ ∀ p, Concludes σ ⟨p, s⟩

theorem lineScan {w s : Bytes} (solid : Solid w) (whole : lexeme w = w) (line : s.head? = some newline) (p : Nat) :
    scan ⟨p, newline :: (w ++ s)⟩ = some (w, ⟨p + 1 + w.length, s⟩) := by
  have some : w ≠ [] := by
    rintro rfl
    simp [Solid] at solid
  have gap : Token w ⟨p, newline :: (w ++ s)⟩ ⟨p + 1, w ++ s⟩ ⟨p + 1 + w.length, s⟩ :=
    ⟨.space (.inr (.inr (.inr rfl))) ⟨rfl, rfl⟩ (.none _), rfl, rfl⟩
  have skipped := tokenSkip gap solid
  have alone : lexeme (w ++ []) = w := by rw [List.append_nil, whole]
  have stays := lexemeTail some alone (lineContinues line [])
  refine scanFound.mpr ⟨some, by rw [skipped, stays], ?_⟩
  rw [skipped]
  simp [Cursor.advance]

theorem completableToken {σ τ : Stage} {w : Bytes} (solid : Solid w) (whole : lexeme w = w) (read : σ.read w = some τ)
    (h : Completable τ) : Completable σ := by
  obtain ⟨s, line, last, concludes⟩ := h
  refine ⟨newline :: (w ++ s), rfl, ?_, fun p => ?_⟩
  · rw [← List.cons_append, List.getLast?_append, last]
    rfl
  obtain ⟨d, leads, ended⟩ := concludes (p + 1 + w.length)
  exact ⟨d, .token (lineScan solid whole line p) read leads, ended⟩

theorem itemCompletable (n : Nat) : Completable (.item n) := by
  induction n with
  | zero => exact ⟨[newline], rfl, rfl, fun p => ⟨_, .here _ _, rfl⟩⟩
  | succ n ih => exact completableToken (w := [closeBrace]) (by decide) (by decide) rfl ih

theorem operatorCompletable (k n : Nat) : Completable (.operator k n) := by
  induction k with
  | zero => exact completableToken (w := utf8 ";") (by decide) (by decide) rfl (itemCompletable n)
  | succ k ih => exact completableToken (w := utf8 ")") (by decide) (by decide) rfl ih

theorem stageCompletable (σ : Stage) : Completable σ := by
  cases σ with
  | item n => exact itemCompletable n
  | operator k n => exact operatorCompletable k n
  | operand k n => exact completableToken (w := utf8 "0") (by decide) (by decide) rfl (operatorCompletable k n)

/-! ### Where reading stops -/

inductive Spot (σ : Stage) (c : Cursor) : Nat → Prop
  | before : Spot σ c c.pos
  | ahead : Spot σ c (Blanks.all.skip c).pos
  | digits {ds more : Bytes} {d : Cursor} (next : scan c = some (ds ++ more, d)) (run : ds ≠ [])
    (all : ∀ b ∈ ds, isDigit b = true) (large : more = [] → literalBound ≤ digitsValue ds)
    (read : isLiteral ds = true → ∃ τ, σ.read ds = some τ) : Spot σ c ((Blanks.all.skip c).pos + ds.length)

structure Halts (σ : Stage) (c : Cursor) (i : Nat) : Prop where
  stuck : Stuck σ c
  unfinished : scan c = none → σ ≠ .item 0
  spot : Spot σ c i

def Stops (σ : Stage) (c : Cursor) (i : Nat) : Prop := ∃ τ d, Leads σ c τ d ∧ Halts τ d i

theorem stopsLater {σ τ : Stage} {c d : Cursor} {i : Nat} (leads : Leads σ c τ d) (stops : Stops τ d i) :
    Stops σ c i := by
  obtain ⟨υ, e, more, halts⟩ := stops
  exact ⟨υ, e, leadsTrans leads more, halts⟩

theorem concludesThrough {σ : Stage} {c : Cursor} {i : Nat} (concludes : Concludes σ c) : ¬ Stops σ c i := by
  rintro ⟨τ, d, leads, halts⟩
  obtain ⟨e, through, ended⟩ := concludes
  obtain ⟨rfl, rfl⟩ := leadsUnique leads through halts.stuck (endStuck ended)
  exact halts.unfinished ended rfl

theorem stopsHere {σ : Stage} {c : Cursor} {i : Nat} (halts : Halts σ c i) : Stops σ c i := ⟨σ, c, .here σ c, halts⟩

end Abacus.Parsing
