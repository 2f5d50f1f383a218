import Abacus.Proofs.Agreement
import Abacus.Proofs.Canonical.RoundTrip
import Abacus.Proofs.Parsing.Sequence

/-! Several sources are read as their programs one after another. Nothing that is read in a source depends on what comes
after it, as it is closed by a newline, or on what comes before it but for the positions. -/
namespace Abacus.Parsing

theorem spellsFinish {w : Bytes} {c d : Cursor} (h : Spells w c d) : d.finish = c.finish := by
  have size := spellsLength h
  have moved := h.2
  simp only [Cursor.finish]
  omega

theorem gapFinish {c d : Cursor} (h : Gap c d) : d.finish = c.finish := by
  obtain ⟨w, spelled⟩ := gapSpells h
  exact spellsFinish spelled

theorem tokenFinish {w : Bytes} {c d e : Cursor} (h : Token w c d e) : e.finish = c.finish :=
  (spellsFinish h.spelled).trans (gapFinish h.gap)

theorem stmtFinish {c d : Cursor} {s : Stmt} (h : DerivesStmt c d s) : d.finish = c.finish := by
  have read := Rule.stmtTracks (alignedShift 0 c)
  rw [Rule.stmtDone h] at read
  generalize Rule.stmt (c.shift 0) = o at read
  cases read with
  | past moves =>
    cases moves with
    | done same onward inside => exact inside.trans (skipOnward c).2

theorem itemsFinish {c d : Cursor} {l : List Stmt} (h : DerivesItems c d l) : d.finish = c.finish := by
  induction h with
  | none c => rfl
  | stmt first more ih => exact ih.trans (stmtFinish first)
  | block left body right more bodyIH moreIH =>
    exact moreIH.trans ((tokenFinish right).trans (bodyIH.trans (tokenFinish left)))

def Reads (c e : Cursor) (l : List Stmt) : Prop := ∃ d, DerivesItems c d l ∧ Gap d e

theorem readsFinish {c e : Cursor} {l : List Stmt} (h : Reads c e l) : e.finish = c.finish := by
  obtain ⟨d, items, gap⟩ := h
  exact (gapFinish gap).trans (itemsFinish items)

theorem itemsAfterGap {c d e : Cursor} {l : List Stmt} (gap : Gap c d) (h : DerivesItems d e l) : Reads c e l := by
  cases h with
  | none => exact ⟨c, .none c, gap⟩
  | stmt first more => exact ⟨e, .stmt (stmtAfterGap gap first) more, .none e⟩
  | block left body right more => exact ⟨e, .block (tokenAfterGap gap left) body right more, .none e⟩

theorem itemsAppend {c d e : Cursor} {l m : List Stmt} (h : DerivesItems c d l) (more : Reads d e m) :
    Reads c e (l ++ m) := by
  induction h with
  | none c => exact more
  | stmt first rest ih =>
    obtain ⟨f, items, gap⟩ := ih more
    exact ⟨f, .stmt first items, gap⟩
  | block left body right rest bodyIH restIH =>
    obtain ⟨f, items, gap⟩ := restIH more
    rw [List.append_assoc]
    exact ⟨f, .block left body right items, gap⟩

theorem readsAppend {c d e : Cursor} {l m : List Stmt} (h : Reads c d l) (more : Reads d e m) : Reads c e (l ++ m) := by
  obtain ⟨f, items, gap⟩ := h
  obtain ⟨g, items', gap'⟩ := more
  obtain ⟨f', later, gap''⟩ := itemsAfterGap gap items'
  exact itemsAppend items ⟨f', later, gapTrans gap'' gap'⟩

theorem readsDone {c e : Cursor} {l : List Stmt} (h : Reads c e l) (ended : e.rest = []) :
    ∃ d, Rule.items c.rest.length [] [] c = .done l d ∧ Gap d e := by
  obtain ⟨d, items, gap⟩ := h
  obtain ⟨m, -, read⟩ := Rule.itemsAccepted items [] [] c.rest.length (Nat.le_refl _)
  rw [Rule.itemsAtEnd gap ended] at read
  exact ⟨d, read, gap⟩

theorem skipEnded {c : Cursor} (ended : c.rest = []) : Blanks.all.skip c = c := by
  obtain ⟨pos, rest⟩ := c
  subst ended
  rfl

theorem readsShift {c e : Cursor} {l : List Stmt} (h : Reads c e l) (ended : e.rest = []) (k : Nat) :
    Reads (c.shift k) (e.shift k) (l.map (Stmt.shift k)) := by
  obtain ⟨d, here, gap⟩ := readsDone h ended
  have run : Rule.Parallel k [] c (c.shift k) 0 (Rule.items c.rest.length [] [] c)
      (Rule.items c.rest.length [] [] (c.shift k)) :=
    Rule.itemsParallel _ _ (.top []) (alignedShift k c) (Nat.le_refl _) (Nat.le_refl _)
  have meets := Rule.itemsMeets c.rest.length [] [] (c.shift k)
  rw [here] at run
  generalize Rule.items c.rest.length [] [] (c.shift k) = there at run meets
  cases run with
  | @done l d d' aligned =>
    obtain ⟨more, items, same⟩ := meets
    have after := gapSkip d'
    rw [aligned, skipGap gap, skipEnded ended] at after
    rw [List.nil_append] at same
    rw [same, List.nil_append]
    exact ⟨d', items, after⟩

theorem itemsNothing {c d : Cursor} {l : List Stmt} (h : DerivesItems c d l) (ended : c.rest = []) : l = [] ∧ d = c := by
  cases h with
  | none => exact ⟨rfl, rfl⟩
  | stmt first more =>
    have less := Rule.stmtShrinks first
    rw [ended] at less
    exact absurd less (Nat.not_lt_zero _)
  | block left body right more =>
    have less := (tokenShrinks left (by decide)).1
    rw [ended] at less
    exact absurd less (Nat.not_lt_zero _)

def Lined (text : Bytes) : Prop := text = [] ∨ ∃ u, text = u ++ [newline]

theorem closedLined (s : Source) : Lined s.closed := by
  unfold Source.closed
  split
  · rename_i whole
    cases last : s.text.getLast? with
    | none => exact .inl (List.getLast?_eq_none_iff.mp last)
    | some b =>
      rw [last] at whole
      obtain ⟨u, same⟩ := List.getLast?_eq_some_iff.mp last
      have line : b = newline := by simpa using whole
      exact .inr ⟨u, line ▸ same⟩
  · exact .inr ⟨s.text, rfl⟩

theorem itemsFollowed {text : Bytes} (lined : Lined text) {base stop : Nat} {d : Cursor} {l : List Stmt}
    (items : DerivesItems ⟨base, text⟩ d l) (gap : Gap d ⟨stop, []⟩) (t : Bytes) :
    ∃ e, DerivesItems ⟨base, text ++ t⟩ e l ∧ Gap e ⟨base + text.length, t⟩ ∧ e.pos = d.pos := by
  rcases lined with rfl | ⟨u, rfl⟩
  · obtain ⟨rfl, rfl⟩ := itemsNothing items rfl
    exact ⟨_, .none _, .none _, rfl⟩
  · obtain ⟨d', rfl, items'⟩ := itemsRetract (c := ⟨base, u⟩) items
    rcases gapRetract gap with ⟨e', closed, _⟩ | ⟨_, e', ended, gap'⟩
    · simp [Cursor.close, Cursor.extend] at closed
    · have line : (newline :: t).head? = some newline := rfl
      have finish := readsFinish ⟨d', items', gap'⟩
      simp only [Cursor.finish, ended, List.length_nil] at finish
      have last : Gap (e'.extend (newline :: t)) ⟨base + (u ++ [newline]).length, t⟩ := by
        refine .space (.inr (.inr (.inr rfl))) ⟨by simp [Cursor.extend, ended], ?_⟩ (.none _)
        simp only [Cursor.extend, List.length_append, List.length_singleton]
        omega
      have longer := itemsExtend line items'
      simp only [Cursor.extend] at longer
      rw [List.append_assoc, List.singleton_append]
      exact ⟨_, longer, gapTrans (gapExtend line gap') last, rfl⟩

end Abacus.Parsing

namespace Abacus
open Parsing

theorem parseReads (srcs : List Source) (l : List Stmt) :
    (∃ p, parse srcs = .ok p ∧ p.stmts = l) ↔ Reads ⟨0, buffer srcs⟩ ⟨(buffer srcs).length, []⟩ l := by
  constructor
  · rintro ⟨p, ok, rfl⟩
    obtain ⟨c, d, items, gap, ended, -⟩ := (parseExact srcs p).mp ok
    have finish := readsFinish ⟨c, items, gap⟩
    simp only [Cursor.finish, ended, List.length_nil, Nat.zero_add, Nat.add_zero] at finish
    obtain ⟨pos, rest⟩ := d
    simp only at finish ended
    subst finish ended
    exact ⟨c, items, gap⟩
  · rintro ⟨c, items, gap⟩
    exact ⟨⟨⟨_, _⟩, l⟩, (parseExact srcs _).mpr ⟨c, _, items, gap, rfl, rfl⟩, rfl⟩

def assembled (base : Nat) : List (Source × Program) → List Stmt
  | [] => []
  | (s, p) :: parts => p.stmts.map (Stmt.shift base) ++ assembled (base + s.closed.length) parts

theorem bufferCons (s : Source) (srcs : List Source) : buffer (s :: srcs) = s.closed ++ buffer srcs := rfl

theorem sourcesRead {parts : List (Source × Program)} (alone : ∀ part ∈ parts, part.1.parse = .ok part.2) (base : Nat)
    (t : Bytes) :
    Reads ⟨base, buffer (parts.map Prod.fst) ++ t⟩ ⟨base + (buffer (parts.map Prod.fst)).length, t⟩
      (assembled base parts) := by
  induction parts generalizing base with
  | nil => exact ⟨_, .none _, .none _⟩
  | cons part parts ih =>
    obtain ⟨s, p⟩ := part
    have own := (parseReads [s] p.stmts).mp ⟨p, sourceParses.mp (alone (s, p) (by simp)), rfl⟩
    rw [bufferOne] at own
    have moved := readsShift own rfl base
    simp only [Cursor.shift, Nat.zero_add] at moved
    obtain ⟨c, items, gap⟩ := moved
    obtain ⟨d, first, gap', -⟩ := itemsFollowed (closedLined s) items gap (buffer (parts.map Prod.fst) ++ t)
    have rest := ih (fun part member => alone part (by simp [member])) (base + s.closed.length)
    rw [List.map_cons, bufferCons, List.append_assoc, List.length_append, ← Nat.add_assoc]
    exact readsAppend ⟨d, first, gap'⟩ rest

theorem sourcesParse {parts : List (Source × Program)} (alone : ∀ part ∈ parts, part.1.parse = .ok part.2) :
    ∃ p, parse (parts.map Prod.fst) = .ok p ∧ p.stmts = assembled 0 parts := by
  have read := sourcesRead alone 0 []
  rw [List.append_nil, Nat.zero_add] at read
  exact (parseReads _ _).mpr read

theorem exprShiftBare (k : Nat) (x : Expr) : (x.shift k).bare = x.bare := by
  induction x with
  | absent | foreign | mem | int => rfl
  | paren span x ih => simp only [Expr.shift, Expr.bare, ih]
  | signed span op x ih => simp only [Expr.shift, Expr.bare, ih]
  | binary span op l r left right => simp only [Expr.shift, Expr.bare, left, right]

theorem stmtShiftBare (k : Nat) (s : Stmt) : (s.shift k).bare = s.bare := by
  cases s with
  | absent | foreign => rfl
  | assign span x => simp only [Stmt.shift, Stmt.bare, exprShiftBare]
  | print span x => simp only [Stmt.shift, Stmt.bare, exprShiftBare]

theorem stmtsShiftBare (k : Nat) (l : List Stmt) : (l.map (Stmt.shift k)).map Stmt.bare = l.map Stmt.bare := by
  rw [List.map_map]
  exact List.map_congr_left fun s _ => stmtShiftBare k s

theorem assembledBare (base : Nat) (parts : List (Source × Program)) :
    (assembled base parts).map Stmt.bare = ((parts.map Prod.snd).flatMap Program.stmts).map Stmt.bare := by
  induction parts generalizing base with
  | nil => rfl
  | cons part parts ih =>
    simp only [assembled, List.map_cons, List.flatMap_cons, List.map_append, stmtsShiftBare, ih]

theorem lowerAppend (l m : List Stmt) : lowerStmts (l ++ m) = (do lowerStmts l; lowerStmts m) := by
  induction l with
  | nil => rfl
  | cons s l ih => simp only [List.cons_append, lowerStmts, ih, bind_assoc]

theorem lowerPrograms (ps : List Program) : ps.forM Program.lower = lowerStmts (ps.flatMap Program.stmts) := by
  induction ps with
  | nil => rfl
  | cons p ps ih =>
    rw [List.flatMap_cons, lowerAppend, ← ih]
    rfl

theorem sourcesCompile {srcs : List Source} {p : Program} (some : srcs ≠ []) (read : parse srcs = .ok p) :
    compileSources srcs = p.compile := by
  unfold compileSources
  rw [if_neg (by simpa using some), labelFailure, parseSources, read]
  rfl

/- Sources that can be read one by one are read together as one program: its statements are theirs in order, each as far
on as its source is. The assembly text is that of their programs one after another, and running it comes to what one
environment does that runs the programs in turn. -/
theorem sourcesConcatenate {read : Reader} (reads : ReadsBack read) {parts : List (Source × Program)} (some : parts ≠ [])
    (alone : ∀ part ∈ parts, part.1.parse = .ok part.2) :
    ∃ p text, parseSources (parts.map Prod.fst) = .ok p ∧ p.stmts = assembled 0 parts ∧
      compileSources (parts.map Prod.fst) = .ok text ∧
      Program.compile ⟨p.span, (parts.map Prod.snd).flatMap Program.stmts⟩ = .ok text ∧
      (∀ env, (parts.map Prod.snd).forM Env.run {} = .ok () env → ∃ r, runAssembly read text = .ok r ∧ Reported r env) ∧
      (∀ stop env, (parts.map Prod.snd).forM Env.run {} = .error stop env →
        ∃ e i inst r, stop = .error e ∧ e.isDivisionByZero = true ∧
          runAssembly read text = .error (.trapped i inst .divisionByZero r) ∧ Reported r env) := by
  obtain ⟨p, parsed, stmts⟩ := sourcesParse alone
  have formed : ∀ p ∈ parts.map Prod.snd, p.WellFormed := by
    intro p member
    obtain ⟨part, inside, rfl⟩ := List.mem_map.mp member
    exact parsesFormed (alone part inside)
  obtain ⟨text, a, built, agrees⟩ := emittedMatches reads (programsCarried formed)
  rw [lowerPrograms] at built
  have compiled : Program.compile ⟨p.span, (parts.map Prod.snd).flatMap Program.stmts⟩ = .ok text := by
    rw [Program.compile, Program.lower, built]
    rfl
  have same : p.SameTree ⟨p.span, (parts.map Prod.snd).flatMap Program.stmts⟩ := by
    rw [Program.SameTree, stmts, assembledBare]
  have whole : p.compile = .ok text := by
    rw [← compiled, Program.compile, Program.compile, Program.lowerSame same]
  refine ⟨p, text, ?_, stmts, ?_, compiled, ?_⟩
  · rw [parseSources, parsed]
    rfl
  · rw [sourcesCompile (by simpa using some) parsed, whole]
  · have run := agrees none
    generalize runAssembly read text = out at run ⊢
    generalize (parts.map Prod.snd).forM Env.run {} = result at run ⊢
    cases run with
    | done reported =>
      refine ⟨?_, by simp⟩
      rintro env ⟨⟩
      exact ⟨_, rfl, reported⟩
    | stopped zero reported =>
      refine ⟨by simp, ?_⟩
      rintro stop env ⟨⟩
      exact ⟨_, _, _, _, rfl, zero, rfl, reported⟩
    | unwritten full given => simp at given

def mixedParts : List (Source × Program) :=
  [(⟨"a", utf8 "mem + 5; # five"⟩, ⟨⟨0, 8⟩,
    [.assign ⟨0, 8⟩ (.binary ⟨0, 7⟩ (.known .add) (.mem ⟨0, 3⟩) (.int ⟨6, 7⟩ 5))]⟩),
   (⟨"b", []⟩, ⟨⟨0, 0⟩, []⟩),
   (⟨"c", utf8 "\x7bprint mem;\x7d mem - 5;\n"⟩, ⟨⟨0, 21⟩,
    [.print ⟨1, 11⟩ (.mem ⟨7, 10⟩),
     .assign ⟨13, 21⟩ (.binary ⟨13, 20⟩ (.known .sub) (.mem ⟨13, 16⟩) (.int ⟨19, 20⟩ 5))]⟩),
   (⟨"d", utf8 "print 1/mem;"⟩, ⟨⟨0, 12⟩,
    [.print ⟨0, 12⟩ (.binary ⟨6, 11⟩ (.known .div) (.int ⟨6, 7⟩ 1) (.mem ⟨8, 11⟩))]⟩)]

theorem mixedConcatenate :
    ReadsBack Assembly.Module.ofText? ∧ mixedParts ≠ [] ∧ (∀ part ∈ mixedParts, part.1.parse = .ok part.2) ∧
      ∃ p text, parseSources (mixedParts.map Prod.fst) = .ok p ∧
        p.stmts = [.assign ⟨0, 8⟩ (.binary ⟨0, 7⟩ (.known .add) (.mem ⟨0, 3⟩) (.int ⟨6, 7⟩ 5)),
          .print ⟨17, 27⟩ (.mem ⟨23, 26⟩),
          .assign ⟨29, 37⟩ (.binary ⟨29, 36⟩ (.known .sub) (.mem ⟨29, 32⟩) (.int ⟨35, 36⟩ 5)),
          .print ⟨38, 50⟩ (.binary ⟨44, 49⟩ (.known .div) (.int ⟨44, 45⟩ 1) (.mem ⟨46, 49⟩))] ∧
        compileSources (mixedParts.map Prod.fst) = .ok text ∧
        ∃ i inst r, runAssembly Assembly.Module.ofText? text = .error (.trapped i inst .divisionByZero r) ∧ r.printed = [5] ∧
          r.globals.lookup Arena.memName = some 0 := by
  have alone : ∀ part ∈ mixedParts, part.1.parse = .ok part.2 := by
    simp only [mixedParts, List.forall_mem_cons]
    exact ⟨rfl, rfl, rfl, rfl, by simp⟩
  have stops : (mixedParts.map Prod.snd).forM Env.run {} =
      .error (.error (.stmt 0 (.divisionByZero 6))) { mem := 0, printed := [5] } := rfl
  have some : mixedParts ≠ [] := by simp [mixedParts]
  obtain ⟨p, text, read, stmts, compiled, -, -, fails⟩ := sourcesConcatenate moduleReread some alone
  obtain ⟨e, i, inst, r, -, -, trapped, reported⟩ := fails _ _ stops
  exact ⟨moduleReread, some, alone, p, text, read, stmts, compiled, i, inst, r, trapped, reported⟩

end Abacus
