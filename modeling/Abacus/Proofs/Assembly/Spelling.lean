import Abacus.Assembly.Module
import Abacus.Proofs.Arena.Emission

/-! The tokens of an emitted text, piece by piece. -/
namespace Abacus.Assembly

namespace Token

def isBreak (c : Char) : Bool := isBlank c || isMark c

theorem charsBreak {d : Char} (h : isBreak d = true) (b : List Char) : ofChars (d :: b) = ofChars [d] ++ ofChars b := by
  cases blank : isBlank d with
  | true =>
    rw [charsBlank blank, charsBlank blank]
    rfl
  | false =>
    have mark : isMark d = true := by simpa [isBreak, blank] using h
    have ends := delimiterEnds (.inr (.inl mark))
    have other : d ≠ '@' ∧ d ≠ '%' ∧ d ≠ '"' ∧ d ≠ ';' := by
      refine ⟨?_, ?_, ?_, ?_⟩ <;> rintro rfl <;> revert mark <;> decide
    obtain ⟨at', percent, quote, comment⟩ := other
    have found : ∀ rest, first (d :: rest) = (some (.mark d), 1) := fun rest => by
      simp [first, at', percent, quote, mark]
    rw [charsFirst b blank comment, charsFirst [] blank comment, found, found]
    rfl

def Loose (w v : List Char) : Prop := w.getLast?.any isBreak = true ∨ v.head?.any isBreak = true
instance (w v : List Char) : Decidable (Loose w v) := by unfold Loose; infer_instance

theorem charsJoin {w v : List Char} (plain : Plain w) (loose : Loose w v) : ofChars (w ++ v) = ofChars w ++ ofChars v := by
  have delimits : ∀ d, isBreak d = true → Delimiter d := by
    intro d h
    simp only [isBreak, Bool.or_eq_true] at h
    exact h.imp_right .inl
  rcases loose with last | next
  · rcases List.eq_nil_or_concat w with rfl | ⟨front, d, rfl⟩
    · simp at last
    · have ends : isBreak d = true := by simpa using last
      have front' : Plain front := fun c member => plain c (by simp [member])
      rw [List.concat_eq_append, List.append_assoc, List.singleton_append, charsSplit front' (delimits d ends) v,
        charsSplit front' (delimits d ends) [], charsBreak ends v, List.append_assoc]
  · cases v with
    | nil => simp at next
    | cons d v => exact charsSplit plain (delimits d (by simpa using next)) v

end Token

open Token (Plain Loose ofText)

def Piece (w : String) (ts : List Token) : Prop := Plain w.toList ∧ ofText w = ts
instance (w : String) (ts : List Token) : Decidable (Piece w ts) := by unfold Piece; infer_instance

theorem textJoin {w v : String} (plain : Plain w.toList) (loose : Loose w.toList v.toList) :
    ofText (w ++ v) = ofText w ++ ofText v := by
  have chars := Token.charsJoin plain loose
  rw [← String.toList_append] at chars
  exact chars

theorem pieceOpens {w v : String} {ts us : List Token} (left : Piece w ts) (right : Piece v us)
    (opens : v.toList.head?.any Token.isBreak = true) : Piece (w ++ v) (ts ++ us) := by
  refine ⟨by simpa using Token.plainAppend left.1 right.1, ?_⟩
  rw [textJoin left.1 (.inr opens), left.2, right.2]

theorem pieceCloses {w v : String} {ts us : List Token} (left : Piece w ts) (right : Piece v us)
    (closes : w.toList.getLast?.any Token.isBreak = true) : Piece (w ++ v) (ts ++ us) := by
  refine ⟨by simpa using Token.plainAppend left.1 right.1, ?_⟩
  rw [textJoin left.1 (.inl closes), left.2, right.2]

theorem typePiece : Piece "i64" [.intType 64] := by decide

theorem commaPiece : Piece ", " [.mark ','] := by decide

theorem starPiece : Piece "* " [.mark '*'] := by decide

theorem closesAppend (w : String) {v : String} (closes : v.toList.getLast?.any Token.isBreak = true) :
    (w ++ v).toList.getLast?.any Token.isBreak = true := by
  rw [String.toList_append, List.getLast?_append]
  cases last : v.toList.getLast? with
  | none => simp [last] at closes
  | some c => simpa [last] using closes

theorem piecesJoin {α : Type} {l : List α} {line : α → String} {tokens : α → List Token}
    (each : ∀ x ∈ l, Piece (line x) (tokens x) ∧ (line x).toList.getLast?.any Token.isBreak = true) (v : String) :
    ofText (String.join (l.map line) ++ v) = l.flatMap tokens ++ ofText v := by
  induction l with
  | nil => simp [String.join]
  | cons x l ih =>
    obtain ⟨piece, closes⟩ := each x (by simp)
    have rest := ih fun y member => each y (by simp [member])
    have split : String.join ((x :: l).map line) ++ v = line x ++ (String.join (l.map line) ++ v) := by
      simp [String.append_assoc]
    rw [split, textJoin piece.1 (.inl closes), piece.2, rest, List.flatMap_cons, List.append_assoc]

theorem namePlain {cs : List Char} (all : ∀ c ∈ cs, Token.isNameChar c = true) : Plain cs := by
  intro c member
  have here := all c member
  constructor <;> rintro rfl <;> revert here <;> decide

theorem intPiece (z : Int) : Piece (toString z) [.int z] := by
  refine ⟨?_, Token.charsInt z⟩
  have digits : ∀ n, ∀ c ∈ (toString (n : Nat)).toList, Token.isNameChar c = true := fun n c member =>
    Token.digitName (Token.digitsAll n c (by rwa [Token.natChars] at member))
  cases z with
  | ofNat n => exact namePlain (digits n)
  | negSucc n =>
    have chars : (toString (Int.negSucc n)).toList = '-' :: (toString (n + 1)).toList := by simp [toString, Int.repr]
    rw [chars]
    apply namePlain
    intro c member
    rcases List.mem_cons.mp member with rfl | inside
    · decide
    · exact digits (n + 1) c inside

theorem registerPiece (k : Nat) : Piece ("%" ++ toString k) [.register (toString k)] := by
  have chars : ("%" ++ toString k).toList = '%' :: (toString k).toList := by simp
  refine ⟨?_, by rw [← Token.charsRegister k, ← chars]; rfl⟩
  have digits : Plain (toString k).toList := namePlain fun c member =>
    Token.digitName (Token.digitsAll k c (by rwa [Token.natChars] at member))
  rw [String.toList_append]
  exact Token.plainAppend (by decide) digits

theorem symbolPiece {s : String} (h : Token.Identifier s) : Piece ("@" ++ s) [.symbol s] := by
  have chars : ("@" ++ s).toList = '@' :: s.toList := by simp
  refine ⟨?_, by rw [← Token.charsSymbol h, ← chars]; rfl⟩
  rw [String.toList_append]
  exact Token.plainAppend (by decide) (namePlain h.2)

def preludeTokens : List Token :=
  [.symbol ".str", .mark '=', .word "private", .word "unnamed_addr", .word "constant", .mark '[', .int 6, .word "x",
    .intType 8, .mark ']', .word "c", .text "%lld\\0A\\00", .mark ',', .word "align", .int 1,
    .word "declare", .intType 32, .symbol "printf", .mark '(', .intType 8, .mark '*', .mark ',', .dots, .mark ')',
    .word "define", .word "void", .symbol "print", .mark '(', .intType 64, .register "x", .mark ')', .mark '\x7b',
    .label "entry", .register "fmt", .mark '=', .word "getelementptr", .word "inbounds", .mark '[', .int 6, .word "x",
    .intType 8, .mark ']', .mark ',', .mark '[', .int 6, .word "x", .intType 8, .mark ']', .mark '*', .symbol ".str",
    .mark ',', .intType 64, .int 0, .mark ',', .intType 64, .int 0, .register "r", .mark '=', .word "call", .intType 32,
    .mark '(', .intType 8, .mark '*', .mark ',', .dots, .mark ')', .symbol "printf", .mark '(', .intType 8, .mark '*',
    .register "fmt", .mark ',', .intType 64, .register "x", .mark ')', .word "ret", .word "void", .mark '\x7d']

theorem textChars (cs : List Char) : ofText (String.ofList cs) = Token.ofChars cs := by
  rw [ofText, String.toList_ofList]
  rfl

theorem linesText {ls : List String} (plain : ∀ l ∈ ls, Plain l.toList) (v : String) :
    ofText (lines ls ++ v) = ls.flatMap ofText ++ ofText v := by
  refine piecesJoin (fun l member => ⟨⟨?_, ?_⟩, closesAppend l (by decide)⟩) v
  · rw [String.toList_append]
    exact Token.plainAppend (plain l member) (by decide)
  · rw [textJoin (plain l member) (.inr (by decide))]
    simp [show ofText "\n" = [] by decide]

theorem linesCons (l : String) (ls : List String) (v : String) : lines (l :: ls) ++ v = l ++ ("\n" ++ (lines ls ++ v)) := by
  simp [lines, String.append_assoc]

theorem quotedText {w : String} {a s b : List Char} (cut : w.toList = a ++ '"' :: (s ++ '"' :: b)) (head : Plain a)
    (closed : '"' ∉ s) (tail : Plain b) {v : String} (opens : v.toList.head?.any Token.isBreak = true) :
    ofText (w ++ v) = Token.ofChars a ++ .text (String.ofList s) :: Token.ofChars b ++ ofText v := by
  have chars : ofText (w ++ v) = Token.ofChars (w.toList ++ v.toList) := by
    rw [← String.toList_append]
    rfl
  rw [chars, cut, List.append_assoc, List.cons_append, List.append_assoc, List.cons_append,
    Token.charsSplit head (.inr (.inr rfl)), Token.charsQuoted closed, Token.charsJoin tail (.inr opens)]
  simp [ofText, Token.ofChars]

theorem preludeText (v : String) : ofText (prelude ++ v) = preludeTokens ++ ofText v := by
  have cut : "@.str = private unnamed_addr constant [6 x i8] c\"%lld\\0A\\00\", align 1".toList =
      "@.str = private unnamed_addr constant [6 x i8] c".toList ++ '"' ::
        ("%lld\\0A\\00".toList ++ '"' :: ", align 1".toList) := by
    repeat rw [String.toList_ofList]
    rfl
  have quoted := fun w => quotedText cut (by rw [String.toList_ofList]; decide) (by decide) (by decide) (v := "\n" ++ w)
    (by simp; decide)
  rw [prelude, linesCons, quoted, textJoin (by decide) (.inl (by decide)), linesText]
  · simp only [List.flatMap_cons, List.flatMap_nil, List.append_nil, ← List.append_assoc]
    refine congrArg (· ++ ofText v) ?_
    repeat rw [textChars]
    repeat rw [String.toList_ofList]
    decide
  · simp only [List.forall_mem_cons, List.not_mem_nil, false_implies, implies_true, and_true]
    repeat rw [String.toList_ofList]
    decide

def Operand.token : Operand → Token
  | .int z => .int z
  | .register name => .register name
  | .symbol name => .symbol name
  | .undef | .null | .zero | .text _ => .word "undef"

end Abacus.Assembly

namespace Abacus

open Assembly

def bareName (name : String) : String := String.ofList (name.toList.drop 1)

theorem bareFresh (vs : List Value) : bareName (freshName vs) = toString (fresh vs) := by
  have chars : (freshName vs).toList.drop 1 = (toString (fresh vs)).toList := by
    rw [freshName, String.toList_append]
    rfl
  rw [bareName, chars, String.ofList_toList]

def Value.operand : Value → Operand
  | .global name _ => .symbol name
  | .const v => .int v.toInt
  | .load name _ | .alloca name _ | .binop name _ _ _ => .register (bareName name)
  | .store _ _ | .print _ => .undef

def operandAt (vs : List Value) (id : Int) : Operand := (behind vs id).elim .undef Value.operand

def Value.tokens (o : Int → Operand) : Value → List Token
  | .global _ _ | .const _ => []
  | .load name src => [.register (bareName name), .mark '=', .word "load", .intType 64, .mark ',', .intType 64, .mark '*',
      (o src).token]
  | .store src dst => [.word "store", .intType 64, (o src).token, .mark ',', .intType 64, .mark '*', (o dst).token]
  | .alloca name _ => [.register (bareName name), .mark '=', .word "alloca", .intType 64]
  | .binop name op l r => [.register (bareName name), .mark '=', .word (Oper.shown op), .intType 64, (o l).token, .mark ',',
      (o r).token]
  | .print x => [.word "call", .word "void", .symbol "print", .mark '(', .intType 64, (o x).token, .mark ')']

def globalTokens (v : Value) : List Token := [.symbol v.name, .mark '=', .word "global", .intType 64, .int 0]

theorem freshPiece (vs : List Value) : Piece (freshName vs) [.register (bareName (freshName vs))] := by
  rw [bareFresh]
  exact registerPiece (fresh vs)

theorem globalPiece {v : Value} (h : Token.Identifier v.name) : Piece (globalLine v) (globalTokens v) := by
  have assigned : Piece " = global " [.mark '=', .word "global"] := by decide
  have zero : Piece " 0\n" [.int 0] := by decide
  have head := pieceOpens (symbolPiece h) assigned (by decide)
  exact pieceOpens (pieceCloses head typePiece (closesAppend _ (by decide))) zero (by decide)

section Pieces

variable {vs : List Value} (laid : Laid vs)
include laid

theorem globalIdentifier {v : Value} (member : v ∈ vs) (symbol : v.isGlobal = true) : Token.Identifier v.name := by
  obtain ⟨done, todo, split⟩ := List.append_of_mem member
  have fits := laid done v todo split
  cases v with
  | global name type => exact fits.2.2.1
  | const | load | store | alloca | binop | print => simp [Value.isGlobal] at symbol

theorem scalarPiece {id : Int} (scalar : Scalar vs id) : Piece (writtenAt vs id) [(operandAt vs id).token] := by
  obtain ⟨v, found, number⟩ := scalar
  obtain ⟨done, todo, split, -⟩ := behindSplit found
  have fits := laid done v todo split
  rw [writtenAt, operandAt, found]
  cases v with
  | global | store | alloca | print => simp [Value.isScalar] at number
  | const v => exact intPiece v.toInt
  | load | binop =>
    obtain ⟨rfl, -⟩ := fits
    exact freshPiece done

theorem cellPiece {id : Int} (cell : Cell vs id) : Piece (writtenAt vs id) [(operandAt vs id).token] := by
  obtain ⟨name, found⟩ := cell
  obtain ⟨done, todo, split, -⟩ := behindSplit found
  have fits := laid done _ todo split
  rw [writtenAt, operandAt, found]
  exact symbolPiece fits.2.2.1

theorem codePiece {done todo : List Value} {v : Value} (split : vs = done ++ v :: todo) (code : v.isInstruction = true) :
    Piece (v.code (writtenAt vs)) (v.tokens (operandAt vs)) := by
  have fits := laid done v todo split
  have number : ∀ id, Scalar done id → Piece (writtenAt vs id) [(operandAt vs id).token] := fun id scalar =>
    scalarPiece laid (split ▸ scalarAppend scalar _)
  have address : ∀ id, Cell done id → Piece (writtenAt vs id) [(operandAt vs id).token] := fun id cell =>
    cellPiece laid (split ▸ cellAppend cell _)
  cases v with
  | global | const => simp [Value.isInstruction] at code
  | load name src =>
    obtain ⟨rfl, cell⟩ := fits
    have assigned : Piece " = load i64, " [.mark '=', .word "load", .intType 64, .mark ','] := by decide
    have head := pieceOpens (freshPiece done) assigned (by decide)
    have type := pieceCloses head typePiece (closesAppend _ (by decide))
    have star := pieceOpens type starPiece (by decide)
    exact pieceCloses star (address src cell) (closesAppend _ (by decide))
  | store src dst =>
    obtain ⟨scalar, cell⟩ := fits
    have head : Piece "store i64 " [.word "store", .intType 64] := by decide
    have value := pieceCloses head (number src scalar) (by decide)
    have comma := pieceOpens value commaPiece (by decide)
    have type := pieceCloses comma typePiece (closesAppend _ (by decide))
    have star := pieceOpens type starPiece (by decide)
    exact pieceCloses star (address dst cell) (closesAppend _ (by decide))
  | alloca name type =>
    obtain ⟨rfl, -⟩ := fits
    have assigned : Piece " = alloca " [.mark '=', .word "alloca"] := by decide
    have head := pieceOpens (freshPiece done) assigned (by decide)
    exact pieceCloses head typePiece (closesAppend _ (by decide))
  | binop name op l r =>
    obtain ⟨rfl, ⟨o, rfl⟩, left, right⟩ := fits
    have mnemonic : Piece o.mnemonic [.word o.mnemonic] := by cases o <;> decide
    have assigned : Piece " = " [.mark '='] := by decide
    have typed : Piece " i64 " [.intType 64] := by decide
    have head := pieceOpens (freshPiece done) assigned (by decide)
    have word := pieceCloses head mnemonic (closesAppend _ (by decide))
    have type := pieceOpens word typed (by decide)
    have first := pieceCloses type (number l left) (closesAppend _ (by decide))
    have comma := pieceOpens first commaPiece (by decide)
    exact pieceCloses comma (number r right) (closesAppend _ (by decide))
  | print x =>
    have head : Piece "call void @print(i64 " [.word "call", .word "void", .symbol "print", .mark '(', .intType 64] := by
      decide
    have value := pieceCloses head (number x fits) (by decide)
    have close : Piece ")" [.mark ')'] := by decide
    exact pieceOpens value close (by decide)

omit laid in
theorem linePiece {w : String} {ts : List Token} (h : Piece w ts) : Piece ("  " ++ w ++ "\n") ts := by
  have indent : Piece "  " [] := by decide
  have newline : Piece "\n" [] := by decide
  have line := pieceOpens (pieceCloses indent h (by decide)) newline (by decide)
  simpa using line

end Pieces

def mainTokens : List Token := [.word "define", .word "void", .symbol "main", .mark '(', .mark ')', .mark '\x7b']

def endTokens : List Token := [.word "ret", .word "void", .mark '\x7d']

def codeTokens (vs : List Value) : List Token := (vs.filter Value.isInstruction).flatMap (Value.tokens (operandAt vs))

def moduleTokens (vs : List Value) : List Token :=
  preludeTokens ++ ((vs.filter Value.isGlobal).flatMap globalTokens ++ (mainTokens ++ (codeTokens vs ++ endTokens)))

theorem moduleJoined {vs : List Value} (symbols : ∀ v ∈ vs.filter Value.isGlobal, Token.Identifier v.name)
    (pieces : ∀ v ∈ vs.filter Value.isInstruction, Piece (v.code (writtenAt vs)) (v.tokens (operandAt vs))) :
    Token.ofText (moduleText vs) = moduleTokens vs := by
  have globals : ∀ v ∈ vs.filter Value.isGlobal, Piece (globalLine v) (globalTokens v) ∧
      (globalLine v).toList.getLast?.any Token.isBreak = true := fun v member =>
    ⟨globalPiece (symbols v member), closesAppend _ (by decide)⟩
  have code : ∀ v ∈ vs.filter Value.isInstruction, Piece (codeLine vs v) (v.tokens (operandAt vs)) ∧
      (codeLine vs v).toList.getLast?.any Token.isBreak = true := fun v member =>
    ⟨linePiece (pieces v member), closesAppend _ (by decide)⟩
  have newline : Piece "\n" [] := by decide
  have head : Piece "\ndefine void @main() \x7b\n" mainTokens := by decide
  have tail : Token.ofText "  ret void\n\x7d\n" = endTokens := by decide
  simp only [moduleText, String.append_assoc]
  rw [preludeText, textJoin newline.1 (.inl (by decide)), newline.2, piecesJoin globals, textJoin head.1 (.inl (by decide)),
    head.2, piecesJoin code, tail]
  rfl

theorem moduleSpelled {vs : List Value} (laid : Laid vs) : Token.ofText (moduleText vs) = moduleTokens vs := by
  refine moduleJoined (fun v member => ?_) (fun v member => ?_)
  · obtain ⟨inside, symbol⟩ := List.mem_filter.mp member
    exact globalIdentifier laid inside symbol
  · obtain ⟨inside, code⟩ := List.mem_filter.mp member
    obtain ⟨done, todo, split⟩ := List.append_of_mem inside
    exact codePiece laid split code

end Abacus
