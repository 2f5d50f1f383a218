import Abacus.Assembly.Token

/-! Tokens of composed text. No token goes across a delimiter, so a text without quotes and comments can be scanned
apart from the text that a delimiter separates from it. -/
namespace Abacus.Assembly.Token

def ofChars (cs : List Char) : List Token := scan cs.length cs

theorem longestTakes {cs : List Char} {n : Nat} {t : Token} {k : Nat} (h : longest? cs n = some (t, k)) :
    0 < k ∧ k ≤ n := by
  induction n with
  | zero => simp [longest?] at h
  | succ n ih =>
    rw [longest?] at h
    split at h
    · cases h
      omega
    · have less := ih h
      omega

theorem firstTakes (c : Char) (rest : List Char) : 0 < (first (c :: rest)).2 := by
  unfold first
  dsimp only
  split
  · split <;> simp
  · split
    · split <;> simp
    · split
      · simp
      · split
        · simp
        · rename_i some
          split
          · simp
          · split
            · rename_i found
              exact (longestTakes found).1
            · simpa [List.length_pos_iff] using some

theorem scanEnough (n m : Nat) (cs : List Char) (enough : cs.length ≤ n) (enough' : cs.length ≤ m) :
    scan n cs = scan m cs := by
  induction n generalizing m cs with
  | zero =>
    have none : cs = [] := List.length_eq_zero_iff.mp (by omega)
    subst none
    cases m <;> rfl
  | succ n ih =>
    cases cs with
    | nil => cases m <;> rfl
    | cons c rest =>
      simp only [List.length_cons] at enough enough'
      cases m with
      | zero => omega
      | succ m =>
        have comment := (List.dropWhile_suffix (l := rest) (· != '\n')).length_le
        have taken := firstTakes c rest
        have left : ((c :: rest).drop (first (c :: rest)).2).length ≤ rest.length := by
          simp only [List.length_drop, List.length_cons]
          omega
        simp only [scan]
        split
        · exact ih m rest (by omega) (by omega)
        · split
          · exact ih m _ (by omega) (by omega)
          · cases found : first (c :: rest) with
            | mk t k =>
              rw [found] at left
              dsimp only at left
              cases t with
              | none => exact ih m _ (by omega) (by omega)
              | some t => exact congrArg (t :: ·) (ih m _ (by omega) (by omega))

theorem charsBlank {c : Char} (blank : isBlank c = true) (rest : List Char) : ofChars (c :: rest) = ofChars rest := by
  simp [ofChars, scan, blank]

theorem charsFirst {c : Char} (rest : List Char) (solid : isBlank c = false) (open' : c ≠ ';') :
    ofChars (c :: rest) = (first (c :: rest)).1.toList ++ ofChars ((c :: rest).drop (first (c :: rest)).2) := by
  have taken := firstTakes c rest
  have left : ((c :: rest).drop (first (c :: rest)).2).length ≤ rest.length := by
    simp only [List.length_drop, List.length_cons]
    omega
  simp only [ofChars, List.length_cons, scan, solid, open', if_false, Bool.false_eq_true]
  cases found : first (c :: rest) with
  | mk t k =>
    rw [found] at left
    have same := scanEnough rest.length _ _ left (Nat.le_refl _)
    cases t with
    | none => simpa using same
    | some t => simpa using same

def Delimiter (d : Char) : Prop := isBlank d = true ∨ isMark d = true ∨ d = '"'
instance (d : Char) : Decidable (Delimiter d) := by unfold Delimiter; infer_instance

theorem delimiterEnds {d : Char} (h : Delimiter d) : isNameChar d = false ∧ d.isDigit = false ∧ d ≠ ':' := by
  simp only [Delimiter, isBlank, isMark, Bool.or_eq_true, decide_eq_true_eq, List.contains_iff_mem, List.mem_cons,
    List.not_mem_nil, or_false] at h
  rcases h with ((((rfl | rfl) | rfl) | rfl) | rfl) | (rfl | rfl | rfl | rfl | rfl | rfl | rfl | rfl | rfl | rfl | rfl |
    rfl | rfl) | rfl <;> decide

def Plain (cs : List Char) : Prop := ∀ c ∈ cs, c ≠ '"' ∧ c ≠ ';'
-- Without the name, deciding it may go through all the characters there are.
instance (cs : List Char) : Decidable (Plain cs) := List.decidableBAll _ cs

theorem plainAppend {a b : List Char} (h : Plain a) (k : Plain b) : Plain (a ++ b) := by
  intro c member
  rcases List.mem_append.mp member with left | right
  · exact h c left
  · exact k c right

theorem nameLength (cs : List Char) : (nameOf cs).length ≤ cs.length := by
  unfold nameOf
  split
  · split <;> exact (List.takeWhile_prefix _).length_le
  · simp

section Local

variable {d : Char} (ends : Delimiter d) (b : List Char)

theorem takeWhileLocal {p : Char → Bool} (stop : p d = false) (cs : List Char) :
    (cs ++ d :: b).takeWhile p = cs.takeWhile p := by
  induction cs with
  | nil => simp [stop]
  | cons c cs ih => simp only [List.cons_append, List.takeWhile_cons, ih]

include ends

theorem nameLocal (cs : List Char) : nameOf (cs ++ d :: b) = nameOf cs := by
  have stop := delimiterEnds ends
  cases cs with
  | nil => simp [nameOf, stop.1, stop.2.1]
  | cons c cs =>
    have digits := takeWhileLocal b stop.2.1 (c :: cs)
    have names := takeWhileLocal b stop.1 (c :: cs)
    simp only [List.cons_append] at digits names
    simp only [nameOf, List.cons_append, digits, names]

theorem nextLocal (cs : List Char) (n : Nat) (inside : n ≤ cs.length) :
    ((cs ++ d :: b).drop n).head? = some ':' ↔ (cs.drop n).head? = some ':' := by
  have stop := (delimiterEnds ends).2.2
  rw [List.drop_append_of_le_length inside]
  cases cs.drop n with
  | nil => simp [stop]
  | cons c rest => simp

/- A token that starts before the delimiter is the same without what follows, and ends before it. -/
theorem firstLocal {c : Char} (cs : List Char) (plain : c ≠ '"') :
    first (c :: (cs ++ d :: b)) = first (c :: cs) := by
  have stop := delimiterEnds ends
  have name := nameLocal ends b (c :: cs)
  have run := takeWhileLocal b stop.1 (c :: cs)
  have next := nextLocal ends b (c :: cs) (nameOf (c :: cs)).length (nameLength _)
  simp only [List.cons_append] at name run next
  simp only [first, plain, if_false, nameLocal ends b cs, name, run, next]

end Local

theorem firstInside {c : Char} (cs : List Char) (plain : c ≠ '"') : (first (c :: cs)).2 ≤ (c :: cs).length := by
  have nameSize := nameLength (c :: cs)
  have restSize := nameLength cs
  have runSize := (List.takeWhile_prefix (l := c :: cs) isNameChar).length_le
  unfold first
  simp only [plain, if_false]
  split
  · split
    · simp
    · simpa using restSize
  · split
    · simp
    · split
      · simp
      · split
        · rename_i colon
          have more : (nameOf (c :: cs)).length < (c :: cs).length := by
            rcases Nat.lt_or_ge (nameOf (c :: cs)).length (c :: cs).length with less | most
            · exact less
            · rw [List.drop_eq_nil_of_le most] at colon
              contradiction
          exact more
        · split
          · rename_i found
            exact Nat.le_trans (longestTakes found).2 runSize
          · exact runSize

theorem charsSplit {a : List Char} (plain : Plain a) {d : Char} (ends : Delimiter d) (b : List Char) :
    ofChars (a ++ d :: b) = ofChars a ++ ofChars (d :: b) := by
  generalize size : a.length = n
  induction n using Nat.strongRecOn generalizing a with
  | ind n ih =>
    cases a with
    | nil => rfl
    | cons c cs =>
      have here := plain c (by simp)
      have tail : Plain cs := fun x member => plain x (by simp [member])
      subst size
      rw [List.cons_append]
      cases blank : isBlank c with
      | true => rw [charsBlank blank, charsBlank blank, ih cs.length (by simp) tail rfl]
      | false =>
        have inside := firstInside cs here.1
        have taken := firstTakes c cs
        rw [charsFirst _ blank here.2, charsFirst cs blank here.2, firstLocal ends b cs here.1, List.append_assoc,
          ← List.cons_append, List.drop_append_of_le_length inside]
        congr 1
        refine ih _ ?_ ?_ rfl
        · simp only [List.length_drop, List.length_cons]
          omega
        · intro x member
          exact plain x (List.mem_of_mem_drop member)

theorem charsQuoted {s : List Char} (closed : '"' ∉ s) (b : List Char) :
    ofChars ('"' :: (s ++ '"' :: b)) = .text (String.ofList s) :: ofChars b := by
  have inside : (s ++ '"' :: b).takeWhile (· != '"') = s := by
    rw [List.takeWhile_append_of_pos]
    · simp
    · intro c member
      simp only [bne_iff_ne, ne_eq]
      rintro rfl
      exact closed member
  have found : first ('"' :: (s ++ '"' :: b)) = (some (.text (String.ofList s)), s.length + 2) := by
    simp [first, inside]
  rw [charsFirst _ (by decide) (by decide), found]
  simp

theorem digitsNumber (n : Nat) : number? (Nat.toDigits 10 n) = some n := by
  have digits : (Nat.toDigits 10 n).all Char.isDigit = true := by
    rw [List.all_eq_true]
    exact fun c member => Nat.isDigit_of_mem_toDigits (by decide) (by decide) member
  have some : (Nat.toDigits 10 n).isEmpty = false := by simp [Nat.toDigits_ne_nil]
  simp [number?, some, digits, Nat.ofDigitChars_ten_toDigits]

theorem natChars (n : Nat) : (toString n).toList = Nat.toDigits 10 n := by
  simp [toString, Nat.repr]

theorem natInjective {m n : Nat} (h : toString m = toString n) : m = n := by
  have same : number? (Nat.toDigits 10 m) = number? (Nat.toDigits 10 n) := by rw [← natChars, ← natChars, h]
  rw [digitsNumber, digitsNumber] at same
  exact Option.some.inj same

theorem digitName {c : Char} (h : c.isDigit = true) : isNameChar c = true := by
  simp [isNameChar, Char.isAlphanum, h]

theorem takeWhileAll {p : Char → Bool} {cs : List Char} (all : ∀ c ∈ cs, p c = true) : cs.takeWhile p = cs := by
  have whole : (cs ++ []).takeWhile p = cs ++ [].takeWhile p := List.takeWhile_append_of_pos all
  simpa using whole

theorem digitsAll (n : Nat) : ∀ c ∈ Nat.toDigits 10 n, c.isDigit = true :=
  fun _ member => Nat.isDigit_of_mem_toDigits (by decide) (by decide) member

theorem charsRegister (n : Nat) : ofChars ('%' :: (toString n).toList) = [.register (toString n)] := by
  have full := Nat.toDigits_ne_nil (n := n) (b := 10)
  have digits := digitsAll n
  have number := digitsNumber n
  rw [natChars]
  generalize Nat.toDigits 10 n = ds at full digits number
  have name : nameOf ds = ds := by
    cases ds with
    | nil => rfl
    | cons c ds =>
      rw [nameOf, if_pos (digits c (by simp))]
      exact takeWhileAll digits
  have found : first ('%' :: ds) = (some (.register (toString n)), ds.length + 1) := by
    simp [first, name, full, nameText, number]
  rw [charsFirst _ (by decide) (by decide), found]
  simp [ofChars, scan]

def Identifier (s : String) : Prop :=
  s.toList.head?.any (fun c => !c.isDigit) = true ∧ ∀ c ∈ s.toList, isNameChar c = true
instance (s : String) : Decidable (Identifier s) := @instDecidableAnd _ _ _ (List.decidableBAll _ s.toList)

theorem charsSymbol {s : String} (h : Identifier s) : ofChars ('@' :: s.toList) = [.symbol s] := by
  obtain ⟨start, all⟩ := h
  have spelled : String.ofList s.toList = s := String.ofList_toList
  generalize s.toList = cs at start all spelled
  cases cs with
  | nil => simp at start
  | cons c cs =>
    have letter : c.isDigit = false := by simpa using start
    have name : nameOf (c :: cs) = c :: cs := by
      rw [nameOf, if_neg (by simp [letter])]
      exact takeWhileAll all
    have word : nameText (c :: cs) = s := by simp [nameText, number?, letter, spelled]
    have found : first ('@' :: c :: cs) = (some (.symbol s), (c :: cs).length + 1) := by
      simp [first, name, word]
    rw [charsFirst _ (by decide) (by decide), found]
    simp [ofChars, scan]

theorem charsRun {c : Char} {cs : List Char} {t : Token} (all : ∀ x ∈ c :: cs, isNameChar x = true)
    (spelled : ofChars? (c :: cs) = some t) : ofChars (c :: cs) = [t] := by
  have here := all c (by simp)
  have other : ∀ d, isNameChar d = false → c ≠ d := by
    rintro d no rfl
    simp [here] at no
  have run := takeWhileAll all
  have notMark : isMark c = false := by
    cases mark : isMark c with
    | false => rfl
    | true =>
      have ends := (delimiterEnds (.inr (.inl mark))).1
      simp [here] at ends
  have notBlank : isBlank c = false := by
    cases blank : isBlank c with
    | false => rfl
    | true =>
      have ends := (delimiterEnds (.inl blank)).1
      simp [here] at ends
  have next : ((c :: cs).drop (nameOf (c :: cs)).length).head? ≠ some ':' := by
    intro colon
    have member := List.mem_of_mem_drop (List.mem_of_head? colon)
    have no := all ':' member
    revert no
    decide
  have long : longest? (c :: cs) (c :: cs).length = some (t, (c :: cs).length) := by
    simp only [List.length_cons, longest?]
    rw [List.take_of_length_le (by simp), spelled]
  have found : first (c :: cs) = (some t, (c :: cs).length) := by
    simp only [first, other '@' (by decide), other '%' (by decide), other '"' (by decide), notMark, run, next, long]
    simp
  rw [charsFirst _ notBlank (other ';' (by decide)), found]
  simp [ofChars, scan]

theorem charsInt (z : Int) : ofChars (toString z).toList = [.int z] := by
  cases z with
  | ofNat n =>
    have full := Nat.toDigits_ne_nil (n := n) (b := 10)
    have digits := digitsAll n
    have number := digitsNumber n
    rw [show toString (Int.ofNat n) = toString n from rfl, natChars]
    generalize Nat.toDigits 10 n = ds at full digits number
    cases ds with
    | nil => exact absurd rfl full
    | cons c ds => exact charsRun (fun x member => digitName (digits x member)) (by simp [ofChars?, number])
  | negSucc n =>
    have digits := digitsAll (n + 1)
    have number := digitsNumber (n + 1)
    have chars : (toString (Int.negSucc n)).toList = '-' :: Nat.toDigits 10 (n + 1) := by
      rw [← natChars]
      simp [toString, Int.repr]
    rw [chars]
    generalize Nat.toDigits 10 (n + 1) = ds at digits number
    apply charsRun
    · intro x member
      rcases List.mem_cons.mp member with rfl | inside
      · decide
      · exact digitName (digits x inside)
    · have sign : number? ('-' :: ds) = none := by simp [number?]
      have value : -((n : Int) + 1) = Int.negSucc n := by omega
      simp [ofChars?, sign, number, value]

end Abacus.Assembly.Token
