/-
The words of a condition. A text is cut into runs of word characters, runs of operator characters,
quoted texts and single marks; blanks only separate. A run of word characters is a number, a keyword
in any case, a name, a parameter or a member behind its owner. What a text is cut into is told piece
by piece, as long as each piece ends where no run can go on.
-/
import RelSql.Config
import RelSql.Expr.Operator
import RelSql.Proofs.Number.DecimalText
import RelSql.Text.Quoted

namespace RelSql.Condition

open Digits List

/-! ## Tokens -/

/-- What stands for a value by itself. Parameters are names with a mark in front. -/
inductive Atom where
  | number (value : Nat)
  | quoted (text : String)
  | name (name : String)
  | member (owner column : String)
deriving Repr, DecidableEq

inductive BinaryOp where
  | or
  | and
  | compare (op : CompareOp)
  | arith (op : ArithOp)
deriving Repr, DecidableEq

inductive Token where
  | atom (atom : Atom)
  | operator (op : BinaryOp)
  | not
  | null
  | is
  | like
  | escape
  | among
  | lparen
  | rparen
  | comma
deriving Repr, DecidableEq

/-! ## Words -/

def isLetter (c : Char) : Bool := c.isAlpha || c == '_' || decide (128 ≤ c.toNat)

/-- The characters that mark a parameter. -/
def isMark (c : Char) : Bool := c == '@' || c == ':' || c == '$' || c == '#' || c == '?'

def isNameChar (c : Char) : Bool := isLetter c || c.isDigit

def isWordChar (c : Char) : Bool := isNameChar c || isMark c || c == '.'

def keywords : List (String × Token) :=
  [("or", .operator .or), ("and", .operator .and), ("not", .not), ("null", .null), ("is", .is), ("like", .like),
    ("escape", .escape), ("in", .among)]

def keyword? (word : List Char) : Option Token := keywords.lookup (Ident.key (String.ofList word))

/-- A letter, then letters and digits, and no keyword. -/
def isName : List Char → Bool
  | [] => false
  | c :: rest => isLetter c && rest.all isNameChar && (keyword? (c :: rest)).isNone

/-- A mark, then letters, digits and marks. -/
def isParameter : List Char → Bool
  | [] => false
  | c :: rest => isMark c && rest.all fun c => isNameChar c || isMark c

def isNumber (word : List Char) : Bool := !word.isEmpty && word.all Char.isDigit

/-- The token of a word without a point. -/
def plainWord (word : List Char) : Option Token :=
  if isNumber word then some (.atom (.number (value word)))
  else if isName word || isParameter word then some (.atom (.name (String.ofList word)))
  else keyword? word

/-- The token of a word; a point divides a member from its owner. -/
def Token.ofWord (word : List Char) : Option Token :=
  match word.dropWhile (· != '.') with
  | [] => plainWord word
  | _ :: column =>
    let owner := word.takeWhile (· != '.')
    if isName owner && isName column then some (.atom (.member (String.ofList owner) (String.ofList column))) else none

/-! ## Operators -/

def isOperatorChar (c : Char) : Bool :=
  c == '=' || c == '<' || c == '>' || c == '+' || c == '-' || c == '*' || c == '/' || c == '%'

def operators : List (List Char × BinaryOp) :=
  [(['='], .compare .eq), (['<', '>'], .compare .ne), (['<'], .compare .lt), (['<', '='], .compare .le),
    (['>'], .compare .gt), (['>', '='], .compare .ge), (['+'], .arith .add), (['-'], .arith .sub), (['*'], .arith .mul),
    (['/'], .arith .div), (['%'], .arith .mod)]

def Token.ofOperator (run : List Char) : Option Token := (operators.lookup run).map .operator

/-! ## Cutting a text -/

/-- The run that is being read, last character first. Behind a quote in a quoted text another one may
follow, which stands for itself. -/
inductive Mode where
  | blank
  | word (reversed : List Char)
  | operator (reversed : List Char)
  | quoted (reversed : List Char)
  | closing (reversed : List Char)

namespace Mode

/-- The run with one more character, if it goes on. -/
def continued : Mode → Char → Option Mode
  | blank, _ => none
  | word r, c => if isWordChar c then some (word (c :: r)) else none
  | operator r, c => if isOperatorChar c then some (operator (c :: r)) else none
  | quoted r, c => if c = '\'' then some (closing r) else some (quoted (c :: r))
  | closing r, c => if c = '\'' then some (quoted (c :: r)) else none

/-- The tokens of a run that has ended. -/
def tokens : Mode → Option (List Token)
  | blank => some []
  | word r => (Token.ofWord r.reverse).map fun t => [t]
  | operator r => (Token.ofOperator r.reverse).map fun t => [t]
  | quoted _ => none
  | closing r => some [.atom (.quoted (String.ofList r.reverse))]

@[simp] theorem continued_blank (c : Char) : blank.continued c = none := rfl

@[simp] theorem tokens_blank : blank.tokens = some [] := rfl

end Mode

/-- What a character starts: a mark is a token of its own, any other starts a run. -/
def start (c : Char) : Option (List Token × Mode) :=
  if isWordChar c then some ([], .word [c])
  else if isOperatorChar c then some ([], .operator [c])
  else if c = '\'' then some ([], .quoted [])
  else if c = '(' then some ([.lparen], .blank)
  else if c = ')' then some ([.rparen], .blank)
  else if c = ',' then some ([.comma], .blank)
  else if c.isWhitespace then some ([], .blank)
  else none

/-- The tokens of the run that is being read and of the text behind it. -/
def scan (m : Mode) : List Char → Option (List Token)
  | [] => m.tokens
  | c :: rest =>
    match m.continued c with
    | some m' => scan m' rest
    | none => do
      let before ← m.tokens
      let (tokens, m') ← start c
      let behind ← scan m' rest
      return before ++ tokens ++ behind

/-- The tokens of a text. -/
def lex (text : String) : Option (List Token) := scan .blank text.toList

/-! ## Pieces of text -/

/-- No run goes on with the character. -/
def isBreak (c : Char) : Bool := !isWordChar c && !isOperatorChar c && c != '\''

def Breaks (text : List Char) : Prop := ∀ c ∈ text.head?, isBreak c = true

/-- The text can follow any piece. -/
def startsApart (text : String) : Bool := text.toList.head?.any isBreak

/-- The text is cut into the tokens, whatever text without a run in front comes behind it. -/
def Lexes (text : String) (tokens : List Token) : Prop :=
  ∀ rest, Breaks rest → scan .blank (text.toList ++ rest) = (scan .blank rest).map (tokens ++ ·)

/-- The text is cut into the tokens, whatever comes behind it. -/
def Ends (text : String) (tokens : List Token) : Prop :=
  ∀ rest, scan .blank (text.toList ++ rest) = (scan .blank rest).map (tokens ++ ·)

theorem breaks_nil : Breaks [] := by
  rintro c ⟨⟩

variable {text : String} {tokens : List Token} {rest word : List Char} {t : Token} {c : Char}

theorem breaks_of_startsApart (h : startsApart text = true) (rest : List Char) :
    Breaks (text.toList ++ rest) := by
  unfold startsApart at h
  cases ht : text.toList with
  | nil => rw [ht] at h; cases h
  | cons c cs =>
    rw [ht] at h
    rintro d ⟨⟩
    exact h

theorem Breaks.continued_word {text : List Char} (h : Breaks text) (r : List Char) :
    ∀ c ∈ text.head?, (Mode.word r).continued c = none := by
  intro c hc
  have := h c hc
  simp only [isBreak, Bool.and_eq_true, Bool.not_eq_true'] at this
  simp [Mode.continued, this.1.1]

theorem Breaks.continued_closing {text : List Char} (h : Breaks text) (r : List Char) :
    ∀ c ∈ text.head?, (Mode.closing r).continued c = none := by
  intro c hc
  have := h c hc
  simp only [isBreak, Bool.and_eq_true, bne_iff_ne] at this
  exact if_neg this.2

theorem Ends.lexes (h : Ends text tokens) : Lexes text tokens :=
  fun rest _ => h rest

theorem lex_of_lexes (h : Lexes text tokens) : lex text = some tokens := by
  have := h [] breaks_nil
  rw [append_nil] at this
  rw [lex, this]
  simp [scan, Mode.tokens]

section

variable {s t : String} {ss ts : List Token}

theorem Ends.append (hs : Ends s ss) (ht : Ends t ts) : Ends (s ++ t) (ss ++ ts) := by
  intro rest
  rw [String.toList_append, append_assoc, hs, ht, Option.map_map]
  simp [Function.comp_def]

theorem Ends.append_lexes (hs : Ends s ss) (ht : Lexes t ts) : Lexes (s ++ t) (ss ++ ts) := by
  intro rest hrest
  rw [String.toList_append, append_assoc, hs, ht rest hrest, Option.map_map]
  simp [Function.comp_def]

theorem Lexes.append_ends (hs : Lexes s ss) (ha : startsApart t = true) (ht : Ends t ts) :
    Ends (s ++ t) (ss ++ ts) := by
  intro rest
  rw [String.toList_append, append_assoc, hs _ (breaks_of_startsApart ha rest), ht, Option.map_map]
  simp [Function.comp_def]

theorem Lexes.append (hs : Lexes s ss) (ha : startsApart t = true) (ht : Lexes t ts) :
    Lexes (s ++ t) (ss ++ ts) := by
  intro rest hrest
  rw [String.toList_append, append_assoc, hs _ (breaks_of_startsApart ha rest), ht rest hrest, Option.map_map]
  simp [Function.comp_def]

end

/-! ## Runs -/

/-- Behind a run that has ended the text is cut as if it stood alone. -/
theorem scan_of_ended {m : Mode} (h : ∀ c ∈ rest.head?, m.continued c = none) :
    scan m rest = m.tokens.bind fun before => (scan .blank rest).map (before ++ ·) := by
  cases rest with
  | nil => cases hm : m.tokens <;> simp [scan, hm]
  | cons c rest =>
    rw [scan, scan, h c rfl]
    cases m.tokens with
    | none => rfl
    | some before =>
      cases start c with
      | none => rfl
      | some p => cases hb : scan p.2 rest <;> simp [hb]

theorem scan_word (hw : word.all isWordChar = true) (hrest : Breaks rest) (r : List Char) :
    scan (.word r) (word ++ rest) =
      (Token.ofWord (r.reverse ++ word)).bind fun t => (scan .blank rest).map (t :: ·) := by
  induction word generalizing r with
  | nil =>
    rw [nil_append, scan_of_ended (hrest.continued_word r), append_nil]
    cases h : Token.ofWord r.reverse <;> simp [Mode.tokens, h]
  | cons c word ih =>
    obtain ⟨hc, hw⟩ := Bool.and_eq_true_iff.1 hw
    rw [cons_append, scan, Mode.continued, if_pos hc]
    simpa using ih hw (c :: r)

/-- A word is one token. -/
theorem lexes_word {word : String} (hw : word.toList.all isWordChar = true) (ht : Token.ofWord word.toList = some t) :
    Lexes word [t] := by
  intro rest hrest
  cases hword : word.toList with
  | nil =>
    have hnone : Token.ofWord [] = none := by decide +kernel
    rw [hword, hnone] at ht; cases ht
  | cons c cs =>
    rw [hword] at hw ht
    obtain ⟨hc, hcs⟩ := Bool.and_eq_true_iff.1 hw
    rw [cons_append, scan, Mode.continued_blank, start, if_pos hc]
    have := scan_word hcs hrest [c]
    rw [reverse_singleton, singleton_append, ht] at this
    simp [this]

theorem scan_operator {run : List Char} (hr : run.all isOperatorChar = true)
    (hrest : ∀ c ∈ rest.head?, isOperatorChar c = false) (r : List Char) :
    scan (.operator r) (run ++ rest) =
      (Token.ofOperator (r.reverse ++ run)).bind fun t => (scan .blank rest).map (t :: ·) := by
  induction run generalizing r with
  | nil =>
    rw [nil_append, scan_of_ended fun c hc => by simp [Mode.continued, hrest c hc], append_nil]
    cases h : Token.ofOperator r.reverse <;> simp [Mode.tokens, h]
  | cons c run ih =>
    obtain ⟨hc, hr⟩ := Bool.and_eq_true_iff.1 hr
    rw [cons_append, scan, Mode.continued, if_pos hc]
    simpa using ih hr (c :: r)

/-- An operator is one token, before anything but another operator. -/
theorem scan_blank_operator {run : List Char} (hr : run.all isOperatorChar = true)
    (hrest : ∀ c ∈ rest.head?, isOperatorChar c = false) (ht : Token.ofOperator run = some t) :
    scan .blank (run ++ rest) = (scan .blank rest).map (t :: ·) := by
  cases run with
  | nil => cases ht
  | cons c run =>
    obtain ⟨hc, hr⟩ := Bool.and_eq_true_iff.1 hr
    have hword : isWordChar c = false := by
      simp only [isOperatorChar, Bool.or_eq_true, beq_iff_eq] at hc
      rcases hc with (((((((rfl | rfl) | rfl) | rfl) | rfl) | rfl) | rfl) | rfl) <;> rfl
    have := scan_operator hr hrest [c]
    rw [reverse_singleton, singleton_append, ht] at this
    rw [cons_append, scan, Mode.continued_blank, start, if_neg (by simp [hword]), if_pos hc]
    simp [this]

theorem lexes_operator (hr : text.toList.all isOperatorChar = true) (ht : Token.ofOperator text.toList = some t) :
    Lexes text [t] := by
  refine fun rest hrest => scan_blank_operator hr (fun c hc => ?_) ht
  have := hrest c hc
  simp only [isBreak, Bool.and_eq_true, Bool.not_eq_true'] at this
  exact this.1.2

/-- Inside quotes each quote is written twice. -/
theorem scan_quoted (s rest r : List Char) (hrest : Breaks rest) :
    scan (.quoted r) (Quoted.escape s ++ '\'' :: rest) =
      (scan .blank rest).map (.atom (.quoted (String.ofList (r.reverse ++ s))) :: ·) := by
  induction s generalizing r with
  | nil =>
    rw [Quoted.escape, nil_append, scan, Mode.continued, if_pos rfl]
    simp [scan_of_ended (hrest.continued_closing r), Mode.tokens]
  | cons c s ih =>
    by_cases hc : c = '\''
    · subst hc
      rw [Quoted.escape, cons_append, cons_append, scan, Mode.continued, if_pos rfl]
      simpa [scan, Mode.continued] using ih ('\'' :: r)
    · rw [Quoted.escape, cons_append, scan, Mode.continued, if_neg hc]
      · simpa using ih (c :: r)
      · exact hc

theorem lexes_quote (s : String) : Lexes (Quoted.quote s) [.atom (.quoted s)] := by
  intro rest hrest
  have := scan_quoted s.toList rest [] hrest
  simpa [Quoted.quote, scan, start, isWordChar, isNameChar, isLetter, isMark,
    isOperatorChar] using this

/-! ## Names, parameters and numbers -/

theorem isDigit_of_isLetter (h : isLetter c = true) : c.isDigit = false := by
  by_contra hd
  change (decide (c.val ≥ 'A'.val ∧ c.val ≤ 'Z'.val) || (decide (c.val ≥ 'a'.val) && decide (c.val ≤ 'z'.val)) ||
    c == '_' || decide (128 ≤ c.toNat)) = true at h
  simp only [Char.isDigit, Bool.or_eq_true, Bool.and_eq_true, decide_eq_true_eq, beq_iff_eq, UInt32.le_iff_toNat_le,
    ge_iff_le, Bool.not_eq_false] at h hd
  have : c.toNat = c.val.toNat := rfl
  have : 'A'.val.toNat = 65 := rfl
  have : 'a'.val.toNat = 97 := rfl
  have : '9'.val.toNat = 57 := rfl
  rcases h with ((h | h) | rfl) | h
  · omega
  · omega
  · revert hd; decide
  · omega

theorem isDigit_of_isMark (h : isMark c = true) : c.isDigit = false := by
  simp only [isMark, Bool.or_eq_true, beq_iff_eq] at h
  rcases h with (((rfl | rfl) | rfl) | rfl) | rfl <;> rfl

/-- Characters of names and parameters are characters of words other than a point. -/
theorem isWordChar_of_isNameChar (h : (isNameChar c || isMark c) = true) :
    isWordChar c = true ∧ (c != '.') = true := by
  refine ⟨by simp [isWordChar, h], ?_⟩
  by_contra hc
  have hc : c = '.' := by simpa using hc
  subst hc
  revert h; decide

/-- A word without a point is a plain one. -/
theorem ofWord_plain (h : word.all (fun c => isNameChar c || isMark c) = true) :
    Token.ofWord word = plainWord word := by
  have : word.dropWhile (· != '.') = [] :=
    dropWhile_eq_nil_iff.2 fun c hc => (isWordChar_of_isNameChar (all_eq_true.1 h c hc)).2
  rw [Token.ofWord, this]

theorem all_of_isName (h : isName word = true) : word.all isNameChar = true := by
  cases word with
  | nil => rfl
  | cons c rest =>
    simp only [isName, Bool.and_eq_true] at h
    rw [all_cons, h.1.2, isNameChar, h.1.1]
    rfl

theorem isNumber_of_isName (h : isName word = true) : isNumber word = false := by
  cases word with
  | nil => rfl
  | cons c rest =>
    simp only [isName, Bool.and_eq_true] at h
    simp [isNumber, isDigit_of_isLetter h.1.1]

theorem isParameter_of_isName (h : isName word = true) : isParameter word = false := by
  cases word with
  | nil => rfl
  | cons c rest =>
    simp only [isName, Bool.and_eq_true] at h
    have hmark : isMark c = false := by
      by_contra hc
      simp only [Bool.not_eq_false, isMark, Bool.or_eq_true, beq_iff_eq] at hc
      rcases hc with (((rfl | rfl) | rfl) | rfl) | rfl <;> exact absurd h.1.1 (by decide)
    rw [isParameter, hmark, Bool.false_and]

theorem lexes_name {name : String} (h : isName name.toList = true) : Lexes name [.atom (.name name)] := by
  have hall : name.toList.all (fun c => isNameChar c || isMark c) = true :=
    all_eq_true.2 fun c hc => by simp [all_eq_true.1 (all_of_isName h) c hc]
  refine lexes_word (all_eq_true.2 fun c hc => (isWordChar_of_isNameChar (all_eq_true.1 hall c hc)).1) ?_
  rw [ofWord_plain hall, plainWord, isNumber_of_isName h, h]
  simp

theorem lexes_parameter {name : String} (h : isParameter name.toList = true) : Lexes name [.atom (.name name)] := by
  have hall : name.toList.all (fun c => isNameChar c || isMark c) = true := by
    cases hn : name.toList with
    | nil => rfl
    | cons c rest =>
      rw [hn] at h
      obtain ⟨hc, hrest⟩ := Bool.and_eq_true_iff.1 h
      rw [all_cons, hrest, hc]
      simp
  have hnumber : isNumber name.toList = false := by
    cases hn : name.toList with
    | nil => rfl
    | cons c rest =>
      rw [hn] at h
      simp [isNumber, isDigit_of_isMark (Bool.and_eq_true_iff.1 h).1]
  refine lexes_word (all_eq_true.2 fun c hc => (isWordChar_of_isNameChar (all_eq_true.1 hall c hc)).1) ?_
  rw [ofWord_plain hall, plainWord, hnumber, h]
  simp

theorem lexes_member {owner column : String} (ho : isName owner.toList = true) (hc : isName column.toList = true) :
    Lexes (owner ++ "." ++ column) [.atom (.member owner column)] := by
  have hpoint : ∀ {word : List Char}, isName word = true → ∀ c ∈ word, isWordChar c = true ∧ (c != '.') = true :=
    fun h c hc => isWordChar_of_isNameChar (by simp [all_eq_true.1 (all_of_isName h) c hc])
  have htext : (owner ++ "." ++ column).toList = owner.toList ++ '.' :: column.toList := by simp
  refine lexes_word ?_ ?_
  · rw [htext, all_append, all_cons]
    simp only [Bool.and_eq_true, all_eq_true]
    exact ⟨fun c h => (hpoint ho c h).1, rfl, fun c h => (hpoint hc c h).1⟩
  · have hdrop : (owner.toList ++ '.' :: column.toList).dropWhile (· != '.') = '.' :: column.toList := by
      rw [dropWhile_append_of_pos fun c h => (hpoint ho c h).2]
      rfl
    have htake : (owner.toList ++ '.' :: column.toList).takeWhile (· != '.') = owner.toList := by
      rw [takeWhile_append_of_pos fun c h => (hpoint ho c h).2]
      simp
    rw [htext, Token.ofWord, hdrop]
    simp [htake, ho, hc]

theorem lexes_number (n : Nat) : Lexes (ofNat n) [.atom (.number n)] := by
  have hdigits : ∀ c ∈ decimal n, c.isDigit = true :=
    fun c hc => Nat.isDigit_of_mem_toDigits (b := 10) (by decide) (by decide) hc
  have hall : (decimal n).all (fun c => isNameChar c || isMark c) = true :=
    all_eq_true.2 fun c hc => by simp [isNameChar, hdigits c hc]
  have htext : (ofNat n).toList = decimal n := by simp [ofNat]
  refine lexes_word ?_ ?_ <;> rw [htext]
  · exact all_eq_true.2 fun c hc => (isWordChar_of_isNameChar (all_eq_true.1 hall c hc)).1
  · have hnumber : isNumber (decimal n) = true := by
      have hne : decimal n ≠ [] := Nat.toDigits_ne_nil
      rw [isNumber, all_eq_true.2 hdigits]
      simpa using hne
    rw [ofWord_plain hall, plainWord, if_pos hnumber, value_decimal]

/-- A minus before something other than an operator. -/
theorem scan_minus (hc : isOperatorChar c = false) (rest : List Char) :
    scan .blank ('-' :: c :: rest) = (scan .blank (c :: rest)).map (.operator (.arith .sub) :: ·) := by
  have hrest : ∀ d ∈ (c :: rest).head?, isOperatorChar d = false := by
    rintro d hd
    cases hd
    exact hc
  have hrun : (['-'] : List Char).all isOperatorChar = true := by decide
  exact scan_blank_operator hrun hrest (by decide)

theorem lexes_minus (n : Nat) :
    Lexes (String.ofList ('-' :: decimal n)) [.operator (.arith .sub), .atom (.number n)] := by
  intro rest hrest
  have hnumber := lexes_number n rest hrest
  rw [ofNat, String.toList_ofList] at hnumber
  rw [String.toList_ofList]
  cases hd : decimal n with
  | nil => exact absurd hd Nat.toDigits_ne_nil
  | cons c more =>
    have hdigit : c.isDigit = true := by
      have hc : c ∈ decimal n := hd ▸ mem_cons_self
      exact Nat.isDigit_of_mem_toDigits (b := 10) (by decide) (by decide) hc
    have hoperator : isOperatorChar c = false := by
      by_contra hc
      simp only [Bool.not_eq_false, isOperatorChar, Bool.or_eq_true, beq_iff_eq] at hc
      rcases hc with (((((((rfl | rfl) | rfl) | rfl) | rfl) | rfl) | rfl) | rfl) <;> exact absurd hdigit (by decide)
    rw [hd] at hnumber
    rw [cons_append, cons_append, scan_minus hoperator, ← cons_append, hnumber, Option.map_map]
    rfl

/-! ## Marks, operators and keywords -/

/-- A character that starts no run. -/
theorem ends_mark (htext : text.toList = [c]) (hc : start c = some (tokens, .blank)) : Ends text tokens := by
  intro rest
  rw [htext, singleton_append, scan, Mode.continued_blank, hc]
  cases h : scan .blank rest <;> simp [h]

theorem ends_blank : Ends " " [] := ends_mark rfl rfl

theorem ends_lparen : Ends "(" [.lparen] := ends_mark rfl rfl

theorem ends_rparen : Ends ")" [.rparen] := ends_mark rfl rfl

theorem ends_comma : Ends "," [.comma] := ends_mark rfl rfl

/-- A text between blanks. -/
theorem Lexes.spaced (h : Lexes text tokens) : Ends (" " ++ text ++ " ") tokens := by
  simpa using (ends_blank.append_lexes h).append_ends (by decide) ends_blank

theorem lexes_compare (op : CompareOp) : Lexes op.text [.operator (.compare op)] := by
  cases op <;> exact lexes_operator (by decide) (by decide)

theorem lexes_arith (op : ArithOp) : Lexes op.text [.operator (.arith op)] := by
  cases op <;> exact lexes_operator (by decide) (by decide)

theorem ends_minusParen : Ends "-(" [.operator (.arith .sub), .lparen] := by
  intro rest
  have hparen := ends_lparen rest
  change scan .blank ('-' :: '(' :: rest) = _
  rw [scan_minus (by decide), show '(' :: rest = "(".toList ++ rest from rfl, hparen, Option.map_map]
  rfl

/-- The keywords as conditions have them. -/
def writtenKeywords : List (String × Token) :=
  [("NULL", .null), ("NOT", .not), ("AND", .operator .and), ("OR", .operator .or), ("IS", .is), ("LIKE", .like),
    ("ESCAPE", .escape), ("IN", .among)]

theorem lexes_keyword {word : String} (h : (word, t) ∈ writtenKeywords) : Lexes word [t] := by
  have hall : ∀ k ∈ writtenKeywords, k.1.toList.all isWordChar = true ∧ Token.ofWord k.1.toList = some k.2 := by
    decide +kernel
  exact lexes_word (hall _ h).1 (hall _ h).2

theorem lexes_null : Lexes "NULL" [.null] := lexes_keyword (by simp [writtenKeywords])

theorem lexes_not : Lexes "NOT" [.not] := lexes_keyword (by simp [writtenKeywords])

theorem lexes_is : Lexes "IS" [.is] := lexes_keyword (by simp [writtenKeywords])

theorem ends_and : Ends " AND " [.operator .and] :=
  (lexes_keyword (by simp [writtenKeywords]) : Lexes "AND" [.operator .and]).spaced

theorem ends_or : Ends " OR " [.operator .or] :=
  (lexes_keyword (by simp [writtenKeywords]) : Lexes "OR" [.operator .or]).spaced

theorem lexes_isNull : Lexes " IS NULL" [.is, .null] :=
  (ends_blank.append_lexes lexes_is).append (by decide) (ends_blank.append_lexes lexes_null)

theorem lexes_isNotNull : Lexes " IS NOT NULL" [.is, .not, .null] :=
  (ends_blank.append_lexes lexes_is).append (by decide)
    ((ends_blank.append_lexes lexes_not).append (by decide) (ends_blank.append_lexes lexes_null))

theorem ends_like : Ends " LIKE " [.like] :=
  (lexes_keyword (by simp [writtenKeywords]) : Lexes "LIKE" [.like]).spaced

theorem ends_escape : Ends " ESCAPE " [.escape] :=
  (lexes_keyword (by simp [writtenKeywords]) : Lexes "ESCAPE" [.escape]).spaced

theorem ends_inParen : Ends " IN (" [.among, .lparen] :=
  (lexes_keyword (by simp [writtenKeywords]) : Lexes "IN" [.among]).spaced.append ends_lparen

theorem ends_notParen : Ends "NOT (" [.not, .lparen] :=
  lexes_not.append_ends (by decide) (ends_blank.append ends_lparen)

end RelSql.Condition
