/-
# SQL text

How the scanner of PostgreSQL cuts a statement into tokens, with `standard_conforming_strings`
on and before identifiers are truncated.  It reads a C string, up to its NUL (`cString`).
White space, comments (nested ones too), delimited identifiers, string constants, which may go
on behind a newline, words, integers and single symbols are read.  The other constants (`E''`,
`B''`, `X''`, `N''`, `U&`, dollar quotes, parameters, numbers that are not integers) and the
operators of several characters are not: a text that has one is refused, like one that ends
inside a quote.  A character of UTF-8 beyond ASCII belongs to words only, and so do its bytes.

A text between quotes whose inner quotes are doubled is read back as it was, whatever it holds
(`lexes_delimited`, `lexes_quoted`).
-/

import ParquetAzureFdw.Lib.Scanning

namespace SqlText

open Scanning

/-- A token with its value.  A word is a keyword or an identifier without quotes, in lower
case. -/
inductive Token where
  | word (text : String)
  | ident (name : String)
  | string (value : String)
  | integer (digits : String)
  | symbol (c : Char)
  deriving DecidableEq, Repr

/-- What the scanner is inside of; the text of a quoted token is kept as far as it is read. -/
inductive Mode where
  | initial
  | comment (depth : ℕ)
  | delimited (name : List Char)
  | quoted (value : List Char)
  deriving DecidableEq, Repr

/-! ### The rules -/

def isNewline (c : Char) : Bool := c == '\n' || c == '\r'

def isSpace (c : Char) : Bool := isNewline c || [' ', '\t', '\x0b', '\x0c'].contains c

def isIdentStart (c : Char) : Bool := c.isAlpha || c == '_' || decide (128 ≤ c.toNat)

def isIdentCont (c : Char) : Bool := isIdentStart c || c.isDigit || c == '$'

def isOpChar (c : Char) : Bool := "~!@#^&|\x60?+-*/%<>=".toList.contains c

/-- The one-character tokens that are no operators. -/
def isSelf (c : Char) : Bool := ",()[].;:".toList.contains c

/-- The text behind the quote that goes on with a string constant: only white space and
comments come before that quote, and a newline is among them. -/
def continuation : (newline inComment : Bool) → List Char → Option (List Char)
  | _, _, [] => none
  | newline, true, c :: l => continuation (newline || isNewline c) (!isNewline c) l
  | newline, false, c :: l =>
    if isSpace c then continuation (newline || isNewline c) false l
    else if c = '-' ∧ l.head? = some '-' then continuation newline true l
    else if c = '\'' ∧ newline then some l
    else none

/-- Whether a one-letter word and the quote behind it start a constant of another kind. -/
def startsConstant (word rest : List Char) : Bool :=
  match word, rest with
  | [c], '\'' :: _ => "bBeEnNxX".toList.contains c
  | [c], '&' :: q :: _ => (c == 'u' || c == 'U') && (q == '"' || q == '\'')
  | _, _ => false

/-- Whether what follows makes the character part of a longer token. -/
def goesOn (c : Char) (l : List Char) : Bool :=
  match l with
  | d :: _ =>
    isOpChar c && isOpChar d || c == '.' && (d == '.' || d.isDigit) ||
      c == ':' && (d == ':' || d == '=')
  | [] => false

/-- What a rule gives: the token, if there is one, the mode behind it and the rest. -/
abbrev Step := Option Token × Mode × List Char

/-- The rules outside of comments and quotes. -/
def initialRule (c : Char) (l : List Char) : Option Step :=
  if c = '\x00' then some (none, .initial, [])
  else if isSpace c then some (none, .initial, l)
  else if c = '-' ∧ l.head? = some '-' then
    some (none, .initial, l.dropWhile fun c => !isNewline c && c != '\x00')
  else if c = '/' ∧ l.head? = some '*' then some (none, .comment 0, l.tail)
  else if c = '"' then some (none, .delimited [], l)
  else if c = '\'' then some (none, .quoted [], l)
  else if isIdentStart c then
    let word := c :: l.takeWhile isIdentCont
    let rest := l.dropWhile isIdentCont
    if startsConstant word rest then none
    else some (some (.word (String.ofList (word.map Char.toLower))), .initial, rest)
  else if c.isDigit then
    let rest := l.dropWhile Char.isDigit
    if rest.head?.any fun d => isIdentCont d || d == '.' then none
    else some (some (.integer (String.ofList (c :: l.takeWhile Char.isDigit))), .initial, rest)
  else if (isOpChar c || isSelf c) && !goesOn c l then some (some (.symbol c), .initial, l)
  else none

/-- The rules inside a comment. -/
def commentRule (depth : ℕ) (c : Char) (l : List Char) : Option Step :=
  if c = '\x00' then none
  else if c = '/' ∧ l.head? = some '*' then some (none, .comment (depth + 1), l.tail)
  else if c = '*' ∧ l.head? = some '/' then
    some (none, if depth = 0 then .initial else .comment (depth - 1), l.tail)
  else some (none, .comment depth, l)

/-- The rules inside a delimited identifier, which must not be empty. -/
def delimitedRule (name : List Char) (c : Char) (l : List Char) : Option Step :=
  if c = '\x00' then none
  else if c ≠ '"' then some (none, .delimited (name ++ [c]), l)
  else if l.head? = some '"' then some (none, .delimited (name ++ ['"']), l.tail)
  else if name = [] then none
  else some (some (.ident (String.ofList name)), .initial, l)

/-- The rules inside a string constant. -/
def quotedRule (value : List Char) (c : Char) (l : List Char) : Option Step :=
  if c = '\x00' then none
  else if c ≠ '\'' then some (none, .quoted (value ++ [c]), l)
  else if l.head? = some '\'' then some (none, .quoted (value ++ ['\'']), l.tail)
  else
    match continuation false false l with
    | some rest => some (none, .quoted value, rest)
    | none => some (some (.string (String.ofList value)), .initial, l)

/-- A rule of the mode applied to what is left. -/
def nextToken : Next Mode Char (Option Token)
  | _, [] => none
  | .initial, c :: l => initialRule c l
  | .comment depth, c :: l => commentRule depth c l
  | .delimited name, c :: l => delimitedRule name c l
  | .quoted value, c :: l => quotedRule value c l

/-- The characters of a C string, with its NUL. -/
def cString (text : String) : List Char := text.toList.takeWhile (· != '\x00') ++ ['\x00']

theorem cString_eq {text : String} (h : '\x00' ∉ text.toList) :
    cString text = text.toList ++ ['\x00'] := by
  have hall : ∀ c ∈ text.toList, (c != '\x00') = true := fun c hc =>
    bne_iff_ne.mpr fun hnul => h (hnul ▸ hc)
  have htake := takeWhile_split hall stopsAt_nil
  rw [List.append_nil] at htake
  rw [cString, htake]

/-- The tokens of a text. -/
def lex (text : String) : Option (List Token) :=
  (scan nextToken (cString text).length .initial (cString text)).map (List.filterMap id)

/-! ### Every rule takes something -/

theorem length_continuation {newline inComment : Bool} {l rest : List Char}
    (h : continuation newline inComment l = some rest) : rest.length < l.length := by
  induction l generalizing newline inComment with
  | nil => cases inComment <;> cases h
  | cons c l ih =>
    cases inComment with
    | true => exact (ih h).trans (Nat.lt_succ_self _)
    | false =>
      rw [continuation] at h
      split_ifs at h
      · exact (ih h).trans (Nat.lt_succ_self _)
      · exact (ih h).trans (Nat.lt_succ_self _)
      · cases h
        exact Nat.lt_succ_self _

section Leaves

/-- A rule that applies leaves no more than this. -/
def Leaves (n : ℕ) (rule : Option Step) : Prop := ∀ step ∈ rule, step.2.2.length ≤ n

theorem leaves_none {n : ℕ} : Leaves n none := fun step h => by cases h

theorem leaves_some {n : ℕ} {token : Option Token} {mode : Mode} {rest : List Char}
    (h : rest.length ≤ n) : Leaves n (some (token, mode, rest)) := by
  intro step hstep
  cases hstep
  exact h

theorem leaves_ite {n : ℕ} {p : Prop} [Decidable p] {a b : Option Step} (ha : Leaves n a)
    (hb : Leaves n b) : Leaves n (if p then a else b) := by
  by_cases hp : p
  · rwa [if_pos hp]
  · rwa [if_neg hp]

variable (c : Char) (l : List Char)

theorem leaves_initialRule : Leaves l.length (initialRule c l) := by
  have hdrop (p : Char → Bool) : (l.dropWhile p).length ≤ l.length :=
    (List.dropWhile_suffix p).length_le
  refine leaves_ite (leaves_some (Nat.zero_le _)) ?_
  refine leaves_ite (leaves_some le_rfl) ?_
  refine leaves_ite (leaves_some (hdrop _)) ?_
  refine leaves_ite (leaves_some (by simp)) ?_
  refine leaves_ite (leaves_some le_rfl) ?_
  refine leaves_ite (leaves_some le_rfl) ?_
  refine leaves_ite (leaves_ite leaves_none (leaves_some (hdrop _))) ?_
  refine leaves_ite (leaves_ite leaves_none (leaves_some (hdrop _))) ?_
  exact leaves_ite (leaves_some le_rfl) leaves_none

theorem leaves_commentRule (depth : ℕ) : Leaves l.length (commentRule depth c l) := by
  refine leaves_ite leaves_none ?_
  refine leaves_ite (leaves_some (by simp)) ?_
  exact leaves_ite (leaves_some (by simp)) (leaves_some le_rfl)

theorem leaves_delimitedRule (name : List Char) :
    Leaves l.length (delimitedRule name c l) := by
  refine leaves_ite leaves_none (leaves_ite (leaves_some le_rfl) ?_)
  refine leaves_ite (leaves_some (by simp)) ?_
  exact leaves_ite leaves_none (leaves_some le_rfl)

theorem leaves_quotedRule (value : List Char) : Leaves l.length (quotedRule value c l) := by
  refine leaves_ite leaves_none (leaves_ite (leaves_some le_rfl) ?_)
  refine leaves_ite (leaves_some (by simp)) ?_
  cases hcontinued : continuation false false l with
  | none => exact leaves_some le_rfl
  | some rest => exact leaves_some (length_continuation hcontinued).le

theorem length_nextToken (mode : Mode) (l : List Char) (token : Option Token) (mode' : Mode)
    (rest : List Char) (h : nextToken mode l = some (token, mode', rest)) :
    rest.length < l.length := by
  cases l with
  | nil => cases mode <;> cases h
  | cons c l =>
    refine Nat.lt_succ_of_le ?_
    cases mode with
    | initial => exact leaves_initialRule c l _ h
    | comment depth => exact leaves_commentRule c l depth _ h
    | delimited name => exact leaves_delimitedRule c l name _ h
    | quoted value => exact leaves_quotedRule c l value _ h

end Leaves

/-! ### Reading a text from its parts -/

/-- From the mode, the text is read as the tokens. -/
def Lexes (mode : Mode) (l : List Char) (tokens : List Token) : Prop :=
  ∃ read, Reads nextToken mode l read ∧ read.filterMap id = tokens

variable {mode mode' : Mode} {c : Char} {l rest : List Char} {token : Token}
  {tokens : List Token}

theorem lex_eq_some {text : String} (h : Lexes .initial (cString text) tokens) :
    lex text = some tokens := by
  obtain ⟨read, hread, rfl⟩ := h
  rw [lex, scan_of_reads length_nextToken hread le_rfl, Option.map_some]

theorem Lexes.skip (h : Lexes mode' rest tokens)
    (htaken : nextToken mode (c :: l) = some (none, mode', rest)) :
    Lexes mode (c :: l) tokens := by
  obtain ⟨read, hread, rfl⟩ := h
  exact ⟨none :: read, .cons (List.cons_ne_nil c l) htaken hread, rfl⟩

theorem Lexes.take (h : Lexes mode' rest tokens)
    (htaken : nextToken mode (c :: l) = some (some token, mode', rest)) :
    Lexes mode (c :: l) (token :: tokens) := by
  obtain ⟨read, hread, rfl⟩ := h
  exact ⟨some token :: read, .cons (List.cons_ne_nil c l) htaken hread, rfl⟩

/-- The text ends at its NUL. -/
theorem lexes_end : Lexes .initial ['\x00'] [] :=
  Lexes.skip ⟨[], .nil .initial, rfl⟩ rfl

theorem lexes_space (hc : isSpace c = true) (h : Lexes .initial l tokens) :
    Lexes .initial (c :: l) tokens := by
  refine h.skip ?_
  have hnul : c ≠ '\x00' := fun hnul => by
    rw [hnul] at hc
    exact absurd hc (by decide)
  simp [nextToken, initialRule, hnul, hc]

/-- A symbol that is no operator stands alone, but for `.` and `:`, whatever follows. -/
theorem lexes_symbol (hc : ",();".toList.contains c = true) (h : Lexes .initial l tokens) :
    Lexes .initial (c :: l) (.symbol c :: tokens) := by
  refine h.take ?_
  obtain rfl | rfl | rfl | rfl : c = ',' ∨ c = '(' ∨ c = ')' ∨ c = ';' := by simpa using hc
  all_goals cases l <;> rfl

/-- A dot before a delimited identifier. -/
theorem lexes_dot (h : Lexes .initial ('"' :: l) tokens) :
    Lexes .initial ('.' :: '"' :: l) (.symbol '.' :: tokens) :=
  h.take rfl

/-- The word is made of letters, and of more than one: no constant begins with it. -/
def isPlainWord (word : List Char) : Bool := decide (2 ≤ word.length) && word.all Char.isAlpha

/-- A character of the kind is not among some that are not. -/
theorem contains_eq_false {kind : Char → Bool} {cs : List Char}
    (hcs : (cs.all fun d => !kind d) = true) (hc : kind c = true) : cs.contains c = false := by
  rw [List.contains_eq_mem, decide_eq_false_iff_not]
  intro hmem
  have hd := List.all_eq_true.mp hcs c hmem
  rw [hc] at hd
  cases hd

/-- The characters of the rules before those of words and numbers. -/
def early : List Char := ['\x00', '\n', '\r', ' ', '\t', '\x0b', '\x0c', '-', '/', '"', '\'']

theorem not_early (hc : early.contains c = false) :
    c ≠ '\x00' ∧ isSpace c = false ∧ c ≠ '-' ∧ c ≠ '/' ∧ c ≠ '"' ∧ c ≠ '\'' := by
  simp only [early, List.contains_cons, List.contains_nil, Bool.or_false, Bool.or_eq_false_iff,
    beq_eq_false_iff_ne] at hc
  obtain ⟨hnul, hnewline, hreturn, hblank, htab, hvtab, hfeed, hrest⟩ := hc
  refine ⟨hnul, ?_, hrest⟩
  simp only [isSpace, isNewline, List.contains_cons, List.contains_nil, Bool.or_false,
    Bool.or_eq_false_iff, beq_eq_false_iff_ne]
  exact ⟨⟨hnewline, hreturn⟩, hblank, htab, hvtab, hfeed⟩

theorem isIdentStart_of_isAlpha (hc : c.isAlpha = true) : isIdentStart c = true := by
  simp [isIdentStart, hc]

theorem isIdentCont_of_isAlpha (hc : c.isAlpha = true) : isIdentCont c = true := by
  simp [isIdentCont, isIdentStart_of_isAlpha hc]

/-- No rule before that of words is for a letter. -/
theorem initialRule_of_isAlpha (hc : c.isAlpha = true) :
    initialRule c l =
      if startsConstant (c :: l.takeWhile isIdentCont) (l.dropWhile isIdentCont) then none
      else some (some (.word (String.ofList ((c :: l.takeWhile isIdentCont).map Char.toLower))),
        .initial, l.dropWhile isIdentCont) := by
  obtain ⟨hnul, hspace, hdash, hslash, hdelimiter, hquote⟩ :=
    not_early (contains_eq_false (by decide) hc)
  simp only [initialRule, hnul, hspace, hdash, hslash, hdelimiter, hquote,
    isIdentStart_of_isAlpha hc, false_and, if_false, if_true, Bool.false_eq_true]

theorem lexes_word {word : List Char} (hword : isPlainWord word = true)
    (hstop : StopsAt (fun c => !isIdentCont c) l) (h : Lexes .initial l tokens) :
    Lexes .initial (word ++ l) (.word (String.ofList (word.map Char.toLower)) :: tokens) := by
  obtain ⟨hlength, halpha⟩ : 2 ≤ word.length ∧ ∀ c ∈ word, c.isAlpha = true := by
    simpa [isPlainWord] using hword
  obtain ⟨c, word, rfl⟩ := List.exists_cons_of_length_pos (by omega : 0 < word.length)
  rw [List.length_cons] at hlength
  obtain ⟨d, word, rfl⟩ := List.exists_cons_of_length_pos (by omega : 0 < word.length)
  obtain ⟨hc, hrest⟩ := List.forall_mem_cons.mp halpha
  have hcont : ∀ e ∈ d :: word, isIdentCont e = true := fun e he =>
    isIdentCont_of_isAlpha (hrest e he)
  have htaken : nextToken .initial (c :: (d :: word ++ l)) =
      some (some (.word (String.ofList ((c :: d :: word).map Char.toLower))), .initial, l) := by
    rw [nextToken, initialRule_of_isAlpha hc, takeWhile_split hcont hstop,
      dropWhile_split hcont hstop]
    rfl
  exact h.take htaken

theorem isIdentStart_of_isDigit (hc : c.isDigit = true) : isIdentStart c = false := by
  have hc' : 48 ≤ c.toNat ∧ c.toNat ≤ 57 := by
    simpa [Char.isDigit, UInt32.le_iff_toNat_le] using hc
  have hunderscore : c ≠ '_' := fun h => by
    rw [h] at hc
    exact absurd hc (by decide)
  have halpha : c.isAlpha = false := by
    refine Bool.or_eq_false_iff.mpr ⟨?_, ?_⟩
    · have hupper : ¬ 65 ≤ c.toNat := by omega
      exact decide_eq_false fun h => absurd (UInt32.le_iff_toNat_le.mp h.1) hupper
    · have hlower : ¬ 97 ≤ c.toNat := by omega
      refine Bool.and_eq_false_imp.mpr fun h => ?_
      exact absurd (UInt32.le_iff_toNat_le.mp (of_decide_eq_true h)) hlower
  have hascii : ¬ 128 ≤ c.toNat := by omega
  simp [isIdentStart, halpha, hunderscore, hascii]

/-- Digits that neither a word nor a fraction follows. -/
theorem lexes_integer {digits : List Char} (hne : digits ≠ [])
    (hdigits : ∀ c ∈ digits, c.isDigit = true)
    (hstop : StopsAt (fun c => !isIdentCont c && c != '.') l) (h : Lexes .initial l tokens) :
    Lexes .initial (digits ++ l) (.integer (String.ofList digits) :: tokens) := by
  obtain ⟨c, digits, rfl⟩ := List.exists_cons_of_ne_nil hne
  obtain ⟨hc, hdigits⟩ := List.forall_mem_cons.mp hdigits
  obtain ⟨hnul, hspace, hdash, hslash, hdelimiter, hquote⟩ :=
    not_early (contains_eq_false (by decide) hc)
  have hstopDigit : StopsAt (fun c => !c.isDigit) l := hstop.mono fun d hd => by
    simp only [isIdentCont, Bool.not_or, Bool.and_eq_true] at hd
    exact hd.1.1.2
  have hjunk : (l.head?.any fun d => isIdentCont d || d == '.') = false := by
    cases l with
    | nil => rfl
    | cons d l => simpa using hstop
  refine h.take ?_
  simp only [List.append_eq, nextToken, initialRule, hnul, hspace, hdash, hslash, hdelimiter,
    hquote, isIdentStart_of_isDigit hc, hc, takeWhile_split hdigits hstopDigit,
    dropWhile_split hdigits hstopDigit, hjunk, false_and, if_false, if_true, Bool.false_eq_true]

/-- A sign before a digit. -/
theorem lexes_minus (hc : c.isDigit = true) (h : Lexes .initial (c :: l) tokens) :
    Lexes .initial ('-' :: c :: l) (.symbol '-' :: tokens) := by
  refine h.take ?_
  have hdash : c ≠ '-' := (not_early (contains_eq_false (by decide) hc)).2.2.1
  have hop : isOpChar c = false := contains_eq_false (by decide) hc
  have hgoesOn : goesOn '-' (c :: l) = false := by
    simp [goesOn, hop]
  have hcomment : ¬ ('-' = '-' ∧ (c :: l).head? = some '-') := by simpa using hdash
  rw [nextToken, initialRule, if_neg (by decide), if_neg (by decide), if_neg hcomment,
    if_neg (by simp), hgoesOn]
  rfl

/-! ### Quoted texts -/

/-- The text with every quote doubled. -/
def doubled (quote : Char) (text : List Char) : List Char :=
  text.flatMap fun c => if c = quote then [quote, quote] else [c]

/-- **A text with its quotes doubled goes into the token as it was,** when the mode takes two
quotes as one and every other character as it is. -/
theorem lexes_doubled {inside : List Char → Mode} {quote : Char}
    (hchar : ∀ read c l, c ≠ '\x00' → c ≠ quote →
      nextToken (inside read) (c :: l) = some (none, inside (read ++ [c]), l))
    (hquote : ∀ read l, nextToken (inside read) (quote :: quote :: l) =
      some (none, inside (read ++ [quote]), l))
    {read text : List Char} (hnul : '\x00' ∉ text)
    (h : Lexes (inside (read ++ text)) l tokens) :
    Lexes (inside read) (doubled quote text ++ l) tokens := by
  induction text generalizing read with
  | nil => simpa [doubled] using h
  | cons c text ih =>
    obtain ⟨hc, hnul⟩ := List.ne_and_not_mem_of_not_mem_cons hnul
    have hrest : Lexes (inside (read ++ [c])) (doubled quote text ++ l) tokens :=
      ih hnul (by simpa using h)
    by_cases heq : c = quote
    · subst heq
      have hdoubled : doubled c (c :: text) = c :: c :: doubled c text := by simp [doubled]
      rw [hdoubled]
      exact hrest.skip (hquote read _)
    · have hdoubled : doubled quote (c :: text) = c :: doubled quote text := by
        simp [doubled, heq]
      rw [hdoubled]
      exact hrest.skip (hchar read c _ (Ne.symm hc) heq)

/-- The identifier ends at its quote when no other quote follows. -/
theorem lexes_delimited {text : List Char} (hne : text ≠ []) (hnul : '\x00' ∉ text)
    (hstop : StopsAt (· != '"') l) (h : Lexes .initial l tokens) :
    Lexes .initial ('"' :: (doubled '"' text ++ '"' :: l))
      (.ident (String.ofList text) :: tokens) := by
  have hend : Lexes (.delimited text) ('"' :: l) (.ident (String.ofList text) :: tokens) := by
    refine h.take ?_
    have hhead : l.head? ≠ some '"' := fun hhead => by simpa using hstop _ hhead
    simp [nextToken, delimitedRule, hhead, hne]
  have hinside : Lexes (.delimited []) (doubled '"' text ++ '"' :: l) _ :=
    lexes_doubled (fun read c l hc hquote => by simp [nextToken, delimitedRule, hc, hquote])
      (fun read l => rfl) hnul hend
  exact hinside.skip rfl

/-- The constant ends at its quote when neither a quote nor a newline follows. -/
theorem lexes_quoted {text : List Char} (hnul : '\x00' ∉ text)
    (hstop : StopsAt (fun c => c != '\'' && c != '-' && !isSpace c) l)
    (h : Lexes .initial l tokens) :
    Lexes .initial ('\'' :: (doubled '\'' text ++ '\'' :: l))
      (.string (String.ofList text) :: tokens) := by
  have hend : Lexes (.quoted text) ('\'' :: l) (.string (String.ofList text) :: tokens) := by
    refine h.take ?_
    cases l with
    | nil => rfl
    | cons c l =>
      obtain ⟨⟨hquote, hdash⟩, hspace⟩ : (c ≠ '\'' ∧ c ≠ '-') ∧ isSpace c = false := by
        simpa using hstop
      simp [nextToken, quotedRule, continuation, hquote, hdash, hspace]
  have hinside : Lexes (.quoted []) (doubled '\'' text ++ '\'' :: l) _ :=
    lexes_doubled (fun read c l hc hquote => by simp [nextToken, quotedRule, hc, hquote])
      (fun read l => rfl) hnul hend
  exact hinside.skip rfl

end SqlText
