/-
# The regex of a glob

`parse_glob` of `src/fdw/glob.rs` writes a regular expression, character by character, and
`Regex::new` reads it back.  The text is read as one item for each character of the pattern
(`reads_regexSource`): what is escaped is exactly what would be read as anything but itself.
Between the anchors the items match a name exactly when the pattern does under the documented
rules (`regexFinds_iff`), so the listing of a table has the blobs whose names match
(`glob_listing_exact`).

The regex crate itself is a parameter (`RegexCrate`).  It is trusted with the standard meaning
of the few forms that occur, and may refuse a text.
-/

import ParquetAzureFdw.Lib.Scanning
import ParquetAzureFdw.Scan.Source

namespace ParquetAzureFdw

open Scanning

/-! ### The documented rules -/

/-- What the README says of a pattern: `*` is any run of characters within a segment, `?` one
such character, and every other character itself. -/
inductive MatchesGlob : List Char → List Char → Prop
  | nil : MatchesGlob [] []
  | star {pattern run name : List Char} (hrun : '/' ∉ run) (h : MatchesGlob pattern name) :
      MatchesGlob ('*' :: pattern) (run ++ name)
  | one {pattern name : List Char} {c : Char} (hc : c ≠ '/') (h : MatchesGlob pattern name) :
      MatchesGlob ('?' :: pattern) (c :: name)
  | lit {pattern name : List Char} {c : Char} (hstar : c ≠ '*') (hone : c ≠ '?')
      (h : MatchesGlob pattern name) : MatchesGlob (c :: pattern) (c :: name)

/-- **The matcher follows the documented rules.** -/
theorem isMatch_iff_matchesGlob {pattern name : List Char} :
    Wildcard.isMatch '/' (pattern.map globAtom) name = true ↔ MatchesGlob pattern name := by
  constructor
  · intro h
    induction pattern generalizing name with
    | nil =>
      rw [List.map_nil, Wildcard.isMatch_nil, List.isEmpty_iff] at h
      exact h ▸ .nil
    | cons c pattern ih =>
      rw [List.map_cons] at h
      by_cases hstar : c = '*'
      · subst hstar
        rw [show globAtom '*' = .star from rfl, Wildcard.isMatch_star, List.any_eq_true] at h
        obtain ⟨rest, hrest, h⟩ := h
        obtain ⟨run, hrun, rfl⟩ := Wildcard.suffix_of_mem_rests hrest
        exact .star hrun (ih h)
      · by_cases hone : c = '?'
        · subst hone
          rw [show globAtom '?' = .one from rfl] at h
          cases name with
          | nil => cases h
          | cons x name =>
            rw [Wildcard.isMatch_one_cons, Bool.and_eq_true, bne_iff_ne] at h
            exact .one h.1 (ih h.2)
        · rw [globAtom_eq_lit hstar hone] at h
          cases name with
          | nil => cases h
          | cons x name =>
            rw [Wildcard.isMatch_lit_cons, Bool.and_eq_true, beq_iff_eq] at h
            obtain ⟨rfl, h⟩ := h
            exact .lit hstar hone (ih h)
  · intro h
    induction h with
    | nil => rfl
    | star hrun _ ih =>
      rw [List.map_cons, show globAtom '*' = .star from rfl, Wildcard.isMatch_star,
        List.any_eq_true]
      exact ⟨_, Wildcard.mem_rests_append hrun, ih⟩
    | one hc _ ih =>
      rw [List.map_cons, show globAtom '?' = .one from rfl, Wildcard.isMatch_one_cons, ih,
        Bool.and_true, bne_iff_ne]
      exact hc
    | lit hstar hone _ ih =>
      rw [List.map_cons, globAtom_eq_lit hstar hone, Wildcard.isMatch_lit_cons, ih, beq_self_eq_true,
        Bool.and_true]

/-- A pattern matches part by part. -/
theorem matchesGlob_append_iff {p q name : List Char} :
    MatchesGlob (p ++ q) name ↔ ∃ a b, name = a ++ b ∧ MatchesGlob p a ∧ MatchesGlob q b := by
  constructor
  · intro h
    induction p generalizing name with
    | nil => exact ⟨[], name, rfl, .nil, h⟩
    | cons c p ih =>
      cases h with
      | @star _ run name hrun h =>
        obtain ⟨a, b, rfl, hp, hq⟩ := ih h
        exact ⟨run ++ a, b, (List.append_assoc ..).symm, .star hrun hp, hq⟩
      | one hc h =>
        obtain ⟨a, b, rfl, hp, hq⟩ := ih h
        exact ⟨_ :: a, b, rfl, .one hc hp, hq⟩
      | lit hstar hone h =>
        obtain ⟨a, b, rfl, hp, hq⟩ := ih h
        exact ⟨c :: a, b, rfl, .lit hstar hone hp, hq⟩
  · rintro ⟨a, b, rfl, hp, hq⟩
    induction hp with
    | nil => exact hq
    | star hrun _ ih =>
      rw [List.append_assoc]
      exact .star hrun ih
    | one hc _ ih => exact .one hc ih
    | lit hstar hone _ ih => exact .lit hstar hone ih

/-- A pattern without wildcards matches itself only. -/
theorem matchesGlob_plain_iff {w name : List Char} (hstar : '*' ∉ w) (hone : '?' ∉ w) :
    MatchesGlob w name ↔ name = w := by
  constructor
  · intro h
    induction h with
    | nil => rfl
    | star => simp at hstar
    | one => simp at hone
    | lit _ _ _ ih =>
      rw [ih (fun h => hstar (List.mem_cons_of_mem _ h)) fun h => hone (List.mem_cons_of_mem _ h)]
  · rintro rfl
    induction name with
    | nil => exact .nil
    | cons c name ih =>
      obtain ⟨hc, hstar⟩ := List.ne_and_not_mem_of_not_mem_cons hstar
      obtain ⟨hc', hone⟩ := List.ne_and_not_mem_of_not_mem_cons hone
      exact .lit hc.symm hc'.symm (ih hstar hone)

/-- Every pattern matches its own text. -/
theorem matchesGlob_self (pattern : List Char) : MatchesGlob pattern pattern := by
  induction pattern with
  | nil => exact .nil
  | cons c pattern ih =>
    by_cases hstar : c = '*'
    · subst hstar
      have hrun : MatchesGlob ('*' :: pattern) (['*'] ++ pattern) := .star (by decide) ih
      exact hrun
    · by_cases hone : c = '?'
      · subst hone
        exact .one (by decide) ih
      · exact .lit hstar hone ih

/-! ### The text -/

/-- The characters that `parse_glob` escapes. -/
def escapedChars : List Char := ['.', '+', '^', '$', '(', ')', '[', ']', '\x7b', '\x7d', '|', '\\']

/-- What the loop of `parse_glob` pushes for a character. -/
def globText (c : Char) : List Char :=
  if c = '*' then ['[', '^', '/', ']', '*']
  else if c = '?' then ['[', '^', '/', ']']
  else if c ∈ escapedChars then ['\\', c]
  else [c]

/-- `re_src`. -/
def regexSource (pattern : String) : String :=
  String.ofList ('^' :: (pattern.toList.flatMap globText ++ ['$']))

/-- The forms of the regex syntax that occur: the anchors, a character, `[^/]` and `[^/]*`. -/
inductive RegexItem where
  | start
  | stop
  | lit (c : Char)
  | notSlash
  | notSlashes
  deriving DecidableEq, Repr

/-- The characters that stand for themselves only behind a backslash. -/
def syntaxChars : List Char := '*' :: '?' :: escapedChars

/-- The next item of a regex.  A text with any other form in it is not read. -/
def nextItem (_ : Unit) : List Char → Option (RegexItem × Unit × List Char)
  | [] => none
  | c :: rest =>
    if c = '^' then some (.start, (), rest)
    else if c = '$' then some (.stop, (), rest)
    else if c = '\\' then
      match rest with
      | [] => none
      | d :: rest => if d ∈ syntaxChars then some (.lit d, (), rest) else none
    else if c = '[' then
      if ['^', '/', ']', '*'] <+: rest then some (.notSlashes, (), rest.drop 4)
      else if ['^', '/', ']'] <+: rest then some (.notSlash, (), rest.drop 3)
      else none
    else if c ∈ syntaxChars then none
    else some (.lit c, (), rest)

/-- The item that a character of the pattern becomes. -/
def globItem (c : Char) : RegexItem :=
  if c = '*' then .notSlashes else if c = '?' then .notSlash else .lit c

/-- No character of the pattern becomes a text that begins with a star, which would repeat what
stands before it. -/
theorem head_globText_ne_star (pattern : List Char) :
    ∀ c ∈ (pattern.flatMap globText ++ ['$']).head?, c ≠ '*' := by
  cases pattern with
  | nil => simp
  | cons c pattern =>
    rw [List.flatMap_cons, globText]
    split_ifs <;> simp_all

/-- The item of one character. -/
theorem nextItem_globText (c : Char) {rest : List Char} (hrest : ∀ d ∈ rest.head?, d ≠ '*') :
    nextItem () (globText c ++ rest) = some (globItem c, (), rest) := by
  rw [globText, globItem]
  by_cases hstar : c = '*'
  · simp [hstar, nextItem]
  · by_cases hone : c = '?'
    · cases rest with
      | nil => simp [hone, nextItem]
      | cons d rest =>
        have hd : d ≠ '*' := by simpa using hrest
        simp [hone, nextItem, hd.symm]
    · by_cases hescaped : c ∈ escapedChars
      · have hsyntax : c ∈ syntaxChars := List.mem_cons_of_mem _ (List.mem_cons_of_mem _ hescaped)
        simp [hstar, hone, hescaped, nextItem, hsyntax]
      · have hne : c ≠ '^' ∧ c ≠ '$' ∧ c ≠ '\\' ∧ c ≠ '[' := by
          refine ⟨?_, ?_, ?_, ?_⟩ <;> rintro rfl <;> exact hescaped (by decide)
        have hsyntax : c ∉ syntaxChars := by simp [syntaxChars, hstar, hone, hescaped]
        simp [hstar, hone, hescaped, nextItem, hne, hsyntax]

/-- **The text is read as one item for each character, between the anchors.** -/
theorem reads_regexSource (pattern : String) :
    Reads nextItem () (regexSource pattern).toList
      (.start :: (pattern.toList.map globItem ++ [.stop])) := by
  have hbody : ∀ l : List Char,
      Reads nextItem () (l.flatMap globText ++ ['$']) (l.map globItem ++ [.stop]) := by
    intro l
    induction l with
    | nil => exact .cons (by simp) rfl (.nil ())
    | cons c l ih =>
      rw [List.flatMap_cons, List.map_cons, List.append_assoc]
      exact .cons (by simp) (nextItem_globText c (head_globText_ne_star l)) ih
  rw [regexSource, String.toList_ofList]
  exact .cons (List.cons_ne_nil _ _) rfl (hbody _)

/-! ### Its meaning -/

/-- The items match the text, with what stands before and behind it. -/
inductive RegexFinds : List RegexItem → List Char → List Char → List Char → Prop
  | nil {before after : List Char} : RegexFinds [] before [] after
  | start {items : List RegexItem} {text after : List Char} (h : RegexFinds items [] text after) :
      RegexFinds (.start :: items) [] text after
  | stop {items : List RegexItem} {before : List Char} (h : RegexFinds items before [] []) :
      RegexFinds (.stop :: items) before [] []
  | lit {items : List RegexItem} {before text after : List Char} {c : Char}
      (h : RegexFinds items (before ++ [c]) text after) :
      RegexFinds (.lit c :: items) before (c :: text) after
  | notSlash {items : List RegexItem} {before text after : List Char} {c : Char} (hc : c ≠ '/')
      (h : RegexFinds items (before ++ [c]) text after) :
      RegexFinds (.notSlash :: items) before (c :: text) after
  | notSlashes {items : List RegexItem} {before run text after : List Char} (hrun : '/' ∉ run)
      (h : RegexFinds items (before ++ run) text after) :
      RegexFinds (.notSlashes :: items) before (run ++ text) after

/-- Up to the final anchor. -/
theorem regexFinds_body_iff {pattern before text after : List Char} :
    RegexFinds (pattern.map globItem ++ [.stop]) before text after ↔
      after = [] ∧ MatchesGlob pattern text := by
  constructor
  · intro h
    induction pattern generalizing before text with
    | nil =>
      cases h with
      | stop h => exact ⟨rfl, .nil⟩
    | cons c pattern ih =>
      rw [List.map_cons, globItem] at h
      split_ifs at h with hstar hone
      · cases h with
        | notSlashes hrun h => exact ⟨(ih h).1, hstar ▸ .star hrun (ih h).2⟩
      · cases h with
        | notSlash hc h => exact ⟨(ih h).1, hone ▸ .one hc (ih h).2⟩
      · cases h with
        | lit h => exact ⟨(ih h).1, .lit hstar hone (ih h).2⟩
  · rintro ⟨rfl, h⟩
    induction h generalizing before with
    | nil => exact .stop .nil
    | star hrun _ ih => exact .notSlashes hrun ih
    | one hc _ ih => exact .notSlash hc ih
    | lit hstar hone _ ih =>
      rw [List.map_cons, globItem, if_neg hstar, if_neg hone]
      exact .lit ih

/-- **Between the anchors a search is a match of the whole text.** -/
theorem regexFinds_iff {pattern text : List Char} :
    (∃ before found after, text = before ++ (found ++ after) ∧
        RegexFinds (.start :: (pattern.map globItem ++ [.stop])) before found after) ↔
      MatchesGlob pattern text := by
  constructor
  · rintro ⟨before, found, after, rfl, h⟩
    cases h with
    | start h =>
      obtain ⟨rfl, hmatches⟩ := regexFinds_body_iff.mp h
      simpa using hmatches
  · intro h
    exact ⟨[], text, [], by simp, .start (regexFinds_body_iff.mpr ⟨rfl, h⟩)⟩

/-- The regex crate.  `Regex::new` may refuse a text; what it accepts, and is made of the items
above, `is_match` finds where they match. -/
structure RegexCrate where
  Regex : Type
  new : String → Except String Regex
  isMatch : Regex → String → Bool
  isMatch_iff : ∀ {source : String} {regex : Regex} {items : List RegexItem},
    new source = .ok regex → Reads nextItem () source.toList items →
    ∀ text : String, isMatch regex text = true ↔ ∃ before found after,
      text.toList = before ++ (found ++ after) ∧ RegexFinds items before found after

/-! ### The listing -/

/-- `GlobPattern`, with the regex that was compiled. -/
structure CompiledGlob (crate : RegexCrate) where
  prefixText : String
  regex : crate.Regex

section Compiled

variable {crate : RegexCrate} {pattern : String} {glob : CompiledGlob crate}
  {container : List BlobItem} {s : BlobStore}

/-- `parse_glob`, with the text of the regex. -/
def compileGlob (crate : RegexCrate) (pattern : String) : FdwResult (CompiledGlob crate) :=
  if pattern.isEmpty then .error (.invalidOption "filename is empty")
  else if pattern.toList.head? = some '/' then
    .error (.invalidOption
      "filename must be a blob name within the container, not an absolute path")
  else if ['.', '.'] <:+: pattern.toList then
    .error (.invalidOption "filename must not contain '..' path segments")
  else if ['*', '*'] <:+: pattern.toList then
    .error (.invalidOption "recursive glob '**' is not supported in v1")
  else
    match crate.new (regexSource pattern) with
    | .error e => .error (.invalidOption ("invalid glob '" ++ pattern ++ "': " ++ e))
    | .ok regex =>
      .ok ⟨String.ofList (pattern.toList.takeWhile fun c => c != '*' && c != '?'), regex⟩

/-- `GlobSource::list`, with the compiled regex. -/
def CompiledGlob.list (glob : CompiledGlob crate) (container : List BlobItem) :
    FdwResult (List (String × String)) := do
  let listed ← listWithPrefixEtags container glob.prefixText
  return (listed.filter fun b => crate.isMatch glob.regex b.1).mergeSort
    fun a b => (compare (utf8Bytes a.1) (utf8Bytes b.1)).isLE

/-- The pattern that a compiled glob stands for. -/
theorem compileGlob_eq_ok (h : compileGlob crate pattern = .ok glob) :
    AcceptedGlob pattern ⟨glob.prefixText, pattern.toList.map globAtom⟩ ∧
      crate.new (regexSource pattern) = .ok glob.regex := by
  unfold compileGlob at h
  split_ifs at h with hempty hslash hdots hstars
  split at h
  · cases h
  · rename_i regex hregex
    obtain rfl := Except.ok.inj h
    exact ⟨⟨by simpa using hempty, hslash, hdots, hstars, rfl, rfl⟩, hregex⟩

theorem isMatch_compileGlob (h : compileGlob crate pattern = .ok glob) (name : String) :
    crate.isMatch glob.regex name = true ↔ MatchesGlob pattern.toList name.toList :=
  (crate.isMatch_iff (compileGlob_eq_ok h).2 (reads_regexSource pattern) name).trans regexFinds_iff

/-- **The compiled glob lists what its atoms list.** -/
theorem CompiledGlob.list_eq (h : compileGlob crate pattern = .ok glob)
    (container : List BlobItem) : glob.list container =
      globSourceList ⟨glob.prefixText, pattern.toList.map globAtom⟩ container := by
  have hmatch : (fun b : String × String => crate.isMatch glob.regex b.1) = fun b =>
      GlobPattern.isMatch ⟨glob.prefixText, pattern.toList.map globAtom⟩ b.1 := by
    funext b
    rw [Bool.eq_iff_iff, isMatch_compileGlob h, GlobPattern.isMatch, isMatch_iff_matchesGlob]
  rw [list, hmatch]
  rfl

/-- What `parse_glob` accepts, when the regex crate does. -/
theorem exists_compileGlob_iff : (∃ glob, compileGlob crate pattern = .ok glob) ↔
    (pattern ≠ "" ∧ pattern.toList.head? ≠ some '/') ∧ ¬ ['.', '.'] <:+: pattern.toList ∧
      ¬ ['*', '*'] <:+: pattern.toList ∧ ∃ regex, crate.new (regexSource pattern) = .ok regex := by
  constructor
  · rintro ⟨glob, h⟩
    obtain ⟨hglob, hnew⟩ := compileGlob_eq_ok h
    exact ⟨⟨hglob.ne_empty, hglob.relative⟩, hglob.no_dots, hglob.no_double_star, _, hnew⟩
  · rintro ⟨⟨hempty, hslash⟩, hdots, hstars, regex, hnew⟩
    refine ⟨⟨String.ofList (pattern.toList.takeWhile fun c => c != '*' && c != '?'), regex⟩, ?_⟩
    rw [compileGlob, if_neg (by simpa using hempty), if_neg hslash, if_neg hdots, if_neg hstars,
      hnew]

/-- What a listing that succeeds has. -/
theorem CompiledGlob.mem_of_list (h : compileGlob crate pattern = .ok glob)
    (hlists : s.Lists container) {out : List (String × String)}
    (hout : glob.list container = .ok out) (name etag : String) :
    (name, etag) ∈ out ↔ (∃ v, s.blobs name = some v ∧ v.etag = etag) ∧
      isStagingName name = false ∧ MatchesGlob pattern.toList name.toList := by
  have hmem : (⟨some name, some etag⟩ : BlobItem) ∈ container ↔
      ∃ v, s.blobs name = some v ∧ v.etag = etag := by
    rw [hlists.mem_iff]
    constructor
    · rintro ⟨name, v, hv, hitem⟩
      cases hitem
      exact ⟨v, hv, rfl⟩
    · rintro ⟨v, hv, rfl⟩
      exact ⟨name, v, hv, rfl⟩
  rw [mem_globSourceList_iff (compileGlob_eq_ok h).1 ((glob.list_eq h container).symm.trans hout),
    hmem, GlobPattern.isMatch, isMatch_iff_matchesGlob, and_comm (a := MatchesGlob _ _)]

/-- **A table's listing is exact.**  With at most `MAX_LIST_RESULTS` names under the prefix it
succeeds, and has the blobs of the container whose names are no staging names and match the
pattern, each once and with its etag. -/
theorem glob_listing_exact (h : compileGlob crate pattern = .ok glob)
    (hlists : s.Lists container)
    (hfew : (container.filter (BlobItem.hasPrefix glob.prefixText)).length ≤ maxListResults) :
    ∃ out, glob.list container = .ok out ∧ (out.map Prod.fst).Nodup ∧
      ∀ name etag, (name, etag) ∈ out ↔ (∃ v, s.blobs name = some v ∧ v.etag = etag) ∧
        isStagingName name = false ∧ MatchesGlob pattern.toList name.toList := by
  obtain ⟨out, hout⟩ : ∃ out, globSourceList ⟨glob.prefixText, pattern.toList.map globAtom⟩
      container = .ok out := exists_globSourceList_of_length_le hlists hfew
  have hlist := (glob.list_eq h container).trans hout
  exact ⟨out, hlist, nodup_globSourceList hlists hout, CompiledGlob.mem_of_list h hlists hlist⟩

end Compiled

/-- A crate that compiles the expression of one pattern only. -/
def onlyCrate (pattern : String) : RegexCrate where
  Regex := Unit
  new source := if source = regexSource pattern then .ok () else .error "size limit exceeded"
  isMatch _ text := Wildcard.isMatch '/' (pattern.toList.map globAtom) text.toList
  isMatch_iff := by
    intro source regex items hnew hreads text
    split_ifs at hnew with hsource
    subst hsource
    rw [(reads_regexSource _).unique hreads |>.symm, regexFinds_iff, isMatch_iff_matchesGlob]

theorem onlyCrate_new (pattern : String) :
    (onlyCrate pattern).new (regexSource pattern) = .ok () := by
  simp only [onlyCrate, if_true]

/-- A container with names outside ASCII. -/
def letterStore : BlobStore := .holding [("données/é.parquet", ⟨"0x1", []⟩),
  ("données/été.parquet", ⟨"0x2", []⟩), ("là/é.parquet", ⟨"0x3", []⟩)]

/-- Of the three blobs, one is listed: the name of the second is too long, and the third is in
another directory. -/
theorem one_letter_is_listed :
    ∃ glob, compileGlob (onlyCrate "données/?.parquet") "données/?.parquet" = .ok glob ∧
      ∃ out, glob.list [⟨some "données/é.parquet", some "0x1"⟩,
          ⟨some "données/été.parquet", some "0x2"⟩, ⟨some "là/é.parquet", some "0x3"⟩] = .ok out ∧
        ∀ blob, blob ∈ out ↔ blob = ("données/é.parquet", "0x1") := by
  have hcompile : compileGlob (onlyCrate "données/?.parquet") "données/?.parquet" =
      .ok ⟨"données/", ()⟩ := by
    have hbegin : String.ofList ("données/?.parquet".toList.takeWhile fun c =>
        c != '*' && c != '?') = "données/" := by decide
    rw [compileGlob, if_neg (by decide), if_neg (by decide),
      if_neg (by decide), if_neg (by decide), onlyCrate_new, hbegin]
  have hlists : letterStore.Lists _ := BlobStore.lists_holding (by decide)
  obtain ⟨out, hout, -, hmem⟩ := glob_listing_exact hcompile hlists (by decide)
  refine ⟨_, hcompile, out, hout, ?_⟩
  rintro ⟨name, etag⟩
  rw [hmem, ← isMatch_iff_matchesGlob]
  constructor
  · rintro ⟨⟨v, hv, rfl⟩, -, hmatch⟩
    obtain ⟨⟩ | ⟨_, ⟨⟩ | ⟨_, ⟨⟩ | ⟨_, ⟨⟩⟩⟩⟩ := mem_of_lookup hv
    · rfl
    · exact absurd hmatch (by decide)
    · exact absurd hmatch (by decide)
  · rintro ⟨rfl, rfl⟩
    exact ⟨⟨_, rfl, rfl⟩, by decide, by decide⟩

end ParquetAzureFdw
