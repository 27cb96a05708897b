/-
# The blobs of a table

`parse_glob` of `src/fdw/glob.rs`, `validate_blob_pattern` of `src/fdw/options.rs`,
`list_with_prefix_etags` and `is_staging_name` of `src/azure/mod.rs`, and
`GlobSource::list` of `src/fdw/scan.rs`.  A table with a wildcard in its `filename`
has the blobs of the container whose names match the pattern and are no staging names
(`mem_globSourceList_iff`); the prefix that bounds the listing leaves none of them out.
-/

import ParquetAzureFdw.Arrow.Batch
import ParquetAzureFdw.Lib.Wildcard

namespace ParquetAzureFdw

open Wildcard

/-! ### Patterns -/

/-- What a character of a pattern becomes in the regex. -/
def globAtom : Char → Atom Char
  | '*' => .star
  | '?' => .one
  | c => .lit c

theorem globAtom_eq_lit {c : Char} (hstar : c ≠ '*') (hone : c ≠ '?') : globAtom c = .lit c := by
  unfold globAtom
  split
  · exact absurd rfl hstar
  · exact absurd rfl hone
  · rfl

/-- `GlobPattern`; the regex, anchored at both ends, is the list of its atoms. -/
structure GlobPattern where
  prefixText : String
  regex : List (Atom Char)
  deriving DecidableEq, Repr

/-- `Regex::is_match`. -/
def GlobPattern.isMatch (glob : GlobPattern) (name : String) : Bool :=
  Wildcard.isMatch '/' glob.regex name.toList

/-- `parse_glob`; `regexNew` is `Regex::new`, which may refuse an expression for its size. -/
def parseGlob (regexNew : List (Atom Char) → Except String Unit) (pattern : String) :
    FdwResult GlobPattern :=
  if pattern.isEmpty then .error (.invalidOption "filename is empty")
  else if pattern.toList.head? = some '/' then
    .error (.invalidOption
      "filename must be a blob name within the container, not an absolute path")
  else if ['.', '.'] <:+: pattern.toList then
    .error (.invalidOption "filename must not contain '..' path segments")
  else if ['*', '*'] <:+: pattern.toList then
    .error (.invalidOption "recursive glob '**' is not supported in v1")
  else
    match regexNew (pattern.toList.map globAtom) with
    | .error e => .error (.invalidOption ("invalid glob '" ++ pattern ++ "': " ++ e))
    | .ok _ =>
      .ok ⟨String.ofList (pattern.toList.takeWhile fun c => c != '*' && c != '?'),
        pattern.toList.map globAtom⟩

/-- `validate_blob_pattern`. -/
def validateBlobPattern (pattern fieldName : String) : FdwResult Unit :=
  if pattern.isEmpty then .error (.invalidOption (fieldName ++ " is empty"))
  else if pattern.toList.head? = some '/' then
    .error (.invalidOption (fieldName ++
      " must be a blob name within the container, not an absolute path"))
  else if (pattern.toList.splitOn '/').contains ['.', '.'] then
    .error (.invalidOption (fieldName ++ " must not contain '..' path segments"))
  else .ok ()

/-- What `parse_glob` accepts. -/
structure AcceptedGlob (pattern : String) (glob : GlobPattern) : Prop where
  ne_empty : pattern ≠ ""
  relative : pattern.toList.head? ≠ some '/'
  no_dots : ¬ ['.', '.'] <:+: pattern.toList
  no_double_star : ¬ ['*', '*'] <:+: pattern.toList
  prefixText_eq : glob.prefixText =
    String.ofList (pattern.toList.takeWhile fun c => c != '*' && c != '?')
  regex_eq : glob.regex = pattern.toList.map globAtom

theorem parseGlob_eq_ok {regexNew : List (Atom Char) → Except String Unit} {pattern : String}
    {glob : GlobPattern} (h : parseGlob regexNew pattern = .ok glob) : AcceptedGlob pattern glob := by
  unfold parseGlob at h
  split_ifs at h with hempty hslash hdots hstars
  split at h
  · cases h
  · obtain rfl := Except.ok.inj h
    exact ⟨by simpa using hempty, hslash, hdots, hstars, rfl, rfl⟩

/-- The option parser accepts every pattern that `parse_glob` accepts. -/
theorem AcceptedGlob.validateBlobPattern {pattern : String} {glob : GlobPattern}
    (h : AcceptedGlob pattern glob) (fieldName : String) :
    validateBlobPattern pattern fieldName = .ok () := by
  have hdots : ['.', '.'] ∉ pattern.toList.splitOn '/' := by
    intro hmem
    have hslash : '/' ∉ ['.', '.'] := by decide
    have hinfix := (Paths.infix_intercalate_iff hslash (List.splitOn_ne_nil '/' pattern.toList)).mpr
      ⟨_, hmem, List.infix_rfl⟩
    rw [List.intercalate_splitOn] at hinfix
    exact h.no_dots hinfix
  unfold ParquetAzureFdw.validateBlobPattern
  rw [if_neg (by simpa using h.ne_empty), if_neg h.relative, if_neg (by simpa using hdots)]

/-! ### Listings -/

/-- `is_staging_name`. -/
def isStagingName (name : String) : Bool := decide (".tmp.".toList <:+: name.toList)

theorem isStagingName_eq_false_iff {name : String} :
    isStagingName name = false ↔ ¬ ".tmp.".toList <:+: name.toList :=
  decide_eq_false_iff_not

/-- `MAX_LIST_RESULTS`. -/
def maxListResults : ℕ := 100000

/-- A blob in a page of a listing. -/
structure BlobItem where
  name : Option String
  etag : Option String
  deriving DecidableEq, Repr

/-- One turn of the loop of `list_with_prefix_etags`. -/
def collectListed (out : List (String × String)) (item : BlobItem) :
    FdwResult (List (String × String)) :=
  match item.name with
  | none => .ok out
  | some name =>
    if isStagingName name then .ok out
    else if maxListResults ≤ out.length then
      .error (.azure ("list_with_prefix exceeded MAX_LIST_RESULTS=" ++ toString maxListResults ++
        "; narrow the prefix or split the container"))
    else
      match item.etag with
      | none => .error (.azure ("list response for '" ++ name ++ "' missing etag"))
      | some etag => .ok (out ++ [(name, etag)])

/-- What the service lists for a prefix. -/
def BlobItem.hasPrefix (prefixText : String) (item : BlobItem) : Bool :=
  match item.name with
  | none => true
  | some name => prefixText.toList.isPrefixOf name.toList

/-- `list_with_prefix_etags`. -/
def listWithPrefixEtags (container : List BlobItem) (prefixText : String) :
    FdwResult (List (String × String)) :=
  (container.filter (BlobItem.hasPrefix prefixText)).foldlM collectListed []

/-- `GlobSource::list`. -/
def globSourceList (glob : GlobPattern) (container : List BlobItem) :
    FdwResult (List (String × String)) := do
  let listed ← listWithPrefixEtags container glob.prefixText
  return (listed.filter fun b => glob.isMatch b.1).mergeSort
    fun a b => (compare (utf8Bytes a.1) (utf8Bytes b.1)).isLE

section Listing

variable {container : List BlobItem} {out : List (String × String)} {name etag : String}

/-- A successful listing has the named blobs that are no staging blobs. -/
theorem mem_foldlM_collectListed {init : List (String × String)}
    (h : container.foldlM collectListed init = .ok out) :
    (name, etag) ∈ out ↔ (name, etag) ∈ init ∨
      ⟨some name, some etag⟩ ∈ container ∧ isStagingName name = false := by
  induction container generalizing init with
  | nil =>
    obtain rfl := Except.ok.inj h
    simp
  | cons item container ih =>
    rw [List.foldlM_cons, except_bind_eq_ok] at h
    obtain ⟨next, hnext, h⟩ := h
    rw [ih h]
    obtain ⟨itemName, itemEtag⟩ := item
    unfold collectListed at hnext
    cases itemName with
    | none =>
      obtain rfl := Except.ok.inj hnext
      simp
    | some itemName =>
      dsimp only at hnext
      split_ifs at hnext with hstaging hfull
      · obtain rfl := Except.ok.inj hnext
        simp only [List.mem_cons, BlobItem.mk.injEq, Option.some.injEq]
        grind
      · cases itemEtag with
        | none => cases hnext
        | some itemEtag =>
          obtain rfl := Except.ok.inj hnext
          simp only [List.mem_append, List.mem_cons, BlobItem.mk.injEq,
            Option.some.injEq, Prod.mk.injEq]
          grind

/-- A name that matches starts with the text before the first wildcard. -/
theorem AcceptedGlob.prefix_of_isMatch {pattern : String} {glob : GlobPattern}
    (h : AcceptedGlob pattern glob) (hmatch : glob.isMatch name = true) :
    glob.prefixText.toList <+: name.toList := by
  let plain : Char → Bool := fun c => c != '*' && c != '?'
  have hlit : (pattern.toList.takeWhile plain).map globAtom =
      (pattern.toList.takeWhile plain).map .lit := by
    refine List.map_congr_left fun c hc => ?_
    have hplain : plain c = true := List.mem_takeWhile_imp hc
    simp only [plain, Bool.and_eq_true, bne_iff_ne] at hplain
    exact globAtom_eq_lit hplain.1 hplain.2
  have hregex : glob.regex = (pattern.toList.takeWhile plain).map .lit ++
      (pattern.toList.dropWhile plain).map globAtom := by
    rw [h.regex_eq, ← hlit, ← List.map_append, List.takeWhile_append_dropWhile]
  rw [GlobPattern.isMatch, hregex] at hmatch
  rw [h.prefixText_eq, String.toList_ofList]
  exact Wildcard.prefix_of_isMatch hmatch

/-- **The blobs of a table are those of the container that match and are no staging blobs.** -/
theorem mem_globSourceList_iff {pattern : String} {glob : GlobPattern}
    (hglob : AcceptedGlob pattern glob) (h : globSourceList glob container = .ok out) :
    (name, etag) ∈ out ↔ ⟨some name, some etag⟩ ∈ container ∧ glob.isMatch name = true ∧
      isStagingName name = false := by
  obtain ⟨listed, hlisted, h⟩ := except_bind_eq_ok.mp h
  obtain rfl := Except.ok.inj h
  rw [List.mem_mergeSort, List.mem_filter, mem_foldlM_collectListed hlisted, List.mem_filter]
  simp only [List.not_mem_nil, false_or, BlobItem.hasPrefix, List.isPrefixOf_iff_prefix]
  constructor
  · rintro ⟨⟨⟨hmem, -⟩, hstaging⟩, hmatch⟩
    exact ⟨hmem, hmatch, hstaging⟩
  · rintro ⟨hmem, hmatch, hstaging⟩
    exact ⟨⟨⟨hmem, hglob.prefix_of_isMatch hmatch⟩, hstaging⟩, hmatch⟩

end Listing

end ParquetAzureFdw
