/-
# File names that a scan can expand

A `filename` is checked twice: by `validate_blob_pattern` when the table is created
(`Options.Table`), and, if it has a wildcard, by `parse_glob` on every scan
(`Scan.GlobText`).  The README says that `..` and `**` are rejected at validation time.
The first check rejects a path segment that is `..`, and says nothing of `**`; the second
rejects either text wherever it stands.  So a table with `events/**/part.parquet` or with
`a..b*.parquet` is created, and each of its scans fails (`wildcard_filename_expands_iff`).
-/

import ParquetAzureFdw.Options.Table
import ParquetAzureFdw.Scan.GlobText

namespace ParquetAzureFdw

/-- The test by which a scan takes the `filename` for a pattern. -/
def HasWildcard (filename : String) : Prop := '*' ∈ filename.toList ∨ '?' ∈ filename.toList

instance (filename : String) : Decidable (HasWildcard filename) :=
  inferInstanceAs (Decidable (_ ∨ _))

/-- What `validate_blob_pattern` rejects besides `..` segments, `parse_glob` rejects too. -/
theorem relative_of_validateBlobPattern {pattern fieldName : String}
    (h : validateBlobPattern pattern fieldName = .ok ()) :
    pattern ≠ "" ∧ pattern.toList.head? ≠ some '/' := by
  unfold validateBlobPattern at h
  split_ifs at h with hempty hslash
  exact ⟨by simpa using hempty, hslash⟩

/-- **An accepted file name with a wildcard can be expanded exactly when neither `..` nor `**`
stands anywhere in it**, and the regex crate does not refuse the expression for its size. -/
theorem wildcard_filename_expands_iff (crate : RegexCrate) {kv : List (String × String)}
    {opts : TableOptions} (haccepted : parseTableOptionsFromSlice kv = .ok opts) :
    (HasWildcard opts.filename → ∃ glob, compileGlob crate opts.filename = .ok glob) ↔
      (HasWildcard opts.filename →
        ¬ ['.', '.'] <:+: opts.filename.toList ∧ ¬ ['*', '*'] <:+: opts.filename.toList ∧
          ∃ regex, crate.new (regexSource opts.filename) = .ok regex) := by
  have hrelative := relative_of_validateBlobPattern
    (parseTableOptionsFromSlice_eq_ok haccepted).filename_ok
  refine imp_congr_right fun _ => ?_
  rw [exists_compileGlob_iff]
  exact ⟨fun h => h.2, fun h => ⟨hrelative, h⟩⟩

/-- A table over one directory. -/
def oneDirectory : TableOptions :=
  ⟨"data", "données/?.parquet", .snappy, none, [], [], [], false⟩

/-- Its file name is accepted, and expands. -/
theorem one_directory_expands :
    parseTableOptionsFromSlice [("container", "data"), ("filename", "données/?.parquet")] =
        .ok oneDirectory ∧
      (HasWildcard oneDirectory.filename →
        ∃ glob, compileGlob (onlyCrate oneDirectory.filename) oneDirectory.filename = .ok glob) := by
  have haccepted : parseTableOptionsFromSlice
      [("container", "data"), ("filename", "données/?.parquet")] = .ok oneDirectory := by
    decide
  refine ⟨haccepted, (wildcard_filename_expands_iff _ haccepted).mpr fun _ => ?_⟩
  exact ⟨by decide, by decide, (), onlyCrate_new _⟩

/-- A recursive glob is accepted when the table is created, and refused by every scan. -/
theorem recursive_glob_is_accepted :
    (parseTableOptionsFromSlice [("container", "data"), ("filename", "events/**/part.parquet")]).map
        TableOptions.filename = .ok "events/**/part.parquet" ∧
      HasWildcard "events/**/part.parquet" ∧
      ∀ crate, compileGlob crate "events/**/part.parquet" =
        .error (.invalidOption "recursive glob '**' is not supported in v1") := by
  refine ⟨by decide, by decide, fun crate => ?_⟩
  rw [compileGlob, if_neg (by decide), if_neg (by decide),
    if_neg (by decide), if_pos (by decide)]

end ParquetAzureFdw
