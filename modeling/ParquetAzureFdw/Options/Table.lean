/-
# The options of a foreign table

`parse_table_options_from_slice` and the checks it makes, of `src/fdw/options.rs`, with
`PgPartitionType::parse` there and `Compression::parse` of `src/parquet_io/writer.rs`.
`CREATE FOREIGN TABLE` runs it on the options it is given, and every scan and every
INSERT runs it again.

The loop over the options keeps the last value of each; what is checked against
something else is checked behind the loop.  So what is accepted has a file name and a
container that pass their checks, partition columns and keys that agree in name and
order, and sort columns exactly when the files are in order
(`parseTableOptionsFromSlice_eq_ok`).
-/

import ParquetAzureFdw.Relation
import ParquetAzureFdw.Scan.Glob

namespace ParquetAzureFdw

/-- `Compression`. -/
inductive Compression where
  | none | snappy | zstd | gzip
  deriving DecidableEq, Repr

/-- `str::to_ascii_lowercase`. -/
def asciiLowercase (s : String) : String := String.ofList (s.toList.map Char.toLower)

/-- `Compression::parse`. -/
def Compression.parse (s : String) : FdwResult Compression :=
  match asciiLowercase s with
  | "none" | "" => .ok .none
  | "snappy" => .ok .snappy
  | "zstd" => .ok .zstd
  | "gzip" => .ok .gzip
  | other => .error (.invalidOption ("compression='" ++ other ++ "'"))

/-- `PgPartitionType::parse`. -/
def PgPartitionType.parse (s : String) : FdwResult PgPartitionType :=
  match asciiLowercase s with
  | "int2" | "smallint" => .ok .int2
  | "int4" | "integer" | "int" => .ok .int4
  | "int8" | "bigint" => .ok .int8
  | "text" => .ok .text
  | "date" => .ok .date
  | other =>
    .error (.invalidOption ("partition_keys: type '" ++ other ++ "' not supported in v1 " ++
      "(supported: int2, int4, int8, text, date)"))

/-- `validate_container_name`. -/
def validateContainerName (name : String) : FdwResult Unit :=
  let chars := name.toList
  if (3 ≤ name.utf8ByteSize ∧ name.utf8ByteSize ≤ 63) ∧
      (chars.all fun c => c.isLower || c.isDigit || c == '-') ∧
      chars.head? ≠ some '-' ∧ chars.getLast? ≠ some '-' ∧ ¬ ['-', '-'] <:+: chars then .ok ()
  else .error (.invalidOption ("container must be 3-63 chars of [a-z0-9-], no leading/trailing " ++
    "or doubled '-' (got '" ++ name ++ "')"))

/-! ### Lists in an option -/

/-- The Unicode property `White_Space`, by which `str::trim` trims. -/
def isWhiteSpace (c : Char) : Bool :=
  let n := c.toNat
  (9 ≤ n && n ≤ 13) || (0x2000 ≤ n && n ≤ 0x200A) ||
    [0x20, 0x85, 0xA0, 0x1680, 0x2028, 0x2029, 0x202F, 0x205F, 0x3000].contains n

/-- `str::trim`. -/
def trim (s : List Char) : List Char := (s.dropWhile isWhiteSpace).rdropWhile isWhiteSpace

/-- The entries of a comma list, trimmed, without the empty ones. -/
def commaList (v : String) : List (List Char) :=
  ((v.toList.splitOn ',').map trim).filter (· ≠ [])

/-- One entry of `partition_keys`. -/
def parseKeyEntry (entry : List Char) : FdwResult (String × PgPartitionType) :=
  match splitOnce ':' entry with
  | none =>
    .error (.invalidOption ("partition_keys entry '" ++ String.ofList entry ++
      "' must be 'name:type'"))
  | some (name, ty) => do
    let ty ← PgPartitionType.parse (String.ofList (trim ty))
    return (String.ofList (trim name), ty)

/-! ### The loop -/

/-- The variables of `parse_table_options_from_slice`, with what they start from. -/
structure TableOptionsRead where
  container : Option String := none
  filename : Option String := none
  compression : Compression := .snappy
  parallelWorkers : Option Int32 := none
  partitionColumns : Option (List String) := none
  partitionKeys : Option (List (String × PgPartitionType)) := none
  sorted : List String := []
  filesInOrder : Bool := false

/-- The option `parallel_workers`. -/
def parseParallelWorkers (v : String) : FdwResult Int32 :=
  match parseSigned 32 v with
  | none =>
    .error (.invalidOption ("parallel_workers must be a non-negative integer; got '" ++ v ++ "'"))
  | some n =>
    if n < 0 then
      .error (.invalidOption ("parallel_workers must be non-negative; got " ++ toString n))
    else .ok (Int32.ofInt n)

/-- The body of the loop over the options. -/
def readTableOption (acc : TableOptionsRead) (option : String × String) :
    FdwResult TableOptionsRead :=
  let v := option.2
  match option.1 with
  | "container" => .ok { acc with container := some v }
  | "filename" => .ok { acc with filename := some v }
  | "compression" => do return { acc with compression := ← Compression.parse v }
  | "parallel_workers" => do return { acc with parallelWorkers := some (← parseParallelWorkers v) }
  | "partition_columns" =>
    .ok { acc with partitionColumns := some ((commaList v).map String.ofList) }
  | "partition_keys" => do
    return { acc with partitionKeys := some (← (commaList v).mapM parseKeyEntry) }
  | "sorted" => .ok { acc with sorted := (commaList v).map String.ofList }
  | "files_in_order" =>
    .ok { acc with filesInOrder := ["true", "yes", "1", "on"].contains (asciiLowercase v) }
  | other => .error (.invalidOption ("unknown table option '" ++ other ++ "'"))

/-! ### Behind the loop -/

/-- An option that must be there. -/
def required {α : Type} (name : String) : Option α → FdwResult α
  | some v => .ok v
  | none => .error (.missingOption name)

/-- The check that a partition column and a key at the same place have the same name. -/
def checkKeyName (i : ℕ) (col kname : String) : FdwResult Unit :=
  if eqIgnoreAsciiCase col.toList kname.toList then .ok ()
  else
    .error (.invalidOption ("partition_columns/partition_keys disagree at index " ++ toString i ++
      ": '" ++ col ++ "' vs '" ++ kname ++ "' (must be same name in same order)"))

/-- The check of `partition_columns` against `partition_keys`. -/
def checkPartitionOptions :
    Option (List String) → Option (List (String × PgPartitionType)) →
      FdwResult (List String × List (String × PgPartitionType))
  | none, none => .ok ([], [])
  | some _, none => .error (.invalidOption "partition_columns set but partition_keys missing")
  | none, some _ => .error (.invalidOption "partition_keys set but partition_columns missing")
  | some cols, some keys => do
    if cols.length ≠ keys.length then
      .error (.invalidOption ("partition_columns (" ++ toString cols.length ++
        " entries) and partition_keys (" ++ toString keys.length ++
        " entries) must have the same length"))
    else
      (cols.zip keys).zipIdx.forM fun place => checkKeyName place.2 place.1.1 place.1.2.1
      return (cols, keys)

/-- The check of `sorted` against `files_in_order`. -/
def checkSortOptions (sorted : List String) (filesInOrder : Bool) : FdwResult Unit :=
  match sorted.isEmpty, filesInOrder with
  | false, false =>
    .error (.invalidOption ("'sorted' is set but 'files_in_order' is missing or false; " ++
      "both must be set together"))
  | true, true =>
    .error (.invalidOption ("'files_in_order' is true but 'sorted' is empty; " ++
      "both must be set together"))
  | _, _ => .ok ()

/-- `TableOptions`. -/
structure TableOptions where
  container : String
  filename : String
  compression : Compression
  parallelWorkers : Option Int32
  partitionColumns : List String
  partitionKeys : List (String × PgPartitionType)
  sorted : List String
  filesInOrder : Bool
  deriving DecidableEq, Repr

/-- `parse_table_options_from_slice`. -/
def parseTableOptionsFromSlice (kv : List (String × String)) : FdwResult TableOptions := do
  let acc ← kv.foldlM readTableOption {}
  let filename ← required "filename" acc.filename
  validateBlobPattern filename "filename"
  let container ← required "container" acc.container
  validateContainerName container
  let (partitionColumns, partitionKeys) ←
    checkPartitionOptions acc.partitionColumns acc.partitionKeys
  checkSortOptions acc.sorted acc.filesInOrder
  return {
    container, filename, partitionColumns, partitionKeys
    compression := acc.compression
    parallelWorkers := acc.parallelWorkers
    sorted := acc.sorted
    filesInOrder := acc.filesInOrder }

/-! ### What is accepted -/

/-- What the options of a table satisfy. -/
structure AcceptedTable (opts : TableOptions) : Prop where
  filename_ok : validateBlobPattern opts.filename "filename" = .ok ()
  container_ok : validateContainerName opts.container = .ok ()
  agree : List.Forall₂ (fun col key => eqIgnoreAsciiCase col.toList key.1.toList = true)
    opts.partitionColumns opts.partitionKeys
  sort_paired : opts.sorted = [] ↔ opts.filesInOrder = false

theorem checkPartitionOptions_agree {cols? : Option (List String)}
    {keys? : Option (List (String × PgPartitionType))} {cols : List String}
    {keys : List (String × PgPartitionType)}
    (h : checkPartitionOptions cols? keys? = .ok (cols, keys)) :
    List.Forall₂ (fun col key => eqIgnoreAsciiCase col.toList key.1.toList = true) cols keys := by
  unfold checkPartitionOptions at h
  split at h
  · obtain ⟨rfl, rfl⟩ := Prod.mk.inj (Except.ok.inj h)
    exact .nil
  · cases h
  · cases h
  · rename_i cols' keys'
    split_ifs at h with hlength
    obtain ⟨⟨⟩, hnames, h⟩ := except_bind_eq_ok.mp h
    obtain ⟨rfl, rfl⟩ := Prod.mk.inj (Except.ok.inj h)
    refine List.forall₂_iff_get.mpr ⟨not_not.mp hlength, fun i hi hi' => ?_⟩
    have hplace : ((cols'[i], keys'[i]), i) ∈ (cols'.zip keys').zipIdx := by
      refine List.mem_zipIdx_iff_getElem?.mpr ?_
      rw [List.getElem?_zip_eq_some]
      exact ⟨List.getElem?_eq_getElem hi, List.getElem?_eq_getElem hi'⟩
    have hcheck := forM_eq_ok_iff.mp hnames _ hplace
    unfold checkKeyName at hcheck
    split_ifs at hcheck with heq
    exact heq

theorem checkSortOptions_eq_ok {sorted : List String} {filesInOrder : Bool}
    (h : checkSortOptions sorted filesInOrder = .ok ()) : sorted = [] ↔ filesInOrder = false := by
  unfold checkSortOptions at h
  cases sorted <;> cases filesInOrder <;> simp_all

/-- **What is accepted has passed every check.** -/
theorem parseTableOptionsFromSlice_eq_ok {kv : List (String × String)} {opts : TableOptions}
    (h : parseTableOptionsFromSlice kv = .ok opts) : AcceptedTable opts := by
  obtain ⟨acc, -, h⟩ := except_bind_eq_ok.mp h
  obtain ⟨filename, -, h⟩ := except_bind_eq_ok.mp h
  obtain ⟨⟨⟩, hfilename, h⟩ := except_bind_eq_ok.mp h
  obtain ⟨container, -, h⟩ := except_bind_eq_ok.mp h
  obtain ⟨⟨⟩, hcontainer, h⟩ := except_bind_eq_ok.mp h
  obtain ⟨⟨cols, keys⟩, hpartition, h⟩ := except_bind_eq_ok.mp h
  obtain ⟨⟨⟩, hsort, h⟩ := except_bind_eq_ok.mp h
  obtain rfl := Except.ok.inj h
  exact ⟨hfilename, hcontainer, checkPartitionOptions_agree hpartition,
    checkSortOptions_eq_ok hsort⟩

/-- The partition options of a table. -/
def AcceptedTable.partitions {opts : TableOptions} (h : AcceptedTable opts) : PartitionOptions :=
  ⟨opts.partitionColumns, opts.partitionKeys, h.agree⟩

/-- Names and types are trimmed, and empty entries are dropped. -/
example : (parseTableOptionsFromSlice [("filename", "t/*.parquet"), ("container", "data"),
    ("partition_columns", " year , ,region"), ("partition_keys", "Year : INT , region:text,")]).map
      TableOptions.partitionKeys = .ok [("Year", .int4), ("region", .text)] := by
  decide

end ParquetAzureFdw
