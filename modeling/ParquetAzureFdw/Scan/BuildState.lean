/-
# The start of a scan

`build_state` and `build_sorted_stream_if_active` of `src/fdw/scan.rs`.  `build_state` publishes
the blobs of the scan on the hand-off stack and only then opens the merge of a sorted table: it
looks the sort columns up, opens every blob, compares the types of their sort columns, and reads
a first row of each.  Any of this can fail, and then the entry stays.

The merge opens exactly when the table and its blobs are as `SortedMergeOpens` says
(`exists_buildSortedStreamIfActive_iff`), and no step of it panics, since a batch has the columns
of its file.  So a start that fails leaves the stack alone when it fails before the list is
published, and only then (`failed_start_leaves_handoff_iff`).
-/

import ParquetAzureFdw.Modify.Handoff
import ParquetAzureFdw.Relation
import ParquetAzureFdw.Scan.SortedMerge

namespace ParquetAzureFdw

open Merging

/-! ### The merge of a sorted table -/

/-- A `ParquetRecordBatchStreamBuilder`: the types of the fields of its schema, and what `build`
returns.  A batch has the columns of the schema. -/
structure BlobBuilder where
  fields : List DataType
  build : FdwResult RecordBatchStream
  columns_of_batch : ∀ stream, build = .ok stream → ∀ batch, .ok batch ∈ stream →
    batch.columns.length = fields.length

/-- What a scan finds outside: the `enable_multifile` setting, whether the command is a SELECT,
the attributes of the table, and what opening a blob gives. -/
structure ScanNode where
  enableMultifile : Bool
  isSelect : Bool
  attrs : List Attribute
  openBlob : String → FdwResult BlobBuilder

/-- The fields of `ScanStateCore` that `build_state` reads; `natts` is the length of `pg_oids`,
and `sorted` that option of the table. -/
structure ScanStateCore where
  blobs : List ListedBlob
  natts : ℕ
  projection : Option (List ℕ)
  attnoMap : List ℕ
  sorted : List String
  partitionAttnums : List ℕ
  storageAttnoToParquetIdx : List (Option ℕ)

/-- `resolve_attno_by_name`. -/
def resolveAttnoByName (node : ScanNode) (name : String) : FdwResult ℕ :=
  match node.attrs.findIdx? fun att => eqIgnoreAsciiCase att.name.toList name.toList with
  | some attno => .ok attno
  | none => .error (.schemaMismatch ("column '" ++ name ++ "' not found on foreign table"))

/-- The check that a sort column is no partition column. -/
def checkSortColumn (node : ScanNode) (core : ScanStateCore) (name : String) : FdwResult Unit := do
  let attno ← resolveAttnoByName node name
  if attno ∈ core.partitionAttnums then
    .error (.schemaMismatch ("sort column '" ++ name ++
      "' is a partition column; partition values are constant per blob"))
  else .ok ()

/-- The parquet index of a sort column. -/
def sortColIndex (node : ScanNode) (core : ScanStateCore) (name : String) : FdwResult ℕ := do
  let attno ← resolveAttnoByName node name
  match core.storageAttnoToParquetIdx[attno]?.join with
  | some idx => .ok idx
  | none =>
    .error (.schemaMismatch ("sort column '" ++ name ++
      "' has no parquet index (storage_attno map miss)"))

/-- A blob that was opened, with the types of its sort columns. -/
structure OpenedBlob where
  blob : String
  types : List DataType
  stream : RecordBatchStream

/-- The type of a sort column in the schema of a blob. -/
def sortColType (blob : String) (b : BlobBuilder) (colIdx : ℕ) : FdwResult DataType :=
  match b.fields[colIdx]? with
  | some ty => .ok ty
  | none =>
    .error (.schemaMismatch ("sort column index " ++ toString colIdx ++
      " out of range for blob '" ++ blob ++ "' (parquet has " ++ toString b.fields.length ++
      " columns)"))

/-- The future that opens a blob. -/
def openSorted (node : ScanNode) (sortColIndices : List ℕ) (blob : String) :
    FdwResult OpenedBlob := do
  let b ← node.openBlob blob
  let types ← sortColIndices.mapM (sortColType blob b)
  let stream ← b.build
  return ⟨blob, types, stream⟩

/-- The same-type guard between a blob and the first one. -/
def checkTypes (sortColIndices : List ℕ) (first : List DataType) (opened : OpenedBlob) :
    FdwResult Unit :=
  match (sortColIndices.zip (opened.types.zip first)).find? fun p => p.2.1 ≠ p.2.2 with
  | none => .ok ()
  | some (colIdx, this, first) =>
    .error (.schemaMismatch ("blob '" ++ opened.blob ++
      "' disagrees on the type of sort column at parquet index " ++ toString colIdx ++ ": " ++
      this.debug ++ " vs " ++ first.debug ++ " — all merged blobs must share the same physical type"))

/-- The variables of the loop over the opened blobs. -/
structure Collected where
  firstSortTypes : Option (List DataType)
  streams : List RecordBatchStream
  names : List String

/-- An iteration of the loop over the opened blobs. -/
def Collected.add (sortColIndices : List ℕ) (acc : Collected) (res : FdwResult OpenedBlob) :
    FdwResult Collected := do
  let opened ← res
  match acc.firstSortTypes with
  | none =>
    .ok ⟨some opened.types, acc.streams ++ [opened.stream], acc.names ++ [opened.blob]⟩
  | some first => do
    checkTypes sortColIndices first opened
    .ok ⟨some first, acc.streams ++ [opened.stream], acc.names ++ [opened.blob]⟩

/-- `build_sorted_stream_if_active` between the test of the mode and the merge: the indices of the
sort columns, and the streams. -/
def sortedSources (node : ScanNode) (core : ScanStateCore) : FdwResult (List ℕ × Collected) := do
  if core.partitionAttnums ≠ [] then
    .error (.schemaMismatch ("sorted merge is not supported on partitioned tables in v1; " ++
      "combine partition pruning OR sorted merge, not both"))
  else
    forM core.sorted (checkSortColumn node core)
    if 256 < core.blobs.length then
      .error (.schemaMismatch ("sorted-merge cannot open " ++ toString core.blobs.length ++
        " blobs at once (cap 256) — narrow the filename glob or partition filter"))
    else
      let sortColIndices ← core.sorted.mapM (sortColIndex node core)
      let opened := core.blobs.map fun blob => openSorted node sortColIndices blob.1
      let collected ← opened.foldlM (Collected.add sortColIndices) ⟨none, [], []⟩
      return (sortColIndices, collected)

/-- Whether a scan merges its blobs. -/
def sortedActive (node : ScanNode) (core : ScanStateCore) : Bool :=
  node.enableMultifile && !core.sorted.isEmpty && node.isSelect

section

variable (queue : PriorityQueue HeapEntry HeapEntry.le)

/-- `build_sorted_stream_if_active`. -/
def buildSortedStreamIfActive (node : ScanNode) (core : ScanStateCore) :
    Outcome (Option (MultiFileSortedStream queue)) :=
  if sortedActive node core then do
    let (sortColIndices, collected) ← FdwResult.lift (sortedSources node core)
    let stream ← MultiFileSortedStream.new queue collected.streams collected.names sortColIndices
    return some stream
  else .ok none

/-- The part of `ScanState` that `build_state` decides. -/
structure StartedScan where
  blobs : List ListedBlob
  projection : Option (List ℕ)
  attnoMap : List ℕ
  sortedStream : Option (MultiFileSortedStream queue)

/-- `build_state`, for what `build_scan_state_core` returns. -/
def buildState (node : ScanNode) (relid : Oid) (core : FdwResult ScanStateCore) (h : Handoff) :
    Outcome (StartedScan queue) × Handoff :=
  match core with
  | .error e => (.error (.error e), h)
  | .ok core =>
    let h := h.publish relid core.blobs
    match buildSortedStreamIfActive queue node core with
    | .error f => (.error f, h)
    | .ok none => (.ok ⟨core.blobs, core.projection, core.attnoMap, none⟩, h)
    | .ok (some stream) =>
      -- the merge returns all columns in the order of the file
      let identity := List.range core.natts
      (.ok ⟨core.blobs, some identity, identity, some stream⟩, h)

end

/-! ### When the merge opens -/

/-- The batches of the stream up to the first with rows are read, and the first row has a key. -/
def Starts (sortColIndices : List ℕ) : RecordBatchStream → Prop
  | [] => True
  | .error _ :: _ => False
  | .ok batch :: rest =>
    if 0 < batch.numRows then
      ∀ colIdx ∈ sortColIndices, ∃ col, batch.columns[colIdx]? = some col ∧
        ∃ key, extractSortKey col 0 = .ok key
    else Starts sortColIndices rest

/-- The table and its blobs are as the merge needs them. -/
structure SortedMergeOpens (node : ScanNode) (core : ScanStateCore) : Prop where
  no_partitions : core.partitionAttnums = []
  few : core.blobs.length ≤ 256
  /-- Every sort column is a column with a parquet index; every blob is opened, has the sort
  columns, with the same types as the other blobs, and gives its first row. -/
  opens : ∃ sortColIndices types,
    List.Forall₂ (fun name colIdx => ∃ attno, resolveAttnoByName node name = .ok attno ∧
      core.storageAttnoToParquetIdx[attno]? = some (some colIdx)) core.sorted sortColIndices ∧
    ∀ blob ∈ core.blobs, ∃ b stream, node.openBlob blob.1 = .ok b ∧
      List.Forall₂ (fun colIdx ty => b.fields[colIdx]? = some ty) sortColIndices types ∧
      b.build = .ok stream ∧ Starts sortColIndices stream

section Opening

variable {queue : PriorityQueue HeapEntry HeapEntry.le} {node : ScanNode} {core : ScanStateCore}
  {sortColIndices : List ℕ} {stream : RecordBatchStream} {streams : List RecordBatchStream}

theorem exists_buildKey_iff {batch : RecordBatch} {row : ℕ} :
    (∃ key, buildKey batch row sortColIndices = .ok key) ↔
      ∀ colIdx ∈ sortColIndices, ∃ col, batch.columns[colIdx]? = some col ∧
        ∃ key, extractSortKey col row = .ok key := by
  constructor
  · rintro ⟨key, hkey⟩ colIdx hcolIdx
    obtain ⟨value, hvalue, -⟩ :=
      exists_mapM_eq_ok_iff.mp ⟨key, hkey, fun _ _ => trivial⟩ colIdx hcolIdx
    cases hcol : batch.columns[colIdx]? with
    | none =>
      simp only [hcol] at hvalue
      cases hvalue
    | some col =>
      simp only [hcol, FdwResult.lift_eq_ok] at hvalue
      exact ⟨col, rfl, value, hvalue⟩
  · intro h
    refine (exists_mapM_eq_ok_iff (Q := fun _ => True).mpr fun colIdx hcolIdx => ?_).imp
      fun key hkey => hkey.1
    obtain ⟨col, hcol, key, hkey⟩ := h colIdx hcolIdx
    exact ⟨key, by simp only [hcol, FdwResult.lift_eq_ok, hkey], trivial⟩

theorem exists_pullNonEmpty_iff (i : ℕ) :
    (∃ r, pullNonEmpty sortColIndices i stream = .ok r) ↔ Starts sortColIndices stream := by
  induction stream with
  | nil => simp [pullNonEmpty, Starts]
  | cons item rest ih =>
    cases item with
    | error e => simp [pullNonEmpty, Starts]
    | ok batch =>
      rw [pullNonEmpty, Starts]
      split_ifs with hrows
      · rw [← exists_buildKey_iff]
        simp only [except_bind_eq_ok]
        constructor
        · rintro ⟨_, key, hkey, -⟩
          exact ⟨key, hkey⟩
        · rintro ⟨key, hkey⟩
          exact ⟨_, key, hkey, rfl⟩
      · exact ih

theorem exists_openStreams_iff (i : ℕ) (heap : queue.Carrier) :
    (∃ r, openStreams queue sortColIndices i streams heap = .ok r) ↔
      ∀ stream ∈ streams, Starts sortColIndices stream := by
  induction streams generalizing i heap with
  | nil => simp [openStreams]
  | cons stream streams ih =>
    rw [List.forall_mem_cons, ← exists_pullNonEmpty_iff i]
    simp only [openStreams, except_bind_eq_ok]
    constructor
    · rintro ⟨_, ⟨entry, rest⟩, hpull, ⟨opened, heap'⟩, hopen, -⟩
      exact ⟨⟨_, hpull⟩, (ih _ _).mp ⟨_, hopen⟩⟩
    · rintro ⟨⟨⟨entry, rest⟩, hpull⟩, hstreams⟩
      obtain ⟨⟨opened, heap'⟩, hopen⟩ := (ih (i + 1) (pushEntry queue heap entry)).mpr hstreams
      exact ⟨_, _, hpull, _, hopen, rfl⟩

theorem exists_new_iff {names : List String} (hcap : streams.length ≤ 256)
    (hnames : names.length = streams.length) :
    (∃ m, MultiFileSortedStream.new queue streams names sortColIndices = .ok m) ↔
      ∀ stream ∈ streams, Starts sortColIndices stream := by
  rw [← exists_openStreams_iff 0 queue.empty, MultiFileSortedStream.new, if_neg (by omega),
    if_neg (by simp [hnames])]
  simp only [except_bind_eq_ok]
  constructor
  · rintro ⟨_, r, hopen, -⟩
    exact ⟨r, hopen⟩
  · rintro ⟨r, hopen⟩
    exact ⟨_, r, hopen, rfl⟩

/-! ### The sources of the merge -/

theorem sortColType_eq_ok_iff {blob : String} {b : BlobBuilder} {colIdx : ℕ} {ty : DataType} :
    sortColType blob b colIdx = .ok ty ↔ b.fields[colIdx]? = some ty := by
  unfold sortColType
  cases b.fields[colIdx]? <;> simp

theorem openSorted_eq_ok_iff {blob : String} {opened : OpenedBlob} :
    openSorted node sortColIndices blob = .ok opened ↔ ∃ b, node.openBlob blob = .ok b ∧
      List.Forall₂ (fun colIdx ty => b.fields[colIdx]? = some ty) sortColIndices opened.types ∧
      b.build = .ok opened.stream ∧ opened.blob = blob := by
  simp only [openSorted, except_bind_eq_ok, mapM_eq_ok_iff, sortColType_eq_ok_iff]
  constructor
  · rintro ⟨b, hb, types, htypes, stream, hstream, h⟩
    obtain rfl := Except.ok.inj h
    exact ⟨b, hb, htypes, hstream, rfl⟩
  · rintro ⟨b, hb, htypes, hstream, rfl⟩
    exact ⟨b, hb, _, htypes, _, hstream, rfl⟩

/-- Two lists of types agree at every index. -/
theorem forall_zip_eq_iff {types first : List DataType}
    (htypes : types.length = sortColIndices.length)
    (hfirst : first.length = sortColIndices.length) :
    (∀ p ∈ sortColIndices.zip (types.zip first), p.2.1 = p.2.2) ↔ types = first := by
  induction sortColIndices generalizing types first with
  | nil =>
    rw [List.length_nil, List.length_eq_zero_iff] at htypes hfirst
    simp [htypes, hfirst]
  | cons colIdx rest ih =>
    obtain ⟨ty, types, rfl⟩ := List.exists_cons_of_length_eq_add_one htypes
    obtain ⟨ty', first, rfl⟩ := List.exists_cons_of_length_eq_add_one hfirst
    simp only [List.zip_cons_cons, List.forall_mem_cons, List.cons.injEq,
      ih (Nat.succ.inj htypes) (Nat.succ.inj hfirst)]

/-- The guard lets a blob pass that has the types of the first. -/
theorem checkTypes_eq_ok_iff {first : List DataType} {opened : OpenedBlob}
    (htypes : opened.types.length = sortColIndices.length)
    (hfirst : first.length = sortColIndices.length) :
    checkTypes sortColIndices first opened = .ok () ↔ opened.types = first := by
  rw [← forall_zip_eq_iff htypes hfirst]
  have hnone := List.find?_eq_none (p := fun p : ℕ × DataType × DataType => p.2.1 ≠ p.2.2)
    (l := sortColIndices.zip (opened.types.zip first))
  simp only [ne_eq, decide_not, Bool.not_eq_true', decide_eq_false_iff_not, not_not] at hnone
  rw [← hnone, checkTypes]
  simp only [ne_eq, decide_not]
  cases (sortColIndices.zip (opened.types.zip first)).find? fun p => !decide (p.2.1 = p.2.2) <;>
    simp

/-- An iteration behind the first. -/
theorem Collected.add_eq_ok_iff {acc next : Collected} {first : List DataType}
    {res : FdwResult OpenedBlob} (hacc : acc.firstSortTypes = some first)
    (hfirst : first.length = sortColIndices.length)
    (hlength : ∀ opened, res = .ok opened → opened.types.length = sortColIndices.length) :
    acc.add sortColIndices res = .ok next ↔ ∃ x, res = .ok x ∧ x.types = first ∧
      next = ⟨some first, acc.streams ++ [x.stream], acc.names ++ [x.blob]⟩ := by
  simp only [Collected.add, hacc, except_bind_eq_ok]
  constructor
  · rintro ⟨x, hx, ⟨⟩, hcheck, hnext⟩
    exact ⟨x, hx, (checkTypes_eq_ok_iff (hlength x hx) hfirst).mp hcheck,
      (Except.ok.inj hnext).symm⟩
  · rintro ⟨x, hx, htypes, rfl⟩
    exact ⟨x, hx, (), (checkTypes_eq_ok_iff (hlength x hx) hfirst).mpr htypes, rfl⟩

/-- What the loop collects behind the first blob. -/
theorem foldlM_add_eq_ok_iff {results : List (FdwResult OpenedBlob)} {acc out : Collected}
    {first : List DataType} (hacc : acc.firstSortTypes = some first)
    (hfirst : first.length = sortColIndices.length)
    (hlengths : ∀ opened, .ok opened ∈ results → opened.types.length = sortColIndices.length) :
    results.foldlM (Collected.add sortColIndices) acc = .ok out ↔
      ∃ xs : List OpenedBlob, results = xs.map .ok ∧ (∀ x ∈ xs, x.types = first) ∧
        out = ⟨some first, acc.streams ++ xs.map OpenedBlob.stream,
          acc.names ++ xs.map OpenedBlob.blob⟩ := by
  induction results generalizing acc with
  | nil =>
    obtain ⟨types, streams, names⟩ := acc
    dsimp only at hacc
    subst hacc
    simp [pure, Except.pure, eq_comm]
  | cons res results ih =>
    have hres (next : Collected) := @Collected.add_eq_ok_iff sortColIndices acc next first res hacc
      hfirst fun opened hopened => hlengths opened (hopened ▸ List.mem_cons_self)
    have hrest := fun opened hopened => hlengths opened (List.mem_cons_of_mem res hopened)
    simp only [List.foldlM_cons, except_bind_eq_ok, hres]
    constructor
    · rintro ⟨_, ⟨x, rfl, htypes, rfl⟩, hfold⟩
      obtain ⟨xs, rfl, hxs, rfl⟩ := (ih rfl hrest).mp hfold
      exact ⟨x :: xs, rfl, List.forall_mem_cons.mpr ⟨htypes, hxs⟩, by simp⟩
    · rintro ⟨xs, hresults, hxs, rfl⟩
      obtain ⟨x, xs, rfl, rfl, rfl⟩ := List.map_eq_cons_iff.mp hresults.symm
      obtain ⟨htypes, hxs⟩ := List.forall_mem_cons.mp hxs
      exact ⟨_, ⟨x, rfl, htypes, rfl⟩, (ih rfl hrest).mpr ⟨xs, rfl, hxs, by simp⟩⟩

/-- **What the loop over the opened blobs collects:** all of them, when their types agree. -/
theorem collect_eq_ok_iff {results : List (FdwResult OpenedBlob)} {out : Collected}
    (hlengths : ∀ opened, .ok opened ∈ results → opened.types.length = sortColIndices.length) :
    results.foldlM (Collected.add sortColIndices) ⟨none, [], []⟩ = .ok out ↔
      ∃ xs : List OpenedBlob, results = xs.map .ok ∧ (∃ types, ∀ x ∈ xs, x.types = types) ∧
        out = ⟨xs.head?.map OpenedBlob.types, xs.map OpenedBlob.stream,
          xs.map OpenedBlob.blob⟩ := by
  cases results with
  | nil =>
    simp [pure, Except.pure, eq_comm]
  | cons res results =>
    have hrest := fun opened hopened => hlengths opened (List.mem_cons_of_mem res hopened)
    rw [List.foldlM_cons, except_bind_eq_ok]
    constructor
    · rintro ⟨next, hnext, hfold⟩
      obtain ⟨x, rfl, hnext⟩ := except_bind_eq_ok.mp hnext
      obtain rfl := Except.ok.inj hnext
      obtain ⟨xs, rfl, hxs, rfl⟩ :=
        (foldlM_add_eq_ok_iff rfl (hlengths x List.mem_cons_self) hrest).mp hfold
      exact ⟨x :: xs, rfl, ⟨x.types, List.forall_mem_cons.mpr ⟨rfl, hxs⟩⟩, rfl⟩
    · rintro ⟨xs, hresults, ⟨types, htypes⟩, rfl⟩
      obtain ⟨x, xs, rfl, rfl, rfl⟩ := List.map_eq_cons_iff.mp hresults.symm
      obtain ⟨rfl, hxs⟩ := List.forall_mem_cons.mp htypes
      exact ⟨_, rfl, (foldlM_add_eq_ok_iff rfl (hlengths x List.mem_cons_self) hrest).mpr
        ⟨xs, rfl, hxs, rfl⟩⟩

theorem sortColIndex_eq_ok_iff {name : String} {colIdx : ℕ} :
    sortColIndex node core name = .ok colIdx ↔ ∃ attno, resolveAttnoByName node name = .ok attno ∧
      core.storageAttnoToParquetIdx[attno]? = some (some colIdx) := by
  rw [sortColIndex, except_bind_eq_ok]
  refine exists_congr fun attno => and_congr_right fun _ => ?_
  rw [← Option.join_eq_some_iff]
  cases core.storageAttnoToParquetIdx[attno]?.join <;> simp

/-- What the merge is made of. -/
structure SortedSources (node : ScanNode) (core : ScanStateCore) (sortColIndices : List ℕ)
    (xs : List OpenedBlob) : Prop where
  no_partitions : core.partitionAttnums = []
  few : core.blobs.length ≤ 256
  indices : List.Forall₂ (fun name colIdx => ∃ attno, resolveAttnoByName node name = .ok attno ∧
    core.storageAttnoToParquetIdx[attno]? = some (some colIdx)) core.sorted sortColIndices
  opened : List.Forall₂ (fun blob x => openSorted node sortColIndices blob.1 = .ok x) core.blobs xs
  types_agree : ∃ types, ∀ x ∈ xs, x.types = types

theorem types_length_of_openSorted {blob : String} {x : OpenedBlob}
    (h : openSorted node sortColIndices blob = .ok x) : x.types.length = sortColIndices.length := by
  obtain ⟨b, -, htypes, -⟩ := openSorted_eq_ok_iff.mp h
  exact htypes.length_eq.symm

/-- **The sources of the merge.** -/
theorem sortedSources_eq_ok_iff {collected : Collected} :
    sortedSources node core = .ok (sortColIndices, collected) ↔
      ∃ xs, SortedSources node core sortColIndices xs ∧
        collected = ⟨xs.head?.map OpenedBlob.types, xs.map OpenedBlob.stream,
          xs.map OpenedBlob.blob⟩ := by
  have hlengths : ∀ sortColIndices opened,
      .ok opened ∈ core.blobs.map (fun blob => openSorted node sortColIndices blob.1) →
      opened.types.length = sortColIndices.length := by
    intro sortColIndices opened hopened
    obtain ⟨blob, -, hblob⟩ := List.mem_map.mp hopened
    exact types_length_of_openSorted hblob
  have hmap : ∀ sortColIndices (xs : List OpenedBlob),
      core.blobs.map (fun blob => openSorted node sortColIndices blob.1) = xs.map .ok ↔
        List.Forall₂ (fun blob x => openSorted node sortColIndices blob.1 = .ok x) core.blobs xs := by
    intro sortColIndices xs
    rw [← List.forall₂_eq_eq_eq, List.forall₂_map_left_iff, List.forall₂_map_right_iff]
  constructor
  · intro h
    rw [sortedSources] at h
    split_ifs at h with hpartitions hmany
    · obtain ⟨_, -, h⟩ := except_bind_eq_ok.mp h
      cases h
    · obtain ⟨_, -, h⟩ := except_bind_eq_ok.mp h
      obtain ⟨indices, hindices, h⟩ := except_bind_eq_ok.mp h
      obtain ⟨out, hout, h⟩ := except_bind_eq_ok.mp h
      cases h
      obtain ⟨xs, hxs, htypes, rfl⟩ := (collect_eq_ok_iff (hlengths _)).mp hout
      refine ⟨xs, ⟨not_not.mp hpartitions, not_lt.mp hmany, ?_, (hmap _ _).mp hxs, htypes⟩, rfl⟩
      exact (mapM_eq_ok_iff.mp hindices).imp fun name colIdx => sortColIndex_eq_ok_iff.mp
  · rintro ⟨xs, h, rfl⟩
    have hchecks : forM core.sorted (checkSortColumn node core) = .ok () := by
      refine forM_eq_ok_iff.mpr fun name hname => ?_
      obtain ⟨colIdx, -, attno, hattno, -⟩ := forall₂_exists_of_mem h.indices hname
      rw [checkSortColumn, hattno, h.no_partitions]
      rfl
    have hindices : core.sorted.mapM (sortColIndex node core) = .ok sortColIndices :=
      mapM_eq_ok_iff.mpr (h.indices.imp fun name colIdx => sortColIndex_eq_ok_iff.mpr)
    have hcollect := (collect_eq_ok_iff (hlengths sortColIndices)).mpr
      ⟨xs, (hmap _ _).mpr h.opened, h.types_agree, rfl⟩
    rw [sortedSources, if_neg (not_not.mpr h.no_partitions), hchecks]
    refine except_bind_eq_ok.mpr ⟨(), rfl, ?_⟩
    rw [if_neg (not_lt.mpr h.few), hindices]
    exact except_bind_eq_ok.mpr ⟨_, rfl, except_bind_eq_ok.mpr ⟨_, hcollect, rfl⟩⟩

/-! ### The merge as a whole -/

/-- The batches of a stream have the columns that the indices name. -/
def Fits (sortColIndices : List ℕ) (stream : RecordBatchStream) : Prop :=
  ∀ batch, .ok batch ∈ stream → ∀ colIdx ∈ sortColIndices, colIdx < batch.columns.length

theorem buildKey_no_panic {batch : RecordBatch} {row : ℕ} {f : Failure}
    (hfits : ∀ colIdx ∈ sortColIndices, colIdx < batch.columns.length)
    (h : buildKey batch row sortColIndices = .error f) : ∃ e, f = .error e := by
  obtain ⟨colIdx, hcolIdx, h⟩ := mapM_eq_error h
  rw [List.getElem?_eq_getElem (hfits colIdx hcolIdx)] at h
  exact FdwResult.lift_eq_error h

theorem pullNonEmpty_no_panic {i : ℕ} {f : Failure} (hfits : Fits sortColIndices stream)
    (h : pullNonEmpty sortColIndices i stream = .error f) : ∃ e, f = .error e := by
  induction stream with
  | nil => cases h
  | cons item rest ih =>
    cases item with
    | error e => exact ⟨e, (Except.error.inj h).symm⟩
    | ok batch =>
      rw [pullNonEmpty] at h
      split_ifs at h
      · rcases except_bind_eq_error h with h | ⟨key, -, h⟩
        · exact buildKey_no_panic (hfits batch List.mem_cons_self) h
        · cases h
      · exact ih (fun batch hbatch => hfits batch (List.mem_cons_of_mem _ hbatch)) h

theorem openStreams_no_panic {i : ℕ} {heap : queue.Carrier} {f : Failure}
    (hfits : ∀ stream ∈ streams, Fits sortColIndices stream)
    (h : openStreams queue sortColIndices i streams heap = .error f) : ∃ e, f = .error e := by
  induction streams generalizing i heap with
  | nil => cases h
  | cons stream streams ih =>
    obtain ⟨hstream, hstreams⟩ := List.forall_mem_cons.mp hfits
    rw [openStreams] at h
    rcases except_bind_eq_error h with h | ⟨⟨entry, rest⟩, -, h⟩
    · exact pullNonEmpty_no_panic hstream h
    · rcases except_bind_eq_error h with h | ⟨⟨opened, heap⟩, -, h⟩
      · exact ih hstreams h
      · cases h

/-- A stream that was opened has the sort columns. -/
theorem fits_of_openSorted {blob : String} {x : OpenedBlob}
    (h : openSorted node sortColIndices blob = .ok x) : Fits sortColIndices x.stream := by
  obtain ⟨b, -, htypes, hstream, -⟩ := openSorted_eq_ok_iff.mp h
  intro batch hbatch colIdx hcolIdx
  obtain ⟨ty, -, hty⟩ := forall₂_exists_of_mem htypes hcolIdx
  rw [b.columns_of_batch _ hstream _ hbatch]
  exact (List.getElem?_eq_some_iff.mp hty).1

theorem SortedSources.length_le {xs : List OpenedBlob}
    (h : SortedSources node core sortColIndices xs) : xs.length ≤ 256 :=
  h.opened.length_eq ▸ h.few

/-- **The merge of an active scan opens exactly when the blobs are as it needs them.** -/
theorem exists_buildSortedStreamIfActive_iff :
    (∃ stream, buildSortedStreamIfActive queue node core = .ok stream) ↔
      (sortedActive node core = true → SortedMergeOpens node core) := by
  rw [buildSortedStreamIfActive]
  split_ifs with hactive
  · simp only [hactive, true_imp_iff, except_bind_eq_ok, FdwResult.lift_eq_ok]
    constructor
    · rintro ⟨_, ⟨indices, collected⟩, hsources, m, hnew, -⟩
      obtain ⟨xs, h, rfl⟩ := sortedSources_eq_ok_iff.mp hsources
      have hstarts := (exists_new_iff (by simpa using h.length_le) (by simp)).mp ⟨m, hnew⟩
      obtain ⟨types, htypes⟩ := h.types_agree
      refine ⟨h.no_partitions, h.few, indices, types, h.indices, fun blob hblob => ?_⟩
      obtain ⟨x, hx, hopened⟩ := forall₂_exists_of_mem h.opened hblob
      obtain ⟨b, hb, hfields, hstream, -⟩ := openSorted_eq_ok_iff.mp hopened
      rw [htypes x hx] at hfields
      exact ⟨b, x.stream, hb, hfields, hstream, hstarts _ (List.mem_map_of_mem hx)⟩
    · rintro ⟨hpartitions, hfew, indices, types, hindices, hopens⟩
      have hblobs : ∀ blob ∈ core.blobs, ∃ x, openSorted node indices blob.1 = .ok x ∧
          x.types = types ∧ Starts indices x.stream := by
        intro blob hblob
        obtain ⟨b, stream, hb, hfields, hstream, hstarts⟩ := hopens blob hblob
        exact ⟨⟨blob.1, types, stream⟩,
          openSorted_eq_ok_iff.mpr ⟨b, hb, hfields, hstream, rfl⟩, rfl, hstarts⟩
      obtain ⟨xs, hxs⟩ := exists_forall₂ hblobs
      have hall : ∀ x ∈ xs, x.types = types ∧ Starts indices x.stream := by
        intro x hx
        obtain ⟨blob, -, -, htypes, hstarts⟩ := forall₂_exists_of_mem hxs.flip hx
        exact ⟨htypes, hstarts⟩
      have h : SortedSources node core indices xs :=
        ⟨hpartitions, hfew, hindices, hxs.imp fun blob x hx => hx.1, types, fun x hx => (hall x hx).1⟩
      have hstarts : ∀ stream ∈ xs.map OpenedBlob.stream, Starts indices stream := by
        intro stream hstream
        obtain ⟨x, hx, rfl⟩ := List.mem_map.mp hstream
        exact (hall x hx).2
      obtain ⟨m, hnew⟩ := (exists_new_iff (by simpa using h.length_le)
        (by simp : (xs.map OpenedBlob.blob).length = _)).mpr hstarts
      exact ⟨some m, _, sortedSources_eq_ok_iff.mpr ⟨xs, h, rfl⟩, m, hnew, rfl⟩
  · simp [hactive]

/-- **No step of the merge panics.** -/
theorem buildSortedStreamIfActive_no_panic {f : Failure}
    (h : buildSortedStreamIfActive queue node core = .error f) : ∃ e, f = .error e := by
  rw [buildSortedStreamIfActive] at h
  split_ifs at h
  rcases except_bind_eq_error h with h | ⟨⟨indices, collected⟩, hsources, h⟩
  · exact FdwResult.lift_eq_error h
  · obtain ⟨xs, hxs, rfl⟩ := sortedSources_eq_ok_iff.mp (FdwResult.lift_eq_ok.mp hsources)
    rcases except_bind_eq_error h with h | ⟨m, -, h⟩
    · have hfits : ∀ stream ∈ xs.map OpenedBlob.stream, Fits indices stream := by
        intro stream hstream
        obtain ⟨x, hx, rfl⟩ := List.mem_map.mp hstream
        obtain ⟨blob, -, hblob⟩ := forall₂_exists_of_mem hxs.opened.flip hx
        exact fits_of_openSorted hblob
      rw [MultiFileSortedStream.new] at h
      split_ifs at h
      · exact ⟨_, (Except.error.inj h).symm⟩
      · exact ⟨_, (Except.error.inj h).symm⟩
      · rcases except_bind_eq_error h with h | ⟨_, -, h⟩
        · exact openStreams_no_panic hfits h
        · cases h
    · cases h

end Opening

/-! ### The hand-off -/

section Handoff

variable (queue : PriorityQueue HeapEntry HeapEntry.le) (node : ScanNode) (relid : Oid)
  (core : FdwResult ScanStateCore)

/-- The hand-off behind `build_state` is that of the backend model, which does not look inside the
sorted stream. -/
theorem handoff_beginForeignScan (s : ScanBackend) (n : ℕ) (sorted : FdwResult Unit) :
    (s.apply (.beginForeignScan n relid (core.map ScanStateCore.blobs) sorted)).handoff =
      (buildState queue node relid core s.handoff).2 := by
  cases core with
  | error e => rfl
  | ok core =>
    have hpublish : (buildState queue node relid (.ok core) s.handoff).2 =
        s.handoff.publish relid core.blobs := by
      rw [buildState]
      dsimp only
      split <;> rfl
    rw [hpublish]
    rcases sorted with _ | ⟨⟩ <;> rfl

theorem lookup_publish_ne {h : Handoff} {blobs : List ListedBlob} :
    (h.publish relid blobs).lookup relid ≠ h.lookup relid := by
  rw [Handoff.publish, AList.lookup_insert]
  cases h.lookup relid with
  | none => exact Option.some_ne_none _
  | some entry =>
    intro heq
    exact absurd (congrArg List.length (Option.some.inj heq)) (by simp)

/-- **When a failed start leaves the hand-off alone.**  Whenever `build_state` returns an error
the map is as it was, if and only if the scan does not get as far as a merge that cannot be
opened. -/
theorem failed_start_leaves_handoff_iff (h : Handoff) :
    (∀ e, (buildState queue node relid core h).1 = .error (.error e) →
      ∀ r, (buildState queue node relid core h).2.lookup r = h.lookup r) ↔
      ∀ c, core = .ok c → sortedActive node c = true → SortedMergeOpens node c := by
  cases core with
  | error e => exact ⟨fun _ c hc => (by cases hc), fun _ e _ r => rfl⟩
  | ok c =>
    have hopens := @exists_buildSortedStreamIfActive_iff queue node c
    cases hstream : buildSortedStreamIfActive queue node c with
    | ok stream =>
      have hok : ∀ e, (buildState queue node relid (.ok c) h).1 ≠ .error (.error e) := by
        intro e
        rw [buildState, hstream]
        cases stream <;> exact fun he => by cases he
      refine iff_of_true (fun e he => absurd he (hok e)) fun c' hc => ?_
      obtain rfl := Except.ok.inj hc
      exact hopens.mp ⟨stream, hstream⟩
    | error f =>
      obtain ⟨e, rfl⟩ := buildSortedStreamIfActive_no_panic hstream
      have hfails : buildState queue node relid (.ok c) h =
          (.error (.error e), h.publish relid c.blobs) := by
        rw [buildState]
        simp only [hstream]
      rw [hfails]
      refine iff_of_false (fun hsame => lookup_publish_ne relid (hsame e rfl relid)) fun hc => ?_
      obtain ⟨stream, hok⟩ := hopens.mpr (hc c rfl)
      rw [hstream] at hok
      cases hok

end Handoff

/-- A SELECT from a table sorted by `ts` whose blob is gone when it is opened. -/
def goneBlobNode : ScanNode where
  enableMultifile := true
  isSelect := true
  attrs := [⟨"ts", int8Oid, false, false⟩]
  openBlob _ := .error (.parquet "404 Not Found")

def goneBlobCore : ScanStateCore := ⟨[("a", "0x1")], 1, some [0], [0], ["ts"], [], [some 0]⟩

/-- The start fails, and the entry stays. -/
theorem failed_merge_leaves_entry :
    (buildState (sortedQueue HeapEntry.le) goneBlobNode 16384 (.ok goneBlobCore) ∅).1 =
        .error (.error (.parquet "404 Not Found")) ∧
      (buildState (sortedQueue HeapEntry.le) goneBlobNode 16384 (.ok goneBlobCore) ∅).2.lookup
        16384 = some [[("a", "0x1")]] ∧
      (∅ : Handoff).lookup 16384 = none :=
  ⟨rfl, rfl, rfl⟩

end ParquetAzureFdw
