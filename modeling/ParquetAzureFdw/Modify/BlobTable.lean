/-
# The two tables of blob ids

A `RowId` names a chunk by its index in a table of `BlobIdEntry`s, one for each
65,536 rows of each blob.  Two tables are built from the list of blobs that the
scan publishes.  The scan grows its own as it emits rows: one entry when it opens
a blob (`next_row`), one more before the first row of each further chunk
(`register_chunk_if_boundary`).  The modify side builds its own at once, from the
blobs' row counts (`build_plan`): `max 1 ⌈rows / 65536⌉` entries for each blob.
`resolve_to_source` looks a row identity up in the second.

Here are the second table, as a table of segments (`planTable`), and what the
lookup returns on it (`resolveToSource_planTable`).
-/

import ParquetAzureFdw.Error
import ParquetAzureFdw.Lib.Segments
import ParquetAzureFdw.Modify.RowId

namespace ParquetAzureFdw

/-- `BlobIdEntry`. -/
structure BlobIdEntry where
  name : String
  chunkBaseRow : ℕ
  etag : String
  deriving DecidableEq, Repr

/-- A listed blob: its name and its etag at listing time. -/
abbrev ListedBlob := String × String

/-- `register_chunk_if_boundary`; indexing the table panics out of range. -/
def registerChunkIfBoundary (table : List BlobIdEntry) (curBlobBaseId : UInt32)
    (curRowInBlob : ℕ) : Outcome (List BlobIdEntry) :=
  if curRowInBlob = 0 then .ok table
  else if curRowInBlob % chunkRows ≠ 0 then .ok table
  else
    let baseIdx := curBlobBaseId.toNat
    let expectedEntries := baseIdx + curRowInBlob / chunkRows + 1
    if expectedEntries ≤ table.length then .ok table
    else
      match table[baseIdx]? with
      | none => .error (.panic "index out of bounds")
      | some e => .ok (table ++ [⟨e.name, curRowInBlob, e.etag⟩])

/-- `nrows.div_ceil(CHUNK_ROWS).max(1)`. -/
def planChunks (nrows : ℕ) : ℕ := max 1 ((nrows + (chunkRows - 1)) / chunkRows)

/-- The body of the loop of `build_plan` over the blobs, once the row count is read. -/
def blobEntries (blob : ListedBlob) (nrows : ℕ) : FdwResult (List BlobIdEntry) :=
  if nrows < 2 ^ 32 then
    .ok ((List.range (planChunks nrows)).map fun chunk => ⟨blob.1, chunk * chunkRows, blob.2⟩)
  else
    .error (.schemaMismatch ("blob " ++ blob.1 ++ " has " ++ toString nrows ++
      " rows; UPDATE/DELETE in v1 supports up to 4294967295 rows per blob"))

/-- The loop of `build_plan` over the published blobs; `countRows` reads a blob's row
count off its footer. -/
def buildBlobTable (countRows : String → FdwResult ℕ) :
    List ListedBlob → FdwResult (List BlobIdEntry)
  | [] => .ok []
  | blob :: blobs => do
    let nrows ← countRows blob.1
    let entries ← blobEntries blob nrows
    let rest ← buildBlobTable countRows blobs
    return entries ++ rest

/-- The walk of `resolve_to_source` back to the first entry with the same name. -/
def walkBack (table : List BlobIdEntry) (name : String) : ℕ → FdwResult ℕ
  | 0 => .ok 0
  | base + 1 =>
    match table[base]? with
    | none => .error (.schemaMismatch "blob_table prev index underflow")
    | some prev => if prev.name ≠ name then .ok (base + 1) else walkBack table name base

/-- `resolve_to_source`: the id of the blob's first chunk and the row in the blob. -/
def resolveToSource (table : List BlobIdEntry) (rid : RowId) : FdwResult (UInt32 × ℕ) :=
  match table[rid.blobId.toNat]? with
  | none =>
    .error (.schemaMismatch ("ctid blob_id " ++ toString rid.blobId.toNat ++
      " out of range (blob_table len " ++ toString table.length ++ ")"))
  | some entry => do
    let base ← walkBack table entry.name rid.blobId.toNat
    return (UInt32.ofNat base, entry.chunkBaseRow + rid.offset.toNat)

/-- A ctid is resolved to the base entry of `blob` and to row `p`. -/
def ResolvesTo (table : List BlobIdEntry) (ctid : ItemPointerData) (blob : ListedBlob) (p : ℕ) :
    Prop :=
  ∃ base, resolveToSource table (RowId.fromCtid ctid) = .ok (base, p) ∧
    table[base.toNat]? = some ⟨blob.1, 0, blob.2⟩

/-! ### The plan's table -/

/-- The segments of the plan's table: each blob with its number of chunks. -/
def planSegments (counted : List (ListedBlob × ℕ)) : List (ListedBlob × ℕ) :=
  counted.map fun b => (b.1, planChunks b.2)

/-- The entry of chunk `k` of a blob. -/
def chunkEntry (e : ListedBlob × ℕ) : BlobIdEntry := ⟨e.1.1, e.2 * chunkRows, e.1.2⟩

/-- The table that `build_plan` builds. -/
def planTable (counted : List (ListedBlob × ℕ)) : List BlobIdEntry :=
  (Segments.entries (planSegments counted)).map chunkEntry

/-- The id of the first chunk of the `i`-th blob in the plan's table. -/
def planStart (counted : List (ListedBlob × ℕ)) (i : ℕ) : ℕ :=
  Segments.start (planSegments counted) i

theorem planChunks_pos (n : ℕ) : 0 < planChunks n := by
  simp [planChunks]

/-- A blob has a chunk for each of its rows, and only the first need be empty. -/
theorem lt_planChunks {n r : ℕ} (h : r < n) : r / chunkRows < planChunks n := by
  simp only [planChunks, chunkRows]
  omega

/-- A row that starts a chunk, other than the first, adds one. -/
theorem planChunks_succ (r : ℕ) :
    planChunks (r + 1) = planChunks r + if r ≠ 0 ∧ r % chunkRows = 0 then 1 else 0 := by
  by_cases h : r ≠ 0 ∧ r % chunkRows = 0
  · rw [if_pos h]
    simp only [planChunks, chunkRows] at h ⊢
    omega
  · rw [if_neg h]
    simp only [planChunks, chunkRows] at h ⊢
    omega

/-- Whole chunks. -/
theorem planChunks_of_boundary {r : ℕ} (h : r ≠ 0 ∧ r % chunkRows = 0) :
    planChunks r = r / chunkRows := by
  simp only [planChunks, chunkRows] at h ⊢
  omega

theorem planChunks_mono {n m : ℕ} (h : n ≤ m) : planChunks n ≤ planChunks m := by
  simp only [planChunks, chunkRows]
  omega

/-- Registering a row's chunk adds an entry only where a chunk starts. -/
theorem length_registerChunkIfBoundary {table table' : List BlobIdEntry} {base : UInt32} {r : ℕ}
    (h : registerChunkIfBoundary table base r = .ok table') :
    table'.length = table.length +
      if (r ≠ 0 ∧ r % chunkRows = 0) ∧ table.length ≤ base.toNat + r / chunkRows then 1 else 0 := by
  simp only [registerChunkIfBoundary] at h
  split_ifs at h with hzero hboundary hlen
  · obtain rfl := Except.ok.inj h
    simp [hzero]
  · obtain rfl := Except.ok.inj h
    simp [hboundary]
  · obtain rfl := Except.ok.inj h
    rw [if_neg (by omega), Nat.add_zero]
  · split at h
    · cases h
    · obtain rfl := Except.ok.inj h
      rw [if_pos ⟨⟨hzero, by omega⟩, by omega⟩, List.length_append, List.length_singleton]

/-- After a row is registered its blob has no more entries than the rows so far need. -/
theorem registered_le {table table' : List BlobIdEntry} {base : UInt32} {r first : ℕ}
    (h : registerChunkIfBoundary table base r = .ok table')
    (hlen : table.length ≤ first + planChunks r) :
    table'.length ≤ first + planChunks (r + 1) := by
  rw [length_registerChunkIfBoundary h, planChunks_succ]
  by_cases hboundary : r ≠ 0 ∧ r % chunkRows = 0
  · rw [if_pos hboundary, ← Nat.add_assoc]
    refine Nat.add_le_add hlen ?_
    split_ifs
    · exact le_rfl
    · exact Nat.zero_le 1
  · rwa [if_neg hboundary, if_neg fun hpush => hboundary hpush.1, Nat.add_zero, Nat.add_zero]

/-- It has exactly as many, if it had and its entries begin at the base id. -/
theorem registered_eq {table table' : List BlobIdEntry} {base : UInt32} {r : ℕ}
    (h : registerChunkIfBoundary table base r = .ok table')
    (hlen : table.length = base.toNat + planChunks r) :
    table'.length = base.toNat + planChunks (r + 1) := by
  rw [length_registerChunkIfBoundary h, planChunks_succ, hlen]
  by_cases hboundary : r ≠ 0 ∧ r % chunkRows = 0
  · rw [if_pos hboundary, if_pos ⟨hboundary, by rw [planChunks_of_boundary hboundary]⟩]
    omega
  · rw [if_neg hboundary, if_neg fun hpush => hboundary hpush.1]
    omega

theorem blobEntries_eq_ok {blob : ListedBlob} {nrows : ℕ} {es : List BlobIdEntry}
    (h : blobEntries blob nrows = .ok es) : nrows < 2 ^ 32 ∧
      es = (List.range (planChunks nrows)).map fun k => chunkEntry (blob, k) := by
  unfold blobEntries at h
  split_ifs at h with hlt
  exact ⟨hlt, (Except.ok.inj h).symm⟩

/-- **`build_plan`'s table** is that of the counted blobs, with counts that fit in 32
bits. -/
theorem buildBlobTable_eq_ok {countRows : String → FdwResult ℕ} {blobs : List ListedBlob}
    {table : List BlobIdEntry} (h : buildBlobTable countRows blobs = .ok table) :
    ∃ counted, counted.map Prod.fst = blobs ∧ table = planTable counted ∧
      ∀ c ∈ counted, countRows c.1.1 = .ok c.2 ∧ c.2 < 2 ^ 32 := by
  induction blobs generalizing table with
  | nil =>
    obtain rfl := Except.ok.inj h
    exact ⟨[], rfl, rfl, by simp⟩
  | cons blob blobs ih =>
    obtain ⟨nrows, hcount, h⟩ := except_bind_eq_ok.mp h
    obtain ⟨es, hes, h⟩ := except_bind_eq_ok.mp h
    obtain ⟨rest, hrest, h⟩ := except_bind_eq_ok.mp h
    obtain rfl := Except.ok.inj h
    obtain ⟨counted, rfl, rfl, hall⟩ := ih hrest
    obtain ⟨hlt, rfl⟩ := blobEntries_eq_ok hes
    refine ⟨(blob, nrows) :: counted, rfl, ?_, ?_⟩
    · simp [planTable, planSegments, Function.comp_def]
    · exact List.forall_mem_cons.mpr ⟨⟨hcount, hlt⟩, hall⟩

/-- One more blob adds its entries at the end. -/
theorem buildBlobTable_concat {countRows : String → FdwResult ℕ} {blobs : List ListedBlob}
    {blob : ListedBlob} {nrows : ℕ} {table es : List BlobIdEntry}
    (h : buildBlobTable countRows blobs = .ok table) (hcount : countRows blob.1 = .ok nrows)
    (hes : blobEntries blob nrows = .ok es) :
    buildBlobTable countRows (blobs ++ [blob]) = .ok (table ++ es) := by
  induction blobs generalizing table with
  | nil =>
    obtain rfl := Except.ok.inj h
    simp [buildBlobTable, hcount, hes, bind, Except.bind, pure, Except.pure]
  | cons b blobs ih =>
    obtain ⟨n, hn, h⟩ := except_bind_eq_ok.mp h
    obtain ⟨first, hfirst, h⟩ := except_bind_eq_ok.mp h
    obtain ⟨rest, hrest, h⟩ := except_bind_eq_ok.mp h
    obtain rfl := Except.ok.inj h
    simp [buildBlobTable, hn, hfirst, ih hrest, bind, Except.bind, pure, Except.pure]

/-- Inside the table the walk back finds the start of the run of entries with the name. -/
theorem walkBack_eq {table : List BlobIdEntry} {name : String} {j : ℕ} (h : j ≤ table.length) :
    walkBack table name j =
      .ok (Segments.runStart (fun i => (table[i]?).map (·.name) == some name) j) := by
  induction j with
  | zero => rfl
  | succ j ih =>
    have hget : table[j]? = some table[j] := List.getElem?_eq_getElem (by omega)
    rw [walkBack, Segments.runStart, hget]
    by_cases hname : table[j].name = name
    · simp [hname, ih (by omega)]
    · simp [hname]

section Plan

variable {counted : List (ListedBlob × ℕ)}

theorem planSegments_getElem? {i : ℕ} {b : ListedBlob} {n : ℕ} (h : counted[i]? = some (b, n)) :
    (planSegments counted)[i]? = some (b, planChunks n) := by
  simp [planSegments, h]

/-- Distinct names make distinct keys. -/
theorem planSegments_nodup (hnodup : (counted.map (·.1.1)).Nodup) :
    ((planSegments counted).map Prod.fst).Nodup := by
  have : (planSegments counted).map Prod.fst = counted.map (·.1) := by
    simp [planSegments, Function.comp_def]
  rw [this]
  exact List.Nodup.of_map Prod.fst (by simpa [Function.comp_def] using hnodup)

/-- With distinct names, the entries of a blob are those with its name. -/
theorem name_eq_iff_entry (hnodup : (counted.map (·.1.1)).Nodup) {i : ℕ} {b : ListedBlob} {n : ℕ}
    (hi : counted[i]? = some (b, n)) (j : ℕ) :
    (((planTable counted)[j]?).map (·.name) == some b.1) = true ↔
      ∃ m, (Segments.entries (planSegments counted))[j]? = some (b, m) := by
  rw [beq_iff_eq, planTable, List.getElem?_map, Option.map_map, Option.map_eq_some_iff]
  constructor
  · rintro ⟨⟨b', m⟩, hm, hname⟩
    obtain ⟨i', n', hi', -, -⟩ := Segments.exists_of_getElem? hm
    obtain ⟨⟨b'', n''⟩, hc, hseg⟩ : ∃ c, counted[i']? = some c ∧ (c.1, planChunks c.2) = (b', n') := by
      simpa [planSegments] using hi'
    obtain rfl : b'' = b' := congrArg Prod.fst hseg
    have hname' : b''.1 = b.1 := hname
    -- Keyed by the names alone, the list of blobs is again one of distinct keys.
    have hkeys : ((counted.map fun c => (c.1.1, c.2)).map Prod.fst).Nodup := by
      simpa [Function.comp_def] using hnodup
    obtain rfl : i' = i := Segments.index_unique hkeys (a := b.1) (n := n'') (m := n)
      (by simp [hc, hname']) (by simp [hi])
    obtain rfl : b'' = b := congrArg Prod.fst (Option.some.inj (hc.symm.trans hi))
    exact ⟨m, hm⟩
  · rintro ⟨m, hm⟩
    exact ⟨(b, m), hm, rfl⟩

/-- A chunk id resolves to its blob's first chunk, and the offset to the row in the blob. -/
theorem resolveToSource_of_chunk (hnodup : (counted.map (·.1.1)).Nodup) {rid : RowId} {i : ℕ}
    {b : ListedBlob} {n k : ℕ} (hi : counted[i]? = some (b, n)) (hk : k < planChunks n)
    (hid : rid.blobId.toNat = planStart counted i + k) :
    resolveToSource (planTable counted) rid =
      .ok (UInt32.ofNat (planStart counted i), k * chunkRows + rid.offset.toNat) := by
  have hseg := planSegments_getElem? hi
  have hentry : (planTable counted)[rid.blobId.toNat]? = some (chunkEntry (b, k)) := by
    rw [hid, planTable, planStart, List.getElem?_map, Segments.getElem?_entries hseg hk]
    rfl
  have hlen : rid.blobId.toNat ≤ (planTable counted).length :=
    (List.getElem?_eq_some_iff.mp hentry).1.le
  have hwalk : walkBack (planTable counted) b.1 rid.blobId.toNat = .ok (planStart counted i) := by
    rw [walkBack_eq hlen, hid, planStart, Segments.runStart_eq (planSegments_nodup hnodup) hseg hk.le
      (name_eq_iff_entry hnodup hi)]
  rw [resolveToSource, hentry]
  show (walkBack (planTable counted) b.1 rid.blobId.toNat >>= fun base =>
    pure (UInt32.ofNat base, k * chunkRows + rid.offset.toNat)) = _
  rw [hwalk]
  rfl

/-- **What a row identity resolves to**: the blob `i` whose chunks its chunk id falls
among, and the row at its offset in that chunk. -/
theorem resolveToSource_planTable (hnodup : (counted.map (·.1.1)).Nodup) {rid : RowId}
    {base : UInt32} {row : ℕ} :
    resolveToSource (planTable counted) rid = .ok (base, row) ↔
      ∃ i b n k, counted[i]? = some (b, n) ∧ k < planChunks n ∧
        rid.blobId.toNat = planStart counted i + k ∧ base.toNat = planStart counted i ∧
        row = k * chunkRows + rid.offset.toNat := by
  have hlt := rid.blobId.toNat_lt
  constructor
  · intro h
    obtain ⟨⟨b, k⟩, hentry⟩ : ∃ e, (Segments.entries (planSegments counted))[rid.blobId.toNat]? = some e := by
      rw [resolveToSource, planTable, List.getElem?_map] at h
      cases he : (Segments.entries (planSegments counted))[rid.blobId.toNat]? with
      | none =>
        rw [he] at h
        simp at h
      | some e => exact ⟨e, rfl⟩
    obtain ⟨i, m, hseg, hk, hid⟩ := Segments.exists_of_getElem? hentry
    obtain ⟨⟨b', n⟩, hc, hbn⟩ : ∃ c, counted[i]? = some c ∧ (c.1, planChunks c.2) = (b, m) := by
      simpa [planSegments] using hseg
    obtain ⟨rfl, rfl⟩ : b' = b ∧ planChunks n = m := by simpa using hbn
    rw [resolveToSource_of_chunk hnodup hc hk hid] at h
    obtain ⟨rfl, rfl⟩ : UInt32.ofNat (planStart counted i) = base ∧
        k * chunkRows + rid.offset.toNat = row := by simpa using h
    refine ⟨i, b', n, k, hc, hk, hid, ?_, rfl⟩
    rw [UInt32.toNat_ofNat']
    exact Nat.mod_eq_of_lt (show Segments.start (planSegments counted) i < 2 ^ 32 by omega)
  · rintro ⟨i, b, n, k, hc, hk, hid, hbase, rfl⟩
    rw [resolveToSource_of_chunk hnodup hc hk hid]
    have : UInt32.ofNat (planStart counted i) = base := by
      rw [← hbase, UInt32.ofNat_toNat]
    rw [this]

/-- The first entry of a blob. -/
theorem planTable_getElem?_start {i : ℕ} {b : ListedBlob} {n : ℕ} (hi : counted[i]? = some (b, n)) :
    (planTable counted)[planStart counted i]? = some ⟨b.1, 0, b.2⟩ := by
  have h := Segments.getElem?_entries (planSegments_getElem? hi) (planChunks_pos n)
  rw [Nat.add_zero] at h
  rw [planTable, planStart, List.getElem?_map, h]
  simp [chunkEntry]

/-- A ctid is resolved to row `p` of the `i`-th blob exactly when its chunk id is one of
the blob's and its offset leads to the row. -/
theorem resolvesTo_planTable (hnodup : (counted.map (·.1.1)).Nodup) {ctid : ItemPointerData}
    {i : ℕ} {b : ListedBlob} {n p : ℕ} (hi : counted[i]? = some (b, n)) :
    ResolvesTo (planTable counted) ctid b p ↔ ∃ k < planChunks n,
      (RowId.fromCtid ctid).blobId.toNat = planStart counted i + k ∧
        p = k * chunkRows + (RowId.fromCtid ctid).offset.toNat := by
  constructor
  · rintro ⟨base, hres, hentry⟩
    obtain ⟨i', b', n', k, hi', hk, hid, hbase, hp⟩ := (resolveToSource_planTable hnodup).mp hres
    rw [hbase, planTable_getElem?_start hi'] at hentry
    obtain rfl : b' = b := by simpa [Prod.ext_iff] using hentry
    obtain rfl := Segments.index_unique (planSegments_nodup hnodup) (planSegments_getElem? hi')
      (planSegments_getElem? hi)
    obtain rfl : n' = n := congrArg Prod.snd (Option.some.inj (hi'.symm.trans hi))
    exact ⟨k, hk, hid, hp⟩
  · rintro ⟨k, hk, hid, rfl⟩
    have hlt := (RowId.fromCtid ctid).blobId.toNat_lt
    refine ⟨_, resolveToSource_of_chunk hnodup hi hk hid, ?_⟩
    rw [UInt32.toNat_ofNat', Nat.mod_eq_of_lt (show planStart counted i < 2 ^ 32 by omega)]
    exact planTable_getElem?_start hi

end Plan

end ParquetAzureFdw
