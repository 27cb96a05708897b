/-
# The merge of sorted blobs

`src/parquet_io/multifile.rs`: under `files_in_order` the scan reads all blobs at once and
returns their rows in the order of the sort columns.  `MultiFileSortedStream` keeps one row of
each blob that has rows left in a heap; `nextRow` takes a least one, checks it against the last
row returned, and puts the next row of the same blob in its place, going over empty batches.
The heap is the standard library's: `queue`, of which only the documented behaviour is used.

The results speak of the values in the sort columns: `RowLe` is the order of SQL on them, column by
column, NULLS LAST.  The merger compares keys, which are ordered as the values they are made of as
long as no sort column is one of floats (`keyCmp_sortKey`).

A merger stands for a state of the abstract merge (`MultiFileSortedStream.Represents`): what is
left of a blob is the row in the heap, the rows after it in its batch, and the batches left of the
stream.  A call of `nextRow` is then one step of that merge, or finds nothing left, or a row
that does not follow (`nextRow_cases`).  So the rows returned are in order whatever the blobs
(`sortedMerge_reports_inversion`), all of them when every blob is in order (`sortedMerge_merges`),
and a blob named in the error is itself out of order.
-/

import Mathlib.Data.List.Intervals
import ParquetAzureFdw.Convert.ArrowToPg
import ParquetAzureFdw.Lib.Merge

namespace ParquetAzureFdw

open Merging

/-- `SortKeyValue`; a float is its bits. -/
inductive SortKeyValue where
  | null
  | i64 (v : Int64)
  | f64 (bits : UInt64)
  | utf8 (v : String)
  | date32 (v : Int32)
  | timestampMicros (v : Int64)
  deriving DecidableEq, Repr

namespace SortKeyValue

/-- `discriminant` inside `SortKeyValue::cmp`. -/
def discriminant : SortKeyValue → ℕ
  | i64 _ => 0
  | f64 _ => 1
  | utf8 _ => 2
  | date32 _ => 3
  | timestampMicros _ => 4
  | null => 5

/-- `SortKeyValue::cmp`. -/
def cmp (a b : SortKeyValue) : Ordering :=
  match compare a.discriminant b.discriminant with
  | .eq => match a, b with
    | i64 a, i64 b => compare a b
    | f64 a, f64 b => compare (totalOrderKey 64 a.toNat) (totalOrderKey 64 b.toNat)
    | utf8 a, utf8 b => compare (utf8Bytes a) (utf8Bytes b)
    | date32 a, date32 b => compare a b
    | timestampMicros a, timestampMicros b => compare a b
    -- two NULLs; other pairs have different discriminants
    | _, _ => .eq
  | ord => ord

/-- The number that orders the values of a variant, `0` for a text. -/
def weight : SortKeyValue → ℤ
  | i64 v | timestampMicros v => v.toInt
  | f64 bits => totalOrderKey 64 bits.toNat
  | date32 v => v.toInt
  | utf8 _ | null => 0

/-- The bytes that order the texts. -/
def bytes : SortKeyValue → List UInt8
  | utf8 v => utf8Bytes v
  | _ => []

/-- The order is that of the triples of variant, number and bytes. -/
theorem cmp_eq_compareLex : cmp = compareLex (compareOn discriminant)
    (compareLex (compareOn weight) (compareOn bytes)) := by
  funext a b
  cases a <;> cases b <;> first
    | rfl
    | simp [cmp, compareLex, compareOn, discriminant, weight, bytes, Int64.compare_eq_compare_toInt,
        Int32.compare_eq_compare_toInt]

instance : Std.TransCmp cmp := cmp_eq_compareLex ▸ inferInstance

end SortKeyValue

/-- The order of `Vec<SortKeyValue>`. -/
def keyCmp : List SortKeyValue → List SortKeyValue → Ordering := List.compareLex SortKeyValue.cmp

instance : Std.TransCmp keyCmp := inferInstanceAs (Std.TransCmp (List.compareLex SortKeyValue.cmp))

theorem keyCmp_eq_swap (a b : List SortKeyValue) : keyCmp b a = (keyCmp a b).swap :=
  Std.OrientedCmp.eq_swap

/-- `as f64` of an `f32`, on the bits. -/
def widenFloat (bits : UInt32) : UInt64 :=
  let sign := bits.toNat / 2 ^ 31
  let exponent := bits.toNat / 2 ^ 23 % 2 ^ 8
  let fraction := bits.toNat % 2 ^ 23
  let magnitude :=
    if exponent = 255 then
      -- infinity, and a NaN, which becomes quiet
      if fraction = 0 then 2047 * 2 ^ 52 else 2047 * 2 ^ 52 + (fraction * 2 ^ 29 ||| 2 ^ 51)
    else if exponent = 0 then
      -- zero, and a subnormal number, which is normal in the wider format
      if fraction = 0 then 0
      else (fraction.log2 + 874) * 2 ^ 52 + fraction * 2 ^ (52 - fraction.log2) % 2 ^ 52
    else (exponent + 896) * 2 ^ 52 + fraction * 2 ^ 29
  UInt64.ofNat (sign * 2 ^ 63 + magnitude)

/-- `extract_sort_key`. -/
def extractSortKey (col : Column) (row : ℕ) : FdwResult SortKeyValue :=
  match col.cell row with
  | none => .ok .null
  | some value => match col.dataType, value with
    | .int16, .int16 v => .ok (.i64 v.toInt64)
    | .int32, .int32 v => .ok (.i64 v.toInt64)
    | .int64, .int64 v => .ok (.i64 v)
    | .float32, .float32 bits => .ok (.f64 (widenFloat bits))
    | .float64, .float64 bits => .ok (.f64 bits)
    | .utf8, .utf8 v | .largeUtf8, .utf8 v => .ok (.utf8 v)
    | .date32, .date32 v => .ok (.date32 v)
    | .timestamp .microsecond none, .timestamp v => .ok (.timestampMicros v)
    | other, _ =>
      .error (.schemaMismatch ("sort col type " ++ other.debug ++ " not supported in v1"))

/-- `build_key`. -/
def buildKey (batch : RecordBatch) (row : ℕ) (sortColIndices : List ℕ) :
    Outcome (List SortKeyValue) :=
  sortColIndices.mapM fun colIdx => match batch.columns[colIdx]? with
    | none => .error (.panic "index out of bounds")
    | some col => FdwResult.lift (extractSortKey col row)

/-- `HeapEntry`. -/
structure HeapEntry where
  key : List SortKeyValue
  sourceIdx : ℕ
  batch : RecordBatch
  rowInBatch : ℕ

/-- The entries are ordered by their keys alone. -/
def HeapEntry.le (a b : HeapEntry) : Prop := (keyCmp a.key b.key).isLE = true

instance : DecidableRel HeapEntry.le := fun _ _ => inferInstanceAs (Decidable (_ = true))

instance : IsTrans HeapEntry HeapEntry.le := ⟨fun _ _ _ => Std.TransCmp.isLE_trans⟩

instance : Std.Total HeapEntry.le := ⟨fun a b => by
  unfold HeapEntry.le
  rw [keyCmp_eq_swap a.key b.key]
  cases keyCmp a.key b.key <;> simp⟩

/-- A stream of batches: what the parquet reader returns, one item for each call of `next`. -/
abbrev RecordBatchStream := List (FdwResult RecordBatch)

/-- A row as `next_row` returns it: a batch, and the number of the row in it. -/
abbrev MergedRow := RecordBatch × ℕ

section Merger

variable (queue : PriorityQueue HeapEntry HeapEntry.le)

/-- `MultiFileSortedStream`. -/
structure MultiFileSortedStream where
  streams : List (Option RecordBatchStream)
  blobNames : List String
  sortColIndices : List ℕ
  heap : queue.Carrier
  lastEmitted : Option (List SortKeyValue)

/-- The loops of `new` and `next_row` that pull the next batch with rows: the entry of its first
row, and the stream after it. -/
def pullNonEmpty (sortColIndices : List ℕ) (sourceIdx : ℕ) :
    RecordBatchStream → Outcome (Option HeapEntry × RecordBatchStream)
  | [] => .ok (none, [])
  | .error e :: _ => .error (.error e)
  | .ok batch :: rest =>
    if 0 < batch.numRows then do
      let key ← buildKey batch 0 sortColIndices
      return (some ⟨key, sourceIdx, batch, 0⟩, rest)
    else pullNonEmpty sortColIndices sourceIdx rest

/-- `heap.push`, when there is something to push. -/
def pushEntry (heap : queue.Carrier) : Option HeapEntry → queue.Carrier
  | none => heap
  | some entry => queue.push heap entry

/-- The loop of `MultiFileSortedStream::new` over the streams, from the one with number `i`. -/
def openStreams (sortColIndices : List ℕ) :
    ℕ → List RecordBatchStream → queue.Carrier → Outcome (List (Option RecordBatchStream) × queue.Carrier)
  | _, [], heap => .ok ([], heap)
  | i, stream :: streams, heap => do
    let (entry, rest) ← pullNonEmpty sortColIndices i stream
    let (opened, heap) ← openStreams sortColIndices (i + 1) streams (pushEntry queue heap entry)
    return (some rest :: opened, heap)

/-- `MultiFileSortedStream::new`. -/
def MultiFileSortedStream.new (streams : List RecordBatchStream) (blobNames : List String)
    (sortColIndices : List ℕ) : Outcome (MultiFileSortedStream queue) :=
  if 256 < streams.length then
    .error (.error (.schemaMismatch ("sorted-merge cannot open " ++ toString streams.length ++
      " blobs at once (cap 256) — narrow the filename glob or partition filter")))
  else if streams.length ≠ blobNames.length then
    .error (.error (.schemaMismatch "streams.len() != blob_names.len()"))
  else do
    let (opened, heap) ← openStreams queue sortColIndices 0 streams queue.empty
    return ⟨opened, blobNames, sortColIndices, heap, none⟩

-- the `Debug` text of a key
variable {queue} (debug : List SortKeyValue → String)

/-- The error of a row that is below the last one returned. -/
def orderViolation (blob : String) (key prev : List SortKeyValue) : Failure :=
  .error (.schemaMismatch ("blob '" ++ blob ++ "' violates sorted-merge precondition: row key " ++
    debug key ++ " < previous " ++ debug prev))

/-- The end of `next_row`: the next row of the entry's blob goes into the heap. -/
def MultiFileSortedStream.advance (m : MultiFileSortedStream queue) (entry : HeapEntry) :
    Outcome (MultiFileSortedStream queue) :=
  let nextRow := entry.rowInBatch + 1
  if nextRow < entry.batch.numRows then do
    let key ← buildKey entry.batch nextRow m.sortColIndices
    return { m with heap := queue.push m.heap ⟨key, entry.sourceIdx, entry.batch, nextRow⟩ }
  else match m.streams[entry.sourceIdx]? with
    | none => .error (.panic "index out of bounds")
    | some none => .error (.error (.schemaMismatch
        ("stream " ++ toString entry.sourceIdx ++ " unexpectedly absent")))
    | some (some stream) => do
      let (next, rest) ← pullNonEmpty m.sortColIndices entry.sourceIdx stream
      -- an exhausted stream is dropped
      return { m with
        streams := m.streams.set entry.sourceIdx (next.map fun _ => rest)
        heap := pushEntry queue m.heap next }

/-- The check of `next_row` against the last row returned. -/
def MultiFileSortedStream.checkOrder (m : MultiFileSortedStream queue) (entry : HeapEntry) :
    Outcome Unit :=
  match m.lastEmitted with
  | none => .ok ()
  | some prev =>
    if keyCmp entry.key prev = .lt then
      match m.blobNames[entry.sourceIdx]? with
      | none => .error (.panic "index out of bounds")
      | some blob => .error (orderViolation debug blob entry.key prev)
    else .ok ()

/-- `next_row`. -/
def MultiFileSortedStream.nextRow (m : MultiFileSortedStream queue) :
    Outcome (Option MergedRow × MultiFileSortedStream queue) :=
  match queue.pop m.heap with
  | none => .ok (none, m)
  | some (entry, heap) => do
    m.checkOrder debug entry
    let m ← MultiFileSortedStream.advance { m with heap, lastEmitted := some entry.key } entry
    return (some (entry.batch, entry.rowInBatch), m)

/-- Calls of `next_row` until it returns no row, or fails: the rows, and the failure. -/
inductive Drains : MultiFileSortedStream queue → List MergedRow → Option Failure → Prop
  | ended {m m' : MultiFileSortedStream queue} (h : m.nextRow debug = .ok (none, m')) :
      Drains m [] none
  | failed {m : MultiFileSortedStream queue} {e : Failure} (h : m.nextRow debug = .error e) :
      Drains m [] (some e)
  | row {m m' : MultiFileSortedStream queue} {row : MergedRow} {rows : List MergedRow}
      {end' : Option Failure} (h : m.nextRow debug = .ok (some row, m')) (rest : Drains m' rows end') :
      Drains m (row :: rows) end'

end Merger

/-! ### The rows of the blobs -/

/-- The rows of a batch from row `k` on. -/
def rowsFrom (batch : RecordBatch) (k : ℕ) : List MergedRow :=
  (List.Ico k batch.numRows).map fun row => (batch, row)

/-- The rows of a blob. -/
def streamRows : RecordBatchStream → List MergedRow
  | [] => []
  | .error _ :: rest => streamRows rest
  | .ok batch :: rest => rowsFrom batch 0 ++ streamRows rest

/-- The place of the kind of a value in a sort column: integers, texts, dates, timestamps. -/
def ArrowValue.sortRank : ArrowValue → ℕ
  | .int16 _ | .int32 _ | .int64 _ => 0
  | .utf8 _ => 1
  | .date32 _ => 2
  | .timestamp _ => 3
  | _ => 4

/-- The order of two cells of a sort column: that of SQL, with NULLS LAST.  Values that SQL does not
compare stand in the order of their kinds. -/
def cellCompare : Option ArrowValue → Option ArrowValue → Ordering
  | some x, some y => (x.wideCompare y).getD (compare x.sortRank y.sortRank)
  | some _, none => .lt
  | none, some _ => .gt
  | none, none => .eq

/-- What a row holds in the sort columns. -/
def sortCells (sortColIndices : List ℕ) (row : MergedRow) : List (Option ArrowValue) :=
  sortColIndices.map fun k => (row.1.columns[k]?).bind (·.cell row.2)

/-- The order of two rows: that of what they hold in the sort columns, one after the other. -/
def rowCompare (sortColIndices : List ℕ) (a b : MergedRow) : Ordering :=
  List.compareLex cellCompare (sortCells sortColIndices a) (sortCells sortColIndices b)

/-- The row is not above the other. -/
def RowLe (sortColIndices : List ℕ) (a b : MergedRow) : Prop :=
  (rowCompare sortColIndices a b).isLE = true

/-- Two consecutive rows, of which the second is below the first. -/
def Inverted (sortColIndices : List ℕ) (rows : List MergedRow) : Prop :=
  ∃ before x y after, rows = before ++ x :: y :: after ∧ rowCompare sortColIndices y x = .lt

/-- The types `extract_sort_key` has a key for, apart from the floats. -/
def DataType.sortable : DataType → Bool
  | .int16 | .int32 | .int64 | .utf8 | .largeUtf8 | .date32 => true
  | .timestamp .microsecond none => true
  | _ => false

/-- The batch has the sort columns, each of a type that has keys or without a value. -/
def RecordBatch.Keyed (sortColIndices : List ℕ) (batch : RecordBatch) : Prop :=
  ∀ k ∈ sortColIndices, ∃ col, batch.columns[k]? = some col ∧
    (col.dataType.sortable = true ∨ ∀ v ∈ col.values, v = none)

/-- A stream that is read to its end, in batches that have the sort columns. -/
def RecordBatchStream.Readable (sortColIndices : List ℕ) (stream : RecordBatchStream) : Prop :=
  ∀ item ∈ stream, ∃ batch, item = .ok batch ∧ batch.Keyed sortColIndices

/-- The sort key of a row. -/
def sortKey (sortColIndices : List ℕ) (row : MergedRow) : List SortKeyValue :=
  (buildKey row.1 row.2 sortColIndices).toOption.getD []

/-- The key of the row is not above that of the other. -/
def KeyLe (sortColIndices : List ℕ) (a b : MergedRow) : Prop :=
  (keyCmp (sortKey sortColIndices a) (sortKey sortColIndices b)).isLE = true

instance (sortColIndices : List ℕ) : DecidableRel (KeyLe sortColIndices) :=
  fun _ _ => inferInstanceAs (Decidable (_ = true))

instance (sortColIndices : List ℕ) : IsTrans MergedRow (KeyLe sortColIndices) :=
  ⟨fun _ _ _ => Std.TransCmp.isLE_trans⟩

theorem rowsFrom_of_lt {batch : RecordBatch} {k : ℕ} (h : k < batch.numRows) :
    rowsFrom batch k = (batch, k) :: rowsFrom batch (k + 1) := by
  rw [rowsFrom, List.Ico.eq_cons h, List.map_cons, rowsFrom]

theorem rowsFrom_of_le {batch : RecordBatch} {k : ℕ} (h : batch.numRows ≤ k) :
    rowsFrom batch k = [] := by
  rw [rowsFrom, List.Ico.eq_nil_of_le h, List.map_nil]

/-! ### Keys and values -/

/-- The key of a value. -/
inductive KeyOf : Option ArrowValue → SortKeyValue → Prop
  | null : KeyOf none .null
  | int {x : ArrowValue} {v : Int64} (h : x.int? = some v.toInt) : KeyOf (some x) (.i64 v)
  | text (v : String) : KeyOf (some (.utf8 v)) (.utf8 v)
  | date (v : Int32) : KeyOf (some (.date32 v)) (.date32 v)
  | time (v : Int64) : KeyOf (some (.timestamp v)) (.timestampMicros v)

/-- A sort column has a key in every row. -/
theorem exists_extractSortKey {col : Column} (row : ℕ)
    (h : col.dataType.sortable = true ∨ ∀ v ∈ col.values, v = none) :
    ∃ key, extractSortKey col row = .ok key ∧ KeyOf (col.cell row) key := by
  have htyped := col.cell_typed row
  cases hcell : col.cell row with
  | none => exact ⟨.null, by rw [extractSortKey, hcell], .null⟩
  | some value =>
    have hsortable : col.dataType.sortable = true := by
      refine h.resolve_right fun hnone => ?_
      obtain ⟨v, hv, hvalue⟩ : ∃ v, col.values[row]? = some v ∧ v = some value := by
        simpa [Column.cell, List.getD_eq_getElem?_getD, Option.getD_eq_iff] using hcell
      cases (hnone v (List.mem_of_getElem? hv)).symm.trans hvalue
    rw [hcell] at htyped
    simp only [extractSortKey, hcell]
    generalize col.dataType = ty at *
    unfold DataType.sortable at hsortable
    -- the type decides the constructor of the value
    split at hsortable <;> cases hsortable <;> cases value <;> cases htyped
    · exact ⟨_, rfl, .int (by simp [ArrowValue.int?])⟩
    · exact ⟨_, rfl, .int (by simp [ArrowValue.int?])⟩
    · exact ⟨_, rfl, .int rfl⟩
    · exact ⟨_, rfl, .text _⟩
    · exact ⟨_, rfl, .text _⟩
    · exact ⟨_, rfl, .date _⟩
    · exact ⟨_, rfl, .time _⟩

/-- Keys are ordered as their values. -/
theorem KeyOf.cmp_eq {a b : Option ArrowValue} {k l : SortKeyValue} (hk : KeyOf a k) (hl : KeyOf b l) :
    k.cmp l = cellCompare a b := by
  cases hk with
  | null => cases hl <;> rfl
  | int hx =>
    cases hl with
    | int hy => simp [cellCompare, ArrowValue.wideCompare, hx, hy, SortKeyValue.cmp,
        SortKeyValue.discriminant, Int64.compare_eq_compare_toInt]
    | null => rfl
    -- the other kinds come after the integers
    | _ => cases ‹ArrowValue› <;> first | cases hx | rfl
  | text v | date v | time v =>
    cases hl with
    | int hy => cases ‹ArrowValue› <;> first | cases hy | rfl
    | _ => rfl

theorem compareLex_of_forall₂ {as bs : List (Option ArrowValue)} {ks ls : List SortKeyValue}
    (ha : List.Forall₂ KeyOf as ks) (hb : List.Forall₂ KeyOf bs ls) :
    List.compareLex SortKeyValue.cmp ks ls = List.compareLex cellCompare as bs := by
  induction ha generalizing bs ls with
  | nil => cases hb <;> rfl
  | cons hk _ ih =>
    cases hb with
    | nil => rfl
    | cons hl hls => rw [List.compareLex_cons_cons, List.compareLex_cons_cons, hk.cmp_eq hl, ih hls]

/-- A row of a keyed batch has a key, which has the keys of its cells. -/
theorem RecordBatch.Keyed.exists_buildKey {sortColIndices : List ℕ} {batch : RecordBatch}
    (h : batch.Keyed sortColIndices) (row : ℕ) :
    ∃ keys, buildKey batch row sortColIndices = .ok keys ∧
      List.Forall₂ KeyOf (sortCells sortColIndices (batch, row)) keys := by
  have hcell : ∀ k ∈ sortColIndices, ∃ key, (match batch.columns[k]? with
      | none => .error (.panic "index out of bounds")
      | some col => FdwResult.lift (extractSortKey col row)) = Except.ok key ∧
      KeyOf ((batch.columns[k]?).bind (·.cell row)) key := by
    intro k hk
    obtain ⟨col, hcol, hsortable⟩ := h k hk
    obtain ⟨key, hkey, hof⟩ := exists_extractSortKey row hsortable
    exact ⟨key, by simp [hcol, hkey], by simpa [hcol] using hof⟩
  obtain ⟨keys, hkeys⟩ := exists_forall₂ hcell
  refine ⟨keys, ?_, ?_⟩
  · rw [buildKey, mapM_eq_ok_iff]
    exact hkeys.imp fun _ _ h => h.1
  · rw [sortCells, List.forall₂_map_left_iff]
    exact hkeys.imp fun _ _ h => h.2

/-- So a keyed batch has a key in every row. -/
theorem RecordBatch.Keyed.buildKey_eq_ok {sortColIndices : List ℕ} {batch : RecordBatch}
    (h : batch.Keyed sortColIndices) (row : ℕ) :
    buildKey batch row sortColIndices = .ok (sortKey sortColIndices (batch, row)) := by
  obtain ⟨keys, hkeys, -⟩ := h.exists_buildKey row
  simp [sortKey, hkeys, Except.toOption]

/-- It is the key of what the row holds in the sort columns. -/
theorem RecordBatch.Keyed.keyOf {sortColIndices : List ℕ} {batch : RecordBatch}
    (h : batch.Keyed sortColIndices) (row : ℕ) :
    List.Forall₂ KeyOf (sortCells sortColIndices (batch, row)) (sortKey sortColIndices (batch, row)) := by
  obtain ⟨keys, hkeys, hof⟩ := h.exists_buildKey row
  rwa [Except.ok.inj ((h.buildKey_eq_ok row).symm.trans hkeys)]

theorem not_keyLe_iff {sortColIndices : List ℕ} {a b : MergedRow} :
    ¬ KeyLe sortColIndices a b ↔
      keyCmp (sortKey sortColIndices b) (sortKey sortColIndices a) = .lt := by
  rw [KeyLe, keyCmp_eq_swap (sortKey sortColIndices a)]
  cases keyCmp (sortKey sortColIndices a) (sortKey sortColIndices b) <;> simp

/-- **Rows are ordered by their keys as by their values.** -/
theorem keyCmp_sortKey {sortColIndices : List ℕ} {a b : MergedRow} (ha : a.1.Keyed sortColIndices)
    (hb : b.1.Keyed sortColIndices) :
    keyCmp (sortKey sortColIndices a) (sortKey sortColIndices b) = rowCompare sortColIndices a b := by
  rw [rowCompare, keyCmp]
  exact compareLex_of_forall₂ (ha.keyOf a.2) (hb.keyOf b.2)

variable {sortColIndices : List ℕ} {rows : List MergedRow} {a b : MergedRow}

theorem keyLe_iff_rowLe (ha : a.1.Keyed sortColIndices) (hb : b.1.Keyed sortColIndices) :
    KeyLe sortColIndices a b ↔ RowLe sortColIndices a b := by
  rw [KeyLe, keyCmp_sortKey ha hb, RowLe]

/-- Rows without an inversion are in order. -/
theorem inverted_iff_not_isChain (h : ∀ row ∈ rows, row.1.Keyed sortColIndices) :
    Inverted sortColIndices rows ↔ ¬ rows.IsChain (KeyLe sortColIndices) := by
  constructor
  · rintro ⟨before, x, y, after, rfl, hlt⟩ hchain
    rw [List.isChain_append_cons_cons] at hchain
    rw [← keyCmp_sortKey (h y (by simp)) (h x (by simp))] at hlt
    exact not_keyLe_iff.mpr hlt hchain.2.1
  · intro hchain
    obtain ⟨n, hn, hnot⟩ := List.exists_not_getElem_of_not_isChain hchain
    refine ⟨rows.take n, rows[n], rows[n + 1], rows.drop (n + 2), ?_, ?_⟩
    · rw [← List.drop_eq_getElem_cons, ← List.drop_eq_getElem_cons, List.take_append_drop]
    · rw [← keyCmp_sortKey (h _ (List.getElem_mem _)) (h _ (List.getElem_mem _))]
      exact not_keyLe_iff.mp hnot

/-! ### The merger and the merge it stands for -/

section Represents

variable {queue : PriorityQueue HeapEntry HeapEntry.le}

/-- The entry holds the first of the rows, and the batches of `rest` the rows after its batch. -/
structure HeapEntry.Heads (sortColIndices : List ℕ) (rows : List MergedRow) (rest : RecordBatchStream)
    (entry : HeapEntry) : Prop where
  keyed : entry.batch.Keyed sortColIndices
  key : entry.key = sortKey sortColIndices (entry.batch, entry.rowInBatch)
  lt_numRows : entry.rowInBatch < entry.batch.numRows
  readable : rest.Readable sortColIndices
  split : rows = rowsFrom entry.batch entry.rowInBatch ++ streamRows rest

/-- The heap holds the first row left of each blob that has one. -/
structure HeapHolds (sortColIndices : List ℕ) (streams : List (Option RecordBatchStream))
    (left : ℕ → List MergedRow) (heap : List HeapEntry) : Prop where
  nodup : (heap.map HeapEntry.sourceIdx).Nodup
  heads : ∀ entry ∈ heap, ∃ rest, streams[entry.sourceIdx]? = some (some rest) ∧
    entry.Heads sortColIndices (left entry.sourceIdx) rest
  absent : ∀ i, (∀ entry ∈ heap, entry.sourceIdx ≠ i) → left i = []

/-- The merge that the merger stands for. -/
structure MultiFileSortedStream.Represents (m : MultiFileSortedStream queue)
    (s : State ℕ MergedRow) : Prop where
  heap : HeapHolds m.sortColIndices m.streams s.left (queue.elems m.heap)
  last : m.lastEmitted = s.last.map (sortKey m.sortColIndices)
  names : m.blobNames.length = m.streams.length

variable {sortColIndices : List ℕ} {streams streams' : List (Option RecordBatchStream)}
  {left left' : ℕ → List MergedRow} {heap heap' : List HeapEntry} {rows : List MergedRow}
  {stream rest : RecordBatchStream} {entry : HeapEntry}

theorem HeapEntry.Heads.rows_eq (h : entry.Heads sortColIndices rows rest) :
    rows = (entry.batch, entry.rowInBatch) ::
      (rowsFrom entry.batch (entry.rowInBatch + 1) ++ streamRows rest) := by
  rw [h.split, rowsFrom_of_lt h.lt_numRows, List.cons_append]

theorem HeapHolds.perm (h : HeapHolds sortColIndices streams left heap) (hperm : heap.Perm heap') :
    HeapHolds sortColIndices streams left heap' where
  nodup := (hperm.map _).nodup_iff.mp h.nodup
  heads entry hentry := h.heads entry (hperm.mem_iff.mpr hentry)
  absent i hi := h.absent i fun entry hentry => hi entry (hperm.mem_iff.mp hentry)

/-- An entry leaves the heap, with what is left of its blob. -/
theorem HeapHolds.remove (h : HeapHolds sortColIndices streams left (entry :: heap)) :
    (∀ e ∈ heap, e.sourceIdx ≠ entry.sourceIdx) ∧
      HeapHolds sortColIndices streams (Function.update left entry.sourceIdx []) heap := by
  obtain ⟨hnot, hnodup⟩ := List.nodup_cons.mp h.nodup
  have hne : ∀ e ∈ heap, e.sourceIdx ≠ entry.sourceIdx :=
    fun e he heq => hnot (heq ▸ List.mem_map_of_mem he)
  refine ⟨hne, hnodup, fun e he => ?_, fun i hi => ?_⟩
  · rw [Function.update_of_ne (hne e he)]
    exact h.heads e (List.mem_cons_of_mem _ he)
  · by_cases heq : i = entry.sourceIdx
    · rw [heq, Function.update_self]
    · rw [Function.update_of_ne heq]
      exact h.absent i (List.forall_mem_cons.mpr ⟨Ne.symm heq, hi⟩)

/-- A blob without an entry gets one, or has no rows left. -/
theorem HeapHolds.insert (h : HeapHolds sortColIndices streams left heap) {i : ℕ}
    (next : Option HeapEntry) (hi : ∀ e ∈ heap, e.sourceIdx ≠ i)
    (hstreams : ∀ j, j ≠ i → ∀ rest, streams[j]? = some (some rest) →
      streams'[j]? = some (some rest))
    (hleft : ∀ j, j ≠ i → left' j = left j) (hnone : next = none → left' i = [])
    (hsome : ∀ e, next = some e → e.sourceIdx = i ∧ ∃ rest, streams'[i]? = some (some rest) ∧
      e.Heads sortColIndices (left' i) rest) :
    HeapHolds sortColIndices streams' left' (next.toList ++ heap) := by
  have hheads : ∀ e ∈ heap, ∃ rest, streams'[e.sourceIdx]? = some (some rest) ∧
      e.Heads sortColIndices (left' e.sourceIdx) rest := by
    intro e he
    obtain ⟨rest, hrest, hheads⟩ := h.heads e he
    exact ⟨rest, hstreams _ (hi e he) rest hrest, (hleft _ (hi e he)).symm ▸ hheads⟩
  have habsent : ∀ j, j ≠ i → (∀ e ∈ heap, e.sourceIdx ≠ j) → left' j = [] :=
    fun j hj hnot => (hleft j hj).trans (h.absent j hnot)
  cases next with
  | none =>
    refine ⟨h.nodup, hheads, fun j hnot => ?_⟩
    by_cases hj : j = i
    · exact hj ▸ hnone rfl
    · exact habsent j hj hnot
  | some e =>
    obtain ⟨rfl, hrest⟩ := hsome e rfl
    refine ⟨List.nodup_cons.mpr ⟨fun hmem => ?_, h.nodup⟩, List.forall_mem_cons.mpr ⟨hrest, hheads⟩,
      fun j hnot => ?_⟩
    · obtain ⟨e', he', heq⟩ := List.mem_map.mp hmem
      exact hi e' he' heq
    · obtain ⟨hj, hnot⟩ := List.forall_mem_cons.mp hnot
      exact habsent j (Ne.symm hj) hnot

theorem elems_pushEntry (q : queue.Carrier) (next : Option HeapEntry) :
    (queue.elems (pushEntry queue q next)).Perm (next.toList ++ queue.elems q) := by
  cases next with
  | none => exact .refl _
  | some e => exact queue.elems_push q e

/-- The entry that pulling a batch gives. -/
theorem exists_pullNonEmpty (i : ℕ) (h : stream.Readable sortColIndices) :
    ∃ next rest, pullNonEmpty sortColIndices i stream = .ok (next, rest) ∧
      (next = none → streamRows stream = []) ∧
      ∀ e, next = some e → e.sourceIdx = i ∧ e.Heads sortColIndices (streamRows stream) rest := by
  induction stream with
  | nil => exact ⟨none, [], rfl, fun _ => rfl, nofun⟩
  | cons item stream ih =>
    obtain ⟨⟨batch, rfl, hkeyed⟩, hstream⟩ := List.forall_mem_cons.mp h
    by_cases hrows : 0 < batch.numRows
    · refine ⟨some ⟨sortKey sortColIndices (batch, 0), i, batch, 0⟩, stream, ?_, nofun, ?_⟩
      · rw [pullNonEmpty, if_pos hrows, hkeyed.buildKey_eq_ok 0]
        rfl
      · rintro e he
        obtain rfl := Option.some.inj he
        exact ⟨rfl, hkeyed, rfl, hrows, hstream, rfl⟩
    · obtain ⟨next, rest, hpull, hnone, hsome⟩ := ih hstream
      have hempty : streamRows (.ok batch :: stream) = streamRows stream := by
        rw [streamRows, rowsFrom_of_le (Nat.le_of_not_lt hrows), List.nil_append]
      refine ⟨next, rest, ?_, ?_, ?_⟩
      · rw [pullNonEmpty, if_neg hrows, hpull]
      · rwa [hempty]
      · rwa [hempty]

/-- The next row of a blob goes into the heap. -/
theorem MultiFileSortedStream.exists_advance {m : MultiFileSortedStream queue}
    (h : entry.Heads m.sortColIndices rows rest)
    (hstream : m.streams[entry.sourceIdx]? = some (some rest)) :
    ∃ next stream', m.advance entry = .ok { m with
        streams := m.streams.set entry.sourceIdx stream'
        heap := pushEntry queue m.heap next } ∧
      (next = none → rows.tail = []) ∧
      ∀ e, next = some e → e.sourceIdx = entry.sourceIdx ∧ ∃ rest', stream' = some rest' ∧
        e.Heads m.sortColIndices rows.tail rest' := by
  rw [h.rows_eq, List.tail_cons, advance]
  by_cases hrow : entry.rowInBatch + 1 < entry.batch.numRows
  · refine ⟨some ⟨sortKey m.sortColIndices (entry.batch, entry.rowInBatch + 1), entry.sourceIdx,
      entry.batch, entry.rowInBatch + 1⟩, some rest, ?_, nofun, ?_⟩
    · have hset : m.streams.set entry.sourceIdx (some rest) = m.streams := by
        refine List.ext_getElem? fun j => ?_
        grind
      rw [if_pos hrow, h.keyed.buildKey_eq_ok, hset]
      rfl
    · rintro e he
      obtain rfl := Option.some.inj he
      exact ⟨rfl, rest, rfl, h.keyed, rfl, hrow, h.readable, rfl⟩
  · obtain ⟨next, rest', hpull, hnone, hsome⟩ := exists_pullNonEmpty entry.sourceIdx h.readable
    rw [rowsFrom_of_le (Nat.le_of_not_lt hrow), List.nil_append]
    refine ⟨next, next.map fun _ => rest', ?_, hnone, fun e he => ?_⟩
    · rw [if_neg hrow, hstream]
      simp only [hpull]
      rfl
    · obtain ⟨hidx, hheads⟩ := hsome e he
      exact ⟨hidx, rest', by rw [he]; rfl, hheads⟩

/-- How a merge in the given state ends: with no rows left, or at a row that does not follow. -/
def EndsMerge (debug : List SortKeyValue → String) (sortColIndices : List ℕ)
    (blobNames : List String) (s : State ℕ MergedRow) : Option Failure → Prop
  | none => ∀ i, s.left i = []
  | some e => ∃ i blob key prev row, e = orderViolation debug blob key prev ∧
      blobNames[i]? = some blob ∧ (s.left i).head? = some row ∧
      ¬ s.Follows (KeyLe sortColIndices) row

/-- A step of the merge, and the merger after it. -/
structure Emits (m : MultiFileSortedStream queue) (s : State ℕ MergedRow) (p : ℕ × MergedRow)
    (m' : MultiFileSortedStream queue) (s' : State ℕ MergedRow) : Prop where
  step : Step (KeyLe m.sortColIndices) s p s'
  represents : m'.Represents s'
  lt_length : p.1 < m.streams.length
  length_eq : m'.streams.length = m.streams.length
  blobNames_eq : m'.blobNames = m.blobNames
  sortColIndices_eq : m'.sortColIndices = m.sortColIndices

variable {m : MultiFileSortedStream queue} {s : State ℕ MergedRow}

/-- The entry that is popped is least among the first rows left. -/
theorem MultiFileSortedStream.Represents.least (h : m.Represents s) {q : queue.Carrier}
    (hpop : queue.pop m.heap = some (entry, q)) :
    Least (KeyLe m.sortColIndices) s entry.sourceIdx (entry.batch, entry.rowInBatch) := by
  obtain ⟨hperm, hle⟩ := queue.elems_pop _ _ _ hpop
  have hentry : entry ∈ queue.elems m.heap := hperm.mem_iff.mpr List.mem_cons_self
  obtain ⟨rest, -, hheads⟩ := h.heap.heads entry hentry
  refine ⟨by rw [hheads.rows_eq, List.head?_cons], fun j y hy => ?_⟩
  by_cases hj : ∃ e ∈ queue.elems m.heap, e.sourceIdx = j
  · obtain ⟨e, he, rfl⟩ := hj
    obtain ⟨rest', -, hheads'⟩ := h.heap.heads e he
    rw [hheads'.rows_eq, List.head?_cons] at hy
    obtain rfl := Option.some.inj hy
    have hkeys : (keyCmp entry.key e.key).isLE = true := hle e he
    rwa [hheads.key, hheads'.key] at hkeys
  · have hempty : s.left j = [] :=
      h.heap.absent j fun e he heq => hj ⟨e, he, heq⟩
    rw [hempty] at hy
    cases hy

variable (debug : List SortKeyValue → String)

/-- The check passes when the row follows the last one. -/
theorem checkOrder_cases {row : MergedRow} (h : m.Represents s)
    (hkey : entry.key = sortKey m.sortColIndices row)
    (hidx : entry.sourceIdx < m.streams.length) :
    m.checkOrder debug entry = .ok () ∧ s.Follows (KeyLe m.sortColIndices) row ∨
      ∃ blob key prev, m.checkOrder debug entry = .error (orderViolation debug blob key prev) ∧
        m.blobNames[entry.sourceIdx]? = some blob ∧ ¬ s.Follows (KeyLe m.sortColIndices) row := by
  obtain ⟨blob, hblob⟩ : ∃ blob, m.blobNames[entry.sourceIdx]? = some blob :=
    ⟨_, List.getElem?_eq_getElem (h.names ▸ hidx)⟩
  rw [MultiFileSortedStream.checkOrder, h.last]
  cases hlast : s.last with
  | none => exact .inl ⟨rfl, fun y hy => absurd (hlast.symm.trans hy) nofun⟩
  | some y =>
    simp only [Option.map_some, hblob, hkey]
    by_cases hlt : keyCmp (sortKey m.sortColIndices row) (sortKey m.sortColIndices y) = .lt
    · rw [if_pos hlt]
      exact .inr ⟨blob, _, _, rfl, rfl, fun hfollows => not_keyLe_iff.mpr hlt (hfollows y hlast)⟩
    · rw [if_neg hlt]
      refine .inl ⟨rfl, fun z hz => ?_⟩
      obtain rfl := Option.some.inj (hlast.symm.trans hz)
      exact not_not.mp fun hle => hlt (not_keyLe_iff.mp hle)

/-- A row that follows is returned, and the merger goes on with what is left of its blob. -/
theorem MultiFileSortedStream.Represents.emits (h : m.Represents s) {q : queue.Carrier}
    (hpop : queue.pop m.heap = some (entry, q))
    (hfollows : s.Follows (KeyLe m.sortColIndices) (entry.batch, entry.rowInBatch)) :
    ∃ m' s', advance { m with heap := q, lastEmitted := some entry.key } entry = .ok m' ∧
      Emits m s (entry.sourceIdx, (entry.batch, entry.rowInBatch)) m' s' := by
  obtain ⟨hperm, -⟩ := queue.elems_pop _ _ _ hpop
  obtain ⟨rest, hrest, hheads⟩ := h.heap.heads entry (hperm.mem_iff.mpr List.mem_cons_self)
  have hidx : entry.sourceIdx < m.streams.length := (List.getElem?_eq_some_iff.mp hrest).1
  obtain ⟨next, stream', hadvance, hnone, hsome⟩ :=
    exists_advance (m := { m with heap := q, lastEmitted := some entry.key }) hheads hrest
  obtain ⟨hne, hheap⟩ := (h.heap.perm hperm).remove
  have hrefilled : HeapHolds m.sortColIndices (m.streams.set entry.sourceIdx stream')
      (Function.update s.left entry.sourceIdx (s.left entry.sourceIdx).tail)
      (next.toList ++ queue.elems q) := by
    refine hheap.insert next hne (fun j hj r hr => ?_) (fun j hj => ?_) (fun hn => ?_) fun e he => ?_
    · rwa [List.getElem?_set_ne (Ne.symm hj)]
    · simp [hj]
    · simpa using hnone hn
    · obtain ⟨hi, rest', rfl, hheads'⟩ := hsome e he
      exact ⟨hi, rest', by simp [hidx], by simpa using hheads'⟩
  refine ⟨_, _, hadvance, .take (h.least hpop) hfollows, ⟨?_, ?_, ?_⟩, hidx, ?_, rfl, rfl⟩
  · exact hrefilled.perm (elems_pushEntry q next).symm
  · exact congrArg some hheads.key
  · simpa using h.names
  · simp

/-- **One call of `next_row` is one step of the merge**, or its end. -/
theorem nextRow_cases (h : m.Represents s) :
    (EndsMerge debug m.sortColIndices m.blobNames s none ∧ m.nextRow debug = .ok (none, m)) ∨
    (∃ e, EndsMerge debug m.sortColIndices m.blobNames s (some e) ∧ m.nextRow debug = .error e) ∨
    ∃ p m' s', m.nextRow debug = .ok (some p.2, m') ∧ Emits m s p m' s' := by
  rw [MultiFileSortedStream.nextRow]
  cases hpop : queue.pop m.heap with
  | none =>
    refine .inl ⟨fun i => h.heap.absent i ?_, rfl⟩
    rw [queue.elems_of_pop_none _ hpop]
    exact nofun
  | some popped =>
    obtain ⟨entry, q⟩ := popped
    obtain ⟨hperm, -⟩ := queue.elems_pop _ _ _ hpop
    obtain ⟨rest, hrest, hheads⟩ := h.heap.heads entry (hperm.mem_iff.mpr List.mem_cons_self)
    have hidx : entry.sourceIdx < m.streams.length := (List.getElem?_eq_some_iff.mp hrest).1
    simp only
    rcases checkOrder_cases debug h hheads.key hidx with
      ⟨hcheck, hfollows⟩ | ⟨blob, key, prev, hcheck, hblob, hviolates⟩
    · obtain ⟨m', s', hadvance, hemits⟩ := h.emits hpop hfollows
      refine .inr (.inr ⟨_, m', s', ?_, hemits⟩)
      rw [hcheck, hadvance]
      rfl
    · refine .inr (.inl ⟨_, ⟨entry.sourceIdx, blob, key, prev, _, rfl, hblob, (h.least hpop).head,
        hviolates⟩, ?_⟩)
      rw [hcheck]
      rfl

/-- **The calls of `next_row` are a run of the merge**, to its end. -/
theorem exists_drains (h : m.Represents s) :
    ∃ taken s' end', Runs.Run (Step (KeyLe m.sortColIndices)) s taken s' ∧
      Drains debug m (taken.map Prod.snd) end' ∧
      EndsMerge debug m.sortColIndices m.blobNames s' end' := by
  -- each step leaves one row less
  induction hn : ∑ i ∈ Finset.range m.streams.length, (s.left i).length using Nat.strong_induction_on
    generalizing m s with
  | _ n ih =>
    rcases nextRow_cases debug h with
      ⟨hend, hnext⟩ | ⟨e, hend, hnext⟩ | ⟨p, m', s', hnext, hemits⟩
    · exact ⟨[], s, none, .nil, .ended hnext, hend⟩
    · exact ⟨[], s, some e, .nil, .failed hnext, hend⟩
    · have hless := hemits.step.sum_length_lt (Finset.mem_range.mpr hemits.lt_length)
      obtain ⟨taken, s'', end', run, hdrains, hend⟩ :=
        ih _ (hn ▸ hemits.length_eq.symm ▸ hless) hemits.represents rfl
      rw [hemits.sortColIndices_eq] at run hend
      rw [hemits.blobNames_eq] at hend
      exact ⟨p :: taken, s'', end', run.cons hemits.step, .row hnext hdrains, hend⟩

/-- The rows of the blob with number `i`. -/
def blobRows (streams : List RecordBatchStream) (i : ℕ) : List MergedRow :=
  (streams[i]?.map streamRows).getD []

/-- The streams after those `done` are opened one by one. -/
theorem exists_openStreams {all streams : List RecordBatchStream} (done : List RecordBatchStream)
    {opened : List (Option RecordBatchStream)} {q : queue.Carrier} (hall : all = done ++ streams)
    (hread : ∀ stream ∈ streams, stream.Readable sortColIndices)
    (hlength : opened.length = done.length)
    (h : HeapHolds sortColIndices opened (blobRows done) (queue.elems q)) :
    ∃ opened' q', openStreams queue sortColIndices done.length streams q = .ok (opened', q') ∧
      (opened ++ opened').length = all.length ∧
      HeapHolds sortColIndices (opened ++ opened') (blobRows all) (queue.elems q') := by
  induction streams generalizing done opened q with
  | nil =>
    rw [List.append_nil] at hall
    refine ⟨[], q, rfl, by simp [hlength, hall], ?_⟩
    rwa [List.append_nil, hall]
  | cons stream streams ih =>
    obtain ⟨hstream, hread⟩ := List.forall_mem_cons.mp hread
    obtain ⟨next, rest, hpull, hnone, hsome⟩ := exists_pullNonEmpty done.length hstream
    have hrows : blobRows (done ++ [stream]) done.length = streamRows stream := by
      simp [blobRows]
    have hnot : ∀ e ∈ queue.elems q, e.sourceIdx ≠ done.length := by
      intro e he heq
      obtain ⟨rest, hrest, -⟩ := h.heads e he
      exact absurd (List.getElem?_eq_some_iff.mp hrest).1 (by omega)
    have hheap : HeapHolds sortColIndices (opened ++ [some rest]) (blobRows (done ++ [stream]))
        (next.toList ++ queue.elems q) := by
      refine h.insert next hnot (fun j hj r hr => ?_) (fun j hj => ?_) (fun hn => ?_) fun e he => ?_
      · rwa [List.getElem?_append_left (List.getElem?_eq_some_iff.mp hr).1]
      · rw [blobRows, blobRows]
        grind
      · rw [hrows, hnone hn]
      · obtain ⟨hi, hheads⟩ := hsome e he
        exact ⟨hi, rest, by simp [← hlength], hrows.symm ▸ hheads⟩
    obtain ⟨opened', q', hopen, hlength', hheap'⟩ := ih (done ++ [stream])
      (by rw [hall, List.append_assoc]; rfl) hread (by simp [hlength])
      (hheap.perm (elems_pushEntry q next).symm)
    rw [List.append_assoc] at hlength' hheap'
    refine ⟨some rest :: opened', q', ?_, hlength', hheap'⟩
    rw [List.length_append] at hopen
    rw [openStreams, hpull]
    show (do
      let (opened, heap) ← openStreams queue sortColIndices (done.length + 1) streams _
      return (some rest :: opened, heap)) = _
    rw [show openStreams queue sortColIndices (done.length + 1) streams _ = _ from hopen]
    rfl

/-- **A merger that was opened represents the merge of its blobs.** -/
theorem exists_new {streams : List RecordBatchStream} {blobNames : List String}
    (hcap : streams.length ≤ 256) (hnames : blobNames.length = streams.length)
    (hread : ∀ stream ∈ streams, stream.Readable sortColIndices) :
    ∃ m, MultiFileSortedStream.new queue streams blobNames sortColIndices = .ok m ∧
      m.sortColIndices = sortColIndices ∧ m.blobNames = blobNames ∧
      m.Represents ⟨blobRows streams, none⟩ := by
  have hempty : HeapHolds sortColIndices [] (blobRows []) (queue.elems queue.empty) := by
    rw [queue.elems_empty]
    exact ⟨.nil, nofun, fun _ _ => rfl⟩
  obtain ⟨opened, q, hopen, hlength, hheap⟩ :=
    exists_openStreams [] rfl hread rfl hempty
  refine ⟨⟨opened, blobNames, sortColIndices, q, none⟩, ?_, rfl, rfl, hheap, rfl, ?_⟩
  · rw [MultiFileSortedStream.new, if_neg (by omega), if_neg (by simp [hnames])]
    rw [List.length_nil] at hopen
    simp only [hopen]
    rfl
  · simpa [hnames] using hlength.symm

end Represents

/-! ### What a merge returns -/

section Results

variable (queue : PriorityQueue HeapEntry HeapEntry.le) (debug : List SortKeyValue → String)
  {streams : List RecordBatchStream} {blobNames : List String} {sortColIndices : List ℕ}

/-- Some merger is opened, and drained along a run of the merge of the blobs. -/
theorem exists_merge (hcap : streams.length ≤ 256) (hnames : blobNames.length = streams.length)
    (hread : ∀ stream ∈ streams, stream.Readable sortColIndices) :
    ∃ m taken s end', MultiFileSortedStream.new queue streams blobNames sortColIndices = .ok m ∧
      Drains debug m (taken.map Prod.snd) end' ∧
      Invariant (KeyLe sortColIndices) (blobRows streams) taken s ∧
      EndsMerge debug sortColIndices blobNames s end' := by
  obtain ⟨m, hnew, hcols, hblobs, hm⟩ := exists_new hcap hnames hread
  obtain ⟨taken, s, end', run, hdrains, hend⟩ := exists_drains debug hm
  rw [hcols] at run hend
  rw [hblobs] at hend
  exact ⟨m, taken, s, end', hnew, hdrains, invariant_of_run run, hend⟩

theorem blobRows_of_getElem? {i : ℕ} {stream : RecordBatchStream} (h : streams[i]? = some stream) :
    blobRows streams i = streamRows stream := by
  rw [blobRows, h]
  rfl

theorem lt_length_of_mem_blobRows {i : ℕ} {row : MergedRow} (h : row ∈ blobRows streams i) :
    i < streams.length := by
  by_contra hlt
  rw [blobRows, List.getElem?_eq_none (Nat.le_of_not_lt hlt)] at h
  exact List.not_mem_nil h

theorem flatMap_blobRows :
    (List.range streams.length).flatMap (blobRows streams) = streams.flatMap streamRows := by
  rw [List.flatMap_def, List.flatMap_def]
  congr 1
  refine List.ext_getElem (by simp) fun i hi _ => ?_
  rw [List.length_map, List.length_range] at hi
  simp [blobRows, hi]

theorem RecordBatchStream.Readable.keyed {stream : RecordBatchStream}
    (h : stream.Readable sortColIndices) : ∀ row ∈ streamRows stream, row.1.Keyed sortColIndices := by
  induction stream with
  | nil => exact nofun
  | cons item stream ih =>
    obtain ⟨⟨batch, rfl, hkeyed⟩, hstream⟩ := List.forall_mem_cons.mp h
    intro row hrow
    rcases List.mem_append.mp hrow with hrow | hrow
    · obtain ⟨_, -, rfl⟩ := List.mem_map.mp hrow
      exact hkeyed
    · exact ih hstream row hrow

section Ends

variable {taken : List (ℕ × MergedRow)} {s : State ℕ MergedRow}
  (h : Invariant (KeyLe sortColIndices) (blobRows streams) taken s)
  (hread : ∀ stream ∈ streams, stream.Readable sortColIndices)
include h hread

/-- The rows taken are rows of the blobs. -/
theorem mem_blobRows_of_taken : ∀ p ∈ taken, p.1 < streams.length ∧ p.2.1.Keyed sortColIndices := by
  intro p hp
  have hrow : p.2 ∈ blobRows streams p.1 := by
    rw [h.split]
    exact List.mem_append_left _ (List.mem_map_of_mem (List.mem_filter.mpr ⟨hp, by simp⟩))
  have hi := lt_length_of_mem_blobRows hrow
  rw [blobRows_of_getElem? (List.getElem?_eq_getElem hi)] at hrow
  exact ⟨hi, (hread _ (List.getElem_mem hi)).keyed _ hrow⟩

/-- What was taken is in order. -/
theorem pairwise_taken : (taken.map Prod.snd).Pairwise (RowLe sortColIndices) := by
  have hkeyed := mem_blobRows_of_taken h hread
  refine List.pairwise_map.mpr (h.ordered.imp_of_mem fun {p q} hp hq hle => ?_)
  exact (keyLe_iff_rowLe (hkeyed p hp).2 (hkeyed q hq).2).mp hle

/-- A merge that stops at a row names a blob that is out of order. -/
theorem exists_inverted {e : Failure} (hnames : blobNames.length = streams.length)
    (hend : EndsMerge debug sortColIndices blobNames s (some e)) :
    ∃ (i : ℕ) (blob : String) (stream : RecordBatchStream) (key prev : List SortKeyValue),
      e = orderViolation debug blob key prev ∧ blobNames[i]? = some blob ∧ streams[i]? = some stream ∧
      Inverted sortColIndices (streamRows stream) := by
  obtain ⟨i, blob, key, prev, row, rfl, hblob, hhead, hstop⟩ := hend
  have hi : i < streams.length := hnames ▸ (List.getElem?_eq_some_iff.mp hblob).1
  have hstream : streams[i]? = some streams[i] := List.getElem?_eq_getElem hi
  refine ⟨i, blob, streams[i], key, prev, rfl, hblob, hstream, ?_⟩
  rw [inverted_iff_not_isChain (hread _ (List.getElem_mem hi)).keyed, ← blobRows_of_getElem? hstream]
  exact h.unordered hhead hstop

/-- A merge that runs out of rows has seen every blob in order. -/
theorem not_inverted_of_end (hend : ∀ i, s.left i = []) :
    ∀ stream ∈ streams, ¬ Inverted sortColIndices (streamRows stream) := by
  intro stream hmem
  obtain ⟨i, hi⟩ := List.mem_iff_getElem?.mp hmem
  rw [inverted_iff_not_isChain (hread stream hmem).keyed, not_not, ← blobRows_of_getElem? hi]
  exact (h.ordered_of_empty hend i).2

end Ends

/-- Blobs in order are taken to their end. -/
theorem exists_merge_of_ordered (hcap : streams.length ≤ 256)
    (hnames : blobNames.length = streams.length)
    (hread : ∀ stream ∈ streams, stream.Readable sortColIndices)
    (hsorted : ∀ stream ∈ streams, ¬ Inverted sortColIndices (streamRows stream)) :
    ∃ m taken, MultiFileSortedStream.new queue streams blobNames sortColIndices = .ok m ∧
      Drains debug m (taken.map Prod.snd) none ∧
      (taken.map Prod.snd).Pairwise (RowLe sortColIndices) ∧
      (taken.map Prod.snd).Perm (streams.flatMap streamRows) ∧
      ∀ i, blobRows streams i = ofSource i taken := by
  obtain ⟨m, taken, s, end', hnew, hdrains, hinv, hend⟩ := exists_merge queue debug hcap hnames hread
  cases end' with
  | some e =>
    obtain ⟨i, blob, stream, key, prev, -, -, hstream, hinverted⟩ :=
      exists_inverted debug hinv hread hnames hend
    exact absurd hinverted (hsorted stream (List.mem_of_getElem? hstream))
  | none =>
    have hall : ∀ i, blobRows streams i = ofSource i taken :=
      fun i => (hinv.ordered_of_empty hend i).1
    refine ⟨m, taken, hnew, hdrains, pairwise_taken hinv hread, ?_, hall⟩
    rw [← flatMap_blobRows, funext hall]
    exact perm_flatMap_ofSource List.nodup_range fun p hp =>
      List.mem_range.mpr (mem_blobRows_of_taken hinv hread p hp).1

/-- **Blobs in order are merged.**  The calls of `next_row` return rows in order and then none;
the rows are those of the blobs, and those of each blob stand in the order they have in it.  The
order is that of the values in the sort columns, NULLS LAST. -/
theorem sortedMerge_merges (hcap : streams.length ≤ 256)
    (hnames : blobNames.length = streams.length)
    (hread : ∀ stream ∈ streams, stream.Readable sortColIndices)
    (hsorted : ∀ stream ∈ streams, ¬ Inverted sortColIndices (streamRows stream)) :
    ∃ m out, MultiFileSortedStream.new queue streams blobNames sortColIndices = .ok m ∧
      Drains debug m out none ∧
      out.Pairwise (RowLe sortColIndices) ∧
      out.Perm (streams.flatMap streamRows) ∧
      ∃ tagged : List (ℕ × MergedRow), tagged.map Prod.snd = out ∧
        ∀ i stream, streams[i]? = some stream → ofSource i tagged = streamRows stream := by
  obtain ⟨m, taken, hnew, hdrains, hordered, hperm, hall⟩ :=
    exists_merge_of_ordered queue debug hcap hnames hread hsorted
  refine ⟨m, _, hnew, hdrains, hordered, hperm, taken, rfl, fun i stream hstream => ?_⟩
  rw [← hall, blobRows_of_getElem? hstream]

/-- A batch with one column of numbers. -/
def numberBatch (values : List (Option Int64)) : RecordBatch where
  numRows := values.length
  columns := [⟨.int64, values.map (Option.map .int64), by
    rintro v hv
    obtain ⟨x, -, rfl⟩ := List.mem_map.mp hv
    cases x <;> rfl⟩]
  length_eq := by simp

/-- A stream of such batches. -/
def numberStream (batches : List (List (Option Int64))) : RecordBatchStream :=
  batches.map fun values => .ok (numberBatch values)

theorem readable_numberStream (batches : List (List (Option Int64))) :
    RecordBatchStream.Readable [0] (numberStream batches) := by
  intro item hitem
  obtain ⟨values, -, rfl⟩ := List.mem_map.mp hitem
  exact ⟨numberBatch values, rfl, by simp [RecordBatch.Keyed, numberBatch, DataType.sortable]⟩

/-- Two blobs in order, one of them cut by an empty batch, the other with a NULL. -/
theorem two_blobs_merged : ∃ m out, MultiFileSortedStream.new (sortedQueue HeapEntry.le)
    [numberStream [[some 1], [], [some 3]], numberStream [[some 2, none]]] ["a", "b"] [0] = .ok m ∧
      Drains (fun _ => "") m out none ∧ out.length = 4 ∧ out.Pairwise (RowLe [0]) := by
  have hread : ∀ stream ∈ [numberStream [[some 1], [], [some 3]], numberStream [[some 2, none]]],
      stream.Readable [0] := by
    simp [readable_numberStream]
  have hsorted : ∀ stream ∈ [numberStream [[some 1], [], [some 3]], numberStream [[some 2, none]]],
      ¬ Inverted [0] (streamRows stream) := by
    intro stream hmem
    rw [inverted_iff_not_isChain (hread stream hmem).keyed, not_not]
    revert stream
    decide
  obtain ⟨m, out, hnew, hdrains, hordered, hperm, -⟩ := sortedMerge_merges (sortedQueue HeapEntry.le)
    (fun _ => "") (by decide) (rfl : ["a", "b"].length = 2) hread hsorted
  exact ⟨m, out, hnew, hdrains, hperm.length_eq.trans (by decide), hordered⟩

/-- **A merge fails exactly when a blob is out of order.**  The calls of `next_row` end in the
error of a row below the last one returned if and only if some blob has two consecutive rows with
a decreasing key; the blob it names is one of those, and what was returned is in order. -/
theorem sortedMerge_reports_inversion (hcap : streams.length ≤ 256)
    (hnames : blobNames.length = streams.length)
    (hread : ∀ stream ∈ streams, stream.Readable sortColIndices) :
    ∃ m out end', MultiFileSortedStream.new queue streams blobNames sortColIndices = .ok m ∧
      Drains debug m out end' ∧
      ((∃ blob key prev, end' = some (orderViolation debug blob key prev)) ↔
        ∃ stream ∈ streams, Inverted sortColIndices (streamRows stream)) ∧
      (∀ e, end' = some e → ∃ (i : ℕ) (blob : String) (stream : RecordBatchStream)
        (key prev : List SortKeyValue), e = orderViolation debug blob key prev ∧
        blobNames[i]? = some blob ∧ streams[i]? = some stream ∧
        Inverted sortColIndices (streamRows stream)) ∧
      out.Pairwise (RowLe sortColIndices) := by
  obtain ⟨m, taken, s, end', hnew, hdrains, hinv, hend⟩ := exists_merge queue debug hcap hnames hread
  refine ⟨m, taken.map Prod.snd, end', hnew, hdrains, ?_, ?_, pairwise_taken hinv hread⟩
  · cases end' with
    | none =>
      refine ⟨fun ⟨_, _, _, h⟩ => absurd h nofun, fun ⟨stream, hmem, hinverted⟩ => ?_⟩
      exact absurd hinverted (not_inverted_of_end hinv hread hend stream hmem)
    | some e =>
      obtain ⟨i, blob, stream, key, prev, rfl, -, hstream, hinverted⟩ :=
        exists_inverted debug hinv hread hnames hend
      exact ⟨fun _ => ⟨stream, List.mem_of_getElem? hstream, hinverted⟩,
        fun _ => ⟨blob, key, prev, rfl⟩⟩
  · rintro e rfl
    exact exists_inverted debug hinv hread hnames hend

/-- The second blob falls, across a batch boundary, and the error names it. -/
theorem falling_blob_reported : ∃ m out key prev, MultiFileSortedStream.new (sortedQueue HeapEntry.le)
    [numberStream [[some 1, some 3]], numberStream [[some 2], [some 1]]] ["a", "b"] [0] = .ok m ∧
      Drains (fun _ => "") m out (some (orderViolation (fun _ => "") "b" key prev)) := by
  have hread : ∀ stream ∈ [numberStream [[some 1, some 3]], numberStream [[some 2], [some 1]]],
      stream.Readable [0] := by
    simp [readable_numberStream]
  have hfirst : ¬ Inverted [0] (streamRows (numberStream [[some 1, some 3]])) := by
    rw [inverted_iff_not_isChain (readable_numberStream _).keyed, not_not]
    decide
  have hsecond : Inverted [0] (streamRows (numberStream [[some 2], [some 1]])) := by
    rw [inverted_iff_not_isChain (readable_numberStream _).keyed]
    decide
  obtain ⟨m, out, end', hnew, hdrains, hiff, hnames, -⟩ := sortedMerge_reports_inversion
    (sortedQueue HeapEntry.le) (fun _ => "") (by decide) (rfl : ["a", "b"].length = 2) hread
  obtain ⟨blob, key, prev, rfl⟩ := hiff.mpr ⟨_, by simp, hsecond⟩
  obtain ⟨i, blob', stream, key', prev', heq, hblob, hstream, hinverted⟩ := hnames _ rfl
  match i with
  | 0 =>
    obtain rfl := Option.some.inj hstream
    exact absurd hinverted hfirst
  | 1 =>
    obtain rfl := Option.some.inj hblob
    exact ⟨m, out, key', prev', hnew, heq ▸ hdrains⟩

end Results

end ParquetAzureFdw
