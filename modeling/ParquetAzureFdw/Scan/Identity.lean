/-
# Row identity between scan and modify

The scan stamps the `r`-th row it emits from a blob with
`RowId::from_absolute(first, r)`, where `first` is the length of its own table of
chunks when it opened the blob.  An UPDATE or DELETE looks the ctid up in the
table of `build_plan`, and edits the row it finds.  The two agree on a row at
position `p` of the `i`-th blob exactly when (`resolvesTo_iff`)

* each blob before it was given as many ids by the scan as by `build_plan`,
* every row before `p` in the blob was emitted too, and
* the id fits in 32 bits.

The scan gives ids only to the blobs it opens, and counts the rows it emits: a
blob skipped for its path, a row group pruned or a row dropped by the filter
breaks the first two.  Without them the round trip is exact
(`ctid_round_trip`).
-/

import ParquetAzureFdw.Lib.Ascending
import ParquetAzureFdw.Lib.Runs
import ParquetAzureFdw.Scan.State

namespace ParquetAzureFdw

open Runs

/-! ### The ids the scan hands out -/

section Ids

variable (cfg : ScanConfig) (openBlob : String → Outcome (List (Outcome (FileBatch String))))
  (blobs : List ListedBlob)

/-- The positions of the rows that the scan emits from a blob it opens. -/
def keptPositions (blob : String) : List ℕ :=
  match openBlob blob with
  | .ok items => streamPositions items
  | .error _ => []

/-- How many ids the scan gives a blob: none to one that it skips. -/
def scannedIds (blob : ListedBlob) : ℕ :=
  if cfg.skips blob.1 then 0 else planChunks (keptPositions openBlob blob.1).length

/-- The number of ids that the scan gives the first `i` blobs. -/
def scanStart (i : ℕ) : ℕ :=
  Segments.start (blobs.map fun b => (b, scannedIds cfg openBlob b)) i

/-- `first` ids were handed out where `ideal` should have been: no more, and as many
while ids fit in 32 bits. -/
def Handed (first ideal : ℕ) : Prop := first ≤ ideal ∧ (ideal < 2 ^ 32 → first = ideal)

theorem scanStart_succ {i : ℕ} {blob : ListedBlob} (h : blobs[i]? = some blob) :
    scanStart cfg openBlob blobs (i + 1) =
      scanStart cfg openBlob blobs i + scannedIds cfg openBlob blob :=
  Segments.start_succ (a := blob) (by simp [h])

/-- The positions of the rows left in the current batch. -/
def ScanState.batchLeft {σ : Type} (s : ScanState σ String) : List ℕ :=
  match s.curBatch with
  | none => []
  | some b => (b.rows.drop s.curRow).map Prod.snd

/-- The scan is in the `i`-th blob, whose first id is `first`, and `items` are left in
its stream. -/
structure InBlob (s : ListScan String) (items : List (Outcome (FileBatch String))) (i : ℕ)
    (blob : ListedBlob) (first : ℕ) : Prop where
  cursor_eq : s.rangeProducer.cursor = i + 1
  blob_eq : blobs[i]? = some blob
  not_skipped : cfg.skips blob.1 = false
  base_eq : s.curBlobBaseId = UInt32.ofNat first
  handed : Handed first (scanStart cfg openBlob blobs i)
  table_le : s.blobIdTable.length ≤ first + planChunks s.curRowInBlob
  table_eq : first < 2 ^ 32 → s.blobIdTable.length = first + planChunks s.curRowInBlob
  rows_left : ∃ emitted, emitted.length = s.curRowInBlob ∧
    keptPositions openBlob blob.1 = emitted ++ (s.batchLeft ++ streamPositions items)
  source_batch : ∀ b, s.curBatch = some b → b.source = blob.1
  source_items : ∀ b, .ok b ∈ items → b.source = blob.1

/-- The blobs before the `n`-th that are not skipped were opened. -/
def OpenedBefore (n : ℕ) : Prop :=
  ∀ j < n, ∀ b, blobs[j]? = some b → cfg.skips b.1 = false → ∃ items, openBlob b.1 = .ok items

/-- What holds between two iterations of the scan. -/
structure ScanInv (s : ListScan String) : Prop where
  blobs_eq : s.rangeProducer.blobs = blobs
  opened : OpenedBefore cfg openBlob blobs s.rangeProducer.cursor
  row_zero : s.curBatch = none → s.curRow = 0
  between : s.curStream = none → s.curBatch = none ∧
    Handed s.blobIdTable.length (scanStart cfg openBlob blobs s.rangeProducer.cursor)
  within : ∀ items, s.curStream = some items →
    ∃ i blob first, InBlob cfg openBlob blobs s items i blob first

variable {cfg openBlob blobs} {s s' : ListScan String}

theorem batchLeft_of_done (h : s.BatchDone) : s.batchLeft = [] := by
  unfold ScanState.batchLeft
  split
  · rfl
  · rename_i b hb
    have hlen : b.rows.length ≤ s.curRow := by
      simpa [FileBatch.batch, RecordBatch.ofRows] using h b hb
    rw [List.drop_eq_nil_of_le hlen, List.map_nil]

theorem OpenedBefore.succ {n : ℕ} {blob : ListedBlob} (h : OpenedBefore cfg openBlob blobs n)
    (hblob : blobs[n]? = some blob)
    (hopen : cfg.skips blob.1 = false → ∃ items, openBlob blob.1 = .ok items) :
    OpenedBefore cfg openBlob blobs (n + 1) := by
  intro j hj b hb hskip
  rcases Nat.lt_succ_iff_lt_or_eq.mp hj with hlt | rfl
  · exact h j hlt b hb hskip
  · obtain rfl : blob = b := Option.some.inj (hblob.symm.trans hb)
    exact hopen hskip

/-- A stream that has ended has handed out all ids of its blob. -/
theorem InBlob.handed_all {i : ℕ} {blob : ListedBlob} {first : ℕ}
    (h : InBlob cfg openBlob blobs s [] i blob first) (hbatch : s.BatchDone) :
    Handed s.blobIdTable.length (scanStart cfg openBlob blobs (i + 1)) := by
  obtain ⟨emitted, hlen, hkept⟩ := h.rows_left
  rw [batchLeft_of_done hbatch, streamPositions, List.append_nil, List.append_nil] at hkept
  have hsucc := scanStart_succ cfg openBlob blobs h.blob_eq
  rw [scannedIds, h.not_skipped, if_neg Bool.false_ne_true, hkept, hlen] at hsucc
  obtain ⟨hle, heq⟩ := h.handed
  have htable := h.table_le
  refine ⟨by omega, fun hlt => ?_⟩
  have hfirst := heq (by omega)
  have := h.table_eq (by omega)
  omega

/-- **An iteration keeps the invariant.** -/
theorem ScanInv.again (hsource : ∀ name items b, openBlob name = .ok items → .ok b ∈ items →
      b.source = name)
    (h : ScanInv cfg openBlob blobs s) (hit : Iterates cfg openBlob pullItem s (.again s')) :
    ScanInv cfg openBlob blobs s' := by
  have hdrop := ScanState.dropBatch_eq h.row_zero
  cases hit with
  | @pulled stream rest b hbatch hstream hpull =>
    rw [hdrop]
    obtain rfl := pullItem_eq_batch hpull
    obtain ⟨i, blob, first, hin⟩ := h.within _ hstream
    obtain ⟨emitted, hlen, hkept⟩ := hin.rows_left
    refine ⟨h.blobs_eq, h.opened, by simp, by simp, ?_⟩
    rintro items hitems
    obtain rfl : rest = items := by simpa using hitems
    refine ⟨i, blob, first, { hin with
      rows_left := ⟨emitted, hlen, ?_⟩, source_batch := ?_, source_items := ?_ }⟩
    · rw [hkept, batchLeft_of_done hbatch]
      rfl
    · rintro b' hb'
      obtain rfl : b = b' := by simpa using hb'
      exact hin.source_items b (by simp)
    · exact fun b' hb' => hin.source_items b' (by simp [hb'])
  | @ended stream hbatch hstream hpull =>
    rw [hdrop]
    obtain rfl := pullItem_eq_ended hpull
    obtain ⟨i, blob, first, hin⟩ := h.within _ hstream
    refine ⟨h.blobs_eq, h.opened, by simp, fun _ => ⟨rfl, ?_⟩, by simp⟩
    show Handed s.blobIdTable.length (scanStart cfg openBlob blobs s.rangeProducer.cursor)
    rw [hin.cursor_eq]
    exact hin.handed_all hbatch
  | took hbatch hstream htakes =>
    rw [hdrop] at htakes
    obtain ⟨-, hhanded⟩ := h.between hstream
    cases htakes with
    | @skipped blob notice hblob hskip =>
      have hblob' : blobs[s.rangeProducer.cursor]? = some blob := h.blobs_eq ▸ hblob
      have hopened := h.opened.succ hblob' fun hnot => absurd (hskip.symm.trans hnot) (by simp)
      refine ⟨h.blobs_eq, hopened, by simp, fun _ => ⟨rfl, ?_⟩, by simp [hstream]⟩
      show Handed s.blobIdTable.length (scanStart cfg openBlob blobs (s.rangeProducer.cursor + 1))
      rw [scanStart_succ cfg openBlob blobs hblob', scannedIds, hskip, if_pos rfl, Nat.add_zero]
      exact hhanded
    | @entered blob datums stream hblob hskip hdatums hopen =>
      have hblob' : blobs[s.rangeProducer.cursor]? = some blob := h.blobs_eq ▸ hblob
      have hopened := h.opened.succ hblob' fun _ => ⟨stream, hopen⟩
      refine ⟨h.blobs_eq, hopened, by simp, by simp, ?_⟩
      rintro items hitems
      obtain rfl : stream = items := by simpa using hitems
      refine ⟨s.rangeProducer.cursor, blob, s.blobIdTable.length, ?_⟩
      exact {
        cursor_eq := rfl
        blob_eq := hblob'
        not_skipped := hskip
        base_eq := rfl
        handed := hhanded
        table_le := by simp [planChunks]
        table_eq := by simp [planChunks, chunkRows]
        rows_left := ⟨[], rfl, by simp [keptPositions, hopen, ScanState.batchLeft]⟩
        source_batch := by simp
        source_items := fun b hb => hsource _ _ b hopen hb }

theorem ScanInv.initial (natts : ℕ) :
    ScanInv cfg openBlob blobs (ScanState.initial blobs natts) where
  blobs_eq := rfl
  opened := fun j hj => absurd hj (Nat.not_lt_zero j)
  row_zero _ := rfl
  between _ := ⟨rfl, by simp [Handed, ScanState.initial, scanStart]⟩
  within := by simp [ScanState.initial]

variable (cfg openBlob blobs) in
/-- How the scan stamps a row: it is the `r`-th row emitted from the `i`-th blob, and
`first` is the id under which the blob was opened. -/
structure Stamped (e : Emission String) (i : ℕ) (blob : ListedBlob) (first r p : ℕ) : Prop where
  blob_eq : blobs[i]? = some blob
  not_skipped : cfg.skips blob.1 = false
  opened : OpenedBefore cfg openBlob blobs (i + 1)
  handed : Handed first (scanStart cfg openBlob blobs i)
  rank_eq : (keptPositions openBlob blob.1)[r]? = some p
  source_eq : e.batch.source = blob.1
  position_eq : e.position = some p
  ctid_eq : e.ctid = (RowId.fromAbsolute (UInt32.ofNat first) r).toCtid

/-- The row at the head of what is left of the current batch. -/
theorem batchLeft_eq_cons {b : FileBatch String} (hbatch : s.curBatch = some b)
    (hrow : s.curRow < b.batch.numRows) : ∃ p, (b.rows[s.curRow]?).map Prod.snd = some p ∧
      s.batchLeft = p :: (b.rows.drop (s.curRow + 1)).map Prod.snd := by
  have hlt : s.curRow < b.rows.length := by
    simpa [FileBatch.batch, RecordBatch.ofRows] using hrow
  refine ⟨b.rows[s.curRow].2, by rw [List.getElem?_eq_getElem hlt, Option.map_some], ?_⟩
  rw [ScanState.batchLeft, hbatch]
  show (b.rows.drop s.curRow).map Prod.snd = _
  rw [List.drop_eq_getElem_cons hlt, List.map_cons]

/-- **Stamping a row keeps the invariant** and gives the row its place in the blob. -/
theorem ScanInv.stamp {t : ListScan String} (ht : ScanInv cfg openBlob blobs t)
    {batch : FileBatch String} (hbatch : t.curBatch = some batch)
    (hrow : t.curRow < batch.batch.numRows) {e : Emission String}
    (hstamp : stampRow cfg batch t.curRow { t with curRow := t.curRow + 1 } = .ok (e, s')) :
    ScanInv cfg openBlob blobs s' ∧
      ∃ i blob first r p, Stamped cfg openBlob blobs e i blob first r p := by
  obtain ⟨table, slot, hregister, -, rfl, rfl⟩ := stampRow_eq_ok hstamp
  obtain ⟨p, hposition, hleft⟩ := batchLeft_eq_cons hbatch hrow
  -- A state with a current batch is inside a blob.
  obtain ⟨items, hitems⟩ : ∃ items, t.curStream = some items := by
    cases hstream : t.curStream with
    | none =>
      rw [(ht.between hstream).1] at hbatch
      cases hbatch
    | some items => exact ⟨items, rfl⟩
  obtain ⟨i, blob, first, hin⟩ := ht.within items hitems
  obtain ⟨emitted, hlen, hkept⟩ := hin.rows_left
  rw [hleft, List.cons_append] at hkept
  refine ⟨⟨ht.blobs_eq, ht.opened, ?_, ?_, ?_⟩, i, blob, first, t.curRowInBlob, p, ?_⟩
  · intro hnone
    rw [show t.curBatch = none from hnone] at hbatch
    cases hbatch
  · intro hnone
    rw [show t.curStream = none from hnone] at hitems
    cases hitems
  · intro items' hitems'
    obtain rfl : items = items' := Option.some.inj (hitems.symm.trans hitems')
    refine ⟨i, blob, first, ?_⟩
    exact {
      cursor_eq := hin.cursor_eq
      blob_eq := hin.blob_eq
      not_skipped := hin.not_skipped
      base_eq := hin.base_eq
      handed := hin.handed
      table_le := registered_le hregister hin.table_le
      table_eq := by
        intro hlt
        have hbase : t.curBlobBaseId.toNat = first := by
          rw [hin.base_eq, UInt32.toNat_ofNat']
          exact Nat.mod_eq_of_lt hlt
        have htable := hin.table_eq hlt
        rw [← hbase] at htable ⊢
        exact registered_eq hregister htable
      rows_left := by
        refine ⟨emitted ++ [p], by simp [hlen], ?_⟩
        rw [hkept, ScanState.batchLeft]
        simp [hbatch]
      source_batch := hin.source_batch
      source_items := hin.source_items }
  · exact {
      blob_eq := hin.blob_eq
      not_skipped := hin.not_skipped
      opened := hin.cursor_eq ▸ ht.opened
      handed := hin.handed
      rank_eq := by rw [hkept, ← hlen]; simp
      source_eq := hin.source_batch batch hbatch
      position_eq := hposition
      ctid_eq := by rw [← hin.base_eq] }

/-- A call of `iterate_foreign_scan` keeps the invariant and stamps its row. -/
theorem ScanInv.iterate (hsource : ∀ name items b, openBlob name = .ok items → .ok b ∈ items →
      b.source = name)
    (h : ScanInv cfg openBlob blobs s) {e : Emission String}
    (hcall : iterateForeignScan cfg openBlob s = .ok (some e, s')) :
    ScanInv cfg openBlob blobs s' ∧
      ∃ i blob first r p, Stamped cfg openBlob blobs e i blob first r p := by
  obtain ⟨batch, row, t', hnext, hstamp⟩ := iterateForeignScan_eq_some hcall
  obtain ⟨t, ht, hbatch, rfl, hrow, rfl⟩ :=
    nextRow_row cfg openBlob (fun _ _ hs hit => hs.again hsource hit) hnext h
  exact ht.stamp hbatch hrow hstamp

end Ids

/-! ### What a stamped row resolves to -/

section Resolve

variable (parquet : BatchCut) (cfg : ScanConfig) (fetch : String → FdwResult ParquetFile)
  (blobs : List ListedBlob)

/-- `blob_row_count`. -/
def blobRowCount (blob : String) : FdwResult ℕ := ParquetFile.numRows <$> fetch blob

/-- Opening a blob of the store. -/
def openBlobOf (blob : String) : Outcome (List (Outcome (FileBatch String))) := do
  let file ← (fetch blob).lift
  openStream parquet blob cfg.projection cfg.qualFilter file

/-- How many ids `build_plan` gives a blob. -/
def plannedIds (blob : ListedBlob) : ℕ :=
  match fetch blob.1 with
  | .ok file => planChunks file.numRows
  | .error _ => 0

/-- The number of ids that `build_plan` gives the first `i` blobs. -/
def plannedStart (i : ℕ) : ℕ := Segments.start (blobs.map fun b => (b, plannedIds fetch b)) i

/-- The runs of the scan of a list of blobs, by the rows they emit. -/
abbrev ScanRun (natts : ℕ) (es : List (Emission String)) (s : ListScan String) : Prop :=
  Run (fun s e s' => iterateForeignScan cfg (openBlobOf parquet cfg fetch) s = .ok (some e, s'))
    (ScanState.initial blobs natts) es s

variable {parquet cfg fetch blobs}

theorem source_of_openBlobOf (name : String) (items : List (Outcome (FileBatch String)))
    (b : FileBatch String) (h : openBlobOf parquet cfg fetch name = .ok items)
    (hb : .ok b ∈ items) : b.source = name := by
  obtain ⟨file, -, h⟩ := except_bind_eq_ok.mp h
  exact source_of_mem_openStream h hb

/-- The rows emitted from a blob are rows of it, in order. -/
theorem keptPositions_sublist {name : String} {file : ParquetFile} (h : fetch name = .ok file) :
    (keptPositions (openBlobOf parquet cfg fetch) name).Sublist (List.range file.numRows) := by
  unfold keptPositions
  cases hopen : openBlobOf parquet cfg fetch name with
  | error f => exact List.nil_sublist _
  | ok items =>
    obtain ⟨file', hfile, hopen⟩ := except_bind_eq_ok.mp hopen
    obtain rfl : file = file' := Except.ok.inj (h.symm.trans (FdwResult.lift_eq_ok.mp hfile))
    exact streamPositions_sublist hopen

/-- **Every row of a run was stamped** by the rank it was emitted with. -/
theorem ScanRun.stamped {natts : ℕ} {es : List (Emission String)} {s : ListScan String}
    (run : ScanRun parquet cfg fetch blobs natts es s) : ∀ e ∈ es, ∃ i blob first r p,
      Stamped cfg (openBlobOf parquet cfg fetch) blobs e i blob first r p :=
  Run.forall_mem run (ScanInv.initial natts) fun _ _ _ hs hcall =>
    hs.iterate source_of_openBlobOf hcall

/-- The run of the first call. -/
theorem ScanRun.single {natts : ℕ} {batch : FileBatch String} {row : ℕ} {t s : ListScan String}
    {e : Emission String}
    (hnext : nextRow cfg (openBlobOf parquet cfg fetch) (ScanState.initial blobs natts) =
      .ok (some (batch, row), t))
    (hstamp : stampRow cfg batch row t = .ok (e, s)) :
    ScanRun parquet cfg fetch blobs natts [e] s :=
  Run.nil.snoc (iterateForeignScan_of_row hnext hstamp)

theorem blobRowCount_eq_ok {blob : String} {n : ℕ} (h : blobRowCount fetch blob = .ok n) :
    ∃ file, fetch blob = .ok file ∧ file.numRows = n := by
  unfold blobRowCount at h
  cases hfetch : fetch blob with
  | error f => simp [hfetch, Functor.map, Except.map] at h
  | ok file => exact ⟨file, rfl, by simpa [hfetch, Functor.map, Except.map] using h⟩

/-- The ids the plan gives are those of its table. -/
theorem planStart_eq_plannedStart {counted : List (ListedBlob × ℕ)}
    (hcounted : counted.map Prod.fst = blobs)
    (hrows : ∀ c ∈ counted, blobRowCount fetch c.1.1 = .ok c.2 ∧ c.2 < 2 ^ 32) (i : ℕ) :
    planStart counted i = plannedStart fetch blobs i := by
  have hsegs : planSegments counted = blobs.map fun b => (b, plannedIds fetch b) := by
    rw [← hcounted, planSegments, List.map_map]
    refine List.map_congr_left fun c hc => ?_
    obtain ⟨file, hfetch, hnum⟩ := blobRowCount_eq_ok (hrows c hc).1
    simp [plannedIds, hfetch, hnum]
  rw [planStart, plannedStart, hsegs]

/-- **Where the two tables agree.**  A stamped row resolves to itself exactly when the
scan gave the blobs before its own as many ids as the plan did, its rank is its
position, and its id fits in 32 bits. -/
theorem Stamped.resolvesTo_iff {e : Emission String} {i : ℕ} {blob : ListedBlob} {first r p n : ℕ}
    (h : Stamped cfg (openBlobOf parquet cfg fetch) blobs e i blob first r p)
    {counted : List (ListedBlob × ℕ)} (hnodup : (counted.map (·.1.1)).Nodup)
    (hi : counted[i]? = some (blob, n)) (hp : p < n) (hn : n < 2 ^ 32) (hr : r ≤ p)
    (hstart : scanStart cfg (openBlobOf parquet cfg fetch) blobs i ≤ planStart counted i) :
    ResolvesTo (planTable counted) e.ctid blob p ↔
      scanStart cfg (openBlobOf parquet cfg fetch) blobs i = planStart counted i ∧ r = p ∧
        planStart counted i + p / chunkRows < 2 ^ 32 := by
  obtain ⟨hfirst, hexact⟩ := h.handed
  have hid := RowId.blobId_fromAbsolute (UInt32.ofNat first) (show r < 2 ^ 48 by omega)
  have hoffset := RowId.offset_fromAbsolute (UInt32.ofNat first) r
  rw [UInt32.toNat_ofNat'] at hid
  rw [resolvesTo_planTable hnodup hi, h.ctid_eq, RowId.fromCtid_toCtid, hid, hoffset]
  have hmod := Nat.mod_le first (2 ^ 32)
  constructor
  · -- The id found is at least the plan's, the id stamped at most: both bounds are met.
    rintro ⟨k, -, hk, hrow⟩
    simp only [chunkRows] at hk hrow ⊢
    omega
  · rintro ⟨hsame, rfl, hfits⟩
    have hlt : planStart counted i < 2 ^ 32 := lt_of_le_of_lt (Nat.le_add_right _ _) hfits
    rw [hexact (hsame ▸ hlt), hsame, Nat.mod_eq_of_lt hlt, min_eq_left (by omega)]
    refine ⟨r / chunkRows, lt_planChunks hp, rfl, ?_⟩
    rw [Nat.mul_comm]
    exact (Nat.div_add_mod r chunkRows).symm

/-- The scan gives a blob no more ids than the plan does. -/
theorem scannedIds_le_plannedIds {b : ListedBlob} {file : ParquetFile}
    (hfetch : fetch b.1 = .ok file) :
    scannedIds cfg (openBlobOf parquet cfg fetch) b ≤ plannedIds fetch b := by
  have hkept : (keptPositions (openBlobOf parquet cfg fetch) b.1).length ≤ file.numRows := by
    simpa using (keptPositions_sublist hfetch).length_le
  rw [scannedIds, plannedIds, hfetch]
  split_ifs
  · exact Nat.zero_le _
  · exact planChunks_mono hkept

theorem plannedStart_succ {i : ℕ} {blob : ListedBlob} {file : ParquetFile}
    (h : blobs[i]? = some blob) (hfetch : fetch blob.1 = .ok file) :
    plannedStart fetch blobs (i + 1) = plannedStart fetch blobs i + planChunks file.numRows := by
  have hids : plannedIds fetch blob = planChunks file.numRows := by rw [plannedIds, hfetch]
  exact Segments.start_succ (a := blob) (by simp [h, hids])

/-- The blobs of a plan have a content each, with the counted number of rows. -/
theorem fetch_of_plan {table : List BlobIdEntry}
    (hplan : buildBlobTable (blobRowCount fetch) blobs = .ok table) :
    ∃ counted, counted.map Prod.fst = blobs ∧ table = planTable counted ∧
      (∀ i, planStart counted i = plannedStart fetch blobs i) ∧
      ∀ (i : ℕ) (blob : ListedBlob), blobs[i]? = some blob → ∃ file, fetch blob.1 = .ok file ∧
        counted[i]? = some (blob, file.numRows) ∧ file.numRows < 2 ^ 32 := by
  obtain ⟨counted, hcounted, htable, hrows⟩ := buildBlobTable_eq_ok hplan
  refine ⟨counted, hcounted, htable, planStart_eq_plannedStart hcounted hrows, ?_⟩
  intro i blob hblob
  obtain ⟨c, hc, rfl⟩ : ∃ c, counted[i]? = some c ∧ c.1 = blob := by
    simpa [← hcounted] using hblob
  obtain ⟨hcount, hlt⟩ := hrows c (List.mem_of_getElem? hc)
  obtain ⟨file, hfetch, hnum⟩ := blobRowCount_eq_ok hcount
  exact ⟨file, hfetch, by rw [hc, hnum], hnum ▸ hlt⟩

/-- A stamped row of a blob of the plan is one of its file, which has fewer than `2^32` rows. -/
theorem Stamped.exists_file {e : Emission String} {i : ℕ} {blob : ListedBlob} {first r p : ℕ}
    (h : Stamped cfg (openBlobOf parquet cfg fetch) blobs e i blob first r p)
    {table : List BlobIdEntry} (hplan : buildBlobTable (blobRowCount fetch) blobs = .ok table) :
    ∃ file, fetch blob.1 = .ok file ∧ p < file.numRows ∧ file.numRows < 2 ^ 32 := by
  obtain ⟨counted, -, -, -, hfetched⟩ := fetch_of_plan hplan
  obtain ⟨file, hfetch, -, hlt⟩ := hfetched i blob h.blob_eq
  have hsub : (keptPositions (openBlobOf parquet cfg fetch) blob.1).Sublist
      (List.range file.numRows) := keptPositions_sublist hfetch
  exact ⟨file, hfetch, List.mem_range.mp (hsub.subset (List.mem_of_getElem? h.rank_eq)), hlt⟩

/-- What decides whether the row at position `p` of the `i`-th blob resolves to itself. -/
theorem Stamped.resolves_iff {e : Emission String} {i : ℕ} {blob : ListedBlob} {first r p : ℕ}
    (h : Stamped cfg (openBlobOf parquet cfg fetch) blobs e i blob first r p)
    (hnodup : (blobs.map Prod.fst).Nodup) {table : List BlobIdEntry}
    (hplan : buildBlobTable (blobRowCount fetch) blobs = .ok table) :
    ResolvesTo table e.ctid blob p ↔
      (∀ j < i, ∀ b, blobs[j]? = some b →
        scannedIds cfg (openBlobOf parquet cfg fetch) b = plannedIds fetch b) ∧
      (∀ q < p, q ∈ keptPositions (openBlobOf parquet cfg fetch) blob.1) ∧
      plannedStart fetch blobs i + p / chunkRows < 2 ^ 32 := by
  obtain ⟨counted, hcounted, rfl, hplanned, hfetched⟩ := fetch_of_plan hplan
  obtain ⟨file, hfetch, hi, hlt⟩ := hfetched i blob h.blob_eq
  have hsub : (keptPositions (openBlobOf parquet cfg fetch) blob.1).Sublist
      (List.range file.numRows) := keptPositions_sublist hfetch
  have hp : p < file.numRows := List.mem_range.mp (hsub.subset (List.mem_of_getElem? h.rank_eq))
  obtain ⟨hrank, hrank_eq⟩ :=
    Ascending.rank_le_and_eq_iff (List.pairwise_lt_range.sublist hsub) h.rank_eq
  have hnames : (counted.map (·.1.1)).Nodup := by
    rw [← hcounted, List.map_map] at hnodup
    exact hnodup
  have hle : ∀ b ∈ blobs, scannedIds cfg (openBlobOf parquet cfg fetch) b ≤ plannedIds fetch b := by
    intro b hb
    obtain ⟨j, hj⟩ := List.mem_iff_getElem?.mp hb
    obtain ⟨file', hfile', -, -⟩ := hfetched j b hj
    exact scannedIds_le_plannedIds hfile'
  obtain ⟨hstart, hstart_eq⟩ := Segments.start_eq_start_iff blobs id hle i
  have hscan : scanStart cfg (openBlobOf parquet cfg fetch) blobs i ≤ planStart counted i :=
    hplanned i ▸ hstart
  rw [h.resolvesTo_iff hnames hi hp hlt hrank hscan, hplanned i, hrank_eq]
  exact and_congr_left' hstart_eq

/-- With no pushed expression, a blob that is opened is emitted whole. -/
theorem keptPositions_of_no_filter (hfilter : cfg.qualFilter = none) {name : String}
    {file : ParquetFile} (hfetch : fetch name = .ok file)
    (hopen : ∃ items, openBlobOf parquet cfg fetch name = .ok items) :
    keptPositions (openBlobOf parquet cfg fetch) name = List.range file.numRows := by
  obtain ⟨items, hitems⟩ := hopen
  rw [keptPositions, hitems]
  obtain ⟨file', hfile, hitems⟩ := except_bind_eq_ok.mp hitems
  obtain rfl : file = file' := Except.ok.inj (hfetch.symm.trans (FdwResult.lift_eq_ok.mp hfile))
  rw [hfilter] at hitems
  exact streamPositions_of_no_filter hitems

/-- A blob gets the same number of ids from scan and plan exactly when it is not
skipped and its emitted rows fill as many chunks as all its rows. -/
theorem scannedIds_eq_plannedIds_iff {b : ListedBlob} {file : ParquetFile}
    (hfetch : fetch b.1 = .ok file) :
    scannedIds cfg (openBlobOf parquet cfg fetch) b = plannedIds fetch b ↔
      cfg.skips b.1 = false ∧
        planChunks (keptPositions (openBlobOf parquet cfg fetch) b.1).length =
          planChunks file.numRows := by
  have hpos := planChunks_pos file.numRows
  rw [scannedIds, plannedIds, hfetch]
  cases hskip : cfg.skips b.1 with
  | true =>
    simp only [if_true, Bool.true_eq_false, false_and, iff_false]
    omega
  | false => simp

/-! ### A table of two integer columns -/

/-- A row of two integers. -/
def pairRow (v : Int32 × Int32) : TypedRow [.int32, .int32] :=
  ⟨[some (.int32 v.1), some (.int32 v.2)], rfl⟩

/-- A file of one row group, with no statistics. -/
def pairFile (vs : List (Int32 × Int32)) : ParquetFile where
  types := [.int32, .int32]
  rowGroups := [⟨vs.map pairRow, [⟨vs.length, none⟩, ⟨vs.length, none⟩]⟩]

/-- The scan of an UPDATE or DELETE on the table, with the given quals and, if any, the
second column as partition column. -/
def pairScan (quals : Option (List PushedExpr)) (keys : List (String × PgPartitionType)) :
    ScanConfig where
  ext := .permissive
  pgOids := [int4Oid, int4Oid]
  projection := some [0, 1]
  attnoMap := [0, 1]
  qualFilter := quals
  partitionAttnums := keys.map fun _ => 1
  partitionKeysDecl := keys

/-- The first column compared with a number. -/
def firstIs (v : Int32) : Option (List PushedExpr) := some [.leaf ⟨0, .eq, .i32 v⟩]

/-! ### Pushed expressions -/

/-- **Which ctids name the row they are stamped on.**  A row that the scan emits, at
position `p` of the `i`-th blob, is found again by an UPDATE or DELETE exactly when
every blob before was given as many ids by the scan as by the plan, no row before it
in its blob was pruned or filtered out, and its id fits in 32 bits. -/
theorem ctid_resolves_iff (hnodup : (blobs.map Prod.fst).Nodup) {table : List BlobIdEntry}
    (hplan : buildBlobTable (blobRowCount fetch) blobs = .ok table) {natts : ℕ}
    {es : List (Emission String)} {s : ListScan String}
    (run : ScanRun parquet cfg fetch blobs natts es s) {e : Emission String} (he : e ∈ es) :
    ∃ i blob p, blobs[i]? = some blob ∧ e.batch.source = blob.1 ∧ e.position = some p ∧
      (ResolvesTo table e.ctid blob p ↔
        (∀ j < i, ∀ b, blobs[j]? = some b →
          scannedIds cfg (openBlobOf parquet cfg fetch) b = plannedIds fetch b) ∧
        (∀ q < p, q ∈ keptPositions (openBlobOf parquet cfg fetch) blob.1) ∧
        plannedStart fetch blobs i + p / chunkRows < 2 ^ 32) := by
  obtain ⟨i, blob, first, r, p, hst⟩ := run.stamped e he
  exact ⟨i, blob, p, hst.blob_eq, hst.source_eq, hst.position_eq, hst.resolves_iff hnodup hplan⟩

/-- With `id = 1` the first row is emitted, and no other: its ctid resolves to it. -/
theorem first_row_resolves_to_itself : ∃ es s e,
    ScanRun oneBatch (pairScan (firstIs 1) []) (fun _ => .ok (pairFile [(1, 0), (2, 0)]))
      [("a", "e1")] 2 es s ∧
    e ∈ es ∧ ResolvesTo [⟨"a", 0, "e1"⟩] e.ctid ("a", "e1") 0 := by
  have hnext : nextRow (pairScan (firstIs 1) []) (openBlobOf oneBatch (pairScan (firstIs 1) [])
      fun _ => .ok (pairFile [(1, 0), (2, 0)])) (ScanState.initial [("a", "e1")] 2) = _ :=
    (nextRow_of_again rfl).trans ((nextRow_of_again rfl).trans (nextRow_of_row rfl))
  have run := ScanRun.single hnext rfl
  refine ⟨_, _, _, run, List.mem_singleton.mpr rfl, ?_⟩
  obtain ⟨i, blob, p, hi, -, hp, hiff⟩ :=
    ctid_resolves_iff (by simp) rfl run (List.mem_singleton.mpr rfl)
  obtain rfl : 0 = p := Option.some.inj hp
  obtain ⟨rfl, rfl⟩ : i = 0 ∧ blob = ("a", "e1") := by
    cases i with
    | zero => exact ⟨rfl, (Option.some.inj hi).symm⟩
    | succ i => cases hi
  refine hiff.mpr ⟨by simp, by simp, ?_⟩
  simp [plannedStart]

/-- **An edit goes to another row.**  In a blob with rows `1, 2`, the scan for `id = 2`
emits the second row, and its ctid resolves to the first. -/
theorem filtered_row_resolves_to_first : ∃ es s e,
    ScanRun oneBatch (pairScan (firstIs 2) []) (fun _ => .ok (pairFile [(1, 0), (2, 0)]))
      [("a", "e1")] 2 es s ∧
    e ∈ es ∧ e.position = some 1 ∧
    buildBlobTable (blobRowCount fun _ => .ok (pairFile [(1, 0), (2, 0)])) [("a", "e1")] =
      .ok [⟨"a", 0, "e1"⟩] ∧
    resolveToSource [⟨"a", 0, "e1"⟩] (RowId.fromCtid e.ctid) = .ok (0, 0) := by
  have hnext : nextRow (pairScan (firstIs 2) []) (openBlobOf oneBatch (pairScan (firstIs 2) [])
      fun _ => .ok (pairFile [(1, 0), (2, 0)])) (ScanState.initial [("a", "e1")] 2) = _ :=
    (nextRow_of_again rfl).trans ((nextRow_of_again rfl).trans (nextRow_of_row rfl))
  exact ⟨_, _, _, .single hnext rfl, List.mem_singleton.mpr rfl, rfl,
    rfl, by decide⟩

/-! ### Skipped blobs -/

/-- **Which ctids survive skipped blobs.**  A row that the scan emits, at position `p` of
the `i`-th blob, resolves to itself exactly when no blob before it is skipped, the
emitted rows of each fill as many chunks as all its rows, no row before it in its blob
is filtered out, and its id fits in 32 bits; with no pushed expression, exactly when
no blob before it is skipped and its id fits. -/
theorem ctid_resolves_iff_none_skipped (hnodup : (blobs.map Prod.fst).Nodup)
    {table : List BlobIdEntry} (hplan : buildBlobTable (blobRowCount fetch) blobs = .ok table)
    {natts : ℕ} {es : List (Emission String)} {s : ListScan String}
    (run : ScanRun parquet cfg fetch blobs natts es s) {e : Emission String} (he : e ∈ es) :
    ∃ i blob p, blobs[i]? = some blob ∧ e.batch.source = blob.1 ∧ e.position = some p ∧
      (ResolvesTo table e.ctid blob p ↔
        (∀ j < i, ∀ b, blobs[j]? = some b → cfg.skips b.1 = false) ∧
        (∀ j < i, ∀ b, blobs[j]? = some b → ∀ file, fetch b.1 = .ok file →
          planChunks (keptPositions (openBlobOf parquet cfg fetch) b.1).length =
            planChunks file.numRows) ∧
        (∀ q < p, q ∈ keptPositions (openBlobOf parquet cfg fetch) blob.1) ∧
        plannedStart fetch blobs i + p / chunkRows < 2 ^ 32) ∧
      (cfg.qualFilter = none →
        (ResolvesTo table e.ctid blob p ↔
          (∀ j < i, ∀ b, blobs[j]? = some b → cfg.skips b.1 = false) ∧
          plannedStart fetch blobs i + p / chunkRows < 2 ^ 32)) := by
  obtain ⟨i, blob, first, r, p, hst⟩ := run.stamped e he
  obtain ⟨counted, -, -, -, hfetched⟩ := fetch_of_plan hplan
  have hids : (∀ j < i, ∀ b, blobs[j]? = some b →
        scannedIds cfg (openBlobOf parquet cfg fetch) b = plannedIds fetch b) ↔
      (∀ j < i, ∀ b, blobs[j]? = some b → cfg.skips b.1 = false) ∧
      (∀ j < i, ∀ b, blobs[j]? = some b → ∀ file, fetch b.1 = .ok file →
        planChunks (keptPositions (openBlobOf parquet cfg fetch) b.1).length =
          planChunks file.numRows) := by
    constructor
    · intro h
      refine ⟨fun j hj b hb => ?_, fun j hj b hb file hfile => ?_⟩
      · obtain ⟨file, hfile, -, -⟩ := hfetched j b hb
        exact ((scannedIds_eq_plannedIds_iff hfile).mp (h j hj b hb)).1
      · exact ((scannedIds_eq_plannedIds_iff hfile).mp (h j hj b hb)).2
    · rintro ⟨hskips, hchunks⟩ j hj b hb
      obtain ⟨file, hfile, -, -⟩ := hfetched j b hb
      exact (scannedIds_eq_plannedIds_iff hfile).mpr ⟨hskips j hj b hb, hchunks j hj b hb file hfile⟩
  have hiff := hst.resolves_iff hnodup hplan
  rw [hids, and_assoc] at hiff
  refine ⟨i, blob, p, hst.blob_eq, hst.source_eq, hst.position_eq, hiff, fun hfilter => ?_⟩
  rw [hiff]
  constructor
  · exact fun h => ⟨h.1, h.2.2.2⟩
  · -- With no filter the other two conditions hold of every blob that was opened.
    rintro ⟨hskips, hfits⟩
    refine ⟨hskips, fun j hj b hb file hfile => ?_, fun q hq => ?_, hfits⟩
    · have hopen := hst.opened j (by omega) b hb (hskips j hj b hb)
      rw [keptPositions_of_no_filter hfilter hfile hopen, List.length_range]
    · obtain ⟨file, hfile, -, -⟩ := hfetched i blob hst.blob_eq
      have hopen := hst.opened i (by omega) blob hst.blob_eq hst.not_skipped
      have hp := List.mem_of_getElem? hst.rank_eq
      rw [keptPositions_of_no_filter hfilter hfile hopen, List.mem_range] at hp ⊢
      omega

theorem year_of_path : partitionDatums .permissive [("year", .int4)] "year=2024/a" =
    .ok (.ok [.int4 2024]) := by decide

theorem datumsFor_year (old : List Datum) :
    (pairScan none [("year", .int4)]).DatumsFor "year=2024/a" old [.int4 2024] := year_of_path

theorem no_year_in_path : partitionDatums .permissive [("year", .int4)] "bad" =
    .ok (.error "skipping blob 'bad': schema mismatch: blob 'bad' missing partition key 'year'") := by
  decide

/-- A skipped blob after the row's own does no harm. -/
theorem row_before_skipped_resolves : ∃ es s e,
    ScanRun oneBatch (pairScan none [("year", .int4)]) (fun _ => .ok (pairFile [(1, 2024)]))
      [("year=2024/a", "e1"), ("bad", "e2")] 2 es s ∧
    e ∈ es ∧
    ResolvesTo [⟨"year=2024/a", 0, "e1"⟩, ⟨"bad", 0, "e2"⟩] e.ctid ("year=2024/a", "e1") 0 := by
  have hnext : nextRow (pairScan none [("year", .int4)])
      (openBlobOf oneBatch (pairScan none [("year", .int4)]) fun _ => .ok (pairFile [(1, 2024)]))
      (ScanState.initial [("year=2024/a", "e1"), ("bad", "e2")] 2) = _ :=
    (nextRow_of_again (nextRowStep_of_enter rfl rfl rfl (datumsFor_year _) rfl)).trans
      ((nextRow_of_again rfl).trans (nextRow_of_row rfl))
  have run := ScanRun.single hnext rfl
  refine ⟨_, _, _, run, List.mem_singleton.mpr rfl, ?_⟩
  obtain ⟨i, blob, p, hi, hsource, hp, -, hiff⟩ :=
    ctid_resolves_iff_none_skipped (by decide) rfl run (List.mem_singleton.mpr rfl)
  obtain rfl : 0 = p := Option.some.inj hp
  obtain ⟨rfl, rfl⟩ : i = 0 ∧ blob = ("year=2024/a", "e1") := by
    match i, hi with
    | 0, hi => exact ⟨rfl, (Option.some.inj hi).symm⟩
    | 1, hi =>
      obtain rfl := Option.some.inj hi
      exact absurd (show "year=2024/a" = "bad" from hsource) (by decide)
  refine (hiff rfl).mpr ⟨by simp, ?_⟩
  simp [plannedStart]

/-- **An edit goes to another blob.**  The first blob's path carries no `year`; the scan
skips it and stamps the row of the second with the first blob's id. -/
theorem row_after_skipped_resolves_to_skipped : ∃ es s e,
    ScanRun oneBatch (pairScan none [("year", .int4)]) (fun _ => .ok (pairFile [(1, 2024)]))
      [("bad", "e1"), ("year=2024/a", "e2")] 2 es s ∧
    e ∈ es ∧ e.batch.source = "year=2024/a" ∧ e.position = some 0 ∧
    buildBlobTable (blobRowCount fun _ => .ok (pairFile [(1, 2024)]))
      [("bad", "e1"), ("year=2024/a", "e2")] =
        .ok [⟨"bad", 0, "e1"⟩, ⟨"year=2024/a", 0, "e2"⟩] ∧
    resolveToSource [⟨"bad", 0, "e1"⟩, ⟨"year=2024/a", 0, "e2"⟩] (RowId.fromCtid e.ctid) =
      .ok (0, 0) := by
  have hnext : nextRow (pairScan none [("year", .int4)])
      (openBlobOf oneBatch (pairScan none [("year", .int4)]) fun _ => .ok (pairFile [(1, 2024)]))
      (ScanState.initial [("bad", "e1"), ("year=2024/a", "e2")] 2) = _ :=
    (nextRow_of_again (nextRowStep_of_skip rfl rfl rfl rfl no_year_in_path)).trans
      ((nextRow_of_again (nextRowStep_of_enter rfl rfl rfl (datumsFor_year _) rfl)).trans
        ((nextRow_of_again rfl).trans (nextRow_of_row rfl)))
  exact ⟨_, _, _, .single hnext rfl, List.mem_singleton.mpr rfl, rfl, rfl, rfl, by decide⟩

/-! ### The whole table -/

/-- **The row-identity round trip.**  When the scan emits every row of every blob, every
ctid resolves to the blob and the row it is stamped on, and distinct rows have distinct
ctids. -/
theorem ctid_round_trip (hnodup : (blobs.map Prod.fst).Nodup) {table : List BlobIdEntry}
    (hplan : buildBlobTable (blobRowCount fetch) blobs = .ok table)
    (htotal : plannedStart fetch blobs blobs.length ≤ 2 ^ 32)
    (hall : ∀ b ∈ blobs, cfg.skips b.1 = false ∧ ∀ file, fetch b.1 = .ok file →
      keptPositions (openBlobOf parquet cfg fetch) b.1 = List.range file.numRows)
    {natts : ℕ} {es : List (Emission String)} {s : ListScan String}
    (run : ScanRun parquet cfg fetch blobs natts es s) :
    (∀ e ∈ es, ∃ blob ∈ blobs, ∃ p, e.batch.source = blob.1 ∧ e.position = some p ∧
      ResolvesTo table e.ctid blob p) ∧
    ∀ e ∈ es, ∀ e' ∈ es, e.ctid = e'.ctid →
      e.batch.source = e'.batch.source ∧ e.position = e'.position := by
  have hresolves : ∀ e ∈ es, ∃ blob ∈ blobs, ∃ p, e.batch.source = blob.1 ∧ e.position = some p ∧
      ResolvesTo table e.ctid blob p := by
    intro e he
    obtain ⟨i, blob, first, r, p, hst⟩ := run.stamped e he
    refine ⟨blob, List.mem_of_getElem? hst.blob_eq, p, hst.source_eq, hst.position_eq, ?_⟩
    obtain ⟨counted, -, -, -, hfetched⟩ := fetch_of_plan hplan
    obtain ⟨file, hfile, -, -⟩ := hfetched i blob hst.blob_eq
    have hkept := (hall blob (List.mem_of_getElem? hst.blob_eq)).2 file hfile
    have hp := List.mem_of_getElem? hst.rank_eq
    rw [hkept, List.mem_range] at hp
    refine (hst.resolves_iff hnodup hplan).mpr ⟨?_, ?_, ?_⟩
    · intro j _ b hb
      obtain ⟨file', hfile', -, -⟩ := hfetched j b hb
      obtain ⟨hskip, hkept'⟩ := hall b (List.mem_of_getElem? hb)
      rw [scannedIds_eq_plannedIds_iff hfile', hkept' file' hfile', List.length_range]
      exact ⟨hskip, rfl⟩
    · intro q hq
      rw [hkept, List.mem_range]
      omega
    · have hstep := plannedStart_succ hst.blob_eq hfile
      have hlast : plannedStart fetch blobs (i + 1) ≤ plannedStart fetch blobs blobs.length :=
        Segments.start_mono _ (List.getElem?_eq_some_iff.mp hst.blob_eq).1
      have hchunk := lt_planChunks hp
      omega
  refine ⟨hresolves, ?_⟩
  intro e he e' he' heq
  obtain ⟨blob, hblob, p, hsource, hposition, base, hres, hentry⟩ := hresolves e he
  obtain ⟨blob', hblob', p', hsource', hposition', base', hres', hentry'⟩ := hresolves e' he'
  rw [heq, hres'] at hres
  obtain ⟨rfl, rfl⟩ : base' = base ∧ p' = p := by simpa using hres
  rw [hentry'] at hentry
  obtain ⟨hname, -⟩ : blob'.1 = blob.1 ∧ blob'.2 = blob.2 := by simpa using hentry
  exact ⟨by rw [hsource, hsource', hname], by rw [hposition, hposition']⟩

/-- Blob `a` has no row, and blob `b` two. -/
def twoInB (name : String) : FdwResult ParquetFile :=
  .ok (pairFile (if name = "b" then [(1, 0), (2, 0)] else []))

/-- Blob `a` has no row but takes an id; the two rows of `b` resolve behind it. -/
theorem two_rows_round_trip : ∃ e₁ e₂ s,
    ScanRun oneBatch (pairScan none []) twoInB [("a", "e1"), ("b", "e2")] 2 [e₁, e₂] s ∧
    ResolvesTo [⟨"a", 0, "e1"⟩, ⟨"b", 0, "e2"⟩] e₁.ctid ("b", "e2") 0 ∧
    ResolvesTo [⟨"a", 0, "e1"⟩, ⟨"b", 0, "e2"⟩] e₂.ctid ("b", "e2") 1 ∧ e₁.ctid ≠ e₂.ctid := by
  obtain ⟨e₁, e₂, s, run, hrow₁, hrow₂⟩ : ∃ e₁ e₂ s,
      ScanRun oneBatch (pairScan none []) twoInB [("a", "e1"), ("b", "e2")] 2 [e₁, e₂] s ∧
      (e₁.batch.source, e₁.position) = ("b", some 0) ∧
      (e₂.batch.source, e₂.position) = ("b", some 1) := by
    have hfirst : nextRow (pairScan none []) (openBlobOf oneBatch (pairScan none []) twoInB)
        (ScanState.initial [("a", "e1"), ("b", "e2")] 2) = _ :=
      (nextRow_of_again rfl).trans ((nextRow_of_again rfl).trans ((nextRow_of_again rfl).trans
        ((nextRow_of_again rfl).trans ((nextRow_of_again rfl).trans (nextRow_of_row rfl)))))
    exact ⟨_, _, _, (ScanRun.single hfirst rfl).snoc
      (iterateForeignScan_of_row (nextRow_of_row rfl) rfl), rfl, rfl⟩
  have hall : ∀ b ∈ [("a", "e1"), ("b", "e2")], (pairScan none []).skips b.1 = false ∧
      ∀ file, twoInB b.1 = .ok file →
        keptPositions (openBlobOf oneBatch (pairScan none []) twoInB) b.1 =
          List.range file.numRows := by
    intro b hb
    refine ⟨rfl, fun file hfile => ?_⟩
    obtain rfl := Except.ok.inj hfile
    rcases List.mem_pair.mp hb with rfl | rfl <;> rfl
  obtain ⟨hresolves, hdistinct⟩ := ctid_round_trip (by decide) rfl (by decide) hall run
  have hb : ∀ e ∈ [e₁, e₂], ∀ p, (e.batch.source, e.position) = ("b", some p) →
      ResolvesTo [⟨"a", 0, "e1"⟩, ⟨"b", 0, "e2"⟩] e.ctid ("b", "e2") p := by
    intro e he p hrow
    obtain ⟨hsource, hp⟩ := Prod.mk.inj hrow
    obtain ⟨blob, hblob, q, hblobSource, hq, hres⟩ := hresolves e he
    obtain rfl : q = p := Option.some.inj (hq.symm.trans hp)
    rcases List.mem_pair.mp hblob with rfl | rfl
    · exact absurd (hblobSource.symm.trans hsource) (by decide)
    · exact hres
  refine ⟨e₁, e₂, s, run, hb e₁ (by simp) 0 hrow₁, hb e₂ (by simp) 1 hrow₂, fun heq => ?_⟩
  have hposition := (hdistinct e₁ (by simp) e₂ (by simp) heq).2
  rw [(Prod.mk.inj hrow₁).2, (Prod.mk.inj hrow₂).2] at hposition
  exact absurd hposition (by decide)

end Resolve

end ParquetAzureFdw
