/-
# The rewrite of a blob

What `commit_plan` of `src/fdw/modify/update.rs` makes of a blob with edits, between its download and
its upload: the new content is what the file held, with the overrides put in and the deleted rows
taken out (`rewriteBlob_applies`), or none when no row is left.  A delete past the end of the file
changes nothing, and is not refused.
-/

import ParquetAzureFdw.Azure.Store
import ParquetAzureFdw.Modify.ApplyEdits
import ParquetAzureFdw.Modify.Commit
import ParquetAzureFdw.Scan.State

namespace ParquetAzureFdw

/-- The rows that are not deleted. -/
def BlobEdits.remaining (edits : BlobEdits) (rows : List ArrowRow) : List ArrowRow :=
  filterIdx (fun row => !edits.isDeleted row) rows

section Rows

variable {codec : ParquetCodec} {plan : ModifyPlan} {edits : BlobEdits} {name : String}

/-- Without overrides, only rows are left out. -/
theorem BlobEdits.applyRows_of_no_updates (hupdates : edits.updates = []) (rows : List ArrowRow) :
    edits.applyRows 0 rows = edits.remaining rows := by
  have hoverride : ∀ abs row, edits.overrideRow abs row = row := by
    intro abs row
    have hnone : ∀ col old, edits.newCell abs col old = old := fun col old => by
      simp [BlobEdits.newCell, BlobEdits.overrideAt, hupdates]
    refine List.ext_getElem (by simp [BlobEdits.overrideRow]) fun i _ _ => ?_
    simp [BlobEdits.overrideRow, hnone]
  simp [BlobEdits.applyRows, BlobEdits.remaining, filterIdx, hoverride]

variable (plan) in
/-- Between two states of the loop these rows were written, in batches of the schema's types. -/
def WroteRows (rows : List ArrowRow) (st st' : RewriteState codec) : Prop :=
  ∃ outs : List RecordBatch,
    (∀ out ∈ outs, out.columns.map Column.dataType = plan.schema.map Field.dataType) ∧
    outs.foldlM codec.write st.writer = .ok st'.writer ∧
    outs.flatMap RecordBatch.rows = rows ∧ st'.totalRows = st.totalRows + rows.length

theorem WroteRows.trans {rows rows' : List ArrowRow} {st mid st' : RewriteState codec}
    (h : WroteRows plan rows st mid) (h' : WroteRows plan rows' mid st') :
    WroteRows plan (rows ++ rows') st st' := by
  obtain ⟨outs, htypes, hwritten, hrows, htotal⟩ := h
  obtain ⟨outs', htypes', hwritten', hrows', htotal'⟩ := h'
  refine ⟨outs ++ outs', fun out hout => ?_, ?_, by rw [List.flatMap_append, hrows, hrows'], ?_⟩
  · exact (List.mem_append.mp hout).elim (htypes out) (htypes' out)
  · rw [List.foldlM_append, hwritten]
    exact hwritten'
  · rw [htotal', htotal, List.length_append, Nat.add_assoc]

/-- One batch of the loop.  A batch without rows is not written. -/
theorem rewriteBatch_wroteRows (hdistinct : (edits.updates.map Prod.fst).Nodup) {batch : RecordBatch}
    {size : ℕ} {st st' : RewriteState codec}
    (h : rewriteBatch codec plan name edits st (.ok (batch, size)) = .ok st') :
    WroteRows plan (edits.masked.applyRows st.offset batch.rows) st st' ∧
      st'.offset = st.offset + batch.numRows := by
  obtain ⟨item, hitem, h⟩ := except_bind_eq_ok.mp h
  obtain rfl : (batch, size) = item := Except.ok.inj (FdwResult.lift_eq_ok.mp hitem)
  dsimp only at h
  split_ifs at h with hlimit
  obtain ⟨out, hout, h⟩ := except_bind_eq_ok.mp h
  obtain ⟨writer, hwriter, h⟩ := except_bind_eq_ok.mp h
  obtain rfl := Except.ok.inj h
  obtain ⟨htypes, houtRows⟩ := applyEditsBatch_rows hdistinct hout
  have hrows : out.rows = edits.masked.applyRows st.offset batch.rows :=
    houtRows.trans (edits.masked.applyRows_rows st.offset batch).symm
  rw [← hrows]
  refine ⟨?_, rfl⟩
  unfold writeRows at hwriter
  split_ifs at hwriter with hempty
  · obtain rfl := Except.ok.inj hwriter
    have hnil : out.rows = [] := by
      rw [← List.length_eq_zero_iff, RecordBatch.length_rows, hempty]
    exact ⟨[], nofun, rfl, hnil.symm, by rw [hnil, hempty]; rfl⟩
  · refine ⟨[out], ?_, ?_, List.flatMap_singleton .., by rw [RecordBatch.length_rows]⟩
    · rintro b (_ | ⟨_, hb⟩)
      · exact htypes
      · cases hb
    · rw [List.foldlM_cons, FdwResult.lift_eq_ok.mp hwriter]
      rfl

/-- The loop over the batches, if it ends: all of them were read, and the rows that the edits leave
were written. -/
theorem foldlM_rewriteBatch (hdistinct : (edits.updates.map Prod.fst).Nodup)
    {items : List (FdwResult (RecordBatch × ℕ))} {st st' : RewriteState codec}
    (h : items.foldlM (rewriteBatch codec plan name edits) st = .ok st') :
    ∃ batches : List (RecordBatch × ℕ), items = batches.map .ok ∧
      st'.offset = st.offset + (batches.flatMap (·.1.rows)).length ∧
      WroteRows plan (edits.masked.applyRows st.offset (batches.flatMap (·.1.rows))) st st' := by
  induction items generalizing st with
  | nil =>
    obtain rfl := Except.ok.inj h
    exact ⟨[], rfl, rfl, [], nofun, rfl, rfl, rfl⟩
  | cons item items ih =>
    rw [List.foldlM_cons, except_bind_eq_ok] at h
    obtain ⟨mid, hmid, h⟩ := h
    cases item with
    | error e => cases hmid
    | ok item =>
      obtain ⟨hfirst, hoffset⟩ := rewriteBatch_wroteRows hdistinct hmid
      obtain ⟨batches, rfl, hend, hrest⟩ := ih h
      refine ⟨item :: batches, rfl, ?_, ?_⟩
      · rw [hend, hoffset, List.flatMap_cons, List.length_append, RecordBatch.length_rows,
          Nat.add_assoc]
      · rw [List.flatMap_cons, BlobEdits.applyRows_append, RecordBatch.length_rows, ← hoffset]
        exact hfirst.trans hrest

/-- The content for the rows: a file that holds them, or none when there is no row. -/
def ParquetCodec.Stores (codec : ParquetCodec) (new : Option Bytes) (rows : List ArrowRow) : Prop :=
  (rows = [] ∧ new = none) ∨ (rows ≠ [] ∧ ∃ bytes, new = some bytes ∧ codec.Holds bytes rows)

theorem checkUpdates_eq_ok {rows : ℕ} (h : checkUpdates name edits rows = .ok ()) :
    ∀ u ∈ edits.updates, u.1 < rows := by
  unfold checkUpdates at h
  split at h
  · cases h
  · rename_i hnone
    intro u hu
    simpa using List.find?_eq_none.mp hnone u hu

/-- **The new content of a file:** what it held, with the overrides of its rows put in and the
deleted rows taken out.  Every override is of one of its rows. -/
theorem rewriteBlob_applies (hcodec : codec.Faithful) (hdistinct : (edits.updates.map Prod.fst).Nodup)
    {body : Bytes} {new : Option Bytes} (h : rewriteBlob codec plan name edits body = .ok new) :
    ∃ rows, codec.Holds body rows ∧ (∀ u ∈ edits.updates, u.1 < rows.length) ∧
      codec.Stores new (edits.masked.applyRows 0 rows) := by
  obtain ⟨decoded, hdecoded, h⟩ := except_bind_eq_ok.mp h
  obtain ⟨writer, hwriter, h⟩ := except_bind_eq_ok.mp h
  obtain ⟨st, hst, h⟩ := except_bind_eq_ok.mp h
  obtain ⟨_, hupdates, h⟩ := except_bind_eq_ok.mp h
  obtain ⟨batches, hbatches, hoffset, outs, htypes, hwritten, hrows, htotal⟩ :=
    foldlM_rewriteBatch hdistinct hst
  dsimp only at hoffset hwritten hrows htotal
  rw [Nat.zero_add] at hoffset htotal
  refine ⟨_, ⟨decoded, FdwResult.lift_eq_ok.mp hdecoded, batches, hbatches, rfl⟩,
    hoffset ▸ checkUpdates_eq_ok hupdates, ?_⟩
  split_ifs at h with hzero
  · rw [htotal, List.length_eq_zero_iff] at hzero
    exact .inl ⟨hzero, (Except.ok.inj h).symm⟩
  · rw [htotal, List.length_eq_zero_iff] at hzero
    refine .inr ⟨hzero, ?_⟩
    cases hfinish : codec.finish st.writer with
    | error e =>
      rw [hfinish] at h
      cases h
    | ok bytes =>
      rw [hfinish] at h
      refine ⟨bytes, (Except.ok.inj h).symm, ?_⟩
      rw [← hrows]
      exact hcodec.reads_back _ _ writer outs st.writer bytes (FdwResult.lift_eq_ok.mp hwriter)
        htypes hwritten hfinish

/-- A file holds one list of rows. -/
theorem ParquetCodec.Holds.unique {body : Bytes} {rows rows' : List ArrowRow}
    (h : codec.Holds body rows) (h' : codec.Holds body rows') : rows = rows' := by
  obtain ⟨decoded, hdecoded, batches, hbatches, rfl⟩ := h
  obtain ⟨decoded', hdecoded', batches', hbatches', rfl⟩ := h'
  obtain rfl := Except.ok.inj (hdecoded.symm.trans hdecoded')
  have hsame := List.map_injective_iff.mpr (fun _ _ => Except.ok.inj) (hbatches.symm.trans hbatches')
  rw [hsame]

/-- Below `2^32` rows the masks see every delete. -/
theorem BlobEdits.applyRows_masked {rows : List ArrowRow} (hcount : rows.length < 2 ^ 32) :
    edits.masked.applyRows 0 rows = edits.applyRows 0 rows :=
  BlobEdits.applyRows_congr fun _ habs =>
    ⟨BlobEdits.isDeleted_masked_of_lt (by omega), fun _ => rfl⟩

/-- The new content of a file after a DELETE: what it held, without the deleted rows, or none when
no row is left. -/
theorem rewriteBlob_rows (hcodec : codec.Faithful) (hupdates : edits.updates = []) {body : Bytes}
    {rows : List ArrowRow} (hbody : codec.Holds body rows) (hcount : rows.length < 2 ^ 32)
    {new : Option Bytes} (h : rewriteBlob codec plan name edits body = .ok new) :
    codec.Stores new (edits.remaining rows) := by
  obtain ⟨rows', hbody', -, hnew⟩ := rewriteBlob_applies hcodec (by simp [hupdates]) h
  obtain rfl := hbody.unique hbody'
  rwa [BlobEdits.applyRows_masked hcount, BlobEdits.applyRows_of_no_updates hupdates] at hnew

/-- The rows that the edits leave of a file.  The masks do not see the delete of row `u32::MAX`, which
only a file of `2^32` rows or more has: `build_plan` refuses such a file. -/
def BlobEdits.leftRows (edits : BlobEdits) (rows : List ArrowRow) : List ArrowRow :=
  (if rows.length < 2 ^ 32 then edits else edits.masked).applyRows 0 rows

/-- The plan makes `new` of the body of blob `name`, listed with `etag`: its rows with the overrides
put in and the deleted ones taken out, or nothing when no row is left. -/
structure EditedTo (codec : ParquetCodec) (plan : ModifyPlan) (baseId : UInt32) (name etag : String)
    (body : Bytes) (new : Option Bytes) : Prop where
  entry : ∃ row, plan.blobTable[baseId.toNat]? = some ⟨name, row, etag⟩
  content : ∃ edits rows, plan.edits.lookup baseId = some edits ∧ codec.Holds body rows ∧
    (∀ u ∈ edits.updates, u.1 < rows.length) ∧ codec.Stores new (edits.leftRows rows)

/-- What a commit swaps in is what the edits make of the body. -/
theorem Rewrites.editedTo (hcodec : codec.Faithful)
    (hmaps : ∀ e ∈ plan.edits, (e.2.updates.map Prod.fst).Nodup) {baseId : UInt32} {etag : String}
    {body : Bytes} {new : Option Bytes} (h : Rewrites codec plan baseId name etag body new) :
    EditedTo codec plan baseId name etag body new := by
  obtain ⟨edits, hedits, hnew⟩ := h.rewrite
  obtain ⟨rows, hrows, hupdates, hstores⟩ :=
    rewriteBlob_applies hcodec (hmaps _ (mem_of_lookup hedits)) hnew
  refine ⟨h.entry, edits, rows, hedits, hrows, hupdates, ?_⟩
  rw [BlobEdits.leftRows]
  split_ifs with hcount
  · rwa [← BlobEdits.applyRows_masked hcount]
  · exact hstores

end Rows

/-- The two readers of the parquet crate, that of the rewrite and that of the scan, agree. -/
def ReadersAgree (codec : ParquetCodec) (readFile : Bytes → FdwResult ParquetFile) : Prop :=
  ∀ bytes rows, codec.Holds bytes rows →
    ∃ file, readFile bytes = .ok file ∧ file.rows.map TypedRow.cells = rows

/-! ### Files of flags -/

/-- The row of a flag, and the flag of a row. -/
def flagRow (flag : Bool) : ArrowRow := [some (.boolean flag)]

def flagOf : ArrowRow → FdwResult Bool
  | [some (.boolean flag)] => .ok flag
  | _ => .error (.arrow "not a flag")

/-- A codec for blobs with one column, a boolean that is never NULL. -/
def flagCodec : ParquetCodec where
  Writer := List Bool
  decode body := .ok ⟨some .snappy, [.ok (RecordBatch.ofRows [0] (body.map fun byte =>
    (⟨flagRow (byte == 1), rfl⟩ : TypedRow [.boolean])), 64)]⟩
  newWriter _ _ := .ok []
  write flags batch := do
    let more ← batch.rows.mapM flagOf
    return flags ++ more
  finish flags := .ok (flags.map fun flag => if flag then 1 else 0)

theorem flagOf_eq_ok {row : ArrowRow} {flag : Bool} (h : flagOf row = .ok flag) : row = flagRow flag := by
  unfold flagOf at h
  split at h
  · rw [flagRow, Except.ok.inj h]
  · cases h

theorem rows_of_flags (flags : List Bool) :
    (RecordBatch.ofRows [0] ((flags.map fun flag => if flag then (1 : UInt8) else 0).map fun byte =>
      (⟨flagRow (byte == 1), rfl⟩ : TypedRow [.boolean]))).rows = flags.map flagRow := by
  rw [RecordBatch.rows_ofRows, List.map_map, List.map_map]
  refine List.map_congr_left fun flag _ => ?_
  cases flag <;> rfl

theorem flagCodec_faithful : flagCodec.Faithful where
  reads_back schema compression writer batches written bytes hnew _ hfold hfinish := by
    have hflags : batches.flatMap RecordBatch.rows = List.map flagRow written := by
      refine foldlM_induct (fun done flags => done.flatMap RecordBatch.rows = List.map flagRow flags) ?_
        hfold (congrArg (List.map flagRow) (Except.ok.inj hnew))
      intro done batch flags flags' hwrite hdone
      obtain ⟨more, hmore, hflags'⟩ := except_bind_eq_ok.mp hwrite
      have hrows : batch.rows = more.map flagRow := by
        rw [← List.forall₂_eq_eq_eq, List.forall₂_map_right_iff]
        exact (mapM_eq_ok_iff.mp hmore).imp fun row flag => flagOf_eq_ok
      rw [← Except.ok.inj hflags', List.flatMap_append, hdone, List.map_append, ← hrows]
      simp
    refine ⟨_, rfl, [(_, 64)], rfl, ?_⟩
    rw [hflags, ← Except.ok.inj hfinish, List.flatMap_singleton]
    exact rows_of_flags written

/-- The rows of a file of flags. -/
def flagRows (body : Bytes) : List ArrowRow := body.map fun byte => flagRow (byte == 1)

theorem rowTyped_flagRow (byte : UInt8) : rowTyped [.boolean] (flagRow (byte == 1)) = true := rfl

/-- The reader of such files. -/
def readFlags (body : Bytes) : FdwResult ParquetFile :=
  .ok ⟨[.boolean], [⟨body.map fun byte => ⟨flagRow (byte == 1), rowTyped_flagRow byte⟩,
    [⟨body.length, none⟩]⟩]⟩

theorem flagCodec_holds (body : Bytes) : flagCodec.Holds body (flagRows body) := by
  refine ⟨_, rfl, [(_, 64)], rfl, ?_⟩
  rw [List.flatMap_singleton, RecordBatch.rows_ofRows, List.map_map]
  exact List.map_congr_left fun byte _ => rfl

theorem readers_of_flags_agree : ReadersAgree flagCodec readFlags := by
  intro body rows hrows
  refine ⟨_, rfl, ?_⟩
  rw [hrows.unique (flagCodec_holds body), ParquetFile.rows, List.flatMap_singleton, List.map_map]
  rfl

/-- The scan of the one column of a table of flags. -/
def flagColumn : ScanConfig where
  ext := .permissive
  pgOids := [boolOid]
  projection := some [0]
  attnoMap := [0]
  qualFilter := none
  partitionAttnums := []
  partitionKeysDecl := []

end ParquetAzureFdw
