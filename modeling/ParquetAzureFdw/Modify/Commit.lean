/-
# The commit of an UPDATE or DELETE

`commit_plan` of `src/fdw/modify/update.rs`.  In a first phase every blob with
edits is downloaded under its scan-time etag, rewritten, and uploaded under a staging
name; in a second phase each rewritten blob is put in the place of the original, or
the original is deleted when no row is left, both under the same etag.

What the program asks for is bound to what it was told (`wp_commitPlan`): a swap
carries the rewrite of a body that was downloaded under the swap's own etag, a blob
is deleted without condition only after it was staged, and when the program returns,
every blob with edits has been swapped.
-/

import ParquetAzureFdw.Azure.Client
import ParquetAzureFdw.Modify.BlobTable
import ParquetAzureFdw.Modify.Kernel
import ParquetAzureFdw.Options.Table

namespace ParquetAzureFdw

open Programs

/-- A parquet file as the rewrite reads it: the codec of its first column chunk, if it
has one, and its batches with their sizes in memory. -/
structure DecodedBlob where
  compression : Option Compression
  batches : List (FdwResult (RecordBatch × ℕ))

/-- The parquet crate: the reader, and the writer behind `ParquetBatchWriter`. -/
structure ParquetCodec where
  Writer : Type
  decode : Bytes → FdwResult DecodedBlob
  newWriter : List Field → Compression → FdwResult Writer
  write : Writer → RecordBatch → FdwResult Writer
  finish : Writer → FdwResult Bytes

/-- What a blob holds, read back. -/
def ParquetCodec.Holds (codec : ParquetCodec) (bytes : Bytes) (rows : List ArrowRow) : Prop :=
  ∃ decoded, codec.decode bytes = .ok decoded ∧ ∃ batches : List (RecordBatch × ℕ),
    decoded.batches = batches.map .ok ∧ batches.flatMap (·.1.rows) = rows

/-- What the parquet crate does: a file is read back as the rows that were written. -/
structure ParquetCodec.Faithful (codec : ParquetCodec) : Prop where
  reads_back : ∀ schema compression writer (batches : List RecordBatch) written bytes,
    codec.newWriter schema compression = .ok writer →
    (∀ batch ∈ batches, batch.columns.map Column.dataType = schema.map Field.dataType) →
    batches.foldlM codec.write writer = .ok written → codec.finish written = .ok bytes →
    codec.Holds bytes (batches.flatMap RecordBatch.rows)

/-- The fields of `ModifyPlan` that the commit reads, and the number of edits. -/
structure ModifyPlan where
  blobTable : List BlobIdEntry
  edits : List (UInt32 × BlobEdits)
  schema : List Field
  compression : Compression
  editCount : ℕ

/-! ### The rewrite of one blob -/

section Rewrite

variable (codec : ParquetCodec) (plan : ModifyPlan) (name : String) (edits : BlobEdits)

/-- The variables of the loop over the batches. -/
structure RewriteState where
  writer : codec.Writer
  offset : ℕ
  decodedBytes : ℕ
  totalRows : ℕ

/-- A batch with rows goes to the writer. -/
def writeRows (writer : codec.Writer) (out : RecordBatch) : Outcome codec.Writer :=
  if out.numRows = 0 then .ok writer else FdwResult.lift (codec.write writer out)

/-- The body of the loop over the batches. -/
def rewriteBatch (st : RewriteState codec) (item : FdwResult (RecordBatch × ℕ)) :
    Outcome (RewriteState codec) := do
  let (batch, size) ← FdwResult.lift item
  let decodedBytes := min (st.decodedBytes + size) (2 ^ 64 - 1)
  if maxBlobBytes < decodedBytes then
    .error (.error (.azure ("blob '" ++ name ++ "' decodes to >" ++ toString maxBlobBytes ++
      " bytes of arrow memory (parquet compression unfolds in RAM during UPDATE/DELETE rewrite); " ++
      "refusing to materialise")))
  else do
    let out ← applyEditsBatch edits st.offset plan.schema batch
    let writer ← writeRows codec st.writer out
    return ⟨writer, st.offset + batch.numRows, decodedBytes, st.totalRows + out.numRows⟩

/-- The check that every override was in range. -/
def checkUpdates (rows : ℕ) : Outcome Unit :=
  match edits.updates.find? fun u => rows ≤ u.1 with
  | some (k, _) =>
    .error (.error (.schemaMismatch ("update row " ++ toString k ++ " >= blob '" ++ name ++
      "' row count " ++ toString rows)))
  | none => .ok ()

/-- The steps of phase 1 between the download and the upload: the new bytes, or `none`
when no row is left. -/
def rewriteBlob (body : Bytes) : Outcome (Option Bytes) := do
  let decoded ← FdwResult.lift (codec.decode body)
  let writer ← FdwResult.lift
    (codec.newWriter plan.schema (decoded.compression.getD plan.compression))
  let st ← decoded.batches.foldlM (rewriteBatch codec plan name edits) ⟨writer, 0, 0, 0⟩
  checkUpdates name edits st.offset
  if st.totalRows = 0 then return none else some <$> FdwResult.lift (codec.finish st.writer)

end Rewrite

/-! ### The two phases -/

/-- `Staged`. -/
structure Staged where
  originalName : String
  scanEtag : String
  stagingName : String
  newBytes : Bytes
  emptyDelete : Bool
  deriving DecidableEq, Repr

/-- `strip_suffix(".parquet")`, or the name itself. -/
def stem (name : String) : String :=
  if ".parquet".toList.isSuffixOf name.toList then
    String.ofList (name.toList.take (name.toList.length - ".parquet".toList.length))
  else name

/-- `make_staging_name`, for the uuid it draws. -/
def makeStagingName (original uuid : String) : String :=
  stem original ++ ".tmp." ++ uuid ++ ".parquet"

section Commit

variable (codec : ParquetCodec) (plan : ModifyPlan)

/-- The entry of a blob with edits. -/
def planEntry (baseId : UInt32) : Outcome BlobIdEntry :=
  match plan.blobTable[baseId.toNat]? with
  | some entry => .ok entry
  | none =>
    .error (.error (.schemaMismatch ("edits reference blob_id " ++ toString baseId.toNat ++
      " outside blob_table (len " ++ toString plan.blobTable.length ++ ")")))

/-- The edits of a blob with edits. -/
def planEdits (baseId : UInt32) : Outcome BlobEdits :=
  match plan.edits.lookup baseId with
  | some edits => .ok edits
  | none => .error (.panic "present")

/-- The end of phase 1 for a blob that keeps rows. -/
def stageBytes (entry : BlobIdEntry) (bytes : Bytes) : StoreProgram Staged := do
  let uuid ← Program.call StoreOp.newUuid
  let stagingName := makeStagingName entry.name uuid
  let _ ← Program.call (StoreOp.registerStaging stagingName)
  let _ ← putIfNoneMatch stagingName bytes
  return ⟨entry.name, entry.etag, stagingName, bytes, false⟩

/-- The end of phase 1 for one blob. -/
def stageRewritten (entry : BlobIdEntry) : Option Bytes → StoreProgram Staged
  | none => return ⟨entry.name, entry.etag, "", [], true⟩
  | some bytes => stageBytes entry bytes

/-- Phase 1 for one blob. -/
def stageBlob (baseId : UInt32) : StoreProgram Staged := do
  let entry ← Program.ofExcept (planEntry plan baseId)
  let edits ← Program.ofExcept (planEdits plan baseId)
  let body ← getBodyIfMatch entry.name entry.etag
  let rewritten ← Program.ofExcept (rewriteBlob codec plan entry.name edits body)
  stageRewritten entry rewritten

/-- Phase 2 for one blob. -/
def swapBlob (s : Staged) : StoreProgram Unit :=
  if s.emptyDelete then deleteIfMatch s.originalName s.scanEtag
  else do
    let _ ← putIfMatch s.originalName s.newBytes s.scanEtag
    let _ ← deleteUnconditional s.stagingName
    let _ ← Program.call (StoreOp.markCommitted s.stagingName)
    return ()

/-- The blobs with edits, in the order of their ids. -/
def ModifyPlan.keys : List UInt32 := (plan.edits.map Prod.fst).insertionSort (· ≤ ·)

/-- `commit_plan`. -/
def commitPlan : StoreProgram Unit := do
  let staged ← plan.keys.mapM (stageBlob codec plan)
  staged.forM swapBlob

end Commit

/-! ### What the program asks for -/

section Spec

variable (codec : ParquetCodec) (plan : ModifyPlan)

/-- The plan rewrites the body of blob `name`, listed with `etag`, to `new`. -/
structure Rewrites (baseId : UInt32) (name etag : String) (body : Bytes) (new : Option Bytes) :
    Prop where
  entry : ∃ row, plan.blobTable[baseId.toNat]? = some ⟨name, row, etag⟩
  rewrite : ∃ edits, plan.edits.lookup baseId = some edits ∧
    rewriteBlob codec plan name edits body = .ok new

/-- The body was downloaded under the etag. -/
def Downloaded (h : List StoreEvent) (name etag : String) (body : Bytes) : Prop :=
  ∃ len, (⟨.getIfMatch name etag, .ok (len, body)⟩ : StoreEvent) ∈ h

/-- The blob was to be created. -/
def AskedToCreate (h : List StoreEvent) (name : String) : Prop :=
  ∃ body reply, (⟨.putIfNoneMatch name body, reply⟩ : StoreEvent) ∈ h

/-- The swap of the blob was confirmed. -/
def SwapConfirmed (h : List StoreEvent) (name etag : String) : Option Bytes → Prop
  | some bytes => ∃ newEtag, (⟨.putIfMatch name bytes etag, .ok (some newEtag)⟩ : StoreEvent) ∈ h
  | none => (⟨.deleteIfMatch name etag, .ok ()⟩ : StoreEvent) ∈ h

/-- The requests that change or remove a blob. -/
def StoreOp.Swaps : StoreOp → Prop
  | .putIfMatch .. | .deleteIfMatch .. | .delete _ => True
  | _ => False

/-- What a history allows a commit to ask for. -/
def commitAllows (h : List StoreEvent) : StoreOp → Prop
  | .putIfMatch name bytes etag =>
    ∃ baseId body, Downloaded h name etag body ∧ Rewrites codec plan baseId name etag body (some bytes)
  | .deleteIfMatch name etag =>
    ∃ baseId body, Downloaded h name etag body ∧ Rewrites codec plan baseId name etag body none
  | .delete name => AskedToCreate h name
  | _ => True

/-- What a swap writes. -/
def Staged.newContent (s : Staged) : Option Bytes := if s.emptyDelete then none else some s.newBytes

/-- A staged blob, against the history. -/
structure Backed (h : List StoreEvent) (baseId : UInt32) (s : Staged) : Prop where
  rewritten : ∃ body, Downloaded h s.originalName s.scanEtag body ∧
    Rewrites codec plan baseId s.originalName s.scanEtag body s.newContent
  staged : s.emptyDelete = false → AskedToCreate h s.stagingName

/-- The edits of a blob are committed. -/
def Committed (h : List StoreEvent) (baseId : UInt32) : Prop :=
  ∃ name etag body new, Downloaded h name etag body ∧
    Rewrites codec plan baseId name etag body new ∧ SwapConfirmed h name etag new

variable {codec plan} {h h' : List StoreEvent} {name etag : String} {body : Bytes}

theorem commitAllows_of_not_swaps {op : StoreOp} (hop : ¬ op.Swaps) : commitAllows codec plan h op := by
  cases op with
  | putIfMatch | deleteIfMatch | delete => exact absurd trivial hop
  | getIfMatch | putIfNoneMatch | newUuid | registerStaging | markCommitted => trivial

/-- The steps of phase 1 that make no request. -/
theorem Rewrites.of_eq_ok {baseId : UInt32} {entry : BlobIdEntry} {edits : BlobEdits}
    {new : Option Bytes} (hentry : planEntry plan baseId = .ok entry)
    (hedits : planEdits plan baseId = .ok edits)
    (hnew : rewriteBlob codec plan entry.name edits body = .ok new) :
    Rewrites codec plan baseId entry.name entry.etag body new := by
  refine ⟨⟨entry.chunkBaseRow, ?_⟩, edits, ?_, hnew⟩
  · unfold planEntry at hentry
    split at hentry
    · rename_i entry' hget
      rw [hget, Except.ok.inj hentry]
    · cases hentry
  · unfold planEdits at hedits
    split at hedits
    · rename_i edits' hget
      rw [hget, Except.ok.inj hedits]
    · cases hedits

theorem Downloaded.mono (hd : Downloaded h name etag body) (hpre : h <+: h') :
    Downloaded h' name etag body := by
  obtain ⟨len, hmem⟩ := hd
  exact ⟨len, hpre.subset hmem⟩

theorem AskedToCreate.mono (hc : AskedToCreate h name) (hpre : h <+: h') :
    AskedToCreate h' name := by
  obtain ⟨body, reply, hmem⟩ := hc
  exact ⟨body, reply, hpre.subset hmem⟩

theorem SwapConfirmed.mono {new : Option Bytes} (hs : SwapConfirmed h name etag new)
    (hpre : h <+: h') : SwapConfirmed h' name etag new := by
  cases new with
  | none => exact hpre.subset hs
  | some bytes =>
    obtain ⟨newEtag, hmem⟩ := hs
    exact ⟨newEtag, hpre.subset hmem⟩

theorem Backed.mono {baseId : UInt32} {s : Staged} (hb : Backed codec plan h baseId s)
    (hpre : h <+: h') : Backed codec plan h' baseId s where
  rewritten := by
    obtain ⟨body, hd, hr⟩ := hb.rewritten
    exact ⟨body, hd.mono hpre, hr⟩
  staged hkeeps := (hb.staged hkeeps).mono hpre

theorem wp_getBodyIfMatch :
    wp (fun _ op => ¬ op.Swaps) (getBodyIfMatch name etag) h fun h' r =>
      ∀ body, r = .ok body → Downloaded h' name etag body := by
  refine wp_call_bind id fun reply => wp_ofExcept fun body hbody => ?_
  obtain ⟨len, rfl⟩ := readBody_eq_ok hbody
  exact ⟨len, by simp⟩

theorem wp_putIfNoneMatch :
    wp (fun _ op => ¬ op.Swaps) (putIfNoneMatch name body) h fun h' r =>
      ∀ etag, r = .ok etag → AskedToCreate h' name := by
  refine wp_bind (wp_ofExcept trivial (Q := fun _ _ => True)) (fun _ _ _ _ hr => by cases hr) ?_
  intro h' _ _ _
  refine wp_call_bind id fun reply => wp_ofExcept fun etag _ => ?_
  exact ⟨body, reply, by simp⟩

theorem wp_putIfMatch {bytes : Bytes} {baseId : UInt32} (hd : Downloaded h name etag body)
    (hr : Rewrites codec plan baseId name etag body (some bytes)) :
    wp (commitAllows codec plan) (putIfMatch name bytes etag) h fun h' r =>
      ∀ newEtag, r = .ok newEtag → SwapConfirmed h' name etag (some bytes) := by
  refine wp_bind (wp_ofExcept trivial (Q := fun _ _ => True)) (fun _ _ _ _ hr => by cases hr) ?_
  intro h' _ hpre _
  refine wp_call_bind ⟨baseId, body, hd.mono hpre, hr⟩ fun reply =>
    wp_ofExcept fun newEtag hreply => ?_
  obtain rfl := readUpload_eq_ok hreply
  exact ⟨newEtag, by simp⟩

theorem wp_deleteIfMatch {baseId : UInt32} (hd : Downloaded h name etag body)
    (hr : Rewrites codec plan baseId name etag body none) :
    wp (commitAllows codec plan) (deleteIfMatch name etag) h fun h' r =>
      ∀ u, r = .ok u → SwapConfirmed h' name etag none := by
  refine wp_call_bind ⟨baseId, body, hd, hr⟩ fun reply => wp_ofExcept fun u hreply => ?_
  obtain rfl := readDelete_eq_ok hreply
  exact List.mem_append_right _ (List.mem_singleton.mpr rfl)

/-- Phase 1 for one blob: it changes none. -/
theorem wp_stageBlob (baseId : UInt32) :
    wp (fun _ op => ¬ op.Swaps) (stageBlob codec plan baseId) h fun h' r =>
      ∀ s, r = .ok s → Backed codec plan h' baseId s := by
  refine wp_bind (wp_ofExcept rfl (Q := fun _ r => r = planEntry plan baseId))
    (fun _ _ _ _ hr => by cases hr) fun h₁ entry _ hentry => ?_
  refine wp_bind (wp_ofExcept rfl (Q := fun _ r => r = planEdits plan baseId))
    (fun _ _ _ _ hr => by cases hr) fun h₂ edits _ hedits => ?_
  refine wp_bind wp_getBodyIfMatch (fun _ _ _ _ hr => by cases hr) fun h₃ body _ hbody => ?_
  refine wp_bind (wp_ofExcept rfl (Q := fun _ r => r = rewriteBlob codec plan entry.name edits body))
    (fun _ _ _ _ hr => by cases hr) fun h₄ rewritten hpre hrewritten => ?_
  have hdownloaded := (hbody body rfl).mono hpre
  have hrewrites := Rewrites.of_eq_ok hentry.symm hedits.symm hrewritten.symm
  cases rewritten with
  | none =>
    rintro s hs
    obtain rfl := Except.ok.inj hs
    exact ⟨⟨body, hdownloaded, hrewrites⟩, fun hkeeps => by cases hkeeps⟩
  | some bytes =>
    refine wp_call_bind id fun uuid => wp_call_bind id fun _ => ?_
    refine wp_bind wp_putIfNoneMatch (fun _ _ _ _ hr => by cases hr) fun h₅ newEtag hpre hasked => ?_
    rintro s hs
    obtain rfl := Except.ok.inj hs
    have hpre : h₄ <+: h₅ :=
      ((List.prefix_append h₄ _).trans (List.prefix_append _ _)).trans hpre
    exact ⟨⟨body, hdownloaded.mono hpre, hrewrites⟩, fun _ => hasked newEtag rfl⟩

/-- Phase 2 for one blob. -/
theorem wp_swapBlob {baseId : UInt32} {s : Staged} (hs : Backed codec plan h baseId s) :
    wp (commitAllows codec plan) (swapBlob s) h fun h' r =>
      ∀ u, r = .ok u → SwapConfirmed h' s.originalName s.scanEtag s.newContent := by
  obtain ⟨body, hdownloaded, hrewrites⟩ := hs.rewritten
  rw [Staged.newContent] at hrewrites ⊢
  unfold swapBlob
  split_ifs at hrewrites ⊢ with hempty
  · exact wp_deleteIfMatch hdownloaded hrewrites
  · refine wp_bind (wp_putIfMatch hdownloaded hrewrites) (fun _ _ _ _ hr => by cases hr)
      fun h₁ newEtag hpre hswapped => ?_
    have hasked := (hs.staged (by simpa using hempty)).mono hpre
    -- the staging blob is dropped whatever the store answers
    refine wp_call_bind hasked fun reply => wp_call_bind trivial fun _ => ?_
    rintro u -
    exact (hswapped newEtag rfl).mono ((List.prefix_append h₁ _).trans (List.prefix_append _ _))

/-- Phase 1: every blob with edits has been read and rewritten, and none changed. -/
theorem wp_stageBlobs :
    wp (fun _ op => ¬ op.Swaps) (plan.keys.mapM (stageBlob codec plan)) h fun h' r =>
      ∀ staged, r = .ok staged → List.Forall₂ (Backed codec plan h') plan.keys staged :=
  wp_mapM (fun _ _ _ _ hpre hs => hs.mono hpre) fun baseId _ _ => wp_stageBlob baseId

/-- **A commit asks only for what its history allows, and when it returns, every blob with
edits has been swapped.** -/
theorem wp_commitPlan :
    wp (commitAllows codec plan) (commitPlan codec plan) h fun h' r =>
      ∀ u, r = .ok u → ∀ baseId ∈ plan.edits.map Prod.fst, Committed codec plan h' baseId := by
  refine wp_bind (wp_allowed wp_stageBlobs fun _ _ => commitAllows_of_not_swaps)
    (fun _ _ _ _ hr => by cases hr) fun h₁ staged _ hstaged => ?_
  have hbacked := hstaged staged rfl
  have hall : ∀ s ∈ staged, ∃ baseId, Backed codec plan h₁ baseId s := by
    intro s hs
    obtain ⟨baseId, -, hb⟩ := forall₂_exists_of_mem hbacked.flip hs
    exact ⟨baseId, hb⟩
  refine wp_mono (wp_forM (P := fun h s => ∃ baseId, Backed codec plan h baseId s)
    (R := fun h s => SwapConfirmed h s.originalName s.scanEtag s.newContent)
    (fun _ _ s hpre => fun ⟨baseId, hb⟩ => ⟨baseId, hb.mono hpre⟩)
    (fun _ _ s hpre hs => hs.mono hpre) (fun s h ⟨baseId, hb⟩ => wp_swapBlob hb) hall) ?_
  intro h₂ r hpre hswapped u hu baseId hbaseId
  have hkey : baseId ∈ plan.keys := (List.mem_insertionSort _).mpr hbaseId
  obtain ⟨s, hs, hb⟩ := forall₂_exists_of_mem hbacked hkey
  obtain ⟨body, hdownloaded, hrewrites⟩ := hb.rewritten
  exact ⟨s.originalName, s.scanEtag, body, s.newContent, hdownloaded.mono hpre, hrewrites,
    hswapped u hu s hs⟩

end Spec

end ParquetAzureFdw
