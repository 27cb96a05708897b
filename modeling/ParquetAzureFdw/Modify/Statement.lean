/-
# An UPDATE or DELETE from end to end

One statement, as it runs among other clients of the store:

* `BeginForeignScan` lists the blobs with their etags,
* `BeginForeignModify` reads the row count of each (`build_plan`),
* the executor pulls rows out of the scan, and records an edit for some of them,
* `EndForeignModify` runs `commit_plan`.

Between any two of its steps other clients may write and delete blobs.  The row
counts and the scan are read without a precondition.  While a blob has the etag it was
listed with, such a read returns its content; once it has another, nothing is assumed
of the reply, which may then mix two contents.  An error may end the statement at any
step.
-/

import ParquetAzureFdw.Modify.Record
import ParquetAzureFdw.Modify.Rewrite
import ParquetAzureFdw.Scan.Identity

namespace ParquetAzureFdw

open Programs Runs

/-- What a statement is made of: the parquet crate, the scan and the plan. -/
structure Statement where
  parquet : BatchCut
  read : Bytes → FdwResult ParquetFile
  codec : ParquetCodec
  cfg : ScanConfig
  schema : List Field
  compression : Compression

/-- The content of a blob, as the parquet crate reads it. -/
def Statement.fetch (st : Statement) (store : BlobStore) (name : String) : FdwResult ParquetFile :=
  match store.blobs name with
  | some v => st.read v.body
  | none => .error (.azure "404 Not Found")

/-- The blob has the etag it was listed with. -/
def BlobStore.AtVersion (store : BlobStore) (blob : ListedBlob) : Prop :=
  ∃ v, store.blobs blob.1 = some v ∧ v.etag = blob.2

/-- The blob that the next iteration of the scan reads from, if it reads: that of the
open stream, or the next one of the list. -/
def ScanState.readsBlob {σ τ : Type} (cfg : ScanConfig) (s : ScanState σ τ) : Option ListedBlob :=
  if (s.curBatch.filter fun b => s.curRow < b.batch.numRows).isSome then none
  else if s.curStream.isSome then s.rangeProducer.blobs[s.rangeProducer.cursor - 1]?
  else (s.rangeProducer.blobs[s.rangeProducer.cursor]?).filter fun b => !cfg.skips b.1

section Reads

variable {σ τ : Type} {cfg : ScanConfig} {s : ScanState σ τ}

theorem ScanState.BatchDone.filter_eq_none (h : s.BatchDone) :
    (s.curBatch.filter fun b => s.curRow < b.batch.numRows) = none := by
  refine Option.filter_eq_none_iff.mpr fun b hb => ?_
  have hdone := h b hb
  simpa using hdone

theorem ScanState.readsBlob_of_stream (h : s.BatchDone) (hstream : s.curStream.isSome) :
    s.readsBlob cfg = s.rangeProducer.blobs[s.rangeProducer.cursor - 1]? := by
  rw [ScanState.readsBlob, h.filter_eq_none, if_neg (by simp), if_pos hstream]

theorem ScanState.readsBlob_of_next {blob : ListedBlob} (h : s.BatchDone) (hstream : s.curStream = none)
    (hblob : s.rangeProducer.blobs[s.rangeProducer.cursor]? = some blob)
    (hskip : cfg.skips blob.1 = false) : s.readsBlob cfg = some blob := by
  rw [ScanState.readsBlob, h.filter_eq_none, if_neg (by simp), hstream, if_neg (by simp), hblob]
  simp [hskip]

end Reads

/-- A row handed to the executor, with the etag its blob had when its batch was read. -/
structure DeliveredRow where
  emission : Emission String
  etag : Option String

/-- The phases of a statement. -/
inductive Phase where
  | listing
  | counting (rest : List ListedBlob) (table : List BlobIdEntry)
  | running (plan : ModifyPlan) (scan : ListScan String)
  | committing (plan : ModifyPlan) (program : StoreProgram Unit) (log : List StoreEvent)
  | committed (plan : ModifyPlan) (log : List StoreEvent)
  | failed

/-- The store and the statement.  `listed` is the store at the time of the listing, and
`batchEtag` the etag of the blob that was read last. -/
structure StatementState where
  store : BlobStore
  listed : BlobStore
  blobs : List ListedBlob
  phase : Phase
  batchEtag : Option String
  delivered : List DeliveredRow
  recorded : List (DeliveredRow × RowEdit)

/-- Before the listing. -/
def StatementState.initial (store : BlobStore) : StatementState where
  store := store
  listed := store
  blobs := []
  phase := .listing
  batchEtag := none
  delivered := []
  recorded := []

/-- What happens: a step of the statement, or of another client. -/
inductive StatementLabel where
  | other
  | list
  | count
  | plan
  | scan
  | record (row : DeliveredRow) (edit : RowEdit)
  | finish
  | request (event : StoreEvent)
  | commit
  | abort

section Steps

variable (st : Statement)

/-- The streams of the scan. -/
abbrev BatchStream := List (Outcome (FileBatch String))

/-- What the reads of an iteration return: the blob's content while it has the listed etag. -/
structure ReadsContent (store : BlobStore) (scan : ListScan String)
    (openBlob : String → Outcome BatchStream) (pull : BatchStream → Pulled BatchStream String) :
    Prop where
  open_eq : ∀ blob, scan.readsBlob st.cfg = some blob → store.AtVersion blob →
    openBlob blob.1 = openBlobOf st.parquet st.cfg (st.fetch store) blob.1
  pull_eq : ∀ blob, scan.readsBlob st.cfg = some blob → store.AtVersion blob →
    ∀ items, scan.curStream = some items → pull items = pullItem items

/-- The etag of the blob that was read last, after an iteration. -/
def StatementState.etagRead (s : StatementState) (scan : ListScan String) : Option String :=
  match scan.readsBlob st.cfg with
  | some blob => (s.store.blobs blob.1).map Version.etag
  | none => s.batchEtag

/-- One step. -/
inductive Advances : StatementState → StatementLabel → StatementState → Prop
  | other {s : StatementState} {store' : BlobStore} (h : s.store.Changes store') :
      Advances s .other { s with store := store' }
  | list {s : StatementState} {blobs : List ListedBlob} (hphase : s.phase = .listing)
      (hcurrent : ∀ blob ∈ blobs, s.store.AtVersion blob) (hnodup : (blobs.map Prod.fst).Nodup) :
      Advances s .list { s with listed := s.store, blobs := blobs, phase := .counting blobs [] }
  | count {s : StatementState} {blob : ListedBlob} {rest : List ListedBlob}
      {table entries : List BlobIdEntry} {nrows : ℕ}
      (hphase : s.phase = .counting (blob :: rest) table)
      (hread : s.store.AtVersion blob → blobRowCount (st.fetch s.store) blob.1 = .ok nrows)
      (hentries : blobEntries blob nrows = .ok entries) :
      Advances s .count { s with phase := .counting rest (table ++ entries) }
  | plan {s : StatementState} {table : List BlobIdEntry} (hphase : s.phase = .counting [] table) :
      Advances s .plan { s with
        phase := .running ⟨table, [], st.schema, st.compression, 0⟩
          (.initial s.blobs st.cfg.pgOids.length) }
  | scan {s : StatementState} {plan : ModifyPlan} {scan scan' : ListScan String}
      {openBlob : String → Outcome BatchStream} {pull : BatchStream → Pulled BatchStream String}
      (hphase : s.phase = .running plan scan) (hreads : ReadsContent st s.store scan openBlob pull)
      (hstep : nextRowStep st.cfg openBlob pull scan = .ok (.again scan')) :
      Advances s .scan { s with phase := .running plan scan', batchEtag := s.etagRead st scan }
  | deliver {s : StatementState} {plan : ModifyPlan} {scan scan' scan'' : ListScan String}
      {openBlob : String → Outcome BatchStream} {pull : BatchStream → Pulled BatchStream String}
      {batch : FileBatch String} {row : ℕ} {e : Emission String}
      (hphase : s.phase = .running plan scan)
      (hstep : nextRowStep st.cfg openBlob pull scan = .ok (.row batch row scan'))
      (hstamp : stampRow st.cfg batch row scan' = .ok (e, scan'')) :
      Advances s .scan { s with
        phase := .running plan scan''
        delivered := s.delivered ++ [⟨e, s.batchEtag⟩] }
  | record {s : StatementState} {plan plan' : ModifyPlan} {scan : ListScan String}
      {row : DeliveredRow} {edit : RowEdit} (hphase : s.phase = .running plan scan)
      (hrow : row ∈ s.delivered)
      (hrecord : recordEdit plan (RowId.fromCtid row.emission.ctid) edit = .ok plan') :
      Advances s (.record row edit) { s with
        phase := .running plan' scan
        recorded := s.recorded ++ [(row, edit)] }
  | finish {s : StatementState} {plan : ModifyPlan} {scan : ListScan String}
      (hphase : s.phase = .running plan scan) :
      Advances s .finish { s with phase := .committing plan (commitPlan st.codec plan) [] }
  | request {s : StatementState} {plan : ModifyPlan} {op : StoreOp} {log : List StoreEvent}
      {next : op.Reply → StoreProgram Unit} {reply : op.Reply} {store' : BlobStore}
      (hphase : s.phase = .committing plan (.request op next) log)
      (hserves : Serves s.store ⟨op, reply⟩ store') :
      Advances s (.request ⟨op, reply⟩) { s with
        store := store'
        phase := .committing plan (next reply) (log ++ [⟨op, reply⟩]) }
  | commit {s : StatementState} {plan : ModifyPlan} {log : List StoreEvent}
      (hphase : s.phase = .committing plan (.ret ()) log) :
      Advances s .commit { s with phase := .committed plan log }
  | abort {s : StatementState} : Advances s .abort { s with phase := .failed }

/-- The row is the one at position `p` of the blob, in the version it was listed with. -/
def DeliveredRow.From (d : DeliveredRow) (blob : ListedBlob) (p : ℕ) : Prop :=
  d.emission.batch.source = blob.1 ∧ d.etag = some blob.2 ∧ d.emission.position = some p

/-- An edit was applied to the row it was recorded for: the row was delivered from position
`p` of a blob, the plan has the edit, or a later one of its kind, for row `p` of that blob,
the commit downloaded the version that the row was delivered from, the body it was listed
with, and swapped in the rows of that body with the plan's edits made to them. -/
def AppliedTo (listed : BlobStore) (plan : ModifyPlan) (log : List StoreEvent) (d : DeliveredRow)
    (edit : RowEdit) : Prop :=
  ∃ (blob : ListedBlob) (p : ℕ) (base : UInt32) (edits : BlobEdits) (body : Bytes)
    (rows : List ArrowRow) (new : Option Bytes), d.From blob p ∧
    plan.blobTable[base.toNat]? = some ⟨blob.1, 0, blob.2⟩ ∧ plan.edits.lookup base = some edits ∧
    (∃ edit', edit.SameKind edit' ∧ edits.Has p edit') ∧
    Downloaded log blob.1 blob.2 body ∧ listed.blobs blob.1 = some ⟨blob.2, body⟩ ∧
    st.codec.Holds body rows ∧ p < rows.length ∧ st.codec.Stores new (edits.applyRows 0 rows) ∧
    SwapConfirmed log blob.1 blob.2 new

/-- Every recorded edit was applied to the row it was recorded for, and no other row was
edited. -/
structure EditsApplied (s : StatementState) (plan : ModifyPlan) (log : List StoreEvent) : Prop where
  applied : ∀ r ∈ s.recorded, AppliedTo st s.listed plan log r.1 r.2
  no_other : ∀ base edits p edit, plan.edits.lookup base = some edits → edits.Has p edit →
    ∃ r ∈ s.recorded, r.2 = edit ∧
      ∃ blob : ListedBlob, plan.blobTable[base.toNat]? = some ⟨blob.1, 0, blob.2⟩ ∧ r.1.From blob p

end Steps

end ParquetAzureFdw
