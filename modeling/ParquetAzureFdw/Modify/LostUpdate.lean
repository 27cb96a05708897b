/-
# Lost updates and misdirected edits

A commit is guarded by the etags of the listing, but only for the blobs that it edits.
The ids of the rows are not guarded at all: they are positions in two tables, one from
the row counts and one from the scan, and the blobs may change between the two reads.
When another client rewrites one blob with fewer rows after it was counted, the scan
gives the blobs after it smaller ids, and an edit of one of them goes to another blob,
whose etag is current (`shrunk_blob_misdirects_edit`).

While every such read finds the blob with the etag it was listed with, and edits are
recorded only for rows that their ctid leads back to, a commit that returns has applied
every edit to the row it was recorded for (`edits_applied_of_unchanged_reads`), whatever
other clients write at other times: it has swapped the listed content for its rows with
the edits made.
-/

import ParquetAzureFdw.Modify.Serializable
import ParquetAzureFdw.Modify.Statement

namespace ParquetAzureFdw

open Programs Runs

/-! ### The listed versions -/

/-- The blobs were listed with their current etags, and an etag still stands for the body
it had then. -/
structure ListedInv (listed store : BlobStore) (blobs : List ListedBlob) : Prop where
  nodup : (blobs.map Prod.fst).Nodup
  pinned : ∀ blob ∈ blobs, ∃ body, listed.blobs blob.1 = some ⟨blob.2, body⟩ ∧
    store.Pins blob.1 blob.2 body

section Listed

variable {listed store store' : BlobStore} {blobs : List ListedBlob} {blob : ListedBlob}

theorem ListedInv.changes (h : ListedInv listed store blobs) (hchange : store.Changes store') :
    ListedInv listed store' blobs where
  nodup := h.nodup
  pinned blob hblob := by
    obtain ⟨body, hlisted, hpins⟩ := h.pinned blob hblob
    exact ⟨body, hlisted, hpins.changes hchange⟩

theorem ListedInv.serves (h : ListedInv listed store blobs) {event : StoreEvent}
    (hserves : Serves store event store') : ListedInv listed store' blobs := by
  rcases hserves.changes with rfl | hchange
  · exact h
  · exact h.changes hchange

theorem ListedInv.of_listing (hcurrent : ∀ blob ∈ blobs, store.AtVersion blob)
    (hnodup : (blobs.map Prod.fst).Nodup) : ListedInv store store blobs := by
  refine ⟨hnodup, fun blob hblob => ?_⟩
  obtain ⟨v, hv, hetag⟩ := hcurrent blob hblob
  refine ⟨v.body, by rw [hv, ← hetag], hetag ▸ store.etag_issued _ v hv, fun v' hv' _ => ?_⟩
  rw [Option.some.inj (hv.symm.trans hv')]

/-- A blob that has the listed etag has the listed content. -/
theorem ListedInv.fetch_eq (h : ListedInv listed store blobs) (st : Statement) (hblob : blob ∈ blobs)
    (hat : store.AtVersion blob) : st.fetch store blob.1 = st.fetch listed blob.1 := by
  obtain ⟨body, hlisted, hpins⟩ := h.pinned blob hblob
  obtain ⟨v, hv, hetag⟩ := hat
  have hbody := hpins.body_eq v hv hetag
  simp only [Statement.fetch, hv, hlisted, hbody]

/-- What is downloaded under the listed etag is the listed body. -/
theorem ListedInv.body_eq_of_get (h : ListedInv listed store blobs) (hblob : blob ∈ blobs)
    {len : Option ℕ} {body : Bytes}
    (hget : Serves store ⟨.getIfMatch blob.1 blob.2, .ok (len, body)⟩ store') :
    listed.blobs blob.1 = some ⟨blob.2, body⟩ := by
  obtain ⟨body', hlisted, hpins⟩ := h.pinned blob hblob
  have hbody := hpins.body_eq _ hget.current_of_get.2 rfl
  rw [hlisted, ← hbody]

end Listed

/-! ### The plan -/

section Plan

variable (st : Statement) (listed : BlobStore) (blobs : List ListedBlob)

/-- The plan has an edit of this kind for the row, which is one of the listed file. -/
def Planned (plan : ModifyPlan) (d : DeliveredRow) (edit : RowEdit) : Prop :=
  ∃ (blob : ListedBlob) (p : ℕ) (base : UInt32) (edits : BlobEdits), blob ∈ blobs ∧ d.From blob p ∧
    (∃ file, st.fetch listed blob.1 = .ok file ∧ p < file.numRows) ∧
    plan.blobTable[base.toNat]? = some ⟨blob.1, 0, blob.2⟩ ∧ plan.edits.lookup base = some edits ∧
    ∃ edit', edit.SameKind edit' ∧ edits.Has p edit'

/-- The plan is that of the listed contents, and has the recorded edits and no others. -/
structure PlanInv (plan : ModifyPlan) (recorded : List (DeliveredRow × RowEdit)) : Prop where
  table : buildBlobTable (blobRowCount (st.fetch listed)) blobs = .ok plan.blobTable
  planned : ∀ r ∈ recorded, Planned st listed blobs plan r.1 r.2
  distinct : ∀ base edits, plan.edits.lookup base = some edits → (edits.updates.map Prod.fst).Nodup
  no_other : ∀ base edits p edit, plan.edits.lookup base = some edits → edits.Has p edit →
    ∃ r ∈ recorded, r.2 = edit ∧
      ∃ blob : ListedBlob, plan.blobTable[base.toNat]? = some ⟨blob.1, 0, blob.2⟩ ∧ r.1.From blob p

variable {st listed blobs} {plan : ModifyPlan} {recorded : List (DeliveredRow × RowEdit)}

/-- One more edit keeps the others. -/
theorem Planned.withEdit {d : DeliveredRow} {edit : RowEdit} (h : Planned st listed blobs plan d edit)
    (base : UInt32) (row : ℕ) (edit₁ : RowEdit) :
    Planned st listed blobs (plan.withEdit base row edit₁) d edit := by
  obtain ⟨blob, p, base', edits, hblob, hfrom, hfile, hentry, hlookup, edit', hkind, hhas⟩ := h
  have hlookup' := lookup_withEdit plan base base' row edit₁
  split_ifs at hlookup' with hbase
  · subst hbase
    rw [hlookup, Option.getD_some] at hlookup'
    obtain ⟨edit'', hkind', hhas'⟩ := hhas.record row edit₁
    exact ⟨blob, p, base', _, hblob, hfrom, hfile, hentry, hlookup', edit'', hkind.trans hkind', hhas'⟩
  · exact ⟨blob, p, base', edits, hblob, hfrom, hfile, hentry, hlookup'.trans hlookup, edit', hkind, hhas⟩

/-- **Recording an edit of a row that its ctid leads back to.** -/
theorem PlanInv.withEdit (h : PlanInv st listed blobs plan recorded) {d : DeliveredRow}
    {blob : ListedBlob} {p : ℕ} {base : UInt32} (edit : RowEdit) (hblob : blob ∈ blobs)
    (hfrom : d.From blob p) (hfile : ∃ file, st.fetch listed blob.1 = .ok file ∧ p < file.numRows)
    (hentry : plan.blobTable[base.toNat]? = some ⟨blob.1, 0, blob.2⟩) (hp : p < 2 ^ 32) :
    PlanInv st listed blobs (plan.withEdit base p edit) (recorded ++ [(d, edit)]) where
  table := h.table
  planned r hr := by
    rcases List.mem_append.mp hr with hr | hr
    · exact (h.planned r hr).withEdit base p edit
    · obtain rfl := List.mem_singleton.mp hr
      have hlookup := lookup_withEdit plan base base p edit
      rw [if_pos rfl] at hlookup
      exact ⟨blob, p, base, _, hblob, hfrom, hfile, hentry, hlookup, edit, .refl edit,
        BlobEdits.has_record_self hp⟩
  distinct base' edits hlookup := by
    rw [lookup_withEdit] at hlookup
    split_ifs at hlookup with hbase
    · rw [← Option.some.inj hlookup]
      refine BlobEdits.distinct_record ?_
      cases hbefore : plan.edits.lookup base with
      | none => exact List.nodup_nil
      | some edits => exact h.distinct base edits hbefore
    · exact h.distinct base' edits hlookup
  no_other base' edits p' edit' hlookup hhas := by
    have hold : ∀ edits, plan.edits.lookup base' = some edits → edits.Has p' edit' →
        ∃ r ∈ recorded ++ [(d, edit)], r.2 = edit' ∧ ∃ blob : ListedBlob,
          plan.blobTable[base'.toNat]? = some ⟨blob.1, 0, blob.2⟩ ∧ r.1.From blob p' := by
      intro edits hlookup hhas
      obtain ⟨r, hr, hedit, hblob⟩ := h.no_other base' edits p' edit' hlookup hhas
      exact ⟨r, List.mem_append_left _ hr, hedit, hblob⟩
    rw [lookup_withEdit] at hlookup
    split_ifs at hlookup with hbase
    · subst hbase
      obtain rfl := Option.some.inj hlookup
      rcases BlobEdits.has_of_has_record hp hhas with ⟨rfl, rfl⟩ | hhas
      · exact ⟨(d, edit'), by simp, rfl, blob, hentry, hfrom⟩
      · cases hbefore : plan.edits.lookup base' with
        | none =>
          -- a blob with no edits yet has none of this kind
          rw [hbefore] at hhas
          cases edit' <;> simp [BlobEdits.Has] at hhas
        | some edits =>
          rw [hbefore] at hhas
          exact hold edits hbefore hhas
    · exact hold edits hlookup hhas

end Plan

/-! ### The scan -/

section Scan

variable (st : Statement)

/-- The streams of the listed contents. -/
abbrev Statement.openListed (listed : BlobStore) : String → Outcome BatchStream :=
  openBlobOf st.parquet st.cfg (st.fetch listed)

/-- The reads of the next iteration find the listed version. -/
def ReadsListed (store : BlobStore) (scan : ListScan String) : Prop :=
  ∀ blob, scan.readsBlob st.cfg = some blob → store.AtVersion blob

/-- The scan is one of the listed contents: so is each row it delivered, and the etag that
goes with a row is that of the listing. -/
structure RunningInv (listed : BlobStore) (blobs : List ListedBlob) (batchEtag : Option String)
    (delivered : List DeliveredRow) (scan : ListScan String) : Prop where
  scan_inv : ScanInv st.cfg (st.openListed listed) blobs scan
  batch_etag : ∀ b, scan.curBatch = some b →
    ∃ blob ∈ blobs, b.source = blob.1 ∧ batchEtag = some blob.2
  stamped : ∀ d ∈ delivered, ∃ i blob first r p,
    Stamped st.cfg (st.openListed listed) blobs d.emission i blob first r p ∧ d.etag = some blob.2

variable {st} {listed store : BlobStore} {blobs : List ListedBlob} {scan scan' : ListScan String}

/-- The blob of the open stream is the one that is read. -/
theorem InBlob.readsBlob_eq {openBlob : String → Outcome BatchStream} {items : BatchStream} {i : ℕ}
    {blob : ListedBlob} {first : ℕ} (h : InBlob st.cfg openBlob blobs scan items i blob first)
    (hblobs : scan.rangeProducer.blobs = blobs) (hbatch : scan.BatchDone)
    (hstream : scan.curStream = some items) : scan.readsBlob st.cfg = some blob := by
  rw [ScanState.readsBlob_of_stream hbatch (by simp [hstream]), hblobs, h.cursor_eq, Nat.add_sub_cancel]
  exact h.blob_eq

/-- An iteration whose reads find the listed version is one over the listed contents. -/
theorem Iterates.over_listed (hlisted : ListedInv listed store blobs)
    (hscan : ScanInv st.cfg (st.openListed listed) blobs scan)
    {openBlob : String → Outcome BatchStream} {pull : BatchStream → Pulled BatchStream String}
    (hreads : ReadsContent st store scan openBlob pull) (hunchanged : ReadsListed st store scan)
    (hit : Iterates st.cfg openBlob pull scan (.again scan')) :
    Iterates st.cfg (st.openListed listed) pullItem scan (.again scan') := by
  have hpull_eq : scan.BatchDone → ∀ items, scan.curStream = some items →
      pull items = pullItem items := by
    intro hbatch items hstream
    obtain ⟨i, blob, first, hin⟩ := hscan.within items hstream
    have hblob := hin.readsBlob_eq hscan.blobs_eq hbatch hstream
    exact hreads.pull_eq blob hblob (hunchanged blob hblob) items hstream
  cases hit with
  | pulled hbatch hstream hpull =>
    exact .pulled hbatch hstream ((hpull_eq hbatch _ hstream).symm.trans hpull)
  | ended hbatch hstream hpull =>
    exact .ended hbatch hstream ((hpull_eq hbatch _ hstream).symm.trans hpull)
  | took hbatch hstream htakes =>
    refine .took hbatch hstream ?_
    cases htakes with
    | skipped hblob hskip => exact .skipped hblob hskip
    | @entered blob datums stream hblob hskip hdatums hopen =>
      refine .entered hblob hskip hdatums ?_
      rw [ScanState.dropBatch_rangeProducer] at hblob
      have hread := ScanState.readsBlob_of_next hbatch hstream hblob hskip
      have hat := hunchanged blob hread
      have hmem : blob ∈ blobs := List.mem_of_getElem? (hscan.blobs_eq ▸ hblob)
      rw [hreads.open_eq blob hread hat, openBlobOf, hlisted.fetch_eq st hmem hat] at hopen
      exact hopen

/-- **An iteration keeps the invariant.** -/
theorem RunningInv.again {s : StatementState} (hlisted : ListedInv s.listed s.store s.blobs)
    (h : RunningInv st s.listed s.blobs s.batchEtag s.delivered scan)
    {openBlob : String → Outcome BatchStream} {pull : BatchStream → Pulled BatchStream String}
    (hreads : ReadsContent st s.store scan openBlob pull)
    (hunchanged : ReadsListed st s.store scan)
    (hstep : nextRowStep st.cfg openBlob pull scan = .ok (.again scan')) :
    RunningInv st s.listed s.blobs (s.etagRead st scan) s.delivered scan' := by
  have hit := (nextRowStep_iterates hstep).over_listed hlisted h.scan_inv hreads hunchanged
  refine ⟨h.scan_inv.again source_of_openBlobOf hit, fun b hb => ?_, h.stamped⟩
  have hdrop := ScanState.dropBatch_eq h.scan_inv.row_zero
  -- only an iteration that pulls a batch leaves one
  cases hit with
  | @pulled stream rest b' hbatch hstream hpull =>
    obtain rfl : b' = b := Option.some.inj hb
    obtain rfl := pullItem_eq_batch hpull
    obtain ⟨i, blob, first, hin⟩ := h.scan_inv.within _ hstream
    have hblob := hin.readsBlob_eq h.scan_inv.blobs_eq hbatch hstream
    obtain ⟨v, hv, hetag⟩ := hunchanged blob hblob
    refine ⟨blob, List.mem_of_getElem? hin.blob_eq, hin.source_items b' (by simp), ?_⟩
    simp only [StatementState.etagRead, hblob, hv, Option.map_some, hetag]
  | ended hbatch hstream hpull => simp [hdrop] at hb
  | took hbatch hstream htakes =>
    rw [hdrop] at htakes
    cases htakes <;> cases hb

/-- **A delivered row keeps the invariant.** -/
theorem RunningInv.deliver {batchEtag : Option String} {delivered : List DeliveredRow}
    (hnodup : (blobs.map Prod.fst).Nodup) (h : RunningInv st listed blobs batchEtag delivered scan)
    {openBlob : String → Outcome BatchStream} {pull : BatchStream → Pulled BatchStream String}
    {batch : FileBatch String} {row : ℕ} {e : Emission String} {scan'' : ListScan String}
    (hstep : nextRowStep st.cfg openBlob pull scan = .ok (.row batch row scan'))
    (hstamp : stampRow st.cfg batch row scan' = .ok (e, scan'')) :
    RunningInv st listed blobs batchEtag (delivered ++ [⟨e, batchEtag⟩]) scan'' := by
  cases nextRowStep_iterates hstep with
  | took _ _ htakes => cases htakes
  | row hbatch hrow =>
    obtain ⟨hinv, i, blob, first, r, p, hst⟩ := h.scan_inv.stamp hbatch hrow hstamp
    obtain ⟨table, slot, -, -, rfl, rfl⟩ := stampRow_eq_ok hstamp
    refine ⟨hinv, h.batch_etag, fun d hd => ?_⟩
    rcases List.mem_append.mp hd with hd | hd
    · exact h.stamped d hd
    · obtain rfl := List.mem_singleton.mp hd
      obtain ⟨blob', hmem, hsource, hetag⟩ := h.batch_etag batch hbatch
      have hname : blob'.1 = blob.1 := hsource.symm.trans hst.source_eq
      obtain rfl := List.inj_on_of_nodup_map hnodup hmem (List.mem_of_getElem? hst.blob_eq) hname
      exact ⟨i, blob', first, r, p, hst, hetag⟩

end Scan

/-! ### The statement -/

section Run

variable (st : Statement)

/-- The row's ctid leads back to it: the scan gives each blob before its own as many ids as
the plan does, and drops no row before it in its blob, and its id fits in 32 bits. -/
def Addressable (s : StatementState) (d : DeliveredRow) : Prop :=
  ∀ i blob p, s.blobs[i]? = some blob → d.emission.batch.source = blob.1 →
    d.emission.position = some p →
    (∀ j < i, ∀ b, s.blobs[j]? = some b →
      scannedIds st.cfg (st.openListed s.listed) b = plannedIds (st.fetch s.listed) b) ∧
    (∀ q < p, q ∈ keptPositions (st.openListed s.listed) blob.1) ∧
    plannedStart (st.fetch s.listed) s.blobs i + p / chunkRows < 2 ^ 32

/-- The condition on a step: a row count and a read of the scan find the blob with the etag
it was listed with, and an edit is recorded for a row that its ctid leads back to. -/
def Meets (s : StatementState) : StatementLabel → Prop
  | .count => ∀ blob rest table, s.phase = .counting (blob :: rest) table → s.store.AtVersion blob
  | .scan => ∀ plan scan, s.phase = .running plan scan → ReadsListed st s.store scan
  | .record d _ => Addressable st s d
  | _ => True

/-- Every blob with edits has been swapped, once the commit returns. -/
def CommitPost (plan : ModifyPlan) (h : List StoreEvent) (r : Except Failure Unit) : Prop :=
  ∀ u, r = .ok u → ∀ baseId ∈ plan.edits.map Prod.fst, Committed st.codec plan h baseId

/-- What was downloaded under a listed etag is the listed body. -/
def DownloadsListed (listed : BlobStore) (blobs : List ListedBlob) (log : List StoreEvent) : Prop :=
  ∀ blob ∈ blobs, ∀ body, Downloaded log blob.1 blob.2 body →
    listed.blobs blob.1 = some ⟨blob.2, body⟩

/-- What holds in each phase. -/
def PhaseInv (listed : BlobStore) (blobs : List ListedBlob) (batchEtag : Option String)
    (delivered : List DeliveredRow) (recorded : List (DeliveredRow × RowEdit)) : Phase → Prop
  | .listing => delivered = [] ∧ recorded = []
  | .counting rest table => (delivered = [] ∧ recorded = []) ∧ ∃ counted, blobs = counted ++ rest ∧
      buildBlobTable (blobRowCount (st.fetch listed)) counted = .ok table
  | .running plan scan => PlanInv st listed blobs plan recorded ∧
      RunningInv st listed blobs batchEtag delivered scan
  | .committing plan program log => PlanInv st listed blobs plan recorded ∧
      DownloadsListed listed blobs log ∧
      wp (commitAllows st.codec plan) program log (CommitPost st plan)
  | .committed plan log => PlanInv st listed blobs plan recorded ∧
      DownloadsListed listed blobs log ∧ CommitPost st plan log (.ok ())
  | .failed => True

/-- What holds throughout a statement. -/
structure StatementInv (s : StatementState) : Prop where
  listed_inv : ListedInv s.listed s.store s.blobs
  phase_inv : PhaseInv st s.listed s.blobs s.batchEtag s.delivered s.recorded s.phase

variable {st} {s s' : StatementState} {l : StatementLabel}

theorem StatementInv.initial (store : BlobStore) : StatementInv st (.initial store) where
  listed_inv := ⟨List.nodup_nil, by simp [StatementState.initial]⟩
  phase_inv := ⟨rfl, rfl⟩

/-- What holds in the phase the statement is in. -/
theorem StatementInv.phase {phase : Phase} (h : StatementInv st s) (hphase : s.phase = phase) :
    PhaseInv st s.listed s.blobs s.batchEtag s.delivered s.recorded phase :=
  hphase ▸ h.phase_inv

/-- A row that its ctid leads back to is edited where it was delivered from. -/
theorem RunningInv.recorded {plan plan' : ModifyPlan} {scan : ListScan String} {d : DeliveredRow}
    {edit : RowEdit} (hrunning : RunningInv st s.listed s.blobs s.batchEtag s.delivered scan)
    (hnodup : (s.blobs.map Prod.fst).Nodup)
    (htable : buildBlobTable (blobRowCount (st.fetch s.listed)) s.blobs = .ok plan.blobTable)
    (hd : d ∈ s.delivered) (haddr : Addressable st s d)
    (hrecord : recordEdit plan (RowId.fromCtid d.emission.ctid) edit = .ok plan') :
    ∃ blob ∈ s.blobs, ∃ (p : ℕ) (base : UInt32), d.From blob p ∧
      (∃ file, st.fetch s.listed blob.1 = .ok file ∧ p < file.numRows) ∧
      plan.blobTable[base.toNat]? = some ⟨blob.1, 0, blob.2⟩ ∧ p < 2 ^ 32 ∧
      plan' = plan.withEdit base p edit := by
  obtain ⟨base, abs, hresolve, rfl⟩ := recordEdit_eq_ok hrecord
  obtain ⟨i, blob, first, r, p, hst, hetag⟩ := hrunning.stamped d hd
  obtain ⟨base', hresolve', hentry⟩ := (hst.resolves_iff hnodup htable).mpr
    (haddr i blob p hst.blob_eq hst.source_eq hst.position_eq)
  obtain ⟨rfl, rfl⟩ := Prod.mk.inj (Except.ok.inj (hresolve'.symm.trans hresolve))
  obtain ⟨file, hfile, hp, hcount⟩ := hst.exists_file htable
  exact ⟨blob, List.mem_of_getElem? hst.blob_eq, p, base', ⟨hst.source_eq, hetag, hst.position_eq⟩,
    ⟨file, hfile, hp⟩, hentry, hp.trans hcount, rfl⟩

/-- A request keeps the downloads those of the listed versions. -/
theorem DownloadsListed.concat {listed store store' : BlobStore} {blobs : List ListedBlob}
    {log : List StoreEvent} {event : StoreEvent} (h : DownloadsListed listed blobs log)
    (hlisted : ListedInv listed store blobs) (hserves : Serves store event store') :
    DownloadsListed listed blobs (log ++ [event]) := by
  rintro blob hblob body ⟨len, hmem⟩
  rcases List.mem_append.mp hmem with hmem | hmem
  · exact h blob hblob body ⟨len, hmem⟩
  · rw [← List.mem_singleton.mp hmem] at hserves
    exact hlisted.body_eq_of_get hblob hserves

/-- **A step that meets the condition keeps the invariant.** -/
theorem StatementInv.step (h : StatementInv st s) (hmeets : Meets st s l)
    (next : Advances st s l s') : StatementInv st s' := by
  have hlisted := h.listed_inv
  cases next with
  | other hchange => exact ⟨hlisted.changes hchange, h.phase_inv⟩
  | list hphase hcurrent hnodup =>
    exact ⟨.of_listing hcurrent hnodup, h.phase hphase, [], rfl, rfl⟩
  | @count blob rest table entries nrows hphase hread hentries =>
    obtain ⟨hnone, counted, hblobs, htable⟩ := h.phase hphase
    have hat : s.store.AtVersion blob := hmeets blob rest table hphase
    have hmem : blob ∈ s.blobs := by rw [hblobs]; simp
    have hcount : blobRowCount (st.fetch s.listed) blob.1 = .ok nrows := by
      rw [blobRowCount, ← hlisted.fetch_eq st hmem hat]
      exact hread hat
    refine ⟨hlisted, hnone, counted ++ [blob], ?_, buildBlobTable_concat htable hcount hentries⟩
    show s.blobs = _
    rw [hblobs, List.append_assoc, List.singleton_append]
  | plan hphase =>
    obtain ⟨⟨hdelivered, hrecorded⟩, counted, hblobs, htable⟩ := h.phase hphase
    rw [List.append_nil] at hblobs
    refine ⟨hlisted, ⟨hblobs ▸ htable, ?_, ?_, ?_⟩, .initial _, ?_, ?_⟩
    · show ∀ r ∈ s.recorded, _
      simp [hrecorded]
    · simp
    · simp
    · simp [ScanState.initial]
    · show ∀ d ∈ s.delivered, _
      simp [hdelivered]
  | @scan plan scan scan' openBlob pull hphase hreads hstep =>
    obtain ⟨hplan, hrunning⟩ := h.phase hphase
    exact ⟨hlisted, hplan, hrunning.again hlisted hreads (hmeets plan scan hphase) hstep⟩
  | deliver hphase hstep hstamp =>
    obtain ⟨hplan, hrunning⟩ := h.phase hphase
    exact ⟨hlisted, hplan, hrunning.deliver hlisted.nodup hstep hstamp⟩
  | record hphase hrow hrecord =>
    obtain ⟨hplan, hrunning⟩ := h.phase hphase
    obtain ⟨blob, hblob, p, base, hfrom, hfile, hentry, hp, rfl⟩ :=
      hrunning.recorded hlisted.nodup hplan.table hrow hmeets hrecord
    exact ⟨hlisted, hplan.withEdit _ hblob hfrom hfile hentry hp, hrunning⟩
  | finish hphase =>
    obtain ⟨hplan, -⟩ := h.phase hphase
    exact ⟨hlisted, hplan, by simp [DownloadsListed, Downloaded], wp_commitPlan⟩
  | @request plan op log next reply store' hphase hserves =>
    obtain ⟨hplan, hdownloads, hwp⟩ := h.phase hphase
    exact ⟨hlisted.serves hserves, hplan, hdownloads.concat hlisted hserves, hwp.2 reply⟩
  | commit hphase =>
    obtain ⟨hplan, hdownloads, hwp⟩ := h.phase hphase
    exact ⟨hlisted, hplan, hdownloads, hwp⟩
  | abort => exact ⟨hlisted, trivial⟩

/-- A blob that `build_plan` has counted has fewer than `2^32` rows. -/
theorem length_lt_of_planned (hagree : ReadersAgree st.codec st.read) {blobs : List ListedBlob}
    {table : List BlobIdEntry} {store : BlobStore}
    (htable : buildBlobTable (blobRowCount (st.fetch store)) blobs = .ok table) {b : ListedBlob}
    (hb : b ∈ blobs) {v : Version} (hv : store.blobs b.1 = some v) {held : List ArrowRow}
    (hheld : st.codec.Holds v.body held) : held.length < 2 ^ 32 := by
  obtain ⟨counted, -, -, -, hfetched⟩ := fetch_of_plan htable
  obtain ⟨i, hi⟩ := List.mem_iff_getElem?.mp hb
  obtain ⟨file, hfetch, -, hlt⟩ := hfetched i b hi
  obtain ⟨file', hread, hrows⟩ := hagree _ _ hheld
  simp only [Statement.fetch, hv, hread] at hfetch
  obtain rfl := Except.ok.inj hfetch
  rw [← hrows, List.length_map]
  exact hlt

section Applied

variable (hcodec : st.codec.Faithful) (hagree : ReadersAgree st.codec st.read)

include hcodec hagree

/-- The edits of a blob that was swapped are applied. -/
theorem Planned.applied {listed : BlobStore} {blobs : List ListedBlob} {plan : ModifyPlan}
    {recorded : List (DeliveredRow × RowEdit)} {log : List StoreEvent} {d : DeliveredRow}
    {edit : RowEdit} (h : Planned st listed blobs plan d edit)
    (hplan : PlanInv st listed blobs plan recorded) (hdownloads : DownloadsListed listed blobs log)
    (hpost : CommitPost st plan log (.ok ())) : AppliedTo st listed plan log d edit := by
  obtain ⟨blob, p, base, edits, hblob, hfrom, ⟨file, hfile, hp⟩, hentry, hlookup, hhas⟩ := h
  obtain ⟨name, etag, body, new, hdownloaded, ⟨⟨row, hentry'⟩, edits', hlookup', hrewrite⟩, hswap⟩ :=
    hpost () rfl base (List.mem_map_of_mem (mem_of_lookup hlookup))
  obtain ⟨rfl, -, rfl⟩ : blob.1 = name ∧ 0 = row ∧ blob.2 = etag := by
    simpa using hentry.symm.trans hentry'
  obtain rfl := Option.some.inj (hlookup.symm.trans hlookup')
  have hbody := hdownloads blob hblob body hdownloaded
  obtain ⟨rows, hholds, -, hstores⟩ :=
    rewriteBlob_applies hcodec (hplan.distinct base edits hlookup) hrewrite
  have hcount := length_lt_of_planned hagree hplan.table hblob hbody hholds
  rw [BlobEdits.applyRows_masked hcount] at hstores
  -- the two readers find the same rows
  obtain ⟨file', hread, rfl⟩ := hagree body rows hholds
  simp only [Statement.fetch, hbody, hread] at hfile
  obtain rfl := Except.ok.inj hfile
  exact ⟨blob, p, base, edits, body, _, new, hfrom, hentry, hlookup, hhas, hdownloaded, hbody, hholds,
    by rwa [List.length_map], hstores, hswap⟩

/-- **Every edit goes to the row it was recorded for**, and no other row is edited, in every
run in which each row count and each read of the scan finds the blob with the etag it was
listed with, and edits are recorded for rows that their ctid leads back to. -/
theorem edits_applied_of_unchanged_reads {store : BlobStore} {ls : List StatementLabel}
    (run : Run (fun s l s' => Meets st s l ∧ Advances st s l s') (.initial store) ls s)
    {plan : ModifyPlan} {log : List StoreEvent} (hphase : s.phase = .committed plan log) :
    EditsApplied st s plan log := by
  have hinv : StatementInv st s := run.invariant (.initial store) fun _ _ _ h next =>
    h.step next.1 next.2
  obtain ⟨hplan, hdownloads, hpost⟩ := hinv.phase hphase
  exact ⟨fun r hr => (hplan.planned r hr).applied hcodec hagree hplan hdownloads hpost,
    hplan.no_other⟩

end Applied

end Run

/-! ### A table of small blobs -/

/-- An UPDATE or DELETE with no pushed qual on a table of flags. -/
def flagStatement : Statement where
  parquet := oneBatch
  read := readFlags
  codec := flagCodec
  cfg := flagColumn
  schema := [⟨"flag", .boolean, true⟩]
  compression := .snappy

/-- The batch of a blob of one row. -/
def flagBatch (name : String) (flag : Bool) : FileBatch String where
  source := name
  types := [.boolean]
  roots := [0]
  rows := [(⟨flagRow flag, rfl⟩, 0)]

/-- A scan before the `n`-th blob. -/
def scanBefore (blobs : List ListedBlob) (n : ℕ) (table : List BlobIdEntry) (base : UInt32)
    (rows : ℕ) (slot : List (Option Datum)) : ListScan String :=
  ⟨⟨blobs, n⟩, none, none, 0, table, base, rows, [], [], slot⟩

/-- What a row of a blob of one row is delivered as, by a scan with `k` ids given. -/
def flagDelivery (name : String) (flag : Bool) (k : ℕ) (etag : String) : DeliveredRow :=
  ⟨⟨(RowId.fromAbsolute (UInt32.ofNat k) 0).toCtid, [some (.bool flag)], flagBatch name flag, 0⟩,
    some etag⟩

theorem blobRowCount_flags {store : BlobStore} {name : String} {v : Version}
    (hv : store.blobs name = some v) :
    blobRowCount (flagStatement.fetch store) name = .ok v.body.length := by
  simp [blobRowCount, Statement.fetch, hv, flagStatement, readFlags, ParquetFile.numRows,
    ParquetFile.rows]

section OneRow

variable {P : StatementState → StatementLabel → Prop} {init s : StatementState}
  {ls : List StatementLabel} {plan : ModifyPlan} {blob : ListedBlob} {v : Version}

/-- An iteration that reads a blob as it is in the store. -/
theorem scan_again {st : Statement} {scan scan' : ListScan String}
    (run : Run (fun s l s' => P s l ∧ Advances st s l s') init ls s)
    (hphase : s.phase = .running plan scan) (hread : scan.readsBlob st.cfg = some blob)
    (hv : s.store.blobs blob.1 = some v)
    (hstep : nextRowStep st.cfg (openBlobOf st.parquet st.cfg (st.fetch s.store)) pullItem scan =
      .ok (.again scan')) (hP : P s .scan) :
    Run (fun s l s' => P s l ∧ Advances st s l s') init (ls ++ [.scan])
      { s with phase := .running plan scan', batchEtag := some v.etag } := by
  have hetag : s.etagRead st scan = some v.etag := by
    simp only [StatementState.etagRead, hread, hv, Option.map_some]
  have hreads : ReadsContent st s.store scan (openBlobOf st.parquet st.cfg (st.fetch s.store))
      pullItem := ⟨fun _ _ _ => rfl, fun _ _ _ _ _ => rfl⟩
  exact hetag ▸ run.snoc ⟨hP, .scan hphase hreads hstep⟩

/-- **The scan of a blob of one row**: it is opened, its batch is pulled, its row is
delivered, and its stream ends. -/
theorem scan_one_row {blobs : List ListedBlob} {n : ℕ} {table : List BlobIdEntry} {base : UInt32}
    {rows : ℕ} {x : Option Datum} {etag : String} {byte : UInt8}
    (run : Run (fun s l s' => P s l ∧ Advances flagStatement s l s') init ls s)
    (hphase : s.phase = .running plan (scanBefore blobs n table base rows [x]))
    (hblob : blobs[n]? = some blob) (hv : s.store.blobs blob.1 = some ⟨etag, [byte]⟩)
    (hP : ∀ t scan, t.store = s.store → t.phase = .running plan scan →
      (∀ b, scan.readsBlob flagColumn = some b → b = blob) → P t .scan) :
    ∃ ls', Run (fun s l s' => P s l ∧ Advances flagStatement s l s') init ls'
      { s with
        phase := .running plan (scanBefore blobs (n + 1) (table ++ [⟨blob.1, 0, blob.2⟩])
          (UInt32.ofNat table.length) 1 [some (.bool (byte == 1))])
        batchEtag := some etag
        delivered := s.delivered ++ [flagDelivery blob.1 (byte == 1) table.length etag] } := by
  let flag := byte == 1
  let batch := flagBatch blob.1 flag
  let openBlob := openBlobOf oneBatch flagColumn (flagStatement.fetch s.store)
  have hopen : openBlob blob.1 = .ok [.ok batch] := by
    have hfetch : flagStatement.fetch s.store blob.1 = readFlags [byte] := by
      simp only [Statement.fetch, hv, flagStatement]
    show openBlobOf oneBatch flagColumn (flagStatement.fetch s.store) blob.1 = _
    rw [openBlobOf, hfetch]
    rfl
  -- inside the blob, with `items` left in its stream and `cur` at row `row`
  let inside (emitted row : ℕ) (items : BatchStream) (cur : Option (FileBatch String))
      (slot : List (Option Datum)) : ListScan String :=
    ⟨⟨blobs, n + 1⟩, some items, cur, row, table ++ [⟨blob.1, 0, blob.2⟩],
      UInt32.ofNat table.length, emitted, [], [], slot⟩
  have hinside : ∀ {emitted row items cur slot}, (inside emitted row items cur slot).BatchDone →
      (inside emitted row items cur slot).readsBlob flagColumn = some blob :=
    fun hdone => (ScanState.readsBlob_of_stream hdone rfl).trans hblob
  have hP' : ∀ t scan, t.store = s.store → t.phase = .running plan scan →
      scan.readsBlob flagColumn = some blob → P t .scan := by
    intro t scan hstore hphase hread
    exact hP t scan hstore hphase fun b hb => Option.some.inj (hb.symm.trans hread)
  have hread₁ : (scanBefore blobs n table base rows [x]).readsBlob flagColumn = some blob :=
    ScanState.readsBlob_of_next (fun _ hb => by cases hb) rfl hblob rfl
  have hstep₁ : nextRowStep flagColumn openBlob pullItem (scanBefore blobs n table base rows [x]) =
      .ok (.again (inside 0 0 [.ok batch] none [x])) :=
    nextRowStep_of_enter rfl rfl hblob rfl hopen
  have run₁ := scan_again run hphase hread₁ hv hstep₁ (hP' _ _ rfl hphase hread₁)
  have hread₂ : (inside 0 0 [.ok batch] none [x]).readsBlob flagColumn = some blob :=
    hinside fun _ hb => by cases hb
  have hstep₂ : nextRowStep flagColumn openBlob pullItem (inside 0 0 [.ok batch] none [x]) =
      .ok (.again (inside 0 0 [] (some batch) [x])) := rfl
  have run₂ := scan_again run₁ rfl hread₂ hv hstep₂ (hP' _ _ rfl rfl hread₂)
  have hstep₃ : nextRowStep flagColumn openBlob pullItem (inside 0 0 [] (some batch) [x]) =
      .ok (.row batch 0 (inside 0 1 [] (some batch) [x])) := rfl
  have hstamp : stampRow flagColumn batch 0 (inside 0 1 [] (some batch) [x]) =
      .ok (_, inside 1 1 [] (some batch) [some (.bool flag)]) := rfl
  have hP₃ := hP { s with
    phase := .running plan (inside 0 0 [] (some batch) [x])
    batchEtag := some etag } _ rfl rfl (by rintro b ⟨⟩)
  have run₃ := run₂.snoc ⟨hP₃, .deliver rfl hstep₃ hstamp⟩
  have hread₄ : (inside 1 1 [] (some batch) [some (.bool flag)]).readsBlob flagColumn = some blob :=
    hinside fun b hb => Option.some.inj hb ▸ Nat.le_refl 1
  have hstep₄ : nextRowStep flagColumn openBlob pullItem
      (inside 1 1 [] (some batch) [some (.bool flag)]) =
        .ok (.again (scanBefore blobs (n + 1) (table ++ [⟨blob.1, 0, blob.2⟩])
          (UInt32.ofNat table.length) 1 [some (.bool flag)])) := rfl
  exact ⟨_, scan_again run₃ rfl hread₄ hv hstep₄ (hP' _ _ rfl rfl hread₄)⟩

/-- The requests of a commit that returns, as steps of the statement. -/
theorem run_commits {st : Statement} {program : StoreProgram Unit} {log es : List StoreEvent}
    {store' : BlobStore} (run : Run (fun s l s' => P s l ∧ Advances st s l s') init ls s)
    (hphase : s.phase = .committing plan program log)
    (exec : Exec Serves program s.store es store' (.ok ()))
    (hP : ∀ t, (∀ event, P t (.request event)) ∧ P t .commit) :
    ∃ ls', Run (fun s l s' => P s l ∧ Advances st s l s') init ls'
      { s with store := store', phase := .committed plan (log ++ es) } := by
  generalize hstore : s.store = store at exec
  generalize hresult : (Except.ok () : Except Failure Unit) = result at exec
  induction exec generalizing s ls log with
  | ret =>
    rw [List.append_nil, ← hstore]
    exact ⟨_, run.snoc ⟨(hP s).2, .commit hphase⟩⟩
  | fail => cases hresult
  | @request op next r w w₁ w' es result hanswer rest ih =>
    subst hstore
    obtain ⟨ls', run'⟩ := ih (run.snoc ⟨(hP s).1 _, .request hphase hanswer⟩) rfl rfl hresult
    rw [List.append_assoc] at run'
    exact ⟨ls', run'⟩

end OneRow

/-! ### A delete that is not disturbed -/

/-- A blob of two chunks, and two blobs of one row. -/
def threeBlobs : BlobStore :=
  .holding [("a", ⟨"0x1", List.replicate (chunkRows + 1) 1⟩), ("b", ⟨"0x2", [1]⟩), ("c", ⟨"0x3", [0]⟩)]

/-- The plan for the last two, before any edit. -/
def twoPlan : ModifyPlan where
  blobTable := [⟨"b", 0, "0x2"⟩, ⟨"c", 0, "0x3"⟩]
  edits := []
  schema := flagStatement.schema
  compression := .snappy
  editCount := 0

/-- The commit of a delete of the row of `c`. -/
theorem commitPlan_deleteC :
    Removes (commitPlan flagCodec (twoPlan.withEdit 1 0 .delete)) "c" ⟨"0x3", [0]⟩ :=
  ⟨_, _, rfl, rfl, rfl⟩

/-- Another client writes to `b` once its row was delivered: the delete of the row of `c`
is applied to it. -/
theorem delete_after_rewrite_of_other_blob : ∃ ls s plan log d,
    Run (fun s l s' => Meets flagStatement s l ∧ Advances flagStatement s l s')
      (.initial threeBlobs) ls s ∧ s.phase = .committed plan log ∧ s.recorded = [(d, .delete)] ∧
      d.From ("c", "0x3") 0 ∧ EditsApplied flagStatement s plan log := by
  let blobs : List ListedBlob := [("b", "0x2"), ("c", "0x3")]
  have hcurrent : ∀ blob ∈ blobs, threeBlobs.AtVersion blob := by
    simp [blobs, BlobStore.AtVersion, threeBlobs, BlobStore.holding, List.lookup_cons]
  have hcount : ∀ (blob : ListedBlob) (rest : List ListedBlob) (table : List BlobIdEntry),
      blob ∈ blobs → Meets flagStatement
        ⟨threeBlobs, threeBlobs, blobs, .counting (blob :: rest) table, none, [], []⟩ .count := by
    rintro blob rest table hblob _ _ _ ⟨⟩
    exact hcurrent blob hblob
  have hscan : ∀ blob ∈ blobs, ∀ t scan, t.store = threeBlobs → t.phase = .running twoPlan scan →
      (∀ b, scan.readsBlob flagColumn = some b → b = blob) → Meets flagStatement t .scan := by
    rintro blob hblob t scan hstore hphase hreads plan' scan' hphase' b hb
    obtain ⟨-, rfl⟩ := Phase.running.inj (hphase.symm.trans hphase')
    rw [hstore, hreads b hb]
    exact hcurrent blob hblob
  have run₁ : Run (fun s l s' => Meets flagStatement s l ∧ Advances flagStatement s l s')
      (.initial threeBlobs) [.list, .count, .count, .plan] ⟨threeBlobs, threeBlobs, blobs,
        .running twoPlan (scanBefore blobs 0 [] 0 0 [none]), none, [], []⟩ :=
    .cons ⟨trivial, .list rfl hcurrent (by decide)⟩ <|
    .cons ⟨hcount ("b", "0x2") _ _ (by simp [blobs]),
      .count rfl (fun _ => blobRowCount_flags rfl) rfl⟩ <|
    .cons ⟨hcount ("c", "0x3") _ _ (by simp [blobs]),
      .count rfl (fun _ => blobRowCount_flags rfl) rfl⟩ <|
    .cons ⟨trivial, .plan rfl⟩ .nil
  obtain ⟨ls₂, run₂⟩ := scan_one_row run₁ rfl rfl rfl
    (hscan ("b", "0x2") (by simp [blobs]))
  obtain ⟨ls₃, run₃⟩ := scan_one_row run₂ rfl rfl rfl
    (hscan ("c", "0x3") (by simp [blobs]))
  let d := flagDelivery "c" false 1 "0x3"
  have run₄ : Run (fun s l s' => Meets flagStatement s l ∧ Advances flagStatement s l s')
      (.initial threeBlobs) (ls₃ ++ [.other]) ⟨threeBlobs.write "b" ⟨"0x4", [0]⟩, threeBlobs, blobs,
        .running twoPlan (scanBefore blobs 2 twoPlan.blobTable 1 1 [some (.bool false)]), some "0x3",
        [flagDelivery "b" true 0 "0x2", d], []⟩ :=
    run₃.snoc ⟨trivial, .other (.write (by decide))⟩
  have hresolve : resolveToSource twoPlan.blobTable (RowId.fromCtid d.emission.ctid) =
      .ok (1, 0) := by decide
  have hrecord := recordEdit_of_resolves .delete (show twoPlan.editCount < maxEditsPerStatement by
    decide) hresolve
  have haddr : Addressable flagStatement ⟨threeBlobs.write "b" ⟨"0x4", [0]⟩, threeBlobs, blobs,
      .running twoPlan (scanBefore blobs 2 twoPlan.blobTable 1 1 [some (.bool false)]), some "0x3",
      [flagDelivery "b" true 0 "0x2", d], []⟩ d := by
    intro i blob p hblob hsource hp
    obtain rfl : 0 = p := Option.some.inj hp
    rcases i with _ | _ | i
    · obtain rfl := Option.some.inj hblob
      exact absurd (show "c" = "b" from hsource) (by decide)
    · refine ⟨fun j hj b hb => ?_, by simp, by decide⟩
      obtain rfl : j = 0 := by omega
      obtain rfl := Option.some.inj hb
      have hfetch : flagStatement.fetch threeBlobs "b" = readFlags [1] := rfl
      exact (scannedIds_eq_plannedIds_iff hfetch).mpr ⟨rfl, congrArg planChunks rfl⟩
    · cases hblob
  have run₅ := (run₄.snoc (l := StatementLabel.record d .delete)
    ⟨haddr, .record rfl (by simp) hrecord⟩).snoc (l := StatementLabel.finish) ⟨trivial, .finish rfl⟩
  obtain ⟨ls₆, run₆⟩ := run_commits run₅ rfl (commitPlan_deleteC.exec rfl)
    fun _ => ⟨fun _ => trivial, trivial⟩
  exact ⟨_, _, _, _, d, run₆, rfl, rfl, ⟨rfl, rfl, rfl⟩,
    edits_applied_of_unchanged_reads flagCodec_faithful readers_of_flags_agree run₆ rfl⟩

/-! ### A blob that shrinks between the count and the scan -/

/-- Their listing. -/
def threeListed : List ListedBlob := [("a", "0x1"), ("b", "0x2"), ("c", "0x3")]

/-- The plan before any edit. -/
def threePlan : ModifyPlan where
  blobTable := [⟨"a", 0, "0x1"⟩, ⟨"a", 65536, "0x1"⟩, ⟨"b", 0, "0x2"⟩, ⟨"c", 0, "0x3"⟩]
  edits := []
  schema := flagStatement.schema
  compression := .snappy
  editCount := 0

/-- The store once another client has written one row over the first blob. -/
def shrunkBlobs : BlobStore := threeBlobs.write "a" ⟨"0x4", [0]⟩

/-- The commit of a delete of the row of `b`. -/
theorem commitPlan_deleteB :
    Removes (commitPlan flagCodec (threePlan.withEdit 2 0 .delete)) "b" ⟨"0x2", [1]⟩ :=
  ⟨_, _, rfl, rfl, rfl⟩

/-- **An edit of a row of one blob goes to another blob.**  The first blob has two chunks
when its rows are counted, and one row when it is scanned.  The row of `c` is delivered
with the id that the plan gave to `b`; the delete recorded for it is committed against
`b`, which nobody has touched. -/
theorem shrunk_blob_misdirects_edit : ∃ ls s plan log d,
    Run (Advances flagStatement) (.initial threeBlobs) ls s ∧ s.phase = .committed plan log ∧
      s.recorded = [(d, .delete)] ∧ d.From ("c", "0x3") 0 ∧
      SwapConfirmed log "b" "0x2" none ∧ ¬ EditsApplied flagStatement s plan log := by
  let step (s : StatementState) (l : StatementLabel) (s' : StatementState) : Prop :=
    True ∧ Advances flagStatement s l s'
  have hcurrent : ∀ blob ∈ threeListed, threeBlobs.AtVersion blob := by
    simp [threeListed, BlobStore.AtVersion, threeBlobs, BlobStore.holding, List.lookup_cons]
  have hcount : blobRowCount (flagStatement.fetch threeBlobs) "a" = .ok (chunkRows + 1) := by
    have hv : threeBlobs.blobs "a" = some ⟨"0x1", List.replicate (chunkRows + 1) 1⟩ := rfl
    rw [blobRowCount_flags hv, List.length_replicate]
  have hentries : blobEntries ("a", "0x1") (chunkRows + 1) =
      .ok [⟨"a", 0, "0x1"⟩, ⟨"a", 65536, "0x1"⟩] := rfl
  -- the listing, the row counts, and the other client
  have run₁ : Run step (.initial threeBlobs) [.list, .count, .count, .count, .plan, .other]
      ⟨shrunkBlobs, threeBlobs, threeListed,
        .running threePlan (scanBefore threeListed 0 [] 0 0 [none]), none, [], []⟩ :=
    .cons ⟨trivial, .list rfl hcurrent (by decide)⟩ <|
    .cons ⟨trivial, .count rfl (fun _ => hcount) hentries⟩ <|
    .cons ⟨trivial, .count rfl (fun _ => blobRowCount_flags rfl) rfl⟩ <|
    .cons ⟨trivial, .count rfl (fun _ => blobRowCount_flags rfl) rfl⟩ <|
    .cons ⟨trivial, .plan rfl⟩ <| .cons ⟨trivial, .other (.write (by decide))⟩ .nil
  -- the scan of the three blobs, each of one row now
  obtain ⟨ls₂, run₂⟩ := scan_one_row run₁ rfl rfl rfl fun _ _ _ _ _ => trivial
  obtain ⟨ls₃, run₃⟩ := scan_one_row run₂ rfl rfl rfl
    fun _ _ _ _ _ => trivial
  obtain ⟨ls₄, run₄⟩ := scan_one_row run₃ rfl rfl rfl
    fun _ _ _ _ _ => trivial
  -- the edit of the row of `c`, and the commit
  let d := flagDelivery "c" false 2 "0x3"
  have hresolve : resolveToSource threePlan.blobTable (RowId.fromCtid d.emission.ctid) =
      .ok (2, 0) := by decide
  have hrecord := recordEdit_of_resolves .delete (show threePlan.editCount < maxEditsPerStatement by
    decide) hresolve
  have run₅ := (run₄.snoc ⟨trivial, .record rfl (List.mem_append_right _ (List.mem_singleton_self d))
    hrecord⟩).snoc (l := StatementLabel.finish) ⟨trivial, .finish rfl⟩
  obtain ⟨ls₆, run₆⟩ := run_commits run₅ rfl (commitPlan_deleteB.exec rfl)
    fun _ => ⟨fun _ => trivial, trivial⟩
  refine ⟨_, _, _, _, d, run₆.mono fun _ _ _ h => h.2, rfl, rfl, ⟨rfl, rfl, rfl⟩,
    .tail _ (List.mem_singleton_self _), ?_⟩
  intro happlied
  obtain ⟨blob, p, base, edits, -, -, -, ⟨hsource, -⟩, hentry, hlookup, -⟩ :=
    happlied.applied (d, .delete) (List.mem_singleton_self _)
  -- the only blob with edits is the one with the id 2, which is `b`
  have hbase : base = 2 := by
    by_contra hne
    rw [lookup_withEdit, if_neg hne] at hlookup
    cases hlookup
  subst hbase
  have hname : "b" = blob.1 := congrArg BlobIdEntry.name (Option.some.inj hentry)
  exact absurd (hname.trans hsource.symm) (by decide)

end ParquetAzureFdw
