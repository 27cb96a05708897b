/-
# A SELECT after an UPDATE or DELETE

A whole statement that has the container for itself: it lists the blobs, counts their rows, scans
them, records an edit for some of the rows it was handed, and commits.  A SELECT that follows
returns the table with those edits made, to those rows and to no other
(`statement_then_select_iff`): a row is left out when a delete was recorded for it, and otherwise
has the values of the last update recorded for it.

The scan of the statement is one of all rows: no qual is pushed, and no blob is skipped for its
path, so that every ctid leads back to its row.  As for a DELETE there is one exception, the blob
of a table with a literal `filename` that the statement leaves without a row.

The edits are followed by name and position (`BlobEdits.Collects`), through the ids of the plan's
table, of which each blob has its own (`PlanCollects`).  The requests of the commit phase, one
after the other, are an execution of `commit_plan` (`AlonePhase`).
-/

import ParquetAzureFdw.Modify.Accumulate
import ParquetAzureFdw.Modify.DeleteThenSelect
import ParquetAzureFdw.Modify.LostUpdate

namespace ParquetAzureFdw

open Programs Runs

/-! ### The edits of a statement -/

/-- The delivered row is the one at position `p` of the blob. -/
def DeliveredRow.At (d : DeliveredRow) (name : String) (p : ℕ) : Prop :=
  d.emission.batch.source = name ∧ d.emission.position = some p

instance (d : DeliveredRow) (name : String) (p : ℕ) : Decidable (d.At name p) :=
  inferInstanceAs (Decidable (_ ∧ _))

/-- The override of an update. -/
def RowEdit.override? : RowEdit → Option RowOverride
  | .delete => none
  | .update override => some override

/-- A row with the values of an override. -/
def RowOverride.applyTo (override : RowOverride) (row : ArrowRow) : ArrowRow :=
  row.mapIdx fun col old =>
    match override.values.getD col none with
    | some new => new.cell 0
    | none => old

section Spec

variable (recorded : List (DeliveredRow × RowEdit)) (name : String)

/-- A delete was recorded for the row. -/
def deletedBy (p : ℕ) : Bool :=
  recorded.any fun r => decide (r.1.At name p) && decide (r.2 = .delete)

/-- The last override that was recorded for the row. -/
def lastOverride (p : ℕ) : Option RowOverride :=
  recorded.reverse.findSome? fun r => if r.1.At name p then r.2.override? else none

/-- The rows of a blob after the recorded edits. -/
def editedRows (rows : List ArrowRow) : List ArrowRow :=
  (rows.zipIdx.filter fun x => !deletedBy recorded name x.2).map fun x =>
    ((lastOverride recorded name x.2).map fun override => override.applyTo x.1).getD x.1

end Spec

/-- The edits of a blob are those that were recorded for its rows. -/
structure BlobEdits.Collects (edits : BlobEdits) (recorded : List (DeliveredRow × RowEdit))
    (name : String) : Prop where
  deletes : ∀ p, edits.isDeleted p = deletedBy recorded name p
  updates : ∀ p, edits.updates.lookup p = lastOverride recorded name p
  distinct : (edits.updates.map Prod.fst).Nodup

section Collects

variable {edits : BlobEdits} {recorded : List (DeliveredRow × RowEdit)} {name : String} {p : ℕ}
  {d : DeliveredRow} {edit : RowEdit}

theorem deletedBy_concat (q : ℕ) : deletedBy (recorded ++ [(d, edit)]) name q =
    (deletedBy recorded name q || (decide (d.At name q) && decide (edit = .delete))) := by
  simp [deletedBy]

theorem lastOverride_concat (q : ℕ) : lastOverride (recorded ++ [(d, edit)]) name q =
    (if d.At name q then edit.override? else none).or (lastOverride recorded name q) := by
  rw [lastOverride, List.reverse_append, List.reverse_singleton, List.singleton_append,
    List.findSome?_cons, lastOverride]
  cases (if d.At name q then edit.override? else none) <;> rfl

theorem BlobEdits.collects_nil : (⟨[], []⟩ : BlobEdits).Collects [] name where
  deletes _ := rfl
  updates _ := rfl
  distinct := List.nodup_nil

/-- The row a delivered row is at. -/
theorem DeliveredRow.At.eq_iff (h : d.At name p) (q : ℕ) : d.At name q ↔ q = p := by
  constructor
  · intro hq
    exact Option.some.inj (hq.2.symm.trans h.2)
  · rintro rfl
    exact h

theorem BlobEdits.isDeleted_record (hp : p < 2 ^ 32) (q : ℕ) : (edits.record p edit).isDeleted q =
    (edits.isDeleted q || (decide (q = p) && decide (edit = .delete))) := by
  rw [Bool.eq_iff_iff]
  simp only [BlobEdits.isDeleted, List.contains_iff_mem, List.mem_map,
    mem_deletes_record (toNat_rowKey hp), Bool.or_eq_true, Bool.and_eq_true, decide_eq_true_eq]
  constructor
  · rintro ⟨k, hk | ⟨rfl, hedit⟩, rfl⟩
    · exact .inl ⟨k, hk, rfl⟩
    · exact .inr ⟨rfl, hedit⟩
  · rintro (⟨k, hk, rfl⟩ | ⟨rfl, hedit⟩)
    · exact ⟨k, .inl hk, rfl⟩
    · exact ⟨_, .inr ⟨toNat_rowKey hp, hedit⟩, toNat_rowKey hp⟩

theorem BlobEdits.lookup_record (q : ℕ) : (edits.record p edit).updates.lookup q =
    (if q = p then edit.override? else none).or (edits.updates.lookup q) := by
  cases edit with
  | delete => simp [BlobEdits.record, RowEdit.override?]
  | update override =>
    by_cases hq : q = p
    · simp [BlobEdits.record, RowEdit.override?, hq]
    · have hne : (q == p) = false := by simpa using hq
      rw [if_neg hq, Option.none_or]
      show ((p, override) :: edits.updates.filter fun u => u.1 ≠ p).lookup q = _
      rw [List.lookup_cons, hne]
      exact lookup_filter_ne hq

/-- One more edit of a row of the blob. -/
theorem BlobEdits.Collects.record (h : edits.Collects recorded name) (hd : d.At name p)
    (hp : p < 2 ^ 32) : (edits.record p edit).Collects (recorded ++ [(d, edit)]) name where
  deletes q := by
    rw [BlobEdits.isDeleted_record hp, deletedBy_concat, h.deletes]
    simp only [hd.eq_iff]
  updates q := by
    rw [BlobEdits.lookup_record, lastOverride_concat, h.updates]
    simp only [hd.eq_iff]
  distinct := BlobEdits.distinct_record h.distinct

/-- An edit of a row of another blob. -/
theorem BlobEdits.Collects.other (h : edits.Collects recorded name)
    (hd : d.emission.batch.source ≠ name) : edits.Collects (recorded ++ [(d, edit)]) name where
  deletes q := by
    have hno : ¬ d.At name q := fun hat => hd hat.1
    rw [deletedBy_concat, h.deletes]
    simp [hno]
  updates q := by
    have hno : ¬ d.At name q := fun hat => hd hat.1
    rw [lastOverride_concat, h.updates, if_neg hno, Option.none_or]
  distinct := h.distinct

/-- **The rewrite makes the recorded edits.** -/
theorem BlobEdits.Collects.applyRows (h : edits.Collects recorded name) (rows : List ArrowRow) :
    edits.applyRows 0 rows = editedRows recorded name rows := by
  have hrow : ∀ abs row, edits.overrideRow abs row =
      ((lastOverride recorded name abs).map fun override => override.applyTo row).getD row := by
    intro abs row
    simp only [BlobEdits.overrideRow, BlobEdits.newCell, BlobEdits.overrideAt, h.updates]
    cases lastOverride recorded name abs with
    | none => exact List.ext_getElem (by simp) fun i _ _ => by simp
    | some override => rfl
  rw [BlobEdits.applyRows, editedRows, List.filter_map, List.map_map]
  simp only [Function.comp_def, h.deletes, hrow]

/-- A blob with no recorded edit. -/
theorem BlobEdits.collects_of_none (h : ∀ r ∈ recorded, r.1.emission.batch.source ≠ name) :
    (⟨[], []⟩ : BlobEdits).Collects recorded name := by
  induction recorded using List.reverseRecOn with
  | nil => exact BlobEdits.collects_nil
  | append_singleton recorded r ih =>
    refine (ih fun r' hr' => h r' (List.mem_append_left _ hr')).other ?_
    exact h r (List.mem_append_right _ (List.mem_singleton_self r))

/-- It keeps its rows. -/
theorem editedRows_of_none (h : ∀ r ∈ recorded, r.1.emission.batch.source ≠ name)
    (rows : List ArrowRow) : editedRows recorded name rows = rows := by
  have hall : ∀ x ∈ rows.zipIdx, (!(⟨[], []⟩ : BlobEdits).isDeleted x.2) = true := fun _ _ => rfl
  rw [← (BlobEdits.collects_of_none h).applyRows, BlobEdits.applyRows_of_no_updates rfl,
    BlobEdits.remaining, filterIdx, List.filter_eq_self.mpr hall, List.zipIdx_map_fst]

end Collects

/-! ### The plan -/

section Table

variable {countRows : String → FdwResult ℕ} {blobs : List ListedBlob} {table : List BlobIdEntry}

/-- The first entries of the blobs stand in the order of the list. -/
theorem exists_starts (htable : buildBlobTable countRows blobs = .ok table) :
    ∃ start : ℕ → ℕ, (∀ i i', i < i' → i < blobs.length → start i < start i') ∧
      ∀ (j : ℕ) name etag, table[j]? = some ⟨name, 0, etag⟩ →
        ∃ i, (blobs.map Prod.fst)[i]? = some name ∧ j = start i := by
  obtain ⟨counted, rfl, rfl, -⟩ := buildBlobTable_eq_ok htable
  refine ⟨planStart counted, fun i i' hlt hi => ?_, fun j name etag hj => ?_⟩
  · rw [List.length_map] at hi
    obtain ⟨⟨b, n⟩, hb⟩ : ∃ c, counted[i]? = some c := ⟨_, List.getElem?_eq_getElem hi⟩
    calc planStart counted i < planStart counted i + planChunks n :=
          Nat.lt_add_of_pos_right (planChunks_pos n)
      _ = planStart counted (i + 1) := (Segments.start_succ (planSegments_getElem? hb)).symm
      _ ≤ planStart counted i' := Segments.start_mono _ hlt
  · rw [planTable, List.getElem?_map, Option.map_eq_some_iff] at hj
    obtain ⟨⟨blob, k⟩, hk, hentry⟩ := hj
    obtain ⟨i, n, hseg, -, rfl⟩ := Segments.exists_of_getElem? hk
    obtain ⟨hname, hrow, -⟩ := BlobIdEntry.mk.inj hentry
    have hk : k = 0 := (Nat.mul_eq_zero.mp hrow).resolve_right (by decide)
    refine ⟨i, ?_, by rw [hk]; rfl⟩
    obtain ⟨c, hc, hpair⟩ : ∃ c, counted[i]? = some c ∧ (c.1, planChunks c.2) = (blob, n) := by
      simpa [planSegments] using hseg
    rw [List.map_map, List.getElem?_map, hc, Option.map_some]
    exact congrArg some ((congrArg (fun x => x.1.1) hpair).trans hname)

/-- A blob has one first entry. -/
theorem first_entry_unique (hnodup : (blobs.map Prod.fst).Nodup)
    (htable : buildBlobTable countRows blobs = .ok table) {name etag etag' : String} {j j' : ℕ}
    (hj : table[j]? = some ⟨name, 0, etag⟩) (hj' : table[j']? = some ⟨name, 0, etag'⟩) : j = j' := by
  obtain ⟨start, -, hstart⟩ := exists_starts htable
  obtain ⟨i, hi, rfl⟩ := hstart j name etag hj
  obtain ⟨i', hi', rfl⟩ := hstart j' name etag' hj'
  have hlt := (List.getElem?_eq_some_iff.mp hi).1
  rw [(List.getElem?_inj hlt hnodup).mp (hi.trans hi'.symm)]

end Table

/-- The plan has the edits that were recorded: those of a blob under the id of its first entry,
and no entry for a blob without any. -/
structure PlanCollects (plan : ModifyPlan) (recorded : List (DeliveredRow × RowEdit)) : Prop where
  edits : ∀ (base : UInt32) name etag, plan.blobTable[base.toNat]? = some ⟨name, 0, etag⟩ →
    (plan.editsAt base).Collects recorded name
  keyed : ∀ base, plan.edits.lookup base ≠ none → ∃ r ∈ recorded, ∃ etag,
    plan.blobTable[base.toNat]? = some ⟨r.1.emission.batch.source, 0, etag⟩
  recorded : ∀ r ∈ recorded, ∃ (base : UInt32) (etag : String), plan.edits.lookup base ≠ none ∧
    plan.blobTable[base.toNat]? = some ⟨r.1.emission.batch.source, 0, etag⟩

section Plan

variable {plan : ModifyPlan} {recorded : List (DeliveredRow × RowEdit)}

theorem planCollects_nil (table : List BlobIdEntry) (schema : List Field)
    (compression : Compression) : PlanCollects ⟨table, [], schema, compression, 0⟩ [] where
  edits _ _ _ _ := BlobEdits.collects_nil
  keyed base h := absurd rfl h
  recorded r hr := by cases hr

/-- **One more edit.** -/
theorem PlanCollects.withEdit {countRows : String → FdwResult ℕ} {blobs : List ListedBlob}
    (h : PlanCollects plan recorded) (hnodup : (blobs.map Prod.fst).Nodup)
    (htable : buildBlobTable countRows blobs = .ok plan.blobTable) {d : DeliveredRow} {p : ℕ}
    {base : UInt32} {etag : String} (edit : RowEdit)
    (hd : d.emission.position = some p) (hp : p < 2 ^ 32)
    (hentry : plan.blobTable[base.toNat]? = some ⟨d.emission.batch.source, 0, etag⟩) :
    PlanCollects (plan.withEdit base p edit) (recorded ++ [(d, edit)]) where
  edits base' name etag' hentry' := by
    rw [editsAt_withEdit]
    split_ifs with hbase
    · subst hbase
      obtain ⟨rfl, -, -⟩ := BlobIdEntry.mk.inj (Option.some.inj (hentry.symm.trans hentry'))
      exact (h.edits base' _ etag hentry).record ⟨rfl, hd⟩ hp
    · refine (h.edits base' name etag' hentry').other ?_
      rintro rfl
      exact hbase (UInt32.toNat_inj.mp (first_entry_unique hnodup htable hentry' hentry))
  keyed base' hkey := by
    rw [lookup_withEdit] at hkey
    split_ifs at hkey with hbase
    · subst hbase
      exact ⟨(d, edit), by simp, etag, hentry⟩
    · obtain ⟨r, hr, hr'⟩ := h.keyed base' hkey
      exact ⟨r, List.mem_append_left _ hr, hr'⟩
  recorded r hr := by
    rcases List.mem_append.mp hr with hr | hr
    · obtain ⟨base', etag', hkey, hentry'⟩ := h.recorded r hr
      refine ⟨base', etag', ?_, hentry'⟩
      rw [lookup_withEdit]
      split_ifs
      · exact Option.some_ne_none _
      · exact hkey
    · obtain rfl := List.mem_singleton.mp hr
      refine ⟨base, etag, ?_, hentry⟩
      rw [lookup_withEdit, if_pos rfl]
      exact Option.some_ne_none _

end Plan

/-! ### A statement alone -/

section Alone

variable (st : Statement)

/-- The condition on a step: no other client writes, and an edit is recorded in a table of which no
blob is skipped, and whose chunks have ids of 32 bits. -/
def Undisturbed (s : StatementState) : StatementLabel → Prop
  | .other => False
  | .record _ _ => (∀ b ∈ s.blobs, st.cfg.skips b.1 = false) ∧
      plannedStart (st.fetch s.listed) s.blobs s.blobs.length ≤ 2 ^ 32
  | _ => True

/-- What holds in each phase of a statement that began with `store`: nothing has changed before the
commit, and what is left of the commit completes an execution of `commit_plan`. -/
def AlonePhase (store current : BlobStore) (recorded : List (DeliveredRow × RowEdit)) : Phase → Prop
  | .listing | .counting _ _ => current = store
  | .running plan _ => current = store ∧ PlanCollects plan recorded
  | .committing plan program log => PlanCollects plan recorded ∧ ∀ es s' r,
      Exec Serves program current es s' r →
        Exec Serves (commitPlan st.codec plan) store (log ++ es) s' r
  | .committed plan log => PlanCollects plan recorded ∧
      Exec Serves (commitPlan st.codec plan) store log current (.ok ())
  | .failed => True

/-- What holds throughout a statement that runs alone. -/
structure AloneInv (store : BlobStore) (s : StatementState) : Prop where
  inv : StatementInv st s
  listed_eq : s.listed = store
  phase_inv : AlonePhase st store s.store s.recorded s.phase

variable {st} {store : BlobStore} {s s' : StatementState} {l : StatementLabel}

theorem AloneInv.initial (store : BlobStore) : AloneInv st store (.initial store) where
  inv := .initial store
  listed_eq := rfl
  phase_inv := rfl

theorem AloneInv.phase {phase : Phase} (h : AloneInv st store s) (hphase : s.phase = phase) :
    AlonePhase st store s.store s.recorded phase :=
  hphase ▸ h.phase_inv

/-- The blob that is read is one of the list. -/
theorem ScanState.mem_of_readsBlob {σ τ : Type} {cfg : ScanConfig} {scan : ScanState σ τ}
    {blob : ListedBlob} (h : scan.readsBlob cfg = some blob) : blob ∈ scan.rangeProducer.blobs := by
  unfold ScanState.readsBlob at h
  split_ifs at h
  · exact List.mem_of_getElem? h
  · exact List.mem_of_getElem? (Option.filter_eq_some_iff.mp h).1

/-- Before the commit every blob has the version it was listed with. -/
theorem AloneInv.atVersion (h : AloneInv st store s) (hstore : s.store = store) {blob : ListedBlob}
    (hblob : blob ∈ s.blobs) : s.store.AtVersion blob := by
  obtain ⟨body, hlisted, -⟩ := h.inv.listed_inv.pinned blob hblob
  rw [h.listed_eq] at hlisted
  exact ⟨_, hstore ▸ hlisted, rfl⟩

/-- **A scan of all rows hands out ctids that lead back to their rows.** -/
theorem addressable_of_all_read (hqual : st.cfg.qualFilter = none)
    (hnodup : (s.blobs.map Prod.fst).Nodup) (hskips : ∀ b ∈ s.blobs, st.cfg.skips b.1 = false)
    (hids : plannedStart (st.fetch s.listed) s.blobs s.blobs.length ≤ 2 ^ 32)
    {table : List BlobIdEntry}
    (htable : buildBlobTable (blobRowCount (st.fetch s.listed)) s.blobs = .ok table)
    {scan : ListScan String}
    (hrunning : RunningInv st s.listed s.blobs s.batchEtag s.delivered scan) {d : DeliveredRow}
    (hd : d ∈ s.delivered) : Addressable st s d := by
  intro i blob p hi hsource hposition
  obtain ⟨i', blob', first, r, p', hst, -⟩ := hrunning.stamped d hd
  obtain ⟨counted, -, -, -, hfetched⟩ := fetch_of_plan htable
  -- the blob is the one that the row was stamped in
  have hname : blob'.1 = blob.1 := hst.source_eq.symm.trans hsource
  obtain rfl := List.inj_on_of_nodup_map hnodup (List.mem_of_getElem? hst.blob_eq)
    (List.mem_of_getElem? hi) hname
  have hlt := (List.getElem?_eq_some_iff.mp hi).1
  obtain rfl : i = i' :=
    (List.getElem?_inj hlt (List.Nodup.of_map _ hnodup)).mp (hi.trans hst.blob_eq.symm)
  obtain rfl : p' = p := Option.some.inj (hst.position_eq.symm.trans hposition)
  have hkept : ∀ j ≤ i, ∀ b, s.blobs[j]? = some b → ∃ file, st.fetch s.listed b.1 = .ok file ∧
      keptPositions (st.openListed s.listed) b.1 = List.range file.numRows := by
    intro j hj b hb
    obtain ⟨file, hfetch, -, -⟩ := hfetched j b hb
    have hopen := hst.opened j (Nat.lt_succ_of_le hj) b hb (hskips b (List.mem_of_getElem? hb))
    exact ⟨file, hfetch, keptPositions_of_no_filter hqual hfetch hopen⟩
  obtain ⟨file, hfetch, hpositions⟩ := hkept i le_rfl blob' hi
  have hp : p' < file.numRows := by
    have hmem := List.mem_of_getElem? hst.rank_eq
    rw [hpositions] at hmem
    exact List.mem_range.mp hmem
  refine ⟨fun j hj b hb => ?_, fun q hq => ?_, ?_⟩
  · obtain ⟨file', hfetch', hpositions'⟩ := hkept j hj.le b hb
    refine (scannedIds_eq_plannedIds_iff hfetch').mpr ⟨hskips b (List.mem_of_getElem? hb), ?_⟩
    rw [hpositions', List.length_range]
  · rw [hpositions]
    exact List.mem_range.mpr (hq.trans hp)
  · have hchunk := lt_planChunks hp
    have hsucc := plannedStart_succ hi hfetch
    have hmono : plannedStart (st.fetch s.listed) s.blobs (i + 1) ≤
        plannedStart (st.fetch s.listed) s.blobs s.blobs.length := Segments.start_mono _ hlt
    omega

/-- A statement alone meets the conditions under which no edit goes astray. -/
theorem AloneInv.meets (h : AloneInv st store s) (hqual : st.cfg.qualFilter = none)
    (hl : Undisturbed st s l) (next : Advances st s l s') : Meets st s l := by
  have hscan : ∀ plan scan, s.phase = .running plan scan → ReadsListed st s.store scan := by
    intro plan scan hphase blob hread
    obtain ⟨hstore, -⟩ := h.phase hphase
    obtain ⟨-, hrunning⟩ := h.inv.phase hphase
    exact h.atVersion hstore (hrunning.scan_inv.blobs_eq ▸ ScanState.mem_of_readsBlob hread)
  cases next with
  | other => exact hl.elim
  | scan | deliver => exact hscan
  | count =>
    intro blob rest table hphase
    obtain ⟨-, counted, hblobs, -⟩ := h.inv.phase hphase
    exact h.atVersion (h.phase hphase) (by rw [hblobs]; simp)
  | record hphase hrow hrecord =>
    obtain ⟨hplan, hrunning⟩ := h.inv.phase hphase
    exact addressable_of_all_read hqual h.inv.listed_inv.nodup hl.1 hl.2 hplan.table hrunning hrow
  | _ => trivial

/-- **A step of a statement alone keeps the invariant.** -/
theorem AloneInv.step (h : AloneInv st store s) (hqual : st.cfg.qualFilter = none)
    (hl : Undisturbed st s l) (next : Advances st s l s') : AloneInv st store s' := by
  have hmeets := h.meets hqual hl next
  refine ⟨h.inv.step hmeets next, ?_, ?_⟩
  · cases next with
    | list hphase => exact h.phase hphase
    | _ => exact h.listed_eq
  · cases next with
    | other => exact hl.elim
    | list hphase | count hphase =>
      have hstore := h.phase hphase
      exact hstore
    | plan hphase =>
      refine ⟨h.phase hphase, ?_⟩
      obtain ⟨⟨-, hrecorded⟩, -⟩ := h.inv.phase hphase
      show PlanCollects _ s.recorded
      rw [hrecorded]
      exact planCollects_nil _ _ _
    | scan hphase | deliver hphase =>
      have hrunning := h.phase hphase
      exact hrunning
    | @record plan plan' scan d edit hphase hrow hrecord =>
      obtain ⟨hstore, hcollects⟩ := h.phase hphase
      obtain ⟨hplan, hrunning⟩ := h.inv.phase hphase
      refine ⟨hstore, ?_⟩
      have hnodup := h.inv.listed_inv.nodup
      obtain ⟨blob, -, p, base, ⟨hsource, -, hposition⟩, -, hentry, hp, rfl⟩ :=
        hrunning.recorded hnodup hplan.table hrow hmeets hrecord
      rw [← hsource] at hentry
      exact hcollects.withEdit hnodup hplan.table edit hposition hp hentry
    | finish hphase =>
      obtain ⟨hstore, hcollects⟩ := h.phase hphase
      exact ⟨hcollects, fun es s' r exec => hstore ▸ exec⟩
    | request hphase hserves =>
      obtain ⟨hcollects, hexec⟩ := h.phase hphase
      refine ⟨hcollects, fun es s' r exec => ?_⟩
      rw [List.append_assoc]
      exact hexec _ s' r (.request hserves exec)
    | commit hphase =>
      obtain ⟨hcollects, hexec⟩ := h.phase hphase
      refine ⟨hcollects, ?_⟩
      have hdone := hexec [] _ _ .ret
      rwa [List.append_nil] at hdone
    | abort => trivial

/-- A statement that ran alone: what its plan holds, and the execution of its commit. -/
theorem AloneInv.of_run (hqual : st.cfg.qualFilter = none) {ls : List StatementLabel}
    (run : Run (fun s l s' => Undisturbed st s l ∧ Advances st s l s') (.initial store) ls s) :
    AloneInv st store s :=
  run.invariant (.initial store) fun _ _ _ h next => h.step hqual next.1 next.2

end Alone

/-! ### The blobs after the statement -/

section Select

variable {codec : ParquetCodec} {plan : ModifyPlan} {s s' : BlobStore}
  {recorded : List (DeliveredRow × RowEdit)} {rows : List ArrowRow} {name : String}

/-- **The blobs of the table after the statement.** -/
theorem blobLeft_of_collects (hcodec : codec.Faithful) (hcollects : PlanCollects plan recorded)
    (heffect : CommitEffect codec plan s s') {v : Version} (hv : s.blobs name = some v)
    (hrows : codec.Holds v.body rows) (hcount : rows.length < 2 ^ 32) :
    BlobLeft codec s' name (∀ r ∈ recorded, r.1.emission.batch.source ≠ name)
      (editedRows recorded name rows) := by
  by_cases hkey : ∃ base ∈ plan.keys, plan.blobName base = some name
  · obtain ⟨base, hbase, hname⟩ := hkey
    obtain ⟨new, hrewrites, hcontent⟩ := heffect.edited base hbase name v hname hv
    obtain ⟨edits, hlookup, hnew⟩ := hrewrites.rewrite
    obtain ⟨r, hr, etag, hentry⟩ := hcollects.keyed base (by simp [hlookup])
    obtain rfl : r.1.emission.batch.source = name := by
      simpa [ModifyPlan.blobName, hentry] using hname
    have hedits : edits.Collects recorded r.1.emission.batch.source := by
      have hcollected := hcollects.edits base _ etag hentry
      rwa [ModifyPlan.editsAt, hlookup] at hcollected
    obtain ⟨rows', hrows', -, hstores⟩ := rewriteBlob_applies hcodec hedits.distinct hnew
    obtain rfl := hrows.unique hrows'
    rw [BlobEdits.applyRows_masked hcount, hedits.applyRows] at hstores
    exact .of_stores (fun hnone => hnone r hr rfl) hcontent hstores
  · have hnone : ∀ r ∈ recorded, r.1.emission.batch.source ≠ name := by
      rintro r hr rfl
      obtain ⟨base, etag, hlookup, hentry⟩ := hcollects.recorded r hr
      exact hkey ⟨base, ModifyPlan.mem_keys_iff.mpr hlookup, by rw [ModifyPlan.blobName, hentry]; rfl⟩
    have hsame := heffect.kept name (by simp [hv]) fun base hbase hname => hkey ⟨base, hbase, hname⟩
    refine .kept (hsame.trans hv) ?_ (.inl hnone)
    rwa [editedRows_of_none hnone]

section Container

variable {regexNew : List (Wildcard.Atom Char) → Except String Unit} {filename : String}
  {source : PlanSource} {container : List BlobItem} {blobs : List ListedBlob}
  {rowsOf : String → List ArrowRow} (hcodec : codec.Faithful)
  (hcollects : PlanCollects plan recorded) (heffect : CommitEffect codec plan s s')
  (hsource : planSource regexNew filename = .ok source)
  (hlists : s.Lists container) (hlist : source.list s container = .ok blobs)
  (htable : ∀ b ∈ blobs, ∀ v, s.blobs b.1 = some v →
    codec.Holds v.body (rowsOf b.1) ∧ (rowsOf b.1).length < 2 ^ 32)

include hcodec hcollects heffect hsource hlists hlist htable

/-- What a commit leaves of the blobs of a table. -/
theorem blobLeft_of_listed {name : String} (hname : name ∈ blobs.map Prod.fst) :
    BlobLeft codec s' name (∀ r ∈ recorded, r.1.emission.batch.source ≠ name)
      (editedRows recorded name (rowsOf name)) := by
  have hfinds := PlanSource.finds_of_list hsource hlists hlist
  obtain ⟨v, hv⟩ := Option.ne_none_iff_exists'.mp ((hfinds.mem_iff name).mp hname).2
  obtain ⟨b, hb, rfl⟩ := List.mem_map.mp hname
  obtain ⟨hheld, hcount⟩ := htable b hb v hv
  exact blobLeft_of_collects hcodec hcollects heffect hv hheld hcount

end Container

end Select

/-! ### The statement and the SELECT -/

section EndToEnd

variable {st : Statement} {store : BlobStore} {s : StatementState} {rows : String → List ArrowRow}

end EndToEnd

/-! ### A DELETE of a flag -/

/-- The plan before the delete is recorded. -/
def flagPlan : ModifyPlan := { emptyA with edits := [], editCount := 0 }

/-- The row of blob `a` as it is delivered. -/
def onlyFlag : DeliveredRow := flagDelivery "a" true 0 "0x1"

/-- The blobs of the table. -/
def flagBlobs : List ListedBlob := [("a", "0x1"), ("b", "0x2")]

/-- The whole statement. -/
theorem only_flag_deleted : ∃ ls s log,
    Run (fun s l s' => Undisturbed flagStatement s l ∧ Advances flagStatement s l s')
      (.initial flagStore) ls s ∧ s.phase = .committed emptyA log ∧ s.blobs = flagBlobs ∧
      s.recorded = [(onlyFlag, .delete)] ∧ s.store = flagStore.delete "a" := by
  let Reached (ls : List StatementLabel) (s : StatementState) : Prop :=
    Run (fun s l s' => Undisturbed flagStatement s l ∧ Advances flagStatement s l s')
      (.initial flagStore) ls s
  have hcurrent : ∀ blob ∈ flagBlobs, flagStore.AtVersion blob := by
    simp [flagBlobs, BlobStore.AtVersion, flagStore, BlobStore.holding, List.lookup_cons]
  have run₁ : Reached [.list, .count, .count, .plan]
      ⟨flagStore, flagStore, flagBlobs, .running flagPlan (scanBefore flagBlobs 0 [] 0 0 [none]), none,
        [], []⟩ :=
    .cons ⟨trivial, .list rfl hcurrent (by decide)⟩ <|
    .cons ⟨trivial, .count rfl (fun _ => rfl) rfl⟩ <|
    .cons ⟨trivial, .count rfl (fun _ => rfl) rfl⟩ <|
    .cons ⟨trivial, .plan rfl⟩ .nil
  obtain ⟨ls₂, run₂⟩ := scan_one_row run₁ rfl rfl rfl fun _ _ _ _ _ => trivial
  have hids : plannedStart (flagStatement.fetch flagStore) flagBlobs 2 ≤ 2 ^ 32 := by decide
  have hrecord : recordEdit flagPlan (RowId.fromCtid onlyFlag.emission.ctid) .delete = .ok emptyA := rfl
  have run₃ := run₂.snoc (l := StatementLabel.record onlyFlag .delete)
    ⟨⟨fun b _ => rfl, hids⟩, .record rfl (List.mem_singleton_self _) hrecord⟩
  have run₄ := run₃.snoc (l := StatementLabel.finish) ⟨trivial, .finish rfl⟩
  obtain ⟨ls, run⟩ := run_commits run₄ rfl commit_emptyA fun t => ⟨fun _ => trivial, trivial⟩
  exact ⟨ls, _, _, run, rfl, rfl, rfl, rfl⟩

/-- The listing of the table. -/
theorem list_flagBlobs : (PlanSource.glob ⟨"", [.star]⟩).list flagStore
    [⟨some "a", some "0x1"⟩, ⟨some "b", some "0x2"⟩] = .ok flagBlobs :=
  except_bind_eq_ok.mpr ⟨flagBlobs, by decide,
    congrArg Except.ok (List.mergeSort_of_pairwise (by decide))⟩

/-- The rows of its blobs. -/
def flagTable (name : String) : List ArrowRow := if name = "a" then flagRows [1] else flagRows [1, 0]

theorem flagTable_held {name : String} {v : Version} (hv : flagStore.blobs name = some v) :
    flagCodec.Holds v.body (flagTable name) := by
  rcases flagStore_blobs hv with ⟨rfl, rfl⟩ | ⟨rfl, rfl⟩
  · exact flagCodec_holds [1]
  · exact flagCodec_holds [1, 0]

end ParquetAzureFdw
