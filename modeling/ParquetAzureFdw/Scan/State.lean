/-
# The sequential scan

`next_row` and `iterate_foreign_scan` of `src/fdw/scan.rs`, in sequential mode:
the loop that walks the blobs of the list, skips those whose path does not carry
the partition values, opens a stream over each of the others and hands out its
rows one by one; and the filling of the executor's slot, with the row's synthetic
ctid.

One iteration of the loop is `nextRowStep`, over an arbitrary kind of stream; its
cases are those of `Iterates`.  `nextRow` is the loop over streams that are lists
of batches: it ends, since each iteration that goes on consumes a blob or an item
of the stream.
-/

import ParquetAzureFdw.Modify.BlobTable
import ParquetAzureFdw.Partition.Path
import ParquetAzureFdw.Scan.Stream

namespace ParquetAzureFdw

/-- `SequentialRanges`. -/
structure SequentialRanges where
  blobs : List ListedBlob
  cursor : ℕ
  deriving DecidableEq, Repr

/-- `SequentialRanges::next_blob`. -/
def SequentialRanges.nextBlob (r : SequentialRanges) : Option ListedBlob × SequentialRanges :=
  match r.blobs[r.cursor]? with
  | none => (none, r)
  | some blob => (some blob, { r with cursor := r.cursor + 1 })

/-- The fields of `ScanState` that a scan never changes. -/
structure ScanConfig where
  ext : Externals
  pgOids : List Oid
  projection : Option (List ℕ)
  attnoMap : List ℕ
  qualFilter : Option (List PushedExpr)
  partitionAttnums : List ℕ
  partitionKeysDecl : List (String × PgPartitionType)

/-- The other fields of `ScanState`, over streams `σ` and batches marked with `τ`;
the notices raised so far; and the executor's slot. -/
structure ScanState (σ τ : Type) where
  rangeProducer : SequentialRanges
  curStream : Option σ
  curBatch : Option (FileBatch τ)
  curRow : ℕ
  blobIdTable : List BlobIdEntry
  curBlobBaseId : UInt32
  curRowInBlob : ℕ
  partitionDatumsForCurrentBlob : List Datum
  notices : List String
  slot : List (Option Datum)

/-- The state that `build_state` leaves for a list of blobs. -/
def ScanState.initial {σ τ : Type} (blobs : List ListedBlob) (natts : ℕ) : ScanState σ τ where
  rangeProducer := ⟨blobs, 0⟩
  curStream := none
  curBatch := none
  curRow := 0
  blobIdTable := []
  curBlobBaseId := 0
  curRowInBlob := 0
  partitionDatumsForCurrentBlob := []
  notices := []
  slot := List.replicate natts none

/-! ### The next row -/

/-- What `stream.next()` returns. -/
inductive Pulled (σ τ : Type) where
  | batch (b : FileBatch τ) (rest : σ)
  | failed (f : Failure)
  | ended

/-- How an iteration of the loop of `next_row` ends. -/
inductive Iteration (σ τ : Type) where
  | row (batch : FileBatch τ) (row : ℕ) (s : ScanState σ τ)
  | again (s : ScanState σ τ)
  | done (s : ScanState σ τ)

section NextRow

variable {σ τ : Type} (cfg : ScanConfig) (openBlob : String → Outcome σ) (pull : σ → Pulled σ τ)

/-- A batch with no row left is dropped. -/
def ScanState.dropBatch (s : ScanState σ τ) : ScanState σ τ :=
  if s.curBatch.isSome then { s with curBatch := none, curRow := 0 } else s

/-- The end of an iteration that opens a blob. -/
def enterBlob (s : ScanState σ τ) (blob : ListedBlob) : Outcome (Iteration σ τ) := do
  let stream ← openBlob blob.1
  return .again { s with
    curBlobBaseId := UInt32.ofNat s.blobIdTable.length
    blobIdTable := s.blobIdTable ++ [⟨blob.1, 0, blob.2⟩]
    curRowInBlob := 0
    curStream := some stream }

/-- The part of an iteration that takes the next blob of the list. -/
def takeBlob (s : ScanState σ τ) : Outcome (Iteration σ τ) :=
  match s.rangeProducer.nextBlob with
  | (none, _) => .ok (.done s)
  | (some blob, ranges) =>
    if cfg.partitionKeysDecl.isEmpty then enterBlob openBlob { s with rangeProducer := ranges } blob
    else
      match partitionDatums cfg.ext cfg.partitionKeysDecl blob.1 with
      | .error f => .error f
      | .ok (.error notice) =>
        .ok (.again { s with rangeProducer := ranges, notices := s.notices ++ [notice] })
      | .ok (.ok datums) =>
        enterBlob openBlob
          { s with rangeProducer := ranges, partitionDatumsForCurrentBlob := datums } blob

/-- One iteration of the loop of `next_row`. -/
def nextRowStep (s : ScanState σ τ) : Outcome (Iteration σ τ) :=
  match s.curBatch.filter fun b => s.curRow < b.batch.numRows with
  | some batch => .ok (.row batch s.curRow { s with curRow := s.curRow + 1 })
  | none =>
    match s.curStream with
    | some stream =>
      match pull stream with
      | .batch b rest => .ok (.again { s.dropBatch with curBatch := some b, curStream := some rest })
      | .failed f => .error f
      | .ended => .ok (.again { s.dropBatch with curStream := none })
    | none => takeBlob cfg openBlob s.dropBatch

/-- Whether the scan skips a blob, for its path. -/
def ScanConfig.skips (cfg : ScanConfig) (blob : String) : Bool :=
  !cfg.partitionKeysDecl.isEmpty &&
    match partitionDatums cfg.ext cfg.partitionKeysDecl blob with
    | .ok (.error _) => true
    | _ => false

/-- The datums that the scan has when it has opened a blob. -/
def ScanConfig.DatumsFor (cfg : ScanConfig) (blob : String) (old datums : List Datum) : Prop :=
  if cfg.partitionKeysDecl.isEmpty then datums = old
  else partitionDatums cfg.ext cfg.partitionKeysDecl blob = .ok (.ok datums)

/-- The cases of an iteration that takes the next blob. -/
inductive Takes (s : ScanState σ τ) : Iteration σ τ → Prop
  | exhausted (hnone : s.rangeProducer.blobs[s.rangeProducer.cursor]? = none) : Takes s (.done s)
  | skipped {blob : ListedBlob} {notice : String}
      (hblob : s.rangeProducer.blobs[s.rangeProducer.cursor]? = some blob)
      (hskip : cfg.skips blob.1 = true) :
      Takes s (.again { s with
        rangeProducer := { s.rangeProducer with cursor := s.rangeProducer.cursor + 1 }
        notices := s.notices ++ [notice] })
  | entered {blob : ListedBlob} {datums : List Datum} {stream : σ}
      (hblob : s.rangeProducer.blobs[s.rangeProducer.cursor]? = some blob)
      (hskip : cfg.skips blob.1 = false)
      (hdatums : cfg.DatumsFor blob.1 s.partitionDatumsForCurrentBlob datums)
      (hopen : openBlob blob.1 = .ok stream) :
      Takes s (.again { s with
        rangeProducer := { s.rangeProducer with cursor := s.rangeProducer.cursor + 1 }
        partitionDatumsForCurrentBlob := datums
        curBlobBaseId := UInt32.ofNat s.blobIdTable.length
        blobIdTable := s.blobIdTable ++ [⟨blob.1, 0, blob.2⟩]
        curRowInBlob := 0
        curStream := some stream })

/-- No row is left in the current batch. -/
def ScanState.BatchDone (s : ScanState σ τ) : Prop :=
  ∀ b, s.curBatch = some b → b.batch.numRows ≤ s.curRow

/-- The cases of an iteration. -/
inductive Iterates (s : ScanState σ τ) : Iteration σ τ → Prop
  | row {b : FileBatch τ} (hbatch : s.curBatch = some b) (hrow : s.curRow < b.batch.numRows) :
      Iterates s (.row b s.curRow { s with curRow := s.curRow + 1 })
  | pulled {stream rest : σ} {b : FileBatch τ} (hbatch : s.BatchDone)
      (hstream : s.curStream = some stream) (hpull : pull stream = .batch b rest) :
      Iterates s (.again { s.dropBatch with curBatch := some b, curStream := some rest })
  | ended {stream : σ} (hbatch : s.BatchDone) (hstream : s.curStream = some stream)
      (hpull : pull stream = .ended) : Iterates s (.again { s.dropBatch with curStream := none })
  | took {it : Iteration σ τ} (hbatch : s.BatchDone) (hstream : s.curStream = none)
      (htakes : Takes cfg openBlob s.dropBatch it) : Iterates s it

variable {cfg openBlob pull} {s : ScanState σ τ} {it : Iteration σ τ}

/-- Dropping a batch leaves none, and the row cursor at zero. -/
theorem ScanState.dropBatch_eq (h : s.curBatch = none → s.curRow = 0) :
    s.dropBatch = { s with curBatch := none, curRow := 0 } := by
  unfold ScanState.dropBatch
  cases hbatch : s.curBatch with
  | none => simp [← hbatch, ← h hbatch]
  | some b => rfl

theorem takeBlob_takes (h : takeBlob cfg openBlob s = .ok it) : Takes cfg openBlob s it := by
  unfold takeBlob SequentialRanges.nextBlob at h
  cases hblob : s.rangeProducer.blobs[s.rangeProducer.cursor]? with
  | none =>
    rw [hblob] at h
    obtain rfl := Except.ok.inj h
    exact .exhausted hblob
  | some blob =>
    simp only [hblob] at h
    split_ifs at h with hdecl
    · obtain ⟨stream, hopen, h⟩ := except_bind_eq_ok.mp h
      obtain rfl := Except.ok.inj h
      exact .entered hblob (by simp only [ScanConfig.skips, hdecl, Bool.not_true, Bool.false_and])
        (by rw [ScanConfig.DatumsFor, if_pos hdecl]) hopen
    · cases hread : partitionDatums cfg.ext cfg.partitionKeysDecl blob.1 with
      | error f => simp [hread] at h
      | ok read =>
        cases read with
        | error notice =>
          simp only [hread] at h
          obtain rfl := Except.ok.inj h
          exact .skipped hblob (by simp [ScanConfig.skips, hdecl, hread])
        | ok datums =>
          simp only [hread] at h
          obtain ⟨stream, hopen, h⟩ := except_bind_eq_ok.mp h
          obtain rfl := Except.ok.inj h
          exact .entered hblob (by simp [ScanConfig.skips, hread])
            (by rw [ScanConfig.DatumsFor, if_neg hdecl, hread]) hopen

/-- **What an iteration can do.** -/
theorem nextRowStep_iterates (h : nextRowStep cfg openBlob pull s = .ok it) :
    Iterates cfg openBlob pull s it := by
  unfold nextRowStep at h
  cases hfilter : s.curBatch.filter fun b => s.curRow < b.batch.numRows with
  | some b =>
    rw [hfilter] at h
    obtain rfl := Except.ok.inj h
    obtain ⟨hbatch, hrow⟩ := Option.filter_eq_some_iff.mp hfilter
    exact .row hbatch (by simpa using hrow)
  | none =>
    have hbatch : s.BatchDone := by
      intro b hb
      simpa using Option.filter_eq_none_iff.mp hfilter b hb
    simp only [hfilter] at h
    cases hstream : s.curStream with
    | none =>
      rw [hstream] at h
      exact .took hbatch hstream (takeBlob_takes h)
    | some stream =>
      simp only [hstream] at h
      cases hpull : pull stream with
      | batch b rest =>
        rw [hpull] at h
        obtain rfl := Except.ok.inj h
        exact .pulled hbatch hstream hpull
      | failed f => simp [hpull] at h
      | ended =>
        rw [hpull] at h
        obtain rfl := Except.ok.inj h
        exact .ended hbatch hstream hpull

/-- An iteration that skips a blob. -/
theorem nextRowStep_of_skip {blob : ListedBlob} {notice : String} (hbatch : s.curBatch = none)
    (hstream : s.curStream = none)
    (hblob : s.rangeProducer.blobs[s.rangeProducer.cursor]? = some blob)
    (hkeys : cfg.partitionKeysDecl.isEmpty = false)
    (hread : partitionDatums cfg.ext cfg.partitionKeysDecl blob.1 = .ok (.error notice)) :
    nextRowStep cfg openBlob pull s = .ok (.again { s with
      rangeProducer := { s.rangeProducer with cursor := s.rangeProducer.cursor + 1 }
      notices := s.notices ++ [notice] }) := by
  have hdrop : s.dropBatch = s := by simp [ScanState.dropBatch, hbatch]
  simp [nextRowStep, hbatch, hstream, hdrop, takeBlob, SequentialRanges.nextBlob, hblob, hkeys, hread]

/-- An iteration that opens a blob. -/
theorem nextRowStep_of_enter {blob : ListedBlob} {datums : List Datum} {stream : σ}
    (hbatch : s.curBatch = none) (hstream : s.curStream = none)
    (hblob : s.rangeProducer.blobs[s.rangeProducer.cursor]? = some blob)
    (hdatums : cfg.DatumsFor blob.1 s.partitionDatumsForCurrentBlob datums)
    (hopen : openBlob blob.1 = .ok stream) :
    nextRowStep cfg openBlob pull s = .ok (.again { s with
      rangeProducer := { s.rangeProducer with cursor := s.rangeProducer.cursor + 1 }
      partitionDatumsForCurrentBlob := datums
      curBlobBaseId := UInt32.ofNat s.blobIdTable.length
      blobIdTable := s.blobIdTable ++ [⟨blob.1, 0, blob.2⟩]
      curRowInBlob := 0
      curStream := some stream }) := by
  have hdrop : s.dropBatch = s := by simp [ScanState.dropBatch, hbatch]
  rw [ScanConfig.DatumsFor] at hdatums
  split_ifs at hdatums with hkeys <;>
    simp [nextRowStep, hbatch, hstream, hdrop, takeBlob, SequentialRanges.nextBlob, hblob, hkeys,
      hdatums, enterBlob, hopen, bind, Except.bind, pure, Except.pure]

end NextRow

/-! ### The loop -/

section Loop

variable {τ : Type} (cfg : ScanConfig) (openBlob : String → Outcome (List (Outcome (FileBatch τ))))

/-- A scan over streams that are lists of batches. -/
abbrev ListScan (τ : Type) := ScanState (List (Outcome (FileBatch τ))) τ

/-- `next` of a stream that is a list. -/
def pullItem : List (Outcome (FileBatch τ)) → Pulled (List (Outcome (FileBatch τ))) τ
  | [] => .ended
  | .ok b :: rest => .batch b rest
  | .error f :: _ => .failed f

theorem pullItem_eq_batch {items rest : List (Outcome (FileBatch τ))} {b : FileBatch τ}
    (h : pullItem items = .batch b rest) : items = .ok b :: rest := by
  cases items with
  | nil => cases h
  | cons item items =>
    cases item <;> cases h
    rfl

theorem pullItem_eq_ended {items : List (Outcome (FileBatch τ))} (h : pullItem items = .ended) :
    items = [] := by
  cases items with
  | nil => rfl
  | cons item items => cases item <;> cases h

/-- The blobs that are left. -/
def ScanState.blobsLeft {σ : Type} (s : ScanState σ τ) : ℕ :=
  s.rangeProducer.blobs.length - s.rangeProducer.cursor

/-- The items, and the end, that are left in the current stream. -/
def ScanState.itemsLeft (s : ListScan τ) : ℕ :=
  match s.curStream with
  | none => 0
  | some items => items.length + 1

@[simp] theorem ScanState.dropBatch_rangeProducer {σ : Type} (s : ScanState σ τ) :
    s.dropBatch.rangeProducer = s.rangeProducer := by
  unfold ScanState.dropBatch; split <;> rfl

/-- An iteration that goes on has consumed a blob or an item. -/
theorem work_decreases {s s' : ListScan τ}
    (h : nextRowStep cfg openBlob pullItem s = .ok (.again s')) :
    Prod.Lex (· < ·) (· < ·) (s'.blobsLeft, s'.itemsLeft) (s.blobsLeft, s.itemsLeft) := by
  -- Only taking a blob moves the cursor; the other two shorten the stream.
  cases nextRowStep_iterates h with
  | @pulled stream rest b hbatch hstream hpull =>
    have hblobs : ({ s.dropBatch with curBatch := some b, curStream := some rest } :
        ListScan τ).blobsLeft = s.blobsLeft := by
      simp only [ScanState.blobsLeft, ScanState.dropBatch_rangeProducer]
    rw [hblobs]
    refine Prod.Lex.right _ ?_
    simp [ScanState.itemsLeft, hstream, pullItem_eq_batch hpull]
  | ended hbatch hstream hpull =>
    have hblobs : ({ s.dropBatch with curStream := none } : ListScan τ).blobsLeft =
        s.blobsLeft := by
      simp only [ScanState.blobsLeft, ScanState.dropBatch_rangeProducer]
    rw [hblobs]
    refine Prod.Lex.right _ ?_
    simp [ScanState.itemsLeft, hstream]
  | took hbatch hstream htakes =>
    have hlt : ∀ blob, s.dropBatch.rangeProducer.blobs[s.dropBatch.rangeProducer.cursor]? =
        some blob → s.dropBatch.rangeProducer.cursor < s.dropBatch.rangeProducer.blobs.length :=
      fun blob hblob => (List.getElem?_eq_some_iff.mp hblob).1
    refine Prod.Lex.left _ _ ?_
    rw [ScanState.blobsLeft, ScanState.blobsLeft, ← ScanState.dropBatch_rangeProducer s]
    cases htakes with
    | skipped hblob hskip => exact Nat.sub_succ_lt_self _ _ (hlt _ hblob)
    | entered hblob hskip hdatums hopen => exact Nat.sub_succ_lt_self _ _ (hlt _ hblob)

/-- `next_row`. -/
def nextRow (s : ListScan τ) : Outcome (Option (FileBatch τ × ℕ) × ListScan τ) :=
  match _h : nextRowStep cfg openBlob pullItem s with
  | .error f => .error f
  | .ok (.row batch row s') => .ok (some (batch, row), s')
  | .ok (.done s') => .ok (none, s')
  | .ok (.again s') => nextRow s'
termination_by (s.blobsLeft, s.itemsLeft)
decreasing_by exact work_decreases cfg openBlob ‹_›

section Unfold

variable {cfg openBlob} {s s' : ListScan τ}

theorem nextRow_of_error {f : Failure} (h : nextRowStep cfg openBlob pullItem s = .error f) :
    nextRow cfg openBlob s = .error f := by
  rw [nextRow]
  split <;> simp_all

theorem nextRow_of_row {batch : FileBatch τ} {row : ℕ}
    (h : nextRowStep cfg openBlob pullItem s = .ok (.row batch row s')) :
    nextRow cfg openBlob s = .ok (some (batch, row), s') := by
  rw [nextRow]
  split <;> simp_all

theorem nextRow_of_done (h : nextRowStep cfg openBlob pullItem s = .ok (.done s')) :
    nextRow cfg openBlob s = .ok (none, s') := by
  rw [nextRow]
  split <;> simp_all

theorem nextRow_of_again (h : nextRowStep cfg openBlob pullItem s = .ok (.again s')) :
    nextRow cfg openBlob s = nextRow cfg openBlob s' := by
  rw [nextRow]
  split <;> simp_all

end Unfold

/-- Induction on the iterations of `next_row`: from a state `s`, it suffices to go
through one iteration. -/
theorem nextRow_induct {P : ListScan τ → Option (FileBatch τ × ℕ) × ListScan τ → Prop}
    (hrow : ∀ s batch row s',
      Iterates cfg openBlob pullItem s (.row batch row s') → P s (some (batch, row), s'))
    (hdone : ∀ s s', Iterates cfg openBlob pullItem s (.done s') → P s (none, s'))
    (hagain : ∀ s s' r, Iterates cfg openBlob pullItem s (.again s') → P s' r → P s r)
    {s : ListScan τ} {r : Option (FileBatch τ × ℕ) × ListScan τ}
    (h : nextRow cfg openBlob s = .ok r) : P s r := by
  induction s using nextRow.induct cfg openBlob with
  | case1 s f hstep =>
    rw [nextRow_of_error hstep] at h
    cases h
  | case2 s batch row s' hstep =>
    obtain rfl := Except.ok.inj ((nextRow_of_row hstep).symm.trans h)
    exact hrow s batch row s' (nextRowStep_iterates hstep)
  | case3 s s' hstep =>
    obtain rfl := Except.ok.inj ((nextRow_of_done hstep).symm.trans h)
    exact hdone s s' (nextRowStep_iterates hstep)
  | case4 s s' hstep ih =>
    exact hagain s s' r (nextRowStep_iterates hstep) (ih (nextRow_of_again hstep ▸ h))

/-- **The row that `next_row` returns** is the current row of a state reached from `s`
by iterations: it has every property of `s` that iterations keep. -/
theorem nextRow_row {I : ListScan τ → Prop}
    (hagain : ∀ s s', I s → Iterates cfg openBlob pullItem s (.again s') → I s')
    {s s' : ListScan τ} {batch : FileBatch τ} {row : ℕ}
    (h : nextRow cfg openBlob s = .ok (some (batch, row), s')) (hs : I s) :
    ∃ t, I t ∧ t.curBatch = some batch ∧ t.curRow = row ∧ row < batch.batch.numRows ∧
      s' = { t with curRow := row + 1 } := by
  refine nextRow_induct cfg openBlob (P := fun s r => I s → ∀ batch row s', r = (some (batch, row), s') →
    ∃ t, I t ∧ t.curBatch = some batch ∧ t.curRow = row ∧ row < batch.batch.numRows ∧
      s' = { t with curRow := row + 1 }) ?_ ?_ ?_ h hs batch row s' rfl
  · rintro s b r t hit hs batch row s' heq
    cases hit with
    | row hbatch hrow =>
      obtain ⟨⟨rfl, rfl⟩, rfl⟩ : (b = batch ∧ s.curRow = row) ∧
          { s with curRow := s.curRow + 1 } = s' := by simpa using heq
      exact ⟨s, hs, hbatch, rfl, hrow, rfl⟩
    | took _ _ htakes => cases htakes
  · rintro s t - - batch row s' heq
    cases heq
  · rintro s t r hit ih hs
    exact ih (hagain s t hs hit)

end Loop

/-! ### The executor's slot -/

section Slot

variable (cfg : ScanConfig)

/-- The overlay of the projected columns on the slot. -/
def overlayColumns (batch : RecordBatch) (row : ℕ) :
    ℕ → List ℕ → List (Option Datum) → Outcome (List (Option Datum))
  | _, [], slot => .ok slot
  | arrowCol, relCol :: rest, slot =>
    match cfg.pgOids[relCol]? with
    | none =>
      .error (.error (.schemaMismatch ("attno_map[" ++ toString arrowCol ++ "] = " ++
        toString relCol ++ " >= natts " ++ toString cfg.pgOids.length)))
    | some oid =>
      match batch.columns[arrowCol]? with
      | none => .error (.panic "index out of bounds")
      | some col => do
        let value ← (arrowValueToDatum cfg.ext col row oid).lift
        overlayColumns batch row (arrowCol + 1) rest (slot.set relCol value)

/-- The overlay of the partition columns: an attribute with no datum stays. -/
def overlayPartition : List ℕ → List Datum → List (Option Datum) → List (Option Datum)
  | attno :: attnos, d :: datums, slot => overlayPartition attnos datums (slot.set attno (some d))
  | _, _, slot => slot

/-- The part of `iterate_foreign_scan` that fills the slot.  The slot has a position
for each attribute; setting one beyond them changes nothing. -/
def fillSlot (slot : List (Option Datum)) (datums : List Datum) (batch : RecordBatch) (row : ℕ) :
    Outcome (List (Option Datum)) := do
  let natts := cfg.pgOids.length
  let cleared := if cfg.attnoMap.length < natts then List.replicate natts none else slot
  let filled ← overlayColumns cfg batch row 0 cfg.attnoMap cleared
  return overlayPartition cfg.partitionAttnums datums filled

theorem overlayPartition_of_notMem {attnos : List ℕ} {a : ℕ} (ha : a ∉ attnos)
    (datums : List Datum) (slot : List (Option Datum)) :
    (overlayPartition attnos datums slot)[a]? = slot[a]? := by
  induction attnos generalizing datums slot with
  | nil => rfl
  | cons b attnos ih =>
    cases datums with
    | nil => rfl
    | cons d datums =>
      rw [overlayPartition, ih (fun h => ha (by simp [h])),
        List.getElem?_set_ne (fun h => ha (by simp [h]))]

/-- Each partition attribute gets a datum of its own. -/
theorem overlayPartition_of_mem {attnos : List ℕ} {datums : List Datum} {slot : List (Option Datum)}
    (hlen : attnos.length = datums.length) {a : ℕ} (ha : a ∈ attnos) (hlt : a < slot.length) :
    ∃ (j : ℕ) (d : Datum), attnos[j]? = some a ∧ datums[j]? = some d ∧
      (overlayPartition attnos datums slot)[a]? = some (some d) := by
  induction attnos generalizing datums slot with
  | nil => simp at ha
  | cons b attnos ih =>
    cases datums with
    | nil => simp at hlen
    | cons d datums =>
      rw [overlayPartition]
      by_cases hmem : a ∈ attnos
      · have hset : a < (slot.set b (some d)).length := by rwa [List.length_set]
        obtain ⟨j, d', hj, hd', hfilled⟩ := ih (by simpa using hlen) hmem hset
        exact ⟨j + 1, d', hj, hd', hfilled⟩
      · obtain rfl : a = b := by simpa [hmem] using ha
        refine ⟨0, d, rfl, rfl, ?_⟩
        rw [overlayPartition_of_notMem hmem, List.getElem?_set_self hlt]

end Slot

/-! ### One call of the executor -/

/-- A row handed to the executor: its ctid, its slot, and the row of the stream. -/
structure Emission (τ : Type) where
  ctid : ItemPointerData
  slot : List (Option Datum)
  batch : FileBatch τ
  row : ℕ

/-- What `iterate_foreign_scan` does with the row that `next_row` returned. -/
def stampRow {σ τ : Type} (cfg : ScanConfig) (batch : FileBatch τ) (row : ℕ) (s : ScanState σ τ) :
    Outcome (Emission τ × ScanState σ τ) := do
  let table ← registerChunkIfBoundary s.blobIdTable s.curBlobBaseId s.curRowInBlob
  let slot ← fillSlot cfg s.slot s.partitionDatumsForCurrentBlob batch.batch row
  let rid := RowId.fromAbsolute s.curBlobBaseId s.curRowInBlob
  return (⟨rid.toCtid, slot, batch, row⟩,
    { s with blobIdTable := table, slot := slot, curRowInBlob := s.curRowInBlob + 1 })

/-- `iterate_foreign_scan`. -/
def iterateForeignScan {τ : Type} (cfg : ScanConfig)
    (openBlob : String → Outcome (List (Outcome (FileBatch τ)))) (s : ListScan τ) :
    Outcome (Option (Emission τ) × ListScan τ) := do
  match ← nextRow cfg openBlob s with
  | (none, s') => return (none, s')
  | (some (batch, row), s') =>
    let (e, s'') ← stampRow cfg batch row s'
    return (some e, s'')

/-- The position of the row in its file. -/
def Emission.position {τ : Type} (e : Emission τ) : Option ℕ := (e.batch.rows[e.row]?).map Prod.snd

theorem stampRow_eq_ok {σ τ : Type} {cfg : ScanConfig} {batch : FileBatch τ} {row : ℕ}
    {s s' : ScanState σ τ} {e : Emission τ} (h : stampRow cfg batch row s = .ok (e, s')) :
    ∃ table slot, registerChunkIfBoundary s.blobIdTable s.curBlobBaseId s.curRowInBlob = .ok table ∧
      fillSlot cfg s.slot s.partitionDatumsForCurrentBlob batch.batch row = .ok slot ∧
      e = ⟨(RowId.fromAbsolute s.curBlobBaseId s.curRowInBlob).toCtid, slot, batch, row⟩ ∧
      s' = { s with blobIdTable := table, slot := slot, curRowInBlob := s.curRowInBlob + 1 } := by
  obtain ⟨table, htable, h⟩ := except_bind_eq_ok.mp h
  obtain ⟨slot, hslot, h⟩ := except_bind_eq_ok.mp h
  obtain ⟨rfl, rfl⟩ := Prod.mk.inj (Except.ok.inj h)
  exact ⟨table, slot, htable, hslot, rfl, rfl⟩

/-- A call that hands out a row: `next_row` returned it, and it was stamped. -/
theorem iterateForeignScan_eq_some {τ : Type} {cfg : ScanConfig}
    {openBlob : String → Outcome (List (Outcome (FileBatch τ)))} {s s' : ListScan τ}
    {e : Emission τ} (h : iterateForeignScan cfg openBlob s = .ok (some e, s')) :
    ∃ batch row t, nextRow cfg openBlob s = .ok (some (batch, row), t) ∧
      stampRow cfg batch row t = .ok (e, s') := by
  obtain ⟨⟨next, t⟩, hnext, h⟩ := except_bind_eq_ok.mp h
  cases next with
  | none => cases Except.ok.inj h
  | some br =>
    obtain ⟨⟨e', s''⟩, hstamp, h⟩ := except_bind_eq_ok.mp h
    obtain ⟨he, rfl⟩ := Prod.mk.inj (Except.ok.inj h)
    obtain rfl := Option.some.inj he
    exact ⟨br.1, br.2, t, hnext, hstamp⟩

theorem iterateForeignScan_of_row {τ : Type} {cfg : ScanConfig}
    {openBlob : String → Outcome (List (Outcome (FileBatch τ)))} {s s' t : ListScan τ}
    {batch : FileBatch τ} {row : ℕ} {e : Emission τ}
    (hnext : nextRow cfg openBlob s = .ok (some (batch, row), t))
    (hstamp : stampRow cfg batch row t = .ok (e, s')) :
    iterateForeignScan cfg openBlob s = .ok (some e, s') := by
  rw [iterateForeignScan, hnext]
  show (stampRow cfg batch row t >>= fun r => pure (some r.1, r.2)) = _
  rw [hstamp]
  rfl

end ParquetAzureFdw
