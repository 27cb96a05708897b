/-
# A SELECT of a sorted table

The scan of a table with the option `sorted`, from `build_state` through any calls of `next_row` and
any rescans.  `next_row` takes its rows from the merge while there is one, and goes through the
blobs otherwise; `re_scan_foreign_scan` builds the merge anew, and since the merge asks for the
setting `enable_multifile` each time it is built, a rescan may also end it.  From then on the scan
is a sequential one, with the projection of the merge.

The merge is used up by a pass: what it has still to return are the rows of `Drains`.  A call takes
the first of them (`Drains.next`), and what a merge returns that was just built are all rows of
the table, in order (`SortedTable.exists_build`).  So every pass returns the table, at whatever
point the pass before it was left (`sorted_scan_returns`).
-/

import ParquetAzureFdw.Scan.BuildState
import ParquetAzureFdw.Scan.Rescan

namespace ParquetAzureFdw

open Merging Runs

/-! ### The scan -/

/-- The fields of `ScanState` that `next_row` reads: those of a sequential scan, and the merge. -/
structure MergeScan (queue : PriorityQueue HeapEntry HeapEntry.le) (τ : Type) where
  scan : ListScan τ
  sortedStream : Option (MultiFileSortedStream queue)

/-- What is done with a scan: a call of `next_row`, with what it returns, or a rescan, under a value
of `enable_multifile`. -/
inductive MergeEvent where
  | returned (out : Option MergedRow)
  | rescanned (enableMultifile : Bool)

/-- A row of a sequential scan, as a batch and the number of the row. -/
def ScannedRow.merged {τ : Type} (r : ScannedRow τ) : MergedRow := (r.batch.batch, r.row)

section Steps

variable {τ : Type} (queue : PriorityQueue HeapEntry HeapEntry.le)
  (debug : List SortKeyValue → String) (cfg : ScanConfig)
  (openBlob : String → Outcome (List (Outcome (FileBatch τ)))) (node : ScanNode)
  (core : ScanStateCore)

/-- The part of `re_scan_foreign_scan` that is about the merge. -/
def rebuildSorted (node : ScanNode) :
    Option (MultiFileSortedStream queue) → Outcome (Option (MultiFileSortedStream queue))
  | none => .ok none
  | some _ => buildSortedStreamIfActive queue node core

variable {queue} in
/-- One thing that is done with a scan.  A row of the merge is counted, and neither the table of
blob ids nor the sequential part is touched by it. -/
inductive MergeScanStep : MergeScan queue τ → MergeEvent → MergeScan queue τ → Prop
  | merged {s : MergeScan queue τ} {m m' : MultiFileSortedStream queue} {row : MergedRow}
      {slot : List (Option Datum)} (hmerge : s.sortedStream = some m)
      (hnext : m.nextRow debug = .ok (some row, m')) :
      MergeScanStep s (.returned (some row)) ⟨s.scan.bookkeep s.scan.blobIdTable slot, some m'⟩
  | drained {s : MergeScan queue τ} {m m' : MultiFileSortedStream queue}
      (hmerge : s.sortedStream = some m) (hnext : m.nextRow debug = .ok (none, m')) :
      MergeScanStep s (.returned none) ⟨s.scan, some m'⟩
  | sequential {s : MergeScan queue τ} {scan' : ListScan τ} {out : Option (ScannedRow τ)}
      (hmerge : s.sortedStream = none) (hcall : ScanCall cfg openBlob s.scan out scan') :
      MergeScanStep s (.returned (out.map ScannedRow.merged)) ⟨scan', none⟩
  | rescan {s : MergeScan queue τ} {sorted : Option (MultiFileSortedStream queue)}
      {enableMultifile : Bool}
      (hbuilt : rebuildSorted queue core { node with enableMultifile } s.sortedStream = .ok sorted) :
      MergeScanStep s (.rescanned enableMultifile) ⟨reScanForeignScan core.blobs s.scan, sorted⟩

end Steps

/-- What the calls since the start or the last rescan have returned. -/
def passOutputs (events : List MergeEvent) : List (Option MergedRow) :=
  events.foldl (fun outs event => match event with
    | .returned out => outs ++ [out]
    | .rescanned _ => []) []

@[simp] theorem passOutputs_returned (events : List MergeEvent) (out : Option MergedRow) :
    passOutputs (events ++ [.returned out]) = passOutputs events ++ [out] := by
  rw [passOutputs, List.foldl_append]
  rfl

@[simp] theorem passOutputs_rescanned (events : List MergeEvent) (enableMultifile : Bool) :
    passOutputs (events ++ [.rescanned enableMultifile]) = [] := by
  rw [passOutputs, List.foldl_append]
  rfl

/-! ### The rows of the table -/

section Table

variable {τ : Type} (contents : String → List (FileBatch τ))

/-- What the reader of a blob returns. -/
def fileStream (blob : String) : RecordBatchStream := (contents blob).map fun f => .ok f.batch

/-- The rows of the blobs, in the order of the list. -/
def sortedTableRows (blobs : List ListedBlob) : List MergedRow :=
  blobs.flatMap fun blob => streamRows (fileStream contents blob.1)

/-- A table whose blobs can be merged: they can be opened, their sort columns have keys of one type,
and each of them is in order. -/
structure SortedTable (node : ScanNode) (core : ScanStateCore) (sortColIndices : List ℕ) : Prop where
  no_partitions : core.partitionAttnums = []
  few : core.blobs.length ≤ 256
  indices : List.Forall₂ (fun name colIdx => ∃ attno, resolveAttnoByName node name = .ok attno ∧
    core.storageAttnoToParquetIdx[attno]? = some (some colIdx)) core.sorted sortColIndices
  opened : ∃ types, ∀ blob ∈ core.blobs, ∃ b, node.openBlob blob.1 = .ok b ∧
    List.Forall₂ (fun colIdx ty => b.fields[colIdx]? = some ty) sortColIndices types ∧
    b.build = .ok (fileStream contents blob.1)
  keyed : ∀ blob ∈ core.blobs, ∀ f ∈ contents blob.1, f.batch.Keyed sortColIndices
  ordered : ∀ blob ∈ core.blobs, ¬ Inverted sortColIndices (streamRows (fileStream contents blob.1))

variable {contents} {cfg : ScanConfig} {blobs : List ListedBlob}

theorem streamRows_fileStream (blob : String) :
    streamRows (fileStream contents blob) = (contents blob).flatMap fun f => rowsFrom f.batch 0 := by
  rw [fileStream]
  induction contents blob with
  | nil => rfl
  | cons f batches ih => rw [List.map_cons, streamRows, ih, List.flatMap_cons]

/-- **A sequential scan of the table returns the same rows**, in the order of the list. -/
theorem map_merged_tableSequence (hdecl : cfg.partitionKeysDecl = []) :
    (tableSequence cfg contents blobs).map ScannedRow.merged = sortedTableRows contents blobs := by
  rw [tableSequence, List.map_flatMap, sortedTableRows]
  refine List.flatMap_congr fun blob _ => ?_
  have hskip : cfg.skips blob.1 = false := by simp [ScanConfig.skips, hdecl]
  refine (map_blobSequence (fun _ b row => (b.batch, row)) blob).trans ?_
  rw [hskip, streamRows_fileStream]
  simp only [Bool.false_eq_true, if_false, rowsFrom, List.Ico.zero_bot]

end Table

/-! ### The merge -/

section Merge

variable {queue : PriorityQueue HeapEntry HeapEntry.le} {debug : List SortKeyValue → String}
  {m m' : MultiFileSortedStream queue} {rows : List MergedRow} {sortColIndices : List ℕ}

/-- A call takes the first of the rows that a merge has to return. -/
theorem Drains.next (h : Drains debug m rows none) :
    ∃ m', m.nextRow debug = .ok (rows.head?, m') ∧ Drains debug m' rows.tail none := by
  cases h with
  | @ended m m' hnext =>
    refine ⟨m', hnext, ?_⟩
    -- the heap is empty, and stays so
    rw [MultiFileSortedStream.nextRow] at hnext
    cases hpop : queue.pop m.heap with
    | none =>
      simp only [hpop] at hnext
      obtain ⟨-, rfl⟩ := Prod.mk.inj (Except.ok.inj hnext)
      have hagain : m.nextRow debug = .ok (none, m) := by rw [MultiFileSortedStream.nextRow, hpop]
      exact .ended hagain
    | some popped =>
      simp only [hpop] at hnext
      obtain ⟨_, -, hnext⟩ := except_bind_eq_ok.mp hnext
      obtain ⟨_, -, hnext⟩ := except_bind_eq_ok.mp hnext
      cases hnext
  | row hnext rest => exact ⟨_, hnext, rest⟩

variable {τ : Type} {contents : String → List (FileBatch τ)} {node : ScanNode} {core : ScanStateCore}

variable (queue debug) in
/-- **The merge of a sorted table opens, and has all its rows to return, in order.**  With the
setting off there is no merge. -/
theorem SortedTable.exists_build (h : SortedTable contents node core sortColIndices)
    (hactive : sortedActive node core = true) (enableMultifile : Bool) :
    ∃ sorted, buildSortedStreamIfActive queue { node with enableMultifile } core = .ok sorted ∧
      sorted.isSome = enableMultifile ∧ ∀ m, sorted = some m → ∃ all, Drains debug m all none ∧
        all.Perm (sortedTableRows contents core.blobs) ∧ all.Pairwise (RowLe sortColIndices) := by
  obtain ⟨⟨-, hsorted⟩, hselect⟩ : (node.enableMultifile = true ∧ core.sorted.isEmpty = false) ∧
      node.isSelect = true := by
    simpa only [sortedActive, Bool.and_eq_true, Bool.not_eq_true'] using hactive
  cases enableMultifile with
  | false => exact ⟨none, by simp [buildSortedStreamIfActive, sortedActive], rfl, nofun⟩
  | true =>
    obtain ⟨types, hopened⟩ := h.opened
    let xs : List OpenedBlob := core.blobs.map fun blob => ⟨blob.1, types, fileStream contents blob.1⟩
    have hsources : SortedSources { node with enableMultifile := true } core sortColIndices xs := by
      refine ⟨h.no_partitions, h.few, h.indices, ?_, types, fun x hx => ?_⟩
      · rw [List.forall₂_map_right_iff, List.forall₂_same]
        intro blob hblob
        obtain ⟨b, hb, hfields, hbuild⟩ := hopened blob hblob
        exact openSorted_eq_ok_iff.mpr ⟨b, hb, hfields, hbuild, rfl⟩
      · obtain ⟨blob, -, rfl⟩ := List.mem_map.mp hx
        rfl
    have hstreams : ∀ stream ∈ xs.map OpenedBlob.stream,
        ∃ blob ∈ core.blobs, stream = fileStream contents blob.1 := by
      intro stream hstream
      obtain ⟨x, hx, rfl⟩ := List.mem_map.mp hstream
      obtain ⟨blob, hblob, rfl⟩ := List.mem_map.mp hx
      exact ⟨blob, hblob, rfl⟩
    have hread : ∀ stream ∈ xs.map OpenedBlob.stream, stream.Readable sortColIndices := by
      intro stream hstream
      obtain ⟨blob, hblob, rfl⟩ := hstreams stream hstream
      intro item hitem
      obtain ⟨f, hf, rfl⟩ := List.mem_map.mp hitem
      exact ⟨f.batch, rfl, h.keyed blob hblob f hf⟩
    have hordered : ∀ stream ∈ xs.map OpenedBlob.stream,
        ¬ Inverted sortColIndices (streamRows stream) := by
      intro stream hstream
      obtain ⟨blob, hblob, rfl⟩ := hstreams stream hstream
      exact h.ordered blob hblob
    have hnames : (xs.map OpenedBlob.blob).length = (xs.map OpenedBlob.stream).length := by simp
    obtain ⟨m, taken, hnew, hdrains, hpairwise, hperm, -⟩ := exists_merge_of_ordered queue debug
      (by simpa using hsources.length_le) hnames hread hordered
    refine ⟨some m, ?_, rfl, fun m' hm' => ⟨_, Option.some.inj hm' ▸ hdrains, ?_, hpairwise⟩⟩
    · rw [buildSortedStreamIfActive, if_pos (by simp [sortedActive, hsorted, hselect]),
        sortedSources_eq_ok_iff.mpr ⟨xs, hsources, rfl⟩]
      exact except_bind_eq_ok.mpr ⟨_, rfl, except_bind_eq_ok.mpr ⟨m, hnew, rfl⟩⟩
    · rwa [List.map_map, List.flatMap_map] at hperm

end Merge

/-! ### Every pass -/

section Passes

variable {τ : Type} {queue : PriorityQueue HeapEntry HeapEntry.le}
  {debug : List SortKeyValue → String} {cfg : ScanConfig}
  {openBlob : String → Outcome (List (Outcome (FileBatch τ)))} {node : ScanNode}
  {core : ScanStateCore} {contents : String → List (FileBatch τ)} {sortColIndices : List ℕ}
  {s s' : MergeScan queue τ} {events : List MergeEvent} {event : MergeEvent}

variable (debug cfg contents) in
/-- The rows that the scan has still to return in this pass. -/
def MergeScan.HasLeft (s : MergeScan queue τ) (rest : List MergedRow) : Prop :=
  match s.sortedStream with
  | some m => Drains debug m rest none
  | none => (s.scan.upcoming cfg contents).map ScannedRow.merged = rest

variable (core contents sortColIndices) in
/-- The rows of a pass: those of the table, in order when they are merged, and else in the order of
the list. -/
def PassRows (merging : Bool) (all : List MergedRow) : Prop :=
  if merging then
    all.Perm (sortedTableRows contents core.blobs) ∧ all.Pairwise (RowLe sortColIndices)
  else all = sortedTableRows contents core.blobs

/-- Whether the rescans have left the merge on. -/
def mergesStill (events : List MergeEvent) : Bool :=
  events.all fun event => match event with
    | .returned _ => true
    | .rescanned enableMultifile => enableMultifile

variable (debug cfg core contents sortColIndices) in
/-- What holds of a scan after some calls and rescans. -/
structure MergeScanInv (events : List MergeEvent) (s : MergeScan queue τ) : Prop where
  sound : ScanSound cfg core.blobs s.scan
  merging : s.sortedStream.isSome = mergesStill events
  pass : ∃ all, PassRows core contents sortColIndices (mergesStill events) all ∧
    s.HasLeft debug cfg contents (all.drop (passOutputs events).length) ∧
    ∀ i, i < (passOutputs events).length → (passOutputs events)[i]? = some all[i]?

/-- The start of a pass. -/
theorem MergeScanInv.start (hdecl : cfg.partitionKeysDecl = [])
    (hsound : ScanSound cfg core.blobs s.scan)
    (hupcoming : s.scan.upcoming cfg contents = tableSequence cfg contents core.blobs)
    (hmerging : s.sortedStream.isSome = mergesStill events) (hpass : passOutputs events = [])
    (hbuilt : ∀ m, s.sortedStream = some m → ∃ all, Drains debug m all none ∧
      all.Perm (sortedTableRows contents core.blobs) ∧ all.Pairwise (RowLe sortColIndices)) :
    MergeScanInv debug cfg core contents sortColIndices events s := by
  refine ⟨hsound, hmerging, ?_⟩
  rw [hpass, ← hmerging]
  cases hsorted : s.sortedStream with
  | none =>
    refine ⟨sortedTableRows contents core.blobs, rfl, ?_, nofun⟩
    simp only [MergeScan.HasLeft, hsorted]
    rw [hupcoming, map_merged_tableSequence hdecl, List.length_nil, List.drop_zero]
  | some m =>
    obtain ⟨all, hdrains, hall⟩ := hbuilt m hsorted
    refine ⟨all, hall, ?_, nofun⟩
    simpa only [MergeScan.HasLeft, hsorted, List.length_nil, List.drop_zero] using hdrains

/-- A call takes the first of the rows left, and the scan goes on with the others. -/
theorem MergeScan.HasLeft.call (hread : BlobsReadable cfg contents openBlob core.blobs)
    (hsound : ScanSound cfg core.blobs s.scan) {rest : List MergedRow}
    (h : s.HasLeft debug cfg contents rest) {out : Option MergedRow}
    (next : MergeScanStep debug cfg openBlob node core s (.returned out) s') :
    out = rest.head? ∧ ScanSound cfg core.blobs s'.scan ∧
      s'.sortedStream.isSome = s.sortedStream.isSome ∧ s'.HasLeft debug cfg contents rest.tail := by
  cases next with
  | merged hmerge hnext =>
    simp only [MergeScan.HasLeft, hmerge] at h
    obtain ⟨m', hnext', hrest⟩ := h.next
    obtain ⟨hout, rfl⟩ := Prod.mk.inj (Except.ok.inj (hnext.symm.trans hnext'))
    exact ⟨hout, ⟨hsound.blobs_eq, hsound.stream, hsound.fresh, hsound.unpartitioned⟩,
      by rw [hmerge]; rfl, hrest⟩
  | drained hmerge hnext =>
    simp only [MergeScan.HasLeft, hmerge] at h
    obtain ⟨m', hnext', hrest⟩ := h.next
    obtain ⟨hout, rfl⟩ := Prod.mk.inj (Except.ok.inj (hnext.symm.trans hnext'))
    exact ⟨hout, hsound, by rw [hmerge]; rfl, hrest⟩
  | sequential hmerge hcall =>
    simp only [MergeScan.HasLeft, hmerge] at h
    obtain ⟨hsound', rfl, hupcoming⟩ := hcall.upcoming_eq hread hsound
    refine ⟨?_, hsound', by rw [hmerge], ?_⟩
    · rw [← h, List.head?_map]
    · show (ScanState.upcoming cfg contents _).map ScannedRow.merged = rest.tail
      rw [hupcoming, ← h, List.map_tail]

/-- **A step keeps the invariant.** -/
theorem MergeScanInv.step (htable : SortedTable contents node core sortColIndices)
    (hactive : sortedActive node core = true) (hdecl : cfg.partitionKeysDecl = [])
    (hread : BlobsReadable cfg contents openBlob core.blobs)
    (h : MergeScanInv debug cfg core contents sortColIndices events s)
    (next : MergeScanStep debug cfg openBlob node core s event s') :
    MergeScanInv debug cfg core contents sortColIndices (events ++ [event]) s' := by
  cases event with
  | returned out =>
    obtain ⟨all, hrows, hleft, houts⟩ := h.pass
    obtain ⟨hout, hsound, hmerging, hleft'⟩ := hleft.call hread h.sound next
    have hstill : mergesStill (events ++ [.returned out]) = mergesStill events := by
      simp [mergesStill]
    refine ⟨hsound, by rw [hmerging, h.merging, hstill], all, hstill ▸ hrows, ?_, fun i hi => ?_⟩
    · rwa [passOutputs_returned, List.length_append, List.length_singleton, ← List.tail_drop]
    · rw [passOutputs_returned] at hi ⊢
      rcases Nat.lt_or_ge i (passOutputs events).length with hlt | hge
      · rw [List.getElem?_append_left hlt, houts i hlt]
      · obtain rfl : i = (passOutputs events).length := by
          rw [List.length_append, List.length_singleton] at hi
          omega
        rw [List.getElem?_concat_length, hout, List.head?_drop]
  | rescanned enableMultifile =>
    have hstill : mergesStill (events ++ [.rescanned enableMultifile]) =
        (mergesStill events && enableMultifile) := by
      simp [mergesStill]
    cases next with
    | @rescan sorted _ hbuilt =>
      refine .start hdecl h.sound.reScan (upcoming_reScan s.scan) ?_ (passOutputs_rescanned _ _) ?_
      · show sorted.isSome = _
        rw [hstill, ← h.merging]
        cases hsorted : s.sortedStream with
        | none =>
          rw [hsorted] at hbuilt
          obtain rfl := Except.ok.inj hbuilt
          rfl
        | some m =>
          rw [hsorted] at hbuilt
          obtain ⟨sorted', hbuilt', hsome, -⟩ := htable.exists_build queue debug hactive
            enableMultifile
          obtain rfl := Except.ok.inj (hbuilt.symm.trans hbuilt')
          rw [hsome, Option.isSome_some, Bool.true_and]
      · intro m hm
        obtain rfl : sorted = some m := hm
        cases hsorted : s.sortedStream with
        | none =>
          rw [hsorted] at hbuilt
          cases hbuilt
        | some m₀ =>
          rw [hsorted] at hbuilt
          obtain ⟨sorted', hbuilt', -, hall⟩ := htable.exists_build queue debug hactive
            enableMultifile
          exact hall m (Except.ok.inj (hbuilt'.symm.trans hbuilt))

/-- A call is always answered. -/
theorem MergeScanInv.exists_call (hread : BlobsReadable cfg contents openBlob core.blobs)
    (h : MergeScanInv debug cfg core contents sortColIndices events s) :
    ∃ out s', MergeScanStep debug cfg openBlob node core s (.returned out) s' := by
  cases hsorted : s.sortedStream with
  | none =>
    obtain ⟨out, scan', hcall⟩ := h.sound.exists_call hread
    exact ⟨_, _, .sequential hsorted hcall⟩
  | some m =>
    obtain ⟨all, -, hleft, -⟩ := h.pass
    simp only [MergeScan.HasLeft, hsorted] at hleft
    obtain ⟨m', hnext, -⟩ := hleft.next
    cases hout : (all.drop (passOutputs events).length).head? with
    | none => exact ⟨_, _, .drained hsorted (hout ▸ hnext)⟩
    | some row =>
      exact ⟨_, ⟨s.scan.bookkeep s.scan.blobIdTable [], some m'⟩, .merged hsorted (hout ▸ hnext)⟩

/-- A rescan always succeeds. -/
theorem SortedTable.exists_rescan (htable : SortedTable contents node core sortColIndices)
    (hactive : sortedActive node core = true) (enableMultifile : Bool) (s : MergeScan queue τ) :
    ∃ s', MergeScanStep debug cfg openBlob node core s (.rescanned enableMultifile) s' := by
  cases hsorted : s.sortedStream with
  | none => exact ⟨_, .rescan (by rw [hsorted]; rfl)⟩
  | some m =>
    obtain ⟨sorted, hbuilt, -⟩ := htable.exists_build queue debug hactive enableMultifile
    exact ⟨_, .rescan (by rw [hsorted]; exact hbuilt)⟩

/-- **Every pass of a SELECT over a sorted table returns its rows, in order while they are merged.**

The scan has started with the merge; `events` are any calls and rescans since then, in any order.
What the calls of the present pass have returned is the first part of a list of all rows of the
table, each once, followed by no row, however often it is called.  That list is in the order of the
sort columns if `enable_multifile` was on at every rescan, and otherwise in the order of the
blobs: what a sequential scan returns.  No call and no rescan fails. -/
theorem sorted_scan_returns {relid : Oid} {handoff : Handoff} {started : StartedScan queue} {natts : ℕ}
    (htable : SortedTable contents node core sortColIndices)
    (hactive : sortedActive node core = true) (hdecl : cfg.partitionKeysDecl = [])
    (hread : BlobsReadable cfg contents openBlob core.blobs)
    (hstart : (buildState queue node relid (.ok core) handoff).1 = .ok started)
    (run : Run (MergeScanStep debug cfg openBlob node core)
      ⟨.initial core.blobs natts, started.sortedStream⟩ events s) :
    (∃ all, PassRows core contents sortColIndices (mergesStill events) all ∧
        ∀ i, i < (passOutputs events).length → (passOutputs events)[i]? = some all[i]?) ∧
      (∃ out s', MergeScanStep debug cfg openBlob node core s (.returned out) s') ∧
      ∀ enableMultifile, ∃ s', MergeScanStep debug cfg openBlob node core s
        (.rescanned enableMultifile) s' := by
  have hinv : MergeScanInv debug cfg core contents sortColIndices events s := by
    refine run.induct (I := fun events s => MergeScanInv debug cfg core contents sortColIndices events s)
      ?_ fun events s event s' h next => h.step htable hactive hdecl hread next
    have hon : node.enableMultifile = true := by
      simp only [sortedActive, Bool.and_eq_true] at hactive
      exact hactive.1.1
    obtain ⟨sorted, hbuilt, hsome, hall⟩ := htable.exists_build queue debug hactive
      node.enableMultifile
    rw [hon] at hsome
    have hsorted : started.sortedStream = sorted := by
      obtain ⟨m, rfl⟩ := Option.isSome_iff_exists.mp hsome
      rw [buildState] at hstart
      simp only [show buildSortedStreamIfActive queue node core = .ok (some m) from hbuilt] at hstart
      exact congrArg StartedScan.sortedStream (Except.ok.inj hstart).symm
    exact .start hdecl (.initial natts) rfl (by rw [hsorted, hsome]; rfl) rfl (hsorted ▸ hall)
  obtain ⟨all, hrows, -, houts⟩ := hinv.pass
  exact ⟨⟨all, hrows, houts⟩, hinv.exists_call hread, fun enableMultifile =>
    htable.exists_rescan hactive enableMultifile s⟩

end Passes

/-! ### Two blobs of a sorted table -/

/-- The batch of some rows. -/
def stampBatch (vs : List (Int32 × Int32)) : FileBatch Unit :=
  ⟨(), [.int32, .int32], [0, 1], vs.map fun v => (pairRow v, 0)⟩

/-- Two blobs, sorted by their first column. -/
def stampContents (blob : String) : List (FileBatch Unit) :=
  if blob = "a" then [stampBatch [(1, 0), (3, 0)]] else [stampBatch [], stampBatch [(2, 0)]]

theorem length_columns_stampContents {blob : String} {f : FileBatch Unit}
    (hf : f ∈ stampContents blob) : f.batch.columns.length = 2 := by
  have hroots : f.roots = [0, 1] := by
    unfold stampContents at hf
    split_ifs at hf <;> simp only [List.mem_cons, List.not_mem_nil, or_false] at hf
    · rw [hf]
      rfl
    · rcases hf with rfl | rfl <;> rfl
  simp [FileBatch.batch, RecordBatch.ofRows, hroots]

def stampNode : ScanNode where
  enableMultifile := true
  isSelect := true
  attrs := [⟨"ts", int4Oid, false, false⟩, ⟨"n", int4Oid, false, false⟩]
  openBlob blob := .ok
    { fields := [.int32, .int32]
      build := .ok (fileStream stampContents blob)
      columns_of_batch := by
        intro stream hstream batch hbatch
        obtain rfl := Except.ok.inj hstream
        obtain ⟨f, hf, heq⟩ := List.mem_map.mp hbatch
        obtain rfl := Except.ok.inj heq
        exact length_columns_stampContents hf }

def stampCore : ScanStateCore :=
  ⟨[("a", "0x1"), ("b", "0x2")], 2, some [0, 1], [0, 1], ["ts"], [], [some 0, some 1]⟩

theorem keyed_stamps {blob : String} {f : FileBatch Unit} (hf : f ∈ stampContents blob) :
    f.batch.Keyed [0] := by
  have hkeyed : ∀ vs, (stampBatch vs).batch.Keyed [0] := fun vs k hk => by
    obtain rfl := List.mem_singleton.mp hk
    exact ⟨_, rfl, .inl rfl⟩
  unfold stampContents at hf
  split_ifs at hf <;> simp only [List.mem_cons, List.not_mem_nil, or_false] at hf
  · exact hf ▸ hkeyed _
  · rcases hf with rfl | rfl <;> exact hkeyed _

theorem readable_stamps (blob : String) :
    RecordBatchStream.Readable [0] (fileStream stampContents blob) := by
  intro item hitem
  obtain ⟨f, hf, rfl⟩ := List.mem_map.mp hitem
  exact ⟨f.batch, rfl, keyed_stamps hf⟩

theorem stamps_sorted : SortedTable stampContents stampNode stampCore [0] where
  no_partitions := rfl
  few := by decide
  indices := .cons ⟨0, rfl, rfl⟩ .nil
  opened := ⟨[.int32], fun blob _ => ⟨_, rfl, .cons rfl .nil, rfl⟩⟩
  keyed blob _ f hf := keyed_stamps hf
  ordered := by
    have hchain : ∀ blob ∈ stampCore.blobs,
        (streamRows (fileStream stampContents blob.1)).IsChain (KeyLe [0]) := by decide
    intro blob hblob
    rw [inverted_iff_not_isChain (readable_stamps blob.1).keyed, not_not]
    exact hchain blob hblob

/-- A call and a rescan; the pass that begins with it is one of three rows in order. -/
theorem stamps_come_again : ∃ started out s all,
    (buildState (sortedQueue HeapEntry.le) stampNode 16384 (.ok stampCore) ∅).1 = .ok started ∧
      Run (MergeScanStep (fun _ => "") (pairScan none []) (fun blob => .ok ((stampContents blob).map .ok))
        stampNode stampCore) ⟨.initial stampCore.blobs 2, started.sortedStream⟩
        [.returned out, .rescanned true] s ∧
      PassRows stampCore stampContents [0] true all ∧ all.length = 3 := by
  have hread : BlobsReadable (pairScan none []) stampContents
      (fun blob => .ok ((stampContents blob).map .ok)) stampCore.blobs := fun _ _ _ => rfl
  obtain ⟨started, hstart⟩ : ∃ started, (buildState (sortedQueue HeapEntry.le) stampNode 16384
      (.ok stampCore) ∅).1 = .ok started := ⟨_, rfl⟩
  have run₀ : Run (MergeScanStep (fun _ => "") (pairScan none [])
      (fun blob => .ok ((stampContents blob).map .ok)) stampNode stampCore)
      ⟨.initial stampCore.blobs 2, started.sortedStream⟩ [] _ := .nil
  obtain ⟨-, ⟨out, s₁, hcall⟩, -⟩ := sorted_scan_returns stamps_sorted rfl rfl hread hstart run₀
  have run₁ := run₀.snoc hcall
  obtain ⟨-, -, hrescan⟩ := sorted_scan_returns stamps_sorted rfl rfl hread hstart run₁
  obtain ⟨s₂, hrescan⟩ := hrescan true
  have run₂ := run₁.snoc hrescan
  obtain ⟨⟨all, hall, -⟩, -⟩ := sorted_scan_returns stamps_sorted rfl rfl hread hstart run₂
  exact ⟨started, out, s₂, all, hstart, run₂, hall, hall.1.length_eq.trans (by decide)⟩

end ParquetAzureFdw
