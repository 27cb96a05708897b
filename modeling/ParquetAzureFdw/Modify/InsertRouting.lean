/-
# The groups of an INSERT

`append_slot`, `exec_foreign_insert`, `flush_group` and the flushes of `finalize_and_upload` of
`src/fdw/modify/insert.rs`, with the maps of `InsertState`.  A tuple goes to the builders of its
group, which are made when the group is seen first; builders that have `BATCH_ROWS` rows are flushed
to the group's parquet writer, and at the end every group is flushed.

The maps are kept together by one statement for each group (`InsertState.Group`): the rows of
the group so far are those of the batches written and, after them, those in the builders.
Appending a tuple adds a row to its own group and to no other (`appendSlot_group`), and a flush
leaves the rows of every group as they are (`InsertState.Group.flush`), whatever the order in which a map
is walked.  So before the uploads every group has all its rows in its writer (`Ready`), and groups are
told apart as the partition tuples are (`appendSlot_key_eq_iff`).
-/

import Mathlib.Data.List.AList
import ParquetAzureFdw.Modify.Builders
import ParquetAzureFdw.Modify.Rewrite
import ParquetAzureFdw.Modify.TargetName

namespace ParquetAzureFdw

/-- `BATCH_ROWS` of the INSERT path. -/
def insertBatchRows : ℕ := 8192

/-- `PartitionTupleKey`. -/
abbrev PartitionTupleKey := List String

/-- A `HashMap` with the groups as keys. -/
abbrev GroupMap (α : Type) := AList fun _ : PartitionTupleKey => α

/-- The fields of `InsertState` that a statement does not change. -/
structure InsertTarget where
  layout : InsertLayout
  compression : Compression
  partitionKeysDecl : List (String × PgPartitionType)
  basePrefix : String
  legacySingleTarget : Option String

/-- The other fields of `InsertState`, except the client. -/
structure InsertState (Writer : Type) where
  builders : GroupMap RecordBatchBuilders
  writers : GroupMap Writer
  targetNames : GroupMap String
  rowsInCurrentBatch : GroupMap ℕ

/-- The state that `build_state` leaves. -/
def InsertState.initial {Writer : Type} : InsertState Writer := ⟨∅, ∅, ∅, ∅⟩

/-- The storage columns of a tuple, with their types. -/
def storageCells (layout : InsertLayout) (tuple : Tuple) : List (Oid × Option Datum) :=
  (storageAttnos layout.partitionAttnums layout.pgOids.length).map fun i =>
    (layout.pgOids.getD i 0, tuple.getD i none)

section Insert

variable (codec : ParquetCodec) (bytesWritten : codec.Writer → ℕ)
  (formatPgDays : Int32 → Option String) (target : InsertTarget)

/-- The builders of a group, made when there are none. -/
def InsertState.groupBuilders (s : InsertState codec.Writer) (key : PartitionTupleKey) :
    Outcome RecordBatchBuilders :=
  match s.builders.lookup key with
  | some builders => .ok builders
  | none =>
    match RecordBatchBuilders.new target.layout.schema with
    | .ok builders => .ok builders
    | .error _ =>
      .error (.panic "RecordBatchBuilders::new should not fail for a validated schema")

/-- The target name of a group, fixed when the group is seen first. -/
def InsertState.groupName (s : InsertState codec.Writer) (key : PartitionTupleKey)
    (stamp : Stamp) : String :=
  (s.targetNames.lookup key).getD
    (computeTargetName target.basePrefix target.legacySingleTarget target.partitionKeysDecl stamp key)

/-- `append_slot` on the maps; `stamp` is the time and the UUID if a name is generated. -/
def InsertState.appendSlot (s : InsertState codec.Writer) (tuple : Tuple) (stamp : Stamp) :
    Outcome (InsertState codec.Writer) := do
  let key ← FdwResult.lift
    (target.layout.partitionAttnums.mapM (partitionText formatPgDays target.layout tuple))
  let builders ← s.groupBuilders codec target key
  let appended ← FdwResult.lift (builders.appendCells 0 (storageCells target.layout tuple))
  return { s with
    builders := s.builders.insert key appended
    targetNames := s.targetNames.insert key (s.groupName codec target key stamp)
    rowsInCurrentBatch :=
      s.rowsInCurrentBatch.insert key ((s.rowsInCurrentBatch.lookup key).getD 0 + 1) }

/-- The writer of a group, made when there is none. -/
def InsertState.groupWriter (s : InsertState codec.Writer) (key : PartitionTupleKey) :
    FdwResult codec.Writer :=
  match s.writers.lookup key with
  | some writer => .ok writer
  | none => codec.newWriter target.layout.schema target.compression

/-- `flush_group`. -/
def flushGroup (s : InsertState codec.Writer) (key : PartitionTupleKey) :
    Outcome (InsertState codec.Writer) :=
  if (s.rowsInCurrentBatch.lookup key).getD 0 = 0 then .ok s
  else do
    let fresh ← FdwResult.lift (RecordBatchBuilders.new target.layout.schema)
    match s.builders.lookup key with
    | none => .error (.panic "group's builders present (created in append_slot)")
    | some old => do
      let batch ← FdwResult.lift old.finish
      let writer ← FdwResult.lift (s.groupWriter codec target key)
      let writer ← FdwResult.lift (codec.write writer batch)
      if maxBlobBytes < bytesWritten writer then
        .error (.error (.azure ("INSERT/COPY accumulator: group rendered " ++
          toString (bytesWritten writer) ++ " bytes — exceeds MAX_BLOB_BYTES=" ++
          toString maxBlobBytes ++ "; split the load into multiple statements or smaller batches " ++
          "(per-partition groups are bounded independently)")))
      else
        return { s with
          builders := s.builders.insert key fresh
          writers := s.writers.insert key writer
          rowsInCurrentBatch := s.rowsInCurrentBatch.insert key 0 }

-- the order in which the keys of a map are walked
variable (iter : List PartitionTupleKey → List PartitionTupleKey)

/-- The groups whose builders are full. -/
def InsertState.fullGroups (s : InsertState codec.Writer) : List PartitionTupleKey :=
  (iter s.rowsInCurrentBatch.keys).filter fun key =>
    insertBatchRows ≤ (s.rowsInCurrentBatch.lookup key).getD 0

/-- `exec_foreign_insert`. -/
def execForeignInsert (s : InsertState codec.Writer) (input : Tuple × Stamp) :
    Outcome (InsertState codec.Writer) := do
  let s ← s.appendSlot codec formatPgDays target input.1 input.2
  (s.fullGroups codec iter).foldlM (flushGroup codec bytesWritten target) s

/-- The writers in the order of their groups. -/
def InsertState.sortedWriters (s : InsertState codec.Writer) :
    List (PartitionTupleKey × codec.Writer) :=
  (s.writers.entries.map fun e => (e.1, e.2)).insertionSort fun a b =>
    (List.compareLex (compareOn utf8Bytes) a.1 b.1).isLE = true

/-- The flushes of `finalize_and_upload`. -/
def flushGroups (s : InsertState codec.Writer) : Outcome (InsertState codec.Writer) :=
  (iter s.builders.keys).foldlM (flushGroup codec bytesWritten target) s

/-- What a statement does before its uploads: `exec_foreign_insert` for each tuple, and the flushes. -/
def collectGroups (inputs : List (Tuple × Stamp)) : Outcome (InsertState codec.Writer) := do
  let s ← inputs.foldlM (execForeignInsert codec bytesWritten formatPgDays target iter) .initial
  flushGroups codec bytesWritten target iter s

end Insert

/-! ### The rows of a group -/

section Groups

variable {codec : ParquetCodec} {bytesWritten : codec.Writer → ℕ}
  {formatPgDays : Int32 → Option String} {target : InsertTarget}

/-- The writer of a group has been given the batches. -/
def Written (codec : ParquetCodec) (target : InsertTarget) (batches : List RecordBatch) :
    Option codec.Writer → Prop
  | none => batches = []
  | some writer => ∃ new, codec.newWriter target.layout.schema target.compression = .ok new ∧
      (∀ batch ∈ batches,
        batch.columns.map Column.dataType = target.layout.schema.map Field.dataType) ∧
      batches.foldlM codec.write new = .ok writer

/-- The group has the rows, and its blob the name. -/
structure InsertState.Group (target : InsertTarget) (s : InsertState codec.Writer)
    (key : PartitionTupleKey) (rows : List ArrowRow) (name : String) : Prop where
  parts : ∃ batches pending builders, rows = batches.flatMap RecordBatch.rows ++ pending ∧
    Written codec target batches (s.writers.lookup key) ∧
    s.builders.lookup key = some builders ∧ builders.Holds target.layout.schema pending ∧
    s.rowsInCurrentBatch.lookup key = some pending.length
  name_eq : s.targetNames.lookup key = some name

/-- The group has not been seen. -/
structure InsertState.Absent (s : InsertState codec.Writer) (key : PartitionTupleKey) : Prop where
  builders : s.builders.lookup key = none
  writers : s.writers.lookup key = none
  targetNames : s.targetNames.lookup key = none
  rows : s.rowsInCurrentBatch.lookup key = none

/-- The maps agree on the group. -/
structure SameAt (s s' : InsertState codec.Writer) (key : PartitionTupleKey) : Prop where
  builders : s'.builders.lookup key = s.builders.lookup key
  writers : s'.writers.lookup key = s.writers.lookup key
  targetNames : s'.targetNames.lookup key = s.targetNames.lookup key
  rows : s'.rowsInCurrentBatch.lookup key = s.rowsInCurrentBatch.lookup key

variable {s s' : InsertState codec.Writer} {key k : PartitionTupleKey} {rows : List ArrowRow}
  {name : String}

theorem InsertState.Group.congr (h : s.Group target k rows name) (hsame : SameAt s s' k) :
    s'.Group target k rows name := by
  obtain ⟨batches, pending, builders, hrows, hwritten, hbuilders, hholds, hcount⟩ := h.parts
  exact ⟨⟨batches, pending, builders, hrows, hsame.writers ▸ hwritten, hsame.builders ▸ hbuilders,
    hholds, hsame.rows ▸ hcount⟩, hsame.targetNames ▸ h.name_eq⟩

theorem InsertState.Absent.congr (h : s.Absent k) (hsame : SameAt s s' k) : s'.Absent k :=
  ⟨hsame.builders ▸ h.builders, hsame.writers ▸ h.writers, hsame.targetNames ▸ h.targetNames,
    hsame.rows ▸ h.rows⟩

/-- One more batch is written. -/
theorem Written.write {batches : List RecordBatch} {writer writer' : codec.Writer}
    {batch : RecordBatch} (h : Written codec target batches (s.writers.lookup key))
    (hwriter : s.groupWriter codec target key = .ok writer)
    (htypes : batch.columns.map Column.dataType = target.layout.schema.map Field.dataType)
    (hwrite : codec.write writer batch = .ok writer') :
    Written codec target (batches ++ [batch]) (some writer') := by
  obtain ⟨new, hnew, hbatches, hfold⟩ : ∃ new, codec.newWriter target.layout.schema
      target.compression = .ok new ∧ (∀ batch ∈ batches,
        batch.columns.map Column.dataType = target.layout.schema.map Field.dataType) ∧
      batches.foldlM codec.write new = .ok writer := by
    unfold InsertState.groupWriter at hwriter
    cases hlookup : s.writers.lookup key with
    | none =>
      rw [hlookup] at h hwriter
      obtain rfl : batches = [] := h
      exact ⟨writer, hwriter, nofun, rfl⟩
    | some old =>
      rw [hlookup] at h hwriter
      obtain rfl := Except.ok.inj hwriter
      exact h
  refine ⟨new, hnew, fun b hb => ?_, ?_⟩
  · rcases List.mem_append.mp hb with hb | hb
    · exact hbatches b hb
    · rwa [List.mem_singleton.mp hb]
  · rw [List.foldlM_append, hfold]
    show List.foldlM codec.write writer [batch] = .ok writer'
    rw [List.foldlM_cons, hwrite]
    rfl

/-- What a flush does: nothing when no rows are pending, or it writes them as one batch. -/
theorem flushGroup_cases (h : flushGroup codec bytesWritten target s key = .ok s') :
    ((s.rowsInCurrentBatch.lookup key).getD 0 = 0 ∧ s' = s) ∨
    ∃ fresh old batch writer writer', RecordBatchBuilders.new target.layout.schema = .ok fresh ∧
      s.builders.lookup key = some old ∧ old.finish = .ok batch ∧
      s.groupWriter codec target key = .ok writer ∧ codec.write writer batch = .ok writer' ∧
      s' = { s with
        builders := s.builders.insert key fresh
        writers := s.writers.insert key writer'
        rowsInCurrentBatch := s.rowsInCurrentBatch.insert key 0 } := by
  unfold flushGroup at h
  split_ifs at h with hzero
  · exact .inl ⟨hzero, (Except.ok.inj h).symm⟩
  · obtain ⟨fresh, hfresh, h⟩ := except_bind_eq_ok.mp h
    cases hold : s.builders.lookup key with
    | none => simp [hold] at h
    | some old =>
      simp only [hold] at h
      obtain ⟨batch, hbatch, h⟩ := except_bind_eq_ok.mp h
      obtain ⟨writer, hwriter, h⟩ := except_bind_eq_ok.mp h
      obtain ⟨writer', hwrite, h⟩ := except_bind_eq_ok.mp h
      split_ifs at h
      exact .inr ⟨fresh, old, batch, writer, writer', FdwResult.lift_eq_ok.mp hfresh, rfl,
        FdwResult.lift_eq_ok.mp hbatch, FdwResult.lift_eq_ok.mp hwriter,
        FdwResult.lift_eq_ok.mp hwrite, (Except.ok.inj h).symm⟩

/-- A flush leaves the other groups alone. -/
theorem flushGroup_sameAt (h : flushGroup codec bytesWritten target s key = .ok s') (hk : k ≠ key) :
    SameAt s s' k := by
  rcases flushGroup_cases h with ⟨-, rfl⟩ | ⟨fresh, old, batch, writer, writer', -, -, -, -, -, rfl⟩
  · exact ⟨rfl, rfl, rfl, rfl⟩
  · exact ⟨AList.lookup_insert_ne hk, AList.lookup_insert_ne hk, rfl, AList.lookup_insert_ne hk⟩

/-- **A flush keeps the rows of every group.** -/
theorem InsertState.Group.flush (hg : s.Group target k rows name)
    (h : flushGroup codec bytesWritten target s key = .ok s') : s'.Group target k rows name := by
  by_cases hk : k = key
  · subst hk
    rcases flushGroup_cases h with ⟨-, rfl⟩ | ⟨fresh, old, batch, writer, writer', hfresh, hold,
      hfinish, hwriter, hwrite, rfl⟩
    · exact hg
    · obtain ⟨batches, pending, builders, hrows, hwritten, hbuilders, hholds, hcount⟩ := hg.parts
      obtain rfl : old = builders := Option.some.inj (hold.symm.trans hbuilders)
      obtain ⟨hbatch, hcolumns⟩ := hholds.finish_rows hfinish
      have htypes : batch.columns.map Column.dataType = target.layout.schema.map Field.dataType :=
        (congrArg _ hcolumns).trans hholds.types
      refine ⟨⟨batches ++ [batch], [], fresh, ?_, ?_, AList.lookup_insert _,
        RecordBatchBuilders.new_holds hfresh, AList.lookup_insert _⟩, hg.name_eq⟩
      · simp [hrows, hbatch]
      · rw [AList.lookup_insert]
        exact hwritten.write hwriter htypes hwrite
  · exact hg.congr (flushGroup_sameAt h hk)

theorem InsertState.Absent.flush (ha : s.Absent k)
    (h : flushGroup codec bytesWritten target s key = .ok s') : s'.Absent k := by
  by_cases hk : k = key
  · subst hk
    rcases flushGroup_cases h with ⟨-, rfl⟩ | ⟨fresh, old, batch, writer, writer', -, hold, -⟩
    · exact ha
    · exact absurd (ha.builders.symm.trans hold) nofun
  · exact ha.congr (flushGroup_sameAt h hk)

/-- The builders of a group that has not been seen are new. -/
theorem InsertState.Absent.groupBuilders_holds (h : s.Absent key) {builders : RecordBatchBuilders}
    (hbuilders : s.groupBuilders codec target key = .ok builders) :
    builders.Holds target.layout.schema [] := by
  unfold InsertState.groupBuilders at hbuilders
  rw [h.builders] at hbuilders
  cases hnew : RecordBatchBuilders.new target.layout.schema with
  | error e => simp [hnew] at hbuilders
  | ok new =>
    simp only [hnew] at hbuilders
    exact Except.ok.inj hbuilders ▸ RecordBatchBuilders.new_holds hnew

/-- The slots that `append_slot` appends. -/
theorem appendSlot_eq_ok_iff {layout : InsertLayout} {tuple : Tuple} {key : PartitionTupleKey}
    {row : ArrowRow} : appendSlot formatPgDays layout tuple = .ok (key, row) ↔
      layout.partitionAttnums.mapM (partitionText formatPgDays layout tuple) = .ok key ∧
        storedRow (storageCells layout tuple) = .ok row := by
  have hstored : storedRow (storageCells layout tuple) =
      (storageAttnos layout.partitionAttnums layout.pgOids.length).mapM fun i =>
        appendOne (layout.pgOids.getD i 0) (tuple.getD i none) := by
    rw [storedRow, storageCells, List.mapM_map]
    rfl
  rw [hstored, appendSlot]
  simp only [except_bind_eq_ok, pure, Except.pure, Except.ok.injEq, Prod.mk.injEq]
  constructor
  · rintro ⟨_, hkey, _, hrow, rfl, rfl⟩
    exact ⟨hkey, hrow⟩
  · rintro ⟨hkey, hrow⟩
    exact ⟨key, hkey, row, hrow, rfl, rfl⟩

/-- **A tuple adds its row to its own group**, and leaves the others alone. -/
theorem appendSlot_group {tuple : Tuple} {stamp : Stamp}
    (hwidth : (storageCells target.layout tuple).length = target.layout.schema.length)
    (hstate : ∀ k, s.Absent k ∨ ∃ rows name, s.Group target k rows name)
    (h : s.appendSlot codec formatPgDays target tuple stamp = .ok s') :
    ∃ key row, appendSlot formatPgDays target.layout tuple = .ok (key, row) ∧
      (∀ k, k ≠ key → SameAt s s' k) ∧
      (s.Absent key → s'.Group target key [row] (computeTargetName target.basePrefix
        target.legacySingleTarget target.partitionKeysDecl stamp key)) ∧
      ∀ rows name, s.Group target key rows name → s'.Group target key (rows ++ [row]) name := by
  obtain ⟨key, hkey, h⟩ := except_bind_eq_ok.mp h
  obtain ⟨builders, hbuilders, h⟩ := except_bind_eq_ok.mp h
  obtain ⟨appended, happended, h⟩ := except_bind_eq_ok.mp h
  obtain rfl := Except.ok.inj h
  rw [FdwResult.lift_eq_ok] at hkey happended
  have hseen : ∀ old, s.builders.lookup key = some old → builders = old := by
    intro old hold
    simp only [InsertState.groupBuilders, hold] at hbuilders
    exact (Except.ok.inj hbuilders).symm
  obtain ⟨pending₀, hpending₀⟩ : ∃ pending, builders.Holds target.layout.schema pending := by
    rcases hstate key with habsent | ⟨rows, name, hg⟩
    · exact ⟨[], habsent.groupBuilders_holds hbuilders⟩
    · obtain ⟨_, pending, old, -, -, hold, hholds, -⟩ := hg.parts
      exact ⟨pending, hseen old hold ▸ hholds⟩
  obtain ⟨row, hrow, -⟩ := hpending₀.append hwidth happended
  have happend : ∀ pending, builders.Holds target.layout.schema pending →
      appended.Holds target.layout.schema (pending ++ [row]) := by
    intro pending hpending
    obtain ⟨row', hrow', hholds⟩ := hpending.append hwidth happended
    rwa [← Except.ok.inj (hrow'.symm.trans hrow)]
  refine ⟨key, row, appendSlot_eq_ok_iff.mpr ⟨hkey, hrow⟩, fun k hk => ⟨AList.lookup_insert_ne hk,
    rfl, AList.lookup_insert_ne hk, AList.lookup_insert_ne hk⟩, fun habsent => ?_, fun rows name hg => ?_⟩
  · have hholds := happend [] (habsent.groupBuilders_holds hbuilders)
    refine ⟨⟨[], [row], appended, rfl, ?_, AList.lookup_insert _, hholds, ?_⟩, ?_⟩
    · rw [habsent.writers]
      rfl
    · rw [AList.lookup_insert, habsent.rows]
      rfl
    · rw [AList.lookup_insert, InsertState.groupName, habsent.targetNames]
      rfl
  · obtain ⟨batches, pending, old, hrows, hwritten, hold, hholds, hcount⟩ := hg.parts
    refine ⟨⟨batches, pending ++ [row], appended, ?_, hwritten, AList.lookup_insert _,
      happend pending (hseen old hold ▸ hholds), ?_⟩, ?_⟩
    · rw [hrows, List.append_assoc]
    · rw [AList.lookup_insert, hcount, List.length_append]
      rfl
    · rw [AList.lookup_insert, InsertState.groupName, hg.name_eq]
      rfl

/-! ### A whole statement -/

/-- The rows that were routed to a group. -/
def routedRows (key : PartitionTupleKey) (routed : List (PartitionTupleKey × ArrowRow)) :
    List ArrowRow :=
  (routed.filter fun r => r.1 = key).map Prod.snd

/-- The name was computed for the group when a tuple of it was appended. -/
def NamedBy (target : InsertTarget) (inputs : List (Tuple × Stamp))
    (routed : List (PartitionTupleKey × ArrowRow)) (key : PartitionTupleKey) (name : String) : Prop :=
  ∃ (i : ℕ) (input : Tuple × Stamp) (row : ArrowRow), inputs[i]? = some input ∧
    routed[i]? = some (key, row) ∧ name = computeTargetName target.basePrefix
      target.legacySingleTarget target.partitionKeysDecl input.2 key

/-- The state after the tuples `inputs`. -/
structure Routes (formatPgDays : Int32 → Option String) (target : InsertTarget)
    (inputs : List (Tuple × Stamp)) (routed : List (PartitionTupleKey × ArrowRow))
    (s : InsertState codec.Writer) : Prop where
  routed_eq : List.Forall₂ (fun input r => appendSlot formatPgDays target.layout input.1 = .ok r)
    inputs routed
  absent : ∀ key, key ∉ routed.map Prod.fst → s.Absent key
  group : ∀ key, key ∈ routed.map Prod.fst → ∃ name, NamedBy target inputs routed key name ∧
    s.Group target key (routedRows key routed) name

variable {inputs : List (Tuple × Stamp)} {routed : List (PartitionTupleKey × ArrowRow)}

theorem Routes.flush (h : Routes formatPgDays target inputs routed s)
    (hflush : flushGroup codec bytesWritten target s key = .ok s') :
    Routes formatPgDays target inputs routed s' where
  routed_eq := h.routed_eq
  absent k hk := (h.absent k hk).flush hflush
  group k hk := by
    obtain ⟨name, hnamed, hg⟩ := h.group k hk
    exact ⟨name, hnamed, hg.flush hflush⟩

theorem NamedBy.append {input : Tuple × Stamp} {r : PartitionTupleKey × ArrowRow}
    (h : NamedBy target inputs routed key name) :
    NamedBy target (inputs ++ [input]) (routed ++ [r]) key name := by
  obtain ⟨i, input', row, hinput, hrouted, hname⟩ := h
  refine ⟨i, input', row, ?_, ?_, hname⟩
  · rwa [List.getElem?_append_left (List.getElem?_eq_some_iff.mp hinput).1]
  · rwa [List.getElem?_append_left (List.getElem?_eq_some_iff.mp hrouted).1]

theorem routedRows_append (r : PartitionTupleKey × ArrowRow) :
    routedRows key (routed ++ [r]) = routedRows key routed ++ if r.1 = key then [r.2] else [] := by
  by_cases h : r.1 = key <;> simp [routedRows, h]

/-- One call of `exec_foreign_insert`. -/
theorem Routes.exec {iter : List PartitionTupleKey → List PartitionTupleKey} {input : Tuple × Stamp}
    (hwidth : ∀ tuple, (storageCells target.layout tuple).length = target.layout.schema.length)
    (h : Routes formatPgDays target inputs routed s)
    (hexec : execForeignInsert codec bytesWritten formatPgDays target iter s input = .ok s') :
    ∃ r, Routes formatPgDays target (inputs ++ [input]) (routed ++ [r]) s' := by
  obtain ⟨t, happend, hflush⟩ := except_bind_eq_ok.mp hexec
  have hstate : ∀ k, s.Absent k ∨ ∃ rows name, s.Group target k rows name := by
    intro k
    by_cases hk : k ∈ routed.map Prod.fst
    · obtain ⟨name, -, hg⟩ := h.group k hk
      exact .inr ⟨_, name, hg⟩
    · exact .inl (h.absent k hk)
  obtain ⟨key, row, hslot, hsame, hnew, hold⟩ := appendSlot_group (hwidth input.1) hstate happend
  refine ⟨(key, row), foldlM_invariant (Routes formatPgDays target (inputs ++ [input])
    (routed ++ [(key, row)])) (fun s k s' hstep hs => hs.flush hstep) hflush ?_⟩
  have hlength : routed.length = inputs.length := h.routed_eq.length_eq.symm
  refine ⟨?_, fun k hk => ?_, fun k hk => ?_⟩
  · exact List.rel_append h.routed_eq (.cons hslot .nil)
  · rw [List.map_append, List.mem_append, not_or] at hk
    exact (h.absent k hk.1).congr (hsame k fun heq => hk.2 (by simp [heq]))
  · rw [routedRows_append]
    by_cases hkey : k = key
    · subst hkey
      rw [if_pos rfl]
      by_cases hseen : k ∈ routed.map Prod.fst
      · obtain ⟨name, hnamed, hg⟩ := h.group k hseen
        exact ⟨name, hnamed.append, hold _ name hg⟩
      · have hnone : routedRows k routed = [] := by
          rw [routedRows, List.filter_eq_nil_iff.mpr, List.map_nil]
          intro r hr
          rw [decide_eq_true_iff]
          exact fun heq => hseen (heq ▸ List.mem_map_of_mem hr)
        rw [hnone]
        refine ⟨_, ⟨inputs.length, input, row, ?_, ?_, rfl⟩, hnew (h.absent k hseen)⟩
        · simp
        · simp [← hlength]
    · rw [if_neg (Ne.symm hkey), List.append_nil]
      have hseen : k ∈ routed.map Prod.fst := by simpa [hkey] using hk
      obtain ⟨name, hnamed, hg⟩ := h.group k hseen
      exact ⟨name, hnamed.append, hg.congr (hsame k hkey)⟩

/-- No row of the group is pending. -/
def InsertState.Flushed (s : InsertState codec.Writer) (key : PartitionTupleKey) : Prop :=
  (s.rowsInCurrentBatch.lookup key).getD 0 = 0

theorem flushGroup_flushed (h : flushGroup codec bytesWritten target s key = .ok s')
    (hk : k = key ∨ s.Flushed k) : s'.Flushed k := by
  by_cases hkey : k = key
  · subst hkey
    rcases flushGroup_cases h with ⟨hzero, rfl⟩ | ⟨fresh, old, batch, writer, writer', -, -, -, -, -, rfl⟩
    · exact hzero
    · rw [InsertState.Flushed, AList.lookup_insert]
      rfl
  · rw [InsertState.Flushed, (flushGroup_sameAt h hkey).rows]
    exact hk.resolve_left hkey

/-- The flushes at the end of a statement leave nothing pending. -/
theorem Routes.flushAll {keys : List PartitionTupleKey} (h : Routes formatPgDays target inputs routed s)
    (hflush : keys.foldlM (flushGroup codec bytesWritten target) s = .ok s') :
    Routes formatPgDays target inputs routed s' ∧ ∀ key ∈ keys, s'.Flushed key := by
  refine foldlM_induct (fun done s => Routes formatPgDays target inputs routed s ∧
    ∀ key ∈ done, s.Flushed key) ?_ hflush ⟨h, nofun⟩
  rintro done key s s' hstep ⟨hroutes, hdone⟩
  refine ⟨hroutes.flush hstep, fun k hk => flushGroup_flushed hstep ?_⟩
  rcases List.mem_append.mp hk with hk | hk
  · exact .inr (hdone k hk)
  · exact .inl (List.mem_singleton.mp hk)

theorem routedRows_ne_nil (h : key ∈ routed.map Prod.fst) : routedRows key routed ≠ [] := by
  obtain ⟨r, hr, rfl⟩ := List.mem_map.mp h
  exact List.ne_nil_of_mem (List.mem_map_of_mem (List.mem_filter.mpr ⟨hr, by simp⟩))

/-- The writer of a group with nothing pending has been given all its rows. -/
theorem InsertState.Group.writer (h : s.Group target key rows name) (hflushed : s.Flushed key)
    (hrows : rows ≠ []) : ∃ batches writer, s.writers.lookup key = some writer ∧
      rows = batches.flatMap RecordBatch.rows ∧ Written codec target batches (some writer) := by
  obtain ⟨batches, pending, builders, hsplit, hwritten, -, -, hcount⟩ := h.parts
  rw [Flushed, hcount] at hflushed
  obtain rfl : pending = [] := List.length_eq_zero_iff.mp hflushed
  rw [List.append_nil] at hsplit
  cases hwriter : s.writers.lookup key with
  | none =>
    rw [hwriter] at hwritten
    obtain rfl : batches = [] := hwritten
    exact absurd hsplit hrows
  | some writer => exact ⟨batches, writer, rfl, hsplit, hwriter ▸ hwritten⟩

/-- The blob of a group. -/
structure GroupBlob (codec : ParquetCodec) (target : InsertTarget) (inputs : List (Tuple × Stamp))
    (routed : List (PartitionTupleKey × ArrowRow)) (key : PartitionTupleKey) (blob : String × Bytes) :
    Prop where
  mem : key ∈ routed.map Prod.fst
  named : NamedBy target inputs routed key blob.1
  holds : codec.Holds blob.2 (routedRows key routed)

/-- The writers in order: each group that has one, once. -/
theorem mem_sortedWriters {entry : PartitionTupleKey × codec.Writer} :
    entry ∈ s.sortedWriters codec ↔ s.writers.lookup entry.1 = some entry.2 := by
  rw [InsertState.sortedWriters, List.mem_insertionSort, List.mem_map, ← Option.mem_def,
    AList.mem_lookup_iff]
  constructor
  · rintro ⟨e, he, rfl⟩
    exact he
  · intro he
    exact ⟨_, he, rfl⟩

theorem nodup_sortedWriters : ((s.sortedWriters codec).map Prod.fst).Nodup := by
  have hperm := (List.perm_insertionSort (fun a b : PartitionTupleKey × codec.Writer =>
    (List.compareLex (compareOn utf8Bytes) a.1 b.1).isLE = true)
    (s.writers.entries.map fun e => (e.1, e.2))).map Prod.fst
  rw [InsertState.sortedWriters, hperm.nodup_iff, List.map_map]
  exact s.writers.nodupKeys

end Groups

/-! ### Groups and partition tuples -/

/-- The values of the partition columns of a tuple. -/
def partitionTuple (layout : InsertLayout) (tuple : Tuple) : List (Option Datum) :=
  layout.partitionAttnums.map fun a => tuple.getD a none

/-- The types under which a datum can be a partition value. -/
def Datum.PartitionOid (oid : Oid) : Datum → Prop
  | .int2 _ => oid = int2Oid
  | .int4 _ => oid = int4Oid
  | .int8 _ => oid = int8Oid
  | .date _ => oid = dateOid
  | .text _ => oid = textOid ∨ oid = varcharOid
  | _ => False

section Tuples

variable {formatPgDays : Int32 → Option String} {oid : Oid} {d d' : Datum} {text : String}

theorem partitionOid_of_string (h : datumToPartitionString formatPgDays oid d = .ok text) :
    d.PartitionOid oid := by
  cases d with
  | int2 | int4 | int8 | date | text =>
    rw [datumToPartitionString] at h
    split_ifs at h with hoid
    · exact hoid
    · cases h
  | _ => cases h

theorem toString_int_injective {v w : ℤ} (hv : 0 ≤ v) (hw : 0 ≤ w) (h : toString v = toString w) :
    v = w := by
  obtain ⟨m, rfl⟩ := Int.eq_ofNat_of_zero_le hv
  obtain ⟨n, rfl⟩ := Int.eq_ofNat_of_zero_le hw
  have hdigits : Nat.toDigits 10 m = Nat.toDigits 10 n :=
    (Nat.toList_repr.symm.trans (congrArg String.toList h)).trans Nat.toList_repr
  have hparse := parseDigits_toDigits m
  rw [hdigits, parseDigits_toDigits] at hparse
  exact congrArg _ (Option.some.inj hparse).symm

/-- The type of a column decides which kind of datum its values are. -/
theorem Datum.PartitionOid.kind_eq (h : d.PartitionOid oid) (h' : d'.PartitionOid oid) :
    (d.int?.isSome = d'.int?.isSome ∧ ((∃ v, d = .date v) ↔ ∃ v, d' = .date v)) ∧
      ∀ v, d.int? = some v → d'.int? = some v → d = d' := by
  cases d <;> cases d' <;>
    simp_all [Datum.PartitionOid, Datum.int?, int2Oid, int4Oid, int8Oid, dateOid, textOid, varcharOid,
      Int16.toInt_inj, Int32.toInt_inj, Int64.toInt_inj]

/-- Two values of a column with one text are one value. -/
theorem datumToPartitionString_injective
    (hdates : ∀ v w text, formatPgDays v = some text → formatPgDays w = some text → v = w)
    (h : datumToPartitionString formatPgDays oid d = .ok text)
    (h' : datumToPartitionString formatPgDays oid d' = .ok text) : d = d' := by
  obtain ⟨⟨hint, hdate⟩, heq⟩ := (partitionOid_of_string h).kind_eq (partitionOid_of_string h')
  rcases datumToPartitionString_eq_ok h with ⟨v, hv, hpos, htext⟩ | ⟨v, rfl, hv⟩ | ⟨rfl, -⟩ <;>
    rcases datumToPartitionString_eq_ok h' with ⟨w, hw, hpos', htext'⟩ | ⟨w, rfl, hw⟩ | ⟨rfl, -⟩
  · obtain rfl := toString_int_injective hpos hpos' (htext.symm.trans htext')
    exact heq v hv hw
  · rw [hv] at hint
    cases hint
  · rw [hv] at hint
    cases hint
  · rw [hw] at hint
    cases hint
  · rw [hdates v w text hv hw]
  · simp at hdate
  · rw [hw] at hint
    cases hint
  · simp at hdate
  · rfl

variable {layout : InsertLayout} {tuple tuple' : Tuple} {key key' : PartitionTupleKey}
  {row row' : ArrowRow}

theorem partitionText_eq_ok_iff {attno : ℕ} :
    partitionText formatPgDays layout tuple attno = .ok text ↔ ∃ d, tuple.getD attno none = some d ∧
      datumToPartitionString formatPgDays (layout.pgOids.getD attno 0) d = .ok text := by
  rw [partitionText]
  cases tuple.getD attno none with
  | none => exact ⟨nofun, nofun⟩
  | some d => exact ⟨fun h => ⟨d, rfl, h⟩, fun ⟨_, hd, h⟩ => Option.some.inj hd ▸ h⟩

/-- **Tuples are in one group when their partition tuples are equal.** -/
theorem appendSlot_key_eq_iff
    (hdates : ∀ v w text, formatPgDays v = some text → formatPgDays w = some text → v = w)
    (h : appendSlot formatPgDays layout tuple = .ok (key, row))
    (h' : appendSlot formatPgDays layout tuple' = .ok (key', row')) :
    key = key' ↔ partitionTuple layout tuple = partitionTuple layout tuple' := by
  have hkey := (appendSlot_eq_ok_iff.mp h).1
  have hkey' := (appendSlot_eq_ok_iff.mp h').1
  rw [partitionTuple, partitionTuple, List.map_inj_left]
  constructor
  · rintro rfl a ha
    obtain ⟨i, hi⟩ := List.getElem?_of_mem ha
    obtain ⟨text, htext, hone⟩ := forall₂_getElem? (mapM_eq_ok_iff.mp hkey) hi
    obtain ⟨text', htext', hone'⟩ := forall₂_getElem? (mapM_eq_ok_iff.mp hkey') hi
    obtain rfl : text = text' := Option.some.inj (htext.symm.trans htext')
    obtain ⟨d, hd, hstring⟩ := partitionText_eq_ok_iff.mp hone
    obtain ⟨d', hd', hstring'⟩ := partitionText_eq_ok_iff.mp hone'
    rw [hd, hd', datumToPartitionString_injective hdates hstring hstring']
  · intro hsame
    have htexts := (List.forall₂_and_left _ _).mpr ⟨hsame, mapM_eq_ok_iff.mp hkey⟩
    have hagain : layout.partitionAttnums.mapM (partitionText formatPgDays layout tuple') = .ok key :=
      mapM_eq_ok_iff.mpr <| htexts.imp fun a text ⟨ha, htext⟩ => by
        rwa [partitionText, ← ha]
    exact Except.ok.inj (hagain.symm.trans hkey')

/-- A tuple has a value for each storage column. -/
theorem length_storageCells {attrs : List Attribute} {opts : PartitionOptions}
    (h : buildInsertLayout attrs opts = .ok layout) (tuple : Tuple) :
    (storageCells layout tuple).length = layout.schema.length := by
  obtain ⟨hoids, -, hschema⟩ := buildInsertLayout_spec h
  rw [storageCells, List.length_map, ← (mapM_eq_ok_iff.mp hschema).length_eq, hoids, List.length_map,
    List.filterMap_length_eq_length.mpr]
  intro a ha
  simpa using (mem_storageAttnos.mp ha).1

/-- The last segment of a generated name is the file of its stamp. -/
theorem rtakeWhile_generateBlobName (stamp : Stamp) (path : String) :
    (generateBlobName stamp path).toList.rtakeWhile (· != '/') = stamp.file.toList := by
  have hfile : ∀ c ∈ stamp.file.toList.reverse, (c != '/') = true := by
    intro c hc
    rw [bne_iff_ne]
    rintro rfl
    exact stamp.not_mem_file (by decide) (by decide) (List.mem_reverse.mp hc)
  rw [generateBlobName]
  split_ifs
  · rw [List.rtakeWhile, List.takeWhile_eq_self_iff.mpr hfile, List.reverse_reverse]
  · rw [List.rtakeWhile, String.toList_append, List.reverse_append,
      List.takeWhile_append_of_pos hfile]
    simp

end Tuples

/-! ### Before the uploads -/

section Statement

variable {codec : ParquetCodec} {bytesWritten : codec.Writer → ℕ}
  {formatPgDays : Int32 → Option String} {target : InsertTarget}
  {iter : List PartitionTupleKey → List PartitionTupleKey} {inputs : List (Tuple × Stamp)}
  {routed : List (PartitionTupleKey × ArrowRow)} {s s' : InsertState codec.Writer}

/-- The state after the tuples of a statement. -/
theorem exists_routes
    (hwidth : ∀ tuple, (storageCells target.layout tuple).length = target.layout.schema.length)
    (hrun : inputs.foldlM (execForeignInsert codec bytesWritten formatPgDays target iter) .initial =
      .ok s) : ∃ routed, Routes formatPgDays target inputs routed s := by
  refine foldlM_induct (fun done s => ∃ routed, Routes formatPgDays target done routed s) ?_ hrun
    ⟨[], .nil, fun _ _ => ⟨rfl, rfl, rfl, rfl⟩, nofun⟩
  rintro done input s s' hstep ⟨routed, hroutes⟩
  obtain ⟨r, hnext⟩ := hroutes.exec hwidth hstep
  exact ⟨routed ++ [r], hnext⟩

/-- The order of the groups: that of their keys, as lists of texts. -/
def KeyLE (key key' : PartitionTupleKey) : Prop :=
  (List.compareLex (compareOn utf8Bytes) key key').isLE = true

theorem pairwise_sortedWriters : ((s.sortedWriters codec).map Prod.fst).Pairwise KeyLE := by
  let le := fun a b : PartitionTupleKey × codec.Writer =>
    (List.compareLex (compareOn utf8Bytes) a.1 b.1).isLE = true
  have htotal : Std.Total le := by
    refine ⟨fun a b => ?_⟩
    have hswap : List.compareLex (compareOn utf8Bytes) b.1 a.1 =
        (List.compareLex (compareOn utf8Bytes) a.1 b.1).swap := Std.OrientedCmp.eq_swap
    simp only [le, hswap]
    cases List.compareLex (compareOn utf8Bytes) a.1 b.1 <;> simp
  have htrans : IsTrans (PartitionTupleKey × codec.Writer) le := ⟨fun a b c => Std.TransCmp.isLE_trans⟩
  exact List.pairwise_map.mpr (List.pairwise_insertionSort le _)

/-- The groups of the tuples of a statement, in the order of their keys. -/
structure GroupOrder (formatPgDays : Int32 → Option String) (target : InsertTarget)
    (inputs : List (Tuple × Stamp)) (order : List PartitionTupleKey)
    (routed : List (PartitionTupleKey × ArrowRow)) : Prop where
  routed_eq : List.Forall₂ (fun input r => appendSlot formatPgDays target.layout input.1 = .ok r)
    inputs routed
  nodup : order.Nodup
  sorted : order.Pairwise KeyLE
  mem_iff : ∀ key, key ∈ order ↔ key ∈ routed.map Prod.fst

/-- The state that the uploads start from: every group has all its rows in its writer. -/
structure Ready (formatPgDays : Int32 → Option String) (target : InsertTarget)
    (inputs : List (Tuple × Stamp)) (routed : List (PartitionTupleKey × ArrowRow))
    (s : InsertState codec.Writer) : Prop where
  routes : Routes formatPgDays target inputs routed s
  flushed : ∀ key, key ∈ routed.map Prod.fst → s.Flushed key

/-- **A statement that comes to its uploads is ready for them.** -/
theorem exists_ready {attrs : List Attribute} {opts : PartitionOptions}
    (hlayout : buildInsertLayout attrs opts = .ok target.layout)
    (hiter : ∀ keys, (iter keys).Perm keys)
    (h : collectGroups codec bytesWritten formatPgDays target iter inputs = .ok s) :
    ∃ routed, Ready formatPgDays target inputs routed s := by
  obtain ⟨t, hinserts, hflush⟩ := except_bind_eq_ok.mp h
  obtain ⟨routed, ht⟩ := exists_routes (length_storageCells hlayout) hinserts
  obtain ⟨hroutes, hflushed⟩ := ht.flushAll hflush
  refine ⟨routed, hroutes, fun key hkey => hflushed key ((hiter _).mem_iff.mpr ?_)⟩
  obtain ⟨name, -, hg⟩ := ht.group key hkey
  obtain ⟨-, -, builders, -, -, hbuilders, -⟩ := hg.parts
  exact AList.mem_keys.mp (AList.lookup_isSome.mp (by rw [hbuilders]; rfl))

/-- Every group has a writer. -/
theorem Ready.groupOrder (h : Ready formatPgDays target inputs routed s) :
    GroupOrder formatPgDays target inputs ((s.sortedWriters codec).map Prod.fst) routed where
  routed_eq := h.routes.routed_eq
  nodup := nodup_sortedWriters
  sorted := pairwise_sortedWriters
  mem_iff key := by
    rw [List.mem_map]
    constructor
    · rintro ⟨entry, hentry, rfl⟩
      by_contra hmem
      cases (h.routes.absent _ hmem).writers.symm.trans (mem_sortedWriters.mp hentry)
    · intro hmem
      obtain ⟨name, -, hg⟩ := h.routes.group key hmem
      obtain ⟨batches, writer, hwriter, -⟩ := hg.writer (h.flushed key hmem) (routedRows_ne_nil hmem)
      exact ⟨(key, writer), mem_sortedWriters.mpr hwriter, rfl⟩

/-- The blob that a group's writer makes. -/
theorem Ready.groupBlob (hcodec : codec.Faithful) (h : Ready formatPgDays target inputs routed s)
    {entry : PartitionTupleKey × codec.Writer} (hentry : entry ∈ s.sortedWriters codec) {name : String}
    (hname : s.targetNames.lookup entry.1 = some name) {bytes : Bytes}
    (hbytes : codec.finish entry.2 = .ok bytes) :
    GroupBlob codec target inputs routed entry.1 (name, bytes) := by
  have hmem := (h.groupOrder.mem_iff entry.1).mp (List.mem_map_of_mem hentry)
  obtain ⟨name', hnamed, hg⟩ := h.routes.group entry.1 hmem
  obtain ⟨batches, writer, hwriter, hrows, new, hnew, htypes, hfold⟩ :=
    hg.writer (h.flushed entry.1 hmem) (routedRows_ne_nil hmem)
  obtain rfl := Option.some.inj (hwriter.symm.trans (mem_sortedWriters.mp hentry))
  obtain rfl := Option.some.inj (hg.name_eq.symm.trans hname)
  refine ⟨hmem, hnamed, ?_⟩
  rw [hrows]
  exact hcodec.reads_back _ _ _ batches _ _ hnew htypes hfold hbytes

variable {order : List PartitionTupleKey} {key key' : PartitionTupleKey} {name : String}

/-- Groups do not share a name. -/
theorem GroupOrder.name_unique (h : GroupOrder formatPgDays target inputs order routed)
    (hstamps : (inputs.map fun input => input.2.file).Nodup)
    (hname : NamedBy target inputs routed key name) (hname' : NamedBy target inputs routed key' name) :
    key = key' := by
  obtain ⟨i, input, row, hi, hrouted, rfl⟩ := hname
  obtain ⟨i', input', row', hi', hrouted', hsame⟩ := hname'
  have hlength : ∀ {i : ℕ} {key : PartitionTupleKey} {row : ArrowRow}, routed[i]? = some (key, row) →
      key.length = target.layout.partitionAttnums.length := by
    intro i key row hr
    obtain ⟨input, -, hslot⟩ := forall₂_getElem? h.routed_eq.flip hr
    exact (mapM_eq_ok_iff.mp (appendSlot_eq_ok_iff.mp hslot).1).length_eq.symm
  have hlengths : key.length = key'.length := (hlength hrouted).trans (hlength hrouted').symm
  cases key with
  | nil => exact (List.length_eq_zero_iff.mp hlengths.symm).symm
  | cons text texts =>
    obtain ⟨text', texts', rfl⟩ := List.exists_cons_of_length_eq_add_one hlengths.symm
    -- both names are generated, and the file is the last segment of each
    have hfiles : input.2.file = input'.2.file := by
      have hlast := congrArg (fun name : String => name.toList.rtakeWhile (· != '/')) hsame
      simp only [computeTargetName, List.isEmpty_cons, Bool.false_eq_true, if_false,
        rtakeWhile_generateBlobName] at hlast
      exact String.toList_inj.mp hlast
    have hfile : ∀ {i : ℕ} {input : Tuple × Stamp}, inputs[i]? = some input →
        (inputs.map fun input => input.2.file)[i]? = some input.2.file := by
      intro i input hi
      rw [List.getElem?_map, hi]
      rfl
    have hindex : i = i' := (List.getElem?_inj (List.getElem?_eq_some_iff.mp (hfile hi)).1 hstamps).mp
      ((hfile hi).trans (hfiles ▸ (hfile hi').symm))
    subst hindex
    exact congrArg Prod.fst (Option.some.inj (hrouted.symm.trans hrouted'))

/-- So different groups have different blobs, when no two generated files share a name. -/
theorem GroupOrder.nodup_names (h : GroupOrder formatPgDays target inputs order routed)
    (hstamps : (inputs.map fun input => input.2.file).Nodup) {keys : List PartitionTupleKey}
    (hkeys : keys.Nodup) {blobs : List (String × Bytes)}
    (hblobs : List.Forall₂ (GroupBlob codec target inputs routed) keys blobs) :
    (blobs.map Prod.fst).Nodup := by
  induction hblobs with
  | nil => exact List.nodup_nil
  | @cons key blob keys blobs hblob hrest ih =>
    obtain ⟨hkey, hkeys⟩ := List.nodup_cons.mp hkeys
    refine List.nodup_cons.mpr ⟨fun hmem => hkey ?_, ih hkeys⟩
    obtain ⟨blob', hblob', hname⟩ := List.mem_map.mp hmem
    obtain ⟨key', hkey', hgroup⟩ := forall₂_exists_of_mem hrest.flip hblob'
    rwa [h.name_unique hstamps hblob.named (hname ▸ hgroup.named)]

/-- The rows of a group are those of the tuples with its partition tuple. -/
theorem GroupOrder.routedRows_stored (h : GroupOrder formatPgDays target inputs order routed)
    {p : List (Option Datum)} (hp : ∀ input r, appendSlot formatPgDays target.layout input = .ok r →
      (partitionTuple target.layout input = p ↔ r.1 = key)) :
    List.Forall₂ (fun tuple row => storedRow (storageCells target.layout tuple) = .ok row)
      ((inputs.map Prod.fst).filter fun tuple => partitionTuple target.layout tuple = p)
      (routedRows key routed) := by
  have hslots : List.Forall₂ (fun tuple r => appendSlot formatPgDays target.layout tuple = .ok r)
      (inputs.map Prod.fst) routed := List.forall₂_map_left_iff.mpr h.routed_eq
  have hfiltered := List.rel_filter (p := fun tuple => decide (partitionTuple target.layout tuple = p))
    (q := fun r => decide (r.1 = key)) (fun input r hr => by simpa using hp input r hr) hslots
  rw [routedRows, List.forall₂_map_right_iff]
  exact hfiltered.imp fun tuple r hr => (appendSlot_eq_ok_iff.mp hr).2

end Statement

end ParquetAzureFdw
