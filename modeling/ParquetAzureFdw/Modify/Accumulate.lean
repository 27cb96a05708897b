/-
# The edits of a statement

`record_delete` and `record_update` of `src/fdw/modify/update.rs` are given the plan
as `&mut`, once for each row of the statement, with the row identity that the
executor hands them.  Here they are run one after the other, from the plan that
`build_plan` returns, on any row identities: those of the scan, stale ones, and ones
that name no chunk.

Both functions check the budget and resolve the row before they touch the plan, so a
call that fails leaves it as it was (`eq_of_recordStep_error`).  A call that succeeds
adds its target, the base id and the absolute row it resolved to, and nothing else
(`Accumulated.withEdit`).  The deletes are keyed by 32 bits and the updates by 64:
both name the same rows, since the table has no chunk that starts above
`2^32 - 65536` (`row_lt_of_buildBlobTable`).
-/

import ParquetAzureFdw.Modify.Record

namespace ParquetAzureFdw

open Runs

/-! ### The calls -/

/-- The plan that `build_plan` returns. -/
def builtPlan (table : List BlobIdEntry) (schema : List Field) (compression : Compression) :
    ModifyPlan :=
  ⟨table, [], schema, compression, 0⟩

/-- A function that is given the plan as `&mut`: an error does not undo what was done to
the plan before. -/
abbrev PlanM (α : Type) : Type := ExceptT FdwError (StateM ModifyPlan) α

/-- The `?` after a function that only reads the plan. -/
def PlanM.ofResult {α : Type} (f : ModifyPlan → FdwResult α) : PlanM α :=
  ExceptT.mk fun plan => (f plan, plan)

/-- A statement that changes the plan. -/
def PlanM.change (f : ModifyPlan → ModifyPlan) : PlanM Unit :=
  ExceptT.mk fun plan => (.ok (), f plan)

/-- `plan.edits.entry(base_id).or_default()`. -/
def ModifyPlan.orDefault (plan : ModifyPlan) (base : UInt32) : ModifyPlan :=
  match plan.edits.lookup base with
  | some _ => plan
  | none => { plan with edits := (base, ⟨[], []⟩) :: plan.edits }

/-- `entry.deletes.insert(abs32)` or `entry.updates.insert(abs_row, ovr)`. -/
def ModifyPlan.insertEdit (plan : ModifyPlan) (base : UInt32) (abs : ℕ) (edit : RowEdit) :
    ModifyPlan :=
  { plan with
    edits := (base, ((plan.edits.lookup base).getD ⟨[], []⟩).record abs edit) ::
      plan.edits.filter fun e => e.1 ≠ base }

/-- `plan.edit_count = plan.edit_count.saturating_add(1)`. -/
def ModifyPlan.countEdit (plan : ModifyPlan) : ModifyPlan :=
  { plan with editCount := min (plan.editCount + 1) (2 ^ 64 - 1) }

/-- `record_delete` and `record_update`, statement by statement. -/
def recordIn (rid : RowId) (edit : RowEdit) : PlanM Unit := do
  PlanM.ofResult checkEditBudget
  let target ← PlanM.ofResult fun plan => resolveToSource plan.blobTable rid
  PlanM.change (·.orDefault target.1)
  PlanM.change (·.insertEdit target.1 target.2 edit)
  PlanM.change ModifyPlan.countEdit

/-- A call and what it returned. -/
structure RecordCall where
  rid : RowId
  edit : RowEdit
  result : FdwResult Unit

/-- One call: what it returns, and the plan it leaves. -/
def RecordStep (plan : ModifyPlan) (c : RecordCall) (plan' : ModifyPlan) : Prop :=
  (recordIn c.rid c.edit).run plan = (c.result, plan')

/-- The calls of a statement, one after the other: what each returned, and the plan they
leave. -/
def recordCalls (plan : ModifyPlan) : List (RowId × RowEdit) → List RecordCall × ModifyPlan
  | [] => ([], plan)
  | (rid, edit) :: calls =>
    let made := (recordIn rid edit).run plan
    let rest := recordCalls made.2 calls
    (⟨rid, edit, made.1⟩ :: rest.1, rest.2)

/-- The calls are a run. -/
theorem run_recordCalls (plan : ModifyPlan) (calls : List (RowId × RowEdit)) :
    Run RecordStep plan (recordCalls plan calls).1 (recordCalls plan calls).2 := by
  induction calls generalizing plan with
  | nil => exact .nil
  | cons call calls ih => exact .cons rfl (ih _)

/-! ### What a call does -/

section Step

variable {plan plan' : ModifyPlan} {c : RecordCall}

/-- The entry is looked up once it is there. -/
theorem countEdit_insertEdit_orDefault (plan : ModifyPlan) (base : UInt32) (abs : ℕ)
    (edit : RowEdit) :
    ((plan.orDefault base).insertEdit base abs edit).countEdit = plan.withEdit base abs edit := by
  rw [ModifyPlan.orDefault]
  cases hlookup : plan.edits.lookup base with
  | some edits => simp [ModifyPlan.insertEdit, ModifyPlan.countEdit, ModifyPlan.withEdit]
  | none => simp [ModifyPlan.insertEdit, ModifyPlan.countEdit, ModifyPlan.withEdit, hlookup]

section Bind

variable {α β : Type} {f : ModifyPlan → FdwResult α} {g : α → PlanM β}

theorem PlanM.run_ofResult_ok {a : α} (h : f plan = .ok a) :
    (PlanM.ofResult f >>= g).run plan = (g a).run plan := by
  show ExceptT.bindCont g (f plan) plan = _
  rw [h]
  rfl

theorem PlanM.run_ofResult_error {e : FdwError} (h : f plan = .error e) :
    (PlanM.ofResult f >>= g).run plan = (.error e, plan) := by
  show ExceptT.bindCont g (f plan) plan = _
  rw [h]
  rfl

end Bind

/-- A call fails before it touches the plan. -/
theorem recordIn_of_error {rid : RowId} {edit : RowEdit} {e : FdwError}
    (h : recordEdit plan rid edit = .error e) : (recordIn rid edit).run plan = (.error e, plan) := by
  cases hbudget : checkEditBudget plan with
  | error e' =>
    rw [recordEdit, hbudget] at h
    obtain rfl : e' = e := Except.error.inj h
    exact PlanM.run_ofResult_error hbudget
  | ok _ =>
    rw [recordEdit, hbudget] at h
    rw [recordIn, PlanM.run_ofResult_ok hbudget]
    cases hresolve : resolveToSource plan.blobTable rid with
    | error e' =>
      rw [hresolve] at h
      obtain rfl : e' = e := Except.error.inj h
      exact PlanM.run_ofResult_error hresolve
    | ok target =>
      rw [hresolve] at h
      cases h

/-- A call that succeeds makes its changes to the plan. -/
theorem recordIn_of_ok {rid : RowId} {edit : RowEdit} (h : recordEdit plan rid edit = .ok plan') :
    (recordIn rid edit).run plan = (.ok (), plan') := by
  obtain ⟨_, hbudget, h⟩ := except_bind_eq_ok.mp h
  obtain ⟨⟨base, abs⟩, hresolve, h⟩ := except_bind_eq_ok.mp h
  obtain rfl := Except.ok.inj h
  rw [recordIn, PlanM.run_ofResult_ok hbudget,
    PlanM.run_ofResult_ok hresolve, ← countEdit_insertEdit_orDefault]
  rfl

/-- **A call either fails and leaves the plan, or adds one edit.** -/
theorem recordStep_cases (h : RecordStep plan c plan') :
    (∃ e, c.result = .error e ∧ plan' = plan) ∨
      c.result = .ok () ∧ plan.editCount < maxEditsPerStatement ∧
        ∃ base abs, resolveToSource plan.blobTable c.rid = .ok (base, abs) ∧
          plan' = plan.withEdit base abs c.edit := by
  rw [RecordStep] at h
  cases hrecord : recordEdit plan c.rid c.edit with
  | error e =>
    rw [recordIn_of_error hrecord] at h
    obtain ⟨hresult, hplan⟩ := Prod.mk.inj h
    exact .inl ⟨e, hresult.symm, hplan.symm⟩
  | ok plan₁ =>
    rw [recordIn_of_ok hrecord] at h
    obtain ⟨hresult, rfl⟩ := Prod.mk.inj h
    exact .inr ⟨hresult.symm, recordEdit_budget hrecord, recordEdit_eq_ok hrecord⟩

/-- A call that returns an error leaves the plan as it was. -/
theorem eq_of_recordStep_error (h : RecordStep plan c plan') {e : FdwError}
    (he : c.result = .error e) : plan' = plan := by
  rcases recordStep_cases h with ⟨-, -, hplan⟩ | ⟨hok, -⟩
  · exact hplan
  · rw [he] at hok
    cases hok

end Step

/-! ### The rows of a table -/

section Table

variable {table : List BlobIdEntry} {rid : RowId} {base : UInt32} {abs : ℕ}

/-- The entries from `base` to `j` are of one blob, and the entry before them is not. -/
structure BlobRun (table : List BlobIdEntry) (base j : ℕ) (name : String) : Prop where
  le : base ≤ j
  same : ∀ i, base ≤ i → i ≤ j → (table[i]?).map (·.name) = some name
  first : ∀ i, i + 1 = base → (table[i]?).map (·.name) ≠ some name

/-- The walk back ends at the first entry of the blob. -/
theorem blobRun_of_walkBack {name : String} {j b : ℕ} (h : walkBack table name j = .ok b)
    (hj : (table[j]?).map (·.name) = some name) : BlobRun table b j name := by
  have hself : ∀ i, j ≤ i → i ≤ j → (table[i]?).map (·.name) = some name := fun i hle hge => by
    rwa [Nat.le_antisymm hge hle]
  induction j with
  | zero =>
    obtain rfl := Except.ok.inj h
    exact ⟨le_rfl, hself, fun i hi => by omega⟩
  | succ j ih =>
    rw [walkBack] at h
    cases hprev : table[j]? with
    | none =>
      rw [hprev] at h
      cases h
    | some prev =>
      simp only [hprev] at h
      split_ifs at h with hname
      · obtain rfl := Except.ok.inj h
        refine ⟨le_rfl, hself, fun i hi => ?_⟩
        obtain rfl : i = j := by omega
        simpa [hprev] using hname
      · have hrun := ih h (by simpa [hprev] using hname) fun i hle hge => by
          obtain rfl : i = j := by omega
          simpa [hprev] using hname
        refine ⟨hrun.le.trans (Nat.le_succ j), fun i hle hge => ?_, hrun.first⟩
        rcases Nat.of_le_succ hge with hge | rfl
        · exact hrun.same i hle hge
        · exact hj

/-- The row identity `rid` stands for row `abs` of the blob whose entries begin at
`base`. -/
structure SourceRow (table : List BlobIdEntry) (rid : RowId) (base : UInt32) (abs : ℕ) : Prop where
  resolves : resolveToSource table rid = .ok (base, abs)
  blob_run : ∃ chunk, table[rid.blobId.toNat]? = some chunk ∧
    abs = chunk.chunkBaseRow + rid.offset.toNat ∧
    BlobRun table base.toNat rid.blobId.toNat chunk.name
  /-- `abs_row as u32` is the row. -/
  narrows : (UInt32.ofNat abs).toNat = abs

/-- What is resolved is in the blob of the chunk that the identity names. -/
theorem blobRun_of_resolveToSource (h : resolveToSource table rid = .ok (base, abs)) :
    ∃ chunk, table[rid.blobId.toNat]? = some chunk ∧ abs = chunk.chunkBaseRow + rid.offset.toNat ∧
      BlobRun table base.toNat rid.blobId.toNat chunk.name := by
  rw [resolveToSource] at h
  cases hchunk : table[rid.blobId.toNat]? with
  | none =>
    rw [hchunk] at h
    cases h
  | some chunk =>
    simp only [hchunk] at h
    obtain ⟨b, hwalk, h⟩ := except_bind_eq_ok.mp h
    obtain ⟨rfl, rfl⟩ := Prod.mk.inj (Except.ok.inj h)
    have hrun := blobRun_of_walkBack hwalk (by rw [hchunk]; rfl)
    refine ⟨chunk, rfl, rfl, ?_⟩
    rwa [toNat_rowKey (hrun.le.trans_lt rid.blobId.toNat_lt)]

/-- A blob with fewer than `2^32` rows has at most `2^16` chunks, so the chunk's last row
still fits. -/
theorem row_lt_of_buildBlobTable {countRows : String → FdwResult ℕ} {blobs : List ListedBlob}
    (htable : buildBlobTable countRows blobs = .ok table) {j : ℕ} {entry : BlobIdEntry}
    (hentry : table[j]? = some entry) (offset : UInt16) :
    entry.chunkBaseRow + offset.toNat < 2 ^ 32 := by
  obtain ⟨counted, -, rfl, hcounts⟩ := buildBlobTable_eq_ok htable
  rw [planTable, List.getElem?_map, Option.map_eq_some_iff] at hentry
  obtain ⟨⟨blob, k⟩, hk, rfl⟩ := hentry
  obtain ⟨i, n, hseg, hlt, -⟩ := Segments.exists_of_getElem? hk
  obtain ⟨⟨blob', rows⟩, hc, hchunks⟩ :
      ∃ c, counted[i]? = some c ∧ (c.1, planChunks c.2) = (blob, n) := by
    simpa [planSegments] using hseg
  obtain rfl : planChunks rows = n := congrArg Prod.snd hchunks
  have hrows : rows < 2 ^ 32 := (hcounts _ (List.mem_of_getElem? hc)).2
  have hoffset := offset.toNat_lt
  simp only [planChunks, chunkRows] at hlt
  simp only [chunkEntry, chunkRows]
  omega

/-- **Every row identity that resolves on `build_plan`'s table stands for a row that 32 bits
can name.** -/
theorem SourceRow.of_resolves {countRows : String → FdwResult ℕ} {blobs : List ListedBlob}
    (htable : buildBlobTable countRows blobs = .ok table)
    (h : resolveToSource table rid = .ok (base, abs)) : SourceRow table rid base abs := by
  obtain ⟨chunk, hchunk, rfl, hrun⟩ := blobRun_of_resolveToSource h
  exact ⟨h, ⟨chunk, hchunk, rfl, hrun⟩,
    toNat_rowKey (row_lt_of_buildBlobTable htable hchunk rid.offset)⟩

end Table

/-! ### What a plan has accumulated -/

/-- What a call resolved to. -/
structure EditTarget where
  base : UInt32
  abs : ℕ
  edit : RowEdit
  deriving DecidableEq

/-- The target of a call, if it succeeded. -/
def RecordCall.target (table : List BlobIdEntry) (c : RecordCall) : Option EditTarget :=
  match c.result, resolveToSource table c.rid with
  | .ok _, .ok (base, abs) => some ⟨base, abs, c.edit⟩
  | _, _ => none

/-- The last update of a row among the targets. -/
def LastUpdate (targets : List EditTarget) (base : UInt32) (abs : ℕ) (override : RowOverride) :
    Prop :=
  ∃ earlier later, targets = earlier ++ ⟨base, abs, .update override⟩ :: later ∧
    ∀ override', (⟨base, abs, .update override'⟩ : EditTarget) ∉ later

/-- The edits of a blob. -/
def ModifyPlan.editsAt (plan : ModifyPlan) (base : UInt32) : BlobEdits :=
  (plan.edits.lookup base).getD ⟨[], []⟩

/-- The plan has the targets' deletes and last updates, under their blobs, and nothing
else. -/
structure Accumulated (plan : ModifyPlan) (targets : List EditTarget) : Prop where
  blobs : ∀ base, (plan.edits.lookup base).isSome ↔ ∃ t ∈ targets, t.base = base
  deletes : ∀ base k, k ∈ (plan.editsAt base).deletes ↔ ⟨base, k.toNat, .delete⟩ ∈ targets
  updates : ∀ base abs override, (abs, override) ∈ (plan.editsAt base).updates ↔
    LastUpdate targets base abs override

section Accumulate

variable {plan plan' : ModifyPlan} {targets : List EditTarget} {base : UInt32} {abs : ℕ}

/-- One more target is the last update of its row, and of no other. -/
theorem lastUpdate_concat {t : EditTarget} {override : RowOverride} :
    LastUpdate (targets ++ [t]) base abs override ↔ t = ⟨base, abs, .update override⟩ ∨
      LastUpdate targets base abs override ∧ ∀ override', t ≠ ⟨base, abs, .update override'⟩ := by
  constructor
  · rintro ⟨earlier, later, heq, hlater⟩
    rcases List.eq_nil_or_concat' later with rfl | ⟨later, t', rfl⟩
    · exact .inl (List.append_inj_right' heq rfl |> List.singleton_inj.mp)
    · rw [← List.cons_append, ← List.append_assoc] at heq
      obtain ⟨rfl, ht⟩ := List.append_inj' heq rfl
      obtain rfl := List.singleton_inj.mp ht
      refine .inr ⟨⟨earlier, later, rfl, fun o ho => hlater o (List.mem_append_left _ ho)⟩, ?_⟩
      rintro o rfl
      exact hlater o (by simp)
  · rintro (rfl | ⟨⟨earlier, later, rfl, hlater⟩, hne⟩)
    · exact ⟨targets, [], rfl, by simp⟩
    · refine ⟨earlier, later ++ [t], by simp, fun o ho => ?_⟩
      rcases List.mem_append.mp ho with ho | ho
      · exact hlater o ho
      · exact hne o (List.mem_singleton.mp ho).symm

theorem editsAt_withEdit (plan : ModifyPlan) (base base' : UInt32) (abs : ℕ) (edit : RowEdit) :
    (plan.withEdit base abs edit).editsAt base' =
      if base' = base then (plan.editsAt base).record abs edit else plan.editsAt base' := by
  rw [ModifyPlan.editsAt, lookup_withEdit]
  split_ifs
  · rfl
  · rfl

theorem accumulated_builtPlan (table : List BlobIdEntry) (schema : List Field)
    (compression : Compression) : Accumulated (builtPlan table schema compression) [] where
  blobs base := by simp [builtPlan]
  deletes base k := by simp [builtPlan, ModifyPlan.editsAt]
  updates base abs override := by simp [builtPlan, ModifyPlan.editsAt, LastUpdate]

/-- **A call that succeeds adds its target.** -/
theorem Accumulated.withEdit (h : Accumulated plan targets) (edit : RowEdit)
    (habs : (UInt32.ofNat abs).toNat = abs) :
    Accumulated (plan.withEdit base abs edit) (targets ++ [⟨base, abs, edit⟩]) where
  blobs base' := by
    rw [lookup_withEdit]
    split_ifs with hbase
    · simp [hbase]
    · simp [h.blobs base', Ne.symm hbase]
  deletes base' k := by
    rw [editsAt_withEdit]
    split_ifs with hbase
    · subst hbase
      simp [mem_deletes_record habs, h.deletes, eq_comm]
    · simp [h.deletes, hbase]
  updates base' row override := by
    rw [editsAt_withEdit, lastUpdate_concat]
    split_ifs with hbase
    · subst hbase
      simp [mem_updates_record, h.updates, eq_comm]
    · simp [h.updates, Ne.symm hbase]

end Accumulate

/-! ### The calls of a statement -/

section Statement

variable {countRows : String → FdwResult ℕ} {blobs : List ListedBlob} {table : List BlobIdEntry}
  {plan : ModifyPlan} {done : List RecordCall}

/-- What holds after each call of a statement. -/
structure AccumulateInv (table : List BlobIdEntry) (done : List RecordCall) (plan : ModifyPlan) :
    Prop where
  blob_table : plan.blobTable = table
  budget : plan.editCount ≤ maxEditsPerStatement
  rows : ∀ c ∈ done, c.result = .ok () → ∃ base abs, SourceRow table c.rid base abs
  accumulated : Accumulated plan (done.filterMap (·.target table))

/-- **One call.** -/
theorem AccumulateInv.step (htable : buildBlobTable countRows blobs = .ok table) {c : RecordCall}
    {plan' : ModifyPlan} (h : AccumulateInv table done plan) (hstep : RecordStep plan c plan') :
    AccumulateInv table (done ++ [c]) plan' := by
  obtain ⟨rfl, hbudget, hrows, hacc⟩ := h
  rcases recordStep_cases hstep with ⟨e, he, rfl⟩ | ⟨hok, hlt, base, abs, hresolve, rfl⟩
  · refine ⟨rfl, hbudget, fun c' hc' hok => ?_, ?_⟩
    · rcases List.mem_append.mp hc' with hc' | hc'
      · exact hrows c' hc' hok
      · rw [List.mem_singleton.mp hc', he] at hok
        cases hok
    · have hnone : c.target plan'.blobTable = none := by simp [RecordCall.target, he]
      simpa [List.filterMap_append, hnone] using hacc
  · have hrow := SourceRow.of_resolves htable hresolve
    refine ⟨rfl, (min_le_left _ _).trans hlt, fun c' hc' hok => ?_, ?_⟩
    · rcases List.mem_append.mp hc' with hc' | hc'
      · exact hrows c' hc' hok
      · rw [List.mem_singleton.mp hc']
        exact ⟨base, abs, hrow⟩
    · have htarget : c.target plan.blobTable = some ⟨base, abs, c.edit⟩ := by
        simp [RecordCall.target, hok, hresolve]
      simpa [ModifyPlan.withEdit, List.filterMap_append, htarget] using
        hacc.withEdit c.edit hrow.narrows

/-- **Edit accumulation is exact.**  A call that fails changes nothing.  After any calls
from the plan that `build_plan` returns, there are no more edits than the budget, each
call that succeeded stands for a row of its chunk's blob that 32 bits can name, and the
plan has exactly those rows' deletes and last updates, under the first entry of their blob. -/
theorem edit_accumulation_exact (htable : buildBlobTable countRows blobs = .ok table)
    (schema : List Field) (compression : Compression) (calls : List (RowId × RowEdit))
    (hcalls : recordCalls (builtPlan table schema compression) calls = (done, plan)) :
    (∀ p c p' e, RecordStep p c p' → c.result = .error e → p' = p) ∧
      plan.editCount ≤ maxEditsPerStatement ∧
      (∀ c ∈ done, c.result = .ok () → ∃ base abs, SourceRow table c.rid base abs) ∧
      Accumulated plan (done.filterMap (·.target table)) := by
  have run := run_recordCalls (builtPlan table schema compression) calls
  rw [hcalls] at run
  have hinit : AccumulateInv table [] (builtPlan table schema compression) :=
    ⟨rfl, Nat.zero_le _, by simp, accumulated_builtPlan table schema compression⟩
  have hinv := run.induct (I := AccumulateInv table) hinit fun _ _ _ _ h hstep => h.step htable hstep
  exact ⟨fun _ _ _ _ hstep he => eq_of_recordStep_error hstep he, hinv.budget, hinv.rows,
    hinv.accumulated⟩

end Statement

/-- A blob of two chunks. -/
def twoChunks : List BlobIdEntry := [⟨"a", 0, "e"⟩, ⟨"a", 65536, "e"⟩]

/-- `SET` of the one column. -/
def setTo (n : Int32) : RowOverride :=
  ⟨[some ⟨.int32, [some (.int32 n)], by simp [cellTyped, ArrowValue.hasType]⟩]⟩

/-- A delete in the second chunk, two updates of one row, and a chunk that is not there. -/
def fourCalls : List (RowId × RowEdit) :=
  [(⟨1, 5⟩, .delete), (⟨0, 3⟩, .update (setTo 7)), (⟨0, 3⟩, .update (setTo 8)), (⟨2, 0⟩, .delete)]

/-- The targets of the first three. -/
def threeTargets : List EditTarget :=
  [⟨0, 65541, .delete⟩, ⟨0, 3, .update (setTo 7)⟩, ⟨0, 3, .update (setTo 8)⟩]

theorem four_calls_accumulate :
    Accumulated (recordCalls (builtPlan twoChunks [] .none) fourCalls).2 threeTargets := by
  have htable : buildBlobTable (fun _ => .ok 70000) [("a", "e")] = .ok twoChunks := by
    decide
  have htargets : (recordCalls (builtPlan twoChunks [] .none) fourCalls).1.filterMap
      (·.target twoChunks) = threeTargets := by
    decide
  exact htargets ▸ (edit_accumulation_exact htable [] .none fourCalls rfl).2.2.2

end ParquetAzureFdw
