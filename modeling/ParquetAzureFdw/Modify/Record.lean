/-
# Recording edits

`record_delete` and `record_update` of `src/fdw/modify/update.rs`: the ctid of a row
is resolved to a blob and an absolute row, and the edit is put into the plan under
the id of the blob's first chunk.  A plan has the edits that were recorded and no
others (`BlobEdits.has_of_has_record`, `lookup_withEdit`).
-/

import ParquetAzureFdw.Azure.Store
import ParquetAzureFdw.Modify.Commit

namespace ParquetAzureFdw

/-- `MAX_EDITS_PER_STATEMENT`. -/
def maxEditsPerStatement : ℕ := 10000000

/-- What is recorded for a row. -/
inductive RowEdit where
  | delete
  | update (override : RowOverride)
  deriving DecidableEq

/-- `check_edit_budget`. -/
def checkEditBudget (plan : ModifyPlan) : FdwResult Unit :=
  if maxEditsPerStatement ≤ plan.editCount then
    .error (.schemaMismatch ("UPDATE/DELETE accumulator reached MAX_EDITS_PER_STATEMENT=" ++
      toString maxEditsPerStatement ++ "; split the statement (the kernel materialises one " ++
      "`RowOverride` per row before commit, so an uncapped multi-million-row UPDATE OOMs the " ++
      "backend before commit_plan runs)"))
  else .ok ()

/-- The edit of one row: a delete is keyed by the row as `u32`, an update replaces the
update of the same row. -/
def BlobEdits.record (edits : BlobEdits) (abs : ℕ) : RowEdit → BlobEdits
  | .delete => { edits with deletes := edits.deletes.insert (UInt32.ofNat abs) }
  | .update override =>
    { edits with updates := (abs, override) :: edits.updates.filter fun u => u.1 ≠ abs }

/-- The plan with one more edit. -/
def ModifyPlan.withEdit (plan : ModifyPlan) (base : UInt32) (abs : ℕ) (edit : RowEdit) :
    ModifyPlan :=
  { plan with
    edits := (base, ((plan.edits.lookup base).getD ⟨[], []⟩).record abs edit) ::
      plan.edits.filter fun e => e.1 ≠ base
    editCount := min (plan.editCount + 1) (2 ^ 64 - 1) }

/-- `record_delete` and `record_update`. -/
def recordEdit (plan : ModifyPlan) (rid : RowId) (edit : RowEdit) : FdwResult ModifyPlan := do
  checkEditBudget plan
  let (base, abs) ← resolveToSource plan.blobTable rid
  return plan.withEdit base abs edit

/-- `record_delete`. -/
def recordDelete (plan : ModifyPlan) (rid : RowId) : FdwResult ModifyPlan :=
  recordEdit plan rid .delete

/-- `record_update`. -/
def recordUpdate (plan : ModifyPlan) (rid : RowId) (override : RowOverride) :
    FdwResult ModifyPlan :=
  recordEdit plan rid (.update override)

theorem recordEdit_eq_ok {plan plan' : ModifyPlan} {rid : RowId} {edit : RowEdit}
    (h : recordEdit plan rid edit = .ok plan') :
    ∃ base abs, resolveToSource plan.blobTable rid = .ok (base, abs) ∧
      plan' = plan.withEdit base abs edit := by
  obtain ⟨_, -, h⟩ := except_bind_eq_ok.mp h
  obtain ⟨⟨base, abs⟩, hresolve, h⟩ := except_bind_eq_ok.mp h
  exact ⟨base, abs, hresolve, (Except.ok.inj h).symm⟩

theorem recordEdit_budget {plan plan' : ModifyPlan} {rid : RowId} {edit : RowEdit}
    (h : recordEdit plan rid edit = .ok plan') : plan.editCount < maxEditsPerStatement := by
  obtain ⟨_, hbudget, -⟩ := except_bind_eq_ok.mp h
  unfold checkEditBudget at hbudget
  split_ifs at hbudget with hfull
  exact Nat.not_le.mp hfull

theorem recordEdit_of_resolves {plan : ModifyPlan} {rid : RowId} {base : UInt32} {abs : ℕ}
    (edit : RowEdit) (hbudget : plan.editCount < maxEditsPerStatement)
    (hresolve : resolveToSource plan.blobTable rid = .ok (base, abs)) :
    recordEdit plan rid edit = .ok (plan.withEdit base abs edit) := by
  rw [recordEdit, checkEditBudget, if_neg (Nat.not_le.mpr hbudget), hresolve]
  rfl

/-! ### The edits of a plan -/

/-- The edits have this one for the row `abs`. -/
def BlobEdits.Has (edits : BlobEdits) (abs : ℕ) : RowEdit → Prop
  | .delete => ∃ k ∈ edits.deletes, k.toNat = abs
  | .update override => (abs, override) ∈ edits.updates

/-- Whether two edits are of one kind. -/
def RowEdit.SameKind : RowEdit → RowEdit → Prop
  | .delete, .delete | .update _, .update _ => True
  | _, _ => False

theorem RowEdit.SameKind.refl (edit : RowEdit) : edit.SameKind edit := by
  cases edit <;> trivial

theorem RowEdit.SameKind.trans {e₁ e₂ e₃ : RowEdit} (h : e₁.SameKind e₂) (h' : e₂.SameKind e₃) :
    e₁.SameKind e₃ := by
  cases e₁ <;> cases e₂ <;> cases e₃ <;> trivial

section Has

variable {edits : BlobEdits} {row abs : ℕ} {edit edit' : RowEdit}

theorem toNat_rowKey (hrow : row < 2 ^ 32) : (UInt32.ofNat row).toNat = row := by
  rw [UInt32.toNat_ofNat']
  exact Nat.mod_eq_of_lt hrow

/-- The deletes after one more edit. -/
theorem mem_deletes_record {k : UInt32} (hrow : (UInt32.ofNat row).toNat = row) :
    k ∈ (edits.record row edit).deletes ↔ k ∈ edits.deletes ∨ k.toNat = row ∧ edit = .delete := by
  cases edit with
  | delete =>
    have hkey : k = UInt32.ofNat row ↔ k.toNat = row := by rw [← UInt32.toNat_inj, hrow]
    simp [BlobEdits.record, List.mem_insert_iff, hkey, or_comm]
  | update override => simp [BlobEdits.record]

/-- The updates after one more edit. -/
theorem mem_updates_record {override : RowOverride} :
    (abs, override) ∈ (edits.record row edit).updates ↔ abs = row ∧ edit = .update override ∨
      (abs, override) ∈ edits.updates ∧ ∀ override', ¬ (abs = row ∧ edit = .update override') := by
  cases edit with
  | delete => simp [BlobEdits.record]
  | update override₁ =>
    by_cases habs : abs = row
    · simp [BlobEdits.record, habs, eq_comm]
    · simp [BlobEdits.record, habs]

/-- A recorded edit is there. -/
theorem BlobEdits.has_record_self (hrow : row < 2 ^ 32) : (edits.record row edit).Has row edit := by
  cases edit with
  | delete => exact ⟨_, List.mem_insert_self, toNat_rowKey hrow⟩
  | update override => exact List.mem_cons_self

/-- The earlier edits stay, or are replaced by one of their kind. -/
theorem BlobEdits.Has.record (h : edits.Has abs edit') (row : ℕ) (edit : RowEdit) :
    ∃ edit'', edit'.SameKind edit'' ∧ (edits.record row edit).Has abs edit'' := by
  cases edit with
  | delete =>
    refine ⟨edit', .refl edit', ?_⟩
    cases edit' with
    | delete =>
      obtain ⟨k, hk, habs⟩ := h
      exact ⟨k, List.mem_insert_of_mem hk, habs⟩
    | update _ => exact h
  | update override =>
    cases edit' with
    | delete => exact ⟨.delete, trivial, h⟩
    | update override' =>
      by_cases hsame : abs = row
      · subst hsame
        exact ⟨.update override, trivial, List.mem_cons_self⟩
      · refine ⟨.update override', trivial, List.mem_cons_of_mem _ (List.mem_filter.mpr ⟨h, ?_⟩)⟩
        simpa using hsame

/-- A row has one override. -/
theorem BlobEdits.distinct_record (h : (edits.updates.map Prod.fst).Nodup) :
    ((edits.record row edit).updates.map Prod.fst).Nodup := by
  cases edit with
  | delete => exact h
  | update override =>
    refine List.nodup_cons.mpr ⟨?_, h.sublist (List.filter_sublist.map _)⟩
    rw [List.mem_map]
    rintro ⟨u, hu, rfl⟩
    simpa using (List.mem_filter.mp hu).2

/-- **Recording an edit adds it, and nothing else.** -/
theorem BlobEdits.has_of_has_record (hrow : row < 2 ^ 32)
    (h : (edits.record row edit).Has abs edit') : abs = row ∧ edit' = edit ∨ edits.Has abs edit' := by
  cases edit' with
  | delete =>
    obtain ⟨k, hk, rfl⟩ := h
    rcases (mem_deletes_record (toNat_rowKey hrow)).mp hk with hk | ⟨hkey, rfl⟩
    · exact .inr ⟨k, hk, rfl⟩
    · exact .inl ⟨hkey, rfl⟩
  | update override =>
    rcases mem_updates_record.mp h with ⟨habs, rfl⟩ | ⟨h, -⟩
    · exact .inl ⟨habs, rfl⟩
    · exact .inr h

end Has

theorem lookup_filter_ne {α β : Type} [DecidableEq α] {l : List (α × β)} {k q : α} (hq : q ≠ k) :
    (l.filter fun e => e.1 ≠ k).lookup q = l.lookup q :=
  (lookup_filter l (fun b => decide (b ≠ k)) q).trans (if_pos (by simpa using hq))

/-- The edits of a blob after one more edit. -/
theorem lookup_withEdit (plan : ModifyPlan) (base base' : UInt32) (abs : ℕ) (edit : RowEdit) :
    (plan.withEdit base abs edit).edits.lookup base' =
      if base' = base then some (((plan.edits.lookup base).getD ⟨[], []⟩).record abs edit)
      else plan.edits.lookup base' := by
  by_cases hbase : base' = base
  · subst hbase
    simp [ModifyPlan.withEdit]
  · rw [if_neg hbase]
    have hne : (base' == base) = false := by simpa using hbase
    simp only [ModifyPlan.withEdit, List.lookup_cons, hne]
    exact lookup_filter_ne hbase

end ParquetAzureFdw
