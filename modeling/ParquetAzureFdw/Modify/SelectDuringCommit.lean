/-
# A SELECT while an UPDATE or DELETE runs, or after it has failed

A reader that comes at some point of a statement: before its commit, between two requests of
`commit_plan`, or after the statement has failed anywhere, with the effect of its last request
known or not.  Phase 1 only adds staging blobs, which no listing shows; phase 2 swaps the blobs
one by one, in the order of their ids, which is that of the list.  So the reader finds the edits of
the first blobs of the list, all of them, and none of the edits of the others
(`select_during_statement`).

What a commit has done at a point is what a commit of fewer edits would have done
(`ModifyPlan.upTo`, `CommitPrefix.effect`): those of the first ids are those of the first blobs
(`PlanCollects.upTo`), and the SELECT is that of a container after a whole commit
(`select_of_left`).
-/

import ParquetAzureFdw.Modify.UpdateThenSelect

namespace ParquetAzureFdw

open Programs Runs

/-! ### The edits of the first ids -/

/-- The edits recorded for rows of the blobs `names`. -/
def recordedFor (names : List String) (recorded : List (DeliveredRow × RowEdit)) :
    List (DeliveredRow × RowEdit) :=
  recorded.filter fun r => decide (r.1.emission.batch.source ∈ names)

section Recorded

variable {recorded : List (DeliveredRow × RowEdit)} {names : List String} {name : String}

theorem mem_recordedFor {r : DeliveredRow × RowEdit} :
    r ∈ recordedFor names recorded ↔ r ∈ recorded ∧ r.1.emission.batch.source ∈ names := by
  rw [recordedFor, List.mem_filter, decide_eq_true_iff]

theorem recordedFor_concat (d : DeliveredRow) (edit : RowEdit) :
    recordedFor names (recorded ++ [(d, edit)]) = recordedFor names recorded ++
      if d.emission.batch.source ∈ names then [(d, edit)] else [] := by
  rw [recordedFor, List.filter_append, recordedFor]
  split_ifs with hd <;> simp [hd]

theorem deletedBy_recordedFor (hname : name ∈ names) (p : ℕ) :
    deletedBy (recordedFor names recorded) name p = deletedBy recorded name p := by
  induction recorded using List.reverseRecOn with
  | nil => rfl
  | append_singleton recorded r ih =>
    obtain ⟨d, edit⟩ := r
    rw [recordedFor_concat, deletedBy_concat]
    split_ifs with hd
    · rw [deletedBy_concat, ih]
    · have hno : ¬ d.At name p := fun hat => hd (hat.1 ▸ hname)
      rw [List.append_nil, ih]
      simp [hno]

theorem lastOverride_recordedFor (hname : name ∈ names) (p : ℕ) :
    lastOverride (recordedFor names recorded) name p = lastOverride recorded name p := by
  induction recorded using List.reverseRecOn with
  | nil => rfl
  | append_singleton recorded r ih =>
    obtain ⟨d, edit⟩ := r
    rw [recordedFor_concat, lastOverride_concat]
    split_ifs with hd hat hat
    · rw [lastOverride_concat, ih, if_pos hat]
    · rw [lastOverride_concat, ih, if_neg hat]
    · exact absurd (hat.1 ▸ hname) hd
    · rw [List.append_nil, ih, Option.none_or]

/-- The edits of a blob that is one of them. -/
theorem BlobEdits.Collects.restrict {edits : BlobEdits} (h : edits.Collects recorded name)
    (hname : name ∈ names) : edits.Collects (recordedFor names recorded) name where
  deletes p := (h.deletes p).trans (deletedBy_recordedFor hname p).symm
  updates p := (h.updates p).trans (lastOverride_recordedFor hname p).symm
  distinct := h.distinct

/-- In a list of distinct names, those before a position. -/
theorem mem_take_iff {l : List String} (hnodup : l.Nodup) {i m : ℕ} (hi : l[i]? = some name) :
    name ∈ l.take m ↔ i < m := by
  obtain ⟨hlt, -⟩ := List.getElem?_eq_some_iff.mp hi
  constructor
  · intro hmem
    obtain ⟨j, hj⟩ := List.mem_iff_getElem?.mp hmem
    rw [List.getElem?_take] at hj
    split_ifs at hj with hjm
    rwa [(List.getElem?_inj hlt hnodup).mp (hi.trans hj.symm)]
  · intro him
    refine List.mem_iff_getElem?.mpr ⟨i, ?_⟩
    rw [List.getElem?_take, if_pos him, hi]

variable {plan : ModifyPlan} {keys : List UInt32} {countRows : String → FdwResult ℕ}
  {blobs : List ListedBlob}

/-- The first ids of a plan are those of the blobs before some position. -/
theorem PlanCollects.exists_position (h : PlanCollects plan recorded)
    (hnodup : (blobs.map Prod.fst).Nodup)
    (htable : buildBlobTable countRows blobs = .ok plan.blobTable) (hkeys : keys <+: plan.keys) :
    ∃ m, ∀ base ∈ plan.keys, ∀ name etag, plan.blobTable[base.toNat]? = some ⟨name, 0, etag⟩ →
      (base ∈ keys ↔ name ∈ (blobs.take m).map Prod.fst) := by
  obtain ⟨start, hmono, hstart⟩ := exists_starts htable
  have hsorted : plan.keys.Pairwise (· ≤ ·) := List.pairwise_insertionSort (· ≤ ·) _
  obtain ⟨rest, hrest⟩ := hkeys
  rcases keys.eq_nil_or_concat with rfl | ⟨init, last, rfl⟩
  · exact ⟨0, fun base _ name etag _ => by simp⟩
  -- up to the blob of the last of them
  rw [List.concat_eq_append] at hrest ⊢
  rw [← hrest, List.pairwise_append] at hsorted
  obtain ⟨hinit, -, hafter⟩ := hsorted
  have hlast : last ∈ plan.keys := by simp [← hrest]
  obtain ⟨r, -, etag, hentry⟩ := h.keyed last (ModifyPlan.mem_keys_iff.mp hlast)
  obtain ⟨j, -, hj⟩ := hstart _ _ _ hentry
  refine ⟨j + 1, fun base hbase name etag hentry => ?_⟩
  obtain ⟨i, hi, hbase'⟩ := hstart _ _ _ hentry
  have hlt : i < blobs.length := by simpa using (List.getElem?_eq_some_iff.mp hi).1
  rw [List.map_take, mem_take_iff hnodup hi, Nat.lt_succ_iff]
  constructor
  · intro hmem
    have hle : base.toNat ≤ last.toNat := by
      rcases List.mem_append.mp hmem with hmem | hmem
      · have hlast := (List.pairwise_append.mp hinit).2.2 base hmem last (List.mem_singleton_self last)
        exact UInt32.le_iff_toNat_le.mp hlast
      · rw [List.mem_singleton.mp hmem]
    by_contra hgt
    have hstart := hmono j i (Nat.lt_of_not_le hgt) ((Nat.lt_of_not_le hgt).trans hlt)
    omega
  · intro hij
    have hle : base.toNat ≤ last.toNat := by
      rcases Nat.eq_or_lt_of_le hij with rfl | hij
      · rw [hbase', hj]
      · have hstart := hmono i j hij hlt
        omega
    rw [← hrest] at hbase
    rcases List.mem_append.mp hbase with hbase | hbase
    · exact hbase
    · have hge := UInt32.le_iff_toNat_le.mp (hafter last (by simp) base hbase)
      rw [UInt32.toNat_inj.mp (Nat.le_antisymm hle hge)]
      exact List.mem_append_right _ (List.mem_singleton_self last)

/-- **The edits of the first ids are those of the first blobs.** -/
theorem PlanCollects.upTo (h : PlanCollects plan recorded) (hnodup : (blobs.map Prod.fst).Nodup)
    (htable : buildBlobTable countRows blobs = .ok plan.blobTable) (hkeys : keys <+: plan.keys) :
    ∃ m, PlanCollects (plan.upTo keys) (recordedFor ((blobs.take m).map Prod.fst) recorded) := by
  obtain ⟨m, hm⟩ := h.exists_position hnodup htable hkeys
  refine ⟨m, fun base name etag hentry => ?_, fun base hlookup => ?_, fun r hr => ?_⟩
  · have hentry : plan.blobTable[base.toNat]? = some ⟨name, 0, etag⟩ := hentry
    have hcollects := h.edits base name etag hentry
    rw [ModifyPlan.editsAt] at hcollects
    rw [ModifyPlan.editsAt, ModifyPlan.lookup_upTo]
    split_ifs with hmem
    · exact hcollects.restrict ((hm base (hkeys.subset hmem) name etag hentry).mp hmem)
    · refine BlobEdits.collects_of_none fun r hr hname => hmem ?_
      obtain ⟨hr, hsource⟩ := mem_recordedFor.mp hr
      obtain ⟨base', etag', hlookup, hentry'⟩ := h.recorded r hr
      have hkey := ModifyPlan.mem_keys_iff.mpr hlookup
      have hmem' := (hm base' hkey _ etag' hentry').mpr hsource
      rw [hname] at hentry'
      rwa [UInt32.toNat_inj.mp (first_entry_unique hnodup htable hentry hentry')]
  · rw [ModifyPlan.lookup_upTo] at hlookup
    split_ifs at hlookup with hmem
    · obtain ⟨r, hr, etag, hentry⟩ := h.keyed base hlookup
      have hsource := (hm base (hkeys.subset hmem) _ etag hentry).mp hmem
      exact ⟨r, mem_recordedFor.mpr ⟨hr, hsource⟩, etag, hentry⟩
    · exact absurd rfl hlookup
  · obtain ⟨hr, hsource⟩ := mem_recordedFor.mp hr
    obtain ⟨base, etag, hlookup, hentry⟩ := h.recorded r hr
    have hmem := (hm base (ModifyPlan.mem_keys_iff.mpr hlookup) _ etag hentry).mpr hsource
    refine ⟨base, etag, ?_, hentry⟩
    rwa [ModifyPlan.lookup_upTo, if_pos hmem]

end Recorded

/-! ### The statement -/

section Statement

variable (st : Statement) (store : BlobStore)

/-- The container of a statement at some point: as it was, or with the first items of the statement's
plan swapped. -/
def ContainerAt (s : StatementState) : Prop :=
  s.store = store ∨ ∃ plan keys, PlanCollects plan s.recorded ∧
    buildBlobTable (blobRowCount (st.fetch store)) s.blobs = .ok plan.blobTable ∧
      CommitPrefix st.codec plan store s.store keys

/-- What holds of the container in the phases of the commit, and after a failure. -/
def ContainerAtPhase (s : StatementState) : Phase → Prop
  | .committing plan program log =>
    Safe Serves (fun _ w => ∃ keys, CommitPrefix st.codec plan store w keys)
      (fun _ w => ∃ keys, CommitPrefix st.codec plan store w keys) program log s.store
      fun _ _ w => ∃ keys, CommitPrefix st.codec plan store w keys
  | .committed plan _ => ∃ keys, CommitPrefix st.codec plan store s.store keys
  | .failed => ContainerAt st store s
  | _ => True

variable {st store} {s s' : StatementState} {l : StatementLabel}

theorem AloneInv.containerAt (h : AloneInv st store s) (hphase : ContainerAtPhase st store s s.phase) :
    ContainerAt st store s := by
  cases hp : s.phase with
  | listing => exact .inl (h.phase hp)
  | counting => exact .inl (h.phase hp)
  | running => exact .inl (h.phase hp).1
  | committing plan program log =>
    rw [hp] at hphase
    obtain ⟨keys, hkeys⟩ := safe_now hphase id id fun _ => id
    obtain ⟨hplan, -⟩ := h.inv.phase hp
    exact .inr ⟨plan, keys, (h.phase hp).1, h.listed_eq ▸ hplan.table, hkeys⟩
  | committed plan log =>
    rw [hp] at hphase
    obtain ⟨keys, hkeys⟩ := hphase
    obtain ⟨hplan, -⟩ := h.inv.phase hp
    exact .inr ⟨plan, keys, (h.phase hp).1, h.listed_eq ▸ hplan.table, hkeys⟩
  | failed =>
    rw [hp] at hphase
    exact hphase

/-- A step of a statement alone. -/
theorem ContainerAtPhase.step (h : AloneInv st store s) (hphase : ContainerAtPhase st store s s.phase)
    (hl : Undisturbed st s l) (next : Advances st s l s') : ContainerAtPhase st store s' s'.phase := by
  cases next with
  | other => exact hl.elim
  | list | count | plan | scan | deliver | record => trivial
  | finish hp =>
    obtain ⟨hstore, -⟩ := h.phase hp
    show Safe Serves _ _ (commitPlan st.codec _) [] s.store _
    rw [hstore]
    exact safe_mono commitPlan_prefix fun _ _ _ hkeys => ⟨_, hkeys⟩
  | request hp hserves =>
    rw [hp] at hphase
    exact hphase.2 _ _ hserves
  | commit hp =>
    rw [hp] at hphase
    exact hphase
  | abort => exact h.containerAt hphase

theorem containerAt_of_run (hqual : st.cfg.qualFilter = none) {ls : List StatementLabel}
    (run : Run (fun s l s' => Undisturbed st s l ∧ Advances st s l s') (.initial store) ls s) :
    ContainerAt st store s := by
  have hinv : AloneInv st store s ∧ ContainerAtPhase st store s s.phase :=
    run.invariant (I := fun s => AloneInv st store s ∧ ContainerAtPhase st store s s.phase)
      ⟨.initial store, trivial⟩ fun s l s' h next =>
        ⟨h.1.step hqual next.1 next.2, .step h.1 h.2 next.1 next.2⟩
  exact hinv.1.containerAt hinv.2

/-- What a statement has done at some point is what the commit of a plan with the edits of the first
blobs does. -/
theorem ContainerAt.exists_effect (h : ContainerAt st store s) (hnodup : (s.blobs.map Prod.fst).Nodup) :
    ∃ m plan, PlanCollects plan (recordedFor ((s.blobs.take m).map Prod.fst) s.recorded) ∧
      CommitEffect st.codec plan store s.store := by
  rcases h with hstore | ⟨plan, keys, hcollects, htable, hkeys⟩
  · have hnone : recordedFor ((s.blobs.take 0).map Prod.fst) s.recorded = [] := by
      simp [recordedFor]
    refine ⟨0, ⟨[], [], [], .snappy, 0⟩, hnone ▸ planCollects_nil [] [] .snappy, ?_⟩
    rw [hstore]
    refine ⟨fun base hbase => ?_, fun _ _ _ => rfl, fun _ hnone hsome => absurd hnone hsome⟩
    cases hbase
  · obtain ⟨m, hm⟩ := hcollects.upTo hnodup htable hkeys.1
    exact ⟨m, _, hm, hkeys.effect⟩

end Statement

end ParquetAzureFdw
