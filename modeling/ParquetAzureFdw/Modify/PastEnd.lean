/-
# Edits past the end of a blob

`commit_plan` of `src/fdw/modify/update.rs` rewrites each blob with edits batch by
batch, and the kernel leaves out the edits that are not of a row of its batch.  After
the last batch the keys of the updates are compared with the number of rows, so an
update past the end fails the commit in phase 1, when no blob has been changed.  The
deletes are not compared with anything: one past the end is of no batch, and the
commit returns as if it had been applied (`past_end_delete_is_lost`).

What is read is the version under the etag of the listing, whatever the service
answers to the other requests; what was asked for and answered is the history of the
commit.  Every edit has a row and is applied in a commit that returns, and a commit
that changes a blob has checked all of them, exactly when the deletes have rows
(`no_edit_lost_iff`).
-/

import ParquetAzureFdw.Modify.DeleteThenSelect
import ParquetAzureFdw.Modify.Record

namespace ParquetAzureFdw

open Programs

/-! ### What the commit owes its edits -/

/-- Every edit is of one of the first `n` rows. -/
def BlobEdits.Within (edits : BlobEdits) (n : ℕ) : Prop :=
  ∀ abs edit, edits.Has abs edit → abs < n

section Spec

variable (codec : ParquetCodec) (plan : ModifyPlan) (es : List StoreEvent)

/-- The version of a blob that was downloaded, with its rows. -/
structure ReadVersion (baseId : UInt32) (name etag : String) (body : Bytes) (rows : List ArrowRow) :
    Prop where
  entry : ∃ row, plan.blobTable[baseId.toNat]? = some ⟨name, row, etag⟩
  downloaded : Downloaded es name etag body
  holds : codec.Holds body rows

/-- The version that was downloaded has a row for every edit. -/
def EditsFit (baseId : UInt32) (edits : BlobEdits) : Prop :=
  ∃ name etag body rows, ReadVersion codec plan es baseId name etag body rows ∧
    edits.Within rows.length

/-- The version that was downloaded has a row for every edit, and has been replaced by what the
edits make of it. -/
def EditsLanded (baseId : UInt32) (edits : BlobEdits) : Prop :=
  ∃ name etag body rows new, ReadVersion codec plan es baseId name etag body rows ∧
    edits.Within rows.length ∧ Rewrites codec plan baseId name etag body new ∧
    codec.Stores new (edits.applyRows 0 rows) ∧ SwapConfirmed es name etag new

/-- **No edit is lost**: a commit that returns has applied all of them, and one whose edits do not
all have a row fails without a request to change a blob. -/
structure NoEditLost (result : Outcome Unit) : Prop where
  applied : result = .ok () → ∀ baseId edits, plan.edits.lookup baseId = some edits →
    EditsLanded codec plan es baseId edits
  refused : ∀ baseId edits, plan.edits.lookup baseId = some edits →
    ¬ EditsFit codec plan es baseId edits → result ≠ .ok () ∧ ∀ event ∈ es, ¬ event.1.Swaps

/-- The deletes are of rows of the version that was downloaded, and none is of row `u32::MAX`. -/
def DeletesFit : Prop :=
  ∀ baseId edits name etag body rows, plan.edits.lookup baseId = some edits →
    ReadVersion codec plan es baseId name etag body rows →
      ∀ k ∈ edits.deletes, k.toNat < min rows.length (2 ^ 32 - 1)

/-- An etag stands for one content. -/
def EtagsPin : Prop :=
  ∀ name etag body body', Downloaded es name etag body → Downloaded es name etag body' → body = body'

/-- Every blob with edits has been read and rewritten. -/
def AllRewritten : Prop :=
  ∀ baseId ∈ plan.edits.map Prod.fst, ∃ name etag body new, Downloaded es name etag body ∧
    Rewrites codec plan baseId name etag body new

end Spec

/-! ### Phase 2 comes after phase 1 -/

section Phases

variable {codec : ParquetCodec} {plan : ModifyPlan} {h h' : List StoreEvent}

theorem AllRewritten.mono (hall : AllRewritten codec plan h) (hpre : h <+: h') :
    AllRewritten codec plan h' := by
  intro baseId hbaseId
  obtain ⟨name, etag, body, new, hdownloaded, hrewrites⟩ := hall baseId hbaseId
  exact ⟨name, etag, body, new, hdownloaded.mono hpre, hrewrites⟩

/-- In phase 2 there is nothing left to check. -/
theorem wp_swapBlob_checked (hall : AllRewritten codec plan h) (s : Staged) :
    wp (fun h op => op.Swaps → AllRewritten codec plan h) (swapBlob s) h fun _ _ => True := by
  unfold swapBlob
  split_ifs
  · exact wp_call_bind (fun _ => hall) fun reply => wp_ofExcept trivial
  · refine wp_bind (Q := fun _ _ => True) ?_ (fun _ _ _ => trivial) fun h₁ _ hpre _ => ?_
    · refine wp_bind (wp_ofExcept trivial (Q := fun _ _ => True)) (fun _ _ _ => trivial) ?_
      intro h' _ hpre _
      exact wp_call_bind (fun _ => hall.mono hpre) fun reply => wp_ofExcept trivial
    · refine wp_call_bind (fun _ => hall.mono hpre) fun reply => wp_call_bind ?_ fun _ => trivial
      exact fun hswaps => hswaps.elim

/-- **A commit changes no blob before every blob with edits has been read and rewritten.** -/
theorem wp_commitPlan_checked :
    wp (fun h op => op.Swaps → AllRewritten codec plan h) (commitPlan codec plan) h
      fun _ _ => True := by
  refine wp_bind (wp_allowed wp_stageBlobs fun _ _ hno hswaps => absurd hswaps hno)
    (fun _ _ _ => trivial) fun h₁ staged _ hstaged => ?_
  have hbacked := hstaged staged rfl
  have hall : AllRewritten codec plan h₁ := by
    intro baseId hbaseId
    obtain ⟨s, -, hs⟩ := forall₂_exists_of_mem hbacked ((List.mem_insertionSort _).mpr hbaseId)
    obtain ⟨body, hdownloaded, hrewrites⟩ := hs.rewritten
    exact ⟨_, _, body, _, hdownloaded, hrewrites⟩
  exact wp_mono (wp_forM (P := fun h _ => AllRewritten codec plan h) (R := fun _ _ => True)
    (fun _ _ _ hpre hall => hall.mono hpre) (fun _ _ _ _ _ => trivial)
    (fun s h hall => wp_mono (wp_swapBlob_checked hall s) fun _ _ _ _ _ _ => trivial)
    fun _ _ => hall) fun _ _ _ _ => trivial

end Phases

/-! ### The deletes past the end -/

section Deletes

variable {codec : ParquetCodec} {edits : BlobEdits} {rows : List ArrowRow}

/-- Without a delete of row `u32::MAX` the masks see every delete. -/
theorem BlobEdits.masked_eq_self (h : ∀ k ∈ edits.deletes, k.toNat < 2 ^ 32 - 1) :
    edits.masked = edits := by
  have hdeletes : edits.deletes.filter (· ≠ 0xffffffff) = edits.deletes := by
    refine List.filter_eq_self.mpr fun k hk => decide_eq_true ?_
    rintro rfl
    exact absurd (h _ hk) (by decide)
  rw [BlobEdits.masked, hdeletes]

/-- The number of rows that the edits leave. -/
theorem BlobEdits.length_applyRows (edits : BlobEdits) (rows : List ArrowRow) :
    (edits.applyRows 0 rows).length =
      ((List.range rows.length).filter fun row => !edits.isDeleted row).length := by
  have hindex : rows.zipIdx.map Prod.snd = List.range rows.length := by
    rw [List.zipIdx_map_snd, List.range_eq_range']
  rw [← hindex, BlobEdits.applyRows, List.filter_map, List.filter_map]
  simp only [List.length_map]
  rfl

/-- A row `u32::MAX` that is deleted stays in what the masks leave. -/
theorem BlobEdits.applyRows_masked_ne {k : UInt32} (hk : k ∈ edits.deletes)
    (hmax : 2 ^ 32 - 1 ≤ k.toNat) (hrow : k.toNat < rows.length) :
    edits.masked.applyRows 0 rows ≠ edits.applyRows 0 rows := by
  intro heq
  have hlength := congrArg List.length heq
  rw [BlobEdits.length_applyRows, BlobEdits.length_applyRows] at hlength
  have hkept : ((List.range rows.length).filter fun row => !edits.isDeleted row) =
      (List.range rows.length).filter fun row => !edits.masked.isDeleted row := by
    refine List.Sublist.eq_of_length (List.monotone_filter_right _ fun row hrow => ?_) hlength.symm
    simp only [Bool.not_eq_true'] at hrow ⊢
    rw [Bool.eq_false_iff] at hrow ⊢
    exact fun h => hrow (BlobEdits.isDeleted_masked.mp h).1
  have hmasked : edits.masked.isDeleted k.toNat = false := by
    rw [Bool.eq_false_iff]
    exact fun h => absurd (BlobEdits.isDeleted_masked.mp h).2 (by omega)
  have hdeleted : edits.isDeleted k.toNat = true :=
    List.contains_iff_mem.mpr (List.mem_map_of_mem hk)
  have hmem : k.toNat ∈ (List.range rows.length).filter fun row => !edits.isDeleted row := by
    rw [hkept]
    exact List.mem_filter.mpr ⟨List.mem_range.mpr hrow, by rw [hmasked]; rfl⟩
  have hnot := (List.mem_filter.mp hmem).2
  rw [hdeleted] at hnot
  cases hnot

theorem ParquetCodec.Stores.unique {new : Option Bytes} {rows' : List ArrowRow}
    (h : codec.Stores new rows) (h' : codec.Stores new rows') : rows = rows' := by
  rcases h with ⟨rfl, rfl⟩ | ⟨-, bytes, rfl, hrows⟩
  · rcases h' with ⟨rfl, -⟩ | ⟨-, bytes, hnew, -⟩
    · rfl
    · cases hnew
  · rcases h' with ⟨-, hnew⟩ | ⟨-, bytes', hnew, hrows'⟩
    · cases hnew
    · obtain rfl := Option.some.inj hnew
      exact hrows.unique hrows'

/-- Edits whose deletes and updates have rows. -/
theorem BlobEdits.within_of {n : ℕ} (hdeletes : ∀ k ∈ edits.deletes, k.toNat < n)
    (hupdates : ∀ u ∈ edits.updates, u.1 < n) : edits.Within n := by
  intro abs edit hhas
  cases edit with
  | delete =>
    obtain ⟨k, hk, rfl⟩ := hhas
    exact hdeletes k hk
  | update override => exact hupdates _ hhas

end Deletes

/-! ### What a rewrite has found -/

section Found

variable {codec : ParquetCodec} {plan : ModifyPlan} {es : List StoreEvent} {baseId : UInt32}
  {edits : BlobEdits} {name etag : String} {body : Bytes} {new : Option Bytes}

variable (hcodec : codec.Faithful) (hmaps : ∀ e ∈ plan.edits, (e.2.updates.map Prod.fst).Nodup)
  (hedits : plan.edits.lookup baseId = some edits) (hdownloaded : Downloaded es name etag body)
  (hrewrites : Rewrites codec plan baseId name etag body new)

include hcodec hmaps hedits hdownloaded hrewrites

/-- A rewrite has found a row for each update. -/
theorem Rewrites.exists_readVersion : ∃ rows, ReadVersion codec plan es baseId name etag body rows ∧
    (∀ u ∈ edits.updates, u.1 < rows.length) ∧ codec.Stores new (edits.masked.applyRows 0 rows) := by
  obtain ⟨edits', hedits', hnew⟩ := hrewrites.rewrite
  obtain rfl := Option.some.inj (hedits.symm.trans hedits')
  obtain ⟨rows, hholds, hupdates, hstores⟩ :=
    rewriteBlob_applies hcodec (hmaps _ (mem_of_lookup hedits)) hnew
  exact ⟨rows, ⟨hrewrites.entry, hdownloaded, hholds⟩, hupdates, hstores⟩

/-- If the deletes have rows too, it has applied every edit. -/
theorem Rewrites.applies (hfit : DeletesFit codec plan es) :
    ∃ rows, ReadVersion codec plan es baseId name etag body rows ∧ edits.Within rows.length ∧
      codec.Stores new (edits.applyRows 0 rows) := by
  obtain ⟨rows, hread, hupdates, hstores⟩ :=
    hrewrites.exists_readVersion hcodec hmaps hedits hdownloaded
  have hdeletes : ∀ k ∈ edits.deletes, k.toNat < rows.length ∧ k.toNat < 2 ^ 32 - 1 := fun k hk =>
    lt_min_iff.mp (hfit baseId edits name etag body rows hedits hread k hk)
  rw [BlobEdits.masked_eq_self fun k hk => (hdeletes k hk).2] at hstores
  exact ⟨rows, hread, BlobEdits.within_of (fun k hk => (hdeletes k hk).1) hupdates, hstores⟩

end Found

/-! ### The theorem -/

section Theorem

variable {codec : ParquetCodec} {plan : ModifyPlan} {es : List StoreEvent} {W : Type}
  {answers : W → StoreEvent → W → Prop} {w w' : W} {result : Outcome Unit}

variable (hcodec : codec.Faithful) (hmaps : ∀ e ∈ plan.edits, (e.2.updates.map Prod.fst).Nodup)
  (exec : Exec answers (commitPlan codec plan) w es w' result)

include hcodec hmaps exec

/-- If the deletes have rows, no edit is lost. -/
theorem noEditLost_of_deletesFit (hfit : DeletesFit codec plan es) :
    NoEditLost codec plan es result where
  applied hok baseId edits hedits := by
    obtain ⟨name, etag, body, new, hdownloaded, hrewrites, hswap⟩ :=
      (exec.wp (h := []) wp_commitPlan).2 () hok baseId (List.mem_map_of_mem (mem_of_lookup hedits))
    obtain ⟨rows, hread, hwithin, hstores⟩ :=
      hrewrites.applies hcodec hmaps hedits hdownloaded hfit
    exact ⟨name, etag, body, rows, new, hread, hwithin, hrewrites, hstores, hswap⟩
  refused baseId edits hedits hnot := by
    -- a rewrite of this blob would have found a row for each of its edits
    have hnone : ¬ AllRewritten codec plan es := by
      intro hall
      obtain ⟨name, etag, body, new, hdownloaded, hrewrites⟩ :=
        hall baseId (List.mem_map_of_mem (mem_of_lookup hedits))
      obtain ⟨rows, hread, hwithin, -⟩ := hrewrites.applies hcodec hmaps hedits hdownloaded hfit
      exact hnot ⟨name, etag, body, rows, hread, hwithin⟩
    refine ⟨fun hok => hnone fun baseId hbaseId => ?_, fun event hevent hswaps => ?_⟩
    · obtain ⟨name, etag, body, new, hdownloaded, hrewrites, -⟩ :=
        (exec.wp (h := []) wp_commitPlan).2 () hok baseId hbaseId
      exact ⟨name, etag, body, new, hdownloaded, hrewrites⟩
    · obtain ⟨before, hpre, hallowed⟩ := (exec.wp (h := []) wp_commitPlan_checked).1 event hevent
      exact hnone ((hallowed hswaps).mono hpre)

omit exec in
/-- A commit that returns without a loss had rows for its deletes. -/
theorem deletesFit_of_noEditLost (hok : result = .ok ()) (hpin : EtagsPin es)
    (hlost : NoEditLost codec plan es result) : DeletesFit codec plan es := by
  intro baseId edits name etag body rows hedits hread k hk
  obtain ⟨name', etag', body', rows', new, hread', hwithin, hrewrites, hstores, -⟩ :=
    hlost.applied hok baseId edits hedits
  obtain ⟨row, hentry⟩ := hread.entry
  obtain ⟨row', hentry'⟩ := hread'.entry
  obtain ⟨rfl, -, rfl⟩ : name = name' ∧ row = row' ∧ etag = etag' := by
    simpa using hentry.symm.trans hentry'
  obtain rfl := hpin name etag body body' hread.downloaded hread'.downloaded
  obtain rfl := hread.holds.unique hread'.holds
  have hrow := hwithin k.toNat .delete ⟨k, hk, rfl⟩
  refine lt_min hrow (Nat.lt_of_not_le fun hmax => ?_)
  -- the masks have left row `u32::MAX`
  obtain ⟨rows', hread', -, hmasked⟩ :=
    hrewrites.exists_readVersion hcodec hmaps hedits hread.downloaded
  obtain rfl := hread.holds.unique hread'.holds
  exact BlobEdits.applyRows_masked_ne hk hmax hrow (hmasked.unique hstores)

/-- **A commit loses no edit if the deletes have rows, and one that returns only then.** -/
theorem no_edit_lost_iff :
    (DeletesFit codec plan es → NoEditLost codec plan es result) ∧
      (result = .ok () → EtagsPin es → NoEditLost codec plan es result →
        DeletesFit codec plan es) :=
  ⟨noEditLost_of_deletesFit hcodec hmaps exec, deletesFit_of_noEditLost hcodec hmaps⟩

end Theorem

/-! ### A row that is there, and one that is not -/

theorem lookup_singleton_eq_some {k baseId : UInt32} {edits edits' : BlobEdits}
    (h : [(k, edits)].lookup baseId = some edits') : baseId = k ∧ edits = edits' := by
  by_cases hk : baseId = k
  · subst hk
    simpa using h
  · have hne : (baseId == k) = false := beq_eq_false_iff_ne.mpr hk
    simp [List.lookup_cons, hne] at h

/-- The body of the only download. -/
theorem Downloaded.of_first {name etag : String} {len : Option ℕ} {body body' : Bytes}
    {es : List StoreEvent}
    (h : Downloaded (⟨.getIfMatch name etag, .ok (len, body)⟩ :: es) name etag body')
    (hes : ∀ event ∈ es, event.1 ≠ .getIfMatch name etag) : body' = body := by
  obtain ⟨len', hmem⟩ := h
  rcases List.mem_cons.mp hmem with heq | hmem
  · cases heq
    rfl
  · exact absurd rfl (hes _ hmem)

/-- A plan with edits to blob `b` only, which has two rows. -/
def editB (edits : BlobEdits) : ModifyPlan where
  blobTable := [⟨"a", 0, "0x1"⟩, ⟨"b", 0, "0x2"⟩]
  edits := [(1, edits)]
  schema := [⟨"flag", .boolean, true⟩]
  compression := .snappy
  editCount := edits.deletes.length + edits.updates.length

/-- What its commit asks for, and is told, when `new` is what the edits make of the blob. -/
def editBEvents (new : Bytes) : List StoreEvent :=
  [⟨.getIfMatch "b" "0x2", .ok (none, [1, 0])⟩, ⟨.newUuid, "u"⟩,
    ⟨.registerStaging (makeStagingName "b" "u"), ()⟩,
    ⟨.putIfNoneMatch (makeStagingName "b" "u") new, .ok (some "0x3")⟩,
    ⟨.putIfMatch "b" new "0x2", .ok (some "0x4")⟩, ⟨.delete (makeStagingName "b" "u"), .ok ()⟩,
    ⟨.markCommitted (makeStagingName "b" "u"), ()⟩]

/-- The commit makes these requests. -/
def EditB (edits : BlobEdits) (new : Bytes) : Prop :=
  ∃ n₁ n₂ n₃ n₄ n₅ n₆ n₇,
    commitPlan flagCodec (editB edits) = .request (.getIfMatch "b" "0x2") n₁ ∧
    n₁ (.ok (none, [1, 0])) = .request .newUuid n₂ ∧
    n₂ "u" = .request (.registerStaging (makeStagingName "b" "u")) n₃ ∧
    n₃ () = .request (.putIfNoneMatch (makeStagingName "b" "u") new) n₄ ∧
    n₄ (.ok (some "0x3")) = .request (.putIfMatch "b" new "0x2") n₅ ∧
    n₅ (.ok (some "0x4")) = .request (.delete (makeStagingName "b" "u")) n₆ ∧
    n₆ (.ok ()) = .request (.markCommitted (makeStagingName "b" "u")) n₇ ∧ n₇ () = .ret ()

/-- The store with the staging blob of the commit. -/
def stagedB (new : Bytes) : BlobStore :=
  flagStore.write (makeStagingName "b" "u") ⟨"0x3", new⟩

/-- The store after the commit. -/
def editedB (new : Bytes) : BlobStore :=
  ((stagedB new).write "b" ⟨"0x4", new⟩).delete (makeStagingName "b" "u")

/-- The commit returns. -/
theorem EditB.commit {edits : BlobEdits} {new : Bytes} (h : EditB edits new) :
    Exec Serves (commitPlan flagCodec (editB edits)) flagStore (editBEvents new) (editedB new)
      (.ok ()) := by
  obtain ⟨n₁, n₂, n₃, n₄, n₅, n₆, n₇, h₁, h₂, h₃, h₄, h₅, h₆, h₇, h₈⟩ := h
  have hcurrent : flagStore.blobs "b" = some ⟨"0x2", [1, 0]⟩ := by decide
  have hstaged : (stagedB new).blobs "b" = some ⟨"0x2", [1, 0]⟩ := hcurrent
  have hget : Serves flagStore ⟨.getIfMatch "b" "0x2", .ok (none, [1, 0])⟩ flagStore :=
    .get none hcurrent
  have hcreate : Serves flagStore ⟨.putIfNoneMatch (makeStagingName "b" "u") new,
      .ok (some "0x3")⟩ (stagedB new) := .create (by decide) (by decide) (.inr rfl) .ok
  have hput : Serves (stagedB new) ⟨.putIfMatch "b" new "0x2", .ok (some "0x4")⟩
      ((stagedB new).write "b" ⟨"0x4", new⟩) :=
    .put hstaged (by show "0x4" ∉ "0x3" :: flagStore.issued; decide) (.inr rfl) .ok
  rw [h₁, editBEvents]
  refine .request hget ?_
  rw [h₂]
  refine .request (.unserved trivial) ?_
  rw [h₃]
  refine .request (.unserved trivial) ?_
  rw [h₄]
  refine .request hcreate ?_
  rw [h₅]
  refine .request hput ?_
  rw [h₆]
  refine .request .delete ?_
  rw [h₇]
  refine .request (.unserved trivial) ?_
  rw [h₈]
  exact .ret

/-- The commit reads the two rows. -/
theorem ReadVersion.rows_editB {edits : BlobEdits} {new body : Bytes} {name etag : String}
    {rows : List ArrowRow}
    (h : ReadVersion flagCodec (editB edits) (editBEvents new) 1 name etag body rows) :
    rows = flagRows [1, 0] := by
  obtain ⟨row, hentry⟩ := h.entry
  obtain ⟨rfl, -, rfl⟩ : "b" = name ∧ 0 = row ∧ "0x2" = etag := by simpa [editB] using hentry
  obtain rfl := h.downloaded.of_first (by simp)
  exact h.holds.unique (flagCodec_holds [1, 0])

/-- The first row is deleted and the second, which holds `false`, set to `true`. -/
def bothRowsOfB : BlobEdits := ⟨[0], [(1, ⟨[some ⟨.boolean, [some (.boolean true)], by decide⟩]⟩)]⟩

/-- A DELETE and an UPDATE of rows that are there land. -/
theorem edits_of_both_rows_land :
    Exec Serves (commitPlan flagCodec (editB bothRowsOfB)) flagStore (editBEvents [1]) (editedB [1])
        (.ok ()) ∧
      NoEditLost flagCodec (editB bothRowsOfB) (editBEvents [1]) (.ok ()) := by
  have hasks : EditB bothRowsOfB [1] := ⟨_, _, _, _, _, _, _, rfl, rfl, rfl, rfl, rfl, rfl, rfl, rfl⟩
  have hmaps : ∀ e ∈ (editB bothRowsOfB).edits, (e.2.updates.map Prod.fst).Nodup := by decide
  refine ⟨hasks.commit, (no_edit_lost_iff flagCodec_faithful hmaps hasks.commit).1 ?_⟩
  intro baseId edits name etag body rows hedits hread k hk
  obtain ⟨rfl, rfl⟩ := lookup_singleton_eq_some hedits
  obtain rfl := hread.rows_editB
  obtain rfl := List.mem_singleton.mp hk
  decide

/-- **The delete of a row that is not there is lost**: the commit returns, and has put the blob
back as it was. -/
theorem past_end_delete_is_lost :
    Exec Serves (commitPlan flagCodec (editB ⟨[5], []⟩)) flagStore (editBEvents [1, 0])
        (editedB [1, 0]) (.ok ()) ∧
      ¬ NoEditLost flagCodec (editB ⟨[5], []⟩) (editBEvents [1, 0]) (.ok ()) := by
  have hasks : EditB ⟨[5], []⟩ [1, 0] := ⟨_, _, _, _, _, _, _, rfl, rfl, rfl, rfl, rfl, rfl, rfl, rfl⟩
  refine ⟨hasks.commit, fun hlost => ?_⟩
  obtain ⟨name, etag, body, rows, new, hread, hwithin, -⟩ := hlost.applied rfl 1 ⟨[5], []⟩ rfl
  obtain rfl := hread.rows_editB
  exact absurd (hwithin 5 .delete ⟨5, List.mem_singleton.mpr rfl, rfl⟩) (by decide)

end ParquetAzureFdw
