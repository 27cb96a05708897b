/-
# Concurrent commits

Any number of statements commit against one store, their requests interleaved with
each other and with the writes and deletes of other clients.  Every swap that takes
effect replaces the version that its new content was computed from
(`swap_replaces_read_version`): the body was downloaded under the etag of the swap, an
etag stands for one body for ever (`BlobStore.Pins`), and the store serves the swap
only while the etag is current.
-/

import ParquetAzureFdw.Lib.Sequential
import ParquetAzureFdw.Modify.Rewrite

namespace ParquetAzureFdw

open Programs Runs

section Commits

variable {ι : Type} [DecidableEq ι] (codec : ParquetCodec) (plans : ι → ModifyPlan)

/-- The runs of the commits of `plans` from a store, among other clients. -/
abbrev CommitRun (store : BlobStore) (ls : List (Label ι StoreOp.Reply))
    (s : System ι BlobStore StoreOp.Reply Failure Unit) : Prop :=
  Run (Step (fun _ => Serves) BlobStore.Changes) ⟨store, fun i => commitPlan codec (plans i)⟩ ls s

variable {codec plans} {store : BlobStore} {ls : List (Label ι StoreOp.Reply)}
  {s : System ι BlobStore StoreOp.Reply Failure Unit}

/-- What a statement downloaded stays pinned by its etag, whatever the others do. -/
theorem CommitRun.pins (run : CommitRun codec plans store ls s) :
    ∀ i name etag body, Downloaded (history i ls) name etag body → s.world.Pins name etag body := by
  refine run.induct (I := fun ls s => ∀ i name etag body,
    Downloaded (history i ls) name etag body → s.world.Pins name etag body) ?_ ?_
  · rintro i name etag body ⟨len, hmem⟩
    simp [history] at hmem
  · rintro ls s l s' ih next i name etag body ⟨len, hmem⟩
    cases next with
    | other h =>
      rw [history_concat_other] at hmem
      exact (ih i name etag body ⟨len, hmem⟩).changes h
    | @request w w' ps j op k reply hproc hserves =>
      have hold : Downloaded (history i ls) name etag body → w'.Pins name etag body := by
        intro hd
        rcases hserves.changes with rfl | hchange
        · exact ih i name etag body hd
        · exact (ih i name etag body hd).changes hchange
      rw [history_concat_request] at hmem
      split_ifs at hmem
      · rcases List.mem_append.mp hmem with hmem | hmem
        · exact hold ⟨len, hmem⟩
        · rw [← List.mem_singleton.mp hmem] at hserves
          exact hserves.pins_of_get
      · exact hold ⟨len, hmem⟩

variable (codec) in
/-- A swap from the version that was read: the blob has the etag of the swap, its body was
downloaded under that etag, and the new content is the rewrite of that body. -/
def SwapsReadVersion (plan : ModifyPlan) (h : List StoreEvent) (before : BlobStore)
    (name etag : String) (new : Option Bytes) : Prop :=
  ∃ v, before.blobs name = some v ∧ v.etag = etag ∧ Downloaded h name etag v.body ∧
    ∃ baseId, Rewrites codec plan baseId name etag v.body new

variable (codec) in
/-- What a request of a commit may do to the store: swap a version that was read, create a
blob that is absent, or remove a blob that the statement itself asked to create. -/
def LosesNoWrite (plan : ModifyPlan) (h : List StoreEvent) (before after : BlobStore) :
    StoreOp → Prop
  | .putIfMatch name bytes etag => SwapsReadVersion codec plan h before name etag (some bytes)
  | .deleteIfMatch name etag => SwapsReadVersion codec plan h before name etag none
  | .putIfNoneMatch name _ => before.blobs name = none
  | .delete name => AskedToCreate h name
  | _ => after = before

/-- **Every swap that takes effect replaces the version its content was computed from.** -/
theorem swap_replaces_read_version (run : CommitRun codec plans store ls s) {i : ι}
    {event : StoreEvent} {s' : System ι BlobStore StoreOp.Reply Failure Unit}
    (next : Step (fun _ => Serves) BlobStore.Changes s (.request i event) s')
    (heffect : ¬ event.Unserved ∨ s'.world ≠ s.world) :
    LosesNoWrite codec (plans i) (history i ls) s.world s'.world event.1 := by
  have hwp : ∀ i, wp (commitAllows codec (plans i)) (commitPlan codec (plans i)) [] fun h r =>
      ∀ u, r = .ok u → ∀ baseId ∈ (plans i).edits.map Prod.fst, Committed codec (plans i) h baseId :=
    fun i => wp_commitPlan
  have hallowed : commitAllows codec (plans i) (history i ls) event.1 :=
    Run.request_allowed run hwp next
  -- the body that was downloaded under the etag is the body of the current version
  have hswap : ∀ {name : String} {v : Version} {new : Option Bytes},
      s.world.blobs name = some v →
      (∃ baseId body, Downloaded (history i ls) name v.etag body ∧
        Rewrites codec (plans i) baseId name v.etag body new) →
      SwapsReadVersion codec (plans i) (history i ls) s.world name v.etag new := by
    rintro name v new hcurrent ⟨baseId, body, hdownloaded, hrewrites⟩
    have hbody := (run.pins i name v.etag body hdownloaded).body_eq v hcurrent rfl
    exact ⟨v, hcurrent, rfl, hbody ▸ hdownloaded, baseId, hbody ▸ hrewrites⟩
  cases next with
  | @request w w' ps _ op k reply hproc hserves =>
    cases hserves with
    | get => rfl
    | put hcurrent => exact hswap hcurrent hallowed
    | create habsent => exact habsent
    | deleteIfMatch hcurrent => exact hswap hcurrent hallowed
    | delete => exact hallowed
    | unserved h => exact absurd heffect (by simpa using h)

end Commits

/-! ### A delete that empties a blob -/

/-- The program downloads a version of a blob, removes the blob and returns. -/
def Removes (program : StoreProgram Unit) (name : String) (v : Version) : Prop :=
  ∃ next next', program = .request (.getIfMatch name v.etag) next ∧
    next (.ok (none, v.body)) = .request (.deleteIfMatch name v.etag) next' ∧ next' (.ok ()) = .ret ()

theorem Removes.exec {program : StoreProgram Unit} {name : String} {v : Version} {s : BlobStore}
    (h : Removes program name v) (hv : s.blobs name = some v) :
    Exec Serves program s
      [⟨.getIfMatch name v.etag, .ok (none, v.body)⟩, ⟨.deleteIfMatch name v.etag, .ok ()⟩]
      (s.delete name) (.ok ()) := by
  obtain ⟨next, next', rfl, hdelete, hret⟩ := h
  refine .request (.get none hv) ?_
  rw [hdelete]
  refine .request (.deleteIfMatch hv .ok) ?_
  rw [hret]
  exact .ret

/-- The plan that deletes the only row of blob `a`. -/
def deleteOnlyRow : ModifyPlan where
  blobTable := [⟨"a", 0, "0x1"⟩]
  edits := [(0, ⟨[0], []⟩)]
  schema := [⟨"flag", .boolean, true⟩]
  compression := .snappy
  editCount := 1

/-- A store that holds blob `a`. -/
def storeOfA : BlobStore := .holding [("a", ⟨"0x1", [1]⟩)]

theorem commitPlan_deleteOnlyRow : Removes (commitPlan flagCodec deleteOnlyRow) "a" ⟨"0x1", [1]⟩ :=
  ⟨_, _, rfl, rfl, rfl⟩

/-- Two statements delete the row, and both have downloaded the blob. -/
theorem both_downloaded : ∃ s next,
    CommitRun flagCodec (fun _ : Bool => deleteOnlyRow) storeOfA
      [.request false ⟨.getIfMatch "a" "0x1", .ok (none, [1])⟩,
        .request true ⟨.getIfMatch "a" "0x1", .ok (none, [1])⟩] s ∧ s.world = storeOfA ∧
    s.procs false = .request (.deleteIfMatch "a" "0x1") next ∧ next (.ok ()) = .ret () := by
  obtain ⟨next, next', hget, hdelete, hret⟩ := commitPlan_deleteOnlyRow
  have hcurrent : storeOfA.blobs "a" = some ⟨"0x1", [1]⟩ := rfl
  have run : CommitRun flagCodec (fun _ : Bool => deleteOnlyRow) storeOfA
      ([.request false ⟨.getIfMatch "a" "0x1", .ok (none, [1])⟩] ++
        [.request true ⟨.getIfMatch "a" "0x1", .ok (none, [1])⟩]) ⟨storeOfA, _⟩ :=
    (Run.nil.snoc (.request hget (.get none hcurrent))).snoc
      (.request ((Function.update_of_ne (by decide) _ _).trans hget) (.get none hcurrent))
  exact ⟨_, next', run, rfl, by simpa using hdelete, hret⟩

/-- The first delete replaces the version that was downloaded. -/
theorem delete_swaps_downloaded_version : ∃ s,
    CommitRun flagCodec (fun _ : Bool => deleteOnlyRow) storeOfA
      [.request false ⟨.getIfMatch "a" "0x1", .ok (none, [1])⟩,
        .request true ⟨.getIfMatch "a" "0x1", .ok (none, [1])⟩] s ∧
    LosesNoWrite flagCodec deleteOnlyRow [⟨.getIfMatch "a" "0x1", .ok (none, [1])⟩] s.world
      (storeOfA.delete "a") (.deleteIfMatch "a" "0x1") := by
  obtain ⟨s, next, run, hworld, hproc, -⟩ := both_downloaded
  have hcurrent : storeOfA.blobs "a" = some ⟨"0x1", [1]⟩ := rfl
  have hserves : Serves s.world ⟨.deleteIfMatch "a" "0x1", .ok ()⟩ (storeOfA.delete "a") :=
    hworld ▸ .deleteIfMatch hcurrent .ok
  exact ⟨s, run, swap_replaces_read_version run (Step.request hproc hserves)
    (.inl (by simp [StoreEvent.Unserved, Response.isOk]))⟩

end ParquetAzureFdw
