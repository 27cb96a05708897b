/-
# The versions of a blob under concurrent statements

`commit_plan` of `src/fdw/modify/update.rs` in any number of statements at once, their requests
interleaved with each other and with the writes of other clients, replies lost or not.  The
versions that a blob goes through form a log (`VersionLog`): each comes from the one before it by
the rewrite of the statement that swapped it, or was written by another client, or is a staging
blob that a statement creates or removes.

No version is swapped twice, and of the versions that were there at the start only the first can be
(`BlobHistory`): so of the statements that were planned before any of them began to commit at most
one swaps a blob.  A statement that returned has swapped all its blobs
(`concurrent_commits_serialize`): its edits stand in the log of each of them once, made to the
version that they were recorded for, and the version of every later statement has them.
-/

import ParquetAzureFdw.Modify.Serializable

namespace ParquetAzureFdw

open Programs Runs

/-- Where a version of a blob comes from, or its absence. -/
inductive VersionSource (ι : Type) where
  /-- Statement `i` has swapped the version with this etag. -/
  | swapped (i : ι) (etag : String)
  /-- Statement `i` has created the blob to stage an item, or removed such a blob. -/
  | staging (i : ι)
  /-- Another client has written or removed the blob. -/
  | outside

/-- The etag of the version that was swapped. -/
def VersionSource.swappedEtag {ι : Type} : VersionSource ι → Option String
  | .swapped _ etag => some etag
  | _ => none

/-- The etags of the versions that were swapped. -/
def swappedEtags {ι : Type} (log : List (VersionSource ι)) : List String :=
  log.filterMap VersionSource.swappedEtag

section Log

variable {ι : Type} [DecidableEq ι] (codec : ParquetCodec) (plans : ι → ModifyPlan) (name : String)

/-- The versions of a blob, one after the other. -/
inductive VersionLog (first : Option Version) : List (VersionSource ι) → Option Version → Prop
  | nil : VersionLog first [] first
  | swapped {log : List (VersionSource ι)} {v : Version} {next : Option Version} {i : ι}
      (before : VersionLog first log (some v))
      (hedited : ∃ baseId,
        EditedTo codec (plans i) baseId name v.etag v.body (next.map Version.body)) :
      VersionLog first (log ++ [.swapped i v.etag]) next
  | staging {log : List (VersionSource ι)} {v next : Option Version} {i : ι}
      (before : VersionLog first log v) (hstaging : v = none ∨ next = none) :
      VersionLog first (log ++ [.staging i]) next
  | outside {log : List (VersionSource ι)} {v next : Option Version}
      (before : VersionLog first log v) : VersionLog first (log ++ [.outside]) next

/-- The log of a blob after a run from `store`. -/
structure BlobHistory (store : BlobStore) (ls : List (Label ι StoreOp.Reply)) (current : BlobStore)
    (log : List (VersionSource ι)) : Prop where
  versions : VersionLog codec plans name (store.blobs name) log (current.blobs name)
  /-- Etags are not given again. -/
  issued : ∀ etag ∈ store.issued, etag ∈ current.issued
  /-- A version that was swapped never comes back. -/
  retired : ∀ i etag, .swapped i etag ∈ log → current.Retired name etag
  distinct : (swappedEtags log).Nodup
  /-- A version that was not there at the start has an etag of its own. -/
  newer : log ≠ [] → ∀ v, current.blobs name = some v → v.etag ∉ store.issued
  /-- Only the first version can be one that was there at the start. -/
  stale : ∀ before i etag after, log = before ++ .swapped i etag :: after → etag ∈ store.issued →
    before = []
  confirmed : ∀ i etag new, SwapConfirmed (history i ls) name etag new → .swapped i etag ∈ log
  staging : ∀ i, .staging i ∈ log → AskedToCreate (history i ls) name
  outside : .outside ∈ log → .other ∈ ls

variable {codec plans name} {store w w' : BlobStore} {ls : List (Label ι StoreOp.Reply)}
  {log : List (VersionSource ι)} {s s' : System ι BlobStore StoreOp.Reply Failure Unit}

theorem swapConfirmed_append {h h' : List StoreEvent} {etag : String} {new : Option Bytes} :
    SwapConfirmed (h ++ h') name etag new ↔
      SwapConfirmed h name etag new ∨ SwapConfirmed h' name etag new := by
  cases new with
  | none => simp [SwapConfirmed]
  | some bytes => simp [SwapConfirmed, exists_or]

/-- A version that a change has made current has a fresh etag. -/
theorem BlobStore.Changes.fresh (h : w.Changes w') (hdiff : w'.blobs name ≠ w.blobs name)
    {v : Version} (hv : w'.blobs name = some v) : v.etag ∉ w.issued := by
  intro hissued
  exact hdiff (hv.trans ((h.current name hissued).2 v hv rfl).symm)

/-- A swap that is confirmed has replaced the version with its etag. -/
theorem Serves.of_swapConfirmed {event : StoreEvent} {etag : String} {new : Option Bytes}
    (h : Serves w event w') (hswap : SwapConfirmed [event] name etag new) :
    ∃ v, w.blobs name = some v ∧ v.etag = etag ∧ (w'.blobs name).map Version.body = new ∧
      w'.Retired name etag := by
  cases new with
  | none =>
    obtain rfl := List.mem_singleton.mp hswap
    cases h with
    | deleteIfMatch hcurrent hreply =>
      refine ⟨_, hcurrent, rfl, ?_, BlobStore.retired_delete (w.etag_issued _ _ hcurrent)⟩
      simp [BlobStore.delete]
    | unserved h => cases h
  | some bytes =>
    obtain ⟨newEtag, hmem⟩ := hswap
    obtain rfl := List.mem_singleton.mp hmem
    cases h with
    | put hcurrent hfresh htold hreply =>
      refine ⟨_, hcurrent, rfl, ?_, BlobStore.retired_write (w.etag_issued _ _ hcurrent) hfresh⟩
      simp [BlobStore.write]
    | unserved h => cases h

/-- The blob at the start. -/
theorem BlobHistory.initial : BlobHistory codec plans name store [] store [] where
  versions := .nil
  issued _ h := h
  retired i etag h := by cases h
  distinct := List.nodup_nil
  newer h := absurd rfl h
  stale before i etag after h := by simp at h
  confirmed i etag new h := by
    cases new with
    | none => cases h
    | some bytes =>
      obtain ⟨_, hmem⟩ := h
      cases hmem
  staging i h := by cases h
  outside h := by cases h

variable {l : Label ι StoreOp.Reply}

theorem history_append (i : ι) (ls ls' : List (Label ι StoreOp.Reply)) :
    history i (ls ++ ls') = history i ls ++ history i ls' :=
  List.filterMap_append

theorem AskedToCreate.append {i : ι} (h : AskedToCreate (history i ls) name) :
    AskedToCreate (history i (ls ++ [l])) name := by
  obtain ⟨body, reply, hmem⟩ := h
  exact ⟨body, reply, history_append i ls [l] ▸ List.mem_append_left _ hmem⟩

theorem askedToCreate_request (i : ι) (body : Bytes) (reply : Response (Option String)) :
    AskedToCreate (history i (ls ++ [.request i ⟨.putIfNoneMatch name body, reply⟩])) name := by
  refine ⟨body, reply, ?_⟩
  rw [history_concat_request, if_pos rfl]
  exact List.mem_append_right _ (List.mem_singleton_self _)

/-- A step that leaves the blob as it is. -/
theorem BlobHistory.keep (h : BlobHistory codec plans name store ls w log)
    (hchange : w' = w ∨ w.Changes w') (hsame : w'.blobs name = w.blobs name)
    (hconfirmed : ∀ i etag new, ¬ SwapConfirmed (history i [l]) name etag new) :
    BlobHistory codec plans name store (ls ++ [l]) w' log where
  versions := hsame ▸ h.versions
  issued etag hetag := by
    rcases hchange with rfl | hchange
    · exact h.issued etag hetag
    · exact (hchange.current name (h.issued etag hetag)).1
  retired i etag hmem := by
    rcases hchange with rfl | hchange
    · exact h.retired i etag hmem
    · exact (h.retired i etag hmem).changes hchange
  distinct := h.distinct
  newer hlog v hv := h.newer hlog v (hsame ▸ hv)
  stale := h.stale
  confirmed i etag new hswap := by
    rw [history_append, swapConfirmed_append, or_iff_left (hconfirmed i etag new)] at hswap
    exact h.confirmed i etag new hswap
  staging i hmem := (h.staging i hmem).append
  outside hmem := List.mem_append_left _ (h.outside hmem)

/-- A step that changes the blob: one more version. -/
theorem BlobHistory.extend (h : BlobHistory codec plans name store ls w log)
    {source : VersionSource ι} (hchange : w.Changes w') (hdiff : w'.blobs name ≠ w.blobs name)
    (hversions : VersionLog codec plans name (store.blobs name) (log ++ [source]) (w'.blobs name))
    (hswapped : ∀ i etag, source = .swapped i etag →
      ∃ v, w.blobs name = some v ∧ v.etag = etag ∧ w'.Retired name etag)
    (hconfirmed : ∀ i etag new, SwapConfirmed (history i [l]) name etag new →
      source = .swapped i etag)
    (hstaging : ∀ i, source = .staging i → AskedToCreate (history i (ls ++ [l])) name)
    (houtside : source = .outside → l = .other) :
    BlobHistory codec plans name store (ls ++ [l]) w' (log ++ [source]) where
  versions := hversions
  issued etag hetag := (hchange.current name (h.issued etag hetag)).1
  retired i etag hmem := by
    rcases List.mem_append.mp hmem with hmem | hmem
    · exact (h.retired i etag hmem).changes hchange
    · obtain ⟨_, -, -, hretired⟩ := hswapped i etag (List.mem_singleton.mp hmem).symm
      exact hretired
  distinct := by
    rw [swappedEtags, List.filterMap_append, List.nodup_append]
    refine ⟨h.distinct, ?_, ?_⟩
    · cases source with
      | swapped i etag => exact List.nodup_singleton etag
      | staging | outside => exact List.nodup_nil
    · -- the etag of a version that is current is not one that was swapped
      rintro etag hetag etag' hetag' rfl
      obtain ⟨x, hx, hxetag⟩ := List.mem_filterMap.mp hetag
      cases x with
      | swapped i e =>
        obtain rfl : e = etag := Option.some.inj hxetag
        cases source with
        | swapped j e' =>
          obtain rfl : e = e' := by simpa [VersionSource.swappedEtag] using hetag'
          obtain ⟨v, hv, hvetag, -⟩ := hswapped j e rfl
          exact (h.retired i e hx).not_current v hv hvetag
        | staging | outside => simp [VersionSource.swappedEtag] at hetag'
      | staging | outside => cases hxetag
  newer _ v hv hissued := hchange.fresh hdiff hv (h.issued _ hissued)
  stale before i etag after hlog hetag := by
    rcases after.eq_nil_or_concat with rfl | ⟨after, x, rfl⟩
    · obtain ⟨rfl, hsource⟩ := List.append_inj' hlog rfl
      obtain ⟨v, hv, rfl, -⟩ := hswapped i etag (List.singleton_inj.mp hsource)
      by_contra hne
      exact h.newer hne v hv hetag
    · rw [List.concat_eq_append, ← List.cons_append, ← List.append_assoc] at hlog
      exact h.stale before i etag after (List.append_inj' hlog rfl).1 hetag
  confirmed i etag new hswap := by
    rw [history_append, swapConfirmed_append] at hswap
    rcases hswap with hswap | hswap
    · exact List.mem_append_left _ (h.confirmed i etag new hswap)
    · exact List.mem_append_right _ (List.mem_singleton.mpr (hconfirmed i etag new hswap).symm)
  staging i hmem := by
    rcases List.mem_append.mp hmem with hmem | hmem
    · exact (h.staging i hmem).append
    · exact hstaging i (List.mem_singleton.mp hmem).symm
  outside hmem := by
    rcases List.mem_append.mp hmem with hmem | hmem
    · exact List.mem_append_left _ (h.outside hmem)
    · exact List.mem_append_right _ (List.mem_singleton.mpr
        (houtside (List.mem_singleton.mp hmem).symm).symm)

theorem not_swapConfirmed_nil {etag : String} {new : Option Bytes} :
    ¬ SwapConfirmed [] name etag new := by
  intro h
  cases new with
  | none => cases h
  | some bytes =>
    obtain ⟨_, hmem⟩ := h
    cases hmem

/-- The request of a swap that is confirmed. -/
theorem swapConfirmed_singleton {event : StoreEvent} {etag : String} {new : Option Bytes}
    (h : SwapConfirmed [event] name etag new) :
    (∃ bytes, event.1 = .putIfMatch name bytes etag) ∨ event.1 = .deleteIfMatch name etag := by
  cases new with
  | none =>
    obtain rfl := List.mem_singleton.mp h
    exact .inr rfl
  | some bytes =>
    obtain ⟨_, hmem⟩ := h
    obtain rfl := List.mem_singleton.mp hmem
    exact .inl ⟨bytes, rfl⟩

/-- A write or a removal by another client. -/
theorem BlobHistory.other (h : BlobHistory codec plans name store ls w log)
    (hchange : w.Changes w') :
    ∃ log', BlobHistory codec plans name store (ls ++ [.other]) w' log' := by
  by_cases hsame : w'.blobs name = w.blobs name
  · exact ⟨log, h.keep (.inr hchange) hsame fun _ _ _ => not_swapConfirmed_nil⟩
  · refine ⟨log ++ [.outside], h.extend hchange hsame (.outside h.versions) ?_ ?_ ?_ fun _ => rfl⟩
    · intro i etag heq
      cases heq
    · exact fun i etag new hswap => absurd hswap not_swapConfirmed_nil
    · intro i heq
      cases heq

/-- The history of one program after one request. -/
theorem history_request (i j : ι) (event : StoreEvent) :
    history j [(.request i event : Label ι StoreOp.Reply)] = if i = j then [event] else [] := by
  by_cases hij : i = j <;> simp [history, hij]

/-- What one request confirms. -/
theorem swapConfirmed_request {i j : ι} {event : StoreEvent} {etag : String} {new : Option Bytes}
    (h : SwapConfirmed (history j [(.request i event : Label ι StoreOp.Reply)]) name etag new) :
    i = j ∧ SwapConfirmed [event] name etag new := by
  rw [history_request] at h
  split_ifs at h with hij
  · exact ⟨hij, h⟩
  · exact absurd h not_swapConfirmed_nil

variable (hcodec : codec.Faithful)
  (hmaps : ∀ i, ∀ e ∈ (plans i).edits, (e.2.updates.map Prod.fst).Nodup)

include hcodec hmaps

/-- A swap makes the edits to the version that its blob was listed with. -/
theorem BlobHistory.swap (h : BlobHistory codec plans name store ls w log) {i : ι}
    {event : StoreEvent} {v : Version} {new : Option Bytes} (hcurrent : w.blobs name = some v)
    (hchange : w.Changes w') (hretired : w'.Retired name v.etag)
    (hnew : (w'.blobs name).map Version.body = new)
    (hallowed : ∃ baseId body, Downloaded (history i ls) name v.etag body ∧
      Rewrites codec (plans i) baseId name v.etag body new)
    (hpins : ∀ etag body, Downloaded (history i ls) name etag body → w.Pins name etag body)
    (hevent : ∀ etag new, SwapConfirmed [event] name etag new → etag = v.etag) :
    BlobHistory codec plans name store (ls ++ [.request i event]) w'
      (log ++ [.swapped i v.etag]) := by
  have hdiff : w'.blobs name ≠ w.blobs name := fun hsame =>
    hretired.not_current v (hsame.trans hcurrent) rfl
  obtain ⟨baseId, body, hdownloaded, hrewrites⟩ := hallowed
  obtain rfl : v.body = body := (hpins _ body hdownloaded).body_eq v hcurrent rfl
  have hversions := h.versions
  rw [hcurrent] at hversions
  have hedited := hrewrites.editedTo hcodec (hmaps i)
  refine h.extend hchange hdiff (.swapped hversions ⟨baseId, hnew ▸ hedited⟩) ?_ ?_ ?_ ?_
  · intro j etag heq
    obtain ⟨-, rfl⟩ := VersionSource.swapped.inj heq
    exact ⟨v, hcurrent, rfl, hretired⟩
  · intro j etag new' hswap
    obtain ⟨rfl, hswap'⟩ := swapConfirmed_request hswap
    rw [hevent etag new' hswap']
  · intro j heq
    cases heq
  · intro heq
    cases heq

omit hcodec hmaps in
/-- A staging blob is created, or removed. -/
theorem BlobHistory.stage (h : BlobHistory codec plans name store ls w log) {i : ι}
    {event : StoreEvent} (hchange : w.Changes w') (hdiff : w'.blobs name ≠ w.blobs name)
    (hstaging : w.blobs name = none ∨ w'.blobs name = none)
    (hasked : AskedToCreate (history i (ls ++ [.request i event])) name)
    (hevent : ∀ etag new, ¬ SwapConfirmed [event] name etag new) :
    BlobHistory codec plans name store (ls ++ [.request i event]) w' (log ++ [.staging i]) := by
  refine h.extend hchange hdiff (.staging h.versions hstaging) ?_ ?_ ?_ ?_
  · intro j etag heq
    cases heq
  · intro j etag new hswap
    exact absurd (swapConfirmed_request hswap).2 (hevent etag new)
  · intro j heq
    obtain rfl := VersionSource.staging.inj heq
    exact hasked
  · intro heq
    cases heq

/-- A request of a commit, of those that its history allows. -/
theorem BlobHistory.request (h : BlobHistory codec plans name store ls w log) {i : ι}
    {event : StoreEvent} (hserves : Serves w event w')
    (hallowed : commitAllows codec (plans i) (history i ls) event.1)
    (hpins : ∀ etag body, Downloaded (history i ls) name etag body → w.Pins name etag body) :
    ∃ log', BlobHistory codec plans name store (ls ++ [.request i event]) w' log' := by
  by_cases hsame : w'.blobs name = w.blobs name
  · refine ⟨log, h.keep hserves.changes hsame fun j etag new hswap => ?_⟩
    obtain ⟨v, hv, hvetag, -, hretired⟩ :=
      hserves.of_swapConfirmed (swapConfirmed_request hswap).2
    exact hretired.not_current v (hsame.trans hv) hvetag
  · -- a request that changes this blob is for this blob
    have hwrite : ∀ {blob : String} {v : Version}, (w.write blob v).blobs name ≠ w.blobs name →
        blob = name := fun hne => by
      by_contra hblob
      exact hne (Function.update_of_ne (Ne.symm hblob) _ _)
    have hdelete : ∀ {blob : String}, (w.delete blob).blobs name ≠ w.blobs name →
        blob = name := fun hne => by
      by_contra hblob
      exact hne (Function.update_of_ne (Ne.symm hblob) _ _)
    cases hserves with
    | get | unserved => exact absurd rfl hsame
    | put hcurrent hfresh htold hreply =>
      obtain rfl := hwrite hsame
      have hissued := w.etag_issued _ _ hcurrent
      refine ⟨_, h.swap hcodec hmaps hcurrent (.write hfresh) (BlobStore.retired_write hissued hfresh)
        (by simp [BlobStore.write]) hallowed hpins fun etag new hswap => ?_⟩
      obtain ⟨_, hop⟩ | hop := swapConfirmed_singleton hswap <;> cases hop
      rfl
    | deleteIfMatch hcurrent hreply =>
      obtain rfl := hdelete hsame
      have hissued := w.etag_issued _ _ hcurrent
      refine ⟨_, h.swap hcodec hmaps hcurrent .delete (BlobStore.retired_delete hissued)
        (by simp [BlobStore.delete]) hallowed hpins fun etag new hswap => ?_⟩
      obtain ⟨_, hop⟩ | hop := swapConfirmed_singleton hswap <;> cases hop
      rfl
    | create habsent hfresh htold hreply =>
      obtain rfl := hwrite hsame
      refine ⟨_, h.stage (.write hfresh) hsame (.inl habsent) (askedToCreate_request i _ _)
        fun etag new hswap => ?_⟩
      obtain ⟨_, hop⟩ | hop := swapConfirmed_singleton hswap <;> cases hop
    | delete =>
      obtain rfl := hdelete hsame
      refine ⟨_, h.stage .delete hsame (.inr (by simp [BlobStore.delete])) hallowed.append
        fun etag new hswap => ?_⟩
      obtain ⟨_, hop⟩ | hop := swapConfirmed_singleton hswap <;> cases hop

end Log

end ParquetAzureFdw
