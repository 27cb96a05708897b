/-
# Failure atomicity of a commit

`commit_plan` alone on its container, where each request takes effect and succeeds or fails
without effect, and the deletes of staging blobs succeed.  Wherever it stops, the originals of
the items that were swapped have their edited content, or are gone when no row is left; every
other blob that was there is as it was; and the staging blobs that exist are in flight
(`commit_failure_atomic`).

In the first phase nothing that was there changes: a staging blob is created under a name that
is absent.  In the second an item is swapped under the etag that its content was read at, and
once it is, that etag is retired (`BlobStore.Retired`), so that no later item of the plan can
swap the same blob again; the same holds of a staging blob once it is deleted.
-/

import ParquetAzureFdw.Modify.Coordinator
import ParquetAzureFdw.Modify.Serializable

namespace ParquetAzureFdw

open Programs Runs

/-! ### What a history says -/

/-- Whether the event is a swap: a request of phase 2 for an original. -/
def StoreEvent.isSwap : StoreEvent → Bool
  | ⟨.putIfMatch _ _ _, _⟩ | ⟨.deleteIfMatch _ _, _⟩ => true
  | _ => false

/-- Whether it is a swap that succeeded. -/
def StoreEvent.isConfirmedSwap : StoreEvent → Bool
  | ⟨.putIfMatch _ _ _, reply⟩ => Response.isOk reply
  | ⟨.deleteIfMatch _ _, reply⟩ => Response.isOk reply
  | _ => false

/-- The number of items whose swap was asked for. -/
def swapRequests (h : List StoreEvent) : ℕ := h.countP StoreEvent.isSwap

/-- The number of items that were swapped. -/
def confirmedSwaps (h : List StoreEvent) : ℕ := h.countP StoreEvent.isConfirmedSwap

/-- The statement created the blob. -/
def Created (h : List StoreEvent) (name : String) : Prop :=
  ∃ body etag, (⟨.putIfNoneMatch name body, .ok (some etag)⟩ : StoreEvent) ∈ h

/-- The blob of an item. -/
def ModifyPlan.blobName (plan : ModifyPlan) (baseId : UInt32) : Option String :=
  (plan.blobTable[baseId.toNat]?).map BlobIdEntry.name

section Statement

variable (codec : ParquetCodec) (plan : ModifyPlan)

/-- The original of an item has its edited content: what the edits of the plan make of the rows it
held under the etag of the plan, or nothing when no row is left. -/
def Replaced (s₀ s : BlobStore) (baseId : UInt32) : Prop :=
  ∃ name etag v, s₀.blobs name = some v ∧ v.etag = etag ∧
    EditedTo codec plan baseId name etag v.body ((s.blobs name).map Version.body)

/-- The containers after the requests `h`: the items swapped so far are the first ones, in the
order of their ids, and what they do not name is as it was, the blobs created apart. -/
structure CommitPoint (s₀ : BlobStore) (h : List StoreEvent) (s : BlobStore) : Prop where
  swapped : ∀ k < confirmedSwaps h, ∃ baseId, plan.keys[k]? = some baseId ∧
    Replaced codec plan s₀ s baseId
  unchanged : ∀ name, (∀ k < confirmedSwaps h, ∀ baseId, plan.keys[k]? = some baseId →
    plan.blobName baseId ≠ some name) → ¬ Created h name → s.blobs name = s₀.blobs name
  created : ∀ name, Created h name → s₀.blobs name = none

/-- What a commit owes at a point of its run, after the requests `h`. -/
structure FailureAtomic (client : Container) (b₀ : Backend) (h : List StoreEvent) (b : Backend)
    (p : StoreProgram Unit) : Prop where
  /-- Before the first request of phase 2 no original has changed. -/
  originals : swapRequests h = 0 → ∀ name, (b₀.stores client).blobs name ≠ none →
    (b.stores client).blobs name = (b₀.stores client).blobs name
  /-- The first items are swapped, and all else is unchanged. -/
  point : CommitPoint codec plan (b₀.stores client) h (b.stores client)
  /-- A commit that failed at the `k`-th item has swapped `k - 1`. -/
  failed : ∀ e, p = .fail e → confirmedSwaps h = swapRequests h - 1
  /-- A commit that returned has swapped all. -/
  returned : ∀ u, p = .ret u → confirmedSwaps h = plan.keys.length
  /-- With a statement open, the staging blobs that exist are in flight. -/
  tracked : ∀ a, b₀.active = some a → ∃ coord, b.active = some ⟨a.client, coord⟩ ∧
    ∀ name, Created h name → (b.stores client).blobs name ≠ none → name ∈ coord.inFlight
  /-- When the commit returned, none exists. -/
  cleaned : ∀ a, b₀.active = some a → ∀ u, p = .ret u → ∀ name, Created h name →
    (b.stores client).blobs name = none

end Statement

/-! ### One more request -/

section Concat

variable {h : List StoreEvent} {event : StoreEvent} {name : String}

theorem swapRequests_concat : swapRequests (h ++ [event]) =
    swapRequests h + if event.isSwap then 1 else 0 := by
  rw [swapRequests, List.countP_append, List.countP_singleton]
  rfl

theorem confirmedSwaps_concat : confirmedSwaps (h ++ [event]) =
    confirmedSwaps h + if event.isConfirmedSwap then 1 else 0 := by
  rw [confirmedSwaps, List.countP_append, List.countP_singleton]
  rfl

theorem confirmedSwaps_le (h : List StoreEvent) : confirmedSwaps h ≤ swapRequests h := by
  refine List.countP_mono_left fun event _ hconfirmed => ?_
  obtain ⟨op, reply⟩ := event
  cases op with
  | putIfMatch | deleteIfMatch => rfl
  | _ => cases hconfirmed

/-- Whether the event is a creation that succeeded. -/
def StoreEvent.Creates (event : StoreEvent) (name : String) : Prop :=
  ∃ body etag, event = ⟨.putIfNoneMatch name body, .ok (some etag)⟩

theorem created_concat : Created (h ++ [event]) name ↔ Created h name ∨ event.Creates name := by
  simp [Created, StoreEvent.Creates, exists_or, eq_comm]

theorem created_concat_iff (hcreates : ∀ name, ¬ event.Creates name) (name : String) :
    Created (h ++ [event]) name ↔ Created h name :=
  created_concat.trans (or_iff_left (hcreates name))

theorem StoreEvent.not_creates_of_unserved (event : StoreEvent) (hno : event.Unserved)
    (name : String) : ¬ event.Creates name := by
  rintro ⟨body, etag, rfl⟩
  cases hno

theorem StoreEvent.not_creates_of_isSwap (event : StoreEvent) (hswap : event.isSwap = true)
    (name : String) : ¬ event.Creates name := by
  rintro ⟨body, etag, rfl⟩
  cases hswap

theorem Created.askedToCreate (hc : Created h name) : AskedToCreate h name := by
  obtain ⟨body, etag, hmem⟩ := hc
  exact ⟨body, _, hmem⟩

end Concat

/-! ### Phase 1 -/

section Phases

variable {codec : ParquetCodec} {plan : ModifyPlan} {s₀ s s' : BlobStore} {h : List StoreEvent}
  {event : StoreEvent} {done : List UInt32} {staged : List Staged}

variable (codec plan s₀) in
/-- The content of an item comes from a blob that was there at the start. -/
def FromOriginal (baseId : UInt32) (x : Staged) : Prop :=
  ∃ v, s₀.blobs x.originalName = some v ∧ v.etag = x.scanEtag ∧
    Rewrites codec plan baseId x.originalName x.scanEtag v.body x.newContent

variable (codec plan s₀) in
/-- An item of phase 1.  A plan may also name, with an etag that is yet to be given, the staging
blob of an earlier item. -/
structure StagedItem (done : List UInt32) (staged : List Staged) (i : ℕ) (x : Staged) : Prop where
  fits : x.newBytes.length ≤ maxBlobBytes
  source : ∃ baseId, done[i]? = some baseId ∧ (FromOriginal codec plan s₀ baseId x ∨
    ∃ j < i, ∃ y, staged[j]? = some y ∧ y.emptyDelete = false ∧ y.stagingName = x.originalName)

variable (codec plan s₀) in
/-- The state of phase 1 after the items `done`. -/
structure Staging (done : List UInt32) (staged : List Staged) (h : List StoreEvent)
    (s : BlobStore) : Prop where
  length_eq : staged.length = done.length
  noSwap : swapRequests h = 0
  created : ∀ name, Created h name ↔ ∃ y ∈ staged, y.emptyDelete = false ∧ y.stagingName = name
  fresh : ∀ name, Created h name → s₀.blobs name = none
  others : ∀ name, ¬ Created h name → s.blobs name = s₀.blobs name
  items : ∀ i x, staged[i]? = some x → StagedItem codec plan s₀ done staged i x ∧
    x.scanEtag ∈ s.issued

/-- Nothing is swapped yet. -/
theorem Staging.point (hst : Staging codec plan s₀ done staged h s) :
    CommitPoint codec plan s₀ h s := by
  have hzero : confirmedSwaps h = 0 := by
    have := confirmedSwaps_le h
    rw [hst.noSwap] at this
    omega
  refine ⟨fun k hk => ?_, fun name _ => hst.others name, hst.fresh⟩
  omega

/-- A request that changes nothing. -/
theorem Staging.neutral (hst : Staging codec plan s₀ done staged h s) (hswap : event.isSwap = false)
    (hcreates : ∀ name, ¬ event.Creates name) : Staging codec plan s₀ done staged (h ++ [event]) s := by
  have hcreated := created_concat_iff (h := h) hcreates
  refine ⟨hst.length_eq, ?_, fun name => (hcreated name).trans (hst.created name), ?_, ?_, hst.items⟩
  · rw [swapRequests_concat, hst.noSwap, hswap]
    rfl
  · exact fun name hc => hst.fresh name ((hcreated name).mp hc)
  · exact fun name hc => hst.others name fun hc' => hc ((hcreated name).mpr hc')

/-- Where a blob that is downloaded in phase 1 comes from. -/
theorem Staging.source (hst : Staging codec plan s₀ done staged h s) {baseId : UInt32} {x : Staged}
    {body : Bytes} (hcurrent : s.blobs x.originalName = some ⟨x.scanEtag, body⟩)
    (hrewrites : Rewrites codec plan baseId x.originalName x.scanEtag body x.newContent) :
    FromOriginal codec plan s₀ baseId x ∨
      ∃ y ∈ staged, y.emptyDelete = false ∧ y.stagingName = x.originalName := by
  by_cases hcreated : Created h x.originalName
  · exact .inr ((hst.created _).mp hcreated)
  · rw [hst.others _ hcreated] at hcurrent
    exact .inl ⟨_, hcurrent, rfl, hrewrites⟩

/-- One more item, with or without a staging blob. -/
theorem Staging.snoc (hst : Staging codec plan s₀ done staged h s) {h' : List StoreEvent}
    {baseId : UInt32} {x : Staged} (hfits : x.newBytes.length ≤ maxBlobBytes)
    (hsource : FromOriginal codec plan s₀ baseId x ∨
      ∃ y ∈ staged, y.emptyDelete = false ∧ y.stagingName = x.originalName)
    (hetag : x.scanEtag ∈ s.issued) (hissued : ∀ etag ∈ s.issued, etag ∈ s'.issued)
    (hnoSwap : swapRequests h' = 0)
    (hcreated : ∀ name, Created h' name ↔
      Created h name ∨ x.emptyDelete = false ∧ x.stagingName = name)
    (hfresh : x.emptyDelete = false → s₀.blobs x.stagingName = none)
    (hothers : ∀ name, ¬ Created h' name → s'.blobs name = s.blobs name) :
    Staging codec plan s₀ (done ++ [baseId]) (staged ++ [x]) h' s' where
  length_eq := by simp [hst.length_eq]
  noSwap := hnoSwap
  created name := by
    rw [hcreated, hst.created]
    simp [or_and_right, exists_or]
  fresh name hc := by
    rcases (hcreated name).mp hc with hc | ⟨hkeeps, rfl⟩
    · exact hst.fresh name hc
    · exact hfresh hkeeps
  others name hc := by
    rw [hothers name hc]
    exact hst.others name fun hc' => hc ((hcreated name).mpr (.inl hc'))
  items i y hy := by
    rcases Nat.lt_or_ge i staged.length with hi | hi
    · rw [List.getElem?_append_left hi] at hy
      obtain ⟨⟨hyfits, baseId', hbaseId', hysource⟩, hyetag⟩ := hst.items i y hy
      refine ⟨⟨hyfits, baseId', ?_, hysource.imp_right ?_⟩, hissued _ hyetag⟩
      · rw [List.getElem?_append_left (hst.length_eq ▸ hi), hbaseId']
      · rintro ⟨j, hj, z, hz, hstaged⟩
        exact ⟨j, hj, z, by rw [List.getElem?_append_left (by omega), hz], hstaged⟩
    · obtain rfl : i = staged.length := by
        have hlt := (List.getElem?_eq_some_iff.mp hy).1
        rw [List.length_append, List.length_singleton] at hlt
        omega
      obtain rfl : x = y := by simpa using hy
      refine ⟨⟨hfits, baseId, by simp [hst.length_eq], hsource.imp_right ?_⟩, hissued _ hetag⟩
      rintro ⟨z, hz, hstaged⟩
      obtain ⟨j, hj⟩ := List.getElem?_of_mem hz
      have hlt := (List.getElem?_eq_some_iff.mp hj).1
      exact ⟨j, hlt, z, by rw [List.getElem?_append_left hlt, hj], hstaged⟩

/-! ### Phase 2 -/

variable {swapped dropped : List Staged}

variable (codec plan s₀) in
/-- The state of phase 2: the items swapped, and those whose staging blob is deleted as well.
`issued` are the etags given by the end of phase 1. -/
structure Swapping (issued : List String) (staged swapped dropped : List Staged)
    (h : List StoreEvent) (s : BlobStore) : Prop where
  requests : swapRequests h = swapped.length
  confirmed : confirmedSwaps h = swapped.length
  created : ∀ name, Created h name ↔ ∃ y ∈ staged, y.emptyDelete = false ∧ y.stagingName = name
  fresh : ∀ name, Created h name → s₀.blobs name = none
  issued_subset : ∀ etag ∈ issued, etag ∈ s.issued
  originals : ∀ (i : ℕ) x, swapped[i]? = some x →
    (∃ baseId, plan.keys[i]? = some baseId ∧ FromOriginal codec plan s₀ baseId x) ∧
      (s.blobs x.originalName).map Version.body = x.newContent ∧
      s.Retired x.originalName x.scanEtag
  gone : ∀ x ∈ dropped, x.emptyDelete = false → ∀ etag ∈ issued, s.Retired x.stagingName etag
  others : ∀ name, ¬ Created h name → (∀ x ∈ swapped, x.originalName ≠ name) →
    s.blobs name = s₀.blobs name

variable (hcodec : codec.Faithful) (hmaps : ∀ e ∈ plan.edits, (e.2.updates.map Prod.fst).Nodup)

include hcodec hmaps in
/-- The items swapped are the first ones. -/
theorem Swapping.point {issued : List String}
    (hsw : Swapping codec plan s₀ issued staged swapped dropped h s) :
    CommitPoint codec plan s₀ h s := by
  refine ⟨fun k hk => ?_, fun name hname hnot => ?_, hsw.fresh⟩
  · rw [hsw.confirmed] at hk
    obtain ⟨⟨baseId, hbaseId, v, hv, hetag, hrewrites⟩, hcontent, -⟩ :=
      hsw.originals k _ (List.getElem?_eq_getElem hk)
    exact ⟨baseId, hbaseId, _, _, v, hv, hetag, hcontent ▸ hrewrites.editedTo hcodec hmaps⟩
  · refine hsw.others name hnot fun x hx => ?_
    rintro rfl
    obtain ⟨k, hk⟩ := List.getElem?_of_mem hx
    obtain ⟨⟨baseId, hbaseId, v, -, -, hrewrites⟩, -⟩ := hsw.originals k x hk
    obtain ⟨row, hrow⟩ := hrewrites.entry
    refine hname k ?_ baseId hbaseId ?_
    · rw [hsw.confirmed]
      exact (List.getElem?_eq_some_iff.mp hk).1
    · rw [ModifyPlan.blobName, hrow]
      rfl

/-- Phase 2 starts where phase 1 ended. -/
theorem Staging.swapping (hst : Staging codec plan s₀ plan.keys staged h s) :
    Swapping codec plan s₀ s.issued staged [] [] h s where
  requests := hst.noSwap
  confirmed := by
    have := confirmedSwaps_le h
    rw [hst.noSwap] at this
    simpa using this
  created := hst.created
  fresh := hst.fresh
  issued_subset _ hetag := hetag
  originals i x hx := by cases hx
  gone x hx := by cases hx
  others name hc _ := hst.others name hc

section Swap

variable {issued : List String}

/-- A request that changes nothing. -/
theorem Swapping.neutral (hsw : Swapping codec plan s₀ issued staged swapped dropped h s)
    (hswap : event.isSwap = false) (hconfirmed : event.isConfirmedSwap = false)
    (hcreates : ∀ name, ¬ event.Creates name) :
    Swapping codec plan s₀ issued staged swapped dropped (h ++ [event]) s := by
  have hcreated := created_concat_iff (h := h) hcreates
  refine ⟨?_, ?_, fun name => (hcreated name).trans (hsw.created name), ?_, hsw.issued_subset,
    hsw.originals, hsw.gone, ?_⟩
  · rw [swapRequests_concat, hswap, hsw.requests]
    rfl
  · rw [confirmedSwaps_concat, hconfirmed, hsw.confirmed]
    rfl
  · exact fun name hc => hsw.fresh name ((hcreated name).mp hc)
  · exact fun name hc => hsw.others name fun hc' => hc ((hcreated name).mpr hc')

include hcodec hmaps in
/-- A swap that is refused leaves the point as it was. -/
theorem Swapping.refused (hsw : Swapping codec plan s₀ issued staged swapped dropped h s)
    (event : StoreEvent) (hswap : event.isSwap = true) (hconfirmed : event.isConfirmedSwap = false) :
    CommitPoint codec plan s₀ (h ++ [event]) s ∧
      confirmedSwaps (h ++ [event]) = swapRequests (h ++ [event]) - 1 := by
  have hsame : confirmedSwaps (h ++ [event]) = confirmedSwaps h := by
    rw [confirmedSwaps_concat, hconfirmed]
    rfl
  have hcreated := created_concat_iff (h := h) (event.not_creates_of_isSwap hswap)
  have hpoint := hsw.point hcodec hmaps
  refine ⟨⟨?_, ?_, fun name hc => hpoint.created name ((hcreated name).mp hc)⟩, ?_⟩
  · rw [hsame]
    exact hpoint.swapped
  · rw [hsame]
    exact fun name hname hc => hpoint.unchanged name hname fun hc' => hc ((hcreated name).mpr hc')
  · rw [hsame, swapRequests_concat, hswap, hsw.requests, hsw.confirmed]
    rfl

variable {x : Staged} {rest : List Staged} (hstaged : staged = swapped ++ x :: rest)
  (hitems : ∀ (i : ℕ) y, staged[i]? = some y → StagedItem codec plan s₀ plan.keys staged i y ∧
    y.scanEtag ∈ issued)

include hstaged hitems

/-- An item whose etag is current comes from a blob that was there at the start, and no item
before it has swapped that blob. -/
theorem Swapping.next_original
    (hsw : Swapping codec plan s₀ issued staged swapped swapped h s) {v : Version}
    (hcurrent : s.blobs x.originalName = some v) (hetag : v.etag = x.scanEtag) :
    (∃ baseId, plan.keys[swapped.length]? = some baseId ∧ FromOriginal codec plan s₀ baseId x) ∧
      ∀ y ∈ swapped, y.originalName ≠ x.originalName := by
  have hx : staged[swapped.length]? = some x := by simp [hstaged]
  obtain ⟨⟨-, baseId, hbaseId, hsource⟩, hissued⟩ := hitems _ x hx
  have horiginal : FromOriginal codec plan s₀ baseId x := by
    refine hsource.resolve_right ?_
    rintro ⟨j, hj, y, hy, hkeeps, hname⟩
    -- the staging blob of an earlier item is deleted by now
    rw [hstaged, List.getElem?_append_left hj] at hy
    have hretired := hsw.gone y (List.mem_of_getElem? hy) hkeeps x.scanEtag hissued
    rw [hname] at hretired
    exact hretired.not_current v hcurrent hetag
  refine ⟨⟨baseId, hbaseId, horiginal⟩, fun y hy hname => ?_⟩
  obtain ⟨k, hk⟩ := List.getElem?_of_mem hy
  obtain ⟨⟨_, -, vy, hvy, hvyetag, -⟩, -, hretired⟩ := hsw.originals k y hk
  obtain ⟨vx, hvx, hvxetag, -⟩ := horiginal
  rw [hname] at hvy hretired
  obtain rfl : vx = vy := Option.some.inj (hvx.symm.trans hvy)
  exact hretired.not_current v hcurrent (by rw [hetag, ← hvxetag, hvyetag])

/-- A swap that succeeds. -/
theorem Swapping.swap (hsw : Swapping codec plan s₀ issued staged swapped swapped h s)
    {v : Version} (hcurrent : s.blobs x.originalName = some v) (hetag : v.etag = x.scanEtag)
    (event : StoreEvent) (hswap : event.isSwap = true) (hconfirmed : event.isConfirmedSwap = true)
    (hchange : s.Changes s')
    (hother : ∀ name, name ≠ x.originalName → s'.blobs name = s.blobs name)
    (hcontent : (s'.blobs x.originalName).map Version.body = x.newContent)
    (hretired : s'.Retired x.originalName x.scanEtag) :
    Swapping codec plan s₀ issued staged (swapped ++ [x]) swapped (h ++ [event]) s' := by
  obtain ⟨horiginal, hdistinct⟩ := hsw.next_original hstaged hitems hcurrent hetag
  have hcreated := created_concat_iff (h := h) (event.not_creates_of_isSwap hswap)
  refine ⟨?_, ?_, fun name => (hcreated name).trans (hsw.created name), ?_, ?_, ?_, ?_, ?_⟩
  · rw [swapRequests_concat, hswap, hsw.requests]
    simp
  · rw [confirmedSwaps_concat, hconfirmed, hsw.confirmed]
    simp
  · exact fun name hc => hsw.fresh name ((hcreated name).mp hc)
  · exact fun etag hmem => (hchange.current x.originalName (hsw.issued_subset etag hmem)).1
  · intro i y hy
    rcases Nat.lt_or_ge i swapped.length with hi | hi
    · rw [List.getElem?_append_left hi] at hy
      obtain ⟨hyoriginal, hycontent, hyretired⟩ := hsw.originals i y hy
      refine ⟨hyoriginal, ?_, hyretired.changes hchange⟩
      rw [hother _ (hdistinct y (List.mem_of_getElem? hy)), hycontent]
    · obtain rfl : i = swapped.length := by
        have hlt := (List.getElem?_eq_some_iff.mp hy).1
        rw [List.length_append, List.length_singleton] at hlt
        omega
      obtain rfl : x = y := by simpa using hy
      exact ⟨horiginal, hcontent, hretired⟩
  · exact fun y hy hkeeps etag hmem => (hsw.gone y hy hkeeps etag hmem).changes hchange
  · intro name hc hname
    have hne : name ≠ x.originalName := fun heq => hname x (by simp) heq.symm
    rw [hother name hne]
    exact hsw.others name (fun hc' => hc ((hcreated name).mpr hc')) fun y hy => hname y (by simp [hy])

omit hitems in
/-- The deletion of the staging blob of the item just swapped. -/
theorem Swapping.drop (hsw : Swapping codec plan s₀ issued staged (swapped ++ [x]) swapped h s)
    (hkeeps : x.emptyDelete = false) (reply : Response Unit) :
    Swapping codec plan s₀ issued staged (swapped ++ [x]) (swapped ++ [x])
      (h ++ [⟨.delete x.stagingName, reply⟩]) (s.delete x.stagingName) := by
  have hcreated : Created h x.stagingName := (hsw.created _).mpr ⟨x, by simp [hstaged], hkeeps, rfl⟩
  have hneutral : Swapping codec plan s₀ issued staged (swapped ++ [x]) swapped
      (h ++ [⟨.delete x.stagingName, reply⟩]) s := hsw.neutral rfl rfl (by rintro name ⟨_, _, he⟩; cases he)
  have hchange : s.Changes (s.delete x.stagingName) := .delete
  have hother : ∀ name, name ≠ x.stagingName → (s.delete x.stagingName).blobs name = s.blobs name :=
    fun name hne => Function.update_of_ne hne _ _
  refine ⟨hneutral.requests, hneutral.confirmed, hneutral.created, hneutral.fresh, hsw.issued_subset,
    ?_, ?_, ?_⟩
  · intro i y hy
    obtain ⟨⟨baseId, hbaseId, v, hv, hrest⟩, hcontent, hretired⟩ := hsw.originals i y hy
    -- an original was there at the start, the staging blob was not
    have hne : y.originalName ≠ x.stagingName := by
      intro heq
      rw [heq, hsw.fresh _ hcreated] at hv
      cases hv
    refine ⟨⟨baseId, hbaseId, v, hv, hrest⟩, ?_, hretired.changes hchange⟩
    rw [hother _ hne, hcontent]
  · intro y hy hykeeps etag hmem
    rcases List.mem_append.mp hy with hy | hy
    · exact (hsw.gone y hy hykeeps etag hmem).changes hchange
    · obtain rfl := List.mem_singleton.mp hy
      exact BlobStore.retired_delete (hsw.issued_subset etag hmem)
  · intro name hc hname
    have hne : name ≠ x.stagingName := by
      rintro rfl
      exact hc (created_concat.mpr (.inl hcreated))
    rw [hother name hne]
    exact hneutral.others name hc hname

end Swap

/-! ### Along the commit -/

variable {client : Container} {b b' : Backend}

variable (codec plan s₀ client) in
/-- A part of a commit that stops at no point but a commit point. -/
abbrev SafelyAtomic {α : Type} (p : StoreProgram α) (h : List StoreEvent) (b : Backend)
    (J : α → List StoreEvent → BlobStore → Prop) : Prop :=
  Safe (BackendServes AtomicServes client)
    (fun h b => CommitPoint codec plan s₀ h (b.stores client))
    (fun h b => CommitPoint codec plan s₀ h (b.stores client) ∧
      confirmedSwaps h = swapRequests h - 1) p h b fun a h b => J a h (b.stores client)

/-- A failure in phase 1. -/
theorem Staging.failed (hst : Staging codec plan s₀ done staged h s) :
    CommitPoint codec plan s₀ h s ∧ confirmedSwaps h = swapRequests h - 1 := by
  have := confirmedSwaps_le h
  rw [hst.noSwap] at this ⊢
  exact ⟨hst.point, by omega⟩

/-- The upload of a staging blob. -/
theorem Staging.stageBytes {entry : BlobIdEntry} {baseId : UInt32} {body bytes : Bytes}
    (hst : Staging codec plan s₀ done staged h (b.stores client))
    (hcurrent : (b.stores client).blobs entry.name = some ⟨entry.etag, body⟩)
    (hrewrites : Rewrites codec plan baseId entry.name entry.etag body (some bytes)) :
    SafelyAtomic codec plan s₀ client (stageBytes entry bytes) h b fun x =>
      Staging codec plan s₀ (done ++ [baseId]) (staged ++ [x]) := by
  refine safe_call_bind hst.point fun uuid b₁ hdraw => ?_
  set name := makeStagingName entry.name uuid
  have hst₁ := hst.neutral rfl (StoreEvent.not_creates_of_unserved ⟨.newUuid, uuid⟩ trivial)
  have hsame₁ : b₁.stores client = b.stores client := hdraw.store.local (.inl rfl)
  rw [← hsame₁] at hst₁ hcurrent
  refine safe_call_bind hst₁.point fun u b₂ hregister => ?_
  have hst₂ := hst₁.neutral rfl (StoreEvent.not_creates_of_unserved ⟨.registerStaging name, u⟩ trivial)
  have hsame₂ : b₂.stores client = b₁.stores client := hregister.store.local (.inr (.inl ⟨name, rfl⟩))
  rw [← hsame₂] at hst₂ hcurrent
  refine safe_bind (J := fun _ h b => Staging codec plan s₀ (done ++ [baseId])
    (staged ++ [⟨entry.name, entry.etag, name, bytes, false⟩]) h (b.stores client)) ?_
    fun _ h₃ b₃ hst₃ => show Staging codec plan s₀ _ _ h₃ (b₃.stores client) from hst₃
  refine safe_ofExcept_bind (fun _ hfits => ?_) fun _ _ => hst₂.failed
  refine safe_call_bind hst₂.point fun reply b₃ hcreate => ?_
  rcases hcreate.store.create with ⟨hsame, hno⟩ | ⟨new, rfl, habsent, hfresh, hwrite⟩
  · have hst₃ := hst₂.neutral rfl
      (StoreEvent.not_creates_of_unserved ⟨.putIfNoneMatch name bytes, reply⟩ hno)
    rw [← hsame] at hst₃
    refine safe_ofExcept (fun etag hetag => ?_) fun _ _ => hst₃.failed
    rw [readUpload_eq_ok hetag] at hno
    cases hno
  · refine safe_ofExcept (fun etag _ => ?_) nofun
    set x : Staged := ⟨entry.name, entry.etag, name, bytes, false⟩
    have hcreated : ∀ name', Created (h ++ _ ++ _ ++ [⟨.putIfNoneMatch name bytes, .ok (some new)⟩]) name' ↔
        Created (h ++ [⟨.newUuid, uuid⟩] ++ [⟨.registerStaging name, u⟩]) name' ∨
          x.emptyDelete = false ∧ x.stagingName = name' := fun name' => by
      rw [created_concat]
      refine or_congr_right ⟨?_, ?_⟩
      · rintro ⟨body', etag', hevent⟩
        cases hevent
        exact ⟨rfl, rfl⟩
      · rintro ⟨-, rfl⟩
        exact ⟨bytes, new, rfl⟩
    have hfresh₀ : s₀.blobs name = none := by
      by_contra hexists
      refine hexists ?_
      rw [← hst₂.others name fun hc => hexists (hst₂.fresh name hc), habsent]
    refine hst₂.snoc (refuseOversized_eq_ok.mp hfits) (hst₂.source hcurrent hrewrites)
      ((b₂.stores client).etag_issued _ _ hcurrent) ?_ ?_ hcreated (fun _ => hfresh₀) ?_
    · rw [hwrite]
      exact fun etag hmem => List.mem_cons_of_mem _ hmem
    · rw [swapRequests_concat, hst₂.noSwap]
      rfl
    · intro name' hc
      have hne : name' ≠ name := by
        rintro rfl
        exact hc ((hcreated _).mpr (.inr ⟨rfl, rfl⟩))
      rw [hwrite]
      exact Function.update_of_ne hne _ _

/-- Phase 1 for one blob. -/
theorem Staging.stageBlob (hst : Staging codec plan s₀ done staged h (b.stores client))
    (baseId : UInt32) :
    SafelyAtomic codec plan s₀ client (stageBlob codec plan baseId) h b fun x =>
      Staging codec plan s₀ (done ++ [baseId]) (staged ++ [x]) := by
  refine safe_ofExcept_bind (fun entry hentry => ?_) fun _ _ => hst.failed
  refine safe_ofExcept_bind (fun edits hedits => ?_) fun _ _ => hst.failed
  refine safe_bind (J := fun body h b => Staging codec plan s₀ done staged h (b.stores client) ∧
    (b.stores client).blobs entry.name = some ⟨entry.etag, body⟩) ?_ ?_
  · refine safe_call_bind hst.point fun reply b₁ hget => ?_
    obtain ⟨hsame, hcurrent⟩ := hget.store.get
    have hst₁ : Staging codec plan s₀ done staged (h ++ [⟨.getIfMatch entry.name entry.etag, reply⟩])
        (b.stores client) := hst.neutral rfl (by rintro name ⟨_, _, hevent⟩; cases hevent)
    rw [← hsame] at hst₁ hcurrent
    refine safe_ofExcept (fun body hbody => ⟨hst₁, ?_⟩) fun _ _ => hst₁.failed
    obtain ⟨len, hreply⟩ := readBody_eq_ok hbody
    exact hcurrent len body hreply
  · rintro body h₁ b₁ ⟨hst₁, hcurrent⟩
    refine safe_ofExcept_bind (fun rewritten hrewritten => ?_) fun _ _ => hst₁.failed
    have hrewrites := Rewrites.of_eq_ok hentry hedits hrewritten
    cases rewritten with
    | some bytes => exact hst₁.stageBytes hcurrent hrewrites
    | none =>
      refine hst₁.snoc (Nat.zero_le _) (hst₁.source hcurrent hrewrites)
        ((b₁.stores client).etag_issued _ _ hcurrent) (fun _ hmem => hmem) hst₁.noSwap ?_ nofun
        fun _ _ => rfl
      simp

include hcodec hmaps in
/-- Phase 2 for one blob. -/
theorem Swapping.swapBlob {issued : List String} {x : Staged} {rest : List Staged}
    (hsw : Swapping codec plan s₀ issued staged swapped swapped h (b.stores client))
    (hstaged : staged = swapped ++ x :: rest)
    (hitems : ∀ (i : ℕ) y, staged[i]? = some y → StagedItem codec plan s₀ plan.keys staged i y ∧
      y.scanEtag ∈ issued) :
    SafelyAtomic codec plan s₀ client (swapBlob x) h b fun _ =>
      Swapping codec plan s₀ issued staged (swapped ++ [x]) (swapped ++ [x]) := by
  have hx : staged[swapped.length]? = some x := by simp [hstaged]
  obtain ⟨hitem, hissued⟩ := hitems _ x hx
  have hscan := hsw.issued_subset _ hissued
  unfold ParquetAzureFdw.swapBlob
  split_ifs with hempty
  · refine safe_call_bind (hsw.point hcodec hmaps) fun reply b₁ hdelete => ?_
    rcases hdelete.store.deleteIfMatch with ⟨hsame, hno⟩ | ⟨v, hok, hcurrent, hetag, hdeleted⟩
    · have hrefused := hsw.refused hcodec hmaps ⟨.deleteIfMatch x.originalName x.scanEtag, reply⟩ rfl hno
      rw [← hsame] at hrefused
      refine safe_ofExcept (fun u hu => ?_) fun _ _ => hrefused
      rw [readDelete_eq_ok hu] at hno
      cases hno
    · subst hok
      refine safe_ofExcept (fun u _ => ?_) fun e he => by cases he
      have hswapped := hsw.swap hstaged hitems hcurrent hetag
        ⟨.deleteIfMatch x.originalName x.scanEtag, .ok ()⟩ rfl rfl .delete
        (fun name hne => Function.update_of_ne hne _ _)
        (by simp [BlobStore.delete, Staged.newContent, hempty]) (BlobStore.retired_delete hscan)
      rw [hdeleted]
      -- it has no staging blob to be deleted
      refine { hswapped with gone := fun y hy hkeeps => ?_ }
      rcases List.mem_append.mp hy with hy | hy
      · exact hswapped.gone y hy hkeeps
      · rw [List.mem_singleton.mp hy, hempty] at hkeeps
        cases hkeeps
  · have hkeeps : x.emptyDelete = false := by simpa using hempty
    refine safe_bind (J := fun _ h b =>
      Swapping codec plan s₀ issued staged (swapped ++ [x]) swapped h (b.stores client)) ?_ ?_
    · have hfits : refuseOversized x.originalName x.newBytes = .ok () :=
        refuseOversized_eq_ok.mpr hitem.fits
      refine safe_ofExcept_bind (fun _ _ => ?_) fun e he => by rw [hfits] at he; cases he
      refine safe_call_bind (hsw.point hcodec hmaps) fun reply b₁ hput => ?_
      rcases hput.store.put with ⟨hsame, hno⟩ | ⟨new, v, hok, hcurrent, hetag, hfresh, hwrite⟩
      · have hrefused := hsw.refused hcodec hmaps
          ⟨.putIfMatch x.originalName x.newBytes x.scanEtag, reply⟩ rfl hno
        rw [← hsame] at hrefused
        refine safe_ofExcept (fun u hu => ?_) fun _ _ => hrefused
        rw [readUpload_eq_ok hu] at hno
        cases hno
      · subst hok
        refine safe_ofExcept (fun u _ => ?_) fun e he => by cases he
        rw [hwrite]
        exact hsw.swap hstaged hitems hcurrent hetag _ rfl rfl (.write hfresh)
          (fun name hne => Function.update_of_ne hne _ _)
          (by simp [BlobStore.write, Staged.newContent, hkeeps]) (BlobStore.retired_write hscan hfresh)
    · intro _ h₁ b₁ hsw₁
      refine safe_call_bind (hsw₁.point hcodec hmaps) fun reply b₂ hdelete => ?_
      have hsw₂ := hsw₁.drop hstaged hkeeps reply
      rw [← hdelete.store.deleting.delete] at hsw₂
      refine safe_call_bind (hsw₂.point hcodec hmaps) fun u b₃ hmark => ?_
      have hsw₃ := hsw₂.neutral rfl rfl
        (StoreEvent.not_creates_of_unserved ⟨.markCommitted x.stagingName, u⟩ trivial)
      rwa [← hmark.store.local (.inr (.inr ⟨_, rfl⟩))] at hsw₃

/-- The commit: phase 1, and then phase 2 over what was staged. -/
theorem safelyAtomic_commitPlan (hcodec : codec.Faithful)
    (hmaps : ∀ e ∈ plan.edits, (e.2.updates.map Prod.fst).Nodup) (client : Container)
    (b₀ : Backend) :
    SafelyAtomic codec plan (b₀.stores client) client (commitPlan codec plan) [] b₀ fun _ h s =>
      CommitPoint codec plan (b₀.stores client) h s ∧ confirmedSwaps h = plan.keys.length := by
  have hinit : Staging codec plan (b₀.stores client) [] [] [] (b₀.stores client) := by
    have hnone : ∀ name, ¬ Created [] name := by
      rintro name ⟨body, etag, hmem⟩
      cases hmem
    exact ⟨rfl, rfl, fun name => by simp [hnone], fun name hc => absurd hc (hnone name),
      fun _ _ => rfl, nofun⟩
  refine safe_bind (safe_mapM (J := fun done staged h b =>
    Staging codec plan (b₀.stores client) done staged h (b.stores client))
    (fun done baseId rest staged h b _ hst => hst.stageBlob baseId) hinit) fun staged h b hst => ?_
  refine safe_mono (safe_forM (J := fun done h' b' => Swapping codec plan (b₀.stores client)
    (b.stores client).issued staged done done h' (b'.stores client))
    (fun done x rest h' b' hstaged hsw => hsw.swapBlob hcodec hmaps hstaged hst.items) hst.swapping) ?_
  intro _ h' b' hsw
  exact ⟨hsw.point hcodec hmaps, by rw [hsw.confirmed, hst.length_eq]⟩

end Phases

/-- **A commit is atomic up to its swaps**: at every point of every run it has swapped the first
items and changed nothing else that was there, and its staging blobs are in flight. -/
theorem commit_failure_atomic {codec : ParquetCodec} {plan : ModifyPlan} (hcodec : codec.Faithful)
    (hmaps : ∀ e ∈ plan.edits, (e.2.updates.map Prod.fst).Nodup) (client : Container)
    (b₀ : Backend) {ls : List (Label Unit StoreOp.Reply)}
    {s : System Unit Backend StoreOp.Reply Failure Unit}
    (run : Run (Step (fun _ => BackendServes AtomicServes client) fun _ _ => False)
      ⟨b₀, fun _ => commitPlan codec plan⟩ ls s) :
    FailureAtomic codec plan client b₀ (history () ls) s.world (s.procs ()) := by
  have hsafe := Run.safe run (safelyAtomic_commitPlan hcodec hmaps client b₀)
  have hpoint : CommitPoint codec plan (b₀.stores client) (history () ls) (s.world.stores client) :=
    safe_now hsafe id And.left fun _ => And.left
  have htracked : ∀ a, b₀.active = some a →
      Safe (BackendServes AtomicServes client) (Tracked client b₀ a.client)
        (Tracked client b₀ a.client) (s.procs ()) (history () ls) s.world
        fun _ => Tracks client b₀ a.client [] := fun a ha =>
    Run.safe run (safe_of_answers (commit_tracks_staging codec plan ha) fun _ _ _ hserves =>
      hserves.mono fun _ _ _ => AtomicServes.deleting)
  refine ⟨fun hnone name hexists => ?_, hpoint, fun e he => ?_, fun u hu => ?_, fun a ha => ?_,
    fun a ha u hu name hc => ?_⟩
  · have hle := confirmedSwaps_le (history () ls)
    exact hpoint.unchanged name (fun k hk => by omega) fun hc => hexists (hpoint.created name hc)
  · rw [he] at hsafe
    exact hsafe.2
  · rw [hu] at hsafe
    exact hsafe.2
  · obtain ⟨coord, hactive, hleft⟩ := (safe_now (htracked a ha) id id fun _ => And.left).slot
    exact ⟨coord, hactive, fun name hc => hleft name hc.askedToCreate⟩
  · have htracks := htracked a ha
    rw [hu] at htracks
    by_contra hexists
    cases htracks.2 name hc.askedToCreate hexists

/-- A backend with a statement open on a container that holds blob `a`. -/
def openOnA : Backend := ⟨fun _ => storeOfA, some ⟨"c", .new⟩⟩

/-- The same after blob `a` was removed. -/
def openWithoutA : Backend :=
  ⟨Function.update (fun _ => storeOfA) "c" (storeOfA.delete "a"), some ⟨"c", .new⟩⟩

/-- The delete of the only row: the download, the removal of the blob, and the end. -/
theorem delete_only_row_atomic :
    FailureAtomic flagCodec deleteOnlyRow "c" openOnA
      [⟨.getIfMatch "a" "0x1", .ok (none, [1])⟩, ⟨.deleteIfMatch "a" "0x1", .ok ()⟩] openWithoutA
      (.ret ()) := by
  obtain ⟨next, next', hget, hdelete, hret⟩ := commitPlan_deleteOnlyRow
  have hcurrent : storeOfA.blobs "a" = some ⟨"0x1", [1]⟩ := rfl
  have hserves : BackendServes AtomicServes "c" openOnA ⟨.getIfMatch "a" "0x1", .ok (none, [1])⟩
      openOnA := ⟨.served (.get none hcurrent) rfl, fun _ _ => rfl, rfl⟩
  have hserves' : BackendServes AtomicServes "c" openOnA ⟨.deleteIfMatch "a" "0x1", .ok ()⟩
      openWithoutA := by
    refine ⟨?_, fun c hc => by simp [openWithoutA, openOnA, hc], rfl⟩
    have hstore : openWithoutA.stores "c" = storeOfA.delete "a" := by simp [openWithoutA]
    rw [hstore]
    exact .served (.deleteIfMatch hcurrent .ok) rfl
  have hproc := (Function.update_self () (next (.ok (none, [1])))
    fun _ => commitPlan flagCodec deleteOnlyRow).trans hdelete
  have hatomic := commit_failure_atomic flagCodec_faithful (by simp [deleteOnlyRow]) "c" openOnA
    (Run.cons (Step.request hget hserves) (Run.cons (Step.request hproc hserves') Run.nil))
  simp only [Function.update_self] at hatomic
  rw [hret] at hatomic
  exact hatomic

end ParquetAzureFdw
