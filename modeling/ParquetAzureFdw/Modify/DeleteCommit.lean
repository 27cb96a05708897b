/-
# What a commit leaves in the container

A `commit_plan` that returns has rewritten the blobs with edits, and nothing else that was there
(`commitPlan_effect`): each of them has the content that the plan gives it, or is gone when the plan
leaves it no row, and the blobs that are new are staging blobs, which are left when the service does
not delete them.  Requests may be refused, and replies lost, at any point of the run; a commit that
returns has been told of each of its swaps.

This is the end of what holds at each request: the blobs of the first ids are swapped, and no other
(`commitPlan_prefix`), as a commit of the edits of these ids leaves them (`CommitPrefix.effect`).
-/

import ParquetAzureFdw.Modify.Atomicity
import ParquetAzureFdw.Scan.Source

namespace ParquetAzureFdw

open Programs

/-! ### The container -/

theorem isStagingName_makeStagingName (original uuid : String) :
    isStagingName (makeStagingName original uuid) = true := by
  refine decide_eq_true ⟨(stem original).toList, uuid.toList ++ ".parquet".toList, ?_⟩
  simp [makeStagingName, String.toList_append]

section Effect

variable {codec : ParquetCodec} {plan : ModifyPlan} {s₀ s s' : BlobStore} {h : List StoreEvent}
  {baseId : UInt32} {x : Staged}

variable (codec plan s₀) in
/-- An item of phase 1: the content comes from the blob that was there, and the name of its staging
blob is new. -/
structure StagedFrom (baseId : UInt32) (x : Staged) : Prop where
  named : plan.blobName baseId = some x.originalName
  original : s₀.blobs x.originalName ≠ none → FromOriginal codec plan s₀ baseId x
  fresh : x.emptyDelete = false → s₀.blobs x.stagingName = none

variable (s₀) in
/-- The container after the items `done`: their blobs have the new content, under etags that were
not given before; the other blobs are as they were; and the blobs that are new are staging blobs. -/
structure SwappedFrom (done : List Staged) (s : BlobStore) : Prop where
  issued : ∀ etag ∈ s₀.issued, etag ∈ s.issued
  swapped : ∀ x ∈ done, s₀.blobs x.originalName ≠ none →
    (s.blobs x.originalName).map Version.body = x.newContent ∧
      ∀ v, s.blobs x.originalName = some v → v.etag ∉ s₀.issued
  kept : ∀ name, s₀.blobs name ≠ none → (∀ x ∈ done, x.originalName ≠ name) →
    s.blobs name = s₀.blobs name
  gained : ∀ name, s₀.blobs name = none → s.blobs name ≠ none → isStagingName name = true

variable {swapped : List Staged}

theorem SwappedFrom.start : SwappedFrom s₀ [] s₀ where
  issued _ hetag := hetag
  swapped x hx := by cases hx
  kept _ _ _ := rfl
  gained name hnone hsome := absurd hnone hsome

/-- A blob that was not there comes, when it is a staging blob, or goes. -/
theorem SwappedFrom.apart (hs : SwappedFrom s₀ swapped s) {name : String}
    (habsent : s₀.blobs name = none) (hissued : ∀ etag ∈ s.issued, etag ∈ s'.issued)
    (hothers : ∀ n, n ≠ name → s'.blobs n = s.blobs n)
    (hname : s'.blobs name = none ∨ isStagingName name = true) : SwappedFrom s₀ swapped s' := by
  have hold : ∀ n, s₀.blobs n ≠ none → s'.blobs n = s.blobs n := by
    intro n hn
    refine hothers n ?_
    rintro rfl
    exact hn habsent
  refine ⟨fun etag hetag => hissued _ (hs.issued etag hetag), fun x hx hexists => ?_,
    fun n hn hne => (hold n hn).trans (hs.kept n hn hne), fun n hnone hsome => ?_⟩
  · rw [hold _ hexists]
    exact hs.swapped x hx hexists
  · by_cases hn : n = name
    · subst hn
      exact hname.resolve_left hsome
    · rw [hothers n hn] at hsome
      exact hs.gained n hnone hsome

/-- The swap of one more item. -/
theorem SwappedFrom.snoc (hs : SwappedFrom s₀ swapped s) (hx : StagedFrom codec plan s₀ baseId x)
    {v : Version} (hv : s.blobs x.originalName = some v) (hetag : v.etag = x.scanEtag)
    (hissued : ∀ etag ∈ s.issued, etag ∈ s'.issued)
    (hothers : ∀ n, n ≠ x.originalName → s'.blobs n = s.blobs n)
    (hcontent : (s'.blobs x.originalName).map Version.body = x.newContent)
    (hfresh : ∀ v', s'.blobs x.originalName = some v' → v'.etag ∉ s.issued) :
    SwappedFrom s₀ (swapped ++ [x]) s' := by
  -- the item's etag is still that of the start, so none of the blobs swapped is its blob
  have hdistinct : s₀.blobs x.originalName ≠ none → ∀ y ∈ swapped, y.originalName ≠ x.originalName := by
    intro hexists y hy hname
    obtain ⟨v₀, hv₀, hetag₀, -⟩ := hx.original hexists
    have hnew := (hs.swapped y hy (hname ▸ hexists)).2 v (hname ▸ hv)
    rw [hetag, ← hetag₀] at hnew
    exact hnew (s₀.etag_issued _ _ hv₀)
  refine ⟨fun etag hetag => hissued _ (hs.issued etag hetag), fun y hy hexists => ?_,
    fun n hn hne => ?_, fun n hnone hsome => ?_⟩
  · rcases List.mem_append.mp hy with hy | hy
    · have hne : y.originalName ≠ x.originalName := fun hname =>
        hdistinct (hname ▸ hexists) y hy hname
      rw [hothers _ hne]
      exact hs.swapped y hy hexists
    · obtain rfl := List.mem_singleton.mp hy
      exact ⟨hcontent, fun v' hv' hmem => hfresh v' hv' (hs.issued _ hmem)⟩
  · have hname : n ≠ x.originalName := fun hname =>
      hne x (List.mem_append_right _ (List.mem_singleton.mpr rfl)) hname.symm
    rw [hothers n hname]
    exact hs.kept n hn fun y hy => hne y (List.mem_append_left _ hy)
  · by_cases hname : n = x.originalName
    · subst hname
      exact hs.gained _ hnone (by simp [hv])
    · rw [hothers n hname] at hsome
      exact hs.gained n hnone hsome

/-- A request that is not for the store. -/
theorem Serves.local {op : StoreOp} {reply : op.Reply} (hserves : Serves s ⟨op, reply⟩ s')
    (hop : op = .newUuid ∨ (∃ name, op = .registerStaging name) ∨ ∃ name, op = .markCommitted name) :
    s' = s := by
  rcases hop with rfl | ⟨name, rfl⟩ | ⟨name, rfl⟩ <;> cases hserves <;> rfl

/-- A download changes nothing. -/
theorem Serves.of_get {name etag : String} {reply : Response (Option ℕ × Bytes)}
    (hserves : Serves s ⟨.getIfMatch name etag, reply⟩ s') : s' = s := by
  cases hserves <;> rfl

/-- Phase 1 takes no blob away. -/
theorem SwappedFrom.absent (hs : SwappedFrom s₀ [] s) {name : String} (habsent : s.blobs name = none) :
    s₀.blobs name = none := by
  by_contra hexists
  rw [hs.kept _ hexists (fun x hx => by cases hx)] at habsent
  exact hexists habsent

/-- A request to create a staging blob, answered or not. -/
theorem SwappedFrom.create (hs : SwappedFrom s₀ [] s) {name : String} {body : Bytes}
    {reply : Response (Option String)} (hstaging : isStagingName name = true)
    (hserves : Serves s ⟨.putIfNoneMatch name body, reply⟩ s') : SwappedFrom s₀ [] s' := by
  cases hserves with
  | create habsent hfresh htold hreply =>
    exact hs.apart (hs.absent habsent) (fun _ hmem => List.mem_cons_of_mem _ hmem)
      (fun n hn => Function.update_of_ne hn _ _) (.inr hstaging)
  | unserved => exact hs

/-- A request to swap an item: it has no effect, or the item is swapped. -/
theorem SwappedFrom.swap (hs : SwappedFrom s₀ swapped s) (hx : StagedFrom codec plan s₀ baseId x)
    {event : StoreEvent} (hserves : Serves s event s')
    (hevent : (x.emptyDelete = true ∧ event.1 = .deleteIfMatch x.originalName x.scanEtag) ∨
      x.emptyDelete = false ∧ event.1 = .putIfMatch x.originalName x.newBytes x.scanEtag) :
    SwappedFrom s₀ swapped s' ∧ event.Unserved ∨ SwappedFrom s₀ (swapped ++ [x]) s' := by
  cases hserves with
  | unserved hno => exact .inl ⟨hs, hno⟩
  | put hcurrent hfresh htold hreply =>
    obtain ⟨-, hop⟩ | ⟨hkeeps, hop⟩ := hevent
    · cases hop
    · obtain ⟨rfl, rfl, hetag⟩ := StoreOp.putIfMatch.inj hop
      refine .inr (hs.snoc hx hcurrent hetag (fun _ hmem => List.mem_cons_of_mem _ hmem)
        (fun n hn => Function.update_of_ne hn _ _) ?_ ?_)
      · simp [BlobStore.write, Staged.newContent, hkeeps]
      · simpa [BlobStore.write] using hfresh
  | deleteIfMatch hcurrent hreply =>
    obtain ⟨hempty, hop⟩ | ⟨-, hop⟩ := hevent
    · obtain ⟨rfl, hetag⟩ := StoreOp.deleteIfMatch.inj hop
      refine .inr (hs.snoc hx hcurrent hetag (fun _ hmem => hmem)
        (fun n hn => Function.update_of_ne hn _ _) ?_ ?_)
      · simp [BlobStore.delete, Staged.newContent, hempty]
      · simp [BlobStore.delete]
    · cases hop
  | get | create | delete => obtain ⟨-, hop⟩ | ⟨-, hop⟩ := hevent <;> cases hop

/-- The deletion of a staging blob, answered or not. -/
theorem SwappedFrom.unstage (hs : SwappedFrom s₀ swapped s) {name : String}
    (hfresh : s₀.blobs name = none) {reply : Response Unit}
    (hserves : Serves s ⟨.delete name, reply⟩ s') : SwappedFrom s₀ swapped s' := by
  cases hserves with
  | delete =>
    refine hs.apart hfresh (fun _ hmem => hmem) (fun n hn => Function.update_of_ne hn _ _) (.inl ?_)
    simp [BlobStore.delete]
  | unserved => exact hs

/-- Phase 1 for one blob, at each of its requests and at its end. -/
theorem stageBlob_stages (hs : SwappedFrom s₀ [] s) (baseId : UInt32) :
    Safe Serves (fun _ s => SwappedFrom s₀ [] s) (fun _ s => SwappedFrom s₀ [] s)
      (stageBlob codec plan baseId) h s fun x _ s' =>
        SwappedFrom s₀ [] s' ∧ StagedFrom codec plan s₀ baseId x := by
  refine safe_ofExcept_bind (fun entry hentry => ?_) fun _ _ => hs
  refine safe_ofExcept_bind (fun edits hedits => ?_) fun _ _ => hs
  refine safe_bind (J := fun body _ s' => s' = s ∧ s.blobs entry.name = some ⟨entry.etag, body⟩)
    ?_ fun body h₁ s₁ hbody => ?_
  · refine safe_call_bind hs fun reply s₁ hserves => ?_
    obtain rfl := hserves.of_get
    refine safe_ofExcept (fun body hbody => ?_) fun _ _ => hs
    obtain ⟨len, rfl⟩ := readBody_eq_ok hbody
    exact hserves.current_of_get
  obtain ⟨rfl, hcurrent⟩ := hbody
  refine safe_ofExcept_bind (fun rewritten hrewritten => ?_) fun _ _ => hs
  have hrewrites := Rewrites.of_eq_ok hentry hedits hrewritten
  have hnamed : plan.blobName baseId = some entry.name := by
    obtain ⟨row, hrow⟩ := hrewrites.entry
    rw [ModifyPlan.blobName, hrow]
    rfl
  have horiginal : s₀.blobs entry.name ≠ none → s₀.blobs entry.name = some ⟨entry.etag, body⟩ :=
    fun hexists => by rw [← hs.kept _ hexists (fun x hx => by cases hx), hcurrent]
  cases rewritten with
  | none =>
    exact ⟨hs, hnamed, fun hexists => ⟨_, horiginal hexists, rfl, hrewrites⟩, fun h => by cases h⟩
  | some bytes =>
    refine safe_call_bind hs fun uuid s₂ hserves => ?_
    obtain rfl := hserves.local (.inl rfl)
    refine safe_call_bind hs fun _ s₃ hserves => ?_
    obtain rfl := hserves.local (.inr (.inl ⟨_, rfl⟩))
    refine safe_bind (J := fun _ _ s' => SwappedFrom s₀ [] s' ∧
      s₀.blobs (makeStagingName entry.name uuid) = none) ?_ fun _ h₄ s₄ hput => ?_
    · refine safe_ofExcept_bind (fun _ _ => ?_) fun _ _ => hs
      refine safe_call_bind hs fun reply s₄ hserves => ?_
      have hs₄ := hs.create (isStagingName_makeStagingName _ _) hserves
      refine safe_ofExcept (fun etag hetag => ⟨hs₄, ?_⟩) fun _ _ => hs₄
      obtain rfl := readUpload_eq_ok hetag
      cases hserves with
      | create habsent => exact hs.absent habsent
      | unserved hno => cases hno
    · exact ⟨hput.1, hnamed, fun hexists => ⟨_, horiginal hexists, rfl, hrewrites⟩, fun _ => hput.2⟩

/-- Phase 2 for one blob, at each of its requests and at its end. -/
theorem swapBlob_swaps (hs : SwappedFrom s₀ swapped s) (hx : StagedFrom codec plan s₀ baseId x) :
    Safe Serves (fun _ s => SwappedFrom s₀ swapped s ∨ SwappedFrom s₀ (swapped ++ [x]) s)
      (fun _ s => SwappedFrom s₀ swapped s ∨ SwappedFrom s₀ (swapped ++ [x]) s) (swapBlob x) h s
      fun _ _ s' => SwappedFrom s₀ (swapped ++ [x]) s' := by
  unfold swapBlob
  split_ifs with hempty
  · refine safe_call_bind (.inl hs) fun reply s₁ hserves => ?_
    have hs₁ := hs.swap hx hserves (.inl ⟨hempty, rfl⟩)
    refine safe_ofExcept (fun _ hok => hs₁.resolve_left ?_) fun _ _ => hs₁.imp_left And.left
    obtain rfl := readDelete_eq_ok hok
    rintro ⟨-, ⟨⟩⟩
  · have hkeeps : x.emptyDelete = false := by simpa using hempty
    refine safe_bind (J := fun _ _ s => SwappedFrom s₀ (swapped ++ [x]) s) ?_ fun _ h₁ s₁ hs₁ => ?_
    · refine safe_ofExcept_bind (fun _ _ => ?_) fun _ _ => .inl hs
      refine safe_call_bind (.inl hs) fun reply s₁ hserves => ?_
      have hs₁ := hs.swap hx hserves (.inr ⟨hkeeps, rfl⟩)
      refine safe_ofExcept (fun etag hok => hs₁.resolve_left ?_) fun _ _ => hs₁.imp_left And.left
      obtain rfl := readUpload_eq_ok hok
      rintro ⟨-, ⟨⟩⟩
    -- the staging blob is dropped if the service does it
    · refine safe_call_bind (.inr hs₁) fun reply s₂ hserves => ?_
      have hs₂ := hs₁.unstage (hx.fresh hkeeps) hserves
      refine safe_call_bind (.inr hs₂) fun _ s₃ hserves => ?_
      obtain rfl := hserves.local (.inr (.inr ⟨_, rfl⟩))
      exact hs₂

variable (codec plan s₀ s) in
/-- A commit has swapped the items of the first ids, `keys`. -/
def CommitPrefix (keys : List UInt32) : Prop :=
  keys <+: plan.keys ∧ ∃ done, List.Forall₂ (StagedFrom codec plan s₀) keys done ∧ SwappedFrom s₀ done s

/-- **A commit at each of its requests**: it has swapped the items of the first ids, and of all of
them when it returns. -/
theorem commitPlan_prefix : Safe Serves (fun _ s => ∃ keys, CommitPrefix codec plan s₀ s keys)
    (fun _ s => ∃ keys, CommitPrefix codec plan s₀ s keys) (commitPlan codec plan) [] s₀
    fun _ _ s => CommitPrefix codec plan s₀ s plan.keys := by
  have hnone : ∀ s, SwappedFrom s₀ [] s → ∃ keys, CommitPrefix codec plan s₀ s keys := fun s hs =>
    ⟨[], List.nil_prefix, [], .nil, hs⟩
  refine safe_bind (safe_mapM (J := fun done staged _ s =>
    SwappedFrom s₀ [] s ∧ List.Forall₂ (StagedFrom codec plan s₀) done staged) ?_
    ⟨.start, .nil⟩) fun staged h₁ s₁ hstaged => ?_
  · rintro done baseId rest staged h₁ s₁ - ⟨hs, hstaged⟩
    refine safe_weaken (stageBlob_stages hs baseId) (fun _ s hs => hnone s hs)
      (fun _ s hs => hnone s hs) fun x h₂ s₂ hx => ⟨hx.1, ?_⟩
    exact List.rel_append hstaged (.cons hx.2 .nil)
  · obtain ⟨hs, hstaged⟩ := hstaged
    refine safe_mono (safe_forM (J := fun done _ s => SwappedFrom s₀ done s) ?_ hs)
      fun _ h₂ s₂ hswapped => ⟨List.prefix_rfl, staged, hstaged, hswapped⟩
    rintro done x rest h₂ s₂ hsplit hdone
    obtain ⟨baseId, -, hx⟩ := forall₂_exists_of_mem hstaged.flip
      (hsplit ▸ List.mem_append_right done List.mem_cons_self)
    have hsome : ∀ done rest s, staged = done ++ rest → SwappedFrom s₀ done s →
        ∃ keys, CommitPrefix codec plan s₀ s keys := by
      rintro done rest s rfl hs
      exact ⟨_, List.take_prefix done.length plan.keys, done, List.forall₂_take_append _ _ _ hstaged, hs⟩
    have hpoint : ∀ s, SwappedFrom s₀ done s ∨ SwappedFrom s₀ (done ++ [x]) s →
        ∃ keys, CommitPrefix codec plan s₀ s keys := by
      rintro s (hs | hs)
      · exact hsome done _ s hsplit hs
      · exact hsome (done ++ [x]) rest s (by rw [hsplit, List.append_assoc]; rfl) hs
    exact safe_weaken (swapBlob_swaps hdone hx) (fun _ s => hpoint s) (fun _ s => hpoint s)
      fun _ _ _ => id

variable (codec plan s₀ s) in
/-- What a commit has made of a container. -/
structure CommitEffect : Prop where
  /-- A blob with edits has the content that the plan gives it. -/
  edited : ∀ baseId ∈ plan.keys, ∀ name v, plan.blobName baseId = some name → s₀.blobs name = some v →
    ∃ new, Rewrites codec plan baseId name v.etag v.body new ∧ (s.blobs name).map Version.body = new
  /-- A blob without edits is as it was. -/
  kept : ∀ name, s₀.blobs name ≠ none → (∀ baseId ∈ plan.keys, plan.blobName baseId ≠ some name) →
    s.blobs name = s₀.blobs name
  /-- The blobs that are new are staging blobs. -/
  gained : ∀ name, s₀.blobs name = none → s.blobs name ≠ none → isStagingName name = true

end Effect

/-! ### The edits of the first ids -/

/-- The plan with the edits of the ids `keys` alone. -/
def ModifyPlan.upTo (plan : ModifyPlan) (keys : List UInt32) : ModifyPlan :=
  { plan with edits := plan.edits.filter fun e => decide (e.1 ∈ keys) }

section UpTo

variable {codec : ParquetCodec} {plan : ModifyPlan} {s₀ s : BlobStore} {keys : List UInt32}
  {base : UInt32}

theorem ModifyPlan.mem_keys_iff :
    base ∈ plan.keys ↔ plan.edits.lookup base ≠ none := by
  rw [ModifyPlan.keys, List.mem_insertionSort, List.mem_map, Ne, List.lookup_eq_none_iff]
  constructor
  · rintro ⟨e, he, rfl⟩ hnone
    simpa using hnone e he
  · intro h
    by_contra hno
    refine h fun e he => ?_
    simpa using fun hbase : base = e.1 => hno ⟨e, he, hbase.symm⟩

theorem ModifyPlan.lookup_upTo (plan : ModifyPlan) (keys : List UInt32) (base : UInt32) :
    (plan.upTo keys).edits.lookup base = if base ∈ keys then plan.edits.lookup base else none :=
  (lookup_filter plan.edits (fun b => decide (b ∈ keys)) base).trans (by simp)

theorem ModifyPlan.mem_keys_upTo : base ∈ (plan.upTo keys).keys ↔ base ∈ plan.keys ∧ base ∈ keys := by
  rw [ModifyPlan.mem_keys_iff, ModifyPlan.mem_keys_iff, ModifyPlan.lookup_upTo]
  by_cases hbase : base ∈ keys <;> simp [hbase]

theorem ModifyPlan.upTo_keys (plan : ModifyPlan) : plan.upTo plan.keys = plan := by
  have hall : ∀ e ∈ plan.edits, decide (e.1 ∈ plan.keys) = true := fun e he =>
    decide_eq_true ((List.mem_insertionSort _).mpr (List.mem_map_of_mem he))
  rw [ModifyPlan.upTo, List.filter_eq_self.mpr hall]

/-- **A commit of the first ids**: what it has done is what the plan of their edits does. -/
theorem CommitPrefix.effect (h : CommitPrefix codec plan s₀ s keys) :
    CommitEffect codec (plan.upTo keys) s₀ s := by
  obtain ⟨hkeys, done, hstaged, hs⟩ := h
  refine ⟨fun base hbase name v hname hv => ?_, fun name hexists hnone => ?_, hs.gained⟩
  · obtain ⟨-, hmem⟩ := ModifyPlan.mem_keys_upTo.mp hbase
    obtain ⟨x, hx, hfrom⟩ := forall₂_exists_of_mem hstaged hmem
    obtain rfl : name = x.originalName := Option.some.inj (hname.symm.trans hfrom.named)
    obtain ⟨v', hv', hetag, hrewrites⟩ := hfrom.original (by simp [hv])
    obtain rfl := Option.some.inj (hv.symm.trans hv')
    obtain ⟨edits, hlookup, hnew⟩ := hrewrites.rewrite
    refine ⟨x.newContent, ⟨hetag ▸ hrewrites.entry, edits, ?_, hnew⟩,
      (hs.swapped x hx (by simp [hv])).1⟩
    rw [ModifyPlan.lookup_upTo, if_pos hmem, hlookup]
  · refine hs.kept name hexists fun x hx hname => ?_
    obtain ⟨base, hbase, hfrom⟩ := forall₂_exists_of_mem hstaged.flip hx
    exact hnone base (ModifyPlan.mem_keys_upTo.mpr ⟨hkeys.subset hbase, hbase⟩)
      (hname ▸ hfrom.named)

/-- **A commit that returns has rewritten the blobs with edits, and no other.** -/
theorem commitPlan_effect {es : List StoreEvent}
    (exec : Exec Serves (commitPlan codec plan) s₀ es s (.ok ())) : CommitEffect codec plan s₀ s := by
  have heffect := ((exec.safe commitPlan_prefix).1 () rfl).effect
  rwa [plan.upTo_keys] at heffect

end UpTo

end ParquetAzureFdw
