/-
# The blob store

What is assumed of Azure Blob Storage.  A blob has a current version, with an etag;
every write gives a fresh etag, never given before; a conditional request is atomic
and is served only while its condition holds.  A request may also be refused, or be
lost, and the reply of a request that took effect may be lost.  Other clients write
and delete as they like.

An etag stands for one content: a body that was once read under it is the body of
every version that has it (`BlobStore.Pins`), and an etag that is no longer current
never is again (`BlobStore.Retired`).  Both outlive every change of the store.
-/

import ParquetAzureFdw.Azure.Client

namespace ParquetAzureFdw

/-- A version of a blob. -/
structure Version where
  etag : String
  body : Bytes
  deriving DecidableEq, Repr

theorem mem_of_lookup {α β : Type} [BEq α] [LawfulBEq α] {l : List (α × β)} {k : α} {v : β}
    (h : l.lookup k = some v) : (k, v) ∈ l := by
  obtain ⟨before, after, rfl, -⟩ := List.lookup_eq_some_iff.mp h
  simp

/-- The value of a key that occurs once. -/
theorem lookup_eq_some_of_mem {α β : Type} [BEq α] [LawfulBEq α] {l : List (α × β)}
    (hnodup : (l.map Prod.fst).Nodup) {e : α × β} (he : e ∈ l) : l.lookup e.1 = some e.2 := by
  obtain ⟨before, after, rfl⟩ := List.append_of_mem he
  rw [List.map_append, List.map_cons] at hnodup
  refine List.lookup_eq_some_iff.mpr ⟨before, after, rfl, fun e' he' => ?_⟩
  have hne : e'.1 ≠ e.1 := fun heq =>
    List.disjoint_of_nodup_append hnodup (List.mem_map_of_mem he') (by simp [heq])
  simpa using hne.symm

/-- A lookup among the entries whose keys satisfy a condition. -/
theorem lookup_filter {α β : Type} [DecidableEq α] (l : List (α × β)) (p : α → Bool) (k : α) :
    (l.filter fun e => p e.1).lookup k = if p k = true then l.lookup k else none := by
  induction l with
  | nil => simp
  | cons e l ih =>
    obtain ⟨key, v⟩ := e
    by_cases hk : k = key
    · subst hk
      cases hp : p k <;> simp [hp, ih]
    · have hne : (k == key) = false := by simpa using hk
      cases hp : p key <;> simp [hp, ih, List.lookup_cons, hne]

/-- The store: the current version of each blob, and every etag given so far. -/
structure BlobStore where
  blobs : String → Option Version
  issued : List String
  etag_issued : ∀ blob v, blobs blob = some v → v.etag ∈ issued

namespace BlobStore

/-- A new version of a blob. -/
def write (s : BlobStore) (blob : String) (v : Version) : BlobStore where
  blobs := Function.update s.blobs blob (some v)
  issued := v.etag :: s.issued
  etag_issued := by
    intro blob' v' h
    by_cases hblob : blob' = blob
    · subst hblob
      rw [Function.update_self] at h
      simp [Option.some.inj h]
    · rw [Function.update_of_ne hblob] at h
      exact List.mem_cons_of_mem _ (s.etag_issued blob' v' h)

/-- The removal of a blob. -/
def delete (s : BlobStore) (blob : String) : BlobStore where
  blobs := Function.update s.blobs blob none
  issued := s.issued
  etag_issued := by
    intro blob' v' h
    by_cases hblob : blob' = blob
    · subst hblob
      rw [Function.update_self] at h
      cases h
    · rw [Function.update_of_ne hblob] at h
      exact s.etag_issued blob' v' h

/-- A store that holds these blobs. -/
def holding (blobs : List (String × Version)) : BlobStore where
  blobs name := blobs.lookup name
  issued := blobs.map fun b => b.2.etag
  etag_issued _ _ h := List.mem_map_of_mem (mem_of_lookup h)

/-- A change of the store: a write with a fresh etag, or a removal. -/
inductive Changes : BlobStore → BlobStore → Prop
  | write {s : BlobStore} {blob : String} {v : Version} (hfresh : v.etag ∉ s.issued) :
      Changes s (s.write blob v)
  | delete {s : BlobStore} {blob : String} : Changes s (s.delete blob)

/-- A version with this etag has this body. -/
structure Pins (s : BlobStore) (blob etag : String) (body : Bytes) : Prop where
  issued : etag ∈ s.issued
  body_eq : ∀ v, s.blobs blob = some v → v.etag = etag → v.body = body

/-- No version has this etag any more. -/
structure Retired (s : BlobStore) (blob etag : String) : Prop where
  issued : etag ∈ s.issued
  not_current : ∀ v, s.blobs blob = some v → v.etag ≠ etag

variable {s s' : BlobStore} {blob etag : String} {body : Bytes}

/-- A change keeps the etags given, and every version it makes current has a fresh one. -/
theorem Changes.current (h : Changes s s') (blob : String) (hissued : etag ∈ s.issued) :
    etag ∈ s'.issued ∧
      ∀ v, s'.blobs blob = some v → v.etag = etag → s.blobs blob = some v := by
  cases h with
  | @write blob' v' hfresh =>
    refine ⟨List.mem_cons_of_mem _ hissued, fun v hv hetag => ?_⟩
    by_cases hblob : blob = blob'
    · subst hblob
      have hnew : some v' = some v := by simpa [BlobStore.write] using hv
      rw [Option.some.inj hnew, hetag] at hfresh
      exact absurd hissued hfresh
    · simpa [BlobStore.write, Function.update_of_ne hblob] using hv
  | @delete blob' =>
    refine ⟨hissued, fun v hv _ => ?_⟩
    by_cases hblob : blob = blob'
    · subst hblob
      simp [BlobStore.delete] at hv
    · simpa [BlobStore.delete, Function.update_of_ne hblob] using hv

theorem Pins.changes (hpins : s.Pins blob etag body) (h : Changes s s') :
    s'.Pins blob etag body where
  issued := (h.current blob hpins.issued).1
  body_eq v hv hetag := hpins.body_eq v ((h.current blob hpins.issued).2 v hv hetag) hetag

/-- An overwrite retires the etags given before. -/
theorem retired_write {v : Version} (hissued : etag ∈ s.issued) (hfresh : v.etag ∉ s.issued) :
    (s.write blob v).Retired blob etag := by
  refine ⟨List.mem_cons_of_mem _ hissued, fun v' hv' hetag => hfresh ?_⟩
  obtain rfl : v = v' := by simpa [BlobStore.write] using hv'
  rwa [hetag]

/-- So does a removal. -/
theorem retired_delete (hissued : etag ∈ s.issued) : (s.delete blob).Retired blob etag :=
  ⟨hissued, fun v hv => by simp [BlobStore.delete] at hv⟩

theorem Retired.changes (hretired : s.Retired blob etag) (h : Changes s s') :
    s'.Retired blob etag where
  issued := (h.current blob hretired.issued).1
  not_current v hv hetag :=
    hretired.not_current v ((h.current blob hretired.issued).2 v hv hetag) hetag

end BlobStore

/-! ### How requests are served -/

/-- Whether a response carries a result. -/
def Response.isOk {α : Type} : Response α → Bool
  | .ok _ => true
  | _ => false

/-- A request that had no effect: it was refused or lost, or is not for the store. -/
def StoreEvent.Unserved : StoreEvent → Prop
  | ⟨.getIfMatch _ _, reply⟩ => Response.isOk reply = false
  | ⟨.putIfMatch _ _ _, reply⟩ => Response.isOk reply = false
  | ⟨.putIfNoneMatch _ _, reply⟩ => Response.isOk reply = false
  | ⟨.deleteIfMatch _ _, reply⟩ => Response.isOk reply = false
  | ⟨.delete _, reply⟩ => Response.isOk reply = false
  | ⟨.newUuid, _⟩ | ⟨.registerStaging _, _⟩ | ⟨.markCommitted _, _⟩ => True

/-- The replies to a request that took effect: the result, or none at all. -/
inductive Served {α : Type} (a : α) : Response α → Prop
  | ok : Served a (.ok a)
  | lost (msg : String) : Served a (.failed msg)

/-- `Serves s event s'`: in state `s` the store may answer so, and is in `s'` then. -/
inductive Serves : BlobStore → StoreEvent → BlobStore → Prop
  | get {s : BlobStore} {blob : String} {v : Version} (len : Option ℕ)
      (hcurrent : s.blobs blob = some v) : Serves s ⟨.getIfMatch blob v.etag, .ok (len, v.body)⟩ s
  | put {s : BlobStore} {blob etag : String} {v : Version} {body : Bytes}
      {told : Option String} {reply : Response (Option String)}
      (hcurrent : s.blobs blob = some v) (hfresh : etag ∉ s.issued)
      (htold : told = none ∨ told = some etag) (hreply : Served told reply) :
      Serves s ⟨.putIfMatch blob body v.etag, reply⟩ (s.write blob ⟨etag, body⟩)
  | create {s : BlobStore} {blob etag : String} {body : Bytes} {told : Option String}
      {reply : Response (Option String)} (habsent : s.blobs blob = none) (hfresh : etag ∉ s.issued)
      (htold : told = none ∨ told = some etag) (hreply : Served told reply) :
      Serves s ⟨.putIfNoneMatch blob body, reply⟩ (s.write blob ⟨etag, body⟩)
  | deleteIfMatch {s : BlobStore} {blob : String} {v : Version} {reply : Response Unit}
      (hcurrent : s.blobs blob = some v) (hreply : Served () reply) :
      Serves s ⟨.deleteIfMatch blob v.etag, reply⟩ (s.delete blob)
  | delete {s : BlobStore} {blob : String} {reply : Response Unit} :
      Serves s ⟨.delete blob, reply⟩ (s.delete blob)
  | unserved {s : BlobStore} {event : StoreEvent} (h : event.Unserved) : Serves s event s

theorem Serves.changes {s s' : BlobStore} {event : StoreEvent} (h : Serves s event s') :
    s' = s ∨ s.Changes s' := by
  cases h with
  | get | unserved => exact .inl rfl
  | put _ hfresh | create _ hfresh => exact .inr (.write hfresh)
  | deleteIfMatch | delete => exact .inr .delete

/-- A body that was downloaded is that of the current version. -/
theorem Serves.current_of_get {s s' : BlobStore} {blob etag : String} {len : Option ℕ} {body : Bytes}
    (h : Serves s ⟨.getIfMatch blob etag, .ok (len, body)⟩ s') :
    s' = s ∧ s.blobs blob = some ⟨etag, body⟩ := by
  cases h with
  | get _ hcurrent => exact ⟨rfl, hcurrent⟩
  | unserved h => cases h

/-- It is pinned by its etag from then on. -/
theorem Serves.pins_of_get {s s' : BlobStore} {blob etag : String} {len : Option ℕ} {body : Bytes}
    (h : Serves s ⟨.getIfMatch blob etag, .ok (len, body)⟩ s') : s'.Pins blob etag body := by
  obtain ⟨rfl, hcurrent⟩ := h.current_of_get
  refine ⟨s'.etag_issued _ _ hcurrent, fun v hv _ => ?_⟩
  rw [← Option.some.inj (hcurrent.symm.trans hv)]

/-- A request creates no blob but the one it asks to create. -/
theorem Serves.exists_before {s s' : BlobStore} {event : StoreEvent} (h : Serves s event s')
    {blob : String} (hexists : s'.blobs blob ≠ none) :
    s.blobs blob ≠ none ∨ ∃ body reply, event = ⟨.putIfNoneMatch blob body, reply⟩ := by
  have hdelete : ∀ blob', (s.delete blob').blobs blob ≠ none → s.blobs blob ≠ none := by
    intro blob' hne
    by_cases hblob : blob = blob'
    · subst hblob
      simp [BlobStore.delete] at hne
    · simpa [BlobStore.delete, Function.update_of_ne hblob] using hne
  cases h with
  | get | unserved => exact .inl hexists
  | @put blob' _ v _ _ _ hcurrent =>
    by_cases hblob : blob = blob'
    · subst hblob
      exact .inl (by simp [hcurrent])
    · exact .inl (by simpa [BlobStore.write, Function.update_of_ne hblob] using hexists)
  | @create blob' _ body _ reply =>
    by_cases hblob : blob = blob'
    · subst hblob
      exact .inr ⟨body, reply, rfl⟩
    · exact .inl (by simpa [BlobStore.write, Function.update_of_ne hblob] using hexists)
  | deleteIfMatch | delete => exact .inl (hdelete _ hexists)

/-! ### Requests that are not lost -/

/-- The reply says that the request took effect. -/
def StoreEvent.Succeeds : StoreEvent → Prop
  | ⟨.getIfMatch _ _, reply⟩ => Response.isOk reply = true
  | ⟨.putIfMatch _ _ _, reply⟩ => ∃ etag, reply = .ok (some etag)
  | ⟨.putIfNoneMatch _ _, reply⟩ => ∃ etag, reply = .ok (some etag)
  | ⟨.deleteIfMatch _ _, reply⟩ => Response.isOk reply = true
  | ⟨.delete _, reply⟩ => Response.isOk reply = true
  | _ => True

/-- If the event is a delete without condition, it succeeded. -/
def StoreEvent.DeleteSucceeds : StoreEvent → Prop
  | ⟨.delete _, reply⟩ => Response.isOk reply = true
  | _ => True

/-- A store whose deletes without condition succeed; other requests may be refused or lost. -/
structure DeletingServes (s : BlobStore) (event : StoreEvent) (s' : BlobStore) : Prop where
  serves : Serves s event s'
  deletes : event.DeleteSucceeds

/-- A store where each request takes effect and succeeds, or fails without effect, and deletes
without condition succeed. -/
inductive AtomicServes : BlobStore → StoreEvent → BlobStore → Prop
  | served {s s' : BlobStore} {event : StoreEvent} (h : Serves s event s') (hok : event.Succeeds) :
      AtomicServes s event s'
  | refused {s : BlobStore} {event : StoreEvent} (h : event.Unserved)
      (hdelete : event.DeleteSucceeds) : AtomicServes s event s

section Atomic

variable {s s' : BlobStore} {blob etag : String} {body : Bytes}

theorem AtomicServes.deleting {event : StoreEvent} (h : AtomicServes s event s') :
    DeletingServes s event s' := by
  cases h with
  | served h hok =>
    refine ⟨h, ?_⟩
    obtain ⟨op, reply⟩ := event
    cases op with
    | delete => exact hok
    | _ => trivial
  | refused h hdelete => exact ⟨.unserved h, hdelete⟩

theorem DeletingServes.delete {reply : Response Unit}
    (h : DeletingServes s ⟨.delete blob, reply⟩ s') : s' = s.delete blob := by
  have hok : Response.isOk reply = true := h.deletes
  cases h.serves with
  | delete => rfl
  | unserved hno =>
    rw [show Response.isOk reply = false from hno] at hok
    cases hok

/-- The requests that are not for the store change nothing there. -/
theorem AtomicServes.local {op : StoreOp} {reply : op.Reply} (h : AtomicServes s ⟨op, reply⟩ s')
    (hop : op = .newUuid ∨ (∃ name, op = .registerStaging name) ∨ ∃ name, op = .markCommitted name) :
    s' = s := by
  cases h with
  | served h => rcases hop with rfl | ⟨name, rfl⟩ | ⟨name, rfl⟩ <;> cases h <;> rfl
  | refused => rfl

theorem AtomicServes.get {reply : Response (Option ℕ × Bytes)}
    (h : AtomicServes s ⟨.getIfMatch blob etag, reply⟩ s') :
    s' = s ∧ ∀ len body, reply = .ok (len, body) → s.blobs blob = some ⟨etag, body⟩ := by
  cases h with
  | served h hok =>
    cases h with
    | get _ hcurrent =>
      refine ⟨rfl, fun len body hreply => ?_⟩
      cases hreply
      exact hcurrent
    | unserved hno => exact ⟨rfl, fun len body hreply => by subst hreply; cases hno⟩
  | refused hno => exact ⟨rfl, fun len body hreply => by subst hreply; cases hno⟩

/-- A swap is refused, or replaces the version of its etag by one with a fresh etag. -/
theorem AtomicServes.put {reply : Response (Option String)}
    (h : AtomicServes s ⟨.putIfMatch blob body etag, reply⟩ s') :
    (s' = s ∧ Response.isOk reply = false) ∨ ∃ new v, reply = .ok (some new) ∧
      s.blobs blob = some v ∧ v.etag = etag ∧ new ∉ s.issued ∧ s' = s.write blob ⟨new, body⟩ := by
  cases h with
  | served h hok =>
    obtain ⟨new, hnew⟩ := hok
    cases h with
    | put hcurrent hfresh htold hreply =>
      subst hnew
      cases hreply
      obtain rfl : new = _ := by simpa using htold
      exact .inr ⟨new, _, rfl, hcurrent, rfl, hfresh, rfl⟩
    | unserved hno => exact .inl ⟨rfl, hno⟩
  | refused hno => exact .inl ⟨rfl, hno⟩

/-- A creation is refused, or makes a blob that was absent. -/
theorem AtomicServes.create {reply : Response (Option String)}
    (h : AtomicServes s ⟨.putIfNoneMatch blob body, reply⟩ s') :
    (s' = s ∧ Response.isOk reply = false) ∨ ∃ new, reply = .ok (some new) ∧
      s.blobs blob = none ∧ new ∉ s.issued ∧ s' = s.write blob ⟨new, body⟩ := by
  cases h with
  | served h hok =>
    obtain ⟨new, hnew⟩ := hok
    cases h with
    | create habsent hfresh htold hreply =>
      subst hnew
      cases hreply
      obtain rfl : new = _ := by simpa using htold
      exact .inr ⟨new, rfl, habsent, hfresh, rfl⟩
    | unserved hno => exact .inl ⟨rfl, hno⟩
  | refused hno => exact .inl ⟨rfl, hno⟩

/-- A removal is refused, or removes the version of its etag. -/
theorem AtomicServes.deleteIfMatch {reply : Response Unit}
    (h : AtomicServes s ⟨.deleteIfMatch blob etag, reply⟩ s') :
    (s' = s ∧ Response.isOk reply = false) ∨ ∃ v, reply = .ok () ∧ s.blobs blob = some v ∧
      v.etag = etag ∧ s' = s.delete blob := by
  cases h with
  | served h hok =>
    cases h with
    | deleteIfMatch hcurrent hreply =>
      cases hreply with
      | ok => exact .inr ⟨_, rfl, hcurrent, rfl, rfl⟩
      | lost => cases hok
    | unserved hno => exact .inl ⟨rfl, hno⟩
  | refused hno => exact .inl ⟨rfl, hno⟩

end Atomic

end ParquetAzureFdw
