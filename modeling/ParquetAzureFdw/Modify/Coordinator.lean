/-
# The coordinator of staging blobs

`src/fdw/modify/coordinator.rs`.  A backend has one slot for the statement that modifies
foreign tables: the client of its container and the set of staging blobs in flight.
`commit_plan` registers a staging name before it uploads the blob, and takes it out after it
has deleted the blob.

So while a statement is open, every staging blob that exists is in flight, at each point of
the commit, and when the commit returns none exists (`commit_tracks_staging`).  This needs
only that the deletes of staging blobs succeed: any other request may be refused, or take
effect and have its reply lost.
-/

import ParquetAzureFdw.Azure.Store
import ParquetAzureFdw.Lib.Sequential
import ParquetAzureFdw.Modify.Commit

namespace ParquetAzureFdw

open Programs

/-- `StatementCoordinator`. -/
structure StatementCoordinator where
  inFlight : List String
  deriving DecidableEq, Repr

namespace StatementCoordinator

def new : StatementCoordinator := ⟨[]⟩

def registerStaging (c : StatementCoordinator) (name : String) : StatementCoordinator :=
  ⟨c.inFlight.insert name⟩

def markCommitted (c : StatementCoordinator) (name : String) : StatementCoordinator :=
  ⟨c.inFlight.filter (· ≠ name)⟩

def pendingStaging (c : StatementCoordinator) : List String := c.inFlight

def isEmpty (c : StatementCoordinator) : Bool := c.inFlight.isEmpty

end StatementCoordinator

/-- What an `AzureBlobClient` is for: an account and a container. -/
abbrev Container := String

/-- `Active`. -/
structure Active where
  client : Container
  coord : StatementCoordinator
  deriving DecidableEq, Repr

/-- What a backend sees: the containers, and the slot `ACTIVE` of its own. -/
structure Backend where
  stores : Container → BlobStore
  active : Option Active

namespace Backend

/-- `open_statement`: what was in the slot is lost. -/
def openStatement (b : Backend) (client : Container) : Backend :=
  { b with active := some ⟨client, .new⟩ }

/-- `close_statement_success`; blobs in flight are reported and left. -/
def closeStatementSuccess (b : Backend) : Backend := { b with active := none }

end Backend

/-- `with_active`, on the slot. -/
def withActive (f : StatementCoordinator → StatementCoordinator) (slot : Option Active) :
    Option Active :=
  slot.map fun a => { a with coord := f a.coord }

/-- What a request of `commit_plan` does to the slot, whoever opened it. -/
def slotAfter : StoreOp → Option Active → Option Active
  | .registerStaging name, slot => withActive (·.registerStaging name) slot
  | .markCommitted name, slot => withActive (·.markCommitted name) slot
  | _, slot => slot

/-- A request to the container `client`: its store serves it, the others stay, and the slot is
kept. -/
structure BackendServes (serves : BlobStore → StoreEvent → BlobStore → Prop) (client : Container)
    (b : Backend) (event : StoreEvent) (b' : Backend) : Prop where
  store : serves (b.stores client) event (b'.stores client)
  frame : ∀ c, c ≠ client → b'.stores c = b.stores c
  slot : b'.active = slotAfter event.1 b.active

theorem BackendServes.mono {serves serves' : BlobStore → StoreEvent → BlobStore → Prop}
    {client : Container} {b b' : Backend} {event : StoreEvent}
    (h : BackendServes serves client b event b')
    (hserves : ∀ s e s', serves s e s' → serves' s e s') : BackendServes serves' client b event b' :=
  ⟨hserves _ _ _ h.store, h.frame, h.slot⟩

/-! ### Tracking -/

section Tracking

variable (client : Container) (b₀ : Backend)

/-- The staging blobs that exist are among `names`. -/
def Leftover (names : List String) (h : List StoreEvent) (b : Backend) : Prop :=
  ∀ name, AskedToCreate h name → (b.stores client).blobs name ≠ none → name ∈ names

/-- While a statement is open: the staging blobs that exist are in flight, and the commit
touches nothing but its container and creates nothing but staging blobs. -/
structure Tracked (opener : Container) (h : List StoreEvent) (b : Backend) : Prop where
  slot : ∃ coord, b.active = some ⟨opener, coord⟩ ∧ Leftover client coord.inFlight h b
  absent : ∀ name, (b₀.stores client).blobs name = none → ¬ AskedToCreate h name →
    (b.stores client).blobs name = none
  frame : ∀ c, c ≠ client → b.stores c = b₀.stores c

variable {client b₀} {opener : Container} {h : List StoreEvent} {b b' : Backend} {names : List String}

theorem askedToCreate_concat {event : StoreEvent} {name : String} :
    AskedToCreate (h ++ [event]) name ↔
      AskedToCreate h name ∨ ∃ body reply, event = ⟨.putIfNoneMatch name body, reply⟩ := by
  simp [AskedToCreate, exists_or, eq_comm]

/-- A request other than a creation leaves no more blobs. -/
theorem Leftover.step {event : StoreEvent} (hleft : Leftover client names h b)
    (hserves : BackendServes DeletingServes client b event b')
    (hcreates : ∀ name body reply, event = ⟨.putIfNoneMatch name body, reply⟩ → name ∈ names) :
    Leftover client names (h ++ [event]) b' := by
  intro name hasked hexists
  rcases hserves.store.serves.exists_before hexists with hbefore | ⟨body, reply, hevent⟩
  · rcases askedToCreate_concat.mp hasked with hasked | ⟨body, reply, hevent⟩
    · exact hleft name hasked hbefore
    · exact hcreates name body reply hevent
  · exact hcreates name body reply hevent

/-- The deleted blob is not left. -/
theorem Leftover.delete {name : String} {reply : Response Unit}
    (hleft : Leftover client (name :: names) h b)
    (hserves : BackendServes DeletingServes client b ⟨.delete name, reply⟩ b') :
    Leftover client names (h ++ [⟨.delete name, reply⟩]) b' ∧
      (b'.stores client).blobs name = none := by
  have habsent : (b'.stores client).blobs name = none := by
    rw [hserves.store.delete]
    simp [BlobStore.delete]
  refine ⟨fun name' hasked hexists => ?_, habsent⟩
  have hmem := hleft.step hserves (fun _ _ _ hevent => by cases hevent) name' hasked hexists
  rcases List.mem_cons.mp hmem with rfl | hmem
  · exact absurd habsent hexists
  · exact hmem

/-- What a request keeps: a creation is of a name in flight, and a name is taken out when its
blob is absent. -/
theorem Tracked.step {event : StoreEvent} (ht : Tracked client b₀ opener h b)
    (hserves : BackendServes DeletingServes client b event b')
    (hcreates : ∀ name body reply, event = ⟨.putIfNoneMatch name body, reply⟩ →
      ∀ a, b.active = some a → name ∈ a.coord.inFlight)
    (hmarks : ∀ name reply, event = ⟨.markCommitted name, reply⟩ →
      (b.stores client).blobs name = none) :
    Tracked client b₀ opener (h ++ [event]) b' := by
  obtain ⟨coord, hactive, hleft⟩ := ht.slot
  have hleft' := hleft.step hserves fun name body reply hevent =>
    hcreates name body reply hevent _ hactive
  refine ⟨?_, fun name habsent hasked => ?_, fun c hc => (hserves.frame c hc).trans (ht.frame c hc)⟩
  · have hslot := hserves.slot
    rw [hactive] at hslot
    obtain ⟨op, reply⟩ := event
    cases op with
    | registerStaging name =>
      refine ⟨_, hslot, fun name' hasked hexists => ?_⟩
      exact List.mem_insert_of_mem (hleft' name' hasked hexists)
    | markCommitted name =>
      refine ⟨_, hslot, fun name' hasked hexists => ?_⟩
      refine List.mem_filter.mpr ⟨hleft' name' hasked hexists, ?_⟩
      have hne : name' ≠ name := by
        rintro rfl
        rcases hserves.store.serves.exists_before hexists with hbefore | ⟨_, _, hevent⟩
        · exact hbefore (hmarks name' reply rfl)
        · cases hevent
      simpa using hne
    | _ => exact ⟨coord, hslot, hleft'⟩
  · by_contra hexists
    have hnot : ¬ AskedToCreate h name := fun h' => hasked (askedToCreate_concat.mpr (.inl h'))
    rcases hserves.store.serves.exists_before hexists with hbefore | hcreated
    · exact hbefore (ht.absent name habsent hnot)
    · exact hasked (askedToCreate_concat.mpr (.inr hcreated))

/-! ### Along the commit -/

/-- The staging names of staged blobs. -/
def stagingNames (staged : List Staged) : List String :=
  (staged.filter fun s => !s.emptyDelete).map Staged.stagingName

variable (client b₀ opener) in
/-- The state of a commit: tracked, and with no more staging blobs than `names`. -/
def Tracks (names : List String) (h : List StoreEvent) (b : Backend) : Prop :=
  Tracked client b₀ opener h b ∧ Leftover client names h b

variable (client b₀ opener) in
/-- A part of a commit that keeps the staging blobs tracked. -/
abbrev SafelyTracked {α : Type} (p : StoreProgram α) (h : List StoreEvent) (b : Backend)
    (J : α → List StoreEvent → Backend → Prop) : Prop :=
  Safe (BackendServes DeletingServes client) (Tracked client b₀ opener)
    (Tracked client b₀ opener) p h b J

/-- The requests that neither create a blob nor take one out of flight. -/
def StoreOp.isPlain : StoreOp → Bool
  | .putIfNoneMatch _ _ | .markCommitted _ => false
  | _ => true

theorem Tracks.step {op : StoreOp} {reply : op.Reply} (ht : Tracks client b₀ opener names h b)
    (hplain : op.isPlain = true)
    (hserves : BackendServes DeletingServes client b ⟨op, reply⟩ b') :
    Tracks client b₀ opener names (h ++ [⟨op, reply⟩]) b' := by
  have hcreate : ∀ name body reply', (⟨op, reply⟩ : StoreEvent) ≠ ⟨.putIfNoneMatch name body, reply'⟩ := by
    rintro name body reply' hevent
    cases hevent
    cases hplain
  have hmark : ∀ name reply', (⟨op, reply⟩ : StoreEvent) ≠ ⟨.markCommitted name, reply'⟩ := by
    rintro name reply' hevent
    cases hevent
    cases hplain
  exact ⟨ht.1.step hserves (fun name body reply' hevent => absurd hevent (hcreate name body reply'))
    fun name reply' hevent => absurd hevent (hmark name reply'),
    ht.2.step hserves fun name body reply' hevent => absurd hevent (hcreate name body reply')⟩

/-- A plain request. -/
theorem safe_plain {α : Type} {op : StoreOp} {f : op.Reply → StoreProgram α}
    {J : α → List StoreEvent → Backend → Prop} (hplain : op.isPlain = true)
    (ht : Tracks client b₀ opener names h b)
    (hf : ∀ r h' b', Tracks client b₀ opener names h' b' → SafelyTracked client b₀ opener (f r) h' b' J) :
    SafelyTracked client b₀ opener (Program.call op >>= f) h b J :=
  safe_call_bind ht.1 fun r b' hserves => hf r _ b' (ht.step hplain hserves)

/-- The upload of a staging blob, after its name was registered. -/
theorem safe_stageBytes (entry : BlobIdEntry) (bytes : Bytes)
    (ht : Tracks client b₀ opener names h b) :
    SafelyTracked client b₀ opener (stageBytes entry bytes) h b fun s =>
      Tracks client b₀ opener (names ++ stagingNames [s]) := by
  refine safe_plain rfl ht fun uuid h₁ b₁ ht₁ => ?_
  refine safe_call_bind ht₁.1 fun _ b₂ hregister => ?_
  have ht₂ := ht₁.step rfl hregister
  set name := makeStagingName entry.name uuid
  have hinFlight : ∀ a, b₂.active = some a → name ∈ a.coord.inFlight := by
    intro a ha
    rw [hregister.slot] at ha
    obtain ⟨a', -, rfl⟩ := Option.map_eq_some_iff.mp ha
    exact List.mem_insert_self
  refine safe_bind (J := fun _ => Tracks client b₀ opener (names ++ [name])) ?_
    fun etag h₃ b₃ ht₃ => ht₃
  refine safe_ofExcept_bind (fun _ _ => ?_) fun _ _ => ht₂.1
  refine safe_call_bind ht₂.1 fun reply b₃ hcreate => ?_
  have htracked := ht₂.1.step hcreate (fun name' _ _ hevent => by cases hevent; exact hinFlight) nofun
  have hleft : Leftover client (names ++ [name]) _ b₂ := fun name' hasked hexists =>
    List.mem_append_left _ (ht₂.2 name' hasked hexists)
  have hleft' := hleft.step hcreate fun name' _ _ hevent => by cases hevent; simp
  exact safe_ofExcept (fun _ _ => ⟨htracked, hleft'⟩) fun _ _ => htracked

/-- Phase 1 for one blob. -/
theorem safe_stageBlob (codec : ParquetCodec) (plan : ModifyPlan) (baseId : UInt32)
    (ht : Tracks client b₀ opener names h b) :
    SafelyTracked client b₀ opener (stageBlob codec plan baseId) h b fun s =>
      Tracks client b₀ opener (names ++ stagingNames [s]) := by
  refine safe_ofExcept_bind (fun entry _ => ?_) fun _ _ => ht.1
  refine safe_ofExcept_bind (fun edits _ => ?_) fun _ _ => ht.1
  refine safe_bind (J := fun _ => Tracks client b₀ opener names) ?_ fun body h₁ b₁ ht₁ => ?_
  · exact safe_plain rfl ht fun reply h₁ b₁ ht₁ =>
      safe_ofExcept (fun _ _ => ht₁) fun _ _ => ht₁.1
  · refine safe_ofExcept_bind (fun rewritten _ => ?_) fun _ _ => ht₁.1
    cases rewritten with
    | none =>
      show Tracks client b₀ opener (names ++ []) h₁ b₁
      rwa [List.append_nil]
    | some bytes => exact safe_stageBytes entry bytes ht₁

/-- Phase 2 for one blob: its staging blob is deleted before it is taken out of flight. -/
theorem safe_swapBlob (s : Staged) (ht : Tracks client b₀ opener (stagingNames [s] ++ names) h b) :
    SafelyTracked client b₀ opener (swapBlob s) h b fun _ => Tracks client b₀ opener names := by
  unfold swapBlob
  split_ifs with hempty
  · have hnames : stagingNames [s] ++ names = names := by simp [stagingNames, hempty]
    rw [hnames] at ht
    exact safe_plain rfl ht fun reply h₁ b₁ ht₁ =>
      safe_ofExcept (fun _ _ => ht₁) fun _ _ => ht₁.1
  · have hnames : stagingNames [s] ++ names = s.stagingName :: names := by simp [stagingNames, hempty]
    rw [hnames] at ht
    refine safe_bind (J := fun _ => Tracks client b₀ opener (s.stagingName :: names)) ?_
      fun _ h₁ b₁ ht₁ => ?_
    · refine safe_ofExcept_bind (fun _ _ => ?_) fun _ _ => ht.1
      exact safe_plain rfl ht fun reply h₁ b₁ ht₁ =>
        safe_ofExcept (fun _ _ => ht₁) fun _ _ => ht₁.1
    · refine safe_call_bind ht₁.1 fun reply b₂ hdelete => ?_
      have htracked := (ht₁.step rfl hdelete).1
      obtain ⟨hleft, habsent⟩ := ht₁.2.delete hdelete
      refine safe_call_bind htracked fun _ b₃ hmark => ?_
      have htracked' := htracked.step hmark nofun fun name _ hevent => by cases hevent; exact habsent
      exact ⟨htracked', hleft.step hmark nofun⟩

/-- **While a statement is open, the staging blobs that exist are in flight at each point of the
commit, and none exists when it returns.** -/
theorem commit_tracks_staging (codec : ParquetCodec) (plan : ModifyPlan)
    {coord : StatementCoordinator} (hactive : b₀.active = some ⟨opener, coord⟩) :
    SafelyTracked client b₀ opener (commitPlan codec plan) [] b₀ fun _ =>
      Tracks client b₀ opener [] := by
  have hnone : ∀ name, ¬ AskedToCreate [] name := by
    rintro name ⟨body, reply, hmem⟩
    cases hmem
  have hinit : Tracks client b₀ opener (stagingNames []) [] b₀ :=
    ⟨⟨⟨coord, hactive, fun name hasked => absurd hasked (hnone name)⟩, fun _ habsent _ => habsent,
      fun _ _ => rfl⟩, fun name hasked => absurd hasked (hnone name)⟩
  refine safe_bind (safe_mapM (J := fun _ staged => Tracks client b₀ opener (stagingNames staged))
    (fun _ baseId _ staged h b _ ht => ?_) hinit) fun staged h b ht => ?_
  · refine safe_mono (safe_stageBlob codec plan baseId ht) fun s h' b' ht' => ?_
    rwa [stagingNames, List.filter_append, List.map_append]
  · have hstart : ∃ rest, staged = [] ++ rest ∧ Tracks client b₀ opener (stagingNames rest) h b :=
      ⟨staged, rfl, ht⟩
    refine safe_mono (safe_forM (J := fun done h b => ∃ rest, staged = done ++ rest ∧
      Tracks client b₀ opener (stagingNames rest) h b) (fun done s rest h b hstaged hJ => ?_) hstart) ?_
    · obtain ⟨rest', hstaged', ht⟩ := hJ
      obtain rfl : rest' = s :: rest := List.append_cancel_left (hstaged'.symm.trans hstaged)
      have hnames : stagingNames (s :: rest) = stagingNames [s] ++ stagingNames rest := by
        rw [← List.singleton_append, stagingNames, List.filter_append, List.map_append]
        rfl
      rw [hnames] at ht
      exact safe_mono (safe_swapBlob s ht) fun _ h' b' ht' => ⟨rest, by simp [hstaged], ht'⟩
    · rintro _ h' b' ⟨rest, hstaged, ht'⟩
      obtain rfl : rest = [] := by simpa using hstaged
      exact ht'

end Tracking

end ParquetAzureFdw
