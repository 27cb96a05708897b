/-
# Staging blobs over a transaction

The statements of one backend in one transaction: `begin_foreign_modify` and
`end_foreign_modify` of `src/fdw/modify/insert.rs` over the slot of the coordinator, and
`xact_cb` of `src/fdw/modify/coordinator.rs` at its end.  Any number of nodes may be open at
a time.  A statement that fails ends its subtransaction, or the transaction; when the
subtransaction is rolled back the transaction goes on, and no callback is called.

ABORT deletes what is in flight in the slot, through the client of the slot.  So no staging
blob is left when every statement begins, ends and commits with nothing in flight, and every
UPDATE or DELETE ends with the slot opened for its own container
(`transaction_leaves_no_staging`).  Otherwise one can be: the slot of a statement that failed is
replaced by the next statement, and dropped by COMMIT (`failed_subtransaction_leaves_staging`).
-/

import ParquetAzureFdw.Modify.Atomicity

namespace ParquetAzureFdw

open Programs Runs

/-! ### The staging blobs that were created -/

/-- A blob that a staging upload created: the version it wrote. -/
structure StagingVersion where
  container : Container
  name : String
  etag : String
  deriving DecidableEq, Repr

/-- The blob is still there. -/
def Backend.Holds (b : Backend) (x : StagingVersion) : Prop :=
  ∃ v, (b.stores x.container).blobs x.name = some v ∧ v.etag = x.etag

/-- A backend, with the staging blobs that its transaction has created. -/
structure StagingLedger where
  backend : Backend
  created : List StagingVersion

/-- What a request creates: the blob of a `put_if_none_match` that was absent and is there. -/
def createdBy (client : Container) (b : Backend) (event : StoreEvent) (b' : Backend) :
    List StagingVersion :=
  match event.1 with
  | .putIfNoneMatch name _ =>
    match (b.stores client).blobs name, (b'.stores client).blobs name with
    | none, some v => [⟨client, name, v.etag⟩]
    | _, _ => []
  | _ => []

/-- A request to the container `client`.  Its deletes succeed; other requests may be refused,
or take effect and have their reply lost. -/
structure LedgerServes (client : Container) (w : StagingLedger) (event : StoreEvent)
    (w' : StagingLedger) : Prop where
  backend : BackendServes DeletingServes client w.backend event w'.backend
  created : w'.created = w.created ++ createdBy client w.backend event w'.backend

/-! ### The steps of a transaction -/

/-- `FdwModifyState`, as far as the coordinator is concerned. -/
inductive FdwModifyState where
  | insert (client : Container)
  | update (client : Container)
  deriving DecidableEq, Repr

def FdwModifyState.client : FdwModifyState → Container
  | .insert client | .update client => client

/-- `XactEvent`. -/
inductive XactEvent where
  | commit | parallelCommit | abort | parallelAbort | prepare
  | preCommit | parallelPreCommit | prePrepare
  deriving DecidableEq, Repr

def XactEvent.isAbort : XactEvent → Bool
  | .abort | .parallelAbort => true
  | _ => false

def XactEvent.isCommit : XactEvent → Bool
  | .commit | .parallelCommit => true
  | _ => false

/-- The end of the transaction. -/
def XactEvent.isEnd (event : XactEvent) : Bool := event.isAbort || event.isCommit

/-- The loop of `xact_cb`: a delete that fails is reported. -/
def deletePending (coord : StatementCoordinator) : StoreProgram Unit :=
  coord.pendingStaging.forM fun name => do
    let _ ← deleteUnconditional name
    return ()

/-- `xact_cb`: what it asks of the client of the slot. -/
def xactCb (event : XactEvent) (slot : Option Active) : StoreProgram Unit :=
  if !event.isEnd then return ()
  else
    match slot with
    | none => return ()
    | some active =>
      if !event.isAbort || active.coord.isEmpty then return ()
      else deletePending active.coord

/-- The slot is taken before the requests are made. -/
def Backend.takeSlot (b : Backend) (event : XactEvent) : Backend :=
  if event.isEnd then { b with active := none } else b

/-- The current transaction or subtransaction. -/
inductive XactStatus where
  | inProgress | aborted | ended
  deriving DecidableEq, Repr

/-- A backend in a transaction: the `ri_FdwState` of the result relations, and the number of
subtransactions that are open. -/
structure TransactionState where
  ledger : StagingLedger
  nodes : ℕ → Option FdwModifyState
  depth : ℕ
  status : XactStatus

/-- At the start. -/
def TransactionState.initial (b : Backend) : TransactionState :=
  ⟨⟨b, []⟩, fun _ => none, 0, .inProgress⟩

/-- The end of `end_foreign_modify`, after the upload or the commit: the slot is closed, or the
error is raised. -/
def TransactionState.finish (s : TransactionState) (rel : ℕ) (w : StagingLedger) :
    Except Failure Unit → TransactionState
  | .ok _ =>
    { s with
      ledger := { w with backend := w.backend.closeStatementSuccess }
      nodes := Function.update s.nodes rel none }
  | .error _ => { s with ledger := w, nodes := Function.update s.nodes rel none, status := .aborted }

inductive TransactionLabel where
  | savepoint
  | release
  | rollbackTo
  | error
  | beginModify (rel : ℕ) (state : FdwModifyState)
  | endModify (rel : ℕ)
  | xact (event : XactEvent)
  deriving DecidableEq, Repr

/-- The uploads of an INSERT: each writes a blob of any name. -/
def BlobStore.Uploads : BlobStore → BlobStore → Prop :=
  Relation.ReflTransGen fun s s' => ∃ name v, v.etag ∉ s.issued ∧ s' = s.write name v

/-- One step. -/
inductive TransactionStep (codec : ParquetCodec) :
    TransactionState → TransactionLabel → TransactionState → Prop
  | savepoint {s : TransactionState} (hrunning : s.status = .inProgress) :
      TransactionStep codec s .savepoint { s with depth := s.depth + 1 }
  | release {s : TransactionState} {depth : ℕ} (hrunning : s.status = .inProgress)
      (hdepth : s.depth = depth + 1) : TransactionStep codec s .release { s with depth := depth }
  -- the nodes opened in the subtransaction are gone, those of the outer statements stay
  | rollbackTo {s : TransactionState} {depth : ℕ} {nodes : ℕ → Option FdwModifyState}
      (hlive : s.status ≠ .ended) (hdepth : s.depth = depth + 1)
      (hnodes : ∀ rel, nodes rel = none ∨ nodes rel = s.nodes rel) :
      TransactionStep codec s .rollbackTo
        { s with nodes := nodes, depth := depth, status := .inProgress }
  | error {s : TransactionState} (hrunning : s.status = .inProgress) :
      TransactionStep codec s .error { s with status := .aborted }
  | beginModify {s : TransactionState} {rel : ℕ} {state : FdwModifyState}
      (hrunning : s.status = .inProgress) (hnode : s.nodes rel = none) :
      TransactionStep codec s (.beginModify rel state) { s with
        ledger := { s.ledger with backend := s.ledger.backend.openStatement state.client }
        nodes := Function.update s.nodes rel (some state) }
  | endAborted {s : TransactionState} {rel : ℕ} (haborted : s.status = .aborted) :
      TransactionStep codec s (.endModify rel) { s with nodes := Function.update s.nodes rel none }
  -- what the executor has recorded meanwhile is any plan
  | endUpdate {s : TransactionState} {rel : ℕ} {client : Container} {plan : ModifyPlan}
      {es : List StoreEvent} {w : StagingLedger} {result : Except Failure Unit}
      (hrunning : s.status = .inProgress) (hnode : s.nodes rel = some (.update client))
      (hcommit : Exec (LedgerServes client) (commitPlan codec plan) s.ledger es w result) :
      TransactionStep codec s (.endModify rel) (s.finish rel w result)
  | endInsert {s : TransactionState} {rel : ℕ} {client : Container} {store : BlobStore}
      {result : Except Failure Unit} (hrunning : s.status = .inProgress)
      (hnode : s.nodes rel = some (.insert client))
      (huploads : (s.ledger.backend.stores client).Uploads store) :
      TransactionStep codec s (.endModify rel) (s.finish rel
        { s.ledger with
          backend := { s.ledger.backend with
            stores := Function.update s.ledger.backend.stores client store } } result)
  | xact {s : TransactionState} {event : XactEvent} {client : Container} {es : List StoreEvent}
      {b : Backend} {result : Except Failure Unit} (hlive : s.status ≠ .ended)
      (hcommit : event.isCommit = true → s.status = .inProgress)
      (hclient : ∀ active, s.ledger.backend.active = some active → active.client = client)
      (hcall : Exec (BackendServes DeletingServes client) (xactCb event s.ledger.backend.active)
        (s.ledger.backend.takeSlot event) es b result) :
      TransactionStep codec s (.xact event) { s with
        ledger := { s.ledger with backend := b }
        status := if event.isEnd then .ended else s.status }

/-! ### When no staging blob is left -/

/-- No blob is in flight in the slot. -/
def Backend.nothingInFlight (b : Backend) : Bool := b.active.all fun active => active.coord.isEmpty

/-- A statement begins and ends, and the transaction commits, with nothing in flight; an UPDATE
or DELETE ends with the slot opened for its own container. -/
def TransactionState.undisturbed (s : TransactionState) : TransactionLabel → Bool
  | .beginModify _ _ => s.ledger.backend.nothingInFlight
  | .endModify rel =>
    match s.status, s.nodes rel with
    | .inProgress, some (.update client) => s.ledger.backend.active = some ⟨client, .new⟩
    | .inProgress, some (.insert _) => s.ledger.backend.nothingInFlight
    | _, _ => true
  | .xact event => !event.isCommit || s.ledger.backend.nothingInFlight
  | _ => true

/-- The staging blobs that were created are gone. -/
def Swept (w : StagingLedger) : Prop :=
  ∀ x ∈ w.created, (w.backend.stores x.container).Retired x.name x.etag

/-- Those that are there are in flight in the slot of their container. -/
structure Accounted (w : StagingLedger) : Prop where
  issued : ∀ x ∈ w.created, x.etag ∈ (w.backend.stores x.container).issued
  inFlight : ∀ x ∈ w.created, w.backend.Holds x →
    ∃ coord, w.backend.active = some ⟨x.container, coord⟩ ∧ x.name ∈ coord.inFlight

section Sweep

variable {w w' : StagingLedger} {b b' : Backend} {client : Container} {event : StoreEvent}
  {x : StagingVersion}

theorem Backend.Holds.not_retired (h : b.Holds x) :
    ¬ (b.stores x.container).Retired x.name x.etag := by
  obtain ⟨v, hv, hetag⟩ := h
  exact fun hretired => hretired.not_current v hv hetag

theorem retired_of_not_holds (hissued : x.etag ∈ (b.stores x.container).issued)
    (h : ¬ b.Holds x) : (b.stores x.container).Retired x.name x.etag :=
  ⟨hissued, fun v hv hetag => h ⟨v, hv, hetag⟩⟩

theorem Swept.accounted (h : Swept w) : Accounted w where
  issued x hx := (h x hx).issued
  inFlight x hx hholds := absurd (h x hx) hholds.not_retired

theorem Accounted.swept (h : Accounted w) (hnone : w.backend.nothingInFlight = true) : Swept w := by
  refine fun x hx => retired_of_not_holds (h.issued x hx) fun hholds => ?_
  obtain ⟨coord, hactive, hmem⟩ := h.inFlight x hx hholds
  rw [Backend.nothingInFlight, hactive] at hnone
  rw [List.isEmpty_iff.mp hnone] at hmem
  cases hmem

/-- A store after a request is the same or has changed once. -/
theorem BackendServes.changes (h : BackendServes DeletingServes client b event b') (c : Container) :
    b'.stores c = b.stores c ∨ (b.stores c).Changes (b'.stores c) := by
  by_cases hc : c = client
  · subst hc
    exact h.store.serves.changes
  · exact .inl (h.frame c hc)

theorem BackendServes.retired (h : BackendServes DeletingServes client b event b')
    (hretired : (b.stores x.container).Retired x.name x.etag) :
    (b'.stores x.container).Retired x.name x.etag := by
  rcases h.changes x.container with heq | hchange
  · rwa [heq]
  · exact hretired.changes hchange

theorem BackendServes.issued (h : BackendServes DeletingServes client b event b')
    (hissued : x.etag ∈ (b.stores x.container).issued) :
    x.etag ∈ (b'.stores x.container).issued ∧ (b'.Holds x → b.Holds x) := by
  rcases h.changes x.container with heq | hchange
  · rw [Backend.Holds, heq]
    exact ⟨hissued, id⟩
  · obtain ⟨hissued', hcurrent⟩ := hchange.current x.name hissued
    exact ⟨hissued', fun ⟨v, hv, hetag⟩ => ⟨v, hcurrent v hv hetag, hetag⟩⟩

theorem BlobStore.Uploads.retired {s s' : BlobStore} {blob etag : String} (h : s.Uploads s')
    (hretired : s.Retired blob etag) : s'.Retired blob etag := by
  induction h with
  | refl => exact hretired
  | tail _ hwrite ih =>
    obtain ⟨name, v, hfresh, rfl⟩ := hwrite
    exact ih.changes (.write hfresh)

/-- What a request creates is in the store, under a name that it asks to create. -/
theorem mem_createdBy (hx : x ∈ createdBy client b event b') :
    x.container = client ∧ (∃ body reply, event = ⟨.putIfNoneMatch x.name body, reply⟩) ∧
      b'.Holds x := by
  obtain ⟨op, reply⟩ := event
  unfold createdBy at hx
  split at hx
  · rename_i name body hop
    obtain rfl : op = .putIfNoneMatch name body := hop
    split at hx
    · rename_i v _ hv
      obtain rfl := List.mem_singleton.mp hx
      exact ⟨rfl, ⟨body, reply, rfl⟩, v, hv, rfl⟩
    · cases hx
  · cases hx

/-- The ledger along a commit: what was created before stays gone, and what is created since was
asked for. -/
theorem exec_created {p : StoreProgram Unit} {es : List StoreEvent} {result : Except Failure Unit}
    (exec : Exec (LedgerServes client) p w es w' result) (hswept : Swept w) :
    ∀ x ∈ w'.created, (w'.backend.stores x.container).Retired x.name x.etag ∨
      x.container = client ∧ AskedToCreate es x.name ∧
        x.etag ∈ (w'.backend.stores x.container).issued := by
  refine exec.induct (I := fun h w' => ∀ x ∈ w'.created,
    (w'.backend.stores x.container).Retired x.name x.etag ∨ x.container = client ∧
      AskedToCreate h x.name ∧ x.etag ∈ (w'.backend.stores x.container).issued)
    (h := []) (fun x hx => .inl (hswept x hx)) fun h w₁ event w₂ hI hserves x hx => ?_
  rw [hserves.created] at hx
  rcases List.mem_append.mp hx with hx | hx
  · refine (hI x hx).imp hserves.backend.retired ?_
    rintro ⟨hclient, hasked, hissued⟩
    exact ⟨hclient, hasked.mono (List.prefix_append h _), (hserves.backend.issued hissued).1⟩
  · obtain ⟨hclient, hasked, v, hv, hetag⟩ := mem_createdBy hx
    refine .inr ⟨hclient, askedToCreate_concat.mpr (.inr hasked), ?_⟩
    rw [← hetag]
    exact (w₂.backend.stores x.container).etag_issued _ _ hv

/-- **A commit that starts with its own slot and nothing in flight** leaves nothing when it
returns, and what it leaves when it fails is in flight. -/
theorem commit_accounted {codec : ParquetCodec} {plan : ModifyPlan} {es : List StoreEvent}
    {result : Except Failure Unit}
    (exec : Exec (LedgerServes client) (commitPlan codec plan) w es w' result)
    (hactive : w.backend.active = some ⟨client, .new⟩) (hswept : Swept w) :
    (∀ u, result = .ok u → Swept w') ∧ ∀ e, result = .error e → Accounted w' := by
  have hcreated := exec_created exec hswept
  have hissued : ∀ x ∈ w'.created, x.etag ∈ (w'.backend.stores x.container).issued := fun x hx =>
    (hcreated x hx).elim BlobStore.Retired.issued fun h => h.2.2
  -- a blob of the ledger that is there was asked for by this commit
  have hheld : ∀ x ∈ w'.created, w'.backend.Holds x → x.container = client ∧
      AskedToCreate es x.name ∧ (w'.backend.stores client).blobs x.name ≠ none := by
    intro x hx hholds
    obtain ⟨hclient, hasked, -⟩ := (hcreated x hx).resolve_left hholds.not_retired
    obtain ⟨v, hv, -⟩ := hholds
    exact ⟨hclient, hasked, by simp [← hclient, hv]⟩
  have hsafe := (exec.map (f := StagingLedger.backend) fun _ _ _ h => h.backend).safe
    (commit_tracks_staging codec plan hactive)
  refine ⟨fun u hu x hx => retired_of_not_holds (hissued x hx) fun hholds => ?_, fun e he => ?_⟩
  · obtain ⟨-, hasked, hexists⟩ := hheld x hx hholds
    cases (hsafe.1 u hu).2 x.name hasked hexists
  · refine ⟨hissued, fun x hx hholds => ?_⟩
    obtain ⟨rfl, hasked, hexists⟩ := hheld x hx hholds
    obtain ⟨coord, hslot, hleft⟩ := (hsafe.2 e he).slot
    exact ⟨coord, hslot, hleft x.name hasked hexists⟩

/-- What the deletes of an ABORT have left: blobs in flight whose turn is yet to come. -/
def LeftToSweep (created : List StagingVersion) (active : Active) (done : List String) (b : Backend) :
    Prop :=
  ∀ x ∈ created, x.etag ∈ (b.stores x.container).issued ∧ (b.Holds x →
    x.container = active.client ∧ x.name ∈ active.coord.inFlight ∧ x.name ∉ done)

theorem LeftToSweep.step {created : List StagingVersion} {active : Active} {done : List String}
    {name : String} {reply : Response Unit} (h : LeftToSweep created active done b)
    (hserves : BackendServes DeletingServes active.client b ⟨.delete name, reply⟩ b') :
    LeftToSweep created active (done ++ [name]) b' := by
  intro x hx
  obtain ⟨hissued, hleft⟩ := h x hx
  obtain ⟨hissued', hbefore⟩ := hserves.issued hissued
  refine ⟨hissued', fun hholds => ?_⟩
  obtain ⟨hclient, hmem, hdone⟩ := hleft (hbefore hholds)
  refine ⟨hclient, hmem, fun hlast => ?_⟩
  rcases List.mem_append.mp hlast with hlast | hlast
  · exact hdone hlast
  · obtain ⟨v, hv, -⟩ := hholds
    rw [hclient, hserves.store.delete, List.mem_singleton.mp hlast] at hv
    simp [BlobStore.delete] at hv

/-- **The deletes of an ABORT leave nothing.** -/
theorem Accounted.sweep {active : Active} {es : List StoreEvent} {result : Except Failure Unit}
    (h : Accounted w) (hactive : w.backend.active = some active)
    (exec : Exec (BackendServes DeletingServes active.client) (deletePending active.coord)
      { w.backend with active := none } es b result) : Swept { w with backend := b } := by
  have hstart : LeftToSweep w.created active [] { w.backend with active := none } := by
    refine fun x hx => ⟨h.issued x hx, fun hholds => ?_⟩
    obtain ⟨coord, hslot, hmem⟩ := h.inFlight x hx hholds
    obtain rfl := Option.some.inj (hactive.symm.trans hslot)
    exact ⟨rfl, hmem, List.not_mem_nil⟩
  have hloop : Safe (BackendServes DeletingServes active.client) (fun _ _ => True) (fun _ _ => False)
      (deletePending active.coord) [] { w.backend with active := none }
      fun _ _ => LeftToSweep w.created active active.coord.inFlight :=
    safe_forM (J := fun done _ => LeftToSweep w.created active done)
      (fun _ _ _ _ _ _ hleft => safe_call_bind trivial fun _ _ hserves => hleft.step hserves) hstart
  cases result with
  | error e => exact ((exec.safe hloop).2 e rfl).elim
  | ok u =>
    intro x hx
    obtain ⟨hissued, hleft⟩ := (exec.safe hloop).1 u rfl x hx
    refine retired_of_not_holds hissued fun hholds => ?_
    obtain ⟨-, hmem, hdone⟩ := hleft hholds
    exact hdone hmem

/-- The callback makes no request when nothing is in flight. -/
theorem xactCb_of_nothingInFlight (event : XactEvent) (h : b.nothingInFlight = true) :
    xactCb event b.active = .ret () := by
  rw [Backend.nothingInFlight] at h
  unfold xactCb
  split_ifs with hend
  · rfl
  · cases hactive : b.active with
    | none => rfl
    | some active =>
      rw [hactive] at h
      have hempty : active.coord.isEmpty = true := h
      simp only [hempty, Bool.or_true, if_true]
      rfl

/-- The callback at the end of a transaction leaves nothing, if COMMIT finds nothing in flight. -/
theorem Accounted.xactCb {event : XactEvent} {es : List StoreEvent} {result : Except Failure Unit}
    (h : Accounted w) (hend : event.isEnd = true)
    (hundisturbed : event.isCommit = true → w.backend.nothingInFlight = true)
    (hclient : ∀ active, w.backend.active = some active → active.client = client)
    (exec : Exec (BackendServes DeletingServes client) (xactCb event w.backend.active)
      (w.backend.takeSlot event) es b result) : Swept { w with backend := b } := by
  rw [Backend.takeSlot, if_pos hend] at exec
  by_cases hnone : w.backend.nothingInFlight = true
  · rw [xactCb_of_nothingInFlight event hnone] at exec
    cases exec
    exact h.swept hnone
  · have habort : event.isAbort = true := by
      have hcommit : event.isCommit = false := by simpa using mt hundisturbed hnone
      rwa [XactEvent.isEnd, hcommit, Bool.or_false] at hend
    obtain ⟨active, hactive, hpending⟩ : ∃ active, w.backend.active = some active ∧
        active.coord.isEmpty = false := by
      simpa [Backend.nothingInFlight, Option.all_eq_true] using hnone
    obtain rfl := hclient active hactive
    have hsweep : ParquetAzureFdw.xactCb event (some active) = deletePending active.coord := by
      simp [ParquetAzureFdw.xactCb, hend, habort, hpending]
    rw [hactive, hsweep] at exec
    exact h.sweep hactive exec

end Sweep

section Transactions

variable {codec : ParquetCodec} {s s' : TransactionState} {l : TransactionLabel}

/-- What holds along a transaction. -/
structure TransactionState.Sound (s : TransactionState) : Prop where
  accounted : Accounted s.ledger
  swept : s.status = .ended → Swept s.ledger

theorem Accounted.sound (h : Accounted s.ledger) (hlive : s.status ≠ .ended) : s.Sound :=
  ⟨h, fun hended => absurd hended hlive⟩

/-- A step that leaves the ledger as it is. -/
theorem TransactionState.Sound.of_ledger_eq (h : s.Sound) (hledger : s'.ledger = s.ledger)
    (hlive : s'.status ≠ .ended) : s'.Sound := by
  refine Accounted.sound ?_ hlive
  rw [hledger]
  exact h.accounted

/-- The end of a statement. -/
theorem sound_finish {rel : ℕ} {w : StagingLedger} {result : Except Failure Unit}
    (hok : ∀ u, result = .ok u → Swept w) (herror : ∀ e, result = .error e → Accounted w) :
    (s.finish rel w result).Sound := by
  cases result with
  | ok u =>
    have hswept : Swept (s.finish rel w (.ok u)).ledger := hok u rfl
    exact ⟨hswept.accounted, fun _ => hswept⟩
  | error e => exact Accounted.sound (herror e rfl) nofun

/-- One step. -/
theorem TransactionState.Sound.step (h : s.Sound) (hstep : TransactionStep codec s l s')
    (hundisturbed : s.undisturbed l = true) : s'.Sound := by
  cases hstep with
  | savepoint hrunning => exact h.of_ledger_eq rfl (by simp [hrunning])
  | release hrunning => exact h.of_ledger_eq rfl (by simp [hrunning])
  | rollbackTo => exact h.of_ledger_eq rfl nofun
  | error => exact h.of_ledger_eq rfl nofun
  | endAborted haborted => exact h.of_ledger_eq rfl (by simp [haborted])
  | beginModify hrunning =>
    have hswept : Swept s.ledger := h.accounted.swept hundisturbed
    exact Accounted.sound (Swept.accounted hswept) (by simp [hrunning])
  | @endUpdate rel client plan es w result hrunning hnode hcommit =>
    have hactive : s.ledger.backend.active = some ⟨client, .new⟩ := by
      simpa [TransactionState.undisturbed, hrunning, hnode] using hundisturbed
    have hswept : Swept s.ledger := h.accounted.swept (by simp [Backend.nothingInFlight, hactive]; rfl)
    obtain ⟨hok, herror⟩ := commit_accounted hcommit hactive hswept
    exact sound_finish hok herror
  | @endInsert rel client store result hrunning hnode huploads =>
    have hnone : s.ledger.backend.nothingInFlight = true := by
      simpa [TransactionState.undisturbed, hrunning, hnode] using hundisturbed
    have hswept := h.accounted.swept hnone
    have hswept' : Swept { s.ledger with
        backend := { s.ledger.backend with
          stores := Function.update s.ledger.backend.stores client store } } := by
      intro x hx
      by_cases hc : x.container = client
      · subst hc
        simpa using huploads.retired (hswept x hx)
      · simpa [hc] using hswept x hx
    exact sound_finish (fun _ _ => hswept') fun _ _ => hswept'.accounted
  | @xact event client es b result hlive _ hclient hcall =>
    by_cases hend : event.isEnd = true
    · have hcommit : event.isCommit = true → s.ledger.backend.nothingInFlight = true := by
        intro hcommit
        simpa [TransactionState.undisturbed, hcommit] using hundisturbed
      have hswept := h.accounted.xactCb hend hcommit hclient hcall
      exact ⟨hswept.accounted, fun _ => hswept⟩
    · have hret : xactCb event s.ledger.backend.active = .ret () := by
        simp [xactCb, hend]
        rfl
      rw [hret, Backend.takeSlot, if_neg hend] at hcall
      cases hcall
      exact h.of_ledger_eq rfl (by simp [hend, hlive])

/-- **No staging blob outlives a transaction whose steps are undisturbed.** -/
theorem transaction_leaves_no_staging {b₀ : Backend} {ls : List TransactionLabel}
    (run : Run (fun s l s' => TransactionStep codec s l s' ∧ s.undisturbed l = true)
      (.initial b₀) ls s) (hended : s.status = .ended) :
    ∀ x ∈ s.ledger.created, ¬ s.ledger.backend.Holds x := by
  have hsound : s.Sound := by
    refine run.invariant ?_ fun s l s' h hstep => h.step hstep.1 hstep.2
    refine ⟨⟨nofun, nofun⟩, nofun⟩
  exact fun x hx hholds => hholds.not_retired (hsound.swept hended x hx)

end Transactions

/-! ### An update that fails after the staging blob was uploaded -/

/-- The plan that sets the flag of blob `a` to false. -/
def updateOnlyRow : ModifyPlan where
  blobTable := [⟨"a", 0, "0x1"⟩]
  edits := [(0, ⟨[], [(0, ⟨[some ⟨.boolean, [some (.boolean false)], by decide⟩]⟩)]⟩)]
  schema := [⟨"flag", .boolean, true⟩]
  compression := .snappy
  editCount := 1

/-- The staging blob, for the uuid `u`. -/
def stagingOfA : StagingVersion := ⟨"c", makeStagingName "a" "u", "0x2"⟩

/-- Its commit fails when blob `a` is to be swapped. -/
def failedSwap : Failure := .error (.azure "503")

/-- A transaction that has begun the update. -/
def updateBegun (depth : ℕ) : TransactionState where
  ledger := ⟨openOnA, []⟩
  nodes := Function.update (fun _ => none) 0 (some (.update "c"))
  depth := depth
  status := .inProgress

/-- The container after the upload of the staging blob. -/
def stagedOnA : Backend where
  stores := Function.update (fun _ => storeOfA) "c"
    (storeOfA.write (makeStagingName "a" "u") ⟨"0x2", [0]⟩)
  active := some ⟨"c", ⟨[makeStagingName "a" "u"]⟩⟩

/-- The slot after the name was registered. -/
def registeredOnA : Backend := ⟨fun _ => storeOfA, some ⟨"c", ⟨[makeStagingName "a" "u"]⟩⟩⟩

theorem commitPlan_updateOnlyRow :
    ∃ n₁ n₂ n₃ n₄ n₅,
      commitPlan flagCodec updateOnlyRow = .request (.getIfMatch "a" "0x1") n₁ ∧
      n₁ (.ok (none, [1])) = .request .newUuid n₂ ∧
      n₂ "u" = .request (.registerStaging (makeStagingName "a" "u")) n₃ ∧
      n₃ () = .request (.putIfNoneMatch (makeStagingName "a" "u") [0]) n₄ ∧
      n₄ (.ok (some "0x2")) = .request (.putIfMatch "a" [0] "0x1") n₅ ∧
      n₅ (.failed "503") = .fail failedSwap :=
  ⟨_, _, _, _, _, rfl, rfl, rfl, rfl, rfl, rfl⟩

theorem commit_fails_after_staging :
    ∃ es, Exec (LedgerServes "c") (commitPlan flagCodec updateOnlyRow) ⟨openOnA, []⟩ es
      ⟨stagedOnA, [stagingOfA]⟩ (.error failedSwap) := by
  obtain ⟨n₁, n₂, n₃, n₄, n₅, h₁, h₂, h₃, h₄, h₅, h₆⟩ := commitPlan_updateOnlyRow
  have hcurrent : storeOfA.blobs "a" = some ⟨"0x1", [1]⟩ := rfl
  have hget : LedgerServes "c" ⟨openOnA, []⟩ ⟨.getIfMatch "a" "0x1", .ok (none, [1])⟩ ⟨openOnA, []⟩ :=
    ⟨⟨⟨.get none hcurrent, trivial⟩, fun _ _ => rfl, rfl⟩, rfl⟩
  have hdraw : LedgerServes "c" ⟨openOnA, []⟩ ⟨.newUuid, "u"⟩ ⟨openOnA, []⟩ :=
    ⟨⟨⟨.unserved trivial, trivial⟩, fun _ _ => rfl, rfl⟩, rfl⟩
  have hregister : LedgerServes "c" ⟨openOnA, []⟩ ⟨.registerStaging (makeStagingName "a" "u"), ()⟩
      ⟨registeredOnA, []⟩ := ⟨⟨⟨.unserved trivial, trivial⟩, fun _ _ => rfl, rfl⟩, rfl⟩
  have hstore : stagedOnA.stores "c" = storeOfA.write (makeStagingName "a" "u") ⟨"0x2", [0]⟩ := by
    simp [stagedOnA]
  have habsent : storeOfA.blobs (makeStagingName "a" "u") = none := by decide
  have hcreate : LedgerServes "c" ⟨registeredOnA, []⟩
      ⟨.putIfNoneMatch (makeStagingName "a" "u") [0], .ok (some "0x2")⟩ ⟨stagedOnA, [stagingOfA]⟩ := by
    refine ⟨⟨⟨?_, trivial⟩, fun c hc => by simp [stagedOnA, registeredOnA, hc], rfl⟩, ?_⟩
    · rw [hstore]
      exact .create habsent (by decide) (.inr rfl) .ok
    · simp [createdBy, registeredOnA, habsent, hstore, BlobStore.write, stagingOfA]
  have hswap : LedgerServes "c" ⟨stagedOnA, [stagingOfA]⟩ ⟨.putIfMatch "a" [0] "0x1", .failed "503"⟩
      ⟨stagedOnA, [stagingOfA]⟩ := ⟨⟨⟨.unserved rfl, trivial⟩, fun _ _ => rfl, rfl⟩, rfl⟩
  have hend : Exec (LedgerServes "c") (n₅ (.failed "503")) ⟨stagedOnA, [stagingOfA]⟩ []
      ⟨stagedOnA, [stagingOfA]⟩ (.error failedSwap) := h₆ ▸ .fail
  have hswapped := h₅ ▸ Exec.request hswap hend
  have hstaged := h₄ ▸ Exec.request hcreate hswapped
  have hregistered := h₃ ▸ Exec.request hregister hstaged
  have hdrawn := h₂ ▸ Exec.request hdraw hregistered
  exact ⟨_, h₁ ▸ Exec.request hget hdrawn⟩

/-- The backend before the statement. -/
def closedOnA : Backend := ⟨fun _ => storeOfA, none⟩

/-- The state after `end_foreign_modify` has raised the error. -/
def updateFailed (depth : ℕ) : TransactionState where
  ledger := ⟨stagedOnA, [stagingOfA]⟩
  nodes := fun _ => none
  depth := depth
  status := .aborted

theorem beginModify_updateBegun (depth : ℕ) :
    TransactionStep flagCodec ⟨⟨closedOnA, []⟩, fun _ => none, depth, .inProgress⟩
      (.beginModify 0 (.update "c")) (updateBegun depth) :=
  .beginModify rfl rfl

theorem endModify_updateFailed (depth : ℕ) :
    TransactionStep flagCodec (updateBegun depth) (.endModify 0) (updateFailed depth) := by
  obtain ⟨es, hcommit⟩ := commit_fails_after_staging
  have hstep : TransactionStep flagCodec (updateBegun depth) (.endModify 0)
      ((updateBegun depth).finish 0 ⟨stagedOnA, [stagingOfA]⟩ (.error failedSwap)) :=
    .endUpdate rfl (by simp [updateBegun]) hcommit
  have hnodes : Function.update (updateBegun depth).nodes 0 none = fun _ => none := by
    funext rel
    by_cases hrel : rel = 0 <;> simp [updateBegun, hrel]
  rw [TransactionState.finish, hnodes] at hstep
  exact hstep

/-- The backend after ABORT. -/
def sweptOnA : Backend where
  stores := Function.update stagedOnA.stores "c"
    ((stagedOnA.stores "c").delete (makeStagingName "a" "u"))
  active := none

/-- A statement that fails outside of a subtransaction: ABORT deletes its staging blob. -/
theorem abort_deletes_staging : ¬ sweptOnA.Holds stagingOfA := by
  have hdelete : BackendServes DeletingServes "c" { stagedOnA with active := none }
      ⟨.delete (makeStagingName "a" "u"), .ok ()⟩ sweptOnA := by
    refine ⟨⟨?_, rfl⟩, fun c hc => by simp [sweptOnA, hc], rfl⟩
    simp only [sweptOnA, Function.update_self]
    exact .delete
  have hcall : Exec (BackendServes DeletingServes "c") (xactCb .abort stagedOnA.active)
      (stagedOnA.takeSlot .abort) [⟨.delete (makeStagingName "a" "u"), .ok ()⟩] sweptOnA (.ok ()) :=
    .request hdelete .ret
  have run : Run (fun s l s' => TransactionStep flagCodec s l s' ∧ s.undisturbed l = true)
      (.initial closedOnA) [.beginModify 0 (.update "c"), .endModify 0, .xact .abort]
      ⟨⟨sweptOnA, [stagingOfA]⟩, fun _ => none, 0, .ended⟩ :=
    .cons ⟨beginModify_updateBegun 0, rfl⟩ <| .cons ⟨endModify_updateFailed 0, rfl⟩ <|
      .cons ⟨.xact nofun nofun (by rintro _ ⟨⟩; rfl) hcall, rfl⟩ .nil
  exact transaction_leaves_no_staging run rfl stagingOfA (by simp)

/-- **A statement that fails in a subtransaction leaves its staging blob:** the subtransaction is
rolled back, and COMMIT drops the slot. -/
theorem failed_subtransaction_leaves_staging :
    ∃ s, Run (TransactionStep flagCodec) (.initial closedOnA)
      [.savepoint, .beginModify 0 (.update "c"), .endModify 0, .rollbackTo, .xact .commit] s ∧
      s.status = .ended ∧ ∃ x ∈ s.ledger.created, s.ledger.backend.Holds x := by
  have hcall : Exec (BackendServes DeletingServes "c") (xactCb .commit stagedOnA.active)
      (stagedOnA.takeSlot .commit) [] { stagedOnA with active := none } (.ok ()) := .ret
  have hrollback : TransactionStep flagCodec (updateFailed 1) .rollbackTo
      ⟨⟨stagedOnA, [stagingOfA]⟩, fun _ => none, 0, .inProgress⟩ :=
    .rollbackTo (fun h => by cases h) rfl fun _ => .inl rfl
  have hholds : Backend.Holds { stagedOnA with active := none } stagingOfA :=
    ⟨⟨"0x2", [0]⟩, by simp [stagedOnA, stagingOfA, BlobStore.write], rfl⟩
  refine ⟨⟨⟨{ stagedOnA with active := none }, [stagingOfA]⟩, fun _ => none, 0, .ended⟩, ?_, rfl,
    stagingOfA, by simp, hholds⟩
  exact .cons (.savepoint rfl) <| .cons (beginModify_updateBegun 1) <|
    .cons (endModify_updateFailed 1) <| .cons hrollback <|
    .cons (.xact (fun h => by cases h) (fun _ => rfl) (by rintro _ ⟨⟩; rfl) hcall) .nil

end ParquetAzureFdw
