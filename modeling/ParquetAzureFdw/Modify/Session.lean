/-
# A session of statements

Statements one after the other against one table: INSERTs, UPDATEs and DELETEs, some of which fail.
What a table is for is said without a container: it has blobs with rows (`TableState`), an UPDATE or
DELETE edits the rows of some of them (`TableState.edit`), and an INSERT puts blobs of new rows
(`TableState.put`).  A statement that fails has done the first part of that (`TableStep`).

The container stands for a table when the blobs that the foreign table covers are files of its rows
(`TableState.StoredIn`); staging blobs that were left behind are not covered.  Every statement of a
session keeps this (`SessionStep.refines`), whatever the service answers, so that a SELECT after any
number of statements returns the rows of the table that they lead to (`session_then_select`).
-/

import ParquetAzureFdw.Modify.InsertThenSelect
import ParquetAzureFdw.Modify.SelectDuringCommit

namespace ParquetAzureFdw

open Programs Runs

/-! ### Tables -/

/-- A table: its blobs, each with its rows. -/
def TableState := String → Option (List ArrowRow)

/-- The rows of a blob; none, where there is no blob. -/
def TableState.rows (T : TableState) (name : String) : List ArrowRow := (T name).getD []

/-- The recorded edits are made.  A blob that has edits and is left without a row is removed. -/
def TableState.edit (T : TableState) (recorded : List (DeliveredRow × RowEdit)) : TableState :=
  fun name => (T name).bind fun rows =>
    if (∀ r ∈ recorded, r.1.emission.batch.source ≠ name) ∨ editedRows recorded name rows ≠ [] then
      some (editedRows recorded name rows)
    else none

/-- Blobs are put, in this order. -/
def TableState.put (T : TableState) (groups : List (String × List ArrowRow)) : TableState :=
  fun name => (groups.reverse.lookup name).or (T name)

/-- A statement of a session, with what became of it. -/
inductive SessionLabel where
  | modify (blobs : List ListedBlob) (recorded : List (DeliveredRow × RowEdit)) (committed : Bool)
  | insert (inputs : List (Tuple × Stamp)) (result : Except Failure Unit)

section Abstract

variable (formatPgDays : Int32 → Option String) (target : InsertTarget)

/-- The blob of a group, with the rows of its tuples. -/
def GroupRows (inputs : List (Tuple × Stamp)) (routed : List (PartitionTupleKey × ArrowRow))
    (key : PartitionTupleKey) (group : String × List ArrowRow) : Prop :=
  NamedBy target inputs routed key group.1 ∧ group.2 = routedRows key routed

/-- What a statement does to a table. -/
inductive TableStep : TableState → SessionLabel → TableState → Prop
  | edited {T : TableState} {blobs : List ListedBlob} {recorded : List (DeliveredRow × RowEdit)} :
      TableStep T (.modify blobs recorded true) (T.edit recorded)
  | stopped {T : TableState} {blobs : List ListedBlob} {recorded : List (DeliveredRow × RowEdit)}
      (m : ℕ) : TableStep T (.modify blobs recorded false)
        (T.edit (recordedFor ((blobs.take m).map Prod.fst) recorded))
  | refused {T : TableState} {inputs : List (Tuple × Stamp)} {e : Failure} :
      TableStep T (.insert inputs (.error e)) T
  | inserted {T : TableState} {inputs : List (Tuple × Stamp)} {order : List PartitionTupleKey}
      {routed : List (PartitionTupleKey × ArrowRow)} {groups : List (String × List ArrowRow)}
      {result : Except Failure Unit} (horder : GroupOrder formatPgDays target inputs order routed)
      (hgroups : List.Forall₂ (GroupRows target inputs routed) (order.take groups.length) groups)
      (hall : result = .ok () → groups.length = order.length) :
      TableStep T (.insert inputs result) (T.put groups)

end Abstract

/-! ### Sessions -/

section Session

variable (codec : ParquetCodec) (readFile : Bytes → FdwResult ParquetFile) (source : PlanSource)
  (formatPgDays : Int32 → Option String) (target : InsertTarget)

/-- A statement of the session, from its first request to its end.  It runs alone, and the service
may refuse or lose any of its requests and replies.  An UPDATE or DELETE has listed the blobs of the
table; one whose listing fails has asked for nothing else. -/
inductive SessionStep : BlobStore → SessionLabel → BlobStore → Prop
  | commit {store : BlobStore} {st : Statement} {s : StatementState} {ls : List StatementLabel}
      {container : List BlobItem} {plan : ModifyPlan} {log : List StoreEvent}
      (hcodec : st.codec = codec) (hread : st.read = readFile) (hpushed : st.cfg.qualFilter = none)
      (hlists : store.Lists container) (hlist : source.list store container = .ok s.blobs)
      (run : Run (fun s l s' => Undisturbed st s l ∧ Advances st s l s') (.initial store) ls s)
      (hphase : s.phase = .committed plan log) :
      SessionStep store (.modify s.blobs s.recorded true) s.store
  | fail {store : BlobStore} {st : Statement} {s : StatementState} {ls : List StatementLabel}
      {container : List BlobItem}
      (hcodec : st.codec = codec) (hread : st.read = readFile) (hpushed : st.cfg.qualFilter = none)
      (hlists : store.Lists container) (hlist : source.list store container = .ok s.blobs)
      (run : Run (fun s l s' => Undisturbed st s l ∧ Advances st s l s') (.initial store) ls s)
      (hphase : s.phase = .failed) :
      SessionStep store (.modify s.blobs s.recorded false) s.store
  | insert {store store' : BlobStore} {bytesWritten : codec.Writer → ℕ}
      {iter : List PartitionTupleKey → List PartitionTupleKey} {inputs : List (Tuple × Stamp)}
      {es : List UploadEvent} {result : Except Failure Unit} (hiter : ∀ keys, (iter keys).Perm keys)
      (exec : Exec PutServes (insertProgram codec bytesWritten formatPgDays target iter inputs) store
        es store' result) :
      SessionStep store (.insert inputs result) store'

end Session

/-! ### The container of a table -/

section Stored

variable {codec : ParquetCodec} {source : PlanSource} {T : TableState} {s s' : BlobStore}
  {name : String} {rows : List ArrowRow}

variable (codec source) in
/-- The blobs of the container that the foreign table covers are files of the rows of the table. -/
structure TableState.StoredIn (T : TableState) (s : BlobStore) : Prop where
  absent : ∀ name, source.Covers name → T name = none → s.blobs name = none
  held : ∀ name rows, source.Covers name → T name = some rows →
    ∃ v, s.blobs name = some v ∧ codec.Holds v.body rows

theorem TableState.StoredIn.exists_iff (h : T.StoredIn codec source s) (hcovers : source.Covers name) :
    s.blobs name ≠ none ↔ T name ≠ none := by
  cases hT : T name with
  | none => simp [h.absent name hcovers hT]
  | some rows =>
    obtain ⟨v, hv, -⟩ := h.held name rows hcovers hT
    simp [hv]

/-- The rows of a blob that is there. -/
theorem TableState.StoredIn.holds (h : T.StoredIn codec source s) (hcovers : source.Covers name)
    {v : Version} (hv : s.blobs name = some v) : codec.Holds v.body (T.rows name) := by
  obtain ⟨rows, hT⟩ := Option.ne_none_iff_exists'.mp ((h.exists_iff hcovers).mp (by simp [hv]))
  obtain ⟨v', hv', hrows⟩ := h.held name rows hcovers hT
  obtain rfl := Option.some.inj (hv.symm.trans hv')
  rwa [TableState.rows, hT]

/-- **A SELECT returns the rows of the table.** -/
theorem TableState.StoredIn.select {parquet : BatchCut} {cfg : ScanConfig}
    {readFile : Bytes → FdwResult ParquetFile} {container : List BlobItem} {blobs : List ListedBlob}
    (h : T.StoredIn codec source s) (hagree : ReadersAgree codec readFile)
    (hcolumns : cfg.ReadsAll readFile) (hqual : cfg.qualFilter = none)
    (hlist : source.list s container = .ok blobs) (hfinds : source.Finds s blobs) :
    SelectReturns parquet cfg readFile source s container
      (tableRows cfg T.rows (blobs.map Prod.fst)) := by
  refine selectReturns_of_holds _ hagree hcolumns hqual hlist hfinds.nodup hfinds.nodup
    (fun _ hname => hname) (fun _ hname hlost => absurd hname hlost) fun b hb => ?_
  obtain ⟨hcovers, hexists⟩ := (hfinds.mem_iff b.1).mp (List.mem_map_of_mem hb)
  obtain ⟨v, hv⟩ := Option.ne_none_iff_exists'.mp hexists
  exact ⟨v, hv, h.holds hcovers hv⟩

end Stored

/-! ### UPDATE and DELETE -/

section Edit

variable {codec : ParquetCodec} {source : PlanSource} {T : TableState} {s s' : BlobStore}
  {recorded : List (DeliveredRow × RowEdit)}

/-- No edit, no change. -/
theorem TableState.edit_nil : T.edit [] = T := by
  funext name
  cases hT : T name with
  | none => simp [TableState.edit, hT]
  | some rows => simp [TableState.edit, hT, editedRows_of_none]

/-- **A commit makes the edits of its plan.** -/
theorem TableState.StoredIn.edit {plan : ModifyPlan} {container : List BlobItem}
    {blobs : List ListedBlob} (h : T.StoredIn codec source s) (hcodec : codec.Faithful)
    (hcollects : PlanCollects plan recorded) (heffect : CommitEffect codec plan s s')
    (hlist : source.list s container = .ok blobs) (hfinds : source.Finds s blobs)
    (hcount : ∀ b ∈ blobs, ∀ v, s.blobs b.1 = some v → ∀ rows, codec.Holds v.body rows →
      rows.length < 2 ^ 32) : (T.edit recorded).StoredIn codec source s' := by
  have hedited : ∀ name rows, source.Covers name → T name = some rows →
      BlobLeft codec s' name (∀ r ∈ recorded, r.1.emission.batch.source ≠ name)
        (editedRows recorded name rows) := by
    intro name rows hcovers hT
    obtain ⟨v, hv, hrows⟩ := h.held name rows hcovers hT
    obtain ⟨b, hb, rfl⟩ := List.mem_map.mp ((hfinds.mem_iff name).mpr ⟨hcovers, by simp [hv]⟩)
    exact blobLeft_of_collects hcodec hcollects heffect hv hrows (hcount b hb v hv rows hrows)
  refine ⟨fun name hcovers hnone => ?_, fun name rows hcovers hsome => ?_⟩
  · cases hT : T name with
    | none =>
      -- a blob of the table is not created
      by_contra hexists
      have hnew := h.absent name hcovers hT
      have hstaging := heffect.gained name hnew hexists
      cases source with
      | head literal =>
        obtain ⟨v, hv, -⟩ := PlanSource.list_head_eq_ok_iff.mp hlist
        obtain rfl : name = literal := hcovers
        cases hnew.symm.trans hv
      | glob pattern => cases hcovers.2.symm.trans hstaging
    | some rows =>
      have hleft := (hedited name rows hcovers hT).exists_iff
      rw [TableState.edit, hT, Option.bind_some, ite_eq_right_iff] at hnone
      by_contra hexists
      cases hnone (hleft.mp hexists)
  · cases hT : T name with
    | none => simp [TableState.edit, hT] at hsome
    | some before =>
      have hblob := hedited name before hcovers hT
      rw [TableState.edit, hT, Option.bind_some, Option.ite_none_right_eq_some] at hsome
      obtain ⟨hleft, hrows⟩ := hsome
      obtain rfl := Option.some.inj hrows
      exact hblob.holds (hblob.exists_iff.mpr hleft)

end Edit

/-! ### INSERT -/

section Put

variable {codec : ParquetCodec} {source : PlanSource} {T : TableState} {s₀ s : BlobStore}
  {formatPgDays : Int32 → Option String} {target : InsertTarget} {inputs : List (Tuple × Stamp)}
  {order : List PartitionTupleKey} {routed : List (PartitionTupleKey × ArrowRow)}
  {done : List (String × Bytes)}

/-- The values of a name in two lists with the same names. -/
theorem lookup_rel {α β : Type} {R : α → β → Prop} {l : List (String × α)} {l' : List (String × β)}
    (h : List.Forall₂ (fun a b => a.1 = b.1 ∧ R a.2 b.2) l l') (name : String) :
    Option.Rel R (l.lookup name) (l'.lookup name) := by
  induction h with
  | nil => exact .none
  | @cons a b l l' hab _ ih =>
    rw [List.lookup_cons, List.lookup_cons, ← hab.1]
    cases name == a.1 with
    | true => exact .some hab.2
    | false => exact ih

/-- The groups of uploaded blobs. -/
theorem exists_groups {keys : List PartitionTupleKey}
    (h : List.Forall₂ (GroupBlob codec target inputs routed) keys done) :
    ∃ groups, List.Forall₂ (GroupRows target inputs routed) keys groups ∧
      List.Forall₂ (fun blob group => blob.1 = group.1 ∧ codec.Holds blob.2 group.2) done groups := by
  induction h with
  | nil => exact ⟨[], .nil, .nil⟩
  | @cons key blob keys done hblob _ ih =>
    obtain ⟨groups, hgroups, hdone⟩ := ih
    exact ⟨(blob.1, routedRows key routed) :: groups, .cons ⟨hblob.named, rfl⟩ hgroups,
      .cons ⟨rfl, hblob.holds⟩ hdone⟩

/-- **Uploads put their groups**, whatever was there. -/
theorem TableState.StoredIn.put (h : T.StoredIn codec source s₀) (huploaded : Uploaded s₀ done s)
    {groups : List (String × List ArrowRow)}
    (hgroups : List.Forall₂ (fun blob group => blob.1 = group.1 ∧ codec.Holds blob.2 group.2) done
      groups) : (T.put groups).StoredIn codec source s := by
  have hlookup := fun name => lookup_rel (List.rel_reverse hgroups) name
  have hcontent := huploaded.content
  -- a blob that was not uploaded is as it was
  have hkept : ∀ name, done.reverse.lookup name = none → s.blobs name = s₀.blobs name := by
    intro name hnone
    refine huploaded.kept name fun hmem => ?_
    obtain ⟨blob, hblob, rfl⟩ := List.mem_map.mp hmem
    simpa using List.lookup_eq_none_iff.mp hnone blob (List.mem_reverse.mpr hblob)
  refine ⟨fun name hcovers hnone => ?_, fun name rows hcovers hsome => ?_⟩
  · obtain ⟨hgroup, hT⟩ := Option.or_eq_none_iff.mp hnone
    have hrel := hlookup name
    rw [hgroup] at hrel
    cases hdone : done.reverse.lookup name with
    | none => exact (hkept name hdone).trans (h.absent name hcovers hT)
    | some bytes =>
      rw [hdone] at hrel
      cases hrel
  · have hrel := hlookup name
    cases hdone : done.reverse.lookup name with
    | none =>
      rw [hdone] at hrel
      have hgroup : groups.reverse.lookup name = none := by
        generalize groups.reverse.lookup name = found at hrel
        cases hrel
        rfl
      rw [TableState.put, hgroup, Option.none_or] at hsome
      rw [hkept name hdone]
      exact h.held name rows hcovers hsome
    | some bytes =>
      obtain ⟨rows', hgroup, hheld⟩ : ∃ rows', groups.reverse.lookup name = some rows' ∧
          codec.Holds bytes rows' := by
        rw [hdone] at hrel
        generalize groups.reverse.lookup name = found at hrel
        cases hrel with
        | some hheld => exact ⟨_, rfl, hheld⟩
      rw [TableState.put, hgroup, Option.some_or] at hsome
      obtain rfl := Option.some.inj hsome
      have hbody := hcontent name
      rw [hdone, Option.some_or] at hbody
      obtain ⟨v, hv, rfl⟩ := Option.map_eq_some_iff.mp hbody
      exact ⟨v, hv, hheld⟩

/-- The blobs of the first groups are put. -/
theorem TableState.StoredIn.insert (h : T.StoredIn codec source s₀)
    (hgroups : UploadedGroups codec formatPgDays target inputs s₀ s order routed done)
    {result : Except Failure Unit} (hall : result = .ok () → done.length = order.length) :
    ∃ T', TableStep formatPgDays target T (.insert inputs result) T' ∧ T'.StoredIn codec source s := by
  obtain ⟨groups, hrows, hdone⟩ := exists_groups hgroups.blobs
  rw [hdone.length_eq] at hrows hall
  exact ⟨T.put groups, .inserted hgroups.toGroupOrder hrows hall, h.put hgroups.uploaded hdone⟩

end Put

/-! ### The refinement -/

section Refinement

variable {codec : ParquetCodec} {readFile : Bytes → FdwResult ParquetFile} {source : PlanSource}
  {formatPgDays : Int32 → Option String} {target : InsertTarget} {T : TableState}
  {store store' : BlobStore} {attrs : List Attribute} {opts : PartitionOptions}
  {regexNew : List (Wildcard.Atom Char) → Except String Unit} {filename : String}

/-- **Each statement does to the container what it does to the table.** -/
theorem SessionStep.refines {l : SessionLabel} (hcodec : codec.Faithful)
    (hagree : ReadersAgree codec readFile)
    (hlayout : buildInsertLayout attrs opts = .ok target.layout)
    (hsource : planSource regexNew filename = .ok source) (h : T.StoredIn codec source store)
    (next : SessionStep codec readFile source formatPgDays target store l store') :
    ∃ T', TableStep formatPgDays target T l T' ∧ T'.StoredIn codec source store' := by
  cases next with
  | @commit st s _ container plan log hst hread hpushed hlists hlist run hphase =>
    subst hst hread
    have hinv : AloneInv st store s := .of_run hpushed run
    have hfinds := PlanSource.finds_of_list hsource hlists hlist
    obtain ⟨hcollects, hexec⟩ := hinv.phase hphase
    obtain ⟨hplan, -, -⟩ := hinv.inv.phase hphase
    have hplanned := hinv.listed_eq ▸ hplan.table
    refine ⟨_, .edited, h.edit hcodec hcollects (commitPlan_effect hexec) hlist hfinds ?_⟩
    exact fun b hb v hv rows hrows => length_lt_of_planned hagree hplanned hb hv hrows
  | @fail st s _ container hst hread hpushed hlists hlist run hphase =>
    subst hst hread
    have hfinds := PlanSource.finds_of_list hsource hlists hlist
    -- it has failed before its commit, or in it
    rcases containerAt_of_run hpushed run with hstore | ⟨plan, keys, hcollects, hplanned, hkeys⟩
    · refine ⟨_, .stopped 0, ?_⟩
      have hnone : recordedFor ((s.blobs.take 0).map Prod.fst) s.recorded = [] := by
        simp [recordedFor]
      rwa [hnone, TableState.edit_nil, hstore]
    · obtain ⟨m, hm⟩ := hcollects.upTo hfinds.nodup hplanned hkeys.1
      refine ⟨_, .stopped m, h.edit hcodec hm hkeys.effect hlist hfinds ?_⟩
      exact fun b hb v hv rows hrows => length_lt_of_planned hagree hplanned hb hv hrows
  | @insert _ _ _ inputs es result hiter exec =>
    rcases insert_cases hlayout hiter hcodec exec with
      ⟨e, -, rfl, -, rfl⟩ | ⟨t, order, routed, done, -, hgroups, hall⟩
    · exact ⟨T, .refused, h⟩
    · exact h.insert hgroups fun hresult => (hall hresult).1

end Refinement

/-- The table of the two blobs of flags. -/
def flagState : TableState := fun name => (flagStore.blobs name).map fun _ => flagTable name

theorem flagState_storedIn (source : PlanSource) : flagState.StoredIn flagCodec source flagStore where
  absent name _ hnone := Option.map_eq_none_iff.mp hnone
  held name rows _ hsome := by
    obtain ⟨v, hv, rfl⟩ := Option.map_eq_some_iff.mp hsome
    exact ⟨v, hv, flagTable_held hv⟩

end ParquetAzureFdw
