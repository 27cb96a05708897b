/-
# What an INSERT does to the container

`finalize_and_upload` of `src/fdw/modify/insert.rs` over the store, with `AzureBlobWriter::upload`
of `src/azure/writer.rs`: the groups are uploaded one after the other, in the order of their keys,
each by a PUT without a condition.

A statement whose tuples or flushes fail has asked for nothing.  One that comes to its uploads has
put the blobs of the first so many groups, each with all rows of its group, and has touched no other
blob, whatever the service answers; there is no way back from a failure (`insert_effect`).  When it
returns, the container has one new blob for each partition tuple, with the rows of the tuples that
have it (`insert_conserves_rows`).
-/

import ParquetAzureFdw.Lib.Sequential
import ParquetAzureFdw.Modify.InsertRouting

namespace ParquetAzureFdw

open Programs

/-! ### Uploads -/

/-- The request of `AzureBlobWriter::upload`. -/
inductive UploadOp where
  | put (blob : String) (body : Bytes)
  deriving DecidableEq, Repr

/-- What it is told. -/
def UploadOp.Reply : UploadOp → Type
  | .put .. => Response Unit

/-- The blob that is written. -/
def UploadOp.blob : UploadOp → String
  | .put blob _ => blob

/-- A program that uploads. -/
abbrev UploadProgram := Program UploadOp.Reply Failure

/-- A request with its reply. -/
abbrev UploadEvent := Event UploadOp.Reply

/-- What the writer makes of a reply: every status but success is an error of the service. -/
def readPut : Response Unit → Outcome Unit
  | .ok () => .ok ()
  | .preconditionFailed => .error (.error (.azure "412 Precondition Failed"))
  | .notFound => .error (.error (.azure "404 Not Found"))
  | .failed msg => .error (.error (.azure msg))

/-- `AzureBlobWriter::upload`. -/
def upload (name : String) (body : Bytes) : UploadProgram Unit := do
  Program.ofExcept (refuseOversized name body)
  let reply ← Program.call (UploadOp.put name body)
  Program.ofExcept (readPut reply)

/-- How a PUT is served: it replaces what is there, or is refused or lost, and its reply may be
lost too. -/
inductive PutServes : BlobStore → UploadEvent → BlobStore → Prop
  | put {s : BlobStore} {blob etag : String} {body : Bytes} {reply : Response Unit}
      (hfresh : etag ∉ s.issued) (hreply : Served () reply) :
      PutServes s ⟨.put blob body, reply⟩ (s.write blob ⟨etag, body⟩)
  | unserved {s : BlobStore} {blob : String} {body : Bytes} {reply : Response Unit}
      (h : Response.isOk reply = false) : PutServes s ⟨.put blob body, reply⟩ s

section Program

variable (codec : ParquetCodec) (bytesWritten : codec.Writer → ℕ)
  (formatPgDays : Int32 → Option String) (target : InsertTarget)
  (iter : List PartitionTupleKey → List PartitionTupleKey)

/-- The body of the loop of `finalize_and_upload` over the writers. -/
def uploadWriter (targetNames : GroupMap String) (entry : PartitionTupleKey × codec.Writer) :
    UploadProgram Unit :=
  match targetNames.lookup entry.1 with
  | none => .fail (.error (.schemaMismatch
      ("no target_name registered for partition tuple key " ++ toString entry.1)))
  | some name => do
    let bytes ← Program.ofExcept (FdwResult.lift (codec.finish entry.2))
    upload name bytes

/-- `finalize_and_upload`. -/
def finalizeAndUpload (s : InsertState codec.Writer) : UploadProgram Unit := do
  let s ← Program.ofExcept (flushGroups codec bytesWritten target iter s)
  (s.sortedWriters codec).forM (uploadWriter codec s.targetNames)

/-- A whole statement: `exec_foreign_insert` for each tuple, and `finalize_and_upload`. -/
def insertProgram (inputs : List (Tuple × Stamp)) : UploadProgram Unit := do
  let s ← Program.ofExcept
    (inputs.foldlM (execForeignInsert codec bytesWritten formatPgDays target iter) .initial)
  finalizeAndUpload codec bytesWritten target iter s

/-- The uploads come after all that is done without a request. -/
theorem insertProgram_eq (inputs : List (Tuple × Stamp)) :
    insertProgram codec bytesWritten formatPgDays target iter inputs =
      Program.ofExcept (collectGroups codec bytesWritten formatPgDays target iter inputs) >>=
        fun s => (s.sortedWriters codec).forM (uploadWriter codec s.targetNames) := by
  rw [insertProgram, collectGroups]
  cases inputs.foldlM (execForeignInsert codec bytesWritten formatPgDays target iter) .initial with
  | error e => rfl
  | ok s => rfl

end Program

/-! ### The uploads -/

/-- The container after the uploads `done`: a blob has the content of its last upload, and one that
was not uploaded is as it was. -/
structure Uploaded (s₀ : BlobStore) (done : List (String × Bytes)) (s : BlobStore) : Prop where
  content : ∀ name, (s.blobs name).map Version.body =
    (done.reverse.lookup name).or ((s₀.blobs name).map Version.body)
  kept : ∀ name, name ∉ done.map Prod.fst → s.blobs name = s₀.blobs name

section Uploaded

variable {s₀ s : BlobStore} {done : List (String × Bytes)}

theorem Uploaded.start : Uploaded s₀ [] s₀ where
  content _ := rfl
  kept _ _ := rfl

/-- One more upload. -/
theorem Uploaded.put (h : Uploaded s₀ done s) (name etag : String) (body : Bytes) :
    Uploaded s₀ (done ++ [(name, body)]) (s.write name ⟨etag, body⟩) where
  content n := by
    rw [List.reverse_append, List.reverse_singleton, List.singleton_append, List.lookup_cons]
    by_cases hn : n = name
    · simp [BlobStore.write, hn]
    · have hne : (n == name) = false := by simpa using hn
      rw [hne, ← h.content n]
      exact congrArg _ (Function.update_of_ne hn _ _)
  kept n hn := by
    rw [List.map_append, List.mem_append, not_or] at hn
    exact (Function.update_of_ne (by simpa using hn.2) _ _).trans (h.kept n hn.1)

/-- The blob of an upload, when no other upload has its name. -/
theorem Uploaded.body_eq (h : Uploaded s₀ done s) (hnodup : (done.map Prod.fst).Nodup)
    {blob : String × Bytes} (hblob : blob ∈ done) :
    (s.blobs blob.1).map Version.body = some blob.2 := by
  have hreverse : (done.reverse.map Prod.fst).Nodup := by
    rwa [List.map_reverse, List.nodup_reverse]
  rw [h.content, lookup_eq_some_of_mem hreverse (List.mem_reverse.mpr hblob)]
  rfl

end Uploaded

section Effect

variable {codec : ParquetCodec} {bytesWritten : codec.Writer → ℕ}
  {formatPgDays : Int32 → Option String} {target : InsertTarget}
  {iter : List PartitionTupleKey → List PartitionTupleKey} {inputs : List (Tuple × Stamp)}
  {routed : List (PartitionTupleKey × ArrowRow)} {t : InsertState codec.Writer} {s₀ s : BlobStore}
  {es : List UploadEvent}

variable (codec formatPgDays target inputs) in
/-- The uploads of a statement at some point: the blobs of the first groups, in order. -/
structure UploadedGroups (s₀ s : BlobStore) (order : List PartitionTupleKey)
    (routed : List (PartitionTupleKey × ArrowRow)) (done : List (String × Bytes)) : Prop
    extends GroupOrder formatPgDays target inputs order routed where
  blobs : List.Forall₂ (GroupBlob codec target inputs routed) (order.take done.length) done
  uploaded : Uploaded s₀ done s

/-- The uploads were asked for, and nothing else. -/
def Requested (es : List UploadEvent) (done : List (String × Bytes)) : Prop :=
  es.map Sigma.fst = done.map fun blob => .put blob.1 blob.2

theorem Requested.blobs_eq {done : List (String × Bytes)} (h : Requested es done) :
    es.map (fun e => e.1.blob) = done.map Prod.fst := by
  have hblobs := congrArg (List.map UploadOp.blob) h
  rwa [List.map_map, List.map_map] at hblobs

/-- **One group is uploaded as a whole, or not at all.** -/
theorem Ready.safe_uploadWriter (hcodec : codec.Faithful)
    (h : Ready formatPgDays target inputs routed t) {before after : List (PartitionTupleKey × codec.Writer)}
    {entry : PartitionTupleKey × codec.Writer} (hl : t.sortedWriters codec = before ++ entry :: after)
    {done : List (String × Bytes)} (hdone : before.length = done.length) (hes : Requested es done)
    (hgroups : UploadedGroups codec formatPgDays target inputs s₀ s ((t.sortedWriters codec).map Prod.fst)
      routed done) :
    Safe PutServes (fun _ _ => True)
      (fun _ s' => ∃ done, UploadedGroups codec formatPgDays target inputs s₀ s'
        ((t.sortedWriters codec).map Prod.fst) routed done)
      (uploadWriter codec t.targetNames entry) es s
      fun _ es' s' => ∃ blob, Requested es' (done ++ [blob]) ∧
        UploadedGroups codec formatPgDays target inputs s₀ s' ((t.sortedWriters codec).map Prod.fst)
          routed (done ++ [blob]) := by
  unfold uploadWriter
  cases hname : t.targetNames.lookup entry.1 with
  | none => exact ⟨_, hgroups⟩
  | some name =>
    refine safe_ofExcept_bind (fun bytes hbytes => ?_) fun _ _ => ⟨_, hgroups⟩
    refine safe_ofExcept_bind (fun _ _ => ?_) fun _ _ => ⟨_, hgroups⟩
    have hblob := h.groupBlob hcodec (by rw [hl]; simp) hname (FdwResult.lift_eq_ok.mp hbytes)
    -- the blob is that of the next group
    have hnext : ∀ etag, UploadedGroups codec formatPgDays target inputs s₀ (s.write name ⟨etag, bytes⟩)
        ((t.sortedWriters codec).map Prod.fst) routed (done ++ [(name, bytes)]) := by
      intro etag
      suffices hblobs : List.Forall₂ (GroupBlob codec target inputs routed)
          (((t.sortedWriters codec).map Prod.fst).take (done ++ [(name, bytes)]).length)
          (done ++ [(name, bytes)]) by
        exact { hgroups with
          blobs := hblobs
          uploaded := hgroups.uploaded.put name etag bytes }
      have htake : ((t.sortedWriters codec).map Prod.fst).take (done ++ [(name, bytes)]).length =
          ((t.sortedWriters codec).map Prod.fst).take done.length ++ [entry.1] := by
        have hkeys : (t.sortedWriters codec).map Prod.fst =
            (before.map Prod.fst ++ [entry.1]) ++ after.map Prod.fst := by simp [hl]
        rw [hkeys, List.take_left' (by simp [hdone]), List.append_assoc, List.take_left' (by simp [hdone])]
      rw [htake]
      exact List.rel_append hgroups.blobs (.cons hblob .nil)
    refine safe_call_bind trivial fun reply s' hserves => ?_
    cases hserves with
    | put =>
      refine safe_ofExcept (fun _ _ => ⟨(name, bytes), ?_, hnext _⟩) fun _ _ => ⟨_, hnext _⟩
      rw [Requested, List.map_append, List.map_append, hes]
      rfl
    | unserved hfailed =>
      refine safe_ofExcept (fun _ hok => ?_) fun _ _ => ⟨_, hgroups⟩
      cases reply with
      | ok a => cases hfailed
      | _ => cases hok

/-- The loop over the writers. -/
theorem Ready.safe_uploads (hcodec : codec.Faithful) (h : Ready formatPgDays target inputs routed t) :
    Safe PutServes (fun _ _ => True)
      (fun _ s => ∃ done, UploadedGroups codec formatPgDays target inputs s₀ s
        ((t.sortedWriters codec).map Prod.fst) routed done)
      ((t.sortedWriters codec).forM (uploadWriter codec t.targetNames)) [] s₀
      fun _ es s => ∃ done, UploadedGroups codec formatPgDays target inputs s₀ s
        ((t.sortedWriters codec).map Prod.fst) routed done ∧
        done.length = ((t.sortedWriters codec).map Prod.fst).length ∧ Requested es done := by
  -- the loop has uploaded the blobs of the writers before
  let J (before : List (PartitionTupleKey × codec.Writer)) (es : List UploadEvent) (s : BlobStore) :=
    ∃ done, before.length = done.length ∧ Requested es done ∧
      UploadedGroups codec formatPgDays target inputs s₀ s ((t.sortedWriters codec).map Prod.fst)
        routed done
  have hinit : J [] [] s₀ := ⟨[], rfl, rfl, h.groupOrder, .nil, .start⟩
  refine safe_mono (safe_forM (J := J) (fun before entry after es s hl hJ => ?_) hinit) ?_
  · obtain ⟨done, hlength, hes, hgroups⟩ := hJ
    refine safe_mono (h.safe_uploadWriter hcodec hl hlength hes hgroups) fun _ es' s' => ?_
    rintro ⟨blob, hes', hgroups'⟩
    exact ⟨done ++ [blob], by simp [hlength], hes', hgroups'⟩
  · rintro _ es s ⟨done, hlength, hes, hgroups⟩
    exact ⟨done, hgroups, by rw [List.length_map, hlength], hes⟩

variable {attrs : List Attribute} {opts : PartitionOptions} {r : Except Failure Unit}

/-- A statement fails before its uploads, or uploads the blobs of its first groups. -/
theorem insert_cases (hlayout : buildInsertLayout attrs opts = .ok target.layout)
    (hiter : ∀ keys, (iter keys).Perm keys) (hcodec : codec.Faithful)
    (exec : Exec PutServes (insertProgram codec bytesWritten formatPgDays target iter inputs) s₀ es s r) :
    (∃ e, collectGroups codec bytesWritten formatPgDays target iter inputs = .error e ∧
        s = s₀ ∧ es = [] ∧ r = .error e) ∨
      ∃ t order routed done, collectGroups codec bytesWritten formatPgDays target iter inputs = .ok t ∧
        UploadedGroups codec formatPgDays target inputs s₀ s order routed done ∧
        (r = .ok () → done.length = order.length ∧ Requested es done) := by
  rw [insertProgram_eq] at exec
  cases hcollect : collectGroups codec bytesWritten formatPgDays target iter inputs with
  | error e =>
    rw [hcollect] at exec
    cases exec with
    | fail => exact .inl ⟨e, rfl, rfl, rfl, rfl⟩
  | ok t =>
    rw [hcollect] at exec
    obtain ⟨routed, hready⟩ := exists_ready hlayout hiter hcollect
    have hexec : Exec PutServes ((t.sortedWriters codec).forM (uploadWriter codec t.targetNames)) s₀ es s
      r := exec
    obtain ⟨hok, herror⟩ := hexec.safe (hready.safe_uploads hcodec)
    refine .inr ⟨t, (t.sortedWriters codec).map Prod.fst, routed, ?_⟩
    cases r with
    | ok a =>
      obtain ⟨done, hgroups, hall⟩ := hok a rfl
      exact ⟨done, rfl, hgroups, fun _ => hall⟩
    | error e =>
      obtain ⟨done, hgroups⟩ := herror e rfl
      exact ⟨done, rfl, hgroups, nofun⟩

/-- **Whatever becomes of an INSERT, it has uploaded the blobs of its first groups, each with all its
rows.**

The statement runs alone; the service may refuse or lose any of its requests and replies.  When a
tuple or a flush fails, nothing was asked for and nothing has changed.  Otherwise the groups have an
order, that of their keys, the blobs of the first so many of them are in the container, each with
the rows of all tuples of its group, and no other blob was touched; when the statement returns, they
are all groups, and one PUT for each of them is all that was asked for. -/
theorem insert_effect (hlayout : buildInsertLayout attrs opts = .ok target.layout)
    (hiter : ∀ keys, (iter keys).Perm keys) (hcodec : codec.Faithful)
    (exec : Exec PutServes (insertProgram codec bytesWritten formatPgDays target iter inputs) s₀ es s r) :
    (∀ e, collectGroups codec bytesWritten formatPgDays target iter inputs = .error e →
        s = s₀ ∧ es = [] ∧ r = .error e) ∧
      ∀ t, collectGroups codec bytesWritten formatPgDays target iter inputs = .ok t →
        ∃ order routed done, UploadedGroups codec formatPgDays target inputs s₀ s order routed done ∧
          (r = .ok () → done.length = order.length ∧ Requested es done) := by
  rcases insert_cases hlayout hiter hcodec exec with
    ⟨e, hcollect, hnothing⟩ | ⟨t, order, routed, done, hcollect, huploads⟩
  · refine ⟨fun e' he' => ?_, fun t ht => ?_⟩
    · rwa [← Except.error.inj (hcollect.symm.trans he')]
    · cases hcollect.symm.trans ht
  · refine ⟨fun e he => ?_, fun _ _ => ⟨order, routed, done, huploads⟩⟩
    cases hcollect.symm.trans he

/-! ### The rows are conserved -/

variable (codec target inputs) in
/-- The blob of a partition tuple: it is in the container, and holds the rows of the tuples that have
this partition tuple, in the order of insertion. -/
structure TupleBlob (s : BlobStore) (p : List (Option Datum)) (blob : String × Bytes) : Prop where
  stored : (s.blobs blob.1).map Version.body = some blob.2
  holds : ∃ rows, codec.Holds blob.2 rows ∧
    List.Forall₂ (fun tuple row => storedRow (storageCells target.layout tuple) = .ok row)
      ((inputs.map Prod.fst).filter fun tuple => partitionTuple target.layout tuple = p) rows

variable {order : List PartitionTupleKey} {done : List (String × Bytes)}

/-- The uploaded blobs have different names. -/
theorem UploadedGroups.names
    (h : UploadedGroups codec formatPgDays target inputs s₀ s order routed done)
    (hstamps : (inputs.map fun input => input.2.file).Nodup) : (done.map Prod.fst).Nodup :=
  h.nodup_names hstamps (h.nodup.sublist (List.take_sublist _ _)) h.blobs

/-- **INSERT conserves the rows.**  A statement that returns has uploaded one blob for each partition
tuple that occurred, by one PUT, and touched no other blob; the blob holds the rows of the tuples with
that partition tuple, in the order of insertion.  Assumed of chrono: days that differ have texts that
differ; of the names: no two generated files share one; and of the parquet crate: a file is read back
as the rows that were written. -/
theorem insert_conserves_rows (hlayout : buildInsertLayout attrs opts = .ok target.layout)
    (hiter : ∀ keys, (iter keys).Perm keys) (hcodec : codec.Faithful)
    (hdates : ∀ v w text, formatPgDays v = some text → formatPgDays w = some text → v = w)
    (hstamps : (inputs.map fun input => input.2.file).Nodup)
    (exec : Exec PutServes (insertProgram codec bytesWritten formatPgDays target iter inputs) s₀ es s
      (.ok ())) :
    ∃ (tuples : List (List (Option Datum))) (uploads : List (String × Bytes)), tuples.Nodup ∧
      (∀ p, p ∈ tuples ↔ ∃ input ∈ inputs, partitionTuple target.layout input.1 = p) ∧
      (uploads.map Prod.fst).Nodup ∧ Requested es uploads ∧
      (∀ name, name ∉ uploads.map Prod.fst → s.blobs name = s₀.blobs name) ∧
      List.Forall₂ (TupleBlob codec target inputs s) tuples uploads := by
  obtain ⟨e, -, -, -, hr⟩ | ⟨t, order, routed, uploads, -, hgroups, hall⟩ :=
    insert_cases hlayout hiter hcodec exec
  · cases hr
  obtain ⟨hlength, hes⟩ := hall rfl
  -- the partition tuple of a group, from a tuple that was routed to it
  have hmember : ∀ key ∈ order, ∃ p, ∃ input ∈ inputs, ∃ row,
      appendSlot formatPgDays target.layout input.1 = .ok (key, row) ∧
        partitionTuple target.layout input.1 = p := by
    intro key hkey
    obtain ⟨⟨_, row⟩, hr, rfl⟩ := List.mem_map.mp ((hgroups.mem_iff key).mp hkey)
    obtain ⟨input, hinput, hslot⟩ := forall₂_exists_of_mem hgroups.routed_eq.flip hr
    exact ⟨_, input, hinput, row, hslot, rfl⟩
  choose! tupleOf htupleOf using hmember
  have hgroup : ∀ key ∈ order, ∀ tuple r, appendSlot formatPgDays target.layout tuple = .ok r →
      (partitionTuple target.layout tuple = tupleOf key ↔ r.1 = key) := by
    intro key hkey tuple r hr
    obtain ⟨input, -, row, hslot, hp⟩ := htupleOf key hkey
    have hr' : appendSlot formatPgDays target.layout tuple = .ok (r.1, r.2) := hr
    rw [← hp, ← appendSlot_key_eq_iff hdates hr' hslot]
  refine ⟨order.map tupleOf, uploads, hgroups.nodup.map_on fun key hkey key' hkey' hsame => ?_,
    fun p => ?_, hgroups.names hstamps, hes, hgroups.uploaded.kept, ?_⟩
  · obtain ⟨input, -, row, hslot, hp⟩ := htupleOf key hkey
    exact (hgroup key' hkey' input.1 (key, row) hslot).mp (hp.trans hsame)
  · rw [List.mem_map]
    constructor
    · rintro ⟨key, hkey, rfl⟩
      obtain ⟨input, hinput, row, -, hp⟩ := htupleOf key hkey
      exact ⟨input, hinput, hp⟩
    · rintro ⟨input, hinput, rfl⟩
      obtain ⟨i, hi⟩ := List.getElem?_of_mem hinput
      obtain ⟨r, hr, hslot⟩ := forall₂_getElem? hgroups.routed_eq hi
      have hkey : r.1 ∈ order := (hgroups.mem_iff r.1).mpr (List.mem_map_of_mem (List.mem_of_getElem? hr))
      exact ⟨r.1, hkey, ((hgroup r.1 hkey input.1 r hslot).mpr rfl).symm⟩
  · have hblobs := hgroups.blobs
    rw [hlength, List.take_length] at hblobs
    have hmem := ((List.forall₂_and_left _ _).mpr ⟨fun blob hblob => hblob, hblobs.flip⟩).flip
    rw [List.forall₂_map_left_iff]
    refine ((List.forall₂_and_left _ _).mpr ⟨hgroup, hmem⟩).imp ?_
    rintro key blob ⟨hkey, hmem, hblob⟩
    exact ⟨hgroups.uploaded.body_eq (hgroups.names hstamps) hmem, routedRows key routed, hblob.holds,
      hgroups.routedRows_stored hkey⟩

end Effect

/-! ### Three tuples of two regions -/

/-- A table that is partitioned by region.  A scan can read the flags, since they stand before the
partition column. -/
def flagAttributes : List Attribute :=
  [⟨"flag", boolOid, false, false⟩, ⟨"region", textOid, false, false⟩]

def flagTarget : InsertTarget where
  layout := ⟨[⟨"flag", .boolean, true⟩], [boolOid, textOid], [1]⟩
  compression := .snappy
  partitionKeysDecl := [("region", .text)]
  basePrefix := "data"
  legacySingleTarget := none

/-- Stamps that differ in the second. -/
def stampAt (second : Fin 10) : Stamp where
  ts := "20240105T10150" ++ toString second.val ++ ".000Z"
  id := "0b9f6a2e-4c1d-4e8a-9f37-1d2c3b4a5e6f"
  plain := List.all_eq_true.mp (by decide +revert +kernel)

def flagTuples : List (Tuple × Stamp) :=
  [([some (.bool true), some (.text "eu")], stampAt 0),
    ([some (.bool false), some (.text "us")], stampAt 1),
    ([some (.bool false), some (.text "eu")], stampAt 2)]

/-- The blobs of the two groups. -/
def euBlob : String := "data/region=eu/" ++ (stampAt 0).file

def usBlob : String := "data/region=us/" ++ (stampAt 1).file

/-- A container with one blob of the table. -/
def regionStore : BlobStore := .holding [("data/region=eu/old.parquet", ⟨"0x1", [1]⟩)]

/-- The container after the uploads. -/
def regionsUploaded : BlobStore :=
  (regionStore.write euBlob ⟨"0x2", [1, 0]⟩).write usBlob ⟨"0x3", [0]⟩

/-- The statement. -/
def insertRegions : UploadProgram Unit :=
  insertProgram flagCodec List.length (fun _ => none) flagTarget id flagTuples

/-- It uploads the two groups, and what it returns is what the second upload says. -/
theorem insertRegions_eq : ∃ next next',
    insertRegions = .request (.put euBlob [1, 0]) next ∧
      next (.ok ()) = .request (.put usBlob [0]) next' ∧
      next' (.ok ()) = .ret () ∧ ∀ msg, next' (.failed msg) = .fail (.error (.azure msg)) :=
  ⟨_, _, rfl, rfl, rfl, fun _ => rfl⟩

theorem region_layout : buildInsertLayout flagAttributes ⟨["region"], [("region", .text)],
    .cons (by decide) .nil⟩ = .ok flagTarget.layout := by decide

theorem put_euBlob : PutServes regionStore ⟨.put euBlob [1, 0], .ok ()⟩
    (regionStore.write euBlob ⟨"0x2", [1, 0]⟩) :=
  .put (by decide) .ok

/-- The second upload is refused: the blob of the first group is there. -/
theorem second_region_refused : ∃ es, Exec PutServes insertRegions regionStore es
      (regionStore.write euBlob ⟨"0x2", [1, 0]⟩) (.error (.error (.azure "503 Server Busy"))) ∧
    ∃ order routed done, UploadedGroups flagCodec (fun _ => none) flagTarget flagTuples regionStore
      (regionStore.write euBlob ⟨"0x2", [1, 0]⟩) order routed done := by
  obtain ⟨next, next', hfirst, hsecond, -, hfailed⟩ := insertRegions_eq
  have exec : Exec PutServes insertRegions regionStore
      [⟨.put euBlob [1, 0], .ok ()⟩, ⟨.put usBlob [0], .failed "503 Server Busy"⟩]
      (regionStore.write euBlob ⟨"0x2", [1, 0]⟩) (.error (.error (.azure "503 Server Busy"))) := by
    rw [hfirst]
    refine .request put_euBlob ?_
    rw [hsecond]
    refine .request (.unserved rfl) ?_
    rw [hfailed]
    exact .fail
  obtain ⟨-, huploads⟩ := insert_effect region_layout (fun _ => .rfl) flagCodec_faithful exec
  obtain ⟨order, routed, done, hgroups, -⟩ := huploads _ rfl
  exact ⟨_, exec, order, routed, done, hgroups⟩

theorem regions_uploaded : Exec PutServes insertRegions regionStore
    [⟨.put euBlob [1, 0], .ok ()⟩, ⟨.put usBlob [0], .ok ()⟩] regionsUploaded (.ok ()) := by
  obtain ⟨next, next', hfirst, hsecond, hdone, -⟩ := insertRegions_eq
  have hput : PutServes (regionStore.write euBlob ⟨"0x2", [1, 0]⟩) ⟨.put usBlob [0], .ok ()⟩
      regionsUploaded := .put (by decide) .ok
  rw [hfirst]
  refine .request put_euBlob ?_
  rw [hsecond]
  refine .request hput ?_
  rw [hdone]
  exact .ret

/-- Both uploads are served: the blob of `eu` holds the first and the third tuple. -/
theorem two_regions_inserted :
    Exec PutServes insertRegions regionStore
      [⟨.put euBlob [1, 0], .ok ()⟩, ⟨.put usBlob [0], .ok ()⟩] regionsUploaded (.ok ()) ∧
    ∃ (tuples : List (List (Option Datum))) (uploads : List (String × Bytes)), tuples.Nodup ∧
      (∀ p, p ∈ tuples ↔ ∃ input ∈ flagTuples, partitionTuple flagTarget.layout input.1 = p) ∧
      uploads = [(euBlob, [1, 0]), (usBlob, [0])] ∧
      List.Forall₂ (TupleBlob flagCodec flagTarget flagTuples regionsUploaded) tuples uploads := by
  obtain ⟨tuples, uploads, hnodup, hmem, -, hes, -, hblobs⟩ := insert_conserves_rows region_layout
    (fun _ => .rfl) flagCodec_faithful (by simp) (by decide) regions_uploaded
  have hputs : Function.Injective fun blob : String × Bytes => UploadOp.put blob.1 blob.2 := by
    rintro ⟨name, body⟩ ⟨name', body'⟩ h
    obtain ⟨rfl, rfl⟩ := UploadOp.put.inj h
    rfl
  have huploads : [(euBlob, [1, 0]), (usBlob, [0])] = uploads := List.map_injective_iff.mpr hputs hes
  exact ⟨regions_uploaded, tuples, uploads, hnodup, hmem, huploads.symm, hblobs⟩

end ParquetAzureFdw
