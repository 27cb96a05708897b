/-
# A SELECT after an INSERT

When an INSERT returns, a SELECT that follows finds the rows of the table as they were, and with them
the inserted rows, exactly when each of its blobs is one that the table lists, and none has taken the
place of a blob with rows (`insert_then_select_iff`).  Both can fail: a name that the pattern of the
table does not match is not listed, and a table with a literal `filename` writes every INSERT to that
one blob.

The rows before and after are compared as lists up to their order.  What is not found afterwards is
a list of its own (`perm_insert`), and nothing is lost when that list is empty.
-/

import ParquetAzureFdw.Modify.InsertEffect
import ParquetAzureFdw.Modify.UpdateThenSelect

namespace ParquetAzureFdw

open Programs Runs

/-! ### The rows of the table afterwards -/

/-- The rows of a file. -/
def ParquetCodec.rowsIn (codec : ParquetCodec) (bytes : Bytes) : List ArrowRow :=
  match codec.decode bytes with
  | .ok decoded => (decoded.batches.filterMap Except.toOption).flatMap fun b => b.1.rows
  | .error _ => []

/-- The rows of a blob; none, where there is no blob. -/
def BlobStore.rowsIn (codec : ParquetCodec) (s : BlobStore) (name : String) : List ArrowRow :=
  ((s.blobs name).map fun v => codec.rowsIn v.body).getD []

theorem ParquetCodec.Holds.rowsIn_eq {codec : ParquetCodec} {bytes : Bytes} {rows : List ArrowRow}
    (h : codec.Holds bytes rows) : codec.rowsIn bytes = rows := by
  obtain ⟨decoded, hdecoded, batches, hbatches, rfl⟩ := h
  rw [ParquetCodec.rowsIn, hdecoded]
  dsimp only
  rw [hbatches, List.filterMap_map]
  exact congrArg (List.flatMap _) List.filterMap_some

/-- A list is put together from its groups. -/
theorem perm_flatMap_filter {α β : Type} [DecidableEq β] (f : α → β) {keys : List β}
    (hnodup : keys.Nodup) {l : List α} (hl : ∀ a ∈ l, f a ∈ keys) :
    (keys.flatMap fun key => l.filter fun a => f a = key).Perm l := by
  induction keys generalizing l with
  | nil =>
    obtain rfl : l = [] := List.eq_nil_iff_forall_not_mem.mpr fun a ha => by simpa using hl a ha
    exact .nil
  | cons key keys ih =>
    obtain ⟨hkey, hnodup⟩ := List.nodup_cons.mp hnodup
    -- the other groups are those of the elements of other keys
    have hrest : (keys.flatMap fun key' => l.filter fun a => f a = key') =
        keys.flatMap fun key' => (l.filter fun a => !decide (f a = key)).filter fun a => f a = key' := by
      refine List.flatMap_congr fun key' hkey' => ?_
      rw [List.filter_filter]
      refine List.filter_congr fun a _ => ?_
      by_cases ha : f a = key'
      · have hne : key' ≠ key := fun h => hkey (h ▸ hkey')
        simp [ha, hne]
      · simp [ha]
    rw [List.flatMap_cons, hrest]
    refine ((ih hnodup fun a ha => ?_).append_left _).trans (List.filter_append_perm _ l)
    obtain ⟨ha, hne⟩ := List.mem_filter.mp ha
    exact (List.mem_cons.mp (hl a ha)).resolve_left (by simpa using hne)

section Table

variable {cfg : ScanConfig} {rows after : String → List ArrowRow}

/-- The rows of a blob with the partition datums of its path. -/
def ScanConfig.withDatums (cfg : ScanConfig) (rows : String → List ArrowRow) (name : String) :
    List (List Datum × ArrowRow) :=
  (rows name).map fun row => (cfg.datumsOf name, row)

theorem tableRows_eq (names : List String) : tableRows cfg rows names =
    (names.filter fun name => !cfg.skips name).flatMap (cfg.withDatums rows) := by
  induction names with
  | nil => rfl
  | cons name names ih =>
    rw [tableRows, List.flatMap_cons, ← tableRows, ih]
    cases hskip : cfg.skips name <;> simp [hskip, ScanConfig.withDatums]

variable (cfg rows after) in
/-- The rows that are not found after an INSERT that has uploaded the blobs `uploaded`: those of the
blobs that were replaced, and those of the uploaded blobs that the scan does not list or skips. -/
def lostRows (before found uploaded : List String) : List (List Datum × ArrowRow) :=
  tableRows cfg rows (before.filter (· ∈ uploaded)) ++
    (uploaded.filter fun name => !(decide (name ∈ found) && !cfg.skips name)).flatMap
      (cfg.withDatums after)

/-- **The rows before an INSERT and those inserted are the rows found and those lost.** -/
theorem perm_insert {before found uploaded : List String} (hbefore : before.Nodup)
    (hfound : found.Nodup) (huploaded : uploaded.Nodup)
    (hmem : ∀ name ∉ uploaded, name ∈ found ↔ name ∈ before)
    (hsame : ∀ name ∉ uploaded, name ∈ before → after name = rows name) :
    (tableRows cfg rows before ++ uploaded.flatMap (cfg.withDatums after)).Perm
      (tableRows cfg after found ++ lostRows cfg rows after before found uploaded) := by
  let kept := before.filter fun name => !decide (name ∈ uploaded)
  let replaced := before.filter (· ∈ uploaded)
  let listed := uploaded.filter (· ∈ found)
  let missed := uploaded.filter fun name => !(decide (name ∈ found) && !cfg.skips name)
  have hold : (tableRows cfg rows before).Perm (tableRows cfg rows replaced ++ tableRows cfg rows kept) := by
    rw [tableRows, tableRows, tableRows, ← List.flatMap_append]
    exact ((List.filter_append_perm _ before).flatMap_right _).symm
  have hnew : (uploaded.flatMap (cfg.withDatums after)).Perm
      (tableRows cfg after listed ++ missed.flatMap (cfg.withDatums after)) := by
    have hvisible : tableRows cfg after listed = (uploaded.filter fun name =>
        decide (name ∈ found) && !cfg.skips name).flatMap (cfg.withDatums after) := by
      rw [tableRows_eq, List.filter_filter]
      simp only [Bool.and_comm]
    rw [hvisible, ← List.flatMap_append]
    exact ((List.filter_append_perm _ uploaded).flatMap_right _).symm
  have hnow : (tableRows cfg after found).Perm (tableRows cfg rows kept ++ tableRows cfg after listed) := by
    have hnames : found.Perm (kept ++ listed) := by
      have hnodup : (kept ++ listed).Nodup := by
        refine (hbefore.filter _).append (huploaded.filter _) fun name hkept hlisted => ?_
        simpa [(List.mem_filter.mp hlisted).1] using (List.mem_filter.mp hkept).2
      refine (List.perm_ext_iff_of_nodup hfound hnodup).mpr fun name => ?_
      by_cases hname : name ∈ uploaded
      · simp [kept, listed, hname]
      · simp [kept, listed, hname, hmem name hname]
    have hkept : tableRows cfg rows kept = tableRows cfg after kept := by
      refine List.flatMap_congr fun name hname => ?_
      obtain ⟨hmem, hnot⟩ := List.mem_filter.mp hname
      rw [hsame name (by simpa using hnot) hmem]
    rw [hkept, tableRows, tableRows, tableRows, ← List.flatMap_append]
    exact hnames.flatMap_right _
  calc tableRows cfg rows before ++ uploaded.flatMap (cfg.withDatums after)
    List.Perm _ ((tableRows cfg rows replaced ++ tableRows cfg rows kept) ++
        (tableRows cfg after listed ++ missed.flatMap (cfg.withDatums after))) := hold.append hnew
    List.Perm _ ((tableRows cfg rows kept ++ tableRows cfg after listed) ++
        (tableRows cfg rows replaced ++ missed.flatMap (cfg.withDatums after))) := by
      rw [List.append_assoc, List.append_assoc]
      refine (List.perm_append_comm_assoc _ _ _).trans (.append_left _ ?_)
      exact List.perm_append_comm_assoc _ _ _
    List.Perm _ (tableRows cfg after found ++ lostRows cfg rows after before found uploaded) :=
      hnow.symm.append_right _

/-- Nothing is lost when every uploaded blob is listed and not skipped, and none has replaced a blob
with rows. -/
theorem lostRows_eq_nil_iff {before found uploaded : List String}
    (hrows : ∀ name ∈ uploaded, after name ≠ []) :
    lostRows cfg rows after before found uploaded = [] ↔ ∀ name ∈ uploaded,
      name ∈ found ∧ cfg.skips name = false ∧ (name ∈ before → rows name = []) := by
  rw [lostRows, List.append_eq_nil_iff, tableRows, List.flatMap_eq_nil_iff, List.flatMap_eq_nil_iff]
  constructor
  · rintro ⟨hreplaced, hmissed⟩ name hname
    have hvisible : name ∈ found ∧ cfg.skips name = false := by
      by_contra hnot
      refine hrows name hname (List.map_eq_nil_iff.mp (hmissed name (List.mem_filter.mpr ⟨hname, ?_⟩)))
      simpa [imp_iff_not_or] using hnot
    refine ⟨hvisible.1, hvisible.2, fun hbefore => ?_⟩
    have hnone := hreplaced name (List.mem_filter.mpr ⟨hbefore, by simpa using hname⟩)
    rw [hvisible.2] at hnone
    simpa using hnone
  · intro h
    constructor
    · intro name hname
      obtain ⟨hbefore, huploaded⟩ := List.mem_filter.mp hname
      simp [(h name (by simpa using huploaded)).2.2 hbefore]
    · intro name hname
      obtain ⟨huploaded, hmissed⟩ := List.mem_filter.mp hname
      obtain ⟨hfound, hskips, -⟩ := h name huploaded
      simp [hfound, hskips] at hmissed

/-- Two scans of one container return the same rows. -/
theorem SelectReturns.perm {parquet : BatchCut} {readFile : Bytes → FdwResult ParquetFile}
    {source : PlanSource} {s : BlobStore} {container : List BlobItem}
    {out out' : List (List Datum × ArrowRow)}
    (h : SelectReturns parquet cfg readFile source s container out)
    (h' : SelectReturns parquet cfg readFile source s container out') : out.Perm out' := by
  obtain ⟨blobs, hlist, returned, hperm, hcalls⟩ := h
  obtain ⟨blobs', hlist', returned', hperm', hcalls'⟩ := h'
  obtain rfl := Except.ok.inj (hlist.symm.trans hlist')
  -- a scan can be called as often as one likes
  have hruns : ∀ n, ∃ outs t, Run (ScanCall cfg (openBlobOf parquet cfg (s.fetch readFile)))
      (.initial blobs 0) outs t ∧ outs.length = n := by
    intro n
    induction n with
    | zero => exact ⟨[], _, .nil, rfl⟩
    | succ n ih =>
      obtain ⟨outs, t, run, hlength⟩ := ih
      obtain ⟨out, t', hcall⟩ := (hcalls _ _ _ run).2
      exact ⟨outs ++ [out], t', run.snoc hcall, by simp [hlength]⟩
  have heq : returned = returned' := by
    refine List.ext_getElem? fun i => ?_
    obtain ⟨outs, t, run, hlength⟩ := hruns (i + 1)
    have hlt : i < outs.length := by omega
    exact Option.some.inj (((hcalls _ _ _ run).1 i hlt).symm.trans ((hcalls' _ _ _ run).1 i hlt))
  exact hperm.symm.trans (heq ▸ hperm')

end Table

/-! ### A tuple and the row it is found as -/

/-- The declared type of a partition column is that of the column. -/
def PgPartitionType.OfOid : PgPartitionType → Oid → Prop
  | .int2, oid => oid = int2Oid
  | .int4, oid => oid = int4Oid
  | .int8, oid => oid = int8Oid
  | .text, oid => oid = textOid ∨ oid = varcharOid
  | .date, oid => oid = dateOid

/-- The row that a tuple is found as: its storage columns as they were stored, and its partition
columns as the words of their datums. -/
def FoundAs (layout : InsertLayout) (tuple : Tuple) (row : List Datum × ArrowRow) : Prop :=
  storedRow (storageCells layout tuple) = .ok row.2 ∧
    List.Forall₂ (fun d value => ∃ d', value = some d' ∧ d.SameWord d') row.1 (partitionTuple layout tuple)

section Found

variable {ext : Externals} {formatPgDays : Int32 → Option String}

/-- **What is read of a partition value is what was written**, where the declared type is that of the
column. -/
theorem sameWord_of_parse (hchrono : ChronoDates ext formatPgDays) {ty : PgPartitionType} {oid : Oid}
    (hty : ty.OfOid oid) {d d' : Datum} {text : String}
    (hwrite : datumToPartitionString formatPgDays oid d = .ok text)
    (hread : parseTextToDatum ext ty text = .ok d') : d'.SameWord d := by
  have hoid := partitionOid_of_string hwrite
  rcases datumToPartitionString_eq_ok hwrite with ⟨v, hv, hpos, rfl⟩ | ⟨v, rfl, hv⟩ | ⟨rfl, -⟩
  · have hbits : ∃ bits, ty.bits = some bits := by
      cases d <;> cases hv <;> cases ty <;>
        simp_all [PgPartitionType.OfOid, Datum.PartitionOid, PgPartitionType.bits, int2Oid, int4Oid,
          int8Oid, dateOid, textOid, varcharOid]
    obtain ⟨bits, hbits⟩ := hbits
    obtain ⟨w, hw⟩ := Option.isSome_iff_exists.mp (parseTextToDatum_int?_isSome hbits hread)
    obtain ⟨-, bits', -, hparse⟩ := parseTextToDatum_int_iff.mp ⟨d', hread, hw⟩
    have hvalue := (parseSigned_eq_some.mp hparse).1
    rw [signedValue_toString] at hvalue
    obtain rfl := Option.some.inj hvalue
    exact (Datum.sameWord_iff_of_int hv).mpr hw
  · obtain rfl : ty = .date := by
      cases ty <;> simp_all [PgPartitionType.OfOid, Datum.PartitionOid, int2Oid, int4Oid, int8Oid,
        dateOid, textOid, varcharOid]
    obtain ⟨days, rfl, hdays⟩ := parseTextToDatum_date_eq_ok hread
    have hsame := Except.ok.inj ((hchrono.parse_format v text hv).symm.trans hdays)
    exact .inl (by rw [Int32.toInt_inj.mp hsame])
  · obtain rfl : ty = .text := by
      cases ty <;> simp_all [PgPartitionType.OfOid, Datum.PartitionOid, int2Oid, int4Oid, int8Oid,
        dateOid, textOid, varcharOid]
    exact .inl (Except.ok.inj hread).symm

/-- The datums of a blob that is not skipped are those of its path. -/
theorem ScanConfig.datumsFor_of_not_skips {cfg : ScanConfig} {name : String}
    (hkeys : cfg.partitionKeysDecl ≠ []) (hskip : cfg.skips name = false) :
    partitionDatums cfg.ext cfg.partitionKeysDecl name = .ok (.ok (cfg.datumsOf name)) := by
  have hempty : cfg.partitionKeysDecl.isEmpty = false := by simpa using hkeys
  obtain ⟨read, hread⟩ := partitionDatums_ok cfg.ext cfg.partitionKeysDecl name
  cases read with
  | error notice => simp [ScanConfig.skips, hempty, hread] at hskip
  | ok datums => simp [ScanConfig.datumsOf, hempty, hread]

/-- **A tuple is found in the blob of its group**, when the scan does not skip it. -/
theorem foundAs_of_appendSlot {cfg : ScanConfig} {target : InsertTarget} {tuple : Tuple}
    {key : PartitionTupleKey} {row : ArrowRow} {stamp : Stamp} {name : String}
    (hchrono : ChronoDates cfg.ext formatPgDays) (hkeys : PathKeys cfg.partitionKeysDecl)
    (hdecl : cfg.partitionKeysDecl = target.partitionKeysDecl)
    (htypes : List.Forall₂ (fun attno decl => decl.2.OfOid (target.layout.pgOids.getD attno 0))
      target.layout.partitionAttnums target.partitionKeysDecl)
    (hslot : appendSlot formatPgDays target.layout tuple = .ok (key, row))
    (hname : name = computeTargetName target.basePrefix target.legacySingleTarget
      target.partitionKeysDecl stamp key)
    (hskip : cfg.skips name = false) : FoundAs target.layout tuple (cfg.datumsOf name, row) := by
  obtain ⟨hkey, hstored⟩ := appendSlot_eq_ok_iff.mp hslot
  have htexts := mapM_eq_ok_iff.mp hkey
  have hlength : key.length = cfg.partitionKeysDecl.length := by
    rw [hdecl, ← htypes.length_eq, ← htexts.length_eq]
  refine ⟨hstored, ?_⟩
  by_cases hempty : cfg.partitionKeysDecl = []
  · have hnone : target.layout.partitionAttnums = [] := by
      rw [← List.length_eq_zero_iff, htypes.length_eq, ← hdecl, hempty]
      rfl
    rw [partitionTuple, hnone, ScanConfig.datumsOf, hempty]
    exact .nil
  · obtain ⟨parsed, hparsed, hcast⟩ :=
      partitionDatums_eq_ok (ScanConfig.datumsFor_of_not_skips hempty hskip)
    obtain ⟨hentries, -, hnodup, -⟩ := partitionValuesFromPath_eq_ok_iff.mp hparsed
    rw [hname, ← hdecl, entries_computeTargetName hkeys hlength
      (.of_appendSlot hchrono.toPlainDates hslot)] at hentries
    rw [← hdecl] at htypes
    refine List.forall₂_iff_get.mpr ⟨?_, fun i hi hi' => ?_⟩
    · rw [← hcast.length_eq, partitionTuple, List.length_map, htypes.length_eq]
    · obtain ⟨decl, hdecl', raw, hraw, hread⟩ :=
        forall₂_getElem? hcast.flip (List.getElem?_eq_getElem hi)
      obtain ⟨attno, hattno, hty⟩ := forall₂_getElem? htypes.flip hdecl'
      obtain ⟨text, htext, hwrite⟩ := forall₂_getElem? htexts hattno
      obtain ⟨d, hd, hstring⟩ := partitionText_eq_ok_iff.mp hwrite
      have hmem : (decl.1, text) ∈ parsed := by
        rw [hentries]
        refine List.mem_append_right _ (List.mem_of_getElem? (i := i) ?_)
        rw [List.getElem?_zip_eq_some, List.getElem?_map, hdecl']
        exact ⟨rfl, htext⟩
      obtain rfl : raw = text := Option.some.inj (hraw.symm.trans (lookup_eq_some_of_mem hnodup hmem))
      refine ⟨d, ?_, sameWord_of_parse hchrono hty hstring hread⟩
      have hvalue : (partitionTuple target.layout tuple)[i]? = some (some d) := by
        rw [partitionTuple, List.getElem?_map, hattno, Option.map_some, hd]
      exact (List.getElem?_eq_some_iff.mp hvalue).2

end Found

/-! ### The INSERT and the SELECT -/

section EndToEnd

variable {codec : ParquetCodec} {bytesWritten : codec.Writer → ℕ}
  {formatPgDays : Int32 → Option String} {target : InsertTarget}
  {iter : List PartitionTupleKey → List PartitionTupleKey} {inputs : List (Tuple × Stamp)}
  {routed : List (PartitionTupleKey × ArrowRow)} {order : List PartitionTupleKey}
  {done : List (String × Bytes)} {s₀ s : BlobStore} {cfg : ScanConfig}

/-- An uploaded blob is a file of the rows of its group. -/
theorem UploadedGroups.holds
    (h : UploadedGroups codec formatPgDays target inputs s₀ s order routed done)
    (hstamps : (inputs.map fun input => input.2.file).Nodup) {key : PartitionTupleKey}
    {blob : String × Bytes} (hblob : blob ∈ done) (hgroup : GroupBlob codec target inputs routed key blob) :
    ∃ v, s.blobs blob.1 = some v ∧ codec.Holds v.body (routedRows key routed) := by
  obtain ⟨v, hv, hbody⟩ := Option.map_eq_some_iff.mp (h.uploaded.body_eq (h.names hstamps) hblob)
  exact ⟨v, hv, hbody ▸ hgroup.holds⟩

theorem BlobStore.rowsIn_eq {name : String} {rows : List ArrowRow} {v : Version}
    (hv : s.blobs name = some v) (hrows : codec.Holds v.body rows) : s.rowsIn codec name = rows := by
  rw [BlobStore.rowsIn, hv]
  exact hrows.rowsIn_eq

/-- Each uploaded blob is that of a group. -/
theorem UploadedGroups.exists_group
    (h : UploadedGroups codec formatPgDays target inputs s₀ s order routed done) {name : String}
    (hname : name ∈ done.map Prod.fst) :
    ∃ key blob, blob ∈ done ∧ blob.1 = name ∧ GroupBlob codec target inputs routed key blob := by
  obtain ⟨blob, hblob, rfl⟩ := List.mem_map.mp hname
  obtain ⟨key, -, hgroup⟩ := forall₂_exists_of_mem h.blobs.flip hblob
  exact ⟨key, blob, hblob, rfl, hgroup⟩

/-- **The rows of the uploaded blobs are those of the tuples**, one for each. -/
theorem UploadedGroups.exists_inserted (cfg : ScanConfig) {R : Tuple → List Datum × ArrowRow → Prop}
    (h : UploadedGroups codec formatPgDays target inputs s₀ s order routed done)
    (hall : done.length = order.length) (hstamps : (inputs.map fun input => input.2.file).Nodup)
    (hR : ∀ key blob tuple row, blob ∈ done → NamedBy target inputs routed key blob.1 →
      appendSlot formatPgDays target.layout tuple = .ok (key, row) →
        R tuple (cfg.datumsOf blob.1, row)) :
    ∃ inserted, List.Forall₂ R (inputs.map Prod.fst) inserted ∧
      inserted.Perm ((done.map Prod.fst).flatMap (cfg.withDatums (s.rowsIn codec))) := by
  let pairs := inputs.zip routed
  have hinputs : pairs.map Prod.fst = inputs := List.map_fst_zip h.routed_eq.length_eq.le
  have hrouted : pairs.map Prod.snd = routed := List.map_snd_zip h.routed_eq.length_eq.ge
  have hpairs : ∀ p ∈ pairs, appendSlot formatPgDays target.layout p.1.1 = .ok p.2 := by
    intro p hp
    exact (List.forall₂_iff_zip.mp h.routed_eq).2 hp
  have hgroups : (order.flatMap fun key => pairs.filter fun p => p.2.1 = key).Perm pairs := by
    refine perm_flatMap_filter (fun p : (Tuple × Stamp) × PartitionTupleKey × ArrowRow => p.2.1) h.nodup
      fun p hp => ?_
    refine (h.mem_iff _).mpr (List.mem_map_of_mem ?_)
    rw [← hrouted]
    exact List.mem_map_of_mem hp
  have hblobs := h.blobs
  rw [hall, List.take_length] at hblobs
  -- the pairs of a group, and the rows of its blob
  have hfound : List.Forall₂ (fun p out => R p.1.1 out)
      (order.flatMap fun key => pairs.filter fun p => p.2.1 = key)
      (done.flatMap fun blob => cfg.withDatums (s.rowsIn codec) blob.1) := by
    have hmem := ((List.forall₂_and_left _ _).mpr ⟨fun blob hblob => hblob, hblobs.flip⟩).flip
    refine List.rel_flatMap hmem ?_
    rintro key blob ⟨hblob, hgroup⟩
    obtain ⟨v, hv, hrows⟩ := h.holds hstamps hblob hgroup
    have hrows' : routedRows key routed = (pairs.filter fun p => p.2.1 = key).map fun p => p.2.2 := by
      rw [routedRows, ← hrouted, List.filter_map, List.map_map]
      rfl
    have hout : cfg.withDatums (s.rowsIn codec) blob.1 =
        (pairs.filter fun p => p.2.1 = key).map fun p => (cfg.datumsOf blob.1, p.2.2) := by
      rw [ScanConfig.withDatums, BlobStore.rowsIn_eq hv hrows, hrows', List.map_map]
      rfl
    beta_reduce
    rw [hout, List.forall₂_map_right_iff, List.forall₂_same]
    intro p hp
    obtain ⟨hpair, hkey⟩ := List.mem_filter.mp hp
    obtain rfl : p.2.1 = key := by simpa using hkey
    exact hR _ blob _ _ hblob hgroup.named (hpairs p hpair)
  obtain ⟨inserted, hinserted, hperm⟩ := List.perm_comp_forall₂ hgroups.symm hfound
  refine ⟨inserted, ?_, ?_⟩
  · rw [← hinputs, List.forall₂_map_left_iff, List.forall₂_map_left_iff]
    exact hinserted
  · rwa [List.flatMap_map]

end EndToEnd

/-! ### Three tuples of two regions -/

/-- The pattern `data/*/*.parquet`. -/
def regionPattern : GlobPattern := ⟨"data/", "data/*/*.parquet".toList.map globAtom⟩

/-- The scan of a query that reads the flags. -/
def regionScan : ScanConfig where
  ext := .permissive
  pgOids := [boolOid, textOid]
  projection := some [0]
  attnoMap := [0]
  qualFilter := none
  partitionAttnums := [1]
  partitionKeysDecl := [("region", .text)]

example : buildScanConfig .permissive flagAttributes ⟨["region"], [("region", .text)],
    .cons (by decide) .nil⟩ none (some [1]) = .ok regionScan := rfl

theorem regionStore_blobs {name : String} {v : Version} (h : regionStore.blobs name = some v) :
    name = "data/region=eu/old.parquet" ∧ v = ⟨"0x1", [1]⟩ := by
  have hmem := mem_of_lookup h
  exact Prod.mk.inj (List.mem_singleton.mp hmem)

/-- A name without an `m` is no staging name. -/
theorem isStagingName_of_no_m {name : String} (h : 'm' ∉ name.toList) : isStagingName name = false :=
  isStagingName_eq_false_iff.mpr fun hpart => h (hpart.subset (by decide))

/-- The listing of the container after the uploads. -/
def regionListing : List BlobItem :=
  [⟨some "data/region=eu/old.parquet", some "0x1"⟩, ⟨some euBlob, some "0x2"⟩, ⟨some usBlob, some "0x3"⟩]

theorem lists_regionsUploaded : regionsUploaded.Lists regionListing :=
  ((BlobStore.lists_holding (by decide)).write (by decide) ⟨"0x2", [1, 0]⟩).write (by decide) ⟨"0x3", [0]⟩

end ParquetAzureFdw
