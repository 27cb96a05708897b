/-
# A SELECT after a DELETE

The commit of a DELETE removes a blob that has no row left, and rewrites one that has.  A scan that
follows lists the blobs anew and returns the rows that were not deleted (`delete_then_select_iff`),
with one exception: the blob of a table with a literal `filename` is asked for by a HEAD request,
and when it was removed the scan fails instead of returning no row.

The three parts meet at the names of the blobs.  The source of the table finds those that are there
(`PlanSource.Finds`), the commit says what each of them holds (`commitPlan_effect`,
`blobLeft_of_effect`), and the scan returns what the files it opens hold (`ScanSound.calls`).
-/

import ParquetAzureFdw.Modify.DeleteCommit
import ParquetAzureFdw.Scan.Projection
import ParquetAzureFdw.Scan.Rescan

namespace ParquetAzureFdw

open Programs Runs

/-! ### The rows of a table -/

/-- The edits of a blob, by its name. -/
def ModifyPlan.editsOf (plan : ModifyPlan) (name : String) : Option BlobEdits := do
  let baseId ← plan.keys.find? fun baseId => plan.blobName baseId = some name
  plan.edits.lookup baseId

/-- The rows of a blob that the plan does not delete. -/
def ModifyPlan.remaining (plan : ModifyPlan) (name : String) (rows : List ArrowRow) : List ArrowRow :=
  match plan.editsOf name with
  | some edits => edits.remaining rows
  | none => rows

/-- The rows of a table, each with the partition datums of its blob; `rows` are those of a blob. -/
def tableRows (cfg : ScanConfig) (rows : String → List ArrowRow) (names : List String) :
    List (List Datum × ArrowRow) :=
  names.flatMap fun name =>
    if cfg.skips name then [] else (rows name).map fun row => (cfg.datumsOf name, row)

/-- The content of a row that a scan returns. -/
def ScannedRow.content {τ : Type} (r : ScannedRow τ) : List Datum × ArrowRow :=
  (r.partitionDatums, r.batch.batch.row r.row)

/-- What is read under a name; `readFile` is the parquet reader of the scan. -/
def BlobStore.fetch (readFile : Bytes → FdwResult ParquetFile) (s : BlobStore) (blob : String) :
    FdwResult ParquetFile :=
  match s.blobs blob with
  | some v => readFile v.body
  | none => .error (.azure "404 Not Found")

section Select

variable (parquet : BatchCut) (cfg : ScanConfig) (readFile : Bytes → FdwResult ParquetFile)

/-- A scan of the whole table succeeds and returns `rows`, in some order: the blobs are found, every
call of `next_row` is answered, and the calls return the rows one by one and then none. -/
def SelectReturns (source : PlanSource) (s : BlobStore) (container : List BlobItem)
    (rows : List (List Datum × ArrowRow)) : Prop :=
  ∃ blobs, source.list s container = .ok blobs ∧
    ∃ returned : List (ScannedRow String), (returned.map ScannedRow.content).Perm rows ∧
      ∀ natts outs t, Run (ScanCall cfg (openBlobOf parquet cfg (s.fetch readFile)))
          (.initial blobs natts) outs t →
        (∀ i, i < outs.length → outs[i]? = some returned[i]?) ∧
          ∃ out t', ScanCall cfg (openBlobOf parquet cfg (s.fetch readFile)) t out t'

end Select

/-! ### The stream of a whole file -/

section Stream

variable {parquet : BatchCut} {cfg : ScanConfig} {readFile : Bytes → FdwResult ParquetFile}

/-- The batches of a file. -/
def fileBatches (parquet : BatchCut) (blob : String) (file : ParquetFile) : List (FileBatch String) :=
  (placeGroups 0 file.rowGroups).flatMap fun group =>
    (parquet.cut group).map fun rows => ⟨blob, file.types, List.range file.types.length, rows⟩

/-- What the scan finds in each blob; nothing, where it cannot read it. -/
def BlobStore.fileContents (readFile : Bytes → FdwResult ParquetFile) (parquet : BatchCut)
    (s : BlobStore) (blob : String) : List (FileBatch String) :=
  match s.fetch readFile blob with
  | .ok file => fileBatches parquet blob file
  | .error _ => []

/-- The scan reads all columns of the files, in their order: the query refers to every attribute
that is stored, and these stand before the partition columns. -/
def ScanConfig.ReadsAll (cfg : ScanConfig) (readFile : Bytes → FdwResult ParquetFile) : Prop :=
  ∀ body file, readFile body = .ok file →
    projectedRoots file cfg.projection = .ok (List.range file.types.length)

theorem ScanConfig.readsAll_of_range {n : ℕ} (hprojection : cfg.projection = some (List.range n))
    (hcolumns : ∀ body file, readFile body = .ok file → file.types.length = n) :
    cfg.ReadsAll readFile := by
  intro body file hfile
  rw [hprojection, projectedRoots, projectionRoots, hcolumns body file hfile,
    if_pos fun i hi => List.mem_range.mp hi]
  refine congrArg Except.ok (List.filter_eq_self.mpr fun i hi => ?_)
  exact decide_eq_true hi

/-- All columns of all row groups. -/
theorem openStream_all {projection : Option (List ℕ)} (blob : String) {file : ParquetFile}
    (hroots : projectedRoots file projection = .ok (List.range file.types.length)) :
    openStream parquet blob projection none file = .ok ((fileBatches parquet blob file).map .ok) := by
  refine except_bind_eq_ok.mpr ⟨_, hroots, except_bind_eq_ok.mpr ⟨[], rfl, ?_⟩⟩
  rw [fileBatches, List.map_flatMap]
  refine congrArg Except.ok (List.flatMap_congr fun group _ => ?_)
  rw [List.map_map]
  rfl

theorem TypedRow.map_cell {types : List DataType} (r : TypedRow types) :
    (List.range types.length).map r.cell = r.cells := by
  refine List.ext_getElem (by simp [r.length_cells]) fun i _ hi => ?_
  simp [TypedRow.cell, List.getD_eq_getElem?_getD, List.getElem?_eq_getElem hi]

/-- What is made of the batches that groups are cut into, row by row. -/
theorem flatMap_cut {β : Type} {types : List DataType} {blob : String} {roots : List ℕ}
    {f : FileBatch String → List β} {g : PlacedRow types → β}
    (hbatch : ∀ rows, f ⟨blob, types, roots, rows⟩ = rows.map g)
    (groups : List (List (PlacedRow types))) :
    (groups.flatMap fun group => (parquet.cut group).map fun rows => ⟨blob, types, roots, rows⟩).flatMap
      f = groups.flatten.map g := by
  rw [List.flatMap_assoc, List.map_flatten, ← List.flatMap_def]
  refine List.flatMap_congr fun group _ => ?_
  rw [List.flatMap_map]
  simp only [hbatch]
  rw [List.flatMap_def, ← List.map_flatten, parquet.flatten_cut]

/-- The rows of the batches are those of the file. -/
theorem rows_fileBatches (blob : String) (file : ParquetFile) :
    (fileBatches parquet blob file).flatMap (fun b => b.batch.rows) = file.rows.map TypedRow.cells := by
  have hbatch : ∀ rows : List (PlacedRow file.types),
      (FileBatch.batch (⟨blob, file.types, List.range file.types.length, rows⟩ : FileBatch String)).rows =
        rows.map fun r => r.1.cells := by
    intro rows
    rw [FileBatch.batch, RecordBatch.rows_ofRows, List.map_map]
    exact List.map_congr_left fun r _ => r.1.map_cell
  rw [fileBatches, flatMap_cut hbatch, flatten_placeGroups, ← ParquetFile.rows]
  exact (List.map_map (g := TypedRow.cells) (f := Prod.fst)).symm.trans (by rw [List.zipIdx_map_fst])

/-- What a scan returns of a blob. -/
theorem content_blobSequence {contents : String → List (FileBatch String)} (blob : ListedBlob) :
    (blobSequence cfg contents blob).map ScannedRow.content =
      if cfg.skips blob.1 then []
      else ((contents blob.1).flatMap fun b => b.batch.rows).map fun row => (cfg.datumsOf blob.1, row) := by
  refine (map_blobSequence (fun datums b row => (datums, b.batch.row row)) blob).trans ?_
  rw [List.map_flatMap]
  simp only [RecordBatch.rows, List.map_map, Function.comp_def]

end Stream

/-! ### The blobs after the commit -/

section Commit

variable {codec : ParquetCodec} {plan : ModifyPlan} {s s' : BlobStore} {rows : String → List ArrowRow}

theorem ModifyPlan.exists_of_editsOf {name : String} {edits : BlobEdits}
    (h : plan.editsOf name = some edits) :
    ∃ baseId ∈ plan.keys, plan.blobName baseId = some name ∧ plan.edits.lookup baseId = some edits := by
  obtain ⟨baseId, hfind, hlookup⟩ := Option.bind_eq_some_iff.mp h
  exact ⟨baseId, List.mem_of_find?_eq_some hfind, by simpa using List.find?_some hfind, hlookup⟩

/-- A blob without edits is not named by a key of the plan. -/
theorem ModifyPlan.blobName_ne_of_editsOf {name : String} (h : plan.editsOf name = none) :
    ∀ baseId ∈ plan.keys, plan.blobName baseId ≠ some name := by
  intro baseId hbaseId hname
  obtain ⟨found, hfound⟩ : ∃ found, plan.keys.find? (fun baseId => plan.blobName baseId = some name) =
      some found := by
    rw [← Option.isSome_iff_exists, List.find?_isSome]
    exact ⟨baseId, hbaseId, by simpa using hname⟩
  have hlookup : plan.edits.lookup found = none := by
    rw [ModifyPlan.editsOf, hfound] at h
    exact h
  have hmem : found ∈ plan.edits.map Prod.fst :=
    (List.mem_insertionSort _).mp (List.mem_of_find?_eq_some hfound)
  obtain ⟨⟨key, edits⟩, he, rfl⟩ := List.mem_map.mp hmem
  have hne := List.lookup_eq_none_iff.mp hlookup (key, edits) he
  simp at hne

/-- What a commit leaves of a blob: nothing, if the blob was edited and has no row left, and otherwise
a file of the rows that are left. -/
inductive BlobLeft (codec : ParquetCodec) (s' : BlobStore) (name : String) (unedited : Prop)
    (left : List ArrowRow) : Prop
  | gone (habsent : s'.blobs name = none) (hedited : ¬ unedited) (hempty : left = [])
  | kept {v : Version} (hv : s'.blobs name = some v) (hrows : codec.Holds v.body left)
      (hleft : unedited ∨ left ≠ [])

section Left

variable {name : String} {unedited : Prop} {left : List ArrowRow}

/-- A blob that was rewritten. -/
theorem BlobLeft.of_stores {new : Option Bytes} (hedited : ¬ unedited)
    (hcontent : (s'.blobs name).map Version.body = new) (hstores : codec.Stores new left) :
    BlobLeft codec s' name unedited left := by
  rcases hstores with ⟨hempty, rfl⟩ | ⟨hne, bytes, rfl, hbytes⟩
  · exact .gone (by simpa using hcontent) hedited hempty
  · obtain ⟨v, hv, rfl⟩ := Option.map_eq_some_iff.mp hcontent
    exact .kept hv hbytes (.inr hne)

/-- A blob is gone exactly when it was edited and has no row left. -/
theorem BlobLeft.exists_iff (h : BlobLeft codec s' name unedited left) :
    s'.blobs name ≠ none ↔ unedited ∨ left ≠ [] := by
  cases h with
  | gone habsent hedited hempty => simp [habsent, hedited, hempty]
  | kept hv _ hleft => exact iff_of_true (by simp [hv]) hleft

theorem BlobLeft.holds (h : BlobLeft codec s' name unedited left) (hexists : s'.blobs name ≠ none) :
    ∃ v, s'.blobs name = some v ∧ codec.Holds v.body left := by
  cases h with
  | gone habsent => exact absurd habsent hexists
  | @kept v hv hrows => exact ⟨v, hv, hrows⟩

theorem BlobLeft.eq_nil (h : BlobLeft codec s' name unedited left) (habsent : s'.blobs name = none) :
    left = [] := by
  cases h with
  | gone _ _ hempty => exact hempty
  | kept hv => cases habsent.symm.trans hv

end Left

/-- **The blobs of the table after the DELETE.** -/
theorem blobLeft_of_effect (hcodec : codec.Faithful) (hdelete : ∀ e ∈ plan.edits, e.2.updates = [])
    (heffect : CommitEffect codec plan s s') {name : String} {v : Version} (hv : s.blobs name = some v)
    (hrows : codec.Holds v.body (rows name))
    (hcount : plan.editsOf name ≠ none → (rows name).length < 2 ^ 32) :
    BlobLeft codec s' name (plan.editsOf name = none) (plan.remaining name (rows name)) := by
  cases hedits : plan.editsOf name with
  | none =>
    have hsame := heffect.kept name (by simp [hv]) (ModifyPlan.blobName_ne_of_editsOf hedits)
    refine .kept (hsame.trans hv) ?_ (.inl rfl)
    rwa [ModifyPlan.remaining, hedits]
  | some edits =>
    obtain ⟨baseId, hbaseId, hname, hlookup⟩ := ModifyPlan.exists_of_editsOf hedits
    obtain ⟨new, hrewrites, hcontent⟩ := heffect.edited baseId hbaseId name v hname hv
    obtain ⟨edits', hlookup', hnew⟩ := hrewrites.rewrite
    obtain rfl := Option.some.inj (hlookup.symm.trans hlookup')
    have hupdates : edits.updates = [] := by
      obtain ⟨before, after, hplan, -⟩ := List.lookup_eq_some_iff.mp hlookup
      exact hdelete (baseId, edits) (by simp [hplan])
    rw [ModifyPlan.remaining, hedits]
    refine .of_stores (Option.some_ne_none edits) hcontent ?_
    exact rewriteBlob_rows hcodec hupdates hrows (hcount (by simp [hedits])) hnew

section Listing

variable {source : PlanSource} {container container' : List BlobItem} {blobs blobs' : List ListedBlob}

/-- After a commit the blobs of a table can be listed, if the one of a literal name is left. -/
theorem CommitEffect.exists_list (heffect : CommitEffect codec plan s s')
    (hlists : s.Lists container) (hlists' : s'.Lists container')
    (hhead : ∀ name, source = .head name → s'.blobs name ≠ none)
    (hlist : source.list s container = .ok blobs) :
    ∃ blobs', source.list s' container' = .ok blobs' := by
  cases source with
  | head name =>
    obtain ⟨v, hv⟩ := Option.ne_none_iff_exists'.mp (hhead name rfl)
    exact ⟨_, PlanSource.list_head_eq_ok_iff.mpr ⟨v, hv, rfl⟩⟩
  | glob pattern =>
    refine exists_globSourceList hlists hlists' (fun name hstaging hexists habsent => ?_) hlist
    rw [heffect.gained name habsent hexists] at hstaging
    cases hstaging

/-- A commit adds no blob to a table. -/
theorem CommitEffect.listed_before (heffect : CommitEffect codec plan s s')
    (hlist : source.list s container = .ok blobs) (hfinds : source.Finds s blobs)
    (hfinds' : source.Finds s' blobs') :
    ∀ name ∈ blobs'.map Prod.fst, name ∈ blobs.map Prod.fst := by
  intro name hname
  obtain ⟨hcovers, hexists⟩ := (hfinds'.mem_iff name).mp hname
  refine (hfinds.mem_iff name).mpr ⟨hcovers, fun habsent => ?_⟩
  have hstaging := heffect.gained name habsent hexists
  cases source with
  | head literal =>
    obtain ⟨v, hv, -⟩ := PlanSource.list_head_eq_ok_iff.mp hlist
    obtain rfl : name = literal := hcovers
    cases habsent.symm.trans hv
  | glob pattern => cases hcovers.2.symm.trans hstaging

end Listing

/-! ### The scan -/

variable {cfg : ScanConfig} {readFile : Bytes → FdwResult ParquetFile}

/-- **A scan of blobs that are all there returns the rows they hold.** -/
theorem scan_of_readsAll (parquet : BatchCut) (rows : String → List ArrowRow)
    (hagree : ReadersAgree codec readFile) (hcolumns : cfg.ReadsAll readFile)
    (hqual : cfg.qualFilter = none) {blobs : List ListedBlob}
    (hblobs : ∀ b ∈ blobs, ∃ v, s.blobs b.1 = some v ∧ codec.Holds v.body (rows b.1)) :
    ∃ returned : List (ScannedRow String),
      returned.map ScannedRow.content = tableRows cfg rows (blobs.map Prod.fst) ∧
      ∀ natts outs t, Run (ScanCall cfg (openBlobOf parquet cfg (s.fetch readFile)))
          (.initial blobs natts) outs t →
        (∀ i, i < outs.length → outs[i]? = some returned[i]?) ∧
          ∃ out t', ScanCall cfg (openBlobOf parquet cfg (s.fetch readFile)) t out t' := by
  let contents : String → List (FileBatch String) := s.fileContents readFile parquet
  have hfile : ∀ b ∈ blobs, ∃ file, s.fetch readFile b.1 = .ok file ∧
      file.rows.map TypedRow.cells = rows b.1 ∧
      projectedRoots file cfg.projection = .ok (List.range file.types.length) := by
    intro b hb
    obtain ⟨v, hv, hholds⟩ := hblobs b hb
    obtain ⟨file, hfile, hrows⟩ := hagree _ _ hholds
    refine ⟨file, ?_, hrows, hcolumns _ _ hfile⟩
    rw [BlobStore.fetch, hv]
    exact hfile
  have hread : BlobsReadable cfg contents (openBlobOf parquet cfg (s.fetch readFile)) blobs := by
    intro b hb _
    obtain ⟨file, hfetch, -, hroots⟩ := hfile b hb
    refine except_bind_eq_ok.mpr ⟨file, FdwResult.lift_eq_ok.mpr hfetch, ?_⟩
    rw [hqual, openStream_all b.1 hroots]
    simp only [contents, BlobStore.fileContents, hfetch]
  refine ⟨tableSequence cfg contents blobs, ?_, fun natts outs t run => ?_⟩
  · rw [tableSequence, List.map_flatMap, tableRows, List.flatMap_map]
    refine List.flatMap_congr fun b hb => ?_
    obtain ⟨file, hfetch, hrows, -⟩ := hfile b hb
    rw [content_blobSequence]
    simp only [contents, BlobStore.fileContents, hfetch, rows_fileBatches, hrows]
  · obtain ⟨hsound, -, houts⟩ := (ScanSound.initial natts).calls hread run
    exact ⟨houts, hsound.exists_call hread⟩

/-- The names that a table loses have no row left. -/
theorem perm_tableRows {names names' : List String} (hnodup : names.Nodup) (hnodup' : names'.Nodup)
    (hsubset : ∀ name ∈ names', name ∈ names)
    (hlost : ∀ name ∈ names, name ∉ names' → rows name = []) :
    (tableRows cfg rows names').Perm (tableRows cfg rows names) := by
  let rowsOf : String → List (List Datum × ArrowRow) := fun name =>
    if cfg.skips name then [] else (rows name).map fun row => (cfg.datumsOf name, row)
  have hperm : names'.Perm (names.filter (· ∈ names')) := by
    refine (List.perm_ext_iff_of_nodup hnodup' (hnodup.filter _)).mpr fun name => ?_
    rw [List.mem_filter, decide_eq_true_iff]
    exact ⟨fun h => ⟨hsubset name h, h⟩, fun h => h.2⟩
  have hnone : (names.filter fun name => !decide (name ∈ names')).flatMap rowsOf = [] := by
    refine List.flatMap_eq_nil_iff.mpr fun name hname => ?_
    obtain ⟨hname, hgone⟩ := List.mem_filter.mp hname
    simp [rowsOf, hlost name hname (by simpa using hgone)]
  calc (names'.flatMap rowsOf).Perm ((names.filter (· ∈ names')).flatMap rowsOf) :=
        hperm.flatMap_right rowsOf
    _ = (names.filter (· ∈ names') ++ names.filter fun name => !decide (name ∈ names')).flatMap
          rowsOf := by rw [List.flatMap_append, hnone, List.append_nil]
    List.Perm _ (names.flatMap rowsOf) := (List.filter_append_perm _ names).flatMap_right rowsOf

/-- **A scan of the blobs that are found**, when those of the names that are not found would have
no row. -/
theorem selectReturns_of_holds {parquet : BatchCut} {source : PlanSource}
    {container : List BlobItem} {blobs : List ListedBlob} {names : List String}
    (rowsOf : String → List ArrowRow)
    (hagree : ReadersAgree codec readFile) (hcolumns : cfg.ReadsAll readFile)
    (hqual : cfg.qualFilter = none) (hlist : source.list s container = .ok blobs)
    (hfound : (blobs.map Prod.fst).Nodup) (hnames : names.Nodup)
    (hsubset : ∀ name ∈ blobs.map Prod.fst, name ∈ names)
    (hlost : ∀ name ∈ names, name ∉ blobs.map Prod.fst → rowsOf name = [])
    (hholds : ∀ b ∈ blobs, ∃ v, s.blobs b.1 = some v ∧ codec.Holds v.body (rowsOf b.1)) :
    SelectReturns parquet cfg readFile source s container (tableRows cfg rowsOf names) := by
  obtain ⟨returned, hcontent, hcalls⟩ :=
    scan_of_readsAll parquet rowsOf hagree hcolumns hqual hholds
  refine ⟨blobs, hlist, returned, ?_, hcalls⟩
  rw [hcontent]
  exact perm_tableRows hnames hfound hsubset hlost

section Left

variable {parquet : BatchCut} {regexNew : List (Wildcard.Atom Char) → Except String Unit}
  {filename : String} {source : PlanSource} {container container' : List BlobItem}
  {blobs : List ListedBlob} {unedited : String → Prop} {left : String → List ArrowRow}
  (hagree : ReadersAgree codec readFile) (hcolumns : cfg.ReadsAll readFile)
  (hqual : cfg.qualFilter = none) (heffect : CommitEffect codec plan s s')
  (hsource : planSource regexNew filename = .ok source) (hlists : s.Lists container)
  (hlist : source.list s container = .ok blobs) (hlists' : s'.Lists container')
  (hleft : ∀ name ∈ blobs.map Prod.fst, BlobLeft codec s' name (unedited name) (left name))

include hagree hcolumns hqual heffect hsource hlists hlist hlists' hleft

/-- **A SELECT of a container that a plan was committed to**, when the blob of a literal name is
left. -/
theorem select_of_left (hhead : ∀ name, source = .head name → s'.blobs name ≠ none) :
    SelectReturns parquet cfg readFile source s' container'
      (tableRows cfg left (blobs.map Prod.fst)) := by
  have hfinds := PlanSource.finds_of_list hsource hlists hlist
  obtain ⟨blobs', hlist'⟩ := heffect.exists_list hlists hlists' hhead hlist
  have hfinds' := PlanSource.finds_of_list hsource hlists' hlist'
  have hbefore := heffect.listed_before hlist hfinds hfinds'
  refine selectReturns_of_holds _ hagree hcolumns hqual hlist' hfinds'.nodup hfinds.nodup hbefore
    (fun name hname hlost => ?_) fun b hb => ?_
  · refine (hleft name hname).eq_nil (not_not.mp fun hexists => hlost ?_)
    exact (hfinds'.mem_iff name).mpr ⟨((hfinds.mem_iff name).mp hname).1, hexists⟩
  · have hname : b.1 ∈ blobs'.map Prod.fst := List.mem_map_of_mem hb
    exact (hleft b.1 (hbefore b.1 hname)).holds ((hfinds'.mem_iff b.1).mp hname).2

/-- When that blob is left. -/
theorem select_of_left_iff :
    SelectReturns parquet cfg readFile source s' container'
        (tableRows cfg left (blobs.map Prod.fst)) ↔
      '*' ∈ filename.toList ∨ '?' ∈ filename.toList ∨ unedited filename ∨ left filename ≠ [] := by
  constructor
  · -- a table with a literal name: its blob is found only if it is left
    rintro ⟨blobs', hlist', -⟩
    by_cases hplain : '*' ∉ filename.toList ∧ '?' ∉ filename.toList
    · rw [planSource, if_pos hplain] at hsource
      obtain rfl := Except.ok.inj hsource
      obtain ⟨v, -, hblobs⟩ := PlanSource.list_head_eq_ok_iff.mp hlist
      obtain ⟨v', hv', -⟩ := PlanSource.list_head_eq_ok_iff.mp hlist'
      exact .inr (.inr ((hleft filename (by simp [hblobs])).exists_iff.mp (by simp [hv'])))
    · rw [not_and_or, not_not, not_not] at hplain
      exact hplain.elim .inl fun h => .inr (.inl h)
  · intro hcondition
    refine select_of_left hagree hcolumns hqual heffect hsource hlists hlist hlists' hleft ?_
    rintro name rfl
    obtain ⟨hplain, rfl⟩ := planSource_eq_head hsource
    obtain ⟨v, -, hblobs⟩ := PlanSource.list_head_eq_ok_iff.mp hlist
    refine (hleft filename (by simp [hblobs])).exists_iff.mpr ?_
    exact (hcondition.resolve_left hplain.1).resolve_left hplain.2

end Left

end Commit

/-! ### A table of two blobs -/

/-- Blob `a` has one row, and blob `b` two. -/
def flagStore : BlobStore := .holding [("a", ⟨"0x1", [1]⟩), ("b", ⟨"0x2", [1, 0]⟩)]

/-- A DELETE that leaves no row of blob `a`. -/
def emptyA : ModifyPlan where
  blobTable := [⟨"a", 0, "0x1"⟩, ⟨"b", 0, "0x2"⟩]
  edits := [(0, ⟨[0], []⟩)]
  schema := [⟨"flag", .boolean, true⟩]
  compression := .snappy
  editCount := 1

/-- The commit downloads blob `a` and removes it. -/
theorem commit_emptyA : Exec Serves (commitPlan flagCodec emptyA) flagStore
    [⟨.getIfMatch "a" "0x1", .ok (none, [1])⟩, ⟨.deleteIfMatch "a" "0x1", .ok ()⟩]
    (flagStore.delete "a") (.ok ()) :=
  Removes.exec (v := ⟨"0x1", [1]⟩) ⟨_, _, rfl, rfl, rfl⟩ rfl

theorem flagStore_blobs {name : String} {v : Version} (h : flagStore.blobs name = some v) :
    (name = "a" ∧ v = ⟨"0x1", [1]⟩) ∨ (name = "b" ∧ v = ⟨"0x2", [1, 0]⟩) := by
  have hmem := mem_of_lookup h
  exact (List.mem_pair.mp hmem).imp Prod.mk.inj Prod.mk.inj

theorem lists_flagStore : flagStore.Lists [⟨some "a", some "0x1"⟩, ⟨some "b", some "0x2"⟩] :=
  BlobStore.lists_holding (by decide)

theorem lists_after_emptyA : (flagStore.delete "a").Lists [⟨some "b", some "0x2"⟩] := by
  refine ⟨fun item => ⟨fun hitem => ?_, ?_⟩, by decide⟩
  · obtain rfl := List.mem_singleton.mp hitem
    exact ⟨"b", _, rfl, rfl⟩
  · rintro ⟨name, v, hv, rfl⟩
    by_cases hname : name = "a"
    · subst hname
      cases hv
    · rw [show (flagStore.delete "a").blobs name = _ from Function.update_of_ne hname _ _] at hv
      obtain ⟨rfl, rfl⟩ := (flagStore_blobs hv).resolve_left fun h => hname h.1
      simp

/-- Files of flags have one column. -/
theorem readsAll_flags {cfg : ScanConfig} (h : cfg.projection = some [0]) : cfg.ReadsAll readFlags := by
  refine cfg.readsAll_of_range (n := 1) h fun body file hfile => ?_
  obtain rfl := Except.ok.inj hfile
  rfl

/-- The relation of a table of flags. -/
def flagRelation : List Attribute := [⟨"flag", boolOid, false, false⟩]

end ParquetAzureFdw
