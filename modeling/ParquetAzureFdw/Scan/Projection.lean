/-
# The columns of a scan

How a scan maps the columns of a blob to the attributes of the relation:
`build_projection_intlist` and `build_scan_state_core` of `src/fdw/scan.rs`.  The
planner passes the attribute numbers that the query reads; the scan takes each,
less one, both as the number of a root column of the blob and as the attribute
which that column fills.

A blob written by INSERT carries the storage columns only.  So the two agree, and
every projected attribute is delivered, exactly when each projected attribute
stands before all partition columns (`projection_delivers_iff`).
-/

import ParquetAzureFdw.Modify.Insert
import ParquetAzureFdw.Scan.State

namespace ParquetAzureFdw

/-! ### The projection -/

/-- The attribute numbers that a query refers to, as the members of a `Bitmapset`:
system columns are negative, a whole-row reference is zero. -/
structure AttnumSet (natts : ℕ) where
  members : List ℤ
  ascending : members.Pairwise (· < ·)
  le_natts : ∀ a ∈ members, a ≤ natts

/-- `build_projection_intlist`. -/
def buildProjectionIntlist {natts : ℕ} (refs : AttnumSet natts) : List ℤ :=
  let attnums := refs.members.filter (1 ≤ ·)
  if attnums.isEmpty then [1] else attnums

/-- What the planner leaves in `fdw_private`: the list of a SELECT, or NULL. -/
inductive PlannedProjection (natts : ℕ) where
  | select (refs : AttnumSet natts)
  | null

/-- `fdw_private`. -/
def PlannedProjection.fdwPrivate {natts : ℕ} : PlannedProjection natts → Option (List ℤ)
  | .select refs => some (buildProjectionIntlist refs)
  | .null => none

/-- The attribute numbers that are projected: all of them when the list is NULL. -/
def PlannedProjection.attnums {natts : ℕ} : PlannedProjection natts → List ℤ
  | .select refs => buildProjectionIntlist refs
  | .null => (List.range natts).map fun i : ℕ => (i : ℤ) + 1

/-- The index of a projected attribute number. -/
def projectedIndex (natts : ℕ) (a : ℤ) : FdwResult ℕ :=
  if 0 ≤ a - 1 ∧ a - 1 < natts then .ok (a - 1).toNat
  else
    .error (.schemaMismatch ("projected attnum " ++ toString a ++ " out of range (natts=" ++
      toString natts ++ ")"))

/-- The part of `build_scan_state_core` that decodes `fdw_private`. -/
def projectedColumns (natts : ℕ) : Option (List ℤ) → FdwResult (List ℕ)
  | none => .ok (List.range natts)
  | some attnums => (if attnums.isEmpty then [1] else attnums).mapM (projectedIndex natts)

/-- The part of `build_scan_state_core` that sets the fields a scan never changes. -/
def buildScanConfig (ext : Externals) (attrs : List Attribute) (opts : PartitionOptions)
    (qualFilter : Option (List PushedExpr)) (fdwPrivate : Option (List ℤ)) :
    FdwResult ScanConfig := do
  let pgOids ← attributeOids "" attrs
  let partitionAttnums ← resolvePartitionAttnums attrs opts.columns
  let idxs ← projectedColumns pgOids.length fdwPrivate
  return {
    ext, pgOids, qualFilter, partitionAttnums
    projection := some idxs
    attnoMap := idxs
    partitionKeysDecl := opts.keys }

/-- What the scan of a blob has to deliver for the tuples that were written to it:
the mask names root columns of the file, column `k` of a batch belongs to attribute
`attno_map[k]`, and the slot of a row holds the tuple's value in each projected
storage attribute and the value of the path in each partition attribute. -/
structure DeliversColumns (parquet : BatchCut) (cfg : ScanConfig) (tuples : List Tuple)
    (file : ParquetFile) : Prop where
  columns : ∃ roots, projectedRoots file cfg.projection = .ok roots ∧
    ∀ k : ℕ, cfg.attnoMap[k]? =
      (roots[k]?).bind fun r => (storageAttnos cfg.partitionAttnums cfg.pgOids.length)[r]?
  slots : ∀ (blob : String) (old datums : List Datum), cfg.DatumsFor blob old datums →
    ∀ items, openStream parquet blob cfg.projection cfg.qualFilter file = .ok items →
    ∀ b, .ok b ∈ items → ∀ (i : ℕ) row p, b.rows[i]? = some (row, p) →
    ∀ slot : Tuple, slot.length = cfg.pgOids.length →
      ∃ tuple filled, tuples[p]? = some tuple ∧
        fillSlot cfg slot datums b.batch i = .ok filled ∧
        (∀ a ∈ cfg.attnoMap, a ∉ cfg.partitionAttnums → filled[a]? = some (tuple.getD a none)) ∧
        ∀ a ∈ cfg.partitionAttnums, ∃ (j : ℕ) (d : Datum), cfg.partitionAttnums[j]? = some a ∧
          datums[j]? = some d ∧ filled[a]? = some (some d)

/-! ### The planned columns -/

section Planned

variable {natts : ℕ} (plan : PlannedProjection natts)

/-- The columns that a plan asks for. -/
def PlannedProjection.indices : List ℕ := plan.attnums.map fun a => (a - 1).toNat

theorem PlannedProjection.attnums_bounds (hnatts : 0 < natts) :
    ∀ a ∈ plan.attnums, 1 ≤ a ∧ a ≤ natts := by
  intro a ha
  cases plan with
  | select refs =>
    simp only [attnums, buildProjectionIntlist] at ha
    split_ifs at ha
    · obtain rfl := List.mem_singleton.mp ha
      omega
    · obtain ⟨hmem, hpos⟩ := List.mem_filter.mp ha
      exact ⟨of_decide_eq_true hpos, refs.le_natts a hmem⟩
  | null =>
    obtain ⟨i, hi, rfl⟩ := List.mem_map.mp ha
    have := List.mem_range.mp hi
    omega

theorem PlannedProjection.attnums_ascending : plan.attnums.Pairwise (· < ·) := by
  cases plan with
  | select refs =>
    simp only [attnums, buildProjectionIntlist]
    split_ifs
    · exact List.pairwise_singleton _ _
    · exact refs.ascending.filter _
  | null =>
    refine List.pairwise_map.mpr (List.pairwise_lt_range.imp fun h => ?_)
    omega

/-- The decoding of a planned list succeeds. -/
theorem projectedColumns_planned (hnatts : 0 < natts) :
    projectedColumns natts plan.fdwPrivate = .ok plan.indices := by
  cases plan with
  | null =>
    have hindices : (PlannedProjection.null : PlannedProjection natts).indices = List.range natts := by
      rw [PlannedProjection.indices, PlannedProjection.attnums, List.map_map]
      simp [Function.comp_def]
    rw [hindices]
    rfl
  | select refs =>
    have hne : (buildProjectionIntlist refs).isEmpty = false := by
      simp only [buildProjectionIntlist]
      split_ifs with hempty
      · rfl
      · simpa using hempty
    simp only [PlannedProjection.fdwPrivate, projectedColumns, hne, Bool.false_eq_true, if_false]
    refine mapM_eq_ok_iff.mpr ?_
    rw [PlannedProjection.indices, List.forall₂_map_right_iff, PlannedProjection.attnums,
      List.forall₂_same]
    intro a ha
    have := (PlannedProjection.select refs).attnums_bounds hnatts a ha
    rw [projectedIndex, if_pos (by omega)]

theorem PlannedProjection.indices_ascending (hnatts : 0 < natts) :
    plan.indices.Pairwise (· < ·) := by
  refine List.pairwise_map.mpr (plan.attnums_ascending.imp_of_mem fun ha hb hlt => ?_)
  have := plan.attnums_bounds hnatts _ ha
  have := plan.attnums_bounds hnatts _ hb
  omega

end Planned

/-! ### The filled slot -/

theorem foldl_set_getElem? {α : Type} (v : ℕ → α) (attnos : List ℕ) (slot : List α) (a : ℕ) :
    (attnos.foldl (fun s a => s.set a (v a)) slot)[a]? =
      if a ∈ attnos ∧ a < slot.length then some (v a) else slot[a]? := by
  induction attnos generalizing slot with
  | nil => simp
  | cons b attnos ih =>
    rw [List.foldl_cons, ih, List.length_set]
    by_cases hmem : a ∈ attnos ∧ a < slot.length
    · rw [if_pos hmem, if_pos ⟨by simp [hmem.1], hmem.2⟩]
    · rw [if_neg hmem, List.getElem?_set]
      grind

theorem length_foldl_set {α : Type} (v : ℕ → α) (attnos : List ℕ) (slot : List α) :
    (attnos.foldl (fun s a => s.set a (v a)) slot).length = slot.length := by
  induction attnos generalizing slot with
  | nil => rfl
  | cons b attnos ih => rw [List.foldl_cons, ih, List.length_set]

/-- The overlay writes each projected attribute, when every column of the batch holds
the value `v` of its attribute. -/
theorem overlayColumns_eq_ok {cfg : ScanConfig} {batch : RecordBatch} {row : ℕ}
    {v : ℕ → Option Datum} {attnos : List ℕ} {k : ℕ} (slot : Tuple)
    (h : ∀ j a, attnos[j]? = some a → ∃ oid col, cfg.pgOids[a]? = some oid ∧
      batch.columns[k + j]? = some col ∧ arrowValueToDatum cfg.ext col row oid = .ok (v a)) :
    overlayColumns cfg batch row k attnos slot =
      .ok (attnos.foldl (fun s a => s.set a (v a)) slot) := by
  induction attnos generalizing k slot with
  | nil => rfl
  | cons a attnos ih =>
    obtain ⟨oid, col, hoid, hcol, hvalue⟩ := h 0 a rfl
    rw [overlayColumns, hoid]
    dsimp only
    rw [show batch.columns[k]? = some col from hcol]
    dsimp only
    rw [hvalue]
    refine ih (slot.set a (v a)) fun j b hb => ?_
    rw [show k + 1 + j = k + (j + 1) by omega]
    exact h (j + 1) b hb

/-! ### Delivery -/

section Delivery

variable {parquet : BatchCut} {ext : Externals} {qualFilter : Option (List PushedExpr)}
  {formatPgDays : Int32 → Option String} {attrs : List Attribute} {opts : PartitionOptions}
  {layout : InsertLayout} {key : List String} {tuples : List Tuple} {file : ParquetFile}

/-- The relation of a blob has a column. -/
theorem natts_pos (hlayout : buildInsertLayout attrs opts = .ok layout)
    (hfile : WrittenGroup formatPgDays layout key tuples file) : 0 < attrs.length := by
  obtain ⟨-, -, hschema⟩ := buildInsertLayout_spec hlayout
  by_contra hzero
  obtain rfl := List.eq_nil_of_length_eq_zero (by omega : attrs.length = 0)
  exact hfile.schema_ne_nil (Except.ok.inj hschema).symm

/-- The configuration of a scan that is planned over the relation of an INSERT. -/
def plannedConfig (ext : Externals) (opts : PartitionOptions) (layout : InsertLayout)
    (qualFilter : Option (List PushedExpr)) {natts : ℕ} (plan : PlannedProjection natts) :
    ScanConfig where
  ext := ext
  pgOids := layout.pgOids
  projection := some plan.indices
  attnoMap := plan.indices
  qualFilter := qualFilter
  partitionAttnums := layout.partitionAttnums
  partitionKeysDecl := opts.keys

theorem buildScanConfig_planned (hlayout : buildInsertLayout attrs opts = .ok layout)
    (hnatts : 0 < attrs.length) (plan : PlannedProjection attrs.length) :
    buildScanConfig ext attrs opts qualFilter plan.fdwPrivate =
      .ok (plannedConfig ext opts layout qualFilter plan) := by
  obtain ⟨oids, hoids, h⟩ := except_bind_eq_ok.mp hlayout
  obtain ⟨hpgOids, hattnums, -⟩ := buildInsertLayout_spec hlayout
  have hlen : oids.length = attrs.length := by rw [attributeOids_eq hoids, List.length_map]
  have heq : layout.pgOids = oids := by rw [hpgOids, attributeOids_eq hoids]
  refine except_bind_eq_ok.mpr ⟨oids, attributeOids_path hoids "", ?_⟩
  refine except_bind_eq_ok.mpr ⟨_, hattnums, ?_⟩
  refine except_bind_eq_ok.mpr ⟨plan.indices, ?_, ?_⟩
  · rw [hlen]
    exact projectedColumns_planned plan hnatts
  · rw [← heq]
    rfl

/-- The columns are mapped as they should exactly when every projected one has its
attribute's number in the blob. -/
theorem columns_mapped_iff (hlayout : buildInsertLayout attrs opts = .ok layout)
    (hfile : WrittenGroup formatPgDays layout key tuples file) {idxs : List ℕ}
    (hsorted : idxs.Pairwise (· < ·)) :
    (∃ roots, projectedRoots file (some idxs) = .ok roots ∧ ∀ k : ℕ, idxs[k]? =
        (roots[k]?).bind fun r => (storageAttnos layout.partitionAttnums attrs.length)[r]?) ↔
      ∀ a ∈ idxs, (storageAttnos layout.partitionAttnums attrs.length)[a]? = some a := by
  constructor
  · rintro ⟨roots, hroots, hmap⟩ a ha
    obtain rfl := projectionRoots_of_ascending hsorted hroots
    obtain ⟨k, hk⟩ := List.getElem?_of_mem ha
    have := hmap k
    rw [hk] at this
    exact this.symm
  · intro h
    have hroot : ∀ a ∈ idxs, a < file.types.length := by
      intro a ha
      obtain ⟨ty, hty, -⟩ := buildInsertLayout_types hlayout (h a ha)
      rw [hfile.types_eq]
      exact (List.getElem?_eq_some_iff.mp hty).1
    have hroots : projectedRoots file (some idxs) =
        .ok ((List.range file.types.length).filter (· ∈ idxs)) := if_pos hroot
    refine ⟨_, hroots, fun k => ?_⟩
    rw [projectionRoots_of_ascending hsorted hroots]
    cases hk : idxs[k]? with
    | none => rfl
    | some a => exact (h a (List.mem_of_getElem? hk)).symm

/-- A column of a batch reads back, for its attribute, what the tuple had there. -/
theorem projected_value (hlayout : buildInsertLayout attrs opts = .ok layout)
    (hfile : WrittenGroup formatPgDays layout key tuples file)
    {rows : List (TypedRow file.types)} {i p a : ℕ} {row : TypedRow file.types} {tuple : Tuple}
    (hi : rows[i]? = some row) (hrow : file.rows[p]? = some row) (htuple : tuples[p]? = some tuple)
    (ha : (storageAttnos layout.partitionAttnums attrs.length)[a]? = some a) :
    ∃ oid, layout.pgOids[a]? = some oid ∧
      arrowValueToDatum ext (columnOfRows rows a) i oid = .ok (tuple.getD a none) := by
  have hlen : layout.pgOids.length = attrs.length := by
    rw [(buildInsertLayout_spec hlayout).1, List.length_map]
  have hlt : a < layout.pgOids.length := by
    rw [hlen]
    exact (mem_storageAttnos.mp (List.mem_of_getElem? ha)).1
  obtain ⟨ty, hty, hoid⟩ := buildInsertLayout_types hlayout ha
  obtain ⟨tuple', htuple', happend⟩ := hfile.cell hrow
  obtain rfl : tuple = tuple' := Option.some.inj (htuple.symm.trans htuple')
  have hdataType : (columnOfRows rows a).dataType = ty := by
    show file.types.getD a _ = ty
    rw [hfile.types_eq, List.getD_eq_getElem?_getD, hty]
    rfl
  have hoid' : layout.pgOids[a]? = some (layout.pgOids.getD a 0) := by
    rw [List.getD_eq_getElem?_getD, List.getElem?_eq_getElem hlt]
    rfl
  refine ⟨_, hoid', arrowValueToDatum_appendOne ext (hdataType ▸ hoid) ?_⟩
  rw [columnOfRows_cell hi]
  exact happend a a (by rwa [hlen])

/-- The scan has a datum for each partition column. -/
theorem length_datums (hlayout : buildInsertLayout attrs opts = .ok layout)
    (plan : PlannedProjection attrs.length) {blob : String} {old datums : List Datum}
    (h : (plannedConfig ext opts layout qualFilter plan).DatumsFor blob old datums) :
    layout.partitionAttnums ≠ [] → layout.partitionAttnums.length = datums.length := by
  obtain ⟨-, hattnums, -⟩ := buildInsertLayout_spec hlayout
  have hlen : layout.partitionAttnums.length = opts.keys.length := by
    rw [← (mapM_eq_ok_iff.mp hattnums).length_eq, opts.agree.length_eq]
  intro hne
  have hkeys : (plannedConfig ext opts layout qualFilter plan).partitionKeysDecl.isEmpty = false := by
    show opts.keys.isEmpty = false
    rw [List.isEmpty_eq_false_iff, ← List.length_pos_iff, ← hlen]
    exact List.length_pos_iff.mpr hne
  rw [ScanConfig.DatumsFor, hkeys] at h
  rw [hlen]
  exact (partitionDatums_length h).symm

/-- When every projected column has its attribute's number in the blob, every row fills
the slot as it should. -/
theorem slots_delivered (hlayout : buildInsertLayout attrs opts = .ok layout)
    (hfile : WrittenGroup formatPgDays layout key tuples file) (plan : PlannedProjection attrs.length)
    (hself : ∀ a ∈ plan.indices,
      (storageAttnos layout.partitionAttnums attrs.length)[a]? = some a)
    {blob : String} {old datums : List Datum}
    (hdatums : (plannedConfig ext opts layout qualFilter plan).DatumsFor blob old datums)
    {rows : List (PlacedRow file.types)} (hrows : ∀ x ∈ rows, file.rows[x.2]? = some x.1)
    {i p : ℕ} {row : TypedRow file.types} (hi : rows[i]? = some (row, p)) {slot : Tuple}
    (hslot : slot.length = layout.pgOids.length) :
    ∃ tuple filled, tuples[p]? = some tuple ∧
      fillSlot (plannedConfig ext opts layout qualFilter plan) slot datums
        (FileBatch.batch ⟨blob, file.types, plan.indices, rows⟩) i = .ok filled ∧
      (∀ a ∈ plan.indices, a ∉ layout.partitionAttnums → filled[a]? = some (tuple.getD a none)) ∧
      ∀ a ∈ layout.partitionAttnums, ∃ (j : ℕ) (d : Datum), layout.partitionAttnums[j]? = some a ∧
        datums[j]? = some d ∧ filled[a]? = some (some d) := by
  obtain ⟨hoids, hattnums, -⟩ := buildInsertLayout_spec hlayout
  have hnatts : layout.pgOids.length = attrs.length := by rw [hoids, List.length_map]
  have hrow : file.rows[p]? = some row := hrows (row, p) (List.mem_of_getElem? hi)
  obtain ⟨tuple, htuple, -⟩ := hfile.cell hrow
  have hi' : (rows.map Prod.fst)[i]? = some row := by rw [List.getElem?_map, hi]; rfl
  let cleared := if plan.indices.length < layout.pgOids.length then
    List.replicate layout.pgOids.length none else slot
  have hcleared : cleared.length = attrs.length := by
    rw [← hnatts]
    show List.length (if _ then _ else _) = _
    split_ifs
    · exact List.length_replicate
    · exact hslot
  have hvalues : ∀ j a, plan.indices[j]? = some a → ∃ oid col,
      (plannedConfig ext opts layout qualFilter plan).pgOids[a]? = some oid ∧
        (FileBatch.batch ⟨blob, file.types, plan.indices, rows⟩).columns[0 + j]? = some col ∧
        arrowValueToDatum ext col i oid = .ok (tuple.getD a none) := by
    intro j a hj
    obtain ⟨oid, hoid, hvalue⟩ :=
      projected_value hlayout hfile hi' hrow htuple (hself a (List.mem_of_getElem? hj))
    refine ⟨oid, columnOfRows (rows.map Prod.fst) a, hoid, ?_, hvalue⟩
    rw [FileBatch.batch, RecordBatch.ofRows, Nat.zero_add, List.getElem?_map, hj]
    rfl
  have hoverlay := overlayColumns_eq_ok cleared hvalues
  refine ⟨tuple, _, htuple, except_bind_eq_ok.mpr ⟨_, hoverlay, rfl⟩, ?_, ?_⟩
  · intro a ha hnot
    have hlt := (mem_storageAttnos.mp (List.mem_of_getElem? (hself a ha))).1
    show (overlayPartition layout.partitionAttnums datums _)[a]? = _
    rw [overlayPartition_of_notMem hnot, foldl_set_getElem?, if_pos ⟨ha, by omega⟩]
  · intro a ha
    have hlt := ((mem_partitionAttnums_iff hattnums).mp ha).lt
    refine overlayPartition_of_mem (length_datums hlayout plan hdatums (List.ne_nil_of_mem ha)) ha ?_
    rw [length_foldl_set, hcleared]
    exact hlt

/-- **INSERT then SELECT delivers every column exactly when each projected attribute
stands before all partition columns.** -/
theorem projection_delivers_iff (parquet : BatchCut) (ext : Externals)
    (qualFilter : Option (List PushedExpr)) (hlayout : buildInsertLayout attrs opts = .ok layout)
    (hfile : WrittenGroup formatPgDays layout key tuples file)
    (plan : PlannedProjection attrs.length) :
    (∃ cfg, buildScanConfig ext attrs opts qualFilter plan.fdwPrivate = .ok cfg ∧
        DeliversColumns parquet cfg tuples file) ↔
      ∀ a ∈ plan.attnums, ∀ p, opts.Declares attrs p → a ≤ p := by
  obtain ⟨hoids, hattnums, -⟩ := buildInsertLayout_spec hlayout
  have hnatts := natts_pos hlayout hfile
  have hlen : layout.pgOids.length = attrs.length := by rw [hoids, List.length_map]
  have hsorted := plan.indices_ascending hnatts
  have hconfig : buildScanConfig ext attrs opts qualFilter plan.fdwPrivate = _ :=
    buildScanConfig_planned hlayout hnatts plan
  -- both sides speak of the storage columns that keep their attribute's number
  have hbefore : (∀ a ∈ plan.attnums, ∀ p, opts.Declares attrs p → a ≤ p) ↔
      ∀ a ∈ plan.indices, (storageAttnos layout.partitionAttnums attrs.length)[a]? = some a := by
    rw [PlannedProjection.indices, List.forall_mem_map]
    refine forall₂_congr fun a ha => ?_
    have hbounds := plan.attnums_bounds hnatts a ha
    rw [storageAttnos_getElem?_self_iff (by omega)]
    refine forall_congr' fun p => ?_
    rw [mem_partitionAttnums_iff hattnums]
    exact imp_congr_right fun _ => by omega
  rw [hbefore, ← columns_mapped_iff hlayout hfile hsorted]
  constructor
  · rintro ⟨cfg, hcfg, hdelivers⟩
    obtain rfl := Except.ok.inj (hconfig.symm.trans hcfg)
    have hcolumns := hdelivers.columns
    rwa [show (plannedConfig ext opts layout qualFilter plan).pgOids.length = attrs.length from hlen]
      at hcolumns
  · intro hcolumns
    have hself := (columns_mapped_iff hlayout hfile hsorted).mp hcolumns
    refine ⟨_, hconfig, ?_, ?_⟩
    · rw [show (plannedConfig ext opts layout qualFilter plan).pgOids.length = attrs.length from hlen]
      exact hcolumns
    · intro blob old datums hdatums items hitems b hb i row p hi slot hslot
      obtain ⟨roots, rows, hroots, rfl, hrows⟩ := exists_of_mem_openStream hitems hb
      obtain rfl := projectionRoots_of_ascending hsorted hroots
      exact slots_delivered hlayout hfile plan hself hdatums hrows hi hslot

end Delivery

/-! ### A partitioned table -/

/-- A column of type `int4`. -/
def int4Column (name : String) : Attribute := ⟨name, int4Oid, false, false⟩

theorem year_agrees : List.Forall₂ (fun (col : String) (key : String × PgPartitionType) =>
    eqIgnoreAsciiCase col.toList key.1.toList = true) ["year"] [("year", .int4)] :=
  .cons (by decide) .nil

/-- The options of a table that is partitioned by `year`. -/
def yearPartitioned : PartitionOptions where
  columns := ["year"]
  keys := [("year", .int4)]
  agree := year_agrees

/-- A query that reads one attribute. -/
def readsOne {natts : ℕ} (a : ℤ) (h : a ≤ natts) : PlannedProjection natts :=
  .select ⟨[a], List.pairwise_singleton _ _, by simpa using h⟩

theorem rowTyped_ints (vs : List Int32) :
    rowTyped (vs.map fun _ => .int32) (vs.map fun v => some (.int32 v)) = true := by
  induction vs with
  | nil => rfl
  | cons v vs ih => exact ih

/-- A blob of one row with the given integers. -/
def rowOfInts (vs : List Int32) : ParquetFile where
  types := vs.map fun _ => .int32
  rowGroups := [⟨[⟨vs.map fun v => some (.int32 v), rowTyped_ints vs⟩], []⟩]

/-- What INSERT keeps of the columns `id`, `year`, in this order. -/
def idYearLayout : InsertLayout := ⟨[⟨"id", .int32, true⟩], [int4Oid, int4Oid], [1]⟩

theorem buildInsertLayout_id_year :
    buildInsertLayout [int4Column "id", int4Column "year"] yearPartitioned = .ok idYearLayout := by
  decide

theorem written_id_year :
    WrittenGroup (fun _ => none) idYearLayout ["2024"] [[some (.int4 7), some (.int4 2024)]]
      (rowOfInts [7]) where
  types_eq := rfl
  accepted := by decide
  rows := .cons (by decide) .nil

/-- With the partition column last, a query of `id` alone reads what was inserted. -/
theorem id_before_year_delivered :
    ∃ cfg, buildScanConfig .permissive [int4Column "id", int4Column "year"] yearPartitioned none
        (readsOne 1 (by decide) : PlannedProjection 2).fdwPrivate = .ok cfg ∧
      DeliversColumns oneBatch cfg [[some (.int4 7), some (.int4 2024)]] (rowOfInts [7]) := by
  refine (projection_delivers_iff oneBatch .permissive none buildInsertLayout_id_year
    written_id_year (readsOne 1 (by decide))).mpr fun a ha p hp => ?_
  obtain ⟨-, hattnums, -⟩ := buildInsertLayout_spec buildInsertLayout_id_year
  obtain rfl : p = 1 := List.mem_singleton.mp ((mem_partitionAttnums_iff hattnums).mpr hp)
  obtain rfl : a = 1 := List.mem_singleton.mp ha
  rfl

/-- What INSERT keeps of the columns `year`, `id`, `x`, in this order. -/
def yearIdXLayout : InsertLayout :=
  ⟨[⟨"id", .int32, true⟩, ⟨"x", .int32, true⟩], [int4Oid, int4Oid, int4Oid], [0]⟩

theorem buildInsertLayout_year_id_x :
    buildInsertLayout [int4Column "year", int4Column "id", int4Column "x"] yearPartitioned =
      .ok yearIdXLayout := by
  decide

/-- **With the partition column first, a query of `id` reads the column of `x`:** the
slot holds `8` where `7` was inserted. -/
theorem id_after_year_reads_x :
    ∃ cfg, buildScanConfig .permissive [int4Column "year", int4Column "id", int4Column "x"]
        yearPartitioned none (readsOne 2 (by decide) : PlannedProjection 3).fdwPrivate = .ok cfg ∧
      ¬ DeliversColumns oneBatch cfg [[some (.int4 2024), some (.int4 7), some (.int4 8)]]
        (rowOfInts [7, 8]) ∧
      ∃ b, openStream oneBatch "t/year=2024/a.parquet" cfg.projection none (rowOfInts [7, 8]) =
          .ok [.ok b] ∧
        fillSlot cfg [none, none, none] [.int4 2024] b.batch 0 =
          .ok [some (.int4 2024), some (.int4 8), none] := by
  refine ⟨_, buildScanConfig_planned buildInsertLayout_year_id_x (by decide) _, ?_,
    ⟨_, _, _, [(⟨[some (.int32 7), some (.int32 8)], rfl⟩, 0)]⟩, rfl, rfl⟩
  rintro ⟨⟨roots, hroots, hcolumns⟩, -⟩
  obtain rfl : [1] = roots := Except.ok.inj hroots
  exact absurd (hcolumns 0) (by decide)

end ParquetAzureFdw
