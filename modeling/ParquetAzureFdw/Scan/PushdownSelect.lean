/-
# A SELECT with pushed quals

The quals of a query go through `walk_quals`, `split_quals_by_target` and
`translate_qual_to_parquet_idx`, and what comes out is used twice on each blob: row groups are
pruned by their statistics, and the rows of the others filtered.  Postgres evaluates the quals once
more on every row that the scan returns.  So pushdown may only change how much is read: the rows
that pass the quals should be those of a scan without it.

Behind the filter, pruning is not seen: what a scan returns of a blob are the rows on which every
mask entry is true (`PushableOn.flatMap_keptBatches`).  A row that passes the quals of Postgres makes
every pushed expression true, and then its entry is true unless a comparison reads a NULL, wherever
it stands in the tree (`accepted_iff_of_true`).  So the two scans agree exactly when no row that
passes has a NULL in a column that is compared (`pushdown_select_agrees_iff`).

Both scans go over one list of blobs.  That `build_scan_state_core` first drops blobs from it by the
partition quals is not covered here; which blobs equality quals keep is in `Partition.Prune`.
-/

import ParquetAzureFdw.Modify.DeleteThenSelect
import ParquetAzureFdw.Pushdown.Nested
import ParquetAzureFdw.Pushdown.PruneSound
import ParquetAzureFdw.Scan.ProjectionPushdown

namespace ParquetAzureFdw

open Runs ThreeValued

/-! ### The rows of a filtered stream -/

/-- The rows that the filter accepts. -/
def Accepted (exprs : List PushedExpr) (row : ArrowRow) : Prop :=
  ∀ e ∈ exprs, e.strictEval (row.getD · none) = some true

instance (exprs : List PushedExpr) (row : ArrowRow) : Decidable (Accepted exprs row) :=
  inferInstanceAs (Decidable (∀ e ∈ exprs, _ = _))

/-- What the pushed expressions need of a file: its statistics are valid, and the expressions
compare columns that it has, of the types of their literals and no floats, each read in the place
it is looked up in. -/
structure PushableOn (exprs : List PushedExpr) (file : ParquetFile) : Prop where
  stats_valid : ∀ g ∈ file.rowGroups, g.StatsValid
  in_file : ∀ e ∈ exprs, ∀ q ∈ e.leaves, q.col < file.types.length
  ascend : ∀ e ∈ exprs, FirstMentionsAscend e.mentions
  fits : ∀ e ∈ exprs, ∀ q ∈ e.leaves, q.fits (file.types.getD q.col (.other ""))
  no_floats : ∀ e ∈ exprs, e.FloatFree

section Filter

variable {types : List DataType} {exprs : List PushedExpr} {e : PushedExpr}

theorem accepted_cons {r : TypedRow types} :
    Accepted (e :: exprs) r.cells ↔ e.strictEval r.cell = some true ∧ Accepted exprs r.cells :=
  List.forall_mem_cons

theorem keepTrue_eq_filter {α : Type} {f : α → Truth} {rows : List α} {mask : BooleanArray}
    (h : mask = rows.map f) : keepTrue rows mask = rows.filter fun r => f r = some true := by
  subst h
  induction rows with
  | nil => rfl
  | cons r rows ih =>
    rw [List.map_cons, keepTrue, List.filter_cons, ih]
    by_cases hr : f r = some true <;> simp [hr]

/-- A leaf that is bound to its column reads the cells of the rows. -/
theorem reads_of_leafRoot {p : ArrowPredicate} {q : PushedQual} (hroot : p.leafRoot q.col = some q.col)
    (hfits : q.fits (types.getD q.col (.other ""))) {rows : List (TypedRow types)} {i : ℕ}
    {r : TypedRow types} (hi : rows[i]? = some r) :
    q.Reads (RecordBatch.ofRows p.projection rows) p.localIdx i (r.cell q.col) := by
  obtain ⟨idx, hidx, hcol⟩ := Option.bind_eq_some_iff.mp hroot
  refine ⟨idx, columnOfRows rows q.col, hidx, ?_, hfits, columnOfRows_cell hi q.col⟩
  simp [RecordBatch.ofRows, hcol]

/-- **One predicate keeps the rows on which its expression is true.** -/
theorem applyPredicate_eq {p : ArrowPredicate} (hexpr : p.expr = e)
    (hroots : ∀ q ∈ e.leaves, p.leafRoot q.col = some q.col)
    (hfits : ∀ q ∈ e.leaves, q.fits (types.getD q.col (.other ""))) (rows : List (PlacedRow types)) :
    applyPredicate rows p = .ok (rows.filter fun r => e.strictEval r.1.cell = some true) := by
  have hentry : ∀ i r, rows[i]? = some r → Entry rows.length i (e.strictEval r.1.cell)
      (p.evaluate (rows.map Prod.fst)) := by
    intro i r hi
    have hrow : (rows.map Prod.fst)[i]? = some r.1 := by rw [List.getElem?_map, hi, Option.map_some]
    have hlt : i < (RecordBatch.ofRows p.projection (rows.map Prod.fst)).numRows := by
      simpa [RecordBatch.ofRows] using (List.getElem?_eq_some_iff.mp hi).1
    have hmask := eval_entry hlt fun q hq => reads_of_leafRoot (hroots q hq) (hfits q hq) hrow
    rw [ArrowPredicate.evaluate, hexpr]
    simpa [RecordBatch.ofRows] using hmask
  unfold applyPredicate
  cases rows with
  | nil => rfl
  | cons r rows =>
    obtain ⟨mask, hmask, hlength, -⟩ := hentry 0 r rfl
    have hmap : mask = (r :: rows).map fun r => e.strictEval r.1.cell := by
      refine List.ext_getElem? fun i => ?_
      rw [List.getElem?_map]
      cases hi : (r :: rows)[i]? with
      | none => exact List.getElem?_eq_none (hlength ▸ List.getElem?_eq_none_iff.mp hi)
      | some x =>
        obtain ⟨mask', hmask', -, hx⟩ := hentry i x hi
        obtain rfl := Except.ok.inj (hmask.symm.trans hmask')
        exact hx
    rw [hmask]
    exact congrArg Except.ok (keepTrue_eq_filter hmap)

/-- The predicates of the filter, each with its expression. -/
structure BoundTo (types : List DataType) (e : PushedExpr) (p : ArrowPredicate) : Prop where
  expr_eq : p.expr = e
  roots : ∀ q ∈ e.leaves, p.leafRoot q.col = some q.col
  fits : ∀ q ∈ e.leaves, q.fits (types.getD q.col (.other ""))

/-- **The filter keeps the rows that it accepts.** -/
theorem filterGroup_eq {preds : List ArrowPredicate} (h : List.Forall₂ (BoundTo types) exprs preds)
    (rows : List (PlacedRow types)) :
    filterGroup preds rows = .ok (rows.filter fun r => Accepted exprs r.1.cells) := by
  induction h generalizing rows with
  | nil => simp [filterGroup, Accepted, pure, Except.pure]
  | @cons e p exprs preds hp _ ih =>
    rw [filterGroup, List.foldlM_cons, applyPredicate_eq hp.expr_eq hp.roots hp.fits]
    refine (ih _).trans (congrArg Except.ok ?_)
    rw [List.filter_filter]
    refine List.filter_congr fun r _ => ?_
    rw [Bool.eq_iff_iff, Bool.and_eq_true, decide_eq_true_iff, decide_eq_true_iff, decide_eq_true_iff]
    rw [accepted_cons, and_comm]

end Filter

section Stream

variable {exprs : List PushedExpr} {file : ParquetFile} {parquet : BatchCut}

theorem PushableOn.exists_filter (h : PushableOn exprs file) :
    ∃ filter, buildRowFilter file.types.length exprs = .ok filter ∧
      List.Forall₂ (BoundTo file.types) exprs (filter.getD []) := by
  have hpreds : ∀ e ∈ exprs, ∃ p, buildPredicate file.types.length e = .ok p ∧ BoundTo file.types e p := by
    intro e he
    obtain ⟨p, hp, hroots⟩ :=
      (buildPredicate_bound_iff file.types.length e).mpr ⟨h.in_file e he, h.ascend e he⟩
    obtain ⟨hexpr, -⟩ := buildPredicate_eq_ok hp
    exact ⟨p, hp, hexpr, hexpr ▸ hroots, h.fits e he⟩
  obtain ⟨preds, hall⟩ := exists_forall₂ hpreds
  obtain ⟨filter, hfilter, hget⟩ := exists_buildRowFilter
    (mapM_eq_ok_iff.mpr (hall.imp fun e p hp => hp.1))
  exact ⟨filter, hfilter, hget ▸ hall.imp fun e p hp => hp.2⟩

/-- The filter of a scan: none, when nothing is pushed. -/
def qualFilterOf (exprs : List PushedExpr) : Option (List PushedExpr) :=
  if exprs.isEmpty then none else some exprs

/-- The groups that are read. -/
def readGroups (exprs : List PushedExpr) (file : ParquetFile) : List (List (PlacedRow file.types)) :=
  selectGroups ((qualFilterOf exprs).bind (keepRowGroups file)) (placeGroups 0 file.rowGroups)

/-- The batches of a file, with pushed expressions. -/
def keptBatches (parquet : BatchCut) (exprs : List PushedExpr) (roots : List ℕ) (blob : String)
    (file : ParquetFile) : List (FileBatch String) :=
  ((readGroups exprs file).map fun group => group.filter fun r => Accepted exprs r.1.cells).flatMap
    fun group => (parquet.cut group).map fun rows => ⟨blob, file.types, roots, rows⟩

/-- The stream of a file is read to its end. -/
theorem PushableOn.openStream_eq (h : PushableOn exprs file) {projection : Option (List ℕ)}
    {roots : List ℕ} (hroots : projectedRoots file projection = .ok roots) (blob : String) :
    openStream parquet blob projection (qualFilterOf exprs) file =
      .ok ((keptBatches parquet exprs roots blob file).map .ok) := by
  obtain ⟨filter, hfilter, hbound⟩ := h.exists_filter
  have hpreds : filterPredicates file (qualFilterOf exprs) = .ok (filter.getD []) := by
    unfold qualFilterOf
    split_ifs with hempty
    · obtain rfl := List.isEmpty_iff.mp hempty
      cases hbound' : filter.getD [] with
      | nil => rfl
      | cons p preds =>
        rw [hbound'] at hbound
        cases hbound
    · rw [filterPredicates, hfilter]
      rfl
  refine except_bind_eq_ok.mpr ⟨_, hroots, except_bind_eq_ok.mpr ⟨_, hpreds, ?_⟩⟩
  refine congrArg Except.ok ?_
  rw [keptBatches, List.flatMap_map, List.map_flatMap]
  refine List.flatMap_congr fun group _ => ?_
  rw [groupItems, filterGroup_eq hbound, List.map_map]
  rfl

/-- The indices that are left out may be those of empty lists. -/
theorem flatMap_filterMap_of_sublist {α β : Type} {groups : List α} {f : α → List β}
    {keep all : List ℕ} (hsub : keep.Sublist all) (hnodup : all.Nodup)
    (hnone : ∀ i ∈ all, i ∉ keep → ∀ g, groups[i]? = some g → f g = []) :
    (keep.filterMap fun i => groups[i]?).flatMap f = (all.filterMap fun i => groups[i]?).flatMap f := by
  induction hsub with
  | slnil => rfl
  | @cons keep all i hsub ih =>
    obtain ⟨hi, hnodup⟩ := List.nodup_cons.mp hnodup
    have hrest := ih hnodup fun j hj => hnone j (List.mem_cons_of_mem i hj)
    have hempty := hnone i List.mem_cons_self fun hmem => hi (hsub.subset hmem)
    rw [hrest, List.filterMap_cons]
    cases hg : groups[i]? with
    | none => rfl
    | some g => simp [hempty g hg]
  | @cons_cons keep all i hsub ih =>
    obtain ⟨hi, hnodup⟩ := List.nodup_cons.mp hnodup
    have hrest := ih hnodup fun j hj hnot => hnone j (List.mem_cons_of_mem i hj) fun hmem =>
      (List.mem_cons.mp hmem).elim (fun heq => hi (heq ▸ hj)) hnot
    rw [List.filterMap_cons, List.filterMap_cons]
    cases groups[i]? with
    | none => exact hrest
    | some g => rw [List.flatMap_cons, List.flatMap_cons, hrest]

theorem filterMap_range_getElem? {α : Type} (l : List α) :
    (List.range l.length).filterMap (fun i => l[i]?) = l := by
  induction l with
  | nil => rfl
  | cons a l ih => simp [List.range_succ_eq_map, List.filterMap_map, ih]

/-- The rows of a group, with their positions. -/
theorem exists_placeGroups {types : List DataType} {gs : List (RowGroup types)} {i offset : ℕ}
    {group : List (PlacedRow types)} (h : (placeGroups offset gs)[i]? = some group) :
    ∃ g, gs[i]? = some g ∧ group.map Prod.fst = g.rows := by
  induction gs generalizing i offset with
  | nil => cases h
  | cons g gs ih =>
    cases i with
    | zero =>
      obtain rfl := Option.some.inj h
      exact ⟨g, rfl, List.zipIdx_map_fst _ _⟩
    | succ i => exact ih h

/-- **A group with a row that the filter accepts is read.** -/
theorem PushableOn.not_pruned (h : PushableOn exprs file) {keep : List ℕ}
    (hkeep : keepRowGroups file exprs = some keep) {i : ℕ} {g : RowGroup file.types}
    (hg : file.rowGroups[i]? = some g) {r : TypedRow file.types} (hr : r ∈ g.rows)
    (haccepted : Accepted exprs r.cells) : i ∈ keep := by
  refine (mem_pruneRowGroups hkeep).mpr ⟨g.columns, by simp [hg], fun e he hverdict => ?_⟩
  have hsql := PushedExpr.sql_of_strictEval (h.no_floats e he) (haccepted e he)
  rw [PushedExpr.sql_eq_truth] at hsql
  refine evaluateAgainstRg_sound e (fun q hq hleaf htrue => ?_) hverdict hsql
  have hwide : q.sqlBy ArrowValue.wideCompare (r.cell q.col) = some true :=
    PushedQual.sqlBy_mono ArrowValue.wideCompare_of_sqlCompare htrue
  obtain ⟨col, s, x, -, -, -, hnan⟩ :=
    nanEscapes_of_true_row (h.stats_valid g (List.mem_of_getElem? hg)) hr hleaf hwide
  -- only a float literal lets a NaN through
  have hfloat := h.no_floats e he q hq
  unfold PushedQual.NanEscapes at hnan
  split at hnan
  · obtain ⟨lit, hlit, -⟩ := hnan
    rw [hlit] at hfloat
    cases hfloat
  · obtain ⟨lit, hlit, -⟩ := hnan
    rw [hlit] at hfloat
    cases hfloat
  · exact hnan

/-- Pruning leaves out no row that the filter accepts. -/
theorem PushableOn.flatMap_readGroups (h : PushableOn exprs file) :
    (readGroups exprs file).flatMap (fun group => group.filter fun r => Accepted exprs r.1.cells) =
      (placeGroups 0 file.rowGroups).flatMap fun group => group.filter fun r => Accepted exprs r.1.cells := by
  unfold readGroups qualFilterOf
  split_ifs
  · rfl
  · rw [Option.bind_some]
    cases hkeep : keepRowGroups file exprs with
    | none => rfl
    | some keep =>
      have hsub : keep.Sublist (List.range (placeGroups 0 file.rowGroups).length) := by
        simpa [length_placeGroups] using pruneRowGroups_sorted hkeep
      rw [selectGroups, flatMap_filterMap_of_sublist hsub List.nodup_range, filterMap_range_getElem?]
      intro i _ hnot group hgroup
      obtain ⟨g, hg, hrows⟩ := exists_placeGroups hgroup
      refine List.filter_eq_nil_iff.mpr fun r hr haccepted => hnot ?_
      refine h.not_pruned hkeep hg ?_ (of_decide_eq_true haccepted)
      rw [← hrows]
      exact List.mem_map_of_mem hr

/-- **What a scan with pushed expressions makes of a file**: it reads the rows that the filter
accepts. -/
theorem PushableOn.flatMap_keptBatches {β : Type} (h : PushableOn exprs file) {roots : List ℕ}
    {blob : String} {f : FileBatch String → List β} {g : TypedRow file.types → β}
    (hbatch : ∀ rows, f ⟨blob, file.types, roots, rows⟩ = rows.map fun r => g r.1) :
    (keptBatches parquet exprs roots blob file).flatMap f =
      (file.rows.filter fun r => Accepted exprs r.cells).map g := by
  have hfst : (placeGroups 0 file.rowGroups).flatten.map Prod.fst = file.rows := by
    rw [flatten_placeGroups, List.zipIdx_map_fst, ParquetFile.rows]
  rw [keptBatches, flatMap_cut hbatch, ← List.flatMap_def, h.flatMap_readGroups, List.flatMap_def,
    ← List.filter_flatten, ← hfst, List.filter_map, List.map_map]
  rfl

end Stream

/-! ### The quals of Postgres -/

section Quals

variable {pg : PgSemantics} {ext : Externals} {quals : List Node} {partitionAttnums : List ℕ}
  {natts : ℕ} {exprs : List PushedExpr} {file : ParquetFile}

/-- A row passes the quals. -/
def Passes (pg : PgSemantics) (quals : List Node) (tuple : PgRow) : Prop :=
  ∀ n ∈ quals, n.truth pg tuple = some true

instance (pg : PgSemantics) (quals : List Node) (tuple : PgRow) : Decidable (Passes pg quals tuple) :=
  inferInstanceAs (Decidable (∀ n ∈ quals, _ = _))

/-- What is pushed of the quals: `storage_quals`. -/
def pushedQuals (partitionAttnums : List ℕ) (natts : ℕ) (quals : List Node) : List PushedExpr :=
  storageQuals partitionAttnums natts (walkQuals quals)

theorem mem_walkQuals {e : PushedExpr} : e ∈ walkQuals quals ↔ ∃ n ∈ quals, walkNode n = some e := by
  rw [walkQuals, walkNodes_eq_map]
  simp

/-- The expressions that are pushed keep the numbers of their columns, where those stand before the
partition columns. -/
theorem mem_pushedQuals (hattrs : ∀ e ∈ walkQuals quals, ∀ q ∈ e.leaves, q.col < natts ∧
      (q.col ∉ partitionAttnums → ∀ p ∈ partitionAttnums, q.col < p))
    {e : PushedExpr} (he : e ∈ pushedQuals partitionAttnums natts quals) :
    e ∈ walkQuals quals ∧ ∀ q ∈ e.leaves, q.col ∉ partitionAttnums := by
  obtain ⟨e₀, he₀, hstorage, htranslate⟩ := (mem_storageQuals _ _ _).mp he
  have hself : translateQualToParquetIdx (storageAttnoToParquetIdx partitionAttnums natts) e₀ =
      some e₀ := by
    refine translate_self fun q hq => ?_
    obtain ⟨hlt, hbefore⟩ := hattrs e₀ he₀ q hq
    obtain ⟨k, hk, hrank⟩ := storageIdx_of_storage hlt (hstorage q hq)
    have hcol := (storageAttnos_getElem?_self_iff hlt).mpr (hbefore (hstorage q hq))
    have hnodup : (storageAttnos partitionAttnums natts).Nodup := List.nodup_range.filter _
    obtain rfl : k = q.col := (List.getElem?_inj (List.getElem?_eq_some_iff.mp hrank).1 hnodup).mp
      (hrank.trans hcol.symm)
    exact hk
  obtain rfl := Option.some.inj (htranslate.symm.trans hself)
  exact ⟨he₀, hstorage⟩

/-- **A row that passes the quals makes every pushed expression true**, where the walker loses
nothing under a NOT. -/
theorem sql_of_passes (hsafe : ∀ n ∈ quals, n.Safe true) {e : PushedExpr} (he : e ∈ walkQuals quals)
    {stored : ℕ → Option ArrowValue} {tuple : PgRow} (hreads : e.ReadsDelivered ext stored tuple)
    (hpasses : Passes pg quals tuple) : e.sql stored = some true := by
  obtain ⟨n, hn, hwalk⟩ := mem_walkQuals.mp he
  exact walkNode_preserves (hsafe n hn) e hwalk hreads (hpasses n hn)

/-- **A row on which every expression is true is accepted unless a comparison reads a NULL.** -/
theorem PushableOn.accepted_iff_of_true (h : PushableOn exprs file) {r : TypedRow file.types}
    (htrue : ∀ e ∈ exprs, e.sql r.cell = some true) :
    Accepted exprs r.cells ↔
      ∀ e ∈ exprs, ∀ q ∈ e.leaves, q.op.isComparison = true → r.cell q.col ≠ none := by
  have haccepted : Accepted exprs r.cells ↔ ∀ e ∈ exprs, e.strictEval r.cell = some true := Iff.rfl
  rw [haccepted]
  refine forall₂_congr fun e he => ?_
  have hnone : e.strictEval r.cell = none ↔
      ∃ q ∈ e.leaves, q.op.isComparison = true ∧ r.cell q.col = none := by
    refine PushedExpr.strictEval_eq_none fun q hq => ?_
    have hreads : q.Reads (RecordBatch.ofRows (List.range file.types.length) [r]) some 0
        (r.cell q.col) := by
      refine ⟨q.col, columnOfRows [r] q.col, rfl, ?_, h.fits e he q hq, columnOfRows_cell rfl q.col⟩
      simp [RecordBatch.ofRows, h.in_file e he q hq]
    exact hreads.kernelTruth_eq_none
  constructor
  · intro hval q hq hop hnull
    rw [hnone.mpr ⟨q, hq, hop, hnull⟩] at hval
    cases hval
  · intro hknown
    cases hval : e.strictEval r.cell with
    | none =>
      obtain ⟨q, hq, hop, hnull⟩ := hnone.mp hval
      exact absurd hnull (hknown q hq hop)
    | some b =>
      rw [← PushedExpr.sql_of_strictEval (h.no_floats e he) hval, htrue e he]

end Quals

/-! ### The tuples of a scan -/

/-- How a call fills the slot with its row, from what was in it before. -/
def ScannedRow.fill {τ : Type} (cfg : ScanConfig) (r : ScannedRow τ) (slot : Tuple) : Outcome Tuple :=
  fillSlot cfg slot r.partitionDatums r.batch.batch r.row

/-- The tuple that a call hands out, from an empty slot; it has no value where the call fails. -/
def tupleOf (natts : ℕ) (fill : Tuple → Outcome Tuple) : PgRow := fun a =>
  match fill (List.replicate natts none) with
  | .ok slot => slot.getD a none
  | .error _ => none

/-- The call succeeds, and its tuple does not show what was in the slot before. -/
def Fills (natts : ℕ) (fill : Tuple → Outcome Tuple) : Prop :=
  ∀ slot : Tuple, slot.length = natts →
    ∃ filled, fill slot = .ok filled ∧ ∀ a, filled.getD a none = tupleOf natts fill a

/-- A row of a file, with the datums of its blob. -/
structure FetchedRow where
  datums : List Datum
  types : List DataType
  row : TypedRow types

/-- How the slot is filled with it. -/
def FetchedRow.fill (cfg : ScanConfig) (c : FetchedRow) (slot : Tuple) : Outcome Tuple :=
  fillSlot cfg slot c.datums (.ofRows cfg.attnoMap [c.row]) 0

section Tuples

variable {cfg : ScanConfig} {types : List DataType} {rows : List (TypedRow types)} {i : ℕ}
  {r : TypedRow types} {datums : List Datum}

/-- A row of a batch is read as a batch of its own would be. -/
theorem fillSlot_row (hi : rows[i]? = some r) (roots : List ℕ) (slot : Tuple) :
    fillSlot cfg slot datums (.ofRows roots rows) i = fillSlot cfg slot datums (.ofRows roots [r]) 0 := by
  have hcolumns : ∀ attnos k slot, overlayColumns cfg (.ofRows roots rows) i k attnos slot =
      overlayColumns cfg (.ofRows roots [r]) 0 k attnos slot := by
    intro attnos
    induction attnos with
    | nil => exact fun _ _ => rfl
    | cons a attnos ih =>
      intro k slot
      have hvalue : ∀ c oid, arrowValueToDatum cfg.ext (columnOfRows rows c) i oid =
          arrowValueToDatum cfg.ext (columnOfRows [r] c) 0 oid := by
        intro c oid
        rw [arrowValueToDatum, columnOfRows_cell hi, arrowValueToDatum, columnOfRows_cell rfl]
        rfl
      have hcolumn : ∀ rows : List (TypedRow types), (RecordBatch.ofRows roots rows).columns[k]? =
          roots[k]?.map (columnOfRows rows) := fun _ => List.getElem?_map
      simp only [overlayColumns, hcolumn, ih]
      cases roots[k]? with
      | none => rfl
      | some c => simp only [Option.map_some, hvalue]
  simp only [fillSlot, hcolumns]

/-- **A row whose values convert fills the slot**, and a storage attribute that is projected is
delivered from the cell of its number. -/
theorem FetchedRow.fills (hcolumns : cfg.projection = some cfg.attnoMap)
    (hascending : cfg.attnoMap.Pairwise (· < ·))
    (hnatts : ∀ a ∈ cfg.attnoMap, a < cfg.pgOids.length)
    (hread : ∀ a ∈ cfg.attnoMap, ∃ v, datumAt cfg [r] 0 a = .ok v) :
    Fills cfg.pgOids.length (FetchedRow.fill cfg ⟨datums, types, r⟩) ∧
      ∀ a ∈ cfg.attnoMap, a ∉ cfg.partitionAttnums → DeliveredAs cfg.ext (r.cell a)
        (tupleOf cfg.pgOids.length (FetchedRow.fill cfg ⟨datums, types, r⟩) a) := by
  choose! v hv using hread
  have hfill : ∀ slot : Tuple, FetchedRow.fill cfg ⟨datums, types, r⟩ slot =
      .ok (overlayPartition cfg.partitionAttnums datums (cfg.attnoMap.foldl (fun s a => s.set a (v a))
        (if cfg.attnoMap.length < cfg.pgOids.length then List.replicate cfg.pgOids.length none
          else slot))) := by
    intro slot
    have hfilled : fillSlot (cfg.withColumns cfg.attnoMap) slot datums
        (.ofRows cfg.attnoMap [r]) 0 = _ :=
      fillSlot_withColumns fun a ha => ⟨hnatts a ha, hv a ha⟩
    rwa [show cfg.withColumns cfg.attnoMap = cfg by rw [ScanConfig.withColumns, ← hcolumns]] at hfilled
  have htuple : ∀ a, tupleOf cfg.pgOids.length (FetchedRow.fill cfg ⟨datums, types, r⟩) a =
      (overlayPartition cfg.partitionAttnums datums (cfg.attnoMap.foldl (fun s a => s.set a (v a))
        (List.replicate cfg.pgOids.length none))).getD a none := by
    intro a
    rw [tupleOf, hfill, ite_self]
  refine ⟨fun slot hslot => ⟨_, hfill slot, fun a => ?_⟩, fun a ha hstorage => ?_⟩
  · rw [htuple, List.getD_eq_getElem?_getD, List.getD_eq_getElem?_getD]
    refine congrArg (Option.getD · none) (overlayPartition_congr ?_ (.inr ?_))
    · rw [length_foldl_set, length_foldl_set]
      split_ifs <;> simp [hslot]
    · rw [foldl_set_getElem?, foldl_set_getElem?]
      by_cases hmissing : a < cfg.pgOids.length ∧ a ∉ cfg.attnoMap
      · rw [if_pos (length_lt_of_notMem hascending hnatts hmissing.1 hmissing.2)]
      · grind
  · have hlt := hnatts a ha
    refine ⟨columnOfRows [r] a, 0, cfg.pgOids.getD a 0, columnOfRows_cell rfl a, (hv a ha).trans ?_⟩
    rw [htuple, List.getD_eq_getElem?_getD, overlayPartition_of_notMem hstorage, foldl_set_getElem?,
      if_pos ⟨ha, by rwa [List.length_replicate]⟩]
    rfl

end Tuples

/-! ### The two scans -/

section Scans

variable (parquet : BatchCut) (cfg : ScanConfig) (fetch : String → FdwResult ParquetFile)

/-- A scan of the blobs returns these rows, one by one, and then none. -/
def ScanReturns (blobs : List ListedBlob) (returned : List (ScannedRow String)) : Prop :=
  ∀ natts outs t, Run (ScanCall cfg (openBlobOf parquet cfg fetch)) (.initial blobs natts) outs t →
    (∀ i, i < outs.length → outs[i]? = some returned[i]?) ∧
      ∃ out t', ScanCall cfg (openBlobOf parquet cfg fetch) t out t'

variable {parquet cfg fetch} {blobs : List ListedBlob} {exprs : List PushedExpr}

/-- The rows of the blobs that are not skipped. -/
def fetchedRows (cfg : ScanConfig) (fetch : String → FdwResult ParquetFile)
    (blobs : List ListedBlob) : List FetchedRow :=
  blobs.flatMap fun blob =>
    if cfg.skips blob.1 then []
    else match fetch blob.1 with
      | .ok file => file.rows.map fun r => ⟨cfg.datumsOf blob.1, file.types, r⟩
      | .error _ => []

/-- The files of the blobs that are not skipped can be read: they have the columns that are
projected, each value in these converts to the type of its attribute, and the expressions can be
pushed to them. -/
def FilesPushable (cfg : ScanConfig) (fetch : String → FdwResult ParquetFile)
    (exprs : List PushedExpr) (blobs : List ListedBlob) : Prop :=
  ∀ b ∈ blobs, cfg.skips b.1 = false → ∃ file, fetch b.1 = .ok file ∧ PushableOn exprs file ∧
    ∀ a ∈ cfg.attnoMap, a < file.types.length ∧ ∀ r ∈ file.rows, ∃ v, datumAt cfg [r] 0 a = .ok v

/-- **A scan with pushed expressions returns the rows that its filter accepts.** -/
theorem exists_scanReturns (parquet : BatchCut) (hcolumns : cfg.projection = some cfg.attnoMap)
    (hascending : cfg.attnoMap.Pairwise (· < ·)) (hfiles : FilesPushable cfg fetch exprs blobs) :
    ∃ returned, ScanReturns parquet { cfg with qualFilter := qualFilterOf exprs } fetch blobs returned ∧
      returned.map (ScannedRow.fill cfg) =
        ((fetchedRows cfg fetch blobs).filter fun c => Accepted exprs c.row.cells).map
          (FetchedRow.fill cfg) := by
  let contents : String → List (FileBatch String) := fun blob =>
    match fetch blob with
    | .ok file => keptBatches parquet exprs cfg.attnoMap blob file
    | .error _ => []
  let pushing : ScanConfig := { cfg with qualFilter := qualFilterOf exprs }
  have hread : BlobsReadable pushing contents (openBlobOf parquet pushing fetch) blobs := by
    intro b hb hskip
    obtain ⟨file, hfetch, hpushable, hconverts⟩ := hfiles b hb hskip
    have hok : projectedRoots file (some cfg.attnoMap) = .ok _ := if_pos fun a ha => (hconverts a ha).1
    rw [projectionRoots_of_ascending hascending hok] at hok
    refine except_bind_eq_ok.mpr ⟨file, FdwResult.lift_eq_ok.mpr hfetch, ?_⟩
    show openStream parquet b.1 cfg.projection (qualFilterOf exprs) file = _
    rw [hcolumns, hpushable.openStream_eq hok]
    simp only [contents, hfetch]
  refine ⟨tableSequence pushing contents blobs, fun natts outs t run => ?_, ?_⟩
  · obtain ⟨hsound, -, houts⟩ := (ScanSound.initial natts).calls hread run
    exact ⟨houts, hsound.exists_call hread⟩
  · rw [tableSequence, List.map_flatMap, fetchedRows, List.filter_flatMap, List.map_flatMap]
    refine List.flatMap_congr fun b hb => ?_
    refine (map_blobSequence (fun datums batch i slot => fillSlot cfg slot datums batch.batch i) b).trans ?_
    show (if cfg.skips b.1 then [] else _) = _
    cases hskip : cfg.skips b.1 with
    | true => rfl
    | false =>
      obtain ⟨file, hfetch, hpushable, -⟩ := hfiles b hb hskip
      simp only [contents, hfetch, Bool.false_eq_true, if_false]
      rw [hpushable.flatMap_keptBatches
        (g := fun r => FetchedRow.fill cfg ⟨cfg.datumsOf b.1, file.types, r⟩) fun rows => ?_]
      · rw [List.filter_map, List.map_map]
        rfl
      · refine List.ext_getElem (by simp [FileBatch.batch, RecordBatch.ofRows]) fun i _ hi => ?_
        rw [List.length_map] at hi
        rw [List.getElem_map, List.getElem_map, List.getElem_range]
        exact funext fun slot => fillSlot_row (by simp [hi]) _ slot

/-- Selecting before and after is the second selection alone when that implies the first. -/
theorem filter_map_filter_eq_iff {α β : Type} {f : α → β} {p : α → Bool} {q : β → Bool} {l : List α} :
    ((l.filter p).map f).filter q = (l.map f).filter q ↔ ∀ a ∈ l, q (f a) = true → p a = true := by
  rw [List.filter_map, List.filter_map]
  have hsub : ((l.filter p).filter (q ∘ f)).Sublist (l.filter (q ∘ f)) := (List.filter_sublist).filter _
  constructor
  · intro h a ha hq
    have heq := hsub.eq_of_length (by simpa using congrArg List.length h)
    have hmem : a ∈ (l.filter p).filter (q ∘ f) := heq ▸ List.mem_filter.mpr ⟨ha, hq⟩
    exact (List.mem_filter.mp (List.mem_of_mem_filter hmem)).2
  · intro h
    rw [List.filter_filter]
    refine congrArg _ (List.filter_congr fun a ha => ?_)
    cases hq : (q ∘ f) a with
    | false => simp
    | true => simp [h a ha hq]

/-- What is built for a planned projection. -/
theorem buildScanConfig_columns {ext : Externals} {attrs : List Attribute} {opts : PartitionOptions}
    {qualFilter : Option (List PushedExpr)} {plan : PlannedProjection attrs.length}
    (hnatts : 0 < attrs.length)
    (h : buildScanConfig ext attrs opts qualFilter plan.fdwPrivate = .ok cfg) :
    cfg.qualFilter = qualFilter ∧ cfg.projection = some cfg.attnoMap ∧
      cfg.attnoMap.Pairwise (· < ·) ∧ ∀ a ∈ cfg.attnoMap, a < cfg.pgOids.length := by
  obtain ⟨oids, hoids, h⟩ := except_bind_eq_ok.mp h
  obtain ⟨attnums, -, h⟩ := except_bind_eq_ok.mp h
  obtain ⟨idxs, hidxs, h⟩ := except_bind_eq_ok.mp h
  obtain rfl := Except.ok.inj h
  have hlength : oids.length = attrs.length := by rw [attributeOids_eq hoids, List.length_map]
  rw [hlength, projectedColumns_planned plan hnatts] at hidxs
  obtain rfl := Except.ok.inj hidxs
  refine ⟨rfl, rfl, plan.indices_ascending hnatts, fun a ha => ?_⟩
  obtain ⟨r, hr, rfl⟩ := List.mem_map.mp ha
  have := plan.attnums_bounds hnatts r hr
  show (r - 1).toNat < oids.length
  omega

/-- **A scan with the quals pushed down and one without hand out the same tuples that pass the quals,
exactly when no tuple that passes them has a NULL in an attribute that a pushed comparison reads.**

`plain` is the scan without pushdown, as it is built for a planned projection.  The plan projects the
attributes that the quals compare, and of the storage attributes only those that stand before the
partition columns.  The quals are such that the walker drops nothing below a NOT, and what it makes
of them can be pushed to the files.  The service answers the requests of both scans. -/
theorem pushdown_select_agrees_iff (parquet : BatchCut) (pg : PgSemantics) {quals : List Node}
    {ext : Externals} {attrs : List Attribute} {opts : PartitionOptions}
    {plan : PlannedProjection attrs.length} {plain : ScanConfig} (hnatts : 0 < attrs.length)
    (hplain : buildScanConfig ext attrs opts none plan.fdwPrivate = .ok plain)
    (hsafe : ∀ n ∈ quals, n.Safe true)
    (hcompared : ∀ e ∈ walkQuals quals, ∀ q ∈ e.leaves, q.col ∈ plain.attnoMap)
    (hbefore : ∀ a ∈ plain.attnoMap, a ∉ plain.partitionAttnums → ∀ p ∈ plain.partitionAttnums, a < p)
    (hfiles : FilesPushable plain fetch
      (pushedQuals plain.partitionAttnums plain.pgOids.length quals) blobs) :
    ∃ pushed returned : List (ScannedRow String),
      ScanReturns parquet { plain with
        qualFilter := qualFilterOf (pushedQuals plain.partitionAttnums plain.pgOids.length quals) }
        fetch blobs pushed ∧
      ScanReturns parquet plain fetch blobs returned ∧
      (∀ r ∈ pushed ++ returned, Fills plain.pgOids.length (r.fill plain)) ∧
      ((pushed.map fun r => tupleOf plain.pgOids.length (r.fill plain)).filter (Passes pg quals) =
          (returned.map fun r => tupleOf plain.pgOids.length (r.fill plain)).filter (Passes pg quals) ↔
        ∀ r ∈ returned, Passes pg quals (tupleOf plain.pgOids.length (r.fill plain)) →
          ∀ e ∈ pushedQuals plain.partitionAttnums plain.pgOids.length quals, ∀ q ∈ e.leaves,
            q.op.isComparison = true → tupleOf plain.pgOids.length (r.fill plain) q.col ≠ none) := by
  obtain ⟨hqual, hcolumns, hascending, hlt⟩ := buildScanConfig_columns hnatts hplain
  have hwalked := fun e => mem_pushedQuals (e := e) fun e he q hq =>
    ⟨hlt _ (hcompared e he q hq), hbefore _ (hcompared e he q hq)⟩
  set exprs := pushedQuals plain.partitionAttnums plain.pgOids.length quals
  set tuple := tupleOf plain.pgOids.length
  have hfiles₀ : FilesPushable plain fetch [] blobs := by
    intro b hb hskip
    obtain ⟨file, hfetch, hpushable, hconverts⟩ := hfiles b hb hskip
    exact ⟨file, hfetch, ⟨hpushable.stats_valid, by simp, by simp, by simp, by simp⟩, hconverts⟩
  obtain ⟨pushed, hpushed, hfill⟩ := exists_scanReturns parquet hcolumns hascending hfiles
  obtain ⟨returned, hreturned, hfill₀⟩ := exists_scanReturns parquet hcolumns hascending hfiles₀
  rw [show qualFilterOf [] = plain.qualFilter from hqual.symm] at hreturned
  rw [List.filter_eq_self.mpr fun c _ => by simp [Accepted]] at hfill₀
  have hrow : ∀ c ∈ fetchedRows plain fetch blobs, ∃ file, PushableOn exprs file ∧
      ∃ datums, ∃ r : TypedRow file.types, c = ⟨datums, file.types, r⟩ ∧
        ∀ a ∈ plain.attnoMap, ∃ v, datumAt plain [r] 0 a = .ok v := by
    intro c hc
    obtain ⟨b, hb, hc⟩ := List.mem_flatMap.mp hc
    cases hskip : plain.skips b.1 with
    | true => simp [hskip] at hc
    | false =>
      obtain ⟨file, hfetch, hpushable, hconverts⟩ := hfiles b hb hskip
      simp only [hskip, Bool.false_eq_true, if_false, hfetch, List.mem_map] at hc
      obtain ⟨r, hr, rfl⟩ := hc
      exact ⟨file, hpushable, _, r, rfl, fun a ha => (hconverts a ha).2 r hr⟩
  refine ⟨pushed, returned, hpushed, hreturned, fun r hr => ?_, ?_⟩
  · obtain ⟨c, hc, hsame⟩ : ∃ c ∈ fetchedRows plain fetch blobs, c.fill plain = r.fill plain := by
      rcases List.mem_append.mp hr with hr | hr
      · obtain ⟨c, hc, hsame⟩ := List.mem_map.mp (hfill ▸ List.mem_map_of_mem hr)
        exact ⟨c, List.mem_of_mem_filter hc, hsame⟩
      · exact List.mem_map.mp (hfill₀ ▸ List.mem_map_of_mem hr)
    obtain ⟨file, -, datums, row, rfl, hread⟩ := hrow c hc
    exact hsame ▸ (FetchedRow.fills hcolumns hascending hlt hread).1
  · have hmap : ∀ rows : List (ScannedRow String), (rows.map fun r => tuple (r.fill plain)) =
        (rows.map (ScannedRow.fill plain)).map tuple := fun rows => by rw [List.map_map]; rfl
    have hall : ∀ P : (Tuple → Outcome Tuple) → Prop, (∀ r ∈ returned, P (r.fill plain)) ↔
        ∀ c ∈ fetchedRows plain fetch blobs, P (c.fill plain) := by
      intro P
      rw [← List.forall_mem_map, hfill₀, List.forall_mem_map]
    rw [hmap, hmap, hfill, hfill₀, List.map_map, List.map_map, filter_map_filter_eq_iff,
      hall fun fill => Passes pg quals (tuple fill) → ∀ e ∈ exprs, ∀ q ∈ e.leaves,
        q.op.isComparison = true → tuple fill q.col ≠ none]
    refine forall₂_congr fun c hc => ?_
    rw [decide_eq_true_iff, decide_eq_true_iff]
    refine imp_congr_right fun hpasses => ?_
    obtain ⟨file, hpushable, datums, row, rfl, hread⟩ := hrow c hc
    have hleaf : ∀ e ∈ exprs, ∀ q ∈ e.leaves, DeliveredAs plain.ext (row.cell q.col)
        (tuple (FetchedRow.fill plain ⟨datums, file.types, row⟩) q.col) := fun e he q hq =>
      (FetchedRow.fills hcolumns hascending hlt hread).2 _ (hcompared e (hwalked e he).1 q hq)
        ((hwalked e he).2 q hq)
    rw [hpushable.accepted_iff_of_true fun e he => sql_of_passes hsafe (hwalked e he).1
      (fun q hq => ⟨hpushable.no_floats e he q hq, hleaf e he q hq⟩) hpasses]
    refine forall₂_congr fun e he => forall₂_congr fun q hq => imp_congr_right fun _ => not_congr ?_
    obtain ⟨hcell, hnull⟩ | ⟨x, d, -, -, hcell, hsome, -⟩ := (hleaf e he q hq).null_or_converted
    · exact iff_of_true hcell hnull
    · exact iff_of_false (by simp [hcell]) (by simp [hsome])

end Scans

/-- The scan of the one column `x`. -/
def xScan : ScanConfig where
  ext := .permissive
  pgOids := [int4Oid]
  projection := some [0]
  attnoMap := [0]
  qualFilter := none
  partitionAttnums := []
  partitionKeysDecl := []

/-- `WHERE x = 1` on a file of two groups: the second is pruned, and of the first the row with a
NULL is filtered out. -/
theorem x_is_one_selected : ∃ pushed returned : List (ScannedRow String),
    buildScanConfig .permissive [int4Column "x"] withoutPartitions none (some [1]) = .ok xScan ∧
    ScanReturns oneBatch { xScan with qualFilter := some [.leaf ⟨0, .eq, .i32 1⟩] }
      (fun _ => .ok twoGroups) [("t.parquet", "0x1")] pushed ∧
    ScanReturns oneBatch xScan (fun _ => .ok twoGroups) [("t.parquet", "0x1")] returned ∧
    (pushed.map fun r => tupleOf 1 (r.fill xScan)).filter (Passes tableExecutor [xIsOne]) =
      (returned.map fun r => tupleOf 1 (r.fill xScan)).filter (Passes tableExecutor [xIsOne]) := by
  have hconfig : buildScanConfig .permissive [int4Column "x"] withoutPartitions none
      (PlannedProjection.select ⟨[1], by decide, by decide⟩ :
        PlannedProjection [int4Column "x"].length).fdwPrivate = .ok xScan := rfl
  have hsafe : ∀ n ∈ [xIsOne], n.Safe true := by simp [Node.Safe, xIsOne]
  have hcompared : ∀ e ∈ walkQuals [xIsOne], ∀ q ∈ e.leaves, q.col ∈ xScan.attnoMap := by
    have hwalk : walkQuals [xIsOne] = [.leaf ⟨0, .eq, .i32 1⟩] := rfl
    simp [hwalk, PushedExpr.leaves, xScan]
  have hpushable : PushableOn [.leaf ⟨0, .eq, .i32 1⟩] twoGroups := by
    refine ⟨twoGroups_valid, by simp [PushedExpr.leaves, twoGroups], ?_, ?_,
      by simp [ScalarValueRepr.isFloat]⟩
    · simp [← (collectCols_spec _).2.2, collectCols, collectWalk]
    · simp only [List.mem_singleton, forall_eq, PushedExpr.leaves]
      exact fun _ => ⟨_, rfl⟩
  have hfiles : FilesPushable xScan (fun _ => .ok twoGroups) (pushedQuals [] 1 [xIsOne])
      [("t.parquet", "0x1")] := by
    refine fun _ _ _ => ⟨twoGroups, rfl, hpushable, fun a ha => ?_⟩
    obtain rfl := List.mem_singleton.mp ha
    refine ⟨by decide, fun r hr => ?_⟩
    rcases hr with _ | ⟨_, _ | ⟨_, _ | ⟨_, hr⟩⟩⟩
    · exact ⟨_, rfl⟩
    · exact ⟨_, rfl⟩
    · exact ⟨_, rfl⟩
    · cases hr
  obtain ⟨pushed, returned, hp, hr, -, hiff⟩ := pushdown_select_agrees_iff oneBatch tableExecutor
    (by decide) hconfig hsafe hcompared (fun _ _ _ _ hp => absurd hp List.not_mem_nil) hfiles
  refine ⟨pushed, returned, rfl, hp, hr, hiff.mpr fun r _ hpasses e he q hq _ hnull => ?_⟩
  obtain rfl := List.mem_singleton.mp he
  obtain rfl := List.mem_singleton.mp hq
  have htrue : truth (tableExecutor.operator 96 [tupleOf 1 (r.fill xScan) 0, some (.int4 1)]) =
      some true := hpasses xIsOne (List.mem_singleton_self _)
  rw [show tupleOf 1 (r.fill xScan) 0 = none from hnull] at htrue
  cases htrue

end ParquetAzureFdw
