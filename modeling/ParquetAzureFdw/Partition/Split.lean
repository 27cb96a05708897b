/-
# Partition quals and storage quals

`split_quals_by_target` and `classify_target` of `src/fdw/partition.rs`,
`translate_qual_to_parquet_idx` of `src/fdw/pushdown.rs`, and the part of
`build_scan_state_core` (`src/fdw/scan.rs`) that puts them together.  The pushed
expressions name attributes of the relation.  Those over partition columns are decided
by the path of a blob, those over storage columns are renumbered for its columns, and
an expression over both is dropped.

The renumbering is the rank of an attribute among the storage columns, with a gap at
each partition column (`storageIdx_of_storage`).  An expression over storage columns has
a translation, and it means on the blob's row what the expression means on the
relation's (`exists_translate_of_storage`); nothing that is kept is false of a row that
satisfies every expression (`split_preserves_meaning`).
-/

import ParquetAzureFdw.Pushdown.Expr
import ParquetAzureFdw.Relation

namespace ParquetAzureFdw

open ThreeValued

/-! ### Classification -/

/-- `Target`. -/
inductive Target where
  | partition
  | storage
  | mixed
  deriving DecidableEq, Repr

section Classify

variable (partitionAttnums : List ℕ)

mutual

/-- `classify_target`. -/
def classifyTarget : PushedExpr → Target
  | .leaf q => if q.col ∈ partitionAttnums then .partition else .storage
  | .and xs | .or xs => classifyChildren false false xs
  | .not x => classifyTarget x

/-- The loop of `classify_target` over the children of a connective, with its two flags. -/
def classifyChildren (seenPartition seenStorage : Bool) : List PushedExpr → Target
  | [] =>
    match seenPartition, seenStorage with
    | true, true => .mixed
    | true, false => .partition
    | false, _ => .storage
  | x :: xs =>
    match classifyTarget x with
    | .partition => classifyChildren true seenStorage xs
    | .storage => classifyChildren seenPartition true xs
    | .mixed => .mixed

end

/-- `split_quals_by_target`: the expressions over partition columns, and those over storage
columns. -/
def splitQualsByTarget (exprs : List PushedExpr) : List PushedExpr × List PushedExpr :=
  (exprs.filter fun e => classifyTarget partitionAttnums e = .partition,
    exprs.filter fun e => classifyTarget partitionAttnums e = .storage)

end Classify

/-! ### Translation -/

mutual

/-- `translate_qual_to_parquet_idx`. -/
def translateQualToParquetIdx (map : List (Option ℕ)) : PushedExpr → Option PushedExpr
  | .leaf q => do
    let p ← map[q.col]?.join
    return .leaf { q with col := p }
  | .and xs => do return .and (← translateQuals map xs)
  | .or xs => do return .or (← translateQuals map xs)
  | .not x => do return .not (← translateQualToParquetIdx map x)

/-- The translations of the children of a connective, all or none. -/
def translateQuals (map : List (Option ℕ)) : List PushedExpr → Option (List PushedExpr)
  | [] => some []
  | x :: xs => do
    let x' ← translateQualToParquetIdx map x
    return x' :: (← translateQuals map xs)

end

/-- The loop of `build_scan_state_core` that numbers the storage columns, from the number of the
next one. -/
def numberStorage (partitionAttnums : List ℕ) (nextParquetIdx : ℕ) : List ℕ → List (Option ℕ)
  | [] => []
  | a :: attnos =>
    if a ∈ partitionAttnums then none :: numberStorage partitionAttnums nextParquetIdx attnos
    else some nextParquetIdx :: numberStorage partitionAttnums (nextParquetIdx + 1) attnos

/-- `storage_attno_to_parquet_idx`. -/
def storageAttnoToParquetIdx (partitionAttnums : List ℕ) (natts : ℕ) : List (Option ℕ) :=
  numberStorage partitionAttnums 0 (List.range natts)

/-- The `storage_quals` of `build_scan_state_core`. -/
def storageQuals (partitionAttnums : List ℕ) (natts : ℕ) (exprs : List PushedExpr) :
    List PushedExpr :=
  (splitQualsByTarget partitionAttnums exprs).2.filterMap
    (translateQualToParquetIdx (storageAttnoToParquetIdx partitionAttnums natts))

/-! ### The values that the two parts see -/

/-- The partition values of a row. -/
def partitionValues (partitionAttnums : List ℕ) (row : ℕ → Option ArrowValue) :
    ℕ → Option ArrowValue :=
  fun a => if a ∈ partitionAttnums then row a else none

/-- The row of the blob: the values of the storage columns, in descriptor order. -/
def parquetRow (partitionAttnums : List ℕ) (natts : ℕ) (row : ℕ → Option ArrowValue) :
    ℕ → Option ArrowValue :=
  fun k => (storageAttnos partitionAttnums natts)[k]?.bind row

/-- The meaning of a tree depends on the columns of its leaves. -/
theorem PushedExpr.sql_congr {row row' : ℕ → Option ArrowValue} {e : PushedExpr}
    (h : ∀ q ∈ e.leaves, row q.col = row' q.col) : e.sql row = e.sql row' := by
  induction e using PushedExpr.induction with
  | leaf q => rw [sql_leaf, sql_leaf, h q (by simp [leaves])]
  | and xs ih | or xs ih =>
    rw [leaves, forall_leavesList] at h
    have hmap := List.map_congr_left fun x hx => ih x hx (h x hx)
    simp [hmap]
  | not x ih =>
    rw [leaves] at h
    rw [sql_not, sql_not, ih h]

section Classified

variable {partitionAttnums : List ℕ}

/-- A connective is over partition columns only if its children are, and no storage column was
seen before. -/
theorem classifyChildren_eq_partition {seenPartition seenStorage : Bool} {xs : List PushedExpr}
    (h : classifyChildren partitionAttnums seenPartition seenStorage xs = .partition) :
    seenStorage = false ∧ ∀ x ∈ xs, classifyTarget partitionAttnums x = .partition := by
  induction xs generalizing seenPartition seenStorage with
  | nil => cases seenPartition <;> cases seenStorage <;> simp_all [classifyChildren]
  | cons x xs ih =>
    rw [classifyChildren] at h
    cases hx : classifyTarget partitionAttnums x with
    | partition =>
      rw [hx] at h
      obtain ⟨hseen, hxs⟩ := ih h
      exact ⟨hseen, List.forall_mem_cons.mpr ⟨hx, hxs⟩⟩
    | storage =>
      rw [hx] at h
      cases (ih h).1
    | mixed =>
      rw [hx] at h
      cases h

/-- A connective is over storage columns exactly if its children are, and no partition column was
seen before; an empty one is. -/
theorem classifyChildren_eq_storage_iff {seenPartition seenStorage : Bool} {xs : List PushedExpr} :
    classifyChildren partitionAttnums seenPartition seenStorage xs = .storage ↔
      seenPartition = false ∧ ∀ x ∈ xs, classifyTarget partitionAttnums x = .storage := by
  induction xs generalizing seenPartition seenStorage with
  | nil => cases seenPartition <;> cases seenStorage <;> simp [classifyChildren]
  | cons x xs ih =>
    rw [classifyChildren]
    cases hx : classifyTarget partitionAttnums x <;> simp [hx, ih]

/-- The leaves of an expression in the partition part are partition columns. -/
theorem mem_of_classify_partition {e : PushedExpr}
    (h : classifyTarget partitionAttnums e = .partition) :
    ∀ q ∈ e.leaves, q.col ∈ partitionAttnums := by
  induction e using PushedExpr.induction with
  | leaf q =>
    rw [classifyTarget] at h
    split_ifs at h with hq
    simpa [PushedExpr.leaves] using hq
  | and xs ih | or xs ih =>
    rw [classifyTarget] at h
    rw [PushedExpr.leaves, PushedExpr.forall_leavesList]
    exact fun x hx => ih x hx ((classifyChildren_eq_partition h).2 x hx)
  | not x ih =>
    rw [classifyTarget] at h
    rw [PushedExpr.leaves]
    exact ih h

/-- An expression is in the storage part exactly if its leaves are storage columns. -/
theorem classify_storage_iff {e : PushedExpr} :
    classifyTarget partitionAttnums e = .storage ↔ ∀ q ∈ e.leaves, q.col ∉ partitionAttnums := by
  induction e using PushedExpr.induction with
  | leaf q => simp [classifyTarget, PushedExpr.leaves]
  | and xs ih | or xs ih =>
    rw [classifyTarget, classifyChildren_eq_storage_iff, PushedExpr.leaves,
      PushedExpr.forall_leavesList]
    constructor
    · rintro ⟨-, h⟩ x hx
      exact (ih x hx).mp (h x hx)
    · intro h
      exact ⟨rfl, fun x hx => (ih x hx).mpr (h x hx)⟩
  | not x ih => rw [classifyTarget, PushedExpr.leaves, ih]

/-- What a partition qual says of a row, it says of the row's partition values. -/
theorem sql_partitionValues {e : PushedExpr} (h : classifyTarget partitionAttnums e = .partition)
    (row : ℕ → Option ArrowValue) : e.sql (partitionValues partitionAttnums row) = e.sql row :=
  PushedExpr.sql_congr fun q hq => if_pos (mem_of_classify_partition h q hq)

end Classified

/-! ### The numbers of the storage columns -/

section Numbers

variable {partitionAttnums : List ℕ}

/-- The number of an attribute counts the storage columns before it. -/
theorem numberStorage_getElem? {nextParquetIdx i a : ℕ} {attnos : List ℕ}
    (hi : attnos[i]? = some a) (ha : a ∉ partitionAttnums) :
    (numberStorage partitionAttnums nextParquetIdx attnos)[i]? =
      some (some (nextParquetIdx + ((attnos.take i).filter (· ∉ partitionAttnums)).length)) := by
  induction attnos generalizing nextParquetIdx i with
  | nil => cases hi
  | cons b attnos ih =>
    cases i with
    | zero =>
      obtain rfl : b = a := by simpa using hi
      rw [numberStorage, if_neg ha]
      rfl
    | succ i =>
      rw [List.getElem?_cons_succ] at hi
      rw [numberStorage]
      split_ifs with hb
      · rw [List.getElem?_cons_succ, ih hi, List.take_succ_cons,
          List.filter_cons_of_neg (by simpa using hb)]
      · rw [List.getElem?_cons_succ, ih hi, List.take_succ_cons,
          List.filter_cons_of_pos (by simpa using hb), List.length_cons]
        congr 2
        omega

/-- A member of a list that a filter keeps stands behind the kept members before it. -/
theorem filter_getElem?_rank {α : Type} {p : α → Bool} {l : List α} {i : ℕ} {a : α}
    (hi : l[i]? = some a) (ha : p a = true) :
    (l.filter p)[((l.take i).filter p).length]? = some a := by
  obtain ⟨hlt, rfl⟩ := List.getElem?_eq_some_iff.mp hi
  have hsplit : l = l.take i ++ l[i] :: l.drop (i + 1) := by simp
  have hfilter : l.filter p = (l.take i).filter p ++ l[i] :: (l.drop (i + 1)).filter p := by
    conv_lhs => rw [hsplit, List.filter_append, List.filter_cons_of_pos ha]
  rw [hfilter, List.getElem?_append_right le_rfl]
  simp

/-- **A storage column is numbered by its place among the storage columns.** -/
theorem storageIdx_of_storage {natts a : ℕ} (ha : a < natts) (hstorage : a ∉ partitionAttnums) :
    ∃ k, (storageAttnoToParquetIdx partitionAttnums natts)[a]?.join = some k ∧
      (storageAttnos partitionAttnums natts)[k]? = some a := by
  have hrange : (List.range natts)[a]? = some a := by simp [ha]
  refine ⟨_, ?_, filter_getElem?_rank hrange (by simpa using hstorage)⟩
  rw [storageAttnoToParquetIdx, numberStorage_getElem? hrange hstorage, Nat.zero_add]
  rfl

end Numbers

/-! ### The meaning of a translation -/

section Meaning

variable {map : List (Option ℕ)}

/-- A tree all of whose columns have a number is translated, to a tree with the same meaning on
a row where each number has the value of its column. -/
theorem exists_translate {row row' : ℕ → Option ArrowValue} {e : PushedExpr}
    (h : ∀ q ∈ e.leaves, ∃ k, map[q.col]?.join = some k ∧ row' k = row q.col) :
    ∃ e', translateQualToParquetIdx map e = some e' ∧ e'.sql row' = e.sql row := by
  -- The children of a connective, from the hypothesis for each of them.
  have hlist : ∀ xs : List PushedExpr,
      (∀ x ∈ xs, ∃ x', translateQualToParquetIdx map x = some x' ∧ x'.sql row' = x.sql row) →
        ∃ xs', translateQuals map xs = some xs' ∧
          xs'.map (PushedExpr.sql row') = xs.map (PushedExpr.sql row) := by
    intro xs
    induction xs with
    | nil => exact fun _ => ⟨[], rfl, rfl⟩
    | cons x xs ih =>
      intro hxs
      obtain ⟨⟨x', hx', hsql⟩, hxs⟩ := List.forall_mem_cons.mp hxs
      obtain ⟨xs', hxs', hsqls⟩ := ih hxs
      refine ⟨x' :: xs', ?_, by rw [List.map_cons, List.map_cons, hsql, hsqls]⟩
      rw [translateQuals, hx', hxs']
      rfl
  induction e using PushedExpr.induction with
  | leaf q =>
    obtain ⟨k, hk, hvalue⟩ := h q (by simp [PushedExpr.leaves])
    refine ⟨.leaf { q with col := k }, by rw [translateQualToParquetIdx, hk]; rfl, ?_⟩
    rw [PushedExpr.sql_leaf, PushedExpr.sql_leaf, hvalue]
    rfl
  | and xs ih =>
    rw [PushedExpr.leaves, PushedExpr.forall_leavesList] at h
    obtain ⟨xs', hxs', hsql⟩ := hlist xs fun x hx => ih x hx (h x hx)
    refine ⟨.and xs', by rw [translateQualToParquetIdx, hxs']; rfl, ?_⟩
    rw [PushedExpr.sql_and, PushedExpr.sql_and, hsql]
  | or xs ih =>
    rw [PushedExpr.leaves, PushedExpr.forall_leavesList] at h
    obtain ⟨xs', hxs', hsql⟩ := hlist xs fun x hx => ih x hx (h x hx)
    refine ⟨.or xs', by rw [translateQualToParquetIdx, hxs']; rfl, ?_⟩
    rw [PushedExpr.sql_or, PushedExpr.sql_or, hsql]
  | not x ih =>
    rw [PushedExpr.leaves] at h
    obtain ⟨x', hx', hsql⟩ := ih h
    refine ⟨.not x', by rw [translateQualToParquetIdx, hx']; rfl, ?_⟩
    rw [PushedExpr.sql_not, PushedExpr.sql_not, hsql]

/-- A tree whose columns keep their numbers is kept. -/
theorem translate_self {e : PushedExpr} (h : ∀ q ∈ e.leaves, map[q.col]?.join = some q.col) :
    translateQualToParquetIdx map e = some e := by
  have hlist : ∀ xs : List PushedExpr, (∀ x ∈ xs, translateQualToParquetIdx map x = some x) →
      translateQuals map xs = some xs := by
    intro xs hxs
    induction xs with
    | nil => rfl
    | cons x xs ih =>
      obtain ⟨hx, hxs⟩ := List.forall_mem_cons.mp hxs
      rw [translateQuals, hx, ih hxs]
      rfl
  induction e using PushedExpr.induction with
  | leaf q => rw [translateQualToParquetIdx, h q (by simp [PushedExpr.leaves])]; rfl
  | and xs ih | or xs ih =>
    rw [PushedExpr.leaves, PushedExpr.forall_leavesList] at h
    rw [translateQualToParquetIdx, hlist xs fun x hx => ih x hx (h x hx)]
    rfl
  | not x ih =>
    rw [PushedExpr.leaves] at h
    rw [translateQualToParquetIdx, ih h]
    rfl

/-- **An expression over storage columns is translated**, to one that means on the blob's row
what it means on the relation's. -/
theorem exists_translate_of_storage {partitionAttnums : List ℕ} {natts : ℕ} {e : PushedExpr}
    (hattrs : ∀ q ∈ e.leaves, q.col < natts) (hstorage : ∀ q ∈ e.leaves, q.col ∉ partitionAttnums)
    (row : ℕ → Option ArrowValue) :
    ∃ e', translateQualToParquetIdx (storageAttnoToParquetIdx partitionAttnums natts) e = some e' ∧
      e'.sql (parquetRow partitionAttnums natts row) = e.sql row := by
  refine exists_translate fun q hq => ?_
  obtain ⟨k, hk, hrank⟩ := storageIdx_of_storage (hattrs q hq) (hstorage q hq)
  exact ⟨k, hk, by rw [parquetRow, hrank, Option.bind_some]⟩

end Meaning

section Split

variable (partitionAttnums : List ℕ) (natts : ℕ) (exprs : List PushedExpr)

/-- The storage quals are the translations of the expressions over storage columns. -/
theorem mem_storageQuals {e' : PushedExpr} :
    e' ∈ storageQuals partitionAttnums natts exprs ↔
      ∃ e ∈ exprs, (∀ q ∈ e.leaves, q.col ∉ partitionAttnums) ∧
        translateQualToParquetIdx (storageAttnoToParquetIdx partitionAttnums natts) e = some e' := by
  simp [storageQuals, splitQualsByTarget, classify_storage_iff, and_assoc]

/-- **Splitting and renumbering keep the meaning.**  On a row that satisfies every expression, the
partition part is true of the row's partition values and the storage quals of the blob's row; and
an expression over storage columns is among the storage quals, with the value it had. -/
theorem split_preserves_meaning (hattrs : ∀ e ∈ exprs, ∀ q ∈ e.leaves, q.col < natts)
    (row : ℕ → Option ArrowValue) :
    ((∀ e ∈ exprs, e.sql row = some true) →
        (∀ e ∈ (splitQualsByTarget partitionAttnums exprs).1,
          e.sql (partitionValues partitionAttnums row) = some true) ∧
        ∀ e ∈ storageQuals partitionAttnums natts exprs,
          e.sql (parquetRow partitionAttnums natts row) = some true) ∧
      ∀ e ∈ exprs, (∀ q ∈ e.leaves, q.col ∉ partitionAttnums) →
        e ∈ (splitQualsByTarget partitionAttnums exprs).2 ∧
          ∃ e', translateQualToParquetIdx (storageAttnoToParquetIdx partitionAttnums natts) e =
              some e' ∧
            e' ∈ storageQuals partitionAttnums natts exprs ∧
            e'.sql (parquetRow partitionAttnums natts row) = e.sql row := by
  refine ⟨fun htrue => ⟨fun e he => ?_, fun e' he' => ?_⟩, fun e he hstorage => ?_⟩
  · obtain ⟨hmem, htarget⟩ := List.mem_filter.mp he
    rw [sql_partitionValues (of_decide_eq_true htarget)]
    exact htrue e hmem
  · obtain ⟨e, he, hstorage, htranslate⟩ := (mem_storageQuals _ _ _).mp he'
    obtain ⟨e'', he'', hsql⟩ := exists_translate_of_storage (hattrs e he) hstorage row
    obtain rfl := Option.some.inj (htranslate.symm.trans he'')
    rw [hsql]
    exact htrue e he
  · obtain ⟨e', he', hsql⟩ := exists_translate_of_storage (hattrs e he) hstorage row
    refine ⟨List.mem_filter.mpr ⟨he, decide_eq_true (classify_storage_iff.mpr hstorage)⟩, e', he',
      ?_, hsql⟩
    exact (mem_storageQuals _ _ _).mpr ⟨e, he, hstorage, he'⟩

end Split

/-- `year = 2024 AND NOT (x > 5)` on a table with the columns year, id and x, as two quals. -/
def yearAndX : List PushedExpr :=
  [.leaf ⟨0, .eq, .i32 2024⟩, .not (.leaf ⟨2, .gt, .i32 5⟩)]

/-- Partitioned by year, the second column of the blob is `x`, and the second qual is of it. -/
theorem second_qual_translated :
    (∀ e ∈ yearAndX, ∀ q ∈ e.leaves, q.col < 3) ∧
      ∀ row, ∃ e', translateQualToParquetIdx [none, some 0, some 1] (.not (.leaf ⟨2, .gt, .i32 5⟩)) =
          some e' ∧
        e' ∈ storageQuals [0] 3 yearAndX ∧
        e'.sql (parquetRow [0] 3 row) = (PushedExpr.not (.leaf ⟨2, .gt, .i32 5⟩)).sql row := by
  have hattrs : ∀ e ∈ yearAndX, ∀ q ∈ e.leaves, q.col < 3 := by
    simp [yearAndX, PushedExpr.leaves]
  refine ⟨hattrs, fun row => ?_⟩
  exact ((split_preserves_meaning [0] 3 yearAndX hattrs row).2 _ (by simp [yearAndX])
    (by simp [PushedExpr.leaves])).2

end ParquetAzureFdw
