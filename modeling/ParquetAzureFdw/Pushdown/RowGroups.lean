/-
# Row-group pruning

`prune_row_groups` of `src/fdw/pushdown.rs`, and `keep_row_groups` of
`src/fdw/scan.rs` over it: from the statistics of the column chunks it decides,
for each row group of a file, whether any row of it can satisfy the pushed
expressions, and returns the indices of the groups to read.

The column chunks of a group are those of its leaf columns, in order; a
comparison of floats is Rust's `PartialOrd`, undefined on a NaN.
-/

import ParquetAzureFdw.Pushdown.Expr

namespace ParquetAzureFdw

/-- `parquet::file::statistics::Statistics`, the typed part: minimum and maximum,
each optional.  The variants that pruning does not use are `other`. -/
inductive StatBounds where
  | boolean (min max : Option Bool)
  | int32 (min max : Option Int32)
  | int64 (min max : Option Int64)
  | float (min max : Option UInt32)
  | double (min max : Option UInt64)
  | byteArray (min max : Option (List UInt8))
  | other
  deriving DecidableEq, Repr

/-- `parquet::file::statistics::Statistics`. -/
structure Statistics where
  nullCount : Option ℕ
  bounds : StatBounds
  deriving DecidableEq, Repr

/-- `ColumnChunkMetaData`. -/
structure ColumnChunk where
  numValues : ℕ
  statistics : Option Statistics
  deriving DecidableEq, Repr

/-- `RgVerdict`. -/
inductive RgVerdict where
  | cannotMatch
  | canMatch
  | indeterminate
  deriving DecidableEq, Repr

/-- The value of a float as the order of a key; `none` for a NaN. -/
def ieeeKey? (width infinity bits : ℕ) : Option ℤ :=
  if infinity < bits % 2 ^ (width - 1) then none
  else some (if bits < 2 ^ (width - 1) then bits else 2 ^ (width - 1) - bits)

/-- `f32::partial_cmp` and `f64::partial_cmp`, on the bits. -/
def floatPartialCmp (width infinity a b : ℕ) : Option Ordering := do
  let x ← ieeeKey? width infinity a
  let y ← ieeeKey? width infinity b
  return compare x y

/-- `cmp_verdict` and `cmp_verdict_bytes`, over the `partial_cmp` of the type; the
null tests are decided before they are called. -/
def cmpVerdict {α : Type} (partialCmp : α → α → Option Ordering) (op : PushedOp) (lit : α) :
    Option α → Option α → RgVerdict
  | some mn, some mx =>
    let cannot : Bool := match op with
      | .eq => partialCmp lit mn == some .lt || partialCmp lit mx == some .gt
      | .ne => partialCmp mn mx == some .eq && partialCmp lit mn == some .eq
      | .lt => partialCmp mn lit == some .gt || partialCmp mn lit == some .eq
      | .le => partialCmp mn lit == some .gt
      | .gt => partialCmp mx lit == some .lt || partialCmp mx lit == some .eq
      | .ge => partialCmp mx lit == some .lt
      | .isNull | .isNotNull => false
    if cannot then .cannotMatch else .canMatch
  | _, _ => .indeterminate

/-- The boolean branch of `evaluate_leaf_against_rg`. -/
def boolVerdict (op : PushedOp) (v : Bool) : Option Bool → Option Bool → RgVerdict
  | some mn, some mx =>
    match op with
    | .eq =>
      if v = mn ∧ v = mx then .canMatch
      else if v ≠ mn ∧ v ≠ mx then .cannotMatch
      else .canMatch
    | .ne => if v = mn ∧ v = mx then .cannotMatch else .canMatch
    | _ => .indeterminate
  | _, _ => .indeterminate

/-- The comparisons of `evaluate_leaf_against_rg`, by the types of the literal and
of the statistics. -/
def compareWithBounds (op : PushedOp) : ScalarValueRepr → StatBounds → RgVerdict
  | .i32 v, .int32 mn mx => cmpVerdict (fun a b => some (compare a b)) op v mn mx
  | .i64 v, .int64 mn mx => cmpVerdict (fun a b => some (compare a b)) op v mn mx
  | .i16 v, .int32 mn mx => cmpVerdict (fun a b => some (compare a b)) op v.toInt32 mn mx
  | .f32 v, .float mn mx =>
    cmpVerdict (fun a b => floatPartialCmp 32 0x7f800000 a.toNat b.toNat) op v mn mx
  | .f64 v, .double mn mx =>
    cmpVerdict (fun a b => floatPartialCmp 64 0x7ff0000000000000 a.toNat b.toNat) op v mn mx
  | .date32 v, .int32 mn mx => cmpVerdict (fun a b => some (compare a b)) op v mn mx
  | .timestampMicros v, .int64 mn mx => cmpVerdict (fun a b => some (compare a b)) op v mn mx
  | .utf8 v, .byteArray mn mx => cmpVerdict (fun a b => some (compare a b)) op (utf8Bytes v) mn mx
  | .bool v, .boolean mn mx => boolVerdict op v mn mx
  | _, _ => .indeterminate

/-- `evaluate_leaf_against_rg`, for a schema with `numFields` fields. -/
def evaluateLeafAgainstRg (numFields : ℕ) (rg : List ColumnChunk) (q : PushedQual) : RgVerdict :=
  if numFields ≤ q.col then .indeterminate
  else
    match rg[q.col]? with
    | none => .indeterminate
    | some col =>
      match col.statistics with
      | none => .indeterminate
      | some stats =>
        match q.op with
        | .isNull =>
          match stats.nullCount with
          | some 0 => .cannotMatch
          | some _ => .canMatch
          | none => .indeterminate
        | .isNotNull =>
          match stats.nullCount with
          | some n => if col.numValues ≤ n then .cannotMatch else .canMatch
          | none => .indeterminate
        | op => compareWithBounds op q.value stats.bounds

mutual

/-- `evaluate_against_rg`. -/
def evaluateAgainstRg (numFields : ℕ) (rg : List ColumnChunk) : PushedExpr → RgVerdict
  | .leaf q => evaluateLeafAgainstRg numFields rg q
  | .and xs =>
    let verdicts := evaluateAllAgainstRg numFields rg xs
    if .cannotMatch ∈ verdicts then .cannotMatch
    else if .indeterminate ∈ verdicts then .indeterminate
    else .canMatch
  | .or xs =>
    let verdicts := evaluateAllAgainstRg numFields rg xs
    if .canMatch ∈ verdicts then .canMatch
    else if .indeterminate ∈ verdicts then .indeterminate
    else .cannotMatch
  | .not _ => .indeterminate

/-- The verdicts on the children of a connective. -/
def evaluateAllAgainstRg (numFields : ℕ) (rg : List ColumnChunk) : List PushedExpr → List RgVerdict
  | [] => []
  | x :: xs => evaluateAgainstRg numFields rg x :: evaluateAllAgainstRg numFields rg xs

end

theorem evaluateAllAgainstRg_eq_map (numFields : ℕ) (rg : List ColumnChunk) (xs : List PushedExpr) :
    evaluateAllAgainstRg numFields rg xs = xs.map (evaluateAgainstRg numFields rg) := by
  induction xs with
  | nil => rfl
  | cons x xs ih => rw [evaluateAllAgainstRg, ih, List.map_cons]

/-- The inner loop of `prune_row_groups`: whether the group survives the
expressions, and whether any of them was determinable. -/
def surveyRowGroup (numFields : ℕ) (rg : List ColumnChunk) : List PushedExpr → Bool × Bool
  | [] => (true, false)
  | e :: es =>
    match evaluateAgainstRg numFields rg e with
    | .cannotMatch => (false, true)
    | .canMatch => ((surveyRowGroup numFields rg es).1, true)
    | .indeterminate => surveyRowGroup numFields rg es

/-- `prune_row_groups`: the indices of the groups to read, or `none` when nothing
could be determined. -/
def pruneRowGroups (numFields : ℕ) (rgs : List (List ColumnChunk)) (exprs : List PushedExpr) :
    Option (List ℕ) :=
  if exprs.isEmpty then none
  else if rgs.any fun rg => (surveyRowGroup numFields rg exprs).2 then
    some (((rgs.zipIdx).filter fun rg => (surveyRowGroup numFields rg.1 exprs).1).map Prod.snd)
  else none

/-- The groups that are kept are groups of the file, in file order. -/
theorem pruneRowGroups_sorted {numFields : ℕ} {rgs : List (List ColumnChunk)}
    {exprs : List PushedExpr} {keep : List ℕ} (h : pruneRowGroups numFields rgs exprs = some keep) :
    keep.Sublist (List.range rgs.length) := by
  unfold pruneRowGroups at h
  split_ifs at h
  rw [← Option.some.inj h]
  have hidx : rgs.zipIdx.map Prod.snd = List.range rgs.length := by
    rw [List.zipIdx_map_snd, List.range_eq_range']
  exact hidx ▸ List.filter_sublist.map Prod.snd

/-- A group whose maximum is below the literal is dropped; one with no statistics is kept. -/
example : pruneRowGroups 1 [[⟨2, some ⟨some 0, .int32 (some 1) (some 2)⟩⟩], [⟨2, none⟩]]
    [.leaf ⟨0, .gt, .i32 5⟩] = some [1] := by decide

end ParquetAzureFdw
