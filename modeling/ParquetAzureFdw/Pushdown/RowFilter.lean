/-
# The row filter

`build_row_filter`, `collect_cols`, `eval` and `eval_leaf` of
`src/fdw/pushdown.rs`.  Each pushed expression becomes one `ArrowPredicate`: a
projection of the file's root columns, and a closure that evaluates the
expression on the projected batch with Arrow's kernels.

**Nulls.**  `boolean::and` and `boolean::or` are strict: the mask entry of a row
is null as soon as one leaf comparison reads a NULL (`strictEval_eq_none`).  A
null entry drops the row.  So the mask agrees with SQL on a row exactly when no
comparison of the tree reads a NULL there, or the tree is not true there
(`eval_agrees_with_sql_iff`).

**Columns.**  The closure looks a leaf's column up by its position in
`collect_cols`, which lists columns in the order of their first mention; the
batch it is given has them in schema order.  The two agree exactly when every
column, at its first mention, is larger than all those mentioned before
(`leaves_bound_iff`).
-/

import ParquetAzureFdw.Pushdown.Expr

namespace ParquetAzureFdw

open ThreeValued

/-- `arrow::array::BooleanArray`: a null entry is `none`. -/
abbrev BooleanArray := List Truth

/-! ### Evaluation on a batch -/

/-- What `Decimal128Array::with_precision_and_scale` accepts. -/
def decimalAccepted (precision : ℕ) (scale : ℤ) : Bool :=
  0 < precision && precision ≤ 38 && scale ≤ 38 && (scale ≤ 0 || scale ≤ precision)

/-- `scalar_to_array`: the type and the value of the one-element literal array for
a column of type `ty`. -/
def scalarToArray (v : ScalarValueRepr) (ty : DataType) : FdwResult (DataType × ArrowValue) :=
  match v with
  | .bool b => .ok (.boolean, .boolean b)
  | .i16 x => .ok (.int16, .int16 x)
  | .i32 x => .ok (.int32, .int32 x)
  | .i64 x => .ok (.int64, .int64 x)
  | .f32 x => .ok (.float32, .float32 x)
  | .f64 x => .ok (.float64, .float64 x)
  | .utf8 s => .ok (if ty = .largeUtf8 then .largeUtf8 else .utf8, .utf8 s)
  | .date32 d => .ok (.date32, .date32 d)
  | .timestampMicros t => .ok (.timestamp .microsecond none, .timestamp t)
  | .decimal128 val p s =>
    if decimalAccepted p s then .ok (.decimal128 p s, .decimal128 val)
    else .error (.arrow "Invalid argument error: decimal precision or scale out of range")
  | .null => .error (.arrow "Compute error: Null scalar in cmp")

/-- One slot of a comparison kernel: null on a null operand. -/
def compareCell (op : PushedOp) (lit : ArrowValue) (v : Option ArrowValue) : Truth := do
  let x ← v
  let o ← x.kernelCompare lit
  return op.holds o

/-- The kernels of `arrow::compute::kernels::cmp` against a literal of type `ty`:
the two types must be the same. -/
def compareKernel (op : PushedOp) (col : Column) (ty : DataType) (lit : ArrowValue) :
    FdwResult BooleanArray :=
  if col.dataType = ty then .ok (col.values.map (compareCell op lit))
  else .error (.arrow "Invalid argument error: Invalid comparison operation")

/-- `eval_leaf` once its column is found. -/
def leafKernel (q : PushedQual) (col : Column) : FdwResult BooleanArray :=
  match q.op with
  | .isNull => .ok (col.values.map fun v => some v.isNone)
  | .isNotNull => .ok (col.values.map fun v => some v.isSome)
  | op => do
    let (ty, lit) ← scalarToArray q.value col.dataType
    compareKernel op col ty lit

/-- `eval_leaf`.  `RecordBatch::column` panics out of range. -/
def evalLeaf (batch : RecordBatch) (localIdx : ℕ → Option ℕ) (q : PushedQual) :
    Outcome BooleanArray :=
  match localIdx q.col with
  | none =>
    .error (.error (.arrow
      ("Compute error: column " ++ toString q.col ++ " missing in predicate batch")))
  | some idx =>
    match batch.columns[idx]? with
    | none => .error (.panic "index out of bounds")
    | some col => (leafKernel q col).lift

mutual

/-- `eval`. -/
def eval (batch : RecordBatch) (localIdx : ℕ → Option ℕ) : PushedExpr → Outcome BooleanArray
  | .leaf q => evalLeaf batch localIdx q
  | .and xs => do
    let acc ← evalFold batch localIdx (· && ·) none xs
    return acc.getD (List.replicate batch.numRows (some true))
  | .or xs => do
    let acc ← evalFold batch localIdx (· || ·) none xs
    return acc.getD (List.replicate batch.numRows (some false))
  | .not x => do
    let b ← eval batch localIdx x
    return b.map Truth.not

/-- The loop of `eval` over the children of a connective, with its accumulator. -/
def evalFold (batch : RecordBatch) (localIdx : ℕ → Option ℕ) (op : Bool → Bool → Bool)
    (acc : Option BooleanArray) : List PushedExpr → Outcome (Option BooleanArray)
  | [] => .ok acc
  | x :: xs => do
    let b ← eval batch localIdx x
    evalFold batch localIdx op
      (some (match acc with
        | none => b
        | some a => List.zipWith (strict op) a b)) xs

end

/-! ### One entry of the mask -/

/-- The entry of a leaf on the value of its column. -/
def PushedQual.kernelTruth (q : PushedQual) (v : Option ArrowValue) : Truth :=
  match q.op with
  | .isNull => some v.isNone
  | .isNotNull => some v.isSome
  | op => q.value.toValue.bind fun lit => compareCell op lit v

mutual

/-- The mask entry of a row whose column `i` holds `row i`: strict connectives,
and a constant for an empty list. -/
def PushedExpr.strictEval (row : ℕ → Option ArrowValue) : PushedExpr → Truth
  | .leaf q => q.kernelTruth (row q.col)
  | .and xs => strictList (· && ·) true (PushedExpr.strictEvals row xs)
  | .or xs => strictList (· || ·) false (PushedExpr.strictEvals row xs)
  | .not x => (x.strictEval row).not

/-- The entries of a list of trees. -/
def PushedExpr.strictEvals (row : ℕ → Option ArrowValue) : List PushedExpr → List Truth
  | [] => []
  | x :: xs => x.strictEval row :: PushedExpr.strictEvals row xs

end

theorem PushedExpr.strictEvals_eq_map (row : ℕ → Option ArrowValue) (xs : List PushedExpr) :
    PushedExpr.strictEvals row xs = xs.map (PushedExpr.strictEval row) := by
  induction xs with
  | nil => rfl
  | cons x xs ih => rw [strictEvals, ih, List.map_cons]

/-- Whether a comparison with the literal type-checks against a column of type `ty`. -/
def PushedQual.fits (q : PushedQual) (ty : DataType) : Prop :=
  q.op.isComparison = true → ∃ lit, scalarToArray q.value ty = .ok (ty, lit)

/-- Leaf `q` reads its own column: on the batch, `localIdx` leads to a column that
the literal fits and whose row `i` holds `v`. -/
def PushedQual.Reads (q : PushedQual) (batch : RecordBatch) (localIdx : ℕ → Option ℕ) (i : ℕ)
    (v : Option ArrowValue) : Prop :=
  ∃ idx col, localIdx q.col = some idx ∧ batch.columns[idx]? = some col ∧
    q.fits col.dataType ∧ col.cell i = v

/-- An evaluation returns a mask for `n` rows whose entry `i` is `t`. -/
def Entry (n i : ℕ) (t : Truth) (o : Outcome BooleanArray) : Prop :=
  ∃ mask, o = .ok mask ∧ mask.length = n ∧ mask[i]? = some t

/-- The literal of an accepted comparison is the one the leaf stands for. -/
theorem toValue_of_scalarToArray {v : ScalarValueRepr} {ty ty' : DataType} {lit : ArrowValue}
    (h : scalarToArray v ty = .ok (ty', lit)) : v.toValue = some lit := by
  cases v with
  | null => cases h
  | decimal128 val p s =>
    simp only [scalarToArray] at h
    split at h
    · cases h; rfl
    · cases h
  | _ => cases h; rfl

theorem PushedQual.kernelTruth_comparison {q : PushedQual} (h : q.op.isComparison = true)
    (v : Option ArrowValue) :
    q.kernelTruth v = q.value.toValue.bind fun lit => compareCell q.op lit v := by
  obtain ⟨c, op, value⟩ := q
  cases op <;> first | rfl | cases h

theorem leafKernel_comparison {q : PushedQual} (h : q.op.isComparison = true) (col : Column) :
    leafKernel q col = (do
      let (ty, lit) ← scalarToArray q.value col.dataType
      compareKernel q.op col ty lit) := by
  obtain ⟨c, op, value⟩ := q
  cases op <;> first | rfl | cases h

/-- The kernel of a leaf computes its entries slot by slot. -/
theorem leafKernel_eq {q : PushedQual} {col : Column} (h : q.fits col.dataType) :
    leafKernel q col = .ok (col.values.map q.kernelTruth) := by
  by_cases hop : q.op.isComparison = true
  · obtain ⟨lit, hlit⟩ := h hop
    have htruth : q.kernelTruth = compareCell q.op lit := by
      funext v
      rw [PushedQual.kernelTruth_comparison hop, toValue_of_scalarToArray hlit, Option.bind_some]
    rw [leafKernel_comparison hop, hlit, htruth]
    exact if_pos rfl
  · obtain ⟨c, op, value⟩ := q
    cases op <;> first | exact absurd rfl hop | rfl

theorem evalLeaf_entry {q : PushedQual} {batch : RecordBatch} {localIdx : ℕ → Option ℕ} {i : ℕ}
    {v : Option ArrowValue} (hi : i < batch.numRows) (h : q.Reads batch localIdx i v) :
    Entry batch.numRows i (q.kernelTruth v) (evalLeaf batch localIdx q) := by
  obtain ⟨idx, col, hidx, hcol, hfits, rfl⟩ := h
  have hlen : col.values.length = batch.numRows :=
    batch.length_eq col (List.mem_of_getElem? hcol)
  refine ⟨col.values.map q.kernelTruth, ?_, by simp [hlen], ?_⟩
  · simp [evalLeaf, hidx, hcol, leafKernel_eq hfits]
  · rw [Column.cell, List.getElem?_map, List.getElem?_eq_getElem (hlen ▸ hi),
      List.getD_eq_getElem _ _ (hlen ▸ hi), Option.map_some]

/-- The loop over the remaining children, from an accumulated mask. -/
theorem evalFold_entry {batch : RecordBatch} {localIdx : ℕ → Option ℕ} {i : ℕ}
    {row : ℕ → Option ArrowValue} (op : Bool → Bool → Bool) {xs : List PushedExpr}
    (h : ∀ x ∈ xs, Entry batch.numRows i (x.strictEval row) (eval batch localIdx x))
    {a : BooleanArray} {t : Truth} (ha : a.length = batch.numRows) (hat : a[i]? = some t) :
    ∃ mask, evalFold batch localIdx op (some a) xs = .ok (some mask) ∧
      mask.length = batch.numRows ∧
      mask[i]? = some (strictFold op t (xs.map (PushedExpr.strictEval row))) := by
  induction xs generalizing a t with
  | nil => exact ⟨a, by rw [evalFold], ha, by simpa using hat⟩
  | cons x xs ih =>
    obtain ⟨hx, hxs⟩ := List.forall_mem_cons.mp h
    obtain ⟨b, hb, hblen, hbi⟩ := hx
    have hstep := ih hxs (a := List.zipWith (strict op) a b) (t := strict op t (x.strictEval row))
      (by simp [ha, hblen]) (by simp [List.getElem?_zipWith, hat, hbi])
    rw [evalFold, hb]
    exact hstep

/-- The loop over all children of a connective, with the constant for none. -/
theorem evalFold_none_entry {batch : RecordBatch} {localIdx : ℕ → Option ℕ} {i : ℕ}
    {row : ℕ → Option ArrowValue} (hi : i < batch.numRows) (op : Bool → Bool → Bool) (unit : Bool)
    {xs : List PushedExpr}
    (h : ∀ x ∈ xs, Entry batch.numRows i (x.strictEval row) (eval batch localIdx x)) :
    Entry batch.numRows i (strictList op unit (xs.map (PushedExpr.strictEval row)))
      (do let acc ← evalFold batch localIdx op none xs
          return acc.getD (List.replicate batch.numRows (some unit))) := by
  cases xs with
  | nil =>
    refine ⟨List.replicate batch.numRows (some unit), by rw [evalFold]; rfl, by simp, ?_⟩
    rw [List.getElem?_replicate, if_pos hi]
    rfl
  | cons x xs =>
    obtain ⟨⟨b, hb, hblen, hbi⟩, hxs⟩ := List.forall_mem_cons.mp h
    obtain ⟨mask, hm, hlen, hmi⟩ := evalFold_entry op hxs hblen hbi
    refine ⟨mask, ?_, hlen, hmi⟩
    rw [evalFold, hb]
    change (evalFold batch localIdx op (some b) xs >>= _) = _
    rw [hm]
    rfl

/-- **The mask entry of a row**: when every leaf reads its own column, `eval`
returns a mask, and its entry at the row is `strictEval`. -/
theorem eval_entry {batch : RecordBatch} {localIdx : ℕ → Option ℕ} {i : ℕ}
    {row : ℕ → Option ArrowValue} (hi : i < batch.numRows) {e : PushedExpr}
    (h : ∀ q ∈ e.leaves, q.Reads batch localIdx i (row q.col)) :
    Entry batch.numRows i (e.strictEval row) (eval batch localIdx e) := by
  induction e using PushedExpr.induction with
  | leaf q =>
    rw [eval, PushedExpr.strictEval]
    exact evalLeaf_entry hi (h q (by simp [PushedExpr.leaves]))
  | and xs ih =>
    rw [PushedExpr.leaves] at h
    rw [eval, PushedExpr.strictEval, PushedExpr.strictEvals_eq_map]
    exact evalFold_none_entry hi _ true fun x hx =>
      ih x hx fun q hq => h q (PushedExpr.mem_leavesList.mpr ⟨x, hx, hq⟩)
  | or xs ih =>
    rw [PushedExpr.leaves] at h
    rw [eval, PushedExpr.strictEval, PushedExpr.strictEvals_eq_map]
    exact evalFold_none_entry hi _ false fun x hx =>
      ih x hx fun q hq => h q (PushedExpr.mem_leavesList.mpr ⟨x, hx, hq⟩)
  | not x ih =>
    rw [PushedExpr.leaves] at h
    obtain ⟨mask, hm, hlen, hmi⟩ := ih h
    rw [eval, hm, PushedExpr.strictEval]
    exact ⟨mask.map Truth.not, rfl, by simp [hlen], by simp [hmi]⟩

/-! ### Agreement with SQL -/

/-- Two values of one column type are ordered. -/
theorem ArrowValue.kernelCompare_ne_none {x lit : ArrowValue} {ty : DataType}
    (hx : x.hasType ty = true) (hlit : lit.hasType ty = true) : x.kernelCompare lit ≠ none := by
  cases ty <;> cases x <;> cases hx <;> cases lit <;> cases hlit <;> (intro h; cases h)

/-- The literal array has the type it is announced with. -/
theorem hasType_of_scalarToArray {v : ScalarValueRepr} {ty ty' : DataType} {lit : ArrowValue}
    (h : scalarToArray v ty = .ok (ty', lit)) : lit.hasType ty' = true := by
  cases v with
  | null => cases h
  | decimal128 val p s =>
    simp only [scalarToArray] at h
    split at h
    · cases h; rfl
    · cases h
  | utf8 s =>
    cases h
    split <;> rfl
  | _ => cases h; rfl

/-- The entry of a leaf is null exactly when it compares a NULL. -/
theorem PushedQual.Reads.kernelTruth_eq_none {q : PushedQual} {batch : RecordBatch}
    {localIdx : ℕ → Option ℕ} {i : ℕ} {v : Option ArrowValue} (h : q.Reads batch localIdx i v) :
    q.kernelTruth v = none ↔ q.op.isComparison = true ∧ v = none := by
  obtain ⟨idx, col, -, -, hfits, rfl⟩ := h
  by_cases hop : q.op.isComparison = true
  · obtain ⟨lit, hlit⟩ := hfits hop
    rw [kernelTruth_comparison hop, toValue_of_scalarToArray hlit, Option.bind_some]
    have htyped := col.cell_typed i
    cases hcell : col.cell i with
    | none => simp [compareCell, hop]
    | some x =>
      rw [hcell] at htyped
      have hcmp := ArrowValue.kernelCompare_ne_none htyped (hasType_of_scalarToArray hlit)
      obtain ⟨o, ho⟩ := Option.ne_none_iff_exists'.mp hcmp
      simp [compareCell, ho]
  · obtain ⟨c, op, value⟩ := q
    cases op <;> first | exact absurd rfl hop | simp [kernelTruth, PushedOp.isComparison]

/-- Away from float literals the kernels give a leaf its SQL meaning. -/
theorem PushedQual.kernelTruth_eq_sql {q : PushedQual} (h : q.value.isFloat = false)
    (v : Option ArrowValue) : q.kernelTruth v = q.sql v := by
  have hcmp : ∀ lit, q.value.toValue = some lit → ∀ x : ArrowValue,
      x.kernelCompare lit = x.sqlCompare lit := by
    intro lit hlit x
    refine ArrowValue.kernelCompare_eq_sqlCompare ?_
    obtain ⟨c, op, value⟩ := q
    cases value <;> cases hlit <;> first | rfl | cases h
  obtain ⟨c, op, value⟩ := q
  cases hlit : value.toValue with
  | none => rcases v with _ | x <;> cases op <;> simp [kernelTruth, sql, hlit]
  | some lit =>
    rcases v with _ | x <;> cases op <;>
      simp [kernelTruth, sql, hlit, compareCell, hcmp lit hlit]

section Agreement

variable {row : ℕ → Option ArrowValue}

/-- The mask entry is null exactly when a comparison of the tree compares a NULL. -/
theorem PushedExpr.strictEval_eq_none {e : PushedExpr}
    (h : ∀ q ∈ e.leaves, q.kernelTruth (row q.col) = none ↔
      q.op.isComparison = true ∧ row q.col = none) :
    e.strictEval row = none ↔ ∃ q ∈ e.leaves, q.op.isComparison = true ∧ row q.col = none := by
  -- The null of a connective is the null of one of its children.
  have hlist : ∀ xs : List PushedExpr, (∀ x ∈ xs, (x.strictEval row = none ↔
        ∃ q ∈ x.leaves, q.op.isComparison = true ∧ row q.col = none)) →
      (none ∈ xs.map (strictEval row) ↔
        ∃ q ∈ leavesList xs, q.op.isComparison = true ∧ row q.col = none) := by
    intro xs ih
    simp only [List.mem_map, mem_leavesList]
    constructor
    · rintro ⟨x, hx, hnone⟩
      obtain ⟨q, hq, hnull⟩ := (ih x hx).mp hnone
      exact ⟨q, ⟨x, hx, hq⟩, hnull⟩
    · rintro ⟨q, ⟨x, hx, hq⟩, hnull⟩
      exact ⟨x, hx, (ih x hx).mpr ⟨q, hq, hnull⟩⟩
  induction e using PushedExpr.induction with
  | leaf q =>
    rw [strictEval, h q (by simp [leaves])]
    simp [leaves]
  | and xs ih =>
    rw [leaves] at h ⊢
    rw [strictEval, strictEvals_eq_map, strictList_eq_none]
    exact hlist xs fun x hx => ih x hx fun q hq => h q (mem_leavesList.mpr ⟨x, hx, hq⟩)
  | or xs ih =>
    rw [leaves] at h ⊢
    rw [strictEval, strictEvals_eq_map, strictList_eq_none]
    exact hlist xs fun x hx => ih x hx fun q hq => h q (mem_leavesList.mpr ⟨x, hx, hq⟩)
  | not x ih =>
    rw [leaves] at h ⊢
    rw [strictEval, Truth.not, Option.map_eq_none_iff]
    exact ih h

/-- A known mask entry is the SQL meaning of the tree. -/
theorem PushedExpr.sql_of_strictEval {e : PushedExpr}
    (h : ∀ q ∈ e.leaves, q.value.isFloat = false) {b : Bool} (hb : e.strictEval row = some b) :
    e.sql row = some b := by
  -- Where every entry of a list is known, so are the meanings.
  have hlist : ∀ xs : List PushedExpr,
      (∀ x ∈ xs, ∀ b, x.strictEval row = some b → x.sql row = some b) →
      none ∉ xs.map (strictEval row) → xs.map (strictEval row) = xs.map (sql row) := by
    intro xs ih hknown
    refine List.map_congr_left fun x hx => ?_
    cases hval : x.strictEval row with
    | none => exact absurd (List.mem_map.mpr ⟨x, hx, hval⟩) hknown
    | some b => exact (ih x hx b hval).symm
  induction e using PushedExpr.induction generalizing b with
  | leaf q =>
    rw [strictEval, PushedQual.kernelTruth_eq_sql (h q (by simp [leaves]))] at hb
    rwa [sql_leaf]
  | and xs ih =>
    rw [leaves] at h
    rw [strictEval, strictEvals_eq_map] at hb
    rw [sql_and, ← hlist xs (fun x hx b => ih x hx fun q hq => h q (mem_leavesList.mpr ⟨x, hx, hq⟩))
      (fun hnone => by rw [strictList_eq_none.mpr hnone] at hb; cases hb)]
    exact all_of_strictList hb
  | or xs ih =>
    rw [leaves] at h
    rw [strictEval, strictEvals_eq_map] at hb
    rw [sql_or, ← hlist xs (fun x hx b => ih x hx fun q hq => h q (mem_leavesList.mpr ⟨x, hx, hq⟩))
      (fun hnone => by rw [strictList_eq_none.mpr hnone] at hb; cases hb)]
    exact any_of_strictList hb
  | not x ih =>
    rw [leaves] at h
    rw [strictEval, Truth.not_eq_some] at hb
    rw [sql_not, ih h hb, Truth.not_some, Bool.not_not]

end Agreement

/-- **The row filter agrees with SQL on a row exactly when no comparison reads a
NULL there, or the qual is not true there.**  The tree may be any; its leaves
read their own columns, whose types their literals have, and no literal is a
float.  The other way round: a row on which the qual is true is dropped as soon
as one comparison anywhere in the tree reads a NULL. -/
theorem eval_agrees_with_sql_iff {e : PushedExpr} {batch : RecordBatch} {localIdx : ℕ → Option ℕ}
    {row : ℕ → Option ArrowValue} {i : ℕ} (hi : i < batch.numRows)
    (hreads : ∀ q ∈ e.leaves, q.Reads batch localIdx i (row q.col))
    (hfloat : ∀ q ∈ e.leaves, q.value.isFloat = false) :
    (∃ mask, eval batch localIdx e = .ok mask ∧
        (mask[i]? = some (some true) ↔ e.sql row = some true)) ↔
      (∀ q ∈ e.leaves, q.op.isComparison = true → row q.col ≠ none) ∨ e.sql row ≠ some true := by
  obtain ⟨mask, hmask, -, hentry⟩ := eval_entry hi hreads
  have hnone := PushedExpr.strictEval_eq_none fun q hq => (hreads q hq).kernelTruth_eq_none
  have hiff : (∃ mask, eval batch localIdx e = .ok mask ∧
      (mask[i]? = some (some true) ↔ e.sql row = some true)) ↔
      (e.strictEval row = some true ↔ e.sql row = some true) := by
    rw [hmask]
    constructor
    · rintro ⟨m, hm, h⟩
      obtain rfl := Except.ok.inj hm
      rwa [hentry, Option.some_inj] at h
    · exact fun h => ⟨mask, rfl, by rwa [hentry, Option.some_inj]⟩
  rw [hiff]
  constructor
  · intro hagree
    by_cases hsql : e.sql row = some true
    · refine .inl fun q hq hop hnull => ?_
      have := hnone.mpr ⟨q, hq, hop, hnull⟩
      rw [hagree.mpr hsql] at this
      cases this
    · exact .inr hsql
  · rintro (hknown | hsql)
    · cases hval : e.strictEval row with
      | none =>
        obtain ⟨q, hq, hop, hnull⟩ := hnone.mp hval
        exact absurd hnull (hknown q hq hop)
      | some b => rw [PushedExpr.sql_of_strictEval hfloat hval]
    · exact ⟨PushedExpr.sql_of_strictEval hfloat, fun h => absurd h hsql⟩

/-- `x = 1 OR y = 1`, over columns 0 and 1. -/
def eitherIsOne : PushedExpr := .or [.leaf ⟨0, .eq, .i32 1⟩, .leaf ⟨1, .eq, .i32 1⟩]

/-- The row `x = 1, y = y`, as a batch. -/
def oneAnd (y : Option Int32) : RecordBatch where
  numRows := 1
  columns := [⟨.int32, [some (.int32 1)], by decide⟩,
    ⟨.int32, [y.map .int32], by cases y <;> simp [cellTyped, ArrowValue.hasType]⟩]
  length_eq := by simp

/-- With `y = 2` no comparison reads a NULL, and the mask is right. -/
theorem eitherIsOne_agrees_on_two : ∃ mask, eval (oneAnd (some 2)) some eitherIsOne = .ok mask ∧
    (mask[0]? = some (some true) ↔
      eitherIsOne.sql (fun k => [some (.int32 1), some (.int32 2)].getD k none) = some true) := by
  have hleaves : eitherIsOne.leaves = [⟨0, .eq, .i32 1⟩, ⟨1, .eq, .i32 1⟩] := by
    simp [eitherIsOne, PushedExpr.leaves, PushedExpr.leavesList]
  refine (eval_agrees_with_sql_iff (by decide) ?_ ?_).mpr (.inl ?_) <;> rw [hleaves] <;>
    refine List.forall_mem_cons.mpr ⟨?_, List.forall_mem_singleton.mpr ?_⟩
  · exact ⟨0, _, rfl, rfl, fun _ => ⟨_, rfl⟩, rfl⟩
  · exact ⟨1, _, rfl, rfl, fun _ => ⟨_, rfl⟩, rfl⟩
  · rfl
  · rfl
  · simp
  · simp

/-- **A row that satisfies the qual is dropped.**  On `x = 1, y = NULL` the
disjunction is true, and its mask entry is null. -/
theorem eitherIsOne_drops_null : eitherIsOne.sql (fun k => [some (.int32 1), none].getD k none) =
    some true ∧ eval (oneAnd none) some eitherIsOne = .ok [none] := by
  constructor <;> rfl

/-! ### Column binding -/

mutual

/-- The closure `walk` of `collect_cols`: columns in the order of their first mention. -/
def collectWalk : PushedExpr → List ℕ → List ℕ
  | .leaf q, out => if q.col ∈ out then out else out ++ [q.col]
  | .and xs, out | .or xs, out => collectWalkList xs out
  | .not x, out => collectWalk x out

/-- `walk` over the children of a connective. -/
def collectWalkList : List PushedExpr → List ℕ → List ℕ
  | [], out => out
  | x :: xs, out => collectWalkList xs (collectWalk x out)

end

/-- `collect_cols`. -/
def collectCols (e : PushedExpr) : List ℕ := collectWalk e []

/-- `ProjectionMask::roots`, as the root indices of the projected batch: it is a
set of roots, so the batch has them in schema order; an index that is no root
panics. -/
def projectionRoots (numRoots : ℕ) (indices : List ℕ) : Outcome (List ℕ) :=
  if ∀ i ∈ indices, i < numRoots then .ok ((List.range numRoots).filter (· ∈ indices))
  else .error (.panic "index out of bounds")

/-- The mask has the given roots, in schema order. -/
theorem projectionRoots_spec {numRoots : ℕ} {cols roots : List ℕ}
    (h : projectionRoots numRoots cols = .ok roots) :
    (∀ c ∈ cols, c < numRoots) ∧ roots.Pairwise (· < ·) ∧ ∀ c, c ∈ roots ↔ c ∈ cols := by
  simp only [projectionRoots] at h
  split at h
  · rename_i hrange
    obtain rfl := Except.ok.inj h
    refine ⟨hrange, List.Pairwise.filter _ List.pairwise_lt_range, fun c => ?_⟩
    rw [List.mem_filter, List.mem_range, decide_eq_true_eq]
    exact ⟨And.right, fun hc => ⟨hrange c hc, hc⟩⟩
  · cases h

/-- Roots that are listed in schema order stay as they are listed. -/
theorem projectionRoots_of_ascending {numRoots : ℕ} {cols roots : List ℕ}
    (hsorted : cols.Pairwise (· < ·)) (h : projectionRoots numRoots cols = .ok roots) :
    roots = cols := by
  obtain ⟨-, hroots, hmem⟩ := projectionRoots_spec h
  have hperm := (List.perm_ext_iff_of_nodup (hroots.imp ne_of_lt) (hsorted.imp ne_of_lt)).mpr hmem
  exact hperm.eq_of_pairwise' hroots hsorted

/-- One predicate of the filter: the roots of its batch, and its closure's captures. -/
structure ArrowPredicate where
  projection : List ℕ
  cols : List ℕ
  expr : PushedExpr

/-- The closure `local_idx`. -/
def ArrowPredicate.localIdx (p : ArrowPredicate) (global : ℕ) : Option ℕ := p.cols.idxOf? global

/-- The predicate's closure, on the rows of the file that are still selected. -/
def ArrowPredicate.evaluate {types : List DataType} (p : ArrowPredicate)
    (rows : List (TypedRow types)) : Outcome BooleanArray :=
  eval (RecordBatch.ofRows p.projection rows) p.localIdx p.expr

/-- The body of the loop of `build_row_filter`. -/
def buildPredicate (numRoots : ℕ) (e : PushedExpr) : Outcome ArrowPredicate := do
  let projection ← projectionRoots numRoots (collectCols e)
  return { projection, cols := collectCols e, expr := e }

/-- `build_row_filter`, for a file with `numRoots` root columns. -/
def buildRowFilter (numRoots : ℕ) (exprs : List PushedExpr) :
    Outcome (Option (List ArrowPredicate)) :=
  if exprs.isEmpty then .ok none else some <$> exprs.mapM (buildPredicate numRoots)

/-- The root column that a leaf naming column `global` is evaluated against. -/
def ArrowPredicate.leafRoot (p : ArrowPredicate) (global : ℕ) : Option ℕ := do
  let idx ← p.localIdx global
  p.projection[idx]?

/-- The columns a tree mentions, from left to right, with repetitions. -/
def PushedExpr.mentions (e : PushedExpr) : List ℕ := e.leaves.map (·.col)

/-- Every column is, at its first mention, larger than all those mentioned before. -/
def FirstMentionsAscend (cols : List ℕ) : Prop :=
  ∀ pre c post, cols = pre ++ c :: post → c ∉ pre → ∀ d ∈ pre, d < c

/-- One mention: a column that is new goes to the end. -/
def mention (out : List ℕ) (c : ℕ) : List ℕ := if c ∈ out then out else out ++ [c]

theorem collectWalk_eq_foldl (e : PushedExpr) (out : List ℕ) :
    collectWalk e out = e.mentions.foldl mention out := by
  have hlist : ∀ xs : List PushedExpr,
      (∀ x ∈ xs, ∀ out, collectWalk x out = x.mentions.foldl mention out) →
      ∀ out, collectWalkList xs out =
        ((PushedExpr.leavesList xs).map (·.col)).foldl mention out := by
    intro xs ih
    induction xs with
    | nil => intro out; rfl
    | cons x xs ihx =>
      obtain ⟨hx, hxs⟩ := List.forall_mem_cons.mp ih
      intro out
      rw [collectWalkList, hx, ihx hxs, PushedExpr.leavesList, List.map_append, List.foldl_append,
        PushedExpr.mentions]
  induction e using PushedExpr.induction generalizing out with
  | leaf q => simp [collectWalk, PushedExpr.mentions, PushedExpr.leaves, mention]
  | and xs ih => rw [collectWalk, hlist xs ih, PushedExpr.mentions, PushedExpr.leaves]
  | or xs ih => rw [collectWalk, hlist xs ih, PushedExpr.mentions, PushedExpr.leaves]
  | not x ih => rw [collectWalk, ih, PushedExpr.mentions, PushedExpr.mentions, PushedExpr.leaves]

theorem firstMentionsAscend_concat {cols : List ℕ} {c : ℕ} :
    FirstMentionsAscend (cols ++ [c]) ↔
      FirstMentionsAscend cols ∧ (c ∉ cols → ∀ d ∈ cols, d < c) := by
  constructor
  · refine fun h => ⟨fun pre a post hcols => ?_, h cols c [] rfl⟩
    exact h pre a (post ++ [c]) (by rw [hcols, List.append_assoc, List.cons_append])
  · rintro ⟨hinit, hlast⟩ pre a post heq hnew
    rcases List.eq_nil_or_concat post with rfl | ⟨post', b, rfl⟩
    · obtain ⟨rfl, hac⟩ := List.append_inj' heq rfl
      obtain rfl : c = a := by simpa using hac
      exact hlast hnew
    · have heq' : cols ++ [c] = (pre ++ a :: post') ++ [b] := by simpa using heq
      exact hinit pre a post' (List.append_inj' heq' rfl).1 hnew

/-- What `collect_cols` returns for the mentions `cols`: the columns mentioned, once
each, in ascending order exactly when the first mentions ascend. -/
theorem foldl_mention (cols : List ℕ) :
    (∀ c, c ∈ cols.foldl mention [] ↔ c ∈ cols) ∧ (cols.foldl mention []).Nodup ∧
      ((cols.foldl mention []).Pairwise (· < ·) ↔ FirstMentionsAscend cols) := by
  induction cols using List.reverseRecOn with
  | nil => simp [FirstMentionsAscend]
  | append_singleton cols c ih =>
    obtain ⟨hmem, hnodup, hsorted⟩ := ih
    rw [List.foldl_append, List.foldl_cons, List.foldl_nil, mention, firstMentionsAscend_concat]
    by_cases hc : c ∈ cols.foldl mention []
    · rw [if_pos hc]
      have hc' := (hmem c).mp hc
      refine ⟨fun d => ?_, hnodup, by simp [hsorted, hc']⟩
      rw [hmem d, List.mem_append, List.mem_singleton]
      exact ⟨.inl, fun h => h.elim id (· ▸ hc')⟩
    · rw [if_neg hc]
      have hc' : c ∉ cols := fun h => hc ((hmem c).mpr h)
      refine ⟨fun d => by simp [hmem], List.nodup_append.mpr ⟨hnodup, by simp, ?_⟩, ?_⟩
      · rintro a ha b hb rfl
        exact hc (List.mem_singleton.mp hb ▸ ha)
      rw [List.pairwise_append, hsorted]
      simp [hc', hmem]

/-- The columns of a tree as `collect_cols` lists them. -/
theorem collectCols_spec (e : PushedExpr) :
    (∀ c, c ∈ collectCols e ↔ c ∈ e.mentions) ∧ (collectCols e).Nodup ∧
      ((collectCols e).Pairwise (· < ·) ↔ FirstMentionsAscend e.mentions) := by
  rw [collectCols, collectWalk_eq_foldl]
  exact foldl_mention e.mentions

/-- What holds of the columns of the leaves holds of the columns listed. -/
theorem forall_leaves_iff_collectCols (e : PushedExpr) (P : ℕ → Prop) :
    (∀ q ∈ e.leaves, P q.col) ↔ ∀ c ∈ collectCols e, P c := by
  simp only [(collectCols_spec e).1, PushedExpr.mentions, List.forall_mem_map]

/-- The batch has the columns listed, in another order. -/
theorem projectionRoots_perm {numRoots : ℕ} {cols roots : List ℕ} (hnodup : cols.Nodup)
    (h : projectionRoots numRoots cols = .ok roots) : roots.Perm cols := by
  obtain ⟨-, hsorted, hmem⟩ := projectionRoots_spec h
  exact (List.perm_ext_iff_of_nodup (hsorted.imp ne_of_lt) hnodup).mpr hmem

/-- The column listed at a position is looked up at that position of the batch. -/
theorem ArrowPredicate.leafRoot_getElem (p : ArrowPredicate) (hnodup : p.cols.Nodup) {k : ℕ}
    (h : k < p.cols.length) : p.leafRoot p.cols[k] = p.projection[k]? := by
  have hidx : p.cols.idxOf? p.cols[k] = some k := by
    rw [List.idxOf?_eq_some_iff]
    exact ⟨h, by simp, fun j hj => by simpa using (hnodup.getElem_inj_iff).not.mpr hj.ne⟩
  simp [leafRoot, localIdx, hidx]

/-- For distinct roots, position by position: the batch has every column where
`cols` lists it exactly when `cols` is in schema order. -/
theorem leafRoot_eq_iff (p : ArrowPredicate) {numRoots : ℕ} (hnodup : p.cols.Nodup)
    (hproj : projectionRoots numRoots p.cols = .ok p.projection) :
    (∀ c ∈ p.cols, p.leafRoot c = some c) ↔ p.cols.Pairwise (· < ·) := by
  obtain ⟨-, hsorted, -⟩ := projectionRoots_spec hproj
  have hperm := projectionRoots_perm hnodup hproj
  constructor
  · intro h
    suffices p.projection = p.cols from this ▸ hsorted
    refine List.ext_getElem? fun k => ?_
    by_cases hk : k < p.cols.length
    · rw [← p.leafRoot_getElem hnodup hk, h _ (List.getElem_mem hk), List.getElem?_eq_getElem hk]
    · rw [List.getElem?_eq_none (by rw [hperm.length_eq]; omega), List.getElem?_eq_none (by omega)]
  · intro h c hc
    obtain ⟨k, hk, rfl⟩ := List.mem_iff_getElem.mp hc
    rw [p.leafRoot_getElem hnodup hk, hperm.eq_of_pairwise' hsorted h, List.getElem?_eq_getElem hk]

/-- A predicate that is built: the columns are roots, and the batch has them. -/
theorem buildPredicate_eq_ok {numRoots : ℕ} {e : PushedExpr} {p : ArrowPredicate}
    (h : buildPredicate numRoots e = .ok p) :
    p.expr = e ∧ p.cols = collectCols e ∧ projectionRoots numRoots p.cols = .ok p.projection ∧
      ∀ q ∈ e.leaves, q.col < numRoots := by
  obtain ⟨projection, hproj, hret⟩ := except_bind_eq_ok.mp h
  obtain rfl := Except.ok.inj hret
  exact ⟨rfl, rfl, hproj,
    (forall_leaves_iff_collectCols e (· < numRoots)).mpr (projectionRoots_spec hproj).1⟩

theorem exists_buildPredicate {numRoots : ℕ} {e : PushedExpr}
    (h : ∀ q ∈ e.leaves, q.col < numRoots) : ∃ p, buildPredicate numRoots e = .ok p := by
  have hproj : projectionRoots numRoots (collectCols e) = .ok _ :=
    if_pos ((forall_leaves_iff_collectCols e (· < numRoots)).mp h)
  exact ⟨⟨_, collectCols e, e⟩, by rw [buildPredicate, hproj]; rfl⟩

/-- One predicate binds its leaves exactly when the tree's columns are roots and
their first mentions ascend. -/
theorem buildPredicate_bound_iff (numRoots : ℕ) (e : PushedExpr) :
    (∃ p, buildPredicate numRoots e = .ok p ∧
        ∀ q ∈ p.expr.leaves, p.leafRoot q.col = some q.col) ↔
      (∀ q ∈ e.leaves, q.col < numRoots) ∧ FirstMentionsAscend e.mentions := by
  obtain ⟨-, hnodup, hsorted⟩ := collectCols_spec e
  have hbinds : ∀ p, buildPredicate numRoots e = .ok p →
      ((∀ q ∈ p.expr.leaves, p.leafRoot q.col = some q.col) ↔ FirstMentionsAscend e.mentions) := by
    intro p hp
    obtain ⟨hexpr, hcols, hproj, -⟩ := buildPredicate_eq_ok hp
    rw [hexpr, forall_leaves_iff_collectCols e fun c => p.leafRoot c = some c, ← hsorted, ← hcols]
    exact leafRoot_eq_iff p (hcols ▸ hnodup) hproj
  constructor
  · rintro ⟨p, hp, hbound⟩
    exact ⟨(buildPredicate_eq_ok hp).2.2.2, (hbinds p hp).mp hbound⟩
  · rintro ⟨hrange, hascend⟩
    obtain ⟨p, hp⟩ := exists_buildPredicate hrange
    exact ⟨p, hp, (hbinds p hp).mpr hascend⟩

/-- A filter has one predicate for each expression. -/
theorem buildRowFilter_eq_ok {numRoots : ℕ} {exprs : List PushedExpr}
    {filter : Option (List ArrowPredicate)} (h : buildRowFilter numRoots exprs = .ok filter) :
    List.Forall₂ (fun e p => buildPredicate numRoots e = .ok p) exprs (filter.getD []) := by
  unfold buildRowFilter at h
  split_ifs at h with hnil
  · obtain rfl := Except.ok.inj h
    rw [List.isEmpty_iff.mp hnil]
    exact .nil
  · obtain ⟨preds, hpreds, h⟩ := except_bind_eq_ok.mp h
    obtain rfl := Except.ok.inj h
    exact mapM_eq_ok_iff.mp hpreds

theorem exists_buildRowFilter {numRoots : ℕ} {exprs : List PushedExpr} {preds : List ArrowPredicate}
    (h : exprs.mapM (buildPredicate numRoots) = .ok preds) :
    ∃ filter, buildRowFilter numRoots exprs = .ok filter ∧ filter.getD [] = preds := by
  unfold buildRowFilter
  split_ifs with hnil
  · obtain rfl := List.isEmpty_iff.mp hnil
    exact ⟨none, rfl, Except.ok.inj h⟩
  · exact ⟨some preds, by rw [h]; rfl, rfl⟩

/-- **The row filter binds every leaf to the column it names exactly when, in every
expression, each column is a root of the file and, at its first mention, larger
than all columns mentioned before.** -/
theorem leaves_bound_iff (numRoots : ℕ) (exprs : List PushedExpr) :
    (∃ filter, buildRowFilter numRoots exprs = .ok filter ∧
        (filter.getD []).map (·.expr) = exprs ∧
        ∀ p ∈ filter.getD [], ∀ q ∈ p.expr.leaves, p.leafRoot q.col = some q.col) ↔
      ∀ e ∈ exprs, (∀ q ∈ e.leaves, q.col < numRoots) ∧ FirstMentionsAscend e.mentions := by
  simp only [← buildPredicate_bound_iff]
  rw [← exists_mapM_eq_ok_iff]
  constructor
  · rintro ⟨filter, hfilter, -, hbound⟩
    exact ⟨filter.getD [], mapM_eq_ok_iff.mpr (buildRowFilter_eq_ok hfilter), hbound⟩
  · rintro ⟨preds, hpreds, hbound⟩
    obtain ⟨filter, hfilter, rfl⟩ := exists_buildRowFilter hpreds
    refine ⟨filter, hfilter, ?_, hbound⟩
    refine List.forall₂_eq_eq_eq ▸ (List.forall₂_map_left_iff.mpr ?_)
    exact (mapM_eq_ok_iff.mp hpreds).flip.imp fun p e hp => (buildPredicate_eq_ok hp).1

/-- **A leaf filters on the wrong column.**  `b = 2 AND a = 1`, with `a` the file's
column 0 and `b` its column 1: the comparison with `b` reads `a`. -/
theorem second_column_first_misbinds :
    ∃ p, buildPredicate 2 (.and [.leaf ⟨1, .eq, .i32 2⟩, .leaf ⟨0, .eq, .i32 1⟩]) = .ok p ∧
      p.leafRoot 1 = some 0 ∧ p.leafRoot 0 = some 1 :=
  ⟨_, rfl, rfl, rfl⟩

end ParquetAzureFdw
