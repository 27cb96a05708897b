/-
# Pushed expressions and their SQL meaning

The types of `src/fdw/pushdown.rs`: an operator, a literal, a comparison of one
column with one literal (`PushedQual`), and the boolean trees over those
(`PushedExpr`).  A leaf names its column by index.

`PushedExpr.sql` is the meaning Postgres would give the tree on a row: Kleene's
connectives over comparisons that are unknown on a NULL.  It is the yardstick
for the row filter, for row-group pruning and for the qual walker; none of the
source's functions is defined by it.
-/

import ParquetAzureFdw.Arrow.Batch
import ParquetAzureFdw.Lib.ThreeValued

namespace ParquetAzureFdw

open ThreeValued

/-- `PushedOp`. -/
inductive PushedOp where
  | eq | ne | lt | le | gt | ge | isNull | isNotNull
  deriving DecidableEq, Repr

/-- `PushedOp::inverse`. -/
def PushedOp.inverse : PushedOp → Option PushedOp
  | .eq => some .ne
  | .ne => some .eq
  | .lt => some .ge
  | .ge => some .lt
  | .le => some .gt
  | .gt => some .le
  | .isNull => some .isNotNull
  | .isNotNull => some .isNull

/-- Whether the operator compares with a literal (the others test for NULL). -/
def PushedOp.isComparison : PushedOp → Bool
  | .isNull | .isNotNull => false
  | _ => true

/-- What a comparison says of the order of its operands. -/
def PushedOp.holds : PushedOp → Ordering → Bool
  | .eq, o => o == .eq
  | .ne, o => o != .eq
  | .lt, o => o == .lt
  | .le, o => o != .gt
  | .gt, o => o == .gt
  | .ge, o => o != .lt
  | .isNull, _ => false
  | .isNotNull, _ => true

/-- `ScalarValueRepr`. -/
inductive ScalarValueRepr where
  | null
  | bool (v : Bool)
  | i16 (v : Int16)
  | i32 (v : Int32)
  | i64 (v : Int64)
  | f32 (bits : UInt32)
  | f64 (bits : UInt64)
  | utf8 (v : String)
  | date32 (unixDays : Int32)
  | timestampMicros (unixMicros : Int64)
  | decimal128 (unscaled : ℤ) (precision : ℕ) (scale : ℤ)
  deriving DecidableEq, Repr

/-- The value a literal stands for. -/
def ScalarValueRepr.toValue : ScalarValueRepr → Option ArrowValue
  | .null => none
  | .bool v => some (.boolean v)
  | .i16 v => some (.int16 v)
  | .i32 v => some (.int32 v)
  | .i64 v => some (.int64 v)
  | .f32 v => some (.float32 v)
  | .f64 v => some (.float64 v)
  | .utf8 v => some (.utf8 v)
  | .date32 v => some (.date32 v)
  | .timestampMicros v => some (.timestamp v)
  | .decimal128 v _ _ => some (.decimal128 v)

/-- Whether the literal is a floating-point number. -/
def ScalarValueRepr.isFloat : ScalarValueRepr → Bool
  | .f32 _ | .f64 _ => true
  | _ => false

/-- `PushedQual`. -/
structure PushedQual where
  col : ℕ
  op : PushedOp
  value : ScalarValueRepr
  deriving DecidableEq, Repr

/-- `PushedExpr`. -/
inductive PushedExpr where
  | leaf (q : PushedQual)
  | and (xs : List PushedExpr)
  | or (xs : List PushedExpr)
  | not (x : PushedExpr)
  deriving Repr

/-- Induction over the tree, with the hypothesis for every child of a list. -/
@[elab_as_elim]
theorem PushedExpr.induction {P : PushedExpr → Prop} (leaf : ∀ q, P (.leaf q))
    (and : ∀ xs, (∀ x ∈ xs, P x) → P (.and xs)) (or : ∀ xs, (∀ x ∈ xs, P x) → P (.or xs))
    (not : ∀ x, P x → P (.not x)) (e : PushedExpr) : P e :=
  @PushedExpr.rec P (fun xs => ∀ x ∈ xs, P x) leaf and or not
    (by simp) (fun _ _ hx hxs => List.forall_mem_cons.mpr ⟨hx, hxs⟩) e

mutual

/-- The leaves of the tree, from left to right. -/
def PushedExpr.leaves : PushedExpr → List PushedQual
  | .leaf q => [q]
  | .and xs | .or xs => PushedExpr.leavesList xs
  | .not x => x.leaves

/-- The leaves of a list of trees, from left to right. -/
def PushedExpr.leavesList : List PushedExpr → List PushedQual
  | [] => []
  | x :: xs => x.leaves ++ PushedExpr.leavesList xs

end

theorem PushedExpr.mem_leavesList {q : PushedQual} {xs : List PushedExpr} :
    q ∈ PushedExpr.leavesList xs ↔ ∃ x ∈ xs, q ∈ x.leaves := by
  induction xs with
  | nil => simp [leavesList]
  | cons x xs ih => simp [leavesList, ih]

/-- No literal of the tree is a floating-point number. -/
def PushedExpr.FloatFree (e : PushedExpr) : Prop := ∀ q ∈ e.leaves, q.value.isFloat = false

@[simp] theorem PushedExpr.floatFree_leaf {q : PushedQual} :
    (PushedExpr.leaf q).FloatFree ↔ q.value.isFloat = false := by
  simp [FloatFree, leaves]

theorem PushedExpr.forall_leavesList {P : PushedQual → Prop} {xs : List PushedExpr} :
    (∀ q ∈ leavesList xs, P q) ↔ ∀ x ∈ xs, ∀ q ∈ x.leaves, P q := by
  simp only [mem_leavesList]
  exact ⟨fun h x hx q hq => h q ⟨x, hx, hq⟩, fun h q ⟨x, hx, hq⟩ => h x hx q hq⟩

@[simp] theorem PushedExpr.floatFree_and {xs : List PushedExpr} :
    (PushedExpr.and xs).FloatFree ↔ ∀ x ∈ xs, x.FloatFree := by
  rw [FloatFree, leaves, forall_leavesList]
  rfl

@[simp] theorem PushedExpr.floatFree_or {xs : List PushedExpr} :
    (PushedExpr.or xs).FloatFree ↔ ∀ x ∈ xs, x.FloatFree := by
  rw [FloatFree, leaves, forall_leavesList]
  rfl

@[simp] theorem PushedExpr.floatFree_not {x : PushedExpr} :
    (PushedExpr.not x).FloatFree ↔ x.FloatFree := by
  rw [FloatFree, leaves, FloatFree]

/-- The meaning of a leaf on the value of its column: a comparison with NULL is
unknown, a NULL test never is. -/
def PushedQual.sql (q : PushedQual) (v : Option ArrowValue) : Truth :=
  match q.op with
  | .isNull => some v.isNone
  | .isNotNull => some v.isSome
  | op => do
    let x ← v
    let lit ← q.value.toValue
    let o ← x.sqlCompare lit
    return op.holds o

mutual

/-- The meaning of the tree under SQL's three-valued logic, on the row whose
column `i` holds `row i`. -/
def PushedExpr.sql (row : ℕ → Option ArrowValue) : PushedExpr → Truth
  | .leaf q => q.sql (row q.col)
  | .and xs => all (PushedExpr.sqlList row xs)
  | .or xs => any (PushedExpr.sqlList row xs)
  | .not x => (x.sql row).not

/-- The meanings of a list of trees. -/
def PushedExpr.sqlList (row : ℕ → Option ArrowValue) : List PushedExpr → List Truth
  | [] => []
  | x :: xs => x.sql row :: PushedExpr.sqlList row xs

end

theorem PushedExpr.sqlList_eq_map (row : ℕ → Option ArrowValue) (xs : List PushedExpr) :
    PushedExpr.sqlList row xs = xs.map (PushedExpr.sql row) := by
  induction xs with
  | nil => rfl
  | cons x xs ih => rw [sqlList, ih, List.map_cons]

@[simp] theorem PushedExpr.sql_leaf (row : ℕ → Option ArrowValue) (q : PushedQual) :
    (PushedExpr.leaf q).sql row = q.sql (row q.col) := by rw [PushedExpr.sql]

@[simp] theorem PushedExpr.sql_and (row : ℕ → Option ArrowValue) (xs : List PushedExpr) :
    (PushedExpr.and xs).sql row = all (xs.map (PushedExpr.sql row)) := by
  rw [PushedExpr.sql, sqlList_eq_map]

@[simp] theorem PushedExpr.sql_or (row : ℕ → Option ArrowValue) (xs : List PushedExpr) :
    (PushedExpr.or xs).sql row = any (xs.map (PushedExpr.sql row)) := by
  rw [PushedExpr.sql, sqlList_eq_map]

@[simp] theorem PushedExpr.sql_not (row : ℕ → Option ArrowValue) (x : PushedExpr) :
    (PushedExpr.not x).sql row = (x.sql row).not := by rw [PushedExpr.sql]

/-! ### Other meanings of the leaves -/

/-- The meaning of a leaf when values are compared by `cmp`. -/
def PushedQual.sqlBy (cmp : ArrowValue → ArrowValue → Option Ordering) (q : PushedQual)
    (v : Option ArrowValue) : Truth :=
  match q.op with
  | .isNull => some v.isNone
  | .isNotNull => some v.isSome
  | op => do
    let x ← v
    let lit ← q.value.toValue
    let o ← cmp x lit
    return op.holds o

theorem PushedQual.sqlBy_sqlCompare (q : PushedQual) (v : Option ArrowValue) :
    q.sqlBy ArrowValue.sqlCompare v = q.sql v := rfl

/-- What a comparison that is true says of its operands. -/
theorem PushedQual.sqlBy_eq_true {cmp : ArrowValue → ArrowValue → Option Ordering} {q : PushedQual}
    (hop : q.op.isComparison = true) {v : Option ArrowValue} :
    q.sqlBy cmp v = some true ↔
      ∃ x lit o, v = some x ∧ q.value.toValue = some lit ∧ cmp x lit = some o ∧
        q.op.holds o = true := by
  obtain ⟨col, op, value⟩ := q
  cases op with
  | isNull | isNotNull => cases hop
  | _ =>
    simp only [sqlBy, Option.bind_eq_bind, Option.bind_eq_some_iff, Option.pure_def,
      Option.some.injEq]
    exact ⟨fun ⟨x, hx, lit, hlit, o, ho, h⟩ => ⟨x, lit, o, hx, hlit, ho, h⟩,
      fun ⟨x, lit, o, hx, hlit, ho, h⟩ => ⟨x, hx, lit, hlit, o, ho, h⟩⟩

/-- A comparison that decides more keeps what is true. -/
theorem PushedQual.sqlBy_mono {cmp cmp' : ArrowValue → ArrowValue → Option Ordering}
    (h : ∀ {x lit o}, cmp x lit = some o → cmp' x lit = some o) {q : PushedQual}
    {v : Option ArrowValue} (htrue : q.sqlBy cmp v = some true) : q.sqlBy cmp' v = some true := by
  cases hop : q.op.isComparison with
  | true =>
    obtain ⟨x, lit, o, hx, hlit, hcmp, hholds⟩ := (sqlBy_eq_true hop).mp htrue
    exact (sqlBy_eq_true hop).mpr ⟨x, lit, o, hx, hlit, h hcmp, hholds⟩
  | false =>
    obtain ⟨col, op, value⟩ := q
    cases op with
    | isNull | isNotNull => exact htrue
    | _ => cases hop

mutual

/-- The meaning of the tree, given the meaning of its leaves. -/
def PushedExpr.truth (t : PushedQual → Truth) : PushedExpr → Truth
  | .leaf q => t q
  | .and xs => all (PushedExpr.truthList t xs)
  | .or xs => any (PushedExpr.truthList t xs)
  | .not x => (x.truth t).not

/-- The meanings of a list of trees. -/
def PushedExpr.truthList (t : PushedQual → Truth) : List PushedExpr → List Truth
  | [] => []
  | x :: xs => x.truth t :: PushedExpr.truthList t xs

end

theorem PushedExpr.truthList_eq_map (t : PushedQual → Truth) (xs : List PushedExpr) :
    PushedExpr.truthList t xs = xs.map (PushedExpr.truth t) := by
  induction xs with
  | nil => rfl
  | cons x xs ih => rw [truthList, ih, List.map_cons]

section Truth

variable (t : PushedQual → Truth) (xs : List PushedExpr)

@[simp] theorem PushedExpr.truth_leaf (q : PushedQual) : (PushedExpr.leaf q).truth t = t q := by
  rw [PushedExpr.truth]

@[simp] theorem PushedExpr.truth_and :
    (PushedExpr.and xs).truth t = all (xs.map (PushedExpr.truth t)) := by
  rw [PushedExpr.truth, truthList_eq_map]

@[simp] theorem PushedExpr.truth_or :
    (PushedExpr.or xs).truth t = any (xs.map (PushedExpr.truth t)) := by
  rw [PushedExpr.truth, truthList_eq_map]

@[simp] theorem PushedExpr.truth_not (x : PushedExpr) :
    (PushedExpr.not x).truth t = (x.truth t).not := by rw [PushedExpr.truth]

end Truth

/-- The meaning in SQL is one of these. -/
theorem PushedExpr.sql_eq_truth (row : ℕ → Option ArrowValue) (e : PushedExpr) :
    e.sql row = e.truth fun q => q.sql (row q.col) := by
  induction e using PushedExpr.induction with
  | leaf q => simp
  | and xs ih | or xs ih =>
    have hmap := List.map_congr_left ih
    simp [hmap]
  | not x ih => simp [ih]

/-- A tree of conjunctions and disjunctions over leaves that satisfy `P`. -/
inductive PushedExpr.AndOr (P : PushedQual → Prop) : PushedExpr → Prop
  | leaf {q : PushedQual} (h : P q) : AndOr P (.leaf q)
  | and {xs : List PushedExpr} (h : ∀ x ∈ xs, AndOr P x) : AndOr P (.and xs)
  | or {xs : List PushedExpr} (h : ∀ x ∈ xs, AndOr P x) : AndOr P (.or xs)

/-- The inverse operator says the opposite of every order. -/
theorem PushedOp.holds_inverse {op op' : PushedOp} (h : op.inverse = some op') (o : Ordering) :
    op'.holds o = !op.holds o := by
  cases op <;> cases h <;> cases o <;> rfl

/-- **Inverting the operator negates the leaf**, NULLs included. -/
theorem PushedQual.sql_inverse {q : PushedQual} {op' : PushedOp} (h : q.op.inverse = some op')
    (v : Option ArrowValue) : PushedQual.sql { q with op := op' } v = (q.sql v).not := by
  have hholds := PushedOp.holds_inverse h
  obtain ⟨col, op, value⟩ := q
  rcases v with _ | x
  · cases op <;> cases h <;> rfl
  · cases hlit : value.toValue with
    | none => cases op <;> cases h <;> simp [sql, hlit]
    | some lit =>
      cases hord : x.sqlCompare lit with
      | none => cases op <;> cases h <;> simp [sql, hlit, hord]
      | some o => cases op <;> cases h <;> simp [sql, hlit, hord, hholds o]

end ParquetAzureFdw
