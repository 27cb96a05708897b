/-
# Postgres expression trees and their meaning

The planner nodes `src/fdw/pushdown_walk.rs` reads, and what the executor makes
of them on a row.  A node of any other kind is `Node.other`: its value is
whatever Postgres computes (`PgSemantics.unmodelled`).

Postgres itself is outside the repository.  `PgSemantics` is an executor, with
the properties of it that the walker relies on: the operators of the table
`PUSHABLE_OPS` compare values of their type and give NULL on NULL, and `~~` with a
literal prefix tests for that prefix.  Text compares bytewise; nothing is asked
of the operators on floats.  An operator applied to values that are not of its
operand types, which Postgres' type checker excludes, is NULL.
-/

import ParquetAzureFdw.Convert.ArrowToPg
import ParquetAzureFdw.Pushdown.Expr

namespace ParquetAzureFdw

open ThreeValued

/-- `pg_sys::BoolExprType`. -/
inductive BoolExprType where
  | and | or | not
  deriving DecidableEq, Repr

/-- `pg_sys::NullTestType`. -/
inductive NullTestType where
  | isNull | isNotNull
  deriving DecidableEq, Repr

/-- `pg_sys::BoolTestType`. -/
inductive BoolTestType where
  | isTrue | isNotTrue | isFalse | isNotFalse | isUnknown | isNotUnknown
  deriving DecidableEq, Repr

/-- The payload of a non-null `Const`: a scalar, or an array with its element type. -/
inductive ConstValue where
  | scalar (d : Datum)
  | array (elemtype : Oid) (elems : List (Option Datum))
  deriving DecidableEq, Repr

/-- A `pg_sys::Node` of an expression tree. -/
inductive Node where
  | var (vartype : Oid) (varattno : ℤ) (varcollid : Oid)
  | const (consttype : Oid) (value : Option ConstValue)
  | relabelType (arg : Node)
  | opExpr (opno : Oid) (args : List Node)
  | boolExpr (boolop : BoolExprType) (args : List Node)
  | nullTest (arg : Node) (nulltesttype : NullTestType)
  | booleanTest (arg : Node) (booltesttype : BoolTestType)
  | scalarArrayOpExpr (opno : Oid) (useOr : Bool) (args : List Node)
  | other (tag : ℕ)

/-- A tuple as the executor sees it: the value of attribute `i`, from 0. -/
abbrev PgRow := ℕ → Option Datum

/-! ### The operator table -/

/-- `PUSHABLE_OPS` of `src/fdw/pg_op_oids.rs`; both operands of every entry have
one type. -/
def pushableOps : List (Oid × PushedOp × DataType) := [
  (94, .eq, .int16), (519, .ne, .int16), (95, .lt, .int16),
  (522, .le, .int16), (520, .gt, .int16), (524, .ge, .int16),
  (96, .eq, .int32), (518, .ne, .int32), (97, .lt, .int32),
  (523, .le, .int32), (521, .gt, .int32), (525, .ge, .int32),
  (410, .eq, .int64), (411, .ne, .int64), (412, .lt, .int64),
  (414, .le, .int64), (413, .gt, .int64), (415, .ge, .int64),
  (620, .eq, .float32), (621, .ne, .float32), (622, .lt, .float32),
  (624, .le, .float32), (623, .gt, .float32), (625, .ge, .float32),
  (670, .eq, .float64), (671, .ne, .float64), (672, .lt, .float64),
  (673, .le, .float64), (674, .gt, .float64), (675, .ge, .float64),
  (98, .eq, .utf8), (531, .ne, .utf8), (664, .lt, .utf8),
  (665, .le, .utf8), (666, .gt, .utf8), (667, .ge, .utf8),
  (1093, .eq, .date32), (1094, .ne, .date32), (1095, .lt, .date32),
  (1096, .le, .date32), (1097, .gt, .date32), (1098, .ge, .date32)]

/-- `lookup_op`. -/
def lookupOp (opno : Oid) : Option (PushedOp × DataType) :=
  (pushableOps.find? fun entry => entry.1 == opno).map (·.2)

/-- `TEXT_LIKE_OPNO`. -/
def textLikeOpno : Oid := 1209

/-! ### The executor -/

/-- The order of two values of the Postgres type that the wrapper reads from an
Arrow column of type `ty`, floats left out. -/
def Datum.compareAs : DataType → Datum → Datum → Option Ordering
  | .int16, .int2 a, .int2 b => some (compare a b)
  | .int32, .int4 a, .int4 b => some (compare a b)
  | .int64, .int8 a, .int8 b => some (compare a b)
  | .utf8, .text a, .text b => some (compare (utf8Bytes a) (utf8Bytes b))
  | .date32, .date a, .date b => some (compare a b)
  | _, _, _ => none

/-- Whether an Arrow type holds floating-point numbers. -/
def DataType.isFloat : DataType → Bool
  | .float32 | .float64 => true
  | _ => false

/-- Whether a value is a floating-point number. -/
def Datum.isFloat : Datum → Bool
  | .float4 _ | .float8 _ => true
  | _ => false

/-- A Postgres executor, as far as the walker relies on it. -/
structure PgSemantics where
  /-- The value of an operator on its operands. -/
  operator : Oid → List (Option Datum) → Option Datum
  /-- The value of a node of a kind, or a shape, that is not modelled here. -/
  unmodelled : Node → PgRow → Option Datum
  operator_compare : ∀ opno op ty, lookupOp opno = some (op, ty) → ty.isFloat = false →
    ∀ a b, operator opno [some a, some b] = (Datum.compareAs ty a b).map (.bool <| op.holds ·)
  operator_float : ∀ opno op ty, lookupOp opno = some (op, ty) → ty.isFloat = true →
    ∀ a b, operator opno [some a, some b] ≠ none → a.isFloat = true ∧ b.isFloat = true
  operator_null : ∀ opno op ty, lookupOp opno = some (op, ty) →
    ∀ a b, a = none ∨ b = none → operator opno [a, b] = none
  like_prefix : ∀ (s p : String), '%' ∉ p.toList → '_' ∉ p.toList → '\\' ∉ p.toList →
    operator textLikeOpno [some (.text s), some (.text (p ++ "%"))] =
      some (.bool (decide (utf8Bytes p <+: utf8Bytes s)))
  like_text : ∀ a b, operator textLikeOpno [a, b] ≠ none → ∃ s, a = some (.text s)

/-- A value as a truth value. -/
def truth : Option Datum → Truth
  | some (.bool b) => some b
  | _ => none

/-- A truth value as a value. -/
def ofTruth (t : Truth) : Option Datum := t.map .bool

@[simp] theorem truth_ofTruth (t : Truth) : truth (ofTruth t) = t := by
  cases t <;> rfl

/-- `ExecEvalBooleanTest`: never unknown. -/
def BoolTestType.holds : BoolTestType → Truth → Bool
  | .isTrue, t => t == some true
  | .isNotTrue, t => t != some true
  | .isFalse, t => t == some false
  | .isNotFalse, t => t != some false
  | .isUnknown, t => t == none
  | .isNotUnknown, t => t != none

mutual

/-- The value of a node on a row. -/
def Node.value (pg : PgSemantics) (row : PgRow) : Node → Option Datum
  | .var vartype varattno varcollid =>
    if varattno < 1 then pg.unmodelled (.var vartype varattno varcollid) row
    else row (varattno - 1).toNat
  | .const _ (some (.scalar d)) => some d
  | .const _ _ => none
  | .relabelType arg => arg.value pg row
  | .opExpr opno args => pg.operator opno (Node.values pg row args)
  | .boolExpr boolop args =>
    let children := (Node.values pg row args).map truth
    match boolop, children with
    | .and, children => ofTruth (all children)
    | .or, children => ofTruth (any children)
    | .not, [t] => ofTruth t.not
    | .not, _ => none
  | .nullTest arg .isNull => some (.bool (arg.value pg row).isNone)
  | .nullTest arg .isNotNull => some (.bool (arg.value pg row).isSome)
  | .booleanTest arg kind => some (.bool (kind.holds (truth (arg.value pg row))))
  | .scalarArrayOpExpr opno useOr [scalar, .const _ (some (.array _ elems))] =>
    let tests := elems.map fun e => truth (pg.operator opno [scalar.value pg row, e])
    ofTruth (if useOr then any tests else all tests)
  | .scalarArrayOpExpr opno useOr args => pg.unmodelled (.scalarArrayOpExpr opno useOr args) row
  | .other tag => pg.unmodelled (.other tag) row

/-- The values of the operands of a node. -/
def Node.values (pg : PgSemantics) (row : PgRow) : List Node → List (Option Datum)
  | [] => []
  | n :: ns => n.value pg row :: Node.values pg row ns

end

/-- Whether the node, as a condition, is true, false or unknown on a row. -/
def Node.truth (pg : PgSemantics) (row : PgRow) (n : Node) : Truth :=
  ParquetAzureFdw.truth (n.value pg row)

theorem Node.values_eq_map (pg : PgSemantics) (row : PgRow) (ns : List Node) :
    Node.values pg row ns = ns.map (Node.value pg row) := by
  induction ns with
  | nil => rfl
  | cons n ns ih => rw [values, ih, List.map_cons]

@[simp] theorem Node.truth_and (pg : PgSemantics) (row : PgRow) (args : List Node) :
    (Node.boolExpr .and args).truth pg row = all (args.map (Node.truth pg row)) := by
  rw [Node.truth, Node.value, values_eq_map, truth_ofTruth, List.map_map]
  rfl

@[simp] theorem Node.truth_or (pg : PgSemantics) (row : PgRow) (args : List Node) :
    (Node.boolExpr .or args).truth pg row = any (args.map (Node.truth pg row)) := by
  rw [Node.truth, Node.value, values_eq_map, truth_ofTruth, List.map_map]
  rfl

@[simp] theorem Node.truth_not (pg : PgSemantics) (row : PgRow) (n : Node) :
    (Node.boolExpr .not [n]).truth pg row = (n.truth pg row).not := by
  simp [Node.truth, Node.value, Node.values]

/-- A NOT that is true or false has one operand. -/
theorem Node.truth_not_eq_some {pg : PgSemantics} {row : PgRow} {args : List Node} {b : Bool}
    (h : (Node.boolExpr .not args).truth pg row = some b) :
    ∃ n, args = [n] ∧ n.truth pg row = some !b := by
  match args with
  | [n] =>
    rw [truth_not, Truth.not_eq_some] at h
    exact ⟨n, rfl, h⟩
  | [] => simp [Node.truth, Node.value, Node.values, ParquetAzureFdw.truth] at h
  | _ :: _ :: _ => simp [Node.truth, Node.value, Node.values, ParquetAzureFdw.truth] at h

/-- Induction over the tree, with the hypothesis for every operand. -/
@[elab_as_elim]
theorem Node.induction {P : Node → Prop} (var : ∀ ty attno coll, P (.var ty attno coll))
    (const : ∀ ty v, P (.const ty v)) (relabelType : ∀ arg, P arg → P (.relabelType arg))
    (opExpr : ∀ opno args, P (.opExpr opno args))
    (boolExpr : ∀ op args, (∀ a ∈ args, P a) → P (.boolExpr op args))
    (nullTest : ∀ arg kind, P (.nullTest arg kind))
    (booleanTest : ∀ arg kind, P (.booleanTest arg kind))
    (scalarArrayOpExpr : ∀ opno useOr args, P (.scalarArrayOpExpr opno useOr args))
    (other : ∀ tag, P (.other tag)) (n : Node) : P n :=
  @Node.rec P (fun ns => ∀ a ∈ ns, P a) var const relabelType (fun opno args _ => opExpr opno args)
    boolExpr (fun arg kind _ => nullTest arg kind) (fun arg kind _ => booleanTest arg kind)
    (fun opno useOr args _ => scalarArrayOpExpr opno useOr args) other
    (by simp) (fun _ _ hx hxs => List.forall_mem_cons.mpr ⟨hx, hxs⟩) n

/-- The value of an attribute is what the scan delivers from a stored one: it is converted from a
slot of some column by `arrow_value_to_datum`. -/
def DeliveredAs (ext : Externals) (x : Option ArrowValue) (v : Option Datum) : Prop :=
  ∃ col k oid, Column.cell col k = x ∧ arrowValueToDatum ext col k oid = .ok v

/-- The tuple is what the scan delivers from the stored values. -/
def Delivered (ext : Externals) (stored : ℕ → Option ArrowValue) (row : PgRow) : Prop :=
  ∀ i, DeliveredAs ext (stored i) (row i)

/-- An attribute of the tuple is NULL where the file has NULL, and otherwise the
conversion of the stored value. -/
theorem DeliveredAs.null_or_converted {ext : Externals} {x : Option ArrowValue} {v : Option Datum}
    (h : DeliveredAs ext x v) :
    (x = none ∧ v = none) ∨ ∃ y d ty oid, x = some y ∧ v = some d ∧ arrowToDatum ext ty oid y = .ok d := by
  obtain ⟨col, k, oid, hcell, hconv⟩ := h
  rw [arrowValueToDatum, hcell] at hconv
  cases x with
  | none => exact .inl ⟨rfl, (Except.ok.inj hconv).symm⟩
  | some y =>
    change some <$> arrowToDatum ext col.dataType oid y = _ at hconv
    cases hd : arrowToDatum ext col.dataType oid y with
    | error e => rw [hd] at hconv; cases hconv
    | ok d =>
      rw [hd] at hconv
      exact .inr ⟨y, d, _, _, rfl, (Except.ok.inj hconv).symm, hd⟩

end ParquetAzureFdw
