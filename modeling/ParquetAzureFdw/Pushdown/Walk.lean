/-
# The qual walker

`src/fdw/pushdown_walk.rs`: `walk_node` turns an expression tree of the planner
into a pushed expression, or gives it up.  An AND drops the conjuncts it cannot
translate, an OR is translated whole or not at all, a NOT is pushed through the
translation of its operand (`invert_pushed`).

A dropped conjunct weakens the translation, which is sound; under a NOT it
strengthens it, which is not.  In the same way `x IS TRUE` is translated to
`x = true`, which is right where it is true but unknown, not false, on a NULL.
What holds is soundness at each polarity (`walkNode_preserves`): a tree in which
no lossy AND and no `IS TRUE` or `IS FALSE` stands under an odd number of NOTs is
translated to an expression that is true wherever it is (`walkNode_sound_of_safe`).
-/

import ParquetAzureFdw.Lib.ByteOrder
import ParquetAzureFdw.Pushdown.PgExpr

namespace ParquetAzureFdw

open ThreeValued

/-! ### The walker -/

/-- `peel_relabel`. -/
def peelRelabel : Node → Node
  | .relabelType arg => peelRelabel arg
  | n => n

/-- `try_var`: the attribute index of a user column. -/
def tryVar (n : Node) : Option ℕ :=
  match peelRelabel n with
  | .var _ varattno _ => if varattno < 1 then none else some (varattno - 1).toNat
  | _ => none

/-- `DEFAULT_COLLATION_OID`. -/
def defaultCollationOid : Oid := 100

/-- `C_COLLATION_OID`. -/
def cCollationOid : Oid := 950

/-- `var_collation_ok`; a column without a collation carries `InvalidOid`. -/
def varCollationOk (n : Node) : Bool :=
  match peelRelabel n with
  | .var _ _ coll => coll == defaultCollationOid || coll == cCollationOid || coll == 0
  | _ => false

/-- `pg_to_unix_days`. -/
def pgToUnixDays (pgDays : Int32) : Option Int32 := checkedAdd32 pgDays unixToPgEpochDays

/-- The lowering of a datum of type `ty`, common to `try_const` and `try_array_const`. -/
def lowerDatum (ty : Oid) (d : Datum) : Option ScalarValueRepr :=
  match ty, d with
  | 21, .int2 v => some (.i16 v)
  | 23, .int4 v => some (.i32 v)
  | 20, .int8 v => some (.i64 v)
  | 700, .float4 v => some (.f32 v)
  | 701, .float8 v => some (.f64 v)
  | 25, .text s | 1043, .text s => some (.utf8 s)
  | 1082, .date pgDays => (pgToUnixDays pgDays).map .date32
  | _, _ => none

/-- `try_const`. -/
def tryConst (n : Node) : Option ScalarValueRepr :=
  match peelRelabel n with
  | .const ty (some (.scalar d)) => lowerDatum ty d
  | _ => none

/-- `const_text_arg`. -/
def constTextArg (n : Node) : Option String :=
  match peelRelabel n with
  | .const ty (some (.scalar (.text s))) => if ty = textOid ∨ ty = varcharOid then some s else none
  | _ => none

/-- `try_array_const`: a NULL element gives up the whole array. -/
def tryArrayConst : Option ConstValue → Option (List ScalarValueRepr)
  | some (.array elemtype elems) => elems.mapM fun e => e.bind (lowerDatum elemtype)
  | _ => none

/-- `like_prefix_literal`. -/
def likePrefixLiteral (pat : String) : Option String :=
  if pat.toList.getLast? = some '%' then
    let initial := pat.toList.dropLast
    if '%' ∈ initial ∨ '_' ∈ initial ∨ '\\' ∈ initial then none
    else if initial = [] then none
    else some (String.ofList initial)
  else none

/-- `next_lex_upper` of `src/fdw/pushdown.rs`. -/
def nextLexUpper (literal : String) : Option String := do
  let bytes ← ByteOrder.upper (utf8Bytes literal)
  String.fromUTF8? ⟨bytes.toArray⟩

/-- The operator with its operands exchanged. -/
def PushedOp.flipped : PushedOp → PushedOp
  | .lt => .gt
  | .gt => .lt
  | .le => .ge
  | .ge => .le
  | op => op

/-- The LIKE branch of `walk_op_expr`. -/
def walkLike (lhs rhs : Node) : Option PushedExpr := do
  let col ← tryVar lhs
  if varCollationOk lhs then
    let pattern ← constTextArg rhs
    let lower ← likePrefixLiteral pattern
    let upper ← nextLexUpper lower
    return .and [.leaf ⟨col, .ge, .utf8 lower⟩, .leaf ⟨col, .lt, .utf8 upper⟩]
  else none

/-- `walk_op_expr`. -/
def walkOpExpr (opno : Oid) (args : List Node) : Option PushedExpr :=
  match args with
  | [lhs, rhs] =>
    if opno = textLikeOpno then walkLike lhs rhs
    else
      match lookupOp opno with
      | none => none
      | some (op, _) =>
        match tryVar lhs, tryConst rhs with
        | some col, some val =>
          if varCollationOk lhs then some (.leaf ⟨col, op, val⟩) else none
        | _, _ =>
          match tryConst lhs, tryVar rhs with
          | some val, some col =>
            if varCollationOk rhs then some (.leaf ⟨col, op.flipped, val⟩) else none
          | _, _ => none
  | _ => none

/-- `walk_null_test`. -/
def walkNullTest (arg : Node) (kind : NullTestType) : Option PushedExpr := do
  let col ← tryVar arg
  match kind with
  | .isNull => return .leaf ⟨col, .isNull, .null⟩
  | .isNotNull => return .leaf ⟨col, .isNotNull, .null⟩

/-- `walk_boolean_test`. -/
def walkBooleanTest (arg : Node) (kind : BoolTestType) : Option PushedExpr := do
  let col ← tryVar arg
  match kind with
  | .isTrue => return .leaf ⟨col, .eq, .bool true⟩
  | .isFalse => return .leaf ⟨col, .eq, .bool false⟩
  | _ => none

/-- The children of a connective: none is given up, one stands for itself. -/
def join (isOr : Bool) : List PushedExpr → Option PushedExpr
  | [] => none
  | [c] => some c
  | children => some (if isOr then .or children else .and children)

/-- `walk_scalar_array_op`: `= ANY` and `<> ALL` only. -/
def walkScalarArrayOp (opno : Oid) (useOr : Bool) (args : List Node) : Option PushedExpr :=
  match lookupOp opno with
  | none => none
  | some (op, _) =>
    let isIn := useOr && op == .eq
    let isNotIn := !useOr && op == .ne
    if isIn || isNotIn then
      match args with
      | [varNode, .const _ value] =>
        match tryVar varNode, tryArrayConst value with
        | some col, some scalars => join isIn (scalars.map fun v => .leaf ⟨col, op, v⟩)
        | _, _ => none
      | _ => none
    else none

mutual

/-- `invert_pushed`. -/
def invertPushed : PushedExpr → Option PushedExpr
  | .leaf q => do
    let op ← q.op.inverse
    return .leaf { q with op }
  | .and xs => do return .or (← invertPushedList xs)
  | .or xs => do return .and (← invertPushedList xs)
  | .not inner => some inner

/-- `invert_pushed` over a list, all or nothing. -/
def invertPushedList : List PushedExpr → Option (List PushedExpr)
  | [] => some []
  | x :: xs => do return (← invertPushed x) :: (← invertPushedList xs)

end

/-- `walk_bool_expr` on the translations of its operands; `none` is an operand that
was given up. -/
def combine (boolop : BoolExprType) (walked : List (Option PushedExpr)) : Option PushedExpr :=
  let children := walked.filterMap id
  match boolop with
  | .and => join false children
  | .or => if children.length = walked.length then join true children else none
  | .not =>
    match children with
    | [inner] => invertPushed inner
    | _ => none

mutual

/-- `walk_node`. -/
def walkNode : Node → Option PushedExpr
  | .var vartype varattno _ =>
    if vartype ≠ boolOid then none
    else if varattno < 1 then none
    else some (.leaf ⟨(varattno - 1).toNat, .eq, .bool true⟩)
  | .const _ _ => none
  | .relabelType arg => walkNode arg
  | .opExpr opno args => walkOpExpr opno args
  | .boolExpr boolop args => combine boolop (walkNodes args)
  | .nullTest arg kind => walkNullTest arg kind
  | .booleanTest arg kind => walkBooleanTest arg kind
  | .scalarArrayOpExpr opno useOr args => walkScalarArrayOp opno useOr args
  | .other _ => none

/-- The loop of `walk_bool_expr` over its operands. -/
def walkNodes : List Node → List (Option PushedExpr)
  | [] => []
  | n :: ns => walkNode n :: walkNodes ns

end

/-- `walk_quals`. -/
def walkQuals (quals : List Node) : List PushedExpr := (walkNodes quals).filterMap id

theorem walkNodes_eq_map (ns : List Node) : walkNodes ns = ns.map walkNode := by
  induction ns with
  | nil => rfl
  | cons n ns ih => rw [walkNodes, ih, List.map_cons]

/-! ### Leaves -/

theorem peelRelabel_value (pg : PgSemantics) (row : PgRow) (n : Node) :
    (peelRelabel n).value pg row = n.value pg row := by
  fun_induction peelRelabel n with
  | case1 arg ih => rw [ih, Node.value]
  | case2 n => rfl

/-- A column reference is the value of its attribute. -/
theorem tryVar_value {n : Node} {col : ℕ} (h : tryVar n = some col) (pg : PgSemantics)
    (row : PgRow) : n.value pg row = row col := by
  rw [← peelRelabel_value, tryVar] at *
  split at h
  · rename_i varattno _ heq
    split at h
    · cases h
    · obtain rfl := Option.some.inj h
      rw [heq, Node.value, if_neg ‹_›]
  · cases h

/-- A literal is its datum, lowered. -/
theorem tryConst_value {n : Node} {lit : ScalarValueRepr} (h : tryConst n = some lit)
    (pg : PgSemantics) (row : PgRow) :
    ∃ ty d, n.value pg row = some d ∧ lowerDatum ty d = some lit := by
  rw [← peelRelabel_value]
  rw [tryConst] at h
  split at h
  · rename_i ty d heq
    exact ⟨ty, d, by rw [heq, Node.value], h⟩
  · cases h

/-- The inversion of `lowerDatum`, floats left out. -/
theorem lowerDatum_eq_some {ty : Oid} {d : Datum} {lit : ScalarValueRepr}
    (h : lowerDatum ty d = some lit) (hfloat : lit.isFloat = false) :
    (∃ v, d = .int2 v ∧ lit = .i16 v) ∨ (∃ v, d = .int4 v ∧ lit = .i32 v) ∨
      (∃ v, d = .int8 v ∧ lit = .i64 v) ∨ (∃ s, d = .text s ∧ lit = .utf8 s) ∨
      ∃ n u, d = .date n ∧ lit = .date32 u ∧ u.toInt = n.toInt + 10957 := by
  unfold lowerDatum at h
  split at h
  · cases h; exact .inl ⟨_, rfl, rfl⟩
  · cases h; exact .inr (.inl ⟨_, rfl, rfl⟩)
  · cases h; exact .inr (.inr (.inl ⟨_, rfl, rfl⟩))
  · cases h; cases hfloat
  · cases h; cases hfloat
  · cases h; exact .inr (.inr (.inr (.inl ⟨_, rfl, rfl⟩)))
  · cases h; exact .inr (.inr (.inr (.inl ⟨_, rfl, rfl⟩)))
  · obtain ⟨u, hu, rfl⟩ := Option.map_eq_some_iff.mp h
    exact .inr (.inr (.inr (.inr ⟨_, u, rfl, rfl, int32OfInt?_eq_some hu⟩)))
  · cases h

/-- **Postgres compares a stored value with a literal as the pushed leaf does.** -/
theorem sqlCompare_of_compareAs {ty : DataType} {x : ArrowValue} {a d : Datum}
    (hx : x.Converts a) {oid : Oid} {lit : ScalarValueRepr} (hlit : lowerDatum oid d = some lit)
    (hfloat : lit.isFloat = false) {o : Ordering} (ho : Datum.compareAs ty a d = some o) :
    ∃ y, lit.toValue = some y ∧ x.sqlCompare y = some o := by
  unfold Datum.compareAs at ho
  -- Of the five types that compare and the five that are lowered, the same one on both sides.
  split at ho <;> cases ho <;>
    obtain ⟨v, hd, rfl⟩ | ⟨v, hd, rfl⟩ | ⟨v, hd, rfl⟩ | ⟨s, hd, rfl⟩ | ⟨n, u, hd, rfl, hu⟩ :=
      lowerDatum_eq_some hlit hfloat <;> cases hd
  · cases x <;> cases hx
    exact ⟨_, rfl, rfl⟩
  · cases x <;> cases hx
    exact ⟨_, rfl, rfl⟩
  · cases x <;> cases hx
    exact ⟨_, rfl, rfl⟩
  · cases x <;> cases hx
    exact ⟨_, rfl, rfl⟩
  · cases x with
    | date32 stored =>
      -- Both sides of the comparison are moved by the same number of days.
      rename_i pgDays _
      have hstored : pgDays.toInt = stored.toInt - 10957 := hx
      refine ⟨_, rfl, congrArg some ?_⟩
      rw [Int32.compare_eq_compare_toInt, Int32.compare_eq_compare_toInt, hu, hstored]
      simp only [compare, compareOfLessAndEq]
      grind
    | _ => cases hx

/-- The leaf `col op lit` on a value that is not NULL. -/
theorem PushedQual.sql_comparison {q : PushedQual} (hop : q.op.isComparison = true)
    {x y : ArrowValue} (hlit : q.value.toValue = some y) {o : Ordering}
    (ho : x.sqlCompare y = some o) : q.sql (some x) = some (q.op.holds o) := by
  obtain ⟨col, op, value⟩ := q
  cases op <;> cases hop <;> simp [sql, hlit, ho]

theorem lookupOp_isComparison {opno : Oid} {op : PushedOp} {ty : DataType}
    (h : lookupOp opno = some (op, ty)) : op.isComparison = true := by
  obtain ⟨entry, hfind, hentry⟩ := Option.map_eq_some_iff.mp h
  have hmem := List.mem_of_find?_eq_some hfind
  have htable : ∀ entry ∈ pushableOps, entry.2.1.isComparison = true := by decide
  simpa [hentry] using htable entry hmem

/-- What `walk_op_expr` pushes: the range of a literal prefix, or the comparison of a column with
a literal, with the operator turned round when the literal comes first. -/
inductive WalkedOp (opno : Oid) (lhs rhs : Node) : PushedExpr → Prop
  | like {col : ℕ} {pattern literal bound : String} (hopno : opno = textLikeOpno)
      (hcol : tryVar lhs = some col) (hcoll : varCollationOk lhs = true)
      (hpattern : constTextArg rhs = some pattern)
      (hliteral : likePrefixLiteral pattern = some literal)
      (hbound : nextLexUpper literal = some bound) :
      WalkedOp opno lhs rhs
        (.and [.leaf ⟨col, .ge, .utf8 literal⟩, .leaf ⟨col, .lt, .utf8 bound⟩])
  | compare {op : PushedOp} {ty : DataType} {col : ℕ} {lit : ScalarValueRepr}
      (hop : lookupOp opno = some (op, ty)) (hcol : tryVar lhs = some col)
      (hlit : tryConst rhs = some lit) (hcoll : varCollationOk lhs = true) :
      WalkedOp opno lhs rhs (.leaf ⟨col, op, lit⟩)
  | flipped {op : PushedOp} {ty : DataType} {col : ℕ} {lit : ScalarValueRepr}
      (hop : lookupOp opno = some (op, ty)) (hlit : tryConst lhs = some lit)
      (hcol : tryVar rhs = some col) (hcoll : varCollationOk rhs = true) :
      WalkedOp opno lhs rhs (.leaf ⟨col, op.flipped, lit⟩)

theorem walkOpExpr_eq_some {opno : Oid} {args : List Node} {p : PushedExpr}
    (h : walkOpExpr opno args = some p) : ∃ lhs rhs, args = [lhs, rhs] ∧ WalkedOp opno lhs rhs p := by
  unfold walkOpExpr at h
  split at h
  swap
  · cases h
  rename_i lhs rhs
  refine ⟨lhs, rhs, rfl, ?_⟩
  split at h
  · rename_i hopno
    obtain ⟨col, hcol, h⟩ := Option.bind_eq_some_iff.mp h
    split at h
    · rename_i hcoll
      obtain ⟨pattern, hpattern, h⟩ := Option.bind_eq_some_iff.mp h
      obtain ⟨literal, hliteral, h⟩ := Option.bind_eq_some_iff.mp h
      obtain ⟨bound, hbound, h⟩ := Option.bind_eq_some_iff.mp h
      obtain rfl := Option.some.inj h
      exact .like hopno hcol hcoll hpattern hliteral hbound
    · cases h
  split at h
  · cases h
  rename_i op ty hop
  split at h
  · rename_i col lit hcol hlit
    split at h
    · rename_i hcoll
      obtain rfl := Option.some.inj h
      exact .compare hop hcol hlit hcoll
    · cases h
  · split at h
    · rename_i lit col hlit hcol
      split at h
      · rename_i hcoll
        obtain rfl := Option.some.inj h
        exact .flipped hop hlit hcol hcoll
      · cases h
    · cases h

section Leaves

variable {pg : PgSemantics} {ext : Externals} {stored : ℕ → Option ArrowValue} {row : PgRow}

/-- A value of the tuple is the conversion of the stored one. -/
theorem DeliveredAs.exists_converts {x : Option ArrowValue} {d : Datum}
    (h : DeliveredAs ext x (some d)) : ∃ y, x = some y ∧ y.Converts d := by
  obtain ⟨-, hnone⟩ | ⟨y, d', ty, oid, hy, hd', hconv⟩ := h.null_or_converted
  · cases hnone
  · obtain rfl := Option.some.inj hd'
    exact ⟨y, hy, arrowToDatum_converts hconv⟩

variable (ext stored row) in
/-- The leaves of a tree compare no floats, and read attributes that the scan delivers. -/
def PushedExpr.ReadsDelivered (p : PushedExpr) : Prop :=
  ∀ q ∈ p.leaves, q.value.isFloat = false ∧ DeliveredAs ext (stored q.col) (row q.col)

/-- What an operator of the table that is true or false has compared. -/
theorem operator_truth {opno : Oid} {op : PushedOp} {ty : DataType}
    (hop : lookupOp opno = some (op, ty)) {u v : Option Datum} {b : Bool}
    (hb : truth (pg.operator opno [u, v]) = some b) :
    ∃ a d, u = some a ∧ v = some d ∧
      (a.isFloat = true ∧ d.isFloat = true ∨
        ∃ o, Datum.compareAs ty a d = some o ∧ op.holds o = b) := by
  have hne : pg.operator opno [u, v] ≠ none := fun h => by rw [h] at hb; cases hb
  rcases u with _ | a
  · exact absurd (pg.operator_null opno op ty hop none v (.inl rfl)) hne
  rcases v with _ | d
  · exact absurd (pg.operator_null opno op ty hop (some a) none (.inr rfl)) hne
  refine ⟨a, d, rfl, rfl, ?_⟩
  cases hfloat : ty.isFloat with
  | true => exact .inl (pg.operator_float opno op ty hop hfloat a d hne)
  | false =>
    rw [pg.operator_compare opno op ty hop hfloat] at hb
    cases ho : Datum.compareAs ty a d with
    | none => rw [ho] at hb; cases hb
    | some o =>
      rw [ho] at hb
      exact .inr ⟨o, rfl, Option.some.inj hb⟩

theorem not_isFloat_of_lowerDatum {oid : Oid} {d : Datum} {lit : ScalarValueRepr}
    (h : lowerDatum oid d = some lit) (hfloat : lit.isFloat = false) : d.isFloat = false := by
  obtain ⟨v, rfl, -⟩ | ⟨v, rfl, -⟩ | ⟨v, rfl, -⟩ | ⟨s, rfl, -⟩ | ⟨n, u, rfl, -, -⟩ :=
    lowerDatum_eq_some h hfloat <;> rfl

/-- Exchanging the operands reverses the order. -/
theorem Datum.compareAs_swap {ty : DataType} {a d : Datum} {o : Ordering}
    (h : Datum.compareAs ty d a = some o) : Datum.compareAs ty a d = some o.swap := by
  unfold Datum.compareAs at h
  split at h <;> cases h <;> exact congrArg some Std.OrientedOrd.eq_swap

theorem PushedOp.flipped_holds {op : PushedOp} (h : op.isComparison = true) (o : Ordering) :
    op.flipped.holds o.swap = op.holds o := by
  cases op <;> cases h <;> cases o <;> rfl

theorem PushedOp.flipped_isComparison {op : PushedOp} (h : op.isComparison = true) :
    op.flipped.isComparison = true := by
  cases op <;> cases h <;> rfl

/-- A stored value and a lowered literal compare as their datums do. -/
theorem PushedQual.sql_of_compareAs {q : PushedQual} (hop : q.op.isComparison = true) {oid : Oid}
    {a d : Datum} (hlit : lowerDatum oid d = some q.value) (hfloat : q.value.isFloat = false)
    {x : Option ArrowValue} (hcol : DeliveredAs ext x (some a)) {ty : DataType} {o : Ordering}
    (ho : Datum.compareAs ty a d = some o) : q.sql x = some (q.op.holds o) := by
  obtain ⟨v, rfl, hconv⟩ := hcol.exists_converts
  obtain ⟨y, hy, hcmp⟩ := sqlCompare_of_compareAs hconv hlit hfloat ho
  exact sql_comparison hop hy hcmp

/-- **Column against literal**: where the operator is true or false on the row, so
is the pushed leaf. -/
theorem leaf_of_operator {opno : Oid} {op : PushedOp} {ty : DataType}
    (hop : lookupOp opno = some (op, ty)) {oid : Oid} {d : Datum} {lit : ScalarValueRepr}
    (hlit : lowerDatum oid d = some lit) (hfloat : lit.isFloat = false) {col : ℕ}
    (hcol : DeliveredAs ext (stored col) (row col)) {b : Bool}
    (hb : truth (pg.operator opno [row col, some d]) = some b) :
    PushedQual.sql ⟨col, op, lit⟩ (stored col) = some b := by
  obtain ⟨a, d', ha, hd, ⟨-, hd'⟩ | ⟨o, ho, rfl⟩⟩ := operator_truth hop hb
  · rw [← Option.some.inj hd, not_isFloat_of_lowerDatum hlit hfloat] at hd'
    cases hd'
  · obtain rfl := Option.some.inj hd
    rw [ha] at hcol
    exact PushedQual.sql_of_compareAs (lookupOp_isComparison hop) hlit hfloat hcol ho

/-- **Literal against column**, with the operator turned round. -/
theorem leaf_of_operator_flipped {opno : Oid} {op : PushedOp} {ty : DataType}
    (hop : lookupOp opno = some (op, ty)) {oid : Oid} {d : Datum} {lit : ScalarValueRepr}
    (hlit : lowerDatum oid d = some lit) (hfloat : lit.isFloat = false) {col : ℕ}
    (hcol : DeliveredAs ext (stored col) (row col)) {b : Bool}
    (hb : truth (pg.operator opno [some d, row col]) = some b) :
    PushedQual.sql ⟨col, op.flipped, lit⟩ (stored col) = some b := by
  have hcomparison := lookupOp_isComparison hop
  obtain ⟨d', a, hd, ha, ⟨hd', -⟩ | ⟨o, ho, rfl⟩⟩ := operator_truth hop hb
  · rw [← Option.some.inj hd, not_isFloat_of_lowerDatum hlit hfloat] at hd'
    cases hd'
  · obtain rfl := Option.some.inj hd
    rw [ha] at hcol
    rw [← PushedOp.flipped_holds hcomparison]
    exact PushedQual.sql_of_compareAs (q := ⟨col, op.flipped, lit⟩)
      (PushedOp.flipped_isComparison hcomparison) hlit hfloat hcol (Datum.compareAs_swap ho)

/-- The bytes of the exclusive upper bound of a prefix. -/
theorem nextLexUpper_bytes {literal bound : String} (h : nextLexUpper literal = some bound) :
    ByteOrder.upper (utf8Bytes literal) = some (utf8Bytes bound) := by
  obtain ⟨bytes, hbytes, hutf8⟩ := Option.bind_eq_some_iff.mp h
  rw [hbytes]
  unfold String.fromUTF8? at hutf8
  split at hutf8
  · obtain rfl := Option.some.inj hutf8
    simp [utf8Bytes, String.fromUTF8]
  · cases hutf8

theorem likePrefixLiteral_eq_some {pat literal : String} (h : likePrefixLiteral pat = some literal) :
    pat = literal ++ "%" ∧ '%' ∉ literal.toList ∧ '_' ∉ literal.toList ∧ '\\' ∉ literal.toList := by
  unfold likePrefixLiteral at h
  split at h
  · rename_i hlast
    simp only at h
    split at h
    · cases h
    · rename_i hspecial
      split at h
      · cases h
      · obtain rfl := Option.some.inj h
        simp only [not_or] at hspecial
        refine ⟨String.toList_inj.mp ?_, by simpa using hspecial⟩
        rw [String.toList_append, String.toList_ofList]
        exact (List.dropLast_append_getLast? _ hlast).symm
  · cases h

theorem constTextArg_value {n : Node} {s : String} (h : constTextArg n = some s)
    (pg : PgSemantics) (row : PgRow) : n.value pg row = some (.text s) := by
  rw [← peelRelabel_value]
  rw [constTextArg] at h
  split at h
  · rename_i ty s' heq
    split at h
    · obtain rfl := Option.some.inj h
      rw [heq, Node.value]
    · cases h
  · cases h

/-- The range from a literal to its upper bound holds the strings that begin with the literal. -/
theorem sql_prefixRange {col : ℕ} {s literal bound : String} (hx : stored col = some (.utf8 s))
    (hbound : nextLexUpper literal = some bound) :
    (PushedExpr.and [.leaf ⟨col, .ge, .utf8 literal⟩, .leaf ⟨col, .lt, .utf8 bound⟩]).sql stored =
      some (decide (utf8Bytes literal <+: utf8Bytes s)) := by
  have hlower : PushedQual.sql ⟨col, .ge, .utf8 literal⟩ (stored col) =
      some (decide (compare (utf8Bytes literal) (utf8Bytes s) ≠ .gt)) := by
    rw [hx, PushedQual.sql_comparison rfl rfl rfl,
      Std.OrientedOrd.eq_swap (a := utf8Bytes s) (b := utf8Bytes literal)]
    cases compare (utf8Bytes literal) (utf8Bytes s) <;> rfl
  have hupper : PushedQual.sql ⟨col, .lt, .utf8 bound⟩ (stored col) =
      some (decide (compare (utf8Bytes s) (utf8Bytes bound) = .lt)) := by
    rw [hx, PushedQual.sql_comparison rfl rfl rfl]
    cases compare (utf8Bytes s) (utf8Bytes bound) <;> rfl
  rw [PushedExpr.sql_and, List.map_cons, List.map_singleton, PushedExpr.sql_leaf,
    PushedExpr.sql_leaf, hlower, hupper]
  simp only [ByteOrder.prefix_iff_between (nextLexUpper_bytes hbound)]
  by_cases h1 : compare (utf8Bytes literal) (utf8Bytes s) = .gt <;>
    by_cases h2 : compare (utf8Bytes s) (utf8Bytes bound) = .lt <;>
    simp [h1, h2, Truth.and]

/-- `walk_op_expr` keeps both truth and falsity: `col LIKE 'literal%'` is the range from the
literal to its upper bound, and a comparison is itself, one way round or the other. -/
theorem walkOpExpr_preserves {opno : Oid} {args : List Node} {p : PushedExpr}
    (hp : walkOpExpr opno args = some p) (hreads : p.ReadsDelivered ext stored row) {b : Bool}
    (hb : (Node.opExpr opno args).truth pg row = some b) : p.sql stored = some b := by
  obtain ⟨lhs, rhs, rfl, hwalked⟩ := walkOpExpr_eq_some hp
  rw [Node.truth, Node.value, Node.values_eq_map, List.map_cons, List.map_singleton] at hb
  cases hwalked with
  | like hopno hcol _ hpattern hliteral hbound =>
    obtain ⟨rfl, hpercent, hunderscore, hescape⟩ := likePrefixLiteral_eq_some hliteral
    rw [hopno, tryVar_value hcol, constTextArg_value hpattern] at hb
    obtain ⟨s, hs⟩ := pg.like_text _ _ fun h => by rw [h] at hb; cases hb
    have hdelivered := (hreads _ List.mem_cons_self).2
    rw [hs] at hdelivered
    obtain ⟨x, hx, hconv⟩ := hdelivered.exists_converts
    obtain rfl : x = .utf8 s := by
      cases x <;> cases hconv
      rfl
    rw [hs, pg.like_prefix s _ hpercent hunderscore hescape] at hb
    obtain rfl := Option.some.inj hb
    exact sql_prefixRange hx hbound
  | compare hop hcol hlit _ =>
    obtain ⟨oid, d, hd, hlower⟩ := tryConst_value hlit pg row
    rw [tryVar_value hcol, hd] at hb
    obtain ⟨hfloat, hdelivered⟩ := hreads _ (List.mem_singleton_self _)
    exact leaf_of_operator hop hlower hfloat hdelivered hb
  | flipped hop hlit hcol _ =>
    obtain ⟨oid, d, hd, hlower⟩ := tryConst_value hlit pg row
    rw [tryVar_value hcol, hd] at hb
    obtain ⟨hfloat, hdelivered⟩ := hreads _ (List.mem_singleton_self _)
    exact leaf_of_operator_flipped hop hlower hfloat hdelivered hb

/-- A column of booleans that is not NULL is `true` or not. -/
theorem sql_boolean {col : ℕ} (hcol : DeliveredAs ext (stored col) (row col)) {v b : Bool}
    (hv : truth (row col) = some v) :
    PushedQual.sql ⟨col, .eq, .bool b⟩ (stored col) = some (v == b) := by
  obtain ⟨d, hd⟩ : ∃ d, row col = some d := by
    cases h : row col with
    | none => rw [h] at hv; cases hv
    | some d => exact ⟨d, rfl⟩
  rw [hd] at hv hcol
  obtain ⟨x, hx, hconv⟩ := hcol.exists_converts
  cases d <;> cases hv
  cases x <;> cases hconv
  rw [hx, PushedQual.sql_comparison rfl rfl rfl]
  cases v <;> cases b <;> rfl

theorem walkNullTest_preserves {arg : Node} {kind : NullTestType} {p : PushedExpr}
    (hp : walkNullTest arg kind = some p) (hreads : p.ReadsDelivered ext stored row) {b : Bool}
    (hb : (Node.nullTest arg kind).truth pg row = some b) : p.sql stored = some b := by
  obtain ⟨col, hcol, hp⟩ := Option.bind_eq_some_iff.mp hp
  have hval := tryVar_value hcol pg row
  have hnull : DeliveredAs ext (stored col) (row col) →
      (row col).isNone = (stored col).isNone ∧ (row col).isSome = (stored col).isSome := by
    intro hdelivered
    obtain ⟨hs, hr⟩ | ⟨x, d, _, _, hs, hr, -⟩ := hdelivered.null_or_converted <;> simp [hs, hr]
  cases kind with
  | isNull =>
    obtain rfl := Option.some.inj hp
    rw [Node.truth, Node.value, hval, (hnull (hreads _ (List.mem_singleton_self _)).2).1] at hb
    rw [PushedExpr.sql_leaf]
    exact hb
  | isNotNull =>
    obtain rfl := Option.some.inj hp
    rw [Node.truth, Node.value, hval, (hnull (hreads _ (List.mem_singleton_self _)).2).2] at hb
    rw [PushedExpr.sql_leaf]
    exact hb

/-- `IS TRUE` and `IS FALSE` keep truth; on a NULL they are false, and the leaf is
unknown. -/
theorem walkBooleanTest_preserves {arg : Node} {kind : BoolTestType} {p : PushedExpr}
    (hp : walkBooleanTest arg kind = some p) (hreads : p.ReadsDelivered ext stored row)
    (hb : (Node.booleanTest arg kind).truth pg row = some true) : p.sql stored = some true := by
  obtain ⟨col, hcol, hp⟩ := Option.bind_eq_some_iff.mp hp
  rw [Node.truth, Node.value, tryVar_value hcol] at hb
  have hholds : kind.holds (truth (row col)) = true := Option.some.inj hb
  cases kind with
  | isTrue =>
    obtain rfl := Option.some.inj hp
    exact sql_boolean (hreads _ (List.mem_singleton_self _)).2 (b := true)
      (by simpa [BoolTestType.holds] using hholds)
  | isFalse =>
    obtain rfl := Option.some.inj hp
    exact sql_boolean (hreads _ (List.mem_singleton_self _)).2 (b := false)
      (by simpa [BoolTestType.holds] using hholds)
  | isNotTrue | isNotFalse | isUnknown | isNotUnknown => cases hp

/-- A traversal in `Option` succeeds when every element does. -/
theorem mapM_eq_some_iff {α β : Type} {f : α → Option β} {l : List α} {r : List β} :
    l.mapM f = some r ↔ List.Forall₂ (fun a b => f a = some b) l r := by
  induction l generalizing r with
  | nil => simp [eq_comm]
  | cons a l ih =>
    rw [List.mapM_cons, List.forall₂_cons_left_iff]
    simp only [Option.bind_eq_bind, Option.bind_eq_some_iff, Option.pure_def, Option.some.injEq, ih]
    exact ⟨fun ⟨b, hb, bs, hbs, h⟩ => ⟨b, bs, hb, hbs, h.symm⟩,
      fun ⟨b, bs, hb, hbs, h⟩ => ⟨b, hb, bs, hbs, h.symm⟩⟩

/-- The leaves of an IN list, against the comparisons they stand for. -/
theorem leaves_of_elements {opno : Oid} {op : PushedOp} {ty : DataType}
    (hop : lookupOp opno = some (op, ty)) {elemtype : Oid} {col : ℕ}
    {elems : List (Option Datum)} {scalars : List ScalarValueRepr}
    (hscalars : elems.mapM (fun e => e.bind (lowerDatum elemtype)) = some scalars)
    (hreads : ∀ v ∈ scalars, v.isFloat = false ∧ DeliveredAs ext (stored col) (row col)) (b : Bool) :
    List.Forall₂ (fun e v => truth (pg.operator opno [row col, e]) = some b →
      PushedQual.sql ⟨col, op, v⟩ (stored col) = some b) elems scalars := by
  induction elems generalizing scalars with
  | nil =>
    obtain rfl : scalars = [] := by simpa using hscalars.symm
    exact .nil
  | cons e elems ih =>
    rw [List.mapM_cons] at hscalars
    obtain ⟨v, hv, hscalars⟩ := Option.bind_eq_some_iff.mp hscalars
    obtain ⟨vs, hvs, hscalars⟩ := Option.bind_eq_some_iff.mp hscalars
    obtain rfl := Option.some.inj hscalars
    obtain ⟨⟨hfloat, hdelivered⟩, hrest⟩ := List.forall_mem_cons.mp hreads
    obtain ⟨d, rfl, hd⟩ := Option.bind_eq_some_iff.mp hv
    exact .cons (leaf_of_operator hop hd hfloat hdelivered) (ih hvs hrest)

/-- The meaning of joined children. -/
theorem join_eq_some {isOr : Bool} {children : List PushedExpr} {p : PushedExpr}
    (h : join isOr children = some p) (stored : ℕ → Option ArrowValue) :
    p.sql stored = (if isOr then any else all) (children.map (PushedExpr.sql stored)) ∧
      ∀ c ∈ children, ∀ q ∈ c.leaves, q ∈ p.leaves := by
  unfold join at h
  split at h
  · cases h
  · obtain rfl := Option.some.inj h
    cases isOr <;> simp
  · obtain rfl := Option.some.inj h
    cases isOr
    · exact ⟨by simp, PushedExpr.forall_leavesList.mp fun q hq => hq⟩
    · exact ⟨by simp, PushedExpr.forall_leavesList.mp fun q hq => hq⟩

/-- What `walk_scalar_array_op` translates. -/
theorem walkScalarArrayOp_eq_some {opno : Oid} {useOr : Bool} {args : List Node} {p : PushedExpr}
    (h : walkScalarArrayOp opno useOr args = some p) :
    ∃ op ty varNode constty elemtype elems col scalars, lookupOp opno = some (op, ty) ∧
      op = (if useOr then .eq else .ne) ∧
      args = [varNode, .const constty (some (.array elemtype elems))] ∧
      tryVar varNode = some col ∧
      elems.mapM (fun e => e.bind (lowerDatum elemtype)) = some scalars ∧
      join useOr (scalars.map fun v => .leaf ⟨col, op, v⟩) = some p := by
  unfold walkScalarArrayOp at h
  split at h
  · cases h
  rename_i op ty hop
  simp only at h
  split at h
  swap
  · cases h
  rename_i hkind
  have hop' : op = if useOr then .eq else .ne := by
    cases useOr <;> simpa using hkind
  have hisIn : (useOr && op == .eq) = useOr := by
    rw [hop']
    cases useOr <;> rfl
  rw [hisIn] at h
  split at h
  swap
  · cases h
  rename_i varNode constty value
  split at h
  swap
  · cases h
  rename_i col scalars hcol hscalars
  unfold tryArrayConst at hscalars
  split at hscalars
  swap
  · cases hscalars
  exact ⟨op, ty, _, _, _, _, col, scalars, hop, hop', rfl, hcol, hscalars, h⟩

/-- `walk_scalar_array_op` keeps both truth and falsity. -/
theorem walkScalarArrayOp_preserves {opno : Oid} {useOr : Bool} {args : List Node} {p : PushedExpr}
    (hp : walkScalarArrayOp opno useOr args = some p) (hreads : p.ReadsDelivered ext stored row)
    {b : Bool}
    (hb : (Node.scalarArrayOpExpr opno useOr args).truth pg row = some b) :
    p.sql stored = some b := by
  obtain ⟨op, ty, varNode, constty, elemtype, elems, col, scalars, hop, -, rfl, hcol, hscalars,
    hjoin⟩ := walkScalarArrayOp_eq_some hp
  obtain ⟨hsql, hsub⟩ := join_eq_some hjoin stored
  have hleaves : List.Forall₂ (fun e v => truth (pg.operator opno [row col, e]) = some b →
      PushedQual.sql ⟨col, op, v⟩ (stored col) = some b) elems scalars :=
    leaves_of_elements hop hscalars (fun v hv => hreads ⟨col, op, v⟩
      (hsub (.leaf _) (List.mem_map_of_mem hv) _ (List.mem_singleton_self _))) b
  rw [Node.truth, Node.value, truth_ofTruth, tryVar_value hcol] at hb
  have hforall : List.Forall₂ (fun s t => s = some b → t = some b)
      (elems.map fun e => truth (pg.operator opno [row col, e]))
      ((scalars.map fun v => PushedExpr.leaf ⟨col, op, v⟩).map (PushedExpr.sql stored)) := by
    simpa using hleaves
  rw [hsql]
  cases useOr with
  | true => exact any_of_forall₂ hforall hb
  | false => exact all_of_forall₂ hforall hb

end Leaves

/-! ### Connectives -/

theorem invertPushedList_eq_mapM (xs : List PushedExpr) :
    invertPushedList xs = xs.mapM invertPushed := by
  induction xs with
  | nil => rfl
  | cons x xs ih => rw [invertPushedList, ih, List.mapM_cons]

/-- Induction over an expression and its inversion. -/
theorem invertPushed_induction {P : PushedExpr → PushedExpr → Prop}
    (leaf : ∀ q op, q.op.inverse = some op → P (.leaf q) (.leaf { q with op }))
    (and : ∀ xs ys, List.Forall₂ P xs ys → P (.and xs) (.or ys))
    (or : ∀ xs ys, List.Forall₂ P xs ys → P (.or xs) (.and ys)) (not : ∀ x, P (.not x) x)
    {e e' : PushedExpr} (h : invertPushed e = some e') : P e e' := by
  have hlist : ∀ {xs ys}, (∀ x ∈ xs, ∀ {y}, invertPushed x = some y → P x y) →
      invertPushedList xs = some ys → List.Forall₂ P xs ys := by
    intro xs ys ih hys
    rw [invertPushedList_eq_mapM] at hys
    exact ((List.forall₂_and_left xs ys).mpr ⟨ih, mapM_eq_some_iff.mp hys⟩).imp
      fun _ _ hxy => hxy.1 hxy.2
  induction e using PushedExpr.induction generalizing e' with
  | leaf q =>
    obtain ⟨op, hop, h⟩ := Option.bind_eq_some_iff.mp h
    exact Option.some.inj h ▸ leaf q op hop
  | and xs ih =>
    obtain ⟨ys, hys, h⟩ := Option.bind_eq_some_iff.mp h
    exact Option.some.inj h ▸ and xs ys (hlist ih hys)
  | or xs ih =>
    obtain ⟨ys, hys, h⟩ := Option.bind_eq_some_iff.mp h
    exact Option.some.inj h ▸ or xs ys (hlist ih hys)
  | not x => exact Option.some.inj h ▸ not x

/-- **Inversion negates**, NULLs included. -/
theorem invertPushed_sql (stored : ℕ → Option ArrowValue) {e e' : PushedExpr}
    (h : invertPushed e = some e') : e'.sql stored = (e.sql stored).not := by
  have hlist : ∀ {xs ys}, List.Forall₂ (fun x y => y.sql stored = (x.sql stored).not) xs ys →
      ys.map (PushedExpr.sql stored) = (xs.map (PushedExpr.sql stored)).map Truth.not := by
    intro xs ys hys
    induction hys with
    | nil => rfl
    | cons hxy _ ih => simp only [List.map_cons, hxy, ih]
  refine invertPushed_induction (P := fun e e' => e'.sql stored = (e.sql stored).not)
    (fun q op hop => ?_) (fun xs ys hys => ?_) (fun xs ys hys => ?_) (fun x => ?_) h
  · rw [PushedExpr.sql_leaf, PushedExpr.sql_leaf, PushedQual.sql_inverse hop]
  · rw [PushedExpr.sql_or, PushedExpr.sql_and, hlist hys, not_all]
  · rw [PushedExpr.sql_or, PushedExpr.sql_and, hlist hys, not_any]
  · rw [PushedExpr.sql_not, Truth.not_not]

/-- Inversion keeps the columns and the literals of the leaves. -/
theorem leaves_of_invertPushed {e e' : PushedExpr} (h : invertPushed e = some e') :
    ∀ q ∈ e.leaves, ∃ q' ∈ e'.leaves, q'.col = q.col ∧ q'.value = q.value := by
  let Keeps (qs qs' : List PushedQual) : Prop :=
    ∀ q ∈ qs, ∃ q' ∈ qs', q'.col = q.col ∧ q'.value = q.value
  have hlist : ∀ {xs ys : List PushedExpr}, List.Forall₂ (fun x y => Keeps x.leaves y.leaves) xs ys →
      Keeps (PushedExpr.leavesList xs) (PushedExpr.leavesList ys) := by
    intro xs ys hys q hq
    obtain ⟨x, hx, hq⟩ := PushedExpr.mem_leavesList.mp hq
    obtain ⟨y, hy, hxy⟩ := forall₂_exists_of_mem hys hx
    obtain ⟨q', hq', hsame⟩ := hxy q hq
    exact ⟨q', PushedExpr.mem_leavesList.mpr ⟨y, hy, hq'⟩, hsame⟩
  exact invertPushed_induction (P := fun e e' => Keeps e.leaves e'.leaves)
    (fun q op _ => by simp [Keeps, PushedExpr.leaves]) (fun _ _ => hlist) (fun _ _ => hlist)
    (fun x q hq => ⟨q, hq, rfl, rfl⟩) h

mutual

/-- The tree can be translated at the polarity `positive` (under an even number of
NOTs): where the polarity is negative, no AND loses a conjunct and there is no
`IS TRUE` or `IS FALSE`.  Operands that are given up do not matter. -/
def Node.Safe (positive : Bool) : Node → Prop
  | .relabelType arg => arg.Safe positive
  | .boolExpr .and args =>
    Node.SafeList positive args ∧ (positive = false → none ∉ walkNodes args)
  | .boolExpr .or args => Node.SafeList positive args
  | .boolExpr .not args => Node.SafeList (!positive) args
  | .booleanTest _ _ => positive = true
  | _ => True

/-- Every operand that is translated can be, at this polarity. -/
def Node.SafeList (positive : Bool) : List Node → Prop
  | [] => True
  | n :: ns => (walkNode n ≠ none → n.Safe positive) ∧ Node.SafeList positive ns

end

theorem Node.safeList_iff {positive : Bool} {ns : List Node} :
    Node.SafeList positive ns ↔ ∀ n ∈ ns, walkNode n ≠ none → n.Safe positive := by
  induction ns with
  | nil => simp [SafeList]
  | cons n ns ih => rw [SafeList, ih, List.forall_mem_cons]

section Soundness

variable {pg : PgSemantics} {ext : Externals} {stored : ℕ → Option ArrowValue} {row : PgRow}

/-- What the translation of an operand must keep: the truth value `b`. -/
def Node.Preserves (pg : PgSemantics) (ext : Externals) (stored : ℕ → Option ArrowValue) (row : PgRow)
    (b : Bool) (n : Node) : Prop :=
  ∀ p, walkNode n = some p → p.ReadsDelivered ext stored row → n.truth pg row = some b →
    p.sql stored = some b

/-- The translations of the operands keep `b` where all have it, and where one has it if none is
lost. -/
theorem children_preserve {args : List Node} {b : Bool}
    (hargs : ∀ n ∈ args, n.Preserves pg ext stored row b)
    (hreads : ∀ c ∈ (args.map walkNode).filterMap id, c.ReadsDelivered ext stored row) :
    ((∀ n ∈ args, n.truth pg row = some b) →
      ∀ c ∈ (args.map walkNode).filterMap id, c.sql stored = some b) ∧
    (none ∉ args.map walkNode → (∃ n ∈ args, n.truth pg row = some b) →
      ∃ c ∈ (args.map walkNode).filterMap id, c.sql stored = some b) := by
  have hchild : ∀ c, c ∈ (args.map walkNode).filterMap id ↔ ∃ n ∈ args, walkNode n = some c := by
    simp
  constructor
  · intro hall c hc
    obtain ⟨n, hn, hwalk⟩ := (hchild c).mp hc
    exact hargs n hn c hwalk (hreads c hc) (hall n hn)
  · rintro hlossless ⟨n, hn, hb⟩
    obtain ⟨c, hwalk⟩ : ∃ c, walkNode n = some c :=
      Option.ne_none_iff_exists'.mp fun h => hlossless (List.mem_map.mpr ⟨n, hn, h⟩)
    have hc := (hchild c).mpr ⟨n, hn, hwalk⟩
    exact ⟨c, hc, hargs n hn c hwalk (hreads c hc) hb⟩

/-- AND keeps truth; it keeps falsity when no conjunct is lost. -/
theorem combine_and_preserves {args : List Node} {b : Bool}
    (hargs : ∀ n ∈ args, n.Preserves pg ext stored row b)
    (hlossless : b = false → none ∉ args.map walkNode) :
    (Node.boolExpr .and args).Preserves pg ext stored row b := by
  intro p hp hreads hb
  rw [walkNode, walkNodes_eq_map] at hp
  obtain ⟨hsql, hsub⟩ := join_eq_some hp stored
  rw [Node.truth_and] at hb
  rw [hsql, if_neg Bool.false_ne_true]
  obtain ⟨hall, hsome⟩ := children_preserve hargs fun c hc q hq => hreads q (hsub c hc q hq)
  cases b with
  | true =>
    have hb := List.forall_mem_map.mp (all_eq_true.mp hb)
    exact all_eq_true.mpr (List.forall_mem_map.mpr (hall hb))
  | false =>
    have hb := List.mem_map.mp (all_eq_false.mp hb)
    exact all_eq_false.mpr (List.mem_map.mpr (hsome (hlossless rfl) hb))

/-- An OR is translated only when every operand is. -/
theorem none_notMem_of_length_filterMap {walked : List (Option PushedExpr)}
    (h : (walked.filterMap id).length = walked.length) : none ∉ walked := by
  intro hnone
  have : (walked.filterMap id).length < walked.length :=
    List.length_filterMap_lt_length_iff_exists.mpr ⟨none, hnone, rfl⟩
  omega

/-- OR keeps truth and falsity. -/
theorem combine_or_preserves {args : List Node} {b : Bool}
    (hargs : ∀ n ∈ args, n.Preserves pg ext stored row b) :
    (Node.boolExpr .or args).Preserves pg ext stored row b := by
  intro p hp hreads hb
  rw [walkNode, walkNodes_eq_map] at hp
  simp only [combine] at hp
  split at hp
  swap
  · cases hp
  have hwhole := none_notMem_of_length_filterMap ‹_›
  obtain ⟨hsql, hsub⟩ := join_eq_some hp stored
  rw [Node.truth_or] at hb
  rw [hsql, if_pos rfl]
  obtain ⟨hall, hsome⟩ := children_preserve hargs fun c hc q hq => hreads q (hsub c hc q hq)
  cases b with
  | true =>
    have hb := List.mem_map.mp (any_eq_true.mp hb)
    exact any_eq_true.mpr (List.mem_map.mpr (hsome hwhole hb))
  | false =>
    have hb := List.forall_mem_map.mp (any_eq_false.mp hb)
    exact any_eq_false.mpr (List.forall_mem_map.mpr (hall hb))

/-- NOT keeps the value that its operand keeps, negated. -/
theorem combine_not_preserves {args : List Node} {b : Bool}
    (hargs : ∀ n ∈ args, n.Preserves pg ext stored row (!b)) :
    (Node.boolExpr .not args).Preserves pg ext stored row b := by
  intro p hp hreads hb
  obtain ⟨n, rfl, hn⟩ := Node.truth_not_eq_some hb
  rw [walkNode, walkNodes_eq_map] at hp
  cases hwalk : walkNode n with
  | none => simp [combine, hwalk] at hp
  | some inner =>
    have hinvert : invertPushed inner = some p := by simpa [combine, hwalk] using hp
    rw [invertPushed_sql stored hinvert, Truth.not_eq_some]
    refine hargs n (List.mem_singleton_self n) inner hwalk (fun q hq => ?_) hn
    obtain ⟨q', hq', hcol, hvalue⟩ := leaves_of_invertPushed hinvert q hq
    exact hvalue ▸ hcol ▸ hreads q' hq'

/-- **The translation keeps the truth value `b` of every tree that is safe at the
polarity `b`.**  By induction over the tree: a NOT exchanges the polarities. -/
theorem walkNode_preserves {n : Node} {b : Bool} (hsafe : n.Safe b) : n.Preserves pg ext stored row b := by
  induction n using Node.induction generalizing b with
  | var ty attno coll =>
    intro p hp hreads hb
    rw [walkNode] at hp
    split at hp
    · cases hp
    split at hp
    · cases hp
    obtain rfl := Option.some.inj hp
    rw [Node.truth, Node.value, if_neg ‹_›] at hb
    rw [PushedExpr.sql_leaf, sql_boolean (hreads _ (List.mem_singleton_self _)).2 hb, beq_true]
  | const ty v => intro p hp; cases hp
  | relabelType arg ih =>
    intro p hp hreads hb
    rw [Node.Safe] at hsafe
    rw [walkNode] at hp
    exact ih hsafe p hp hreads (by rwa [Node.truth, Node.value] at hb)
  | opExpr opno args =>
    intro p hp hreads hb
    rw [walkNode] at hp
    exact walkOpExpr_preserves hp hreads hb
  | boolExpr op args ih =>
    have hargs : ∀ c, Node.SafeList c args → ∀ n ∈ args, n.Preserves pg ext stored row c := by
      intro c hc n hn p hp
      exact ih n hn (Node.safeList_iff.mp hc n hn (by rw [hp]; simp)) p hp
    cases op with
    | and =>
      rw [Node.Safe, walkNodes_eq_map] at hsafe
      exact combine_and_preserves (hargs b hsafe.1) hsafe.2
    | or =>
      rw [Node.Safe] at hsafe
      exact combine_or_preserves (hargs b hsafe)
    | not =>
      rw [Node.Safe] at hsafe
      exact combine_not_preserves (hargs _ hsafe)
  | nullTest arg kind =>
    intro p hp hreads hb
    rw [walkNode] at hp
    exact walkNullTest_preserves hp hreads hb
  | booleanTest arg kind =>
    intro p hp hreads hb
    rw [Node.Safe] at hsafe
    subst hsafe
    rw [walkNode] at hp
    exact walkBooleanTest_preserves hp hreads hb
  | scalarArrayOpExpr opno useOr args =>
    intro p hp hreads hb
    rw [walkNode] at hp
    exact walkScalarArrayOp_preserves hp hreads hb
  | other tag => intro p hp; cases hp

/-- **Soundness of the walker** on the trees where no AND that loses a conjunct and
no `IS TRUE` or `IS FALSE` stands under an odd number of NOTs: where the tree is
true on the row that the scan delivers, the pushed expression is true on the
stored values. -/
theorem walkNode_sound_of_safe (hrow : Delivered ext stored row) {n : Node} (hsafe : n.Safe true)
    {p : PushedExpr} (hp : walkNode n = some p) (hfloat : p.FloatFree)
    (htrue : n.truth pg row = some true) : p.sql stored = some true :=
  walkNode_preserves hsafe p hp (fun q hq => ⟨hfloat q hq, hrow q.col⟩) htrue

/-- **A lossy conjunction under a NOT is unsound wherever what is kept of it is
true**: if `c` is translated and `u` is not, `NOT (c AND u)` is translated to the
negation of `c` alone, which is false there, although the condition is true as
soon as `u` is false. -/
theorem not_lossy_and_unsound {c u : Node} {p : PushedExpr} (hc : walkNode c = some p)
    (hu : walkNode u = none) (hcu : u.truth pg row = some false)
    (htrue : p.sql stored = some true) {p' : PushedExpr}
    (hp' : walkNode (.boolExpr .not [.boolExpr .and [c, u]]) = some p') :
    (Node.boolExpr .not [.boolExpr .and [c, u]]).truth pg row = some true ∧
      p'.sql stored = some false := by
  have hand : walkNode (.boolExpr .and [c, u]) = some p := by
    simp [walkNode, walkNodes, combine, join, hc, hu]
  have hinvert : invertPushed p = some p' := by
    rw [walkNode, walkNodes_eq_map] at hp'
    simpa [combine, hand] using hp'
  refine ⟨?_, by rw [invertPushed_sql stored hinvert, htrue]; rfl⟩
  rw [Node.truth_not, Node.truth_and, Truth.not_eq_some]
  exact all_eq_false.mpr (by simp [hcu])

end Soundness

/-! ### On an executor -/

/-- An executor that has the operators of the table and prefix LIKE, and on which
every node that is not modelled is false. -/
def tableExecutor : PgSemantics where
  operator opno args :=
    match args with
    | [some a, some b] =>
      if opno = textLikeOpno then
        match a, b with
        | .text s, .text pat =>
          some (.bool (decide (utf8Bytes (String.ofList pat.toList.dropLast) <+: utf8Bytes s)))
        | _, _ => none
      else
        match lookupOp opno with
        | some (op, ty) => (Datum.compareAs ty a b).map (.bool <| op.holds ·)
        | none => none
    | _ => none
  unmodelled _ _ := some (.bool false)
  operator_compare := by
    intro opno op ty hop _ a b
    have hlike : opno ≠ textLikeOpno := by rintro rfl; cases hop
    simp [hlike, hop]
  operator_float := by
    intro opno op ty hop hfloat a b h
    have hlike : opno ≠ textLikeOpno := by rintro rfl; cases hop
    cases ty <;> cases hfloat <;> simp [hlike, hop, Datum.compareAs] at h
  operator_null := by
    rintro opno op ty hop a b (rfl | rfl)
    · rfl
    · cases a <;> rfl
  like_prefix := by
    intro s p _ _ _
    simp [textLikeOpno]
  like_text := by
    intro a b h
    rcases a with _ | a
    · exact absurd rfl h
    rcases b with _ | b
    · exact absurd rfl h
    cases a <;> first | exact ⟨_, rfl⟩ | exact absurd rfl h

/-- `x = 1`, for the `int4` column `x` that is the first attribute. -/
def xIsOne : Node := .opExpr 96 [.var int4Oid 1 0, .const int4Oid (some (.scalar (.int4 1)))]

/-- A file whose first column is `1`, and the tuple it is delivered as. -/
def storedOne : ℕ → Option ArrowValue := fun i => if i = 0 then some (.int32 1) else none

def rowOne : PgRow := fun i => if i = 0 then some (.int4 1) else none

theorem delivered_rowOne : Delivered .permissive storedOne rowOne := by
  intro i
  by_cases hi : i = 0
  · subst hi
    exact ⟨⟨.int32, [some (.int32 1)], by decide⟩, 0, int4Oid, rfl, rfl⟩
  · exact ⟨⟨.int32, [], by decide⟩, 0, int4Oid, by simp [storedOne, hi]; rfl,
      by simp [rowOne, hi]; rfl⟩

/-- `x = 1 AND u` is safe although `u` is lost: its translation holds on the row. -/
theorem xIsOne_and_other_sound : PushedExpr.sql storedOne (.leaf ⟨0, .eq, .i32 1⟩) = some true := by
  let pg : PgSemantics := { tableExecutor with unmodelled := fun _ _ => some (.bool true) }
  have hsafe : (Node.boolExpr .and [xIsOne, .other 0]).Safe true := by
    simp [Node.Safe, Node.SafeList, xIsOne]
  have htrue : (Node.boolExpr .and [xIsOne, .other 0]).truth pg rowOne = some true := rfl
  exact walkNode_sound_of_safe delivered_rowOne hsafe rfl (by simp [ScalarValueRepr.isFloat]) htrue

/-- **A row that satisfies the qual is filtered out.**  `NOT (x = 1 AND u)` with `u`
not translatable is pushed as `x <> 1`; on a row where `x` is `1` and `u` false it is
true, and the pushed expression false. -/
theorem not_xIsOne_and_other_unsound : Delivered .permissive storedOne rowOne ∧
    ∃ p, walkNode (.boolExpr .not [.boolExpr .and [xIsOne, .other 0]]) = some p ∧ p.FloatFree ∧
      (Node.boolExpr .not [.boolExpr .and [xIsOne, .other 0]]).truth tableExecutor rowOne =
        some true ∧ p.sql storedOne = some false :=
  ⟨delivered_rowOne, .leaf ⟨0, .ne, .i32 1⟩, rfl, by simp [ScalarValueRepr.isFloat], rfl, rfl⟩

/-- The other way to lose a row: `NOT (x IS TRUE)` is true where `x` is NULL, and
the leaf `x <> true` it is pushed as is unknown there. -/
example : ∃ p, walkNode (.boolExpr .not [.booleanTest (.var boolOid 1 0) .isTrue]) = some p ∧
    (Node.boolExpr .not [.booleanTest (.var boolOid 1 0) .isTrue]).truth tableExecutor
      (fun _ => none) = some true ∧ p.sql (fun _ => none) = none :=
  ⟨.leaf ⟨0, .ne, .bool true⟩, rfl, rfl, rfl⟩

end ParquetAzureFdw
