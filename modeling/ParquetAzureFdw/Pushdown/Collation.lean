/-
# Collations

A text comparison of Postgres is made under the collation of its column; the pushed
predicate compares bytes.  `walk_op_expr` pushes a comparison or a LIKE when the
column's collation is the database default, C or none (`var_collation_ok`);
`walk_scalar_array_op` pushes an IN list without looking at it.

The default collation may be any order.  What is pushed for a column is true wherever
the qual is true exactly when the collation is the order of bytes, if the check lets it
pass, and when it makes no two different strings equal, if it does not
(`text_quals_respect_collation_iff`).
-/

import ParquetAzureFdw.Pushdown.RowFilter
import ParquetAzureFdw.Pushdown.Walk

namespace ParquetAzureFdw

open ThreeValued

/-- What a collation makes of strings: a total preorder. -/
structure Collation where
  cmp : String → String → Ordering
  trans : Std.TransCmp cmp

/-- The collation C. -/
def Collation.bytewise : Collation := ⟨compareOn utf8Bytes, inferInstance⟩

/-! ### Text quals under a collation -/

/-- The string of an operand: a column's, or a literal. -/
def textOperand (row : ℕ → Option String) (n : Node) : Option String :=
  match peelRelabel n with
  | .var _ varattno _ => if varattno < 1 then none else row (varattno - 1).toNat
  | .const _ (some (.scalar (.text s))) => some s
  | _ => none

/-- The collation of a column. -/
def varCollation (n : Node) : Option Oid :=
  match peelRelabel n with
  | .var _ _ coll => some coll
  | _ => none

/-- The collation of the column of a qual. -/
def Node.collation : Node → Option Oid
  | .opExpr _ [lhs, rhs] => (varCollation lhs).or (varCollation rhs)
  | .scalarArrayOpExpr _ _ [lhs, _] => varCollation lhs
  | _ => none

/-- LIKE with a literal prefix: a beginning of the string is equal to the prefix. -/
def Collation.like (c : Collation) (s pattern : String) : Truth := do
  let literal ← likePrefixLiteral pattern
  return s.toList.inits.any fun initial => c.cmp (String.ofList initial) literal == .eq

/-- One test of an IN or a NOT IN list. -/
def Collation.test (c : Collation) (op : PushedOp) (s : Option String) (e : Option Datum) : Truth :=
  match s, e with
  | some s, some (.text t) => some (op.holds (c.cmp s t))
  | _, _ => none

/-- The truth of a text qual on a row of strings, under a collation.  Other quals have none. -/
def Node.collatedTruth (c : Collation) (row : ℕ → Option String) : Node → Truth
  | .opExpr opno [lhs, rhs] => do
    let a ← textOperand row lhs
    let b ← textOperand row rhs
    if opno = textLikeOpno then c.like a b
    else
      match lookupOp opno with
      | some (op, .utf8) => some (op.holds (c.cmp a b))
      | _ => none
  | .scalarArrayOpExpr opno useOr [lhs, .const _ (some (.array _ elems))] =>
    match lookupOp opno with
    | some (op, .utf8) =>
      let tests := elems.map (c.test op (textOperand row lhs))
      if useOr then any tests else all tests
    | _ => none
  | _ => none

/-- The stored values of a row of strings. -/
def storedStrings (row : ℕ → Option String) (i : ℕ) : Option ArrowValue := (row i).map .utf8

/-- Whether what is pushed for the columns of a collation is true wherever the qual is. -/
def RespectsCollation (coll : Oid) (c : Collation) : Prop :=
  ∀ n e row, n.collation = some coll → walkNode n = some e →
    n.collatedTruth c row = some true → e.strictEval (storedStrings row) = some true

/-- Whether `var_collation_ok` lets a collation pass. -/
def collationPasses (coll : Oid) : Bool :=
  coll == defaultCollationOid || coll == cCollationOid || coll == 0

/-! ### Columns and literals -/

section Operands

variable {row : ℕ → Option String} {n : Node}

theorem textOperand_of_tryVar (row : ℕ → Option String) {col : ℕ} (h : tryVar n = some col) :
    textOperand row n = row col ∧ ∃ coll, varCollation n = some coll ∧
      varCollationOk n = collationPasses coll := by
  unfold tryVar at h
  unfold textOperand varCollation varCollationOk
  split at h
  · rename_i varattno coll heq
    split_ifs at h with hattno
    obtain rfl := Option.some.inj h
    rw [heq]
    simp [hattno, collationPasses]
  · cases h

/-- A text is lowered to itself. -/
theorem lowerDatum_text {ty : Oid} {t : String} {lit : ScalarValueRepr}
    (h : lowerDatum ty (.text t) = some lit) : lit = .utf8 t ∧ (ty = textOid ∨ ty = varcharOid) := by
  unfold lowerDatum at h
  split at h
  case h_9 => cases h
  all_goals rename_i heq; cases heq
  · exact ⟨(Option.some.inj h).symm, .inl rfl⟩
  · exact ⟨(Option.some.inj h).symm, .inr rfl⟩

theorem textOperand_of_tryConst {lit : ScalarValueRepr} {t : String} (h : tryConst n = some lit)
    (ht : textOperand row n = some t) : lit = .utf8 t ∧ varCollation n = none := by
  unfold tryConst at h
  unfold textOperand at ht
  unfold varCollation
  split at h
  · rename_i ty d heq
    rw [heq] at ht ⊢
    cases d <;> cases ht
    exact ⟨(lowerDatum_text h).1, rfl⟩
  · cases h

theorem textOperand_of_constTextArg (row : ℕ → Option String) {t : String} (h : constTextArg n = some t) :
    textOperand row n = some t := by
  unfold constTextArg at h
  unfold textOperand
  split at h
  · rename_i ty t' heq
    split_ifs at h
    rw [heq]
    exact h
  · cases h

end Operands

/-! ### What is pushed -/

section Pushed

variable {row : ℕ → Option String} {col : ℕ} {s : String}

/-- A comparison of a column with a string literal. -/
structure TextLeaf (col : ℕ) (q : PushedQual) : Prop where
  col_eq : q.col = col
  isComparison : q.op.isComparison = true
  literal : ∃ t, q.value = .utf8 t

theorem sql_textLeaf (hs : row col = some s) {op : PushedOp} (hop : op.isComparison = true)
    (t : String) : (PushedExpr.leaf ⟨col, op, .utf8 t⟩).sql (storedStrings row) =
      some (op.holds (compare (utf8Bytes s) (utf8Bytes t))) := by
  rw [PushedExpr.sql_leaf, storedStrings, hs]
  exact PushedQual.sql_comparison hop rfl rfl

/-- On a string the mask says what SQL says: no leaf reads a NULL. -/
theorem strictEval_eq_sql {e : PushedExpr} (hleaves : ∀ q ∈ e.leaves, TextLeaf col q)
    (hs : row col = some s) : e.strictEval (storedStrings row) = e.sql (storedStrings row) := by
  have hfloat : ∀ q ∈ e.leaves, q.value.isFloat = false := by
    intro q hq
    obtain ⟨t, ht⟩ := (hleaves q hq).literal
    rw [ht]
    rfl
  have hknown : ∀ q ∈ e.leaves, q.kernelTruth (storedStrings row q.col) = none ↔
      q.op.isComparison = true ∧ storedStrings row q.col = none := by
    intro q hq
    obtain ⟨hcol, hop, t, ht⟩ := hleaves q hq
    have hstored : storedStrings row q.col = some (.utf8 s) := by
      rw [hcol, storedStrings, hs]
      rfl
    have hsql : q.sql (some (.utf8 s)) = some (q.op.holds (compare (utf8Bytes s) (utf8Bytes t))) :=
      PushedQual.sql_comparison hop (by rw [ht]; rfl) rfl
    rw [hstored, PushedQual.kernelTruth_eq_sql (hfloat q hq), hsql]
    simp
  have hne : e.strictEval (storedStrings row) ≠ none := by
    rw [Ne, PushedExpr.strictEval_eq_none hknown]
    rintro ⟨q, hq, -, hnull⟩
    rw [(hleaves q hq).col_eq, storedStrings, hs] at hnull
    cases hnull
  obtain ⟨b, hb⟩ := Option.ne_none_iff_exists'.mp hne
  rw [hb, PushedExpr.sql_of_strictEval hfloat hb]

theorem strictEval_textLeaf (hs : row col = some s) {op : PushedOp} (hop : op.isComparison = true)
    (t : String) : (PushedExpr.leaf ⟨col, op, .utf8 t⟩).strictEval (storedStrings row) =
      some (op.holds (compare (utf8Bytes s) (utf8Bytes t))) := by
  rw [← sql_textLeaf hs hop]
  refine strictEval_eq_sql (fun q hq => ?_) hs
  simp only [PushedExpr.leaves, List.mem_singleton] at hq
  subst hq
  exact ⟨rfl, hop, t, rfl⟩

variable {c : Collation} {coll : Oid}

/-- What holds of the collation of a column so that its text quals are kept: it makes no two
strings equal, and if the check lets it pass it is the order of bytes. -/
structure CollationSafe (coll : Oid) (c : Collation) : Prop where
  deterministic : ∀ a b, c.cmp a b = .eq → a = b
  bytewise : collationPasses coll = true → ∀ a b, c.cmp a b = compare (utf8Bytes a) (utf8Bytes b)

/-- A true LIKE with a literal prefix: the string begins with it. -/
theorem Collation.like_eq_true (hdet : ∀ a b, c.cmp a b = .eq → a = b) {pattern literal : String}
    (hliteral : likePrefixLiteral pattern = some literal) (h : c.like s pattern = some true) :
    utf8Bytes literal <+: utf8Bytes s := by
  rw [Collation.like, hliteral] at h
  obtain ⟨initial, hinitial, heq⟩ := List.any_eq_true.mp (Option.some.inj h)
  obtain ⟨rest, hrest⟩ := (List.mem_inits _ _).mp hinitial
  obtain rfl : String.ofList initial = literal := hdet _ _ (eq_of_beq heq)
  have hs : s = String.ofList initial ++ String.ofList rest := by
    rw [← String.toList_inj, String.toList_append, String.toList_ofList, String.toList_ofList, hrest]
  rw [hs]
  exact ⟨utf8Bytes (String.ofList rest), by simp [utf8Bytes]⟩

/-- What an operator of the table says of two strings. -/
theorem collatedTruth_operator {opno : Oid} {lhs rhs : Node} {op : PushedOp} {ty : DataType}
    (hop : lookupOp opno = some (op, ty))
    (h : (Node.opExpr opno [lhs, rhs]).collatedTruth c row = some true) :
    ∃ a b, textOperand row lhs = some a ∧ textOperand row rhs = some b ∧
      op.holds (c.cmp a b) = true := by
  rw [Node.collatedTruth] at h
  obtain ⟨a, ha, h⟩ := Option.bind_eq_some_iff.mp h
  obtain ⟨b, hb, h⟩ := Option.bind_eq_some_iff.mp h
  have hlike : opno ≠ textLikeOpno := by
    rintro rfl
    cases hop
  rw [if_neg hlike, hop] at h
  refine ⟨a, b, ha, hb, ?_⟩
  cases ty with
  | utf8 => exact Option.some.inj h
  | _ => cases h

/-- `walk_op_expr` keeps what is true under a safe collation. -/
theorem walkOpExpr_collated (hsafe : CollationSafe coll c) {opno : Oid} {args : List Node}
    {e : PushedExpr} (hcoll : (Node.opExpr opno args).collation = some coll)
    (hwalk : walkOpExpr opno args = some e)
    (htrue : (Node.opExpr opno args).collatedTruth c row = some true) :
    e.strictEval (storedStrings row) = some true := by
  obtain ⟨lhs, rhs, rfl, hwalked⟩ := walkOpExpr_eq_some hwalk
  rw [Node.collation] at hcoll
  cases hwalked with
  | @like col _ literal bound hopno hcol _ hpattern hliteral hbound =>
    rw [Node.collatedTruth, (textOperand_of_tryVar row hcol).1,
      textOperand_of_constTextArg row hpattern] at htrue
    obtain ⟨s, hs, htrue⟩ := Option.bind_eq_some_iff.mp htrue
    rw [Option.bind_eq_bind, Option.bind_some, if_pos hopno] at htrue
    have hbegins := Collation.like_eq_true hsafe.deterministic hliteral htrue
    have hstored : storedStrings row col = some (.utf8 s) := by
      rw [storedStrings, hs]
      rfl
    rw [strictEval_eq_sql (fun q hq => ?_) hs, sql_prefixRange hstored hbound, decide_eq_true hbegins]
    simp only [PushedExpr.leaves, PushedExpr.leavesList, List.append_nil, List.cons_append,
      List.nil_append, List.mem_cons, List.not_mem_nil, or_false] at hq
    rcases hq with rfl | rfl
    · exact ⟨rfl, rfl, _, rfl⟩
    · exact ⟨rfl, rfl, _, rfl⟩
  | @compare op ty col lit hop hcol hlit hok =>
    obtain ⟨s, t, hs, ht, hholds⟩ := collatedTruth_operator hop htrue
    obtain ⟨hvar, coll', hcoll', hpasses⟩ := textOperand_of_tryVar row hcol
    obtain ⟨rfl, -⟩ := textOperand_of_tryConst hlit ht
    rw [hcoll', Option.some_or] at hcoll
    obtain rfl := Option.some.inj hcoll
    have hcomparison := lookupOp_isComparison hop
    rw [strictEval_textLeaf (hvar ▸ hs) hcomparison, ← hsafe.bytewise (hpasses ▸ hok), hholds]
  | @flipped op ty col lit hop hlit hcol hok =>
    obtain ⟨t, s, ht, hs, hholds⟩ := collatedTruth_operator hop htrue
    obtain ⟨hvar, coll', hcoll', hpasses⟩ := textOperand_of_tryVar row hcol
    obtain ⟨rfl, hnone⟩ := textOperand_of_tryConst hlit ht
    rw [hnone, hcoll', Option.none_or] at hcoll
    obtain rfl := Option.some.inj hcoll
    have hcomparison := lookupOp_isComparison hop
    rw [strictEval_textLeaf (hvar ▸ hs) (PushedOp.flipped_isComparison hcomparison),
      Std.OrientedOrd.eq_swap, PushedOp.flipped_holds hcomparison, ← hsafe.bytewise (hpasses ▸ hok),
      hholds]

/-- An array with a string in it has strings only, and they are lowered to themselves. -/
theorem mapM_lowerDatum_text {elemtype : Oid} {elems : List (Option Datum)}
    {scalars : List ScalarValueRepr}
    (h : elems.mapM (fun e => e.bind (lowerDatum elemtype)) = some scalars) {t : String}
    (ht : some (.text t) ∈ elems) :
    ∃ ts : List String, elems = ts.map (fun t => some (.text t)) ∧ scalars = ts.map .utf8 := by
  have hall := mapM_eq_some_iff.mp h
  have htype : elemtype = textOid ∨ elemtype = varcharOid := by
    obtain ⟨i, hi⟩ := List.getElem?_of_mem ht
    obtain ⟨lit, -, hlit⟩ := forall₂_getElem? hall hi
    exact (lowerDatum_text hlit).2
  have htext : ∀ d v, lowerDatum elemtype d = some v → ∃ t, d = .text t ∧ v = .utf8 t := by
    intro d v hv
    rcases htype with rfl | rfl <;> cases d <;> cases hv <;> exact ⟨_, rfl, rfl⟩
  clear h ht
  induction hall with
  | nil => exact ⟨[], rfl, rfl⟩
  | cons he _ ih =>
    obtain ⟨d, rfl, hd⟩ := Option.bind_eq_some_iff.mp he
    obtain ⟨t', rfl, rfl⟩ := htext d _ hd
    obtain ⟨ts, rfl, rfl⟩ := ih
    exact ⟨t' :: ts, rfl, rfl⟩

/-- The leaves of joined children are theirs. -/
theorem join_leaves {isOr : Bool} {children : List PushedExpr} {p : PushedExpr}
    (h : join isOr children = some p) {q : PushedQual} (hq : q ∈ p.leaves) :
    ∃ child ∈ children, q ∈ child.leaves := by
  unfold join at h
  split at h
  · cases h
  · obtain rfl := Option.some.inj h
    exact ⟨_, List.mem_singleton_self _, hq⟩
  · obtain rfl := Option.some.inj h
    cases isOr <;> exact PushedExpr.mem_leavesList.mp hq

/-- A true test of a list is one of two strings. -/
theorem Collation.test_eq_true {op : PushedOp} {s : Option String} {e : Option Datum}
    (h : c.test op s e = some true) :
    ∃ a t, s = some a ∧ e = some (.text t) ∧ op.holds (c.cmp a t) = true := by
  unfold Collation.test at h
  split at h
  · exact ⟨_, _, rfl, rfl, Option.some.inj h⟩
  · cases h

/-- The tests of a list are equalities, or inequalities: both keep what they say when they are
made on bytes, if the collation makes no two strings equal. -/
theorem holds_bytes_of_holds (hdet : ∀ a b, c.cmp a b = .eq → a = b) (useOr : Bool) {op : PushedOp}
    (hop : op = if useOr then .eq else .ne) {a t : String} (h : op.holds (c.cmp a t) = true) :
    op.holds (compare (utf8Bytes a) (utf8Bytes t)) = true := by
  have := c.trans
  cases useOr with
  | true =>
    subst hop
    obtain rfl := hdet a t (eq_of_beq h)
    simp [PushedOp.holds]
  | false =>
    subst hop
    have hne : a ≠ t := by
      rintro rfl
      have hself : c.cmp a a = .eq := Std.ReflCmp.compare_self
      rw [hself] at h
      cases h
    have hbytes : utf8Bytes a ≠ utf8Bytes t := fun heq => hne (utf8Bytes_injective heq)
    simpa [PushedOp.holds] using hbytes

/-- Where the tests of an array are true together one of them is, so there is a string among the
elements, and one in the row. -/
theorem exists_text_of_tests {op : PushedOp} {value : Option String} {useOr : Bool}
    {elems : List (Option Datum)} (hne : elems ≠ [])
    (h : (if useOr then any else all) (elems.map (c.test op value)) = some true) :
    ∃ a t, value = some a ∧ some (.text t) ∈ elems := by
  obtain ⟨e, he, htest⟩ : ∃ e ∈ elems, c.test op value e = some true := by
    cases useOr with
    | true =>
      obtain ⟨e, he, htest⟩ := List.mem_map.mp (any_eq_true.mp h)
      exact ⟨e, he, htest⟩
    | false =>
      obtain ⟨e, elems, rfl⟩ := List.exists_cons_of_ne_nil hne
      exact ⟨e, List.mem_cons_self, all_eq_true.mp h _ (by simp)⟩
  obtain ⟨a, t, hs, rfl, -⟩ := Collation.test_eq_true htest
  exact ⟨a, t, hs, he⟩

/-- `walk_scalar_array_op` keeps what is true under a collation that makes no two strings equal. -/
theorem walkScalarArrayOp_collated (hsafe : CollationSafe coll c) {opno : Oid} {useOr : Bool}
    {args : List Node} {e : PushedExpr} (hwalk : walkScalarArrayOp opno useOr args = some e)
    (htrue : (Node.scalarArrayOpExpr opno useOr args).collatedTruth c row = some true) :
    e.strictEval (storedStrings row) = some true := by
  obtain ⟨op, ty, varNode, constty, elemtype, elems, col, scalars, hop, hkind, rfl, hcol, hscalars,
    hjoin⟩ := walkScalarArrayOp_eq_some hwalk
  have htests : (if useOr then any else all) (elems.map (c.test op (row col))) = some true := by
    rw [Node.collatedTruth, hop, (textOperand_of_tryVar row hcol).1] at htrue
    cases ty with
    | utf8 => cases useOr <;> exact htrue
    | _ => cases htrue
  have hne : elems ≠ [] := by
    rintro rfl
    obtain rfl : scalars = [] := by simpa using hscalars.symm
    cases hjoin
  obtain ⟨a, t, hs, ht⟩ := exists_text_of_tests hne htests
  obtain ⟨ts, rfl, rfl⟩ := mapM_lowerDatum_text hscalars ht
  have hcomparison := lookupOp_isComparison hop
  rw [strictEval_eq_sql (fun q hq => ?_) hs]
  · have hleaf : ∀ t', c.test op (some a) (some (.text t')) = some true →
        (PushedExpr.leaf ⟨col, op, .utf8 t'⟩).sql (storedStrings row) = some true := by
      intro t' htest
      have hholds : op.holds (c.cmp a t') = true := Option.some.inj htest
      rw [sql_textLeaf hs hcomparison]
      exact congrArg some (holds_bytes_of_holds hsafe.deterministic useOr hkind hholds)
    rw [(join_eq_some hjoin _).1]
    rw [hs] at htests
    have hforall : List.Forall₂ (fun x y => x = some true → y = some true)
        ((ts.map fun t => some (.text t)).map (c.test op (some a)))
        (((ts.map ScalarValueRepr.utf8).map fun v => PushedExpr.leaf ⟨col, op, v⟩).map
          (PushedExpr.sql (storedStrings row))) := by
      simp only [List.map_map, List.forall₂_map_left_iff, List.forall₂_map_right_iff,
        List.forall₂_same, Function.comp_apply]
      exact fun t' _ => hleaf t'
    cases useOr with
    | true => exact any_of_forall₂ hforall htests
    | false => exact all_of_forall₂ hforall htests
  · obtain ⟨child, hchild, hq⟩ := join_leaves hjoin hq
    simp only [List.map_map, List.mem_map, Function.comp_apply] at hchild
    obtain ⟨t', -, rfl⟩ := hchild
    simp only [PushedExpr.leaves, List.mem_singleton] at hq
    subst hq
    exact ⟨rfl, hcomparison, t', rfl⟩

end Pushed

/-! ### The condition -/

section Condition

variable {coll : Oid} {c : Collation}

theorem RespectsCollation.of_collationSafe (hsafe : CollationSafe coll c) :
    RespectsCollation coll c := by
  intro n e row hcoll hwalk htrue
  cases n with
  | opExpr opno args => exact walkOpExpr_collated hsafe hcoll hwalk htrue
  | scalarArrayOpExpr opno useOr args => exact walkScalarArrayOp_collated hsafe hwalk htrue
  | _ => cases hcoll

/-- `TEXTARRAYOID`. -/
def textArrayOid : Oid := 1009

/-- The column `name` of a collation. -/
def nameColumn (coll : Oid) : Node := .var textOid 1 coll

/-- A comparison that is pushed says on bytes what it says under the collation. -/
theorem RespectsCollation.holds_bytes (h : RespectsCollation coll c)
    (hpasses : collationPasses coll = true) {opno : Oid} {op : PushedOp}
    (hop : lookupOp opno = some (op, .utf8)) (a b : String) (hholds : op.holds (c.cmp a b) = true) :
    op.holds (compare (utf8Bytes a) (utf8Bytes b)) = true := by
  have hlike : opno ≠ textLikeOpno := by
    rintro rfl
    cases hop
  have hwalk : walkNode (.opExpr opno [nameColumn coll, .const textOid (some (.scalar (.text b)))]) =
      some (.leaf ⟨0, op, .utf8 b⟩) := by
    have hok : varCollationOk (nameColumn coll) = true := hpasses
    rw [walkNode, walkOpExpr, if_neg hlike, hop]
    exact if_pos hok
  have htrue := h _ _ (fun _ => some a) rfl hwalk (by
    rw [Node.collatedTruth, hop, ← hholds]
    exact if_neg hlike)
  rw [strictEval_textLeaf rfl (lookupOp_isComparison hop)] at htrue
  exact Option.some.inj htrue

/-- An IN list of one string is pushed, whatever the collation. -/
theorem RespectsCollation.deterministic (h : RespectsCollation coll c) {a b : String}
    (heq : c.cmp a b = .eq) : a = b := by
  have htrue := h (.scalarArrayOpExpr 98 true
    [nameColumn coll, .const textArrayOid (some (.array textOid [some (.text b)]))]) _
    (fun _ => some a) rfl rfl (by
      have htest : c.test .eq (some a) (some (.text b)) = some true := by
        rw [Collation.test, heq]
        rfl
      exact congrArg (fun t => any [t]) htest)
  rw [strictEval_textLeaf rfl rfl] at htrue
  exact utf8Bytes_injective (Std.LawfulEqOrd.eq_of_compare (eq_of_beq (Option.some.inj htrue)))

/-- **Pushed text quals respect a collation exactly when it makes no two strings equal and, if
the check lets it pass, is the order of bytes.** -/
theorem text_quals_respect_collation_iff (coll : Oid) (c : Collation) :
    RespectsCollation coll c ↔ (∀ a b, c.cmp a b = .eq → a = b) ∧
      (collationPasses coll = true → ∀ a b, c.cmp a b = compare (utf8Bytes a) (utf8Bytes b)) := by
  constructor
  · intro h
    constructor
    · exact fun a b => h.deterministic
    · intro hpasses a b
      -- each of the three outcomes is that of an operator
      have hlt := h.holds_bytes hpasses (show lookupOp 664 = some (.lt, .utf8) from rfl) a b
      have heq := h.holds_bytes hpasses (show lookupOp 98 = some (.eq, .utf8) from rfl) a b
      have hgt := h.holds_bytes hpasses (show lookupOp 666 = some (.gt, .utf8) from rfl) a b
      cases hcmp : c.cmp a b with
      | lt => exact (eq_of_beq (hlt (by rw [hcmp]; rfl))).symm
      | eq => exact (eq_of_beq (heq (by rw [hcmp]; rfl))).symm
      | gt => exact (eq_of_beq (hgt (by rw [hcmp]; rfl))).symm
  · rintro ⟨hdet, hbytes⟩
    exact .of_collationSafe ⟨hdet, hbytes⟩

end Condition

/-- A collation that orders small letters with the capital ones, and breaks ties by bytes. -/
def Collation.dictionary : Collation :=
  ⟨compareLex (compareOn fun s => utf8Bytes s.toLower) (compareOn utf8Bytes), inferInstance⟩

/-- With it as the database default, `name < 'B'` is true of `'a'`, and what is pushed is not. -/
theorem dictionary_order_not_respected : ¬ RespectsCollation defaultCollationOid .dictionary := by
  intro h
  have htrue := h (.opExpr 664 [nameColumn defaultCollationOid,
    .const textOid (some (.scalar (.text "B")))]) (.leaf ⟨0, .lt, .utf8 "B"⟩) (fun _ => some "a")
    rfl rfl (by decide +kernel)
  revert htrue
  decide

end ParquetAzureFdw
