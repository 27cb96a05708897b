/-
# Partition pruning

`src/fdw/partition.rs`: the quals on partition columns are evaluated against the
values in a blob's path, and a blob on which one of them is false is not opened.
The evaluation compares texts: the value as the path spells it, and the literal as
it is rendered.  The rows of the blob carry the value cast to its declared type.

Trees are evaluated from left to right, up to the child that decides: `Reached` says which leaves
the evaluation comes to.  An equality that is true of the cast values is true of the texts exactly
when the path spells its integers and dates as literals are rendered
(`equality_quals_keep_blob_iff`).  The order of two integers is kept; that of two texts
is not when both read as numbers, and that of dates is that of their texts
(`order_qual_keeps_blob_iff`).
-/

import ParquetAzureFdw.Relation
import ParquetAzureFdw.Scan.State

namespace ParquetAzureFdw

open ThreeValued

section Evaluate

/- `NaiveDate` arithmetic and formatting: the date so many days after 1970-01-01 as
`%Y-%m-%d`, when it can be represented. -/
variable (formatUnixDays : Int32 → Option String)

/-- The text of a literal; `none` when the type is not supported.  The addition of days to a
date panics beyond the range of `NaiveDate`. -/
def partitionLiteral : ScalarValueRepr → Outcome (Option String)
  | .i32 v => .ok (some (toString v.toInt))
  | .i16 v => .ok (some (toString v.toInt))
  | .i64 v => .ok (some (toString v.toInt))
  | .utf8 s => .ok (some s)
  | .date32 d =>
    match formatUnixDays d with
    | some text => .ok (some text)
    | none => .error (.panic "`NaiveDate + TimeDelta` overflowed")
  | _ => .ok none

/-- The order of a value and a literal: as numbers when both read as `i64`, as texts otherwise. -/
def partitionTextOrder (raw lit : String) : Ordering :=
  match parseSigned 64 raw, parseSigned 64 lit with
  | some r, some l => compare r l
  | _, _ => compare (utf8Bytes raw) (utf8Bytes lit)

/-- The decision of `eval_partition_leaf` on the two texts. -/
def comparePartitionText (op : PushedOp) (raw lit : String) : Bool :=
  match op with
  | .eq => raw == lit
  | .ne => raw != lit
  | .lt | .le | .gt | .ge => op.holds (partitionTextOrder raw lit)
  | .isNull => false
  | .isNotNull => true

variable (partitionAttnums : List ℕ) (parsed : List (String × String))
  (declared : List (String × PgPartitionType))

/-- `eval_partition_leaf`. -/
def evalPartitionLeaf (q : PushedQual) : Outcome Bool :=
  match partitionAttnums.findIdx? (· == q.col) with
  | none => .ok true
  | some pos =>
    match declared[pos]? with
    | none => .error (.panic "index out of bounds")
    | some (name, _) =>
      match parsed.lookup name with
      | none => .ok true
      | some raw => do
        match ← partitionLiteral formatUnixDays q.value with
        | none => return true
        | some lit => return comparePartitionText q.op raw lit

mutual

/-- `eval_one_partition_expr`. -/
def evalOnePartitionExpr : PushedExpr → Outcome Bool
  | .leaf q => evalPartitionLeaf formatUnixDays partitionAttnums parsed declared q
  | .and xs => evalAllPartitionExprs xs
  | .or xs => evalAnyPartitionExpr xs
  | .not x => do return !(← evalOnePartitionExpr x)

/-- `all` over the children: the first that is false decides. -/
def evalAllPartitionExprs : List PushedExpr → Outcome Bool
  | [] => .ok true
  | x :: xs => do
    if ← evalOnePartitionExpr x then evalAllPartitionExprs xs else return false

/-- `any` over the children: the first that is true decides. -/
def evalAnyPartitionExpr : List PushedExpr → Outcome Bool
  | [] => .ok false
  | x :: xs => do
    if ← evalOnePartitionExpr x then return true else evalAnyPartitionExpr xs

end

/-- `evaluate_partition_quals_against_blob`. -/
def evaluatePartitionQualsAgainstBlob (exprs : List PushedExpr) : Outcome Bool :=
  evalAllPartitionExprs formatUnixDays partitionAttnums parsed declared exprs

end Evaluate

/-! ### The cast values -/

/-- The number of a literal of an integer type. -/
def ScalarValueRepr.int? : ScalarValueRepr → Option ℤ
  | .i16 v => some v.toInt
  | .i32 v => some v.toInt
  | .i64 v => some v.toInt
  | _ => none

/-- The order of a partition value and a literal in the type of the column: integers as
numbers, texts bytewise, dates by day (a datum counts from 2000-01-01, a literal from
1970-01-01). -/
def Datum.compareLiteral : Datum → ScalarValueRepr → Option Ordering
  | .text a, .utf8 b => some (compare (utf8Bytes a) (utf8Bytes b))
  | .date a, .date32 b => some (compare (a.toInt + 10957) b.toInt)
  | d, lit => do
    let a ← d.int?
    let b ← lit.int?
    return compare a b

/-- What is compared: texts, dates or numbers. -/
theorem Datum.compareLiteral_cases {d : Datum} {lit : ScalarValueRepr} {o : Ordering}
    (h : d.compareLiteral lit = some o) :
    (∃ a b, d = .text a ∧ lit = .utf8 b ∧ compare (utf8Bytes a) (utf8Bytes b) = o) ∨
      (∃ a b, d = .date a ∧ lit = .date32 b ∧ compare (a.toInt + 10957) b.toInt = o) ∨
      ∃ a b, d.int? = some a ∧ lit.int? = some b ∧ compare a b = o := by
  unfold compareLiteral at h
  split at h
  · exact .inl ⟨_, _, rfl, rfl, Option.some.inj h⟩
  · exact .inr (.inl ⟨_, _, rfl, rfl, Option.some.inj h⟩)
  · obtain ⟨a, ha, h⟩ := Option.bind_eq_some_iff.mp h
    obtain ⟨b, hb, h⟩ := Option.bind_eq_some_iff.mp h
    exact .inr (.inr ⟨a, b, ha, hb, Option.some.inj h⟩)

/-- The meaning of a leaf on a row of the relation. -/
def partitionSql (row : List (Option Datum)) (q : PushedQual) : Truth :=
  let v := row.getD q.col none
  match q.op with
  | .isNull => some v.isNone
  | .isNotNull => some v.isSome
  | op => do
    let d ← v
    let o ← d.compareLiteral q.value
    return op.holds o

theorem partitionSql_eq_iff {row : List (Option Datum)} {col : ℕ} {d : Datum}
    (hrow : row.getD col none = some d) (lit : ScalarValueRepr) :
    partitionSql row ⟨col, .eq, lit⟩ = some true ↔ d.compareLiteral lit = some .eq := by
  simp only [partitionSql, hrow]
  cases hcmp : d.compareLiteral lit with
  | none => simp [hcmp]
  | some o => cases o <;> simp [hcmp, PushedOp.holds]

/-- A text that casts to an integer reads as that number. -/
theorem parseSigned_of_parseTextToDatum {ext : Externals} {ty : PgPartitionType} {raw : String}
    {d : Datum} {v : ℤ} (h : parseTextToDatum ext ty raw = .ok d) (hd : d.int? = some v) :
    parseSigned 64 raw = some v := by
  obtain ⟨-, bits, hbits, hv⟩ := parseTextToDatum_int_iff.mp ⟨d, h, hd⟩
  refine parseSigned_mono ?_ hv
  cases ty <;> simp [PgPartitionType.bits] at hbits <;> omega

/-- The text of an integer literal reads as its number. -/
theorem partitionLiteral_int (formatUnixDays : Int32 → Option String) {lit : ScalarValueRepr}
    {v : ℤ} (h : lit.int? = some v) :
    partitionLiteral formatUnixDays lit = .ok (some (toString v)) ∧
      parseSigned 64 (toString v) = some v := by
  cases lit with
  | i16 w =>
    obtain rfl := Option.some.inj h
    have hlow := w.le_toInt
    have hhigh := w.toInt_lt
    exact ⟨rfl, parseSigned_toString (by omega) (by omega)⟩
  | i32 w =>
    obtain rfl := Option.some.inj h
    have hlow := w.le_toInt
    have hhigh := w.toInt_lt
    exact ⟨rfl, parseSigned_toString (by omega) (by omega)⟩
  | i64 w =>
    obtain rfl := Option.some.inj h
    exact ⟨rfl, parseSigned_toString w.le_toInt w.toInt_lt⟩
  | _ => cases h

theorem partitionLiteral_date {formatUnixDays : Int32 → Option String} {u : Int32} {text : String} :
    partitionLiteral formatUnixDays (.date32 u) = .ok (some text) ↔ formatUnixDays u = some text := by
  rw [partitionLiteral]
  cases formatUnixDays u <;> simp

/-! ### Order -/

section Order

variable {formatUnixDays : Int32 → Option String} {partitionAttnums : List ℕ}
  {parsed : List (String × String)} {declared : List (String × PgPartitionType)}

/-- The path gives the column this value, as the evaluation looks it up. -/
structure PathValue (partitionAttnums : List ℕ) (parsed : List (String × String))
    (declared : List (String × PgPartitionType)) (col : ℕ) (ty : PgPartitionType)
    (raw : String) : Prop where
  looked_up : ∃ pos name, partitionAttnums.findIdx? (· == col) = some pos ∧
    declared[pos]? = some (name, ty) ∧ parsed.lookup name = some raw

variable (partitionAttnums parsed declared) in
/-- The text that the path has for a column. -/
def pathText (col : ℕ) : Option String := do
  let pos ← partitionAttnums.findIdx? (· == col)
  let (name, _) ← declared[pos]?
  parsed.lookup name

theorem PathValue.mem {col : ℕ} {ty : PgPartitionType} {raw : String}
    (h : PathValue partitionAttnums parsed declared col ty raw) : col ∈ partitionAttnums := by
  obtain ⟨pos, -, hpos, -⟩ := h.looked_up
  obtain ⟨hlt, hcol, -⟩ := List.findIdx?_eq_some_iff_getElem.mp hpos
  rw [← eq_of_beq hcol]
  exact List.getElem_mem hlt

theorem PathValue.unique {col : ℕ} {ty ty' : PgPartitionType} {raw raw' : String}
    (h : PathValue partitionAttnums parsed declared col ty raw)
    (h' : PathValue partitionAttnums parsed declared col ty' raw') : raw = raw' := by
  obtain ⟨pos, name, hpos, hkey, hraw⟩ := h.looked_up
  obtain ⟨pos', name', hpos', hkey', hraw'⟩ := h'.looked_up
  obtain rfl := Option.some.inj (hpos.symm.trans hpos')
  obtain ⟨rfl, -⟩ := Prod.mk.inj (Option.some.inj (hkey.symm.trans hkey'))
  exact Option.some.inj (hraw.symm.trans hraw')

theorem PathValue.pathText_eq {col : ℕ} {ty : PgPartitionType} {raw : String}
    (h : PathValue partitionAttnums parsed declared col ty raw) :
    pathText partitionAttnums parsed declared col = some raw := by
  obtain ⟨pos, name, hpos, hkey, hraw⟩ := h.looked_up
  simp [pathText, hpos, hkey, hraw]

/-- A leaf compares the value of its column with the text of its literal. -/
theorem PathValue.evalPartitionLeaf {q : PushedQual} {ty : PgPartitionType} {raw : String}
    (h : PathValue partitionAttnums parsed declared q.col ty raw) :
    evalPartitionLeaf formatUnixDays partitionAttnums parsed declared q =
      partitionLiteral formatUnixDays q.value >>= fun lit =>
        .ok (lit.elim true (comparePartitionText q.op raw)) := by
  obtain ⟨pos, name, hpos, hkey, hraw⟩ := h.looked_up
  unfold ParquetAzureFdw.evalPartitionLeaf
  rw [hpos]
  dsimp only
  rw [hkey]
  dsimp only
  rw [hraw]
  dsimp only
  congr 1
  funext lit
  cases lit <;> rfl

/-- The four operators that order. -/
def PushedOp.isOrder (op : PushedOp) : Bool := op ∈ [PushedOp.lt, .le, .gt, .ge]

/-- Two orders satisfy the same comparisons when they are the same. -/
theorem forall_order_holds_iff {o o' : Ordering} :
    (∀ op : PushedOp, op.isOrder = true → op.holds o = true → op.holds o' = true) ↔ o = o' := by
  constructor
  · intro h
    have hlt := h .lt rfl
    have hle := h .le rfl
    have hgt := h .gt rfl
    have hge := h .ge rfl
    cases o <;> cases o' <;> simp_all [PushedOp.holds]
  · rintro rfl op - h
    exact h

/-- When the order of the texts is the order of the values. -/
def TextOrderKept (formatUnixDays : Int32 → Option String) (raw : String) :
    Datum → ScalarValueRepr → Prop
  | .text _, .utf8 lit => ∀ m n, parseSigned 64 raw = some m → parseSigned 64 lit = some n →
      compare m n = compare (utf8Bytes raw) (utf8Bytes lit)
  | .date d, .date32 u => ∃ text, formatUnixDays u = some text ∧
      compare (utf8Bytes raw) (utf8Bytes text) = compare (d.toInt + 10957) u.toInt
  | _, _ => True

theorem comparePartitionText_order {op : PushedOp} (hop : op.isOrder = true) (raw lit : String) :
    comparePartitionText op raw lit = op.holds (partitionTextOrder raw lit) := by
  cases op with
  | lt | le | gt | ge => rfl
  | _ => cases hop

/-- A literal with no text stops some comparison that is true of any order. -/
theorem exists_order_holds (o : Ordering) :
    ∃ op : PushedOp, op.isOrder = true ∧ op.holds o = true := by
  cases o with
  | lt => exact ⟨.lt, rfl, rfl⟩
  | eq => exact ⟨.le, rfl, rfl⟩
  | gt => exact ⟨.gt, rfl, rfl⟩

/-- True comparisons keep the blob exactly when the literal has a text, and the texts are
ordered as the values are. -/
theorem order_kept_iff_text {col : ℕ} {lit : ScalarValueRepr} {ty : PgPartitionType} {raw : String}
    {o : Ordering} (hraw : PathValue partitionAttnums parsed declared col ty raw)
    (hlit : partitionLiteral formatUnixDays lit ≠ .ok none) :
    (∀ op : PushedOp, op.isOrder = true → op.holds o = true →
        evalPartitionLeaf formatUnixDays partitionAttnums parsed declared ⟨col, op, lit⟩ = .ok true) ↔
      ∃ text, partitionLiteral formatUnixDays lit = .ok (some text) ∧
        o = partitionTextOrder raw text := by
  have heval : ∀ op, evalPartitionLeaf formatUnixDays partitionAttnums parsed declared
      ⟨col, op, lit⟩ = partitionLiteral formatUnixDays lit >>= fun lit =>
        .ok (lit.elim true (comparePartitionText op raw)) := fun op =>
    PathValue.evalPartitionLeaf (q := ⟨col, op, lit⟩) hraw
  simp only [heval]
  cases htext : partitionLiteral formatUnixDays lit with
  | error f =>
    obtain ⟨op, hop, hholds⟩ := exists_order_holds o
    constructor
    · intro h
      cases h op hop hholds
    · rintro ⟨text, h, -⟩
      cases h
  | ok text? =>
    cases text? with
    | none => exact absurd htext hlit
    | some text =>
      have hdecide : (∀ op : PushedOp, op.isOrder = true → op.holds o = true →
          (Except.ok (comparePartitionText op raw text) : Outcome Bool) = .ok true) ↔
          o = partitionTextOrder raw text := by
        rw [← forall_order_holds_iff]
        refine forall_congr' fun op => forall_congr' fun hop => ?_
        rw [comparePartitionText_order hop, Except.ok.injEq]
      constructor
      · intro h
        exact ⟨text, rfl, hdecide.mp h⟩
      · rintro ⟨text', htext', h⟩
        obtain rfl := Option.some.inj (Except.ok.inj htext')
        exact hdecide.mpr h

/-- The order of two texts is the bytewise one unless both read as numbers. -/
theorem partitionTextOrder_eq_bytes_iff {raw lit : String} :
    compare (utf8Bytes raw) (utf8Bytes lit) = partitionTextOrder raw lit ↔
      ∀ m n, parseSigned 64 raw = some m → parseSigned 64 lit = some n →
        compare m n = compare (utf8Bytes raw) (utf8Bytes lit) := by
  unfold partitionTextOrder
  constructor
  · intro h m n hm hn
    rw [h, hm, hn]
  · intro h
    split
    · rename_i m n hm hn
      exact (h m n hm hn).symm
    · rfl

/-- **Which comparisons of a partition column keep the blob whenever they are true.** -/
theorem order_qual_keeps_blob_iff (ext : Externals)
    (hymd : ∀ raw days, ext.parseYmd raw = .ok days → parseSigned 64 raw = none)
    {col : ℕ} {ty : PgPartitionType} {raw : String} {d : Datum} {lit : ScalarValueRepr}
    {o : Ordering} (hraw : PathValue partitionAttnums parsed declared col ty raw)
    (hcast : parseTextToDatum ext ty raw = .ok d) (hlit : d.compareLiteral lit = some o) :
    (∀ op : PushedOp, op.isOrder = true → op.holds o = true →
        evalPartitionLeaf formatUnixDays partitionAttnums parsed declared ⟨col, op, lit⟩ = .ok true) ↔
      TextOrderKept formatUnixDays raw d lit := by
  rcases Datum.compareLiteral_cases hlit with ⟨a, b, rfl, rfl, rfl⟩ | ⟨a, b, rfl, rfl, rfl⟩ |
    ⟨a, b, ha, hb, rfl⟩
  · obtain rfl : a = raw := parseTextToDatum_eq_text hcast
    have htext : partitionLiteral formatUnixDays (.utf8 b) = .ok (some b) := rfl
    rw [order_kept_iff_text hraw (by simp [htext]), htext]
    simp only [Except.ok.injEq, Option.some.injEq, exists_eq_left']
    exact partitionTextOrder_eq_bytes_iff
  · -- a date is no number, so the texts are compared bytewise
    have hnot : parseSigned 64 raw = none := hymd raw _ (parseTextToDatum_eq_date hcast)
    have horder : ∀ text, partitionTextOrder raw text = compare (utf8Bytes raw) (utf8Bytes text) := by
      intro text
      rw [partitionTextOrder, hnot]
    have hsupported : partitionLiteral formatUnixDays (.date32 b) ≠ .ok none := by
      rw [partitionLiteral]
      split <;> simp
    rw [order_kept_iff_text hraw hsupported]
    simp only [horder, TextOrderKept, partitionLiteral_date]
    exact exists_congr fun text => and_congr_right fun _ => eq_comm
  · obtain ⟨htext, hb'⟩ := partitionLiteral_int formatUnixDays hb
    have hkept : TextOrderKept formatUnixDays raw d lit := by
      cases d <;> trivial
    refine iff_of_true ((order_kept_iff_text hraw (by simp [htext])).mpr ⟨_, htext, ?_⟩) hkept
    rw [partitionTextOrder, parseSigned_of_parseTextToDatum hcast ha, hb']

/-- A blob of 5 January is kept by a comparison with 6 January. -/
theorem day_before_kept :
    parseTextToDatum twoDays .date "2024-01-05" = .ok (.date 8770) ∧
      evalPartitionLeaf (fun d => if d = 19728 then some "2024-01-06" else none) [1]
        [("day", "2024-01-05")] [("day", .date)] ⟨1, .lt, .date32 19728⟩ = .ok true := by
  have hcast : parseTextToDatum twoDays .date "2024-01-05" = .ok (.date 8770) := by decide
  have hymd : ∀ raw days, twoDays.parseYmd raw = .ok days → parseSigned 64 raw = none := by
    intro raw days h
    by_cases hraw : raw = "2024-01-05"
    · subst hraw
      decide
    · simp [twoDays, hraw] at h
  have hlit : (Datum.date 8770).compareLiteral (.date32 19728) = some .lt := by decide
  have hkept : TextOrderKept (fun d => if d = 19728 then some "2024-01-06" else none) "2024-01-05"
      (.date 8770) (.date32 19728) := ⟨"2024-01-06", by decide, by decide⟩
  exact ⟨hcast, (order_qual_keeps_blob_iff twoDays hymd ⟨0, "day", rfl, rfl, rfl⟩ hcast hlit).mpr
    hkept .lt rfl rfl⟩

/-- As texts `10` is before `9`, but the blob of `10` is dropped: both read as numbers. -/
theorem numeric_text_dropped :
    parseTextToDatum .permissive .text "10" = .ok (.text "10") ∧
      (Datum.text "10").compareLiteral (.utf8 "9") = some .lt ∧
      evalPartitionLeaf (fun _ => none) [0] [("code", "10")] [("code", .text)]
        ⟨0, .lt, .utf8 "9"⟩ = .ok false := by
  decide

end Order

/-! ### Equality -/

/-- The text that a literal with this value has. -/
def Datum.spelling (formatUnixDays : Int32 → Option String) : Datum → Option String
  | .text v => some v
  | .date pgDays => do
    let unixDays ← checkedAdd32 pgDays unixToPgEpochDays
    formatUnixDays unixDays
  | d => d.int?.map toString

/-- A literal that is equal to a value has the value's spelling. -/
theorem Datum.spelling_of_eq {formatUnixDays : Int32 → Option String} {d : Datum}
    {lit : ScalarValueRepr} {text : String} (heq : d.compareLiteral lit = some .eq)
    (htext : partitionLiteral formatUnixDays lit = .ok (some text)) :
    d.spelling formatUnixDays = some text := by
  rcases Datum.compareLiteral_cases heq with ⟨a, b, rfl, rfl, h⟩ | ⟨a, b, rfl, rfl, h⟩ |
    ⟨a, b, ha, hb, h⟩
  · have hbytes : utf8Bytes a = utf8Bytes b := Std.LawfulEqOrd.eq_of_compare h
    obtain rfl := Option.some.inj (Except.ok.inj htext)
    rw [Datum.spelling, utf8Bytes_injective hbytes]
  · have hdays : a.toInt + 10957 = b.toInt := Std.LawfulEqOrd.eq_of_compare h
    have hadd : checkedAdd32 a unixToPgEpochDays = some b := by
      rw [checkedAdd32, show a.toInt + unixToPgEpochDays.toInt = b.toInt from hdays]
      exact int32OfInt?_toInt b
    rw [Datum.spelling, hadd]
    exact partitionLiteral_date.mp htext
  · obtain rfl : a = b := Std.LawfulEqOrd.eq_of_compare h
    have hspelling : d.spelling formatUnixDays = d.int?.map toString := by
      cases d <;> first | rfl | cases ha
    obtain ⟨htext', -⟩ := partitionLiteral_int formatUnixDays hb
    rw [hspelling, ha, ← Except.ok.inj (htext'.symm.trans htext)]
    rfl

/-- A value with a spelling, other than a text, is equal to a literal that has it. -/
theorem Datum.exists_literal {formatUnixDays : Int32 → Option String} {d : Datum} {text : String}
    (h : d.spelling formatUnixDays = some text) (hd : ∀ v, d ≠ .text v) :
    ∃ lit, d.compareLiteral lit = some .eq ∧
      partitionLiteral formatUnixDays lit = .ok (some text) := by
  cases d with
  | int2 v =>
    exact ⟨.i16 v, congrArg some Std.ReflOrd.compare_self, congrArg Except.ok h⟩
  | int4 v =>
    exact ⟨.i32 v, congrArg some Std.ReflOrd.compare_self, congrArg Except.ok h⟩
  | int8 v =>
    exact ⟨.i64 v, congrArg some Std.ReflOrd.compare_self, congrArg Except.ok h⟩
  | text v => exact absurd rfl (hd v)
  | date v =>
    obtain ⟨u, hu, htext⟩ := Option.bind_eq_some_iff.mp h
    have hdays : u.toInt = v.toInt + 10957 := int32OfInt?_eq_some hu
    refine ⟨.date32 u, ?_, partitionLiteral_date.mpr htext⟩
    rw [compareLiteral, hdays, Std.ReflOrd.compare_self]
  | _ => cases h

/-! ### The leaves that the evaluation comes to -/

section Reach

variable (formatUnixDays : Int32 → Option String) (partitionAttnums : List ℕ)
  (parsed : List (String × String)) (declared : List (String × PgPartitionType))

/-- What a leaf says of the blob: a leaf without a value or with a literal that is not supported
keeps it, and one whose literal has no text says nothing. -/
def leafTruth (q : PushedQual) : Truth :=
  match pathText partitionAttnums parsed declared q.col with
  | none => some true
  | some raw =>
    match partitionLiteral formatUnixDays q.value with
    | .error _ => none
    | .ok none => some true
    | .ok (some lit) => some (comparePartitionText q.op raw lit)

/-- The evaluation of the tree comes to the leaf: in a conjunction everything before its child is
true, in a disjunction everything is false. -/
inductive Reached (t : PushedQual → Truth) : PushedExpr → PushedQual → Prop
  | leaf (q : PushedQual) : Reached t (.leaf q) q
  | and {before after : List PushedExpr} {x : PushedExpr} {q : PushedQual}
      (hbefore : ∀ y ∈ before, y.truth t = some true) (hx : Reached t x q) :
      Reached t (.and (before ++ x :: after)) q
  | or {before after : List PushedExpr} {x : PushedExpr} {q : PushedQual}
      (hbefore : ∀ y ∈ before, y.truth t = some false) (hx : Reached t x q) :
      Reached t (.or (before ++ x :: after)) q
  | not {x : PushedExpr} {q : PushedQual} (hx : Reached t x q) : Reached t (.not x) q

theorem Reached.mem_leaves {t : PushedQual → Truth} {e : PushedExpr} {q : PushedQual}
    (h : Reached t e q) : q ∈ e.leaves := by
  induction h with
  | leaf q => simp [PushedExpr.leaves]
  | and _ _ ih | or _ _ ih =>
    rw [PushedExpr.leaves]
    exact PushedExpr.mem_leavesList.mpr ⟨_, by simp, ih⟩
  | not _ ih => rwa [PushedExpr.leaves]

/-- A tree of conjunctions and disjunctions is not false where it is true, if its leaves are not. -/
theorem PushedExpr.AndOr.truth_ne_false {P : PushedQual → Prop} {t t' : PushedQual → Truth}
    {e : PushedExpr} (he : e.AndOr P) (hleaf : ∀ q, P q → t q = some true → t' q ≠ some false)
    (h : e.truth t = some true) : e.truth t' ≠ some false := by
  induction he with
  | @leaf q hq =>
    rw [truth_leaf] at h ⊢
    exact hleaf q hq h
  | @and xs _ ih =>
    rw [truth_and] at h ⊢
    intro hfalse
    obtain ⟨x, hx, hxfalse⟩ := List.mem_map.mp (all_eq_false.mp hfalse)
    exact ih x hx (all_eq_true.mp h _ (List.mem_map_of_mem hx)) hxfalse
  | @or xs _ ih =>
    rw [truth_or] at h ⊢
    intro hfalse
    obtain ⟨x, hx, hxtrue⟩ := List.mem_map.mp (any_eq_true.mp h)
    exact ih x hx hxtrue (any_eq_false.mp hfalse _ (List.mem_map_of_mem hx))

end Reach

/-! ### Evaluation up to the first decisive child -/

section Evaluation

variable {formatUnixDays : Int32 → Option String} {partitionAttnums : List ℕ}
  {parsed : List (String × String)} {declared : List (String × PgPartitionType)}

/-- A leaf fails exactly when it has no truth: with a key for each attribute, the look-up of the
key does not fail. -/
theorem evalPartitionLeaf_eq_ok_iff (hlen : partitionAttnums.length ≤ declared.length)
    {q : PushedQual} {b : Bool} :
    evalPartitionLeaf formatUnixDays partitionAttnums parsed declared q = .ok b ↔
      leafTruth formatUnixDays partitionAttnums parsed declared q = some b := by
  unfold evalPartitionLeaf leafTruth pathText
  cases hpos : partitionAttnums.findIdx? (· == q.col) with
  | none => simp
  | some pos =>
    obtain ⟨hlt, -, -⟩ := List.findIdx?_eq_some_iff_getElem.mp hpos
    obtain ⟨key, hkey⟩ : ∃ key, declared[pos]? = some key :=
      ⟨_, List.getElem?_eq_getElem (hlt.trans_le hlen)⟩
    simp only [hkey, Option.bind_eq_bind, Option.bind_some]
    cases parsed.lookup key.1 with
    | none => simp
    | some raw =>
      cases partitionLiteral formatUnixDays q.value with
      | error f => simp [bind, Except.bind]
      | ok lit? => cases lit? <;> simp [bind, Except.bind, pure, Except.pure]

/-- `all` and `any` over a list: the first child that is `stop` decides. -/
def evalUntil (stop : Bool) (f : PushedExpr → Outcome Bool) : List PushedExpr → Outcome Bool
  | [] => .ok (!stop)
  | x :: xs => do if (← f x) = stop then return stop else evalUntil stop f xs

theorem evalAllPartitionExprs_eq (xs : List PushedExpr) :
    evalAllPartitionExprs formatUnixDays partitionAttnums parsed declared xs =
      evalUntil false (evalOnePartitionExpr formatUnixDays partitionAttnums parsed declared) xs := by
  induction xs with
  | nil => rw [evalAllPartitionExprs, evalUntil]; rfl
  | cons x xs ih =>
    rw [evalAllPartitionExprs, evalUntil, ih]
    refine bind_congr fun b => ?_
    cases b <;> rfl

theorem evalAnyPartitionExpr_eq (xs : List PushedExpr) :
    evalAnyPartitionExpr formatUnixDays partitionAttnums parsed declared xs =
      evalUntil true (evalOnePartitionExpr formatUnixDays partitionAttnums parsed declared) xs := by
  induction xs with
  | nil => rw [evalAnyPartitionExpr, evalUntil]; rfl
  | cons x xs ih =>
    rw [evalAnyPartitionExpr, evalUntil, ih]

section Until

variable {stop : Bool} {f : PushedExpr → Outcome Bool} {xs : List PushedExpr}

/-- One step of the loop. -/
theorem evalUntil_cons_eq_ok {x : PushedExpr} {b : Bool} :
    evalUntil stop f (x :: xs) = .ok b ↔
      f x = .ok stop ∧ b = stop ∨ f x = .ok (!stop) ∧ evalUntil stop f xs = .ok b := by
  rw [evalUntil, except_bind_eq_ok]
  constructor
  · rintro ⟨c, hc, h⟩
    by_cases hstop : c = stop
    · rw [if_pos hstop] at h
      exact .inl ⟨hstop ▸ hc, (Except.ok.inj h).symm⟩
    · rw [if_neg hstop] at h
      exact .inr ⟨Bool.eq_not_of_ne hstop ▸ hc, h⟩
  · rintro (⟨hx, rfl⟩ | ⟨hx, h⟩)
    · exact ⟨_, hx, by rw [if_pos rfl]; rfl⟩
    · exact ⟨_, hx, by rw [if_neg (Bool.not_ne_self stop)]; exact h⟩

/-- The result of the loop: a child that decides, or none. -/
theorem evalUntil_eq_ok {b : Bool} (h : evalUntil stop f xs = .ok b) :
    b = stop ∧ (∃ x ∈ xs, f x = .ok stop) ∨ b = !stop ∧ ∀ x ∈ xs, f x = .ok (!stop) := by
  induction xs with
  | nil => exact .inr ⟨(Except.ok.inj h).symm, by simp⟩
  | cons x xs ih =>
    rcases evalUntil_cons_eq_ok.mp h with ⟨hx, hb⟩ | ⟨hx, h⟩
    · exact .inl ⟨hb, x, List.mem_cons_self, hx⟩
    · rcases ih h with ⟨hb, y, hy, hfy⟩ | ⟨hb, hall⟩
      · exact .inl ⟨hb, y, List.mem_cons_of_mem x hy, hfy⟩
      · exact .inr ⟨hb, List.forall_mem_cons.mpr ⟨hx, hall⟩⟩

/-- A loop that returns has a result for each child it comes to. -/
theorem exists_ok_of_evalUntil {before after : List PushedExpr} {x : PushedExpr} {b : Bool}
    (h : evalUntil stop f (before ++ x :: after) = .ok b)
    (hbefore : ∀ y ∈ before, f y ≠ .ok stop) : ∃ c, f x = .ok c := by
  induction before with
  | nil =>
    rcases evalUntil_cons_eq_ok.mp h with ⟨hx, -⟩ | ⟨hx, -⟩
    · exact ⟨_, hx⟩
    · exact ⟨_, hx⟩
  | cons y before ih =>
    obtain ⟨hy, hbefore⟩ := List.forall_mem_cons.mp hbefore
    rcases evalUntil_cons_eq_ok.mp h with ⟨hstop, -⟩ | ⟨-, h⟩
    · exact absurd hstop hy
    · exact ih h hbefore

/-- A loop returns when each child it comes to has a result. -/
theorem exists_evalUntil_eq_ok
    (h : ∀ before x after, xs = before ++ x :: after → (∀ y ∈ before, f y = .ok (!stop)) →
      ∃ c, f x = .ok c) : ∃ b, evalUntil stop f xs = .ok b := by
  induction xs with
  | nil => exact ⟨_, rfl⟩
  | cons x xs ih =>
    obtain ⟨c, hc⟩ := h [] x xs rfl (by simp)
    by_cases hstop : c = stop
    · exact ⟨stop, evalUntil_cons_eq_ok.mpr (.inl ⟨hstop ▸ hc, rfl⟩)⟩
    · have hx : f x = .ok (!stop) := Bool.eq_not_of_ne hstop ▸ hc
      obtain ⟨b, hb⟩ := ih fun before y after hxs hbefore =>
        h (x :: before) y after (congrArg (x :: ·) hxs) (List.forall_mem_cons.mpr ⟨hx, hbefore⟩)
      exact ⟨b, evalUntil_cons_eq_ok.mpr (.inr ⟨hx, hb⟩)⟩

end Until

/-! ### Whole trees -/

section Trees

variable (hlen : partitionAttnums.length ≤ declared.length)

include hlen

/-- What the evaluation returns is the truth of the tree. -/
theorem truth_of_evalOnePartitionExpr {e : PushedExpr} {b : Bool}
    (h : evalOnePartitionExpr formatUnixDays partitionAttnums parsed declared e = .ok b) :
    e.truth (leafTruth formatUnixDays partitionAttnums parsed declared) = some b := by
  induction e using PushedExpr.induction generalizing b with
  | leaf q =>
    rw [evalOnePartitionExpr] at h
    rw [PushedExpr.truth_leaf]
    exact (evalPartitionLeaf_eq_ok_iff hlen).mp h
  | and xs ih =>
    rw [evalOnePartitionExpr, evalAllPartitionExprs_eq] at h
    rw [PushedExpr.truth_and]
    rcases evalUntil_eq_ok h with ⟨rfl, x, hx, hfx⟩ | ⟨rfl, hall⟩
    · exact all_eq_false.mpr (List.mem_map.mpr ⟨x, hx, ih x hx hfx⟩)
    · exact all_eq_true.mpr (List.forall_mem_map.mpr fun x hx => ih x hx (hall x hx))
  | or xs ih =>
    rw [evalOnePartitionExpr, evalAnyPartitionExpr_eq] at h
    rw [PushedExpr.truth_or]
    rcases evalUntil_eq_ok h with ⟨rfl, x, hx, hfx⟩ | ⟨rfl, hall⟩
    · exact any_eq_true.mpr (List.mem_map.mpr ⟨x, hx, ih x hx hfx⟩)
    · exact any_eq_false.mpr (List.forall_mem_map.mpr fun x hx => ih x hx (hall x hx))
  | not x ih =>
    rw [evalOnePartitionExpr] at h
    obtain ⟨c, hc, h⟩ := except_bind_eq_ok.mp h
    obtain rfl := Except.ok.inj h
    rw [PushedExpr.truth_not, ih hc, Truth.not_some]

/-- The loop over the children of a connective returns exactly when each child it comes to does:
those before it have the truth that does not decide. -/
theorem exists_evalUntil_iff {stop : Bool} {xs : List PushedExpr} :
    (∃ b, evalUntil stop (evalOnePartitionExpr formatUnixDays partitionAttnums parsed declared) xs =
        .ok b) ↔
      ∀ before x after, xs = before ++ x :: after →
        (∀ y ∈ before, y.truth (leafTruth formatUnixDays partitionAttnums parsed declared) = some (!stop)) →
          ∃ c, evalOnePartitionExpr formatUnixDays partitionAttnums parsed declared x = .ok c := by
  constructor
  · rintro ⟨b, hb⟩ before x after rfl hbefore
    refine exists_ok_of_evalUntil hb fun y hy hstop => ?_
    have htruth := truth_of_evalOnePartitionExpr hlen hstop
    rw [hbefore y hy, Option.some.injEq] at htruth
    exact Bool.not_ne_self stop htruth
  · intro h
    refine exists_evalUntil_eq_ok fun before x after hxs hbefore => h before x after hxs ?_
    exact fun y hy => truth_of_evalOnePartitionExpr hlen (hbefore y hy)

/-- **The evaluation of a tree returns exactly when each leaf it comes to has a truth.** -/
theorem exists_evalOnePartitionExpr_iff {e : PushedExpr} :
    (∃ b, evalOnePartitionExpr formatUnixDays partitionAttnums parsed declared e = .ok b) ↔
      ∀ q, Reached (leafTruth formatUnixDays partitionAttnums parsed declared) e q →
        leafTruth formatUnixDays partitionAttnums parsed declared q ≠ none := by
  induction e using PushedExpr.induction with
  | leaf q =>
    simp only [evalOnePartitionExpr, evalPartitionLeaf_eq_ok_iff hlen]
    constructor
    · rintro ⟨b, hb⟩ _ ⟨⟩
      rw [hb]
      exact Option.some_ne_none b
    · intro h
      exact Option.ne_none_iff_exists'.mp (h q (.leaf q))
  | and xs ih =>
    simp only [evalOnePartitionExpr, evalAllPartitionExprs_eq, exists_evalUntil_iff hlen]
    constructor
    · rintro h q hq
      cases hq with
      | and hbefore hx => exact (ih _ (by simp)).mp (h _ _ _ rfl hbefore) q hx
    · rintro h before x after rfl hbefore
      exact (ih x (by simp)).mpr fun q hq => h q (.and hbefore hq)
  | or xs ih =>
    simp only [evalOnePartitionExpr, evalAnyPartitionExpr_eq, exists_evalUntil_iff hlen]
    constructor
    · rintro h q hq
      cases hq with
      | or hbefore hx => exact (ih _ (by simp)).mp (h _ _ _ rfl hbefore) q hx
    · rintro h before x after rfl hbefore
      exact (ih x (by simp)).mpr fun q hq => h q (.or hbefore hq)
  | not x ih =>
    simp only [evalOnePartitionExpr]
    constructor
    · rintro ⟨b, hb⟩ q hq
      obtain ⟨c, hc, -⟩ := except_bind_eq_ok.mp hb
      cases hq with
      | not hx => exact ih.mp ⟨c, hc⟩ q hx
    · intro h
      obtain ⟨c, hc⟩ := ih.mpr fun q hq => h q (.not hq)
      exact ⟨!c, except_bind_eq_ok.mpr ⟨c, hc, rfl⟩⟩

end Trees

end Evaluation

/-! ### What the rows of a blob carry -/

section Blob

variable {ext : Externals} {formatUnixDays : Int32 → Option String} {attrs : List Attribute}
  {opts : PartitionOptions} {attnums : List ℕ} {blob : String} {parsed : List (String × String)}
  {datums : List Datum} {slot : List (Option Datum)}

/-- Declared columns that resolve to one attribute have names that match. -/
theorem keys_match_of_attnum_eq (hattnums : resolvePartitionAttnums attrs opts.columns = .ok attnums)
    {i j a : ℕ} {key key' : String × PgPartitionType} (hi : attnums[i]? = some a)
    (hj : attnums[j]? = some a) (hkey : opts.keys[i]? = some key) (hkey' : opts.keys[j]? = some key') :
    eqIgnoreAsciiCase key.1.toList key'.1.toList = true := by
  -- each name matches that of the attribute
  have hname : ∀ {i : ℕ} {key : String × PgPartitionType}, attnums[i]? = some a →
      opts.keys[i]? = some key → ∃ att, attrs[a]? = some att ∧
        att.name.toList.map Char.toLower = key.1.toList.map Char.toLower := by
    intro i key hi hkey
    obtain ⟨col, hcol, hagree⟩ := forall₂_getElem? opts.agree.flip hkey
    obtain ⟨a', ha', hresolve⟩ := forall₂_getElem? (mapM_eq_ok_iff.mp hattnums) hcol
    obtain rfl := Option.some.inj (hi.symm.trans ha')
    have hfind := resolvePartitionAttnum_eq_ok.mp hresolve
    obtain ⟨hlt, hmatch, -⟩ := List.findIdx?_eq_some_iff_getElem.mp hfind
    refine ⟨attrs[a], List.getElem?_eq_getElem hlt, ?_⟩
    exact (eqIgnoreAsciiCase_iff.mp hmatch).trans (eqIgnoreAsciiCase_iff.mp hagree)
  obtain ⟨att, hatt, hmatch⟩ := hname hi hkey
  obtain ⟨att', hatt', hmatch'⟩ := hname hj hkey'
  obtain rfl := Option.some.inj (hatt.symm.trans hatt')
  exact eqIgnoreAsciiCase_iff.mpr (hmatch.symm.trans hmatch')

/-- A partition column holds the cast of the value that the evaluation looks up for it. -/
theorem emitted_value (hattnums : resolvePartitionAttnums attrs opts.columns = .ok attnums)
    (hparsed : partitionValuesFromPath blob opts.keys = .ok parsed)
    (hcast : castKeys ext blob parsed opts.keys = .ok (.ok datums))
    (hslot : slot.length = attrs.length) {a : ℕ} (ha : a ∈ attnums) :
    ∃ raw d ty ty', (overlayPartition attnums datums slot).getD a none = some d ∧
      parseTextToDatum ext ty raw = .ok d ∧ PathValue attnums parsed opts.keys a ty' raw ∧
      ∃ (j : ℕ) (name : String), attnums[j]? = some a ∧ opts.keys[j]? = some (name, ty) := by
  have hkeys : attnums.length = opts.keys.length := by
    rw [← (mapM_eq_ok_iff.mp hattnums).length_eq, opts.agree.length_eq]
  have hlen : attnums.length = datums.length := hkeys.trans (castKeys_eq_ok hcast).length_eq
  have hlt : a < slot.length := hslot ▸ ((mem_partitionAttnums_iff hattnums).mp ha).lt
  obtain ⟨j, d, hj, hd, hrow⟩ := overlayPartition_of_mem hlen ha hlt
  obtain ⟨⟨name, ty⟩, hkey, raw, hraw, hdatum⟩ := forall₂_getElem? (castKeys_eq_ok hcast).flip hd
  -- the column is looked up by its first declaration, which has the same name
  obtain ⟨pos, hpos⟩ : ∃ pos, attnums.findIdx? (· == a) = some pos := by
    rw [← Option.isSome_iff_exists, List.findIdx?_isSome, List.any_eq_true]
    exact ⟨a, ha, beq_self_eq_true a⟩
  obtain ⟨hposlt, hbeq, -⟩ := List.findIdx?_eq_some_iff_getElem.mp hpos
  have hattnum : attnums[pos]? = some a := by
    rw [List.getElem?_eq_getElem hposlt, eq_of_beq hbeq]
  have hkey' : opts.keys[pos]? = some opts.keys[pos] :=
    List.getElem?_eq_getElem (hkeys ▸ hposlt)
  obtain ⟨-, -, -, hfound⟩ := partitionValuesFromPath_eq_ok_iff.mp hparsed
  obtain ⟨raw', hraw'⟩ := Option.isSome_iff_exists.mp
    (lookup_isSome_iff.mpr (hfound _ (List.mem_of_getElem? hkey')))
  have hname := name_eq_of_lookup hparsed hraw hraw'
    (keys_match_of_attnum_eq hattnums hj hattnum hkey hkey')
  have hraw'' : parsed.lookup opts.keys[pos].1 = some raw := hname ▸ hraw
  refine ⟨raw, d, ty, opts.keys[pos].2, ?_, hdatum, ⟨pos, _, hpos, hkey', hraw''⟩, j, name, hj, hkey⟩
  rw [List.getD_eq_getElem?_getD, hrow]
  rfl

/-- A leaf of the equality kind on an integer or date column; for `=`, on one of `cols`. -/
structure EqualityLeaf (attnums : List ℕ) (declared : List (String × PgPartitionType)) (cols : Set ℕ)
    (q : PushedQual) : Prop where
  op : q.op = .eq ∧ q.col ∈ cols ∨ q.op = .isNull ∨ q.op = .isNotNull
  column : ∃ (j : ℕ) (name : String) (ty : PgPartitionType), attnums[j]? = some q.col ∧
    declared[j]? = some (name, ty) ∧ ty ≠ .text

/-- The dates that the evaluation comes to have a text. -/
def DatesRendered (formatUnixDays : Int32 → Option String) (attnums : List ℕ)
    (parsed : List (String × String)) (declared : List (String × PgPartitionType))
    (exprs : List PushedExpr) : Prop :=
  ∀ q, Reached (leafTruth formatUnixDays attnums parsed declared) (.and exprs) q →
    ∀ u, q.value = .date32 u → (formatUnixDays u).isSome

/-- The path spells the value that the row has in the column as a literal is rendered. -/
def SpelledAsLiteral (formatUnixDays : Int32 → Option String) (attnums : List ℕ)
    (parsed : List (String × String)) (declared : List (String × PgPartitionType))
    (row : List (Option Datum)) (a : ℕ) : Prop :=
  ∀ ty raw d text, PathValue attnums parsed declared a ty raw → row.getD a none = some d →
    d.spelling formatUnixDays = some text → raw = text

theorem leafTruth_ne_none {q : PushedQual} {declared : List (String × PgPartitionType)}
    (h : ∀ u, q.value = .date32 u → (formatUnixDays u).isSome) :
    leafTruth formatUnixDays attnums parsed declared q ≠ none := by
  unfold leafTruth
  cases pathText attnums parsed declared q.col with
  | none => simp
  | some raw =>
    cases hvalue : q.value with
    | date32 u =>
      obtain ⟨text, htext⟩ := Option.isSome_iff_exists.mp (h u hvalue)
      simp [partitionLiteral, htext]
    | _ => simp [partitionLiteral]

/-- An equality leaf that is true is not false of a value that the path spells as a literal is
rendered. -/
theorem equality_leaf_kept {cols : Set ℕ}
    (hattnums : resolvePartitionAttnums attrs opts.columns = .ok attnums)
    (hparsed : partitionValuesFromPath blob opts.keys = .ok parsed)
    (hcast : castKeys ext blob parsed opts.keys = .ok (.ok datums))
    (hslot : slot.length = attrs.length)
    (hspelled : ∀ a ∈ cols, SpelledAsLiteral formatUnixDays attnums parsed opts.keys
      (overlayPartition attnums datums slot) a)
    {q : PushedQual} (hq : EqualityLeaf attnums opts.keys cols q)
    (htrue : partitionSql (overlayPartition attnums datums slot) q = some true) :
    leafTruth formatUnixDays attnums parsed opts.keys q ≠ some false := by
  obtain ⟨j, _, _, hj, -⟩ := hq.column
  obtain ⟨raw, d, _, ty, hrow, -, hraw, -⟩ :=
    emitted_value hattnums hparsed hcast hslot (List.mem_of_getElem? hj)
  rw [leafTruth, hraw.pathText_eq]
  cases htext : partitionLiteral formatUnixDays q.value with
  | error f => simp
  | ok text? =>
    cases text? with
    | none => simp
    | some text =>
      obtain ⟨col, op, value⟩ := q
      rcases hq.op with ⟨hop, hcol⟩ | hop | hop <;> obtain rfl : op = _ := hop
      · -- an equality that is true gives the literal the spelling of the value
        have heq : d.compareLiteral value = some .eq := (partitionSql_eq_iff hrow value).mp htrue
        have hsame := hspelled col hcol _ raw d text hraw hrow (Datum.spelling_of_eq heq htext)
        simp [comparePartitionText, hsame]
      · rw [partitionSql, hrow] at htrue
        cases htrue
      · simp [comparePartitionText]

/-- **Equality quals keep every blob they are true of exactly when the path spells its integers
and dates as literals are rendered.**  `cols` are the columns that the quals have an `=` on; the dates
that the evaluation comes to can be rendered. -/
theorem equality_quals_keep_blob_iff (ext : Externals) (formatUnixDays : Int32 → Option String)
    (cols : Set ℕ) (hattnums : resolvePartitionAttnums attrs opts.columns = .ok attnums)
    (hparsed : partitionValuesFromPath blob opts.keys = .ok parsed)
    (hcast : castKeys ext blob parsed opts.keys = .ok (.ok datums))
    (hslot : slot.length = attrs.length) :
    (∀ exprs : List PushedExpr, (∀ e ∈ exprs, e.AndOr (EqualityLeaf attnums opts.keys cols)) →
      DatesRendered formatUnixDays attnums parsed opts.keys exprs →
      (∀ e ∈ exprs, e.truth (partitionSql (overlayPartition attnums datums slot)) = some true) →
      evaluatePartitionQualsAgainstBlob formatUnixDays attnums parsed opts.keys exprs = .ok true) ↔
      ∀ a ∈ cols, SpelledAsLiteral formatUnixDays attnums parsed opts.keys
        (overlayPartition attnums datums slot) a := by
  constructor
  · intro hkeep a ha ty raw d text hraw hrow hspelling
    obtain ⟨raw', d', ty', _, hrow', hdatum, hraw', j, name, hj, hkey⟩ :=
      emitted_value hattnums hparsed hcast hslot hraw.mem
    obtain rfl := hraw.unique hraw'
    obtain rfl := Option.some.inj (hrow.symm.trans hrow')
    by_cases htext : ∃ v, d = .text v
    · obtain ⟨v, rfl⟩ := htext
      rw [← parseTextToDatum_eq_text hdatum]
      exact Option.some.inj hspelling
    · -- the equality with the literal of this value is true
      obtain ⟨lit, heq, hlit⟩ := Datum.exists_literal hspelling fun v hv => htext ⟨v, hv⟩
      have hleaf : EqualityLeaf attnums opts.keys cols ⟨a, .eq, lit⟩ := by
        refine ⟨.inl ⟨rfl, ha⟩, j, name, ty', hj, hkey, ?_⟩
        rintro rfl
        exact htext ⟨_, (Except.ok.inj hdatum).symm⟩
      have hrendered : DatesRendered formatUnixDays attnums parsed opts.keys [.leaf ⟨a, .eq, lit⟩] := by
        intro q hq u hu
        obtain rfl : q = ⟨a, .eq, lit⟩ := by
          simpa [PushedExpr.leaves, PushedExpr.leavesList] using hq.mem_leaves
        obtain rfl : lit = .date32 u := hu
        exact Option.isSome_iff_exists.mpr ⟨text, partitionLiteral_date.mp hlit⟩
      have hkept := hkeep [.leaf ⟨a, .eq, lit⟩] (by simpa using .leaf hleaf) hrendered
        (by simpa using (partitionSql_eq_iff hrow lit).mpr heq)
      rw [evaluatePartitionQualsAgainstBlob, evalAllPartitionExprs, evalOnePartitionExpr,
        PathValue.evalPartitionLeaf (q := ⟨a, .eq, lit⟩) hraw, hlit] at hkept
      by_contra hne
      have hfalse : comparePartitionText .eq raw text = false := beq_eq_false_iff_ne.mpr hne
      simp [bind, Except.bind, hfalse, pure, Except.pure] at hkept
  · intro hspelled exprs hclass hrendered htrue
    have hlen : attnums.length ≤ opts.keys.length := by
      rw [← (mapM_eq_ok_iff.mp hattnums).length_eq, opts.agree.length_eq]
    have hand : (PushedExpr.and exprs).truth (partitionSql (overlayPartition attnums datums slot)) =
        some true := by
      rw [PushedExpr.truth_and]
      exact all_eq_true.mpr (List.forall_mem_map.mpr htrue)
    -- the evaluation returns, and what it returns is the truth of its leaves
    obtain ⟨b, hb⟩ := (exists_evalOnePartitionExpr_iff hlen).mpr fun q hq =>
      leafTruth_ne_none (hrendered q hq)
    have hnot := (PushedExpr.AndOr.and hclass).truth_ne_false
      (fun q hq => equality_leaf_kept hattnums hparsed hcast hslot hspelled hq) hand
    rw [truth_of_evalOnePartitionExpr hlen hb] at hnot
    rw [evalOnePartitionExpr] at hb
    rw [evaluatePartitionQualsAgainstBlob, hb]
    cases b with
    | true => rfl
    | false => exact absurd rfl hnot

end Blob

/-- A relation of a year and a number, partitioned by the year. -/
def yearAndId : List Attribute :=
  [⟨"year", int4Oid, false, false⟩, ⟨"id", int4Oid, false, false⟩]

/-- Its partition options. -/
def byYear : PartitionOptions := ⟨["year"], [("year", .int4)], .cons (by decide) .nil⟩

/-- The blob of 2024 is kept by `year = 2024`. -/
theorem year_2024_kept :
    evaluatePartitionQualsAgainstBlob (fun _ => none) [0] [("year", "2024")] byYear.keys
      [.leaf ⟨0, .eq, .i32 2024⟩] = .ok true := by
  have hattnums : resolvePartitionAttnums yearAndId byYear.columns = .ok [0] := by decide
  have hparsed : partitionValuesFromPath "t/year=2024/part.parquet" byYear.keys =
      .ok [("year", "2024")] := by decide
  have hcast : castKeys .permissive "t/year=2024/part.parquet" [("year", "2024")] byYear.keys =
      .ok (.ok [.int4 2024]) := by decide
  have hspelled : ∀ a ∈ ({0} : Set ℕ), SpelledAsLiteral (fun _ => none) [0] [("year", "2024")]
      byYear.keys (overlayPartition [0] [.int4 2024] [none, none]) a := by
    rintro a rfl ty raw d text hraw hrow hspelling
    have hvalue : PathValue [0] [("year", "2024")] byYear.keys 0 .int4 "2024" :=
      ⟨0, "year", rfl, rfl, rfl⟩
    obtain rfl := Option.some.inj hrow
    rw [hraw.unique hvalue]
    exact Option.some.inj hspelling
  refine (equality_quals_keep_blob_iff .permissive _ {0} hattnums hparsed hcast rfl).mpr hspelled _
    ?_ ?_ ?_
  · have hleaf : EqualityLeaf [0] byYear.keys {0} ⟨0, .eq, .i32 2024⟩ :=
      ⟨.inl ⟨rfl, rfl⟩, 0, "year", .int4, rfl, rfl, by decide⟩
    simpa using .leaf hleaf
  · intro q hq u hu
    obtain rfl : q = ⟨0, .eq, .i32 2024⟩ := by
      simpa [PushedExpr.leaves, PushedExpr.leavesList] using hq.mem_leaves
    cases hu
  · simp only [List.mem_singleton, forall_eq, PushedExpr.truth_leaf]
    decide

/-- The rows of the blob `year=007` have the year 7, and `year = 7` drops it. -/
theorem padded_year_dropped :
    resolvePartitionAttnums yearAndId byYear.columns = .ok [0] ∧
      partitionValuesFromPath "t/year=007/part.parquet" byYear.keys = .ok [("year", "007")] ∧
      castKeys .permissive "t/year=007/part.parquet" [("year", "007")] byYear.keys =
        .ok (.ok [.int4 7]) ∧
      (PushedExpr.leaf ⟨0, .eq, .i32 7⟩).truth
        (partitionSql (overlayPartition [0] [.int4 7] [none, none])) = some true ∧
      evaluatePartitionQualsAgainstBlob (fun _ => none) [0] [("year", "007")] byYear.keys
        [.leaf ⟨0, .eq, .i32 7⟩] = .ok false := by
  refine ⟨by decide, by decide, by decide, ?_, by decide⟩
  rw [PushedExpr.truth_leaf]
  decide

end ParquetAzureFdw
