/-
# Dates that pruning cannot render

`eval_partition_leaf` of `src/fdw/partition.rs` renders a date literal by adding its days
to 1970-01-01, and `NaiveDate + Duration` panics beyond the dates that chrono has, about
262000 years either way.  A Postgres date is a count of days in an `i32`, more than
twenty times as far; `-infinity` is the least of them, and `pg_to_unix_days` lets it pass.

Pruning stops as soon as it is decided, so a literal that no evaluation comes to does no
harm.  Pruning returns exactly when every date among the leaves that it comes to
(`Reached`), on a column that the path has a value for, is a date of chrono's
(`pruning_returns_iff`).
-/

import ParquetAzureFdw.Partition.Prune
import ParquetAzureFdw.Pushdown.Walk

namespace ParquetAzureFdw

open ThreeValued

/-- The dates of chrono, by their distance in days from 1970-01-01, and their texts by
`%Y-%m-%d`. -/
structure NaiveDates where
  first : ℤ
  last : ℤ
  format : Int32 → Option String
  format_isSome_iff : ∀ d, (format d).isSome = true ↔ first ≤ d.toInt ∧ d.toInt ≤ last

theorem NaiveDates.format_eq_none_iff (dates : NaiveDates) {d : Int32} :
    dates.format d = none ↔ ¬ (dates.first ≤ d.toInt ∧ d.toInt ≤ dates.last) := by
  rw [← dates.format_isSome_iff, Bool.not_eq_true, Option.isSome_eq_false_iff, Option.isNone_iff_eq_none]

section Evaluation

variable {dates : NaiveDates} {partitionAttnums : List ℕ} {parsed : List (String × String)}
  {declared : List (String × PgPartitionType)}

/-- A leaf has no truth exactly when it is to be compared with a date that chrono does not have. -/
theorem leafTruth_eq_none_iff {q : PushedQual} :
    leafTruth dates.format partitionAttnums parsed declared q = none ↔
      (pathText partitionAttnums parsed declared q.col).isSome = true ∧
        ∃ d, q.value = .date32 d ∧ ¬ (dates.first ≤ d.toInt ∧ d.toInt ≤ dates.last) := by
  unfold leafTruth
  cases pathText partitionAttnums parsed declared q.col with
  | none => simp
  | some raw =>
    cases q.value with
    | date32 d =>
      cases hd : dates.format d with
      | none => simpa [partitionLiteral, hd] using dates.format_eq_none_iff.mp hd
      | some text =>
        have hrange := (dates.format_isSome_iff d).mp (Option.isSome_of_eq_some hd)
        simp [partitionLiteral, hd, hrange]
    | _ => simp [partitionLiteral]

end Evaluation

/-! ### Pruning -/

/-- **Pruning returns exactly when every date literal that it comes to, on a column the path has a
value for, is a date of chrono's.**  Trees are evaluated from left to right, up to the child that
decides. -/
theorem pruning_returns_iff (dates : NaiveDates) {attrs : List Attribute} {opts : PartitionOptions}
    {partitionAttnums : List ℕ}
    (hattnums : resolvePartitionAttnums attrs opts.columns = .ok partitionAttnums)
    (parsed : List (String × String)) (exprs : List PushedExpr) :
    (∃ b, evaluatePartitionQualsAgainstBlob dates.format partitionAttnums parsed opts.keys exprs =
        .ok b) ↔
      ∀ q, Reached (leafTruth dates.format partitionAttnums parsed opts.keys) (.and exprs) q →
        (pathText partitionAttnums parsed opts.keys q.col).isSome = true →
        ∀ d, q.value = .date32 d → dates.first ≤ d.toInt ∧ d.toInt ≤ dates.last := by
  have hlen : partitionAttnums.length ≤ opts.keys.length := by
    rw [← (mapM_eq_ok_iff.mp hattnums).length_eq, opts.agree.length_eq]
  have hand : evaluatePartitionQualsAgainstBlob dates.format partitionAttnums parsed opts.keys exprs =
      evalOnePartitionExpr dates.format partitionAttnums parsed opts.keys (.and exprs) := by
    rw [evaluatePartitionQualsAgainstBlob, evalOnePartitionExpr]
  rw [hand, exists_evalOnePartitionExpr_iff hlen]
  refine forall₂_congr fun q _ => ?_
  rw [Ne, leafTruth_eq_none_iff]
  push Not
  rfl

/-- The dates of chrono, from -262143-01-01 to 262142-12-31, with the text of one of them. -/
def chronoDates : NaiveDates where
  first := -96465292
  last := 95026236
  format d :=
    if -96465292 ≤ d.toInt ∧ d.toInt ≤ 95026236 then some (if d = 19727 then "2024-01-05" else "")
    else none
  format_isSome_iff d := by split <;> simp_all

/-- The relation with one date column. -/
def oneDate : List Attribute := [⟨"d", dateOid, false, false⟩]

/-- The options that make it a partition column. -/
def byDate : PartitionOptions where
  columns := ["d"]
  keys := [("d", .date)]
  agree := by decide

theorem fifth_of_january_returns : resolvePartitionAttnums oneDate byDate.columns = .ok [0] ∧
    ∀ q, Reached (leafTruth chronoDates.format [0] [("d", "2024-01-05")] byDate.keys)
        (.and [.leaf ⟨0, .eq, .date32 19727⟩]) q →
      (pathText [0] [("d", "2024-01-05")] byDate.keys q.col).isSome = true →
      ∀ d, q.value = .date32 d → -96465292 ≤ d.toInt ∧ d.toInt ≤ 95026236 :=
  have hattnums : resolvePartitionAttnums oneDate byDate.columns = .ok [0] := by decide
  ⟨hattnums, (pruning_returns_iff chronoDates hattnums [("d", "2024-01-05")]
    [.leaf ⟨0, .eq, .date32 19727⟩]).mp ⟨true, by decide⟩⟩

/-- The qual `d = '-infinity'` is pushed, and no blob of a table partitioned by `d` can be
pruned with it. -/
theorem minus_infinity_panics :
    walkQuals [.opExpr 1093 [.var dateOid 1 0,
        .const dateOid (some (.scalar (.date Int32.minValue)))]] =
      [.leaf ⟨0, .eq, .date32 (-2147472691)⟩] ∧
    resolvePartitionAttnums oneDate byDate.columns = .ok [0] ∧
    partitionValuesFromPath "d=2024-01-05/part.parquet" byDate.keys = .ok [("d", "2024-01-05")] ∧
    ∀ dates : NaiveDates, -100000000 ≤ dates.first →
      evaluatePartitionQualsAgainstBlob dates.format [0] [("d", "2024-01-05")] byDate.keys
          [.leaf ⟨0, .eq, .date32 (-2147472691)⟩] =
        .error (.panic "`NaiveDate + TimeDelta` overflowed") := by
  refine ⟨by rfl, by decide, by decide, fun dates hfirst => ?_⟩
  have hday : (-2147472691 : Int32).toInt = -2147472691 := by decide
  have hnone : dates.format (-2147472691) = none :=
    dates.format_eq_none_iff.mpr fun hrange => by omega
  rw [evaluatePartitionQualsAgainstBlob, evalAllPartitionExprs, evalOnePartitionExpr]
  have hleaf : evalPartitionLeaf dates.format [0] [("d", "2024-01-05")] byDate.keys
      ⟨0, .eq, .date32 (-2147472691)⟩ = .error (.panic "`NaiveDate + TimeDelta` overflowed") := by
    simp [evalPartitionLeaf, byDate, partitionLiteral, hnone, bind, Except.bind]
  rw [hleaf]
  rfl

end ParquetAzureFdw
