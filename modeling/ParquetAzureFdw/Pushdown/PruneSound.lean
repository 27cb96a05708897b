/-
# What row-group pruning may drop

Statistics are valid when every value of the chunk that is not NULL lies between the
minimum and the maximum, whether or not these are attained, and the counts of values and
NULLs are exact.  Over columns that are no floats, pruning by valid statistics is sound:
a row group with a row on which every pushed expression is true is kept
(`pruneRowGroups_keeps_matching`).

The statistics of a float column bound its values other than NaN, while Postgres orders
NaN above every number.  A NaN may then satisfy `>`, `>=` or `<>` in a group whose
maximum says that no row can, and the group is dropped (`float_verdict_sound_iff`).
-/

import ParquetAzureFdw.Scan.Stream

namespace ParquetAzureFdw

open ThreeValued

/-! ### Valid statistics -/

/-- Between the bounds that are there. -/
def Within {α : Type} [Ord α] (mn mx : Option α) (x : α) : Prop :=
  (∀ m, mn = some m → (compare m x).isLE) ∧ ∀ m, mx = some m → (compare x m).isLE

/-- Between the bounds that are there and are no NaN, for a float that is none. -/
def FloatWithin (width infinity : ℕ) (mn mx : Option ℕ) (x : ℕ) : Prop :=
  ∀ k, ieeeKey? width infinity x = some k →
    (∀ m l, mn = some m → ieeeKey? width infinity m = some l → l ≤ k) ∧
    ∀ m u, mx = some m → ieeeKey? width infinity m = some u → k ≤ u

/-- The number that parquet stores for the value: integers, days and microseconds. -/
def ArrowValue.stored? : ArrowValue → Option ℤ
  | .date32 v => some v.toInt
  | .timestamp v => some v.toInt
  | x => x.int?

/-- The value is one the bounds allow for. -/
def StatBounds.Covers : StatBounds → ArrowValue → Prop
  | .int32 mn mx, x =>
    ∀ n, x.stored? = some n → Within (mn.map Int32.toInt) (mx.map Int32.toInt) n
  | .int64 mn mx, x =>
    ∀ n, x.stored? = some n → Within (mn.map Int64.toInt) (mx.map Int64.toInt) n
  | .boolean mn mx, .boolean v => Within mn mx v
  | .byteArray mn mx, .utf8 v => Within mn mx (utf8Bytes v)
  | .byteArray mn mx, .binary v => Within mn mx v
  | .float mn mx, .float32 v =>
    FloatWithin 32 0x7f800000 (mn.map UInt32.toNat) (mx.map UInt32.toNat) v.toNat
  | .double mn mx, .float64 v =>
    FloatWithin 64 0x7ff0000000000000 (mn.map UInt64.toNat) (mx.map UInt64.toNat) v.toNat
  | _, _ => True

/-- The metadata of a chunk is true of its values. -/
structure ColumnChunk.Valid (col : ColumnChunk) (values : List (Option ArrowValue)) : Prop where
  num_values : col.numValues = values.length
  null_count : ∀ s n, col.statistics = some s → s.nullCount = some n → n = values.count none
  bounds : ∀ s, col.statistics = some s → ∀ v, some v ∈ values → s.bounds.Covers v

/-- The metadata of a row group is true of its rows. -/
def RowGroup.StatsValid {types : List DataType} (g : RowGroup types) : Prop :=
  ∀ (i : ℕ) (col : ColumnChunk), g.columns[i]? = some col → col.Valid (g.rows.map (·.cell i))

/-! ### When an expression is true -/

/-- The order between a value of a column and a literal.  A column of timestamps has values in
SQL when its unit is the microsecond: `arrow_value_to_datum` refuses the others. -/
def DataType.sqlCompare (ty : DataType) (x lit : ArrowValue) : Option Ordering :=
  match ty with
  | .timestamp .second _ | .timestamp .millisecond _ | .timestamp .nanosecond _ => none
  | _ => x.wideCompare lit

/-- The expression is true on the row. -/
def PushedExpr.TrueOn {types : List DataType} (e : PushedExpr) (r : TypedRow types) : Prop :=
  e.truth (fun q => q.sqlBy (types.getD q.col (.other "")).sqlCompare (r.cell q.col)) = some true

/-- No column of the tree is a float. -/
def PushedExpr.OverNonFloats (types : List DataType) (e : PushedExpr) : Prop :=
  ∀ q ∈ e.leaves, types[q.col]? ≠ some .float32 ∧ types[q.col]? ≠ some .float64

theorem DataType.wideCompare_of_sqlCompare {ty : DataType} {x lit : ArrowValue} {o : Ordering}
    (h : ty.sqlCompare x lit = some o) : x.wideCompare lit = some o := by
  unfold DataType.sqlCompare at h
  split at h
  · cases h
  · cases h
  · cases h
  · exact h

/-! ### Comparisons -/

section Verdict

variable {α κ : Type} {key? : α → Option κ}

/-- A comparison that is defined where both sides have a key. -/
def keyedCmp [Ord κ] (key? : α → Option κ) (a b : α) : Option Ordering := do
  let x ← key? a
  let y ← key? b
  return compare x y

theorem keyedCmp_eq_some [Ord κ] {a b : α} {o : Ordering} :
    keyedCmp key? a b = some o ↔ ∃ x y, key? a = some x ∧ key? b = some y ∧ compare x y = o := by
  simp only [keyedCmp, Option.bind_eq_bind, Option.bind_eq_some_iff, Option.pure_def,
    Option.some.injEq]
  exact ⟨fun ⟨x, hx, y, hy, h⟩ => ⟨x, y, hx, hy, h⟩, fun ⟨x, y, hx, hy, h⟩ => ⟨x, hx, y, hy, h⟩⟩

/-- A comparison of a bound with the literal. -/
theorem keyedCmp_right [Ord κ] {a lit : α} {l : κ} {o : Ordering} (hlit : key? lit = some l)
    (h : keyedCmp key? a lit = some o) : ∃ k, key? a = some k ∧ compare k l = o := by
  obtain ⟨k, l', hk, hl', hcmp⟩ := keyedCmp_eq_some.mp h
  obtain rfl := Option.some.inj (hlit.symm.trans hl')
  exact ⟨k, hk, hcmp⟩

/-- A comparison of the literal with a bound. -/
theorem keyedCmp_left [Ord κ] {lit b : α} {l : κ} {o : Ordering} (hlit : key? lit = some l)
    (h : keyedCmp key? lit b = some o) : ∃ k, key? b = some k ∧ compare l k = o := by
  obtain ⟨l', k, hl', hk, hcmp⟩ := keyedCmp_eq_some.mp h
  obtain rfl := Option.some.inj (hlit.symm.trans hl')
  exact ⟨k, hk, hcmp⟩

/-- What `cannotMatch` says of the literal and the bounds. -/
def Excludes [Ord κ] (key? : α → Option κ) (lit mn mx : α) : PushedOp → Prop
  | .eq => keyedCmp key? lit mn = some .lt ∨ keyedCmp key? lit mx = some .gt
  | .ne => keyedCmp key? mn mx = some .eq ∧ keyedCmp key? lit mn = some .eq
  | .lt => keyedCmp key? mn lit = some .gt ∨ keyedCmp key? mn lit = some .eq
  | .le => keyedCmp key? mn lit = some .gt
  | .gt => keyedCmp key? mx lit = some .lt ∨ keyedCmp key? mx lit = some .eq
  | .ge => keyedCmp key? mx lit = some .lt
  | .isNull | .isNotNull => False

theorem cmpVerdict_eq_cannotMatch [Ord κ] {op : PushedOp} {lit : α} {mn mx : Option α} :
    cmpVerdict (keyedCmp key?) op lit mn mx = .cannotMatch ↔
      ∃ m m', mn = some m ∧ mx = some m' ∧ Excludes key? lit m m' op := by
  cases mn with
  | none => simp [cmpVerdict]
  | some m =>
    cases mx with
    | none => simp [cmpVerdict]
    | some m' => cases op <;> simp [cmpVerdict, Excludes, or_iff_not_imp_left]

/-- **No value between the bounds satisfies a comparison that they exclude.** -/
theorem Excludes.not_holds [Ord κ] [Std.TransOrd κ] {op : PushedOp} {lit mn mx : α}
    (h : Excludes key? lit mn mx op) {x l : κ} (hlit : key? lit = some l)
    (hmin : ∀ k, key? mn = some k → (compare k x).isLE)
    (hmax : ∀ k, key? mx = some k → (compare x k).isLE) : op.holds (compare x l) = false := by
  cases op with
  | eq =>
    rcases h with h | h
    · obtain ⟨k, hk, hlt⟩ := keyedCmp_left hlit h
      have habove := Std.TransCmp.lt_of_lt_of_isLE hlt (hmin k hk)
      simp [PushedOp.holds, Std.OrientedCmp.gt_of_lt habove]
    · obtain ⟨k, hk, hgt⟩ := keyedCmp_left hlit h
      have hbelow := Std.TransCmp.lt_of_isLE_of_lt (hmax k hk) (Std.OrientedCmp.lt_of_gt hgt)
      simp [PushedOp.holds, hbelow]
  | ne =>
    obtain ⟨k, u, hk, hu, heq⟩ := keyedCmp_eq_some.mp h.1
    obtain ⟨k', hk', heq'⟩ := keyedCmp_left hlit h.2
    obtain rfl := Option.some.inj (hk.symm.trans hk')
    -- both bounds are the literal, so the value is too
    have hle : (compare x l).isLE := by
      have hxk : (compare x k).isLE := Std.TransCmp.congr_right heq ▸ hmax u hu
      exact Std.TransCmp.congr_right (Std.OrientedCmp.eq_symm heq') ▸ hxk
    have hge : (compare l x).isLE := Std.TransCmp.congr_left heq' ▸ hmin k hk
    simp [PushedOp.holds, Std.OrientedCmp.isLE_antisymm hle hge]
  | lt =>
    have hge : (compare l x).isLE := by
      rcases h with h | h
      · obtain ⟨k, hk, hgt⟩ := keyedCmp_right hlit h
        rw [Std.TransCmp.lt_of_lt_of_isLE (Std.OrientedCmp.lt_of_gt hgt) (hmin k hk)]
        rfl
      · obtain ⟨k, hk, heq⟩ := keyedCmp_right hlit h
        exact Std.TransCmp.congr_left heq ▸ hmin k hk
    have hnot := Std.OrientedCmp.not_lt_of_isLE hge
    simpa [PushedOp.holds] using hnot
  | le =>
    obtain ⟨k, hk, hgt⟩ := keyedCmp_right hlit h
    have habove := Std.TransCmp.lt_of_lt_of_isLE (Std.OrientedCmp.lt_of_gt hgt) (hmin k hk)
    simp [PushedOp.holds, Std.OrientedCmp.gt_of_lt habove]
  | gt =>
    have hle : (compare x l).isLE := by
      rcases h with h | h
      · obtain ⟨k, hk, hlt⟩ := keyedCmp_right hlit h
        rw [Std.TransCmp.lt_of_isLE_of_lt (hmax k hk) hlt]
        rfl
      · obtain ⟨k, hk, heq⟩ := keyedCmp_right hlit h
        exact Std.TransCmp.congr_right heq ▸ hmax k hk
    cases hcmp : compare x l <;> simp_all [PushedOp.holds]
  | ge =>
    obtain ⟨k, hk, hlt⟩ := keyedCmp_right hlit h
    have hbelow := Std.TransCmp.lt_of_isLE_of_lt (hmax k hk) hlt
    simp [PushedOp.holds, hbelow]
  | isNull | isNotNull => exact h.elim

end Verdict

/-- Values compare by what parquet stores for them. -/
theorem ArrowValue.wideCompare_stored {x lit : ArrowValue} {n m : ℤ} {o : Ordering}
    (hx : x.stored? = some n) (hlit : lit.stored? = some m) (h : x.wideCompare lit = some o) :
    compare n m = o := by
  cases x <;> cases lit <;>
    simp_all [wideCompare, stored?, int?, sqlCompare, compareExact, Int32.compare_eq_compare_toInt,
      Int64.compare_eq_compare_toInt]

/-- What compares with a stored number is one. -/
theorem ArrowValue.stored_of_wideCompare {x lit : ArrowValue} {m : ℤ} {o : Ordering}
    (hlit : lit.stored? = some m) (h : x.wideCompare lit = some o) : ∃ n, x.stored? = some n := by
  cases x <;> cases lit <;> simp_all [wideCompare, stored?, int?, sqlCompare, compareExact]

/-- **Bounds on the stored numbers exclude rightly.** -/
theorem stored_not_holds {α : Type} [Ord α] {toInt : α → ℤ}
    (hcompare : ∀ a b, compare a b = compare (toInt a) (toInt b)) {op : PushedOp} {a : α}
    {mn mx : Option α} {x lit : ArrowValue} {o : Ordering}
    (hverdict : cmpVerdict (fun a b => some (compare a b)) op a mn mx = .cannotMatch)
    (hcovers : ∀ n, x.stored? = some n → Within (mn.map toInt) (mx.map toInt) n)
    (hlit : lit.stored? = some (toInt a)) (hcmp : x.wideCompare lit = some o) :
    op.holds o = false := by
  have hkeyed : (fun a b : α => some (compare a b)) = keyedCmp fun a => some (toInt a) := by
    funext a b
    rw [hcompare]
    rfl
  rw [hkeyed] at hverdict
  obtain ⟨m, m', rfl, rfl, hexcludes⟩ := cmpVerdict_eq_cannotMatch.mp hverdict
  obtain ⟨n, hn⟩ := ArrowValue.stored_of_wideCompare hlit hcmp
  obtain ⟨hmin, hmax⟩ := hcovers n hn
  rw [← ArrowValue.wideCompare_stored hn hlit hcmp]
  refine hexcludes.not_holds rfl (fun k hk => ?_) fun k hk => ?_
  · exact hmin k hk
  · exact hmax k hk

theorem bytes_not_holds {op : PushedOp} {a : String} {mn mx : Option (List UInt8)} {x : ArrowValue}
    {o : Ordering}
    (hverdict : cmpVerdict (fun a b => some (compare a b)) op (utf8Bytes a) mn mx = .cannotMatch)
    (hcovers : (StatBounds.byteArray mn mx).Covers x)
    (hcmp : x.wideCompare (.utf8 a) = some o) : op.holds o = false := by
  have hkeyed : (fun a b : List UInt8 => some (compare a b)) = keyedCmp some := rfl
  rw [hkeyed] at hverdict
  obtain ⟨m, m', rfl, rfl, hexcludes⟩ := cmpVerdict_eq_cannotMatch.mp hverdict
  cases x with
  | utf8 v =>
    obtain rfl := Option.some.inj hcmp
    refine hexcludes.not_holds rfl (fun k hk => hcovers.1 k hk) fun k hk => hcovers.2 k hk
  | _ => cases hcmp

theorem bool_not_holds {op : PushedOp} {a : Bool} {mn mx : Option Bool} {x : ArrowValue}
    {o : Ordering} (hverdict : boolVerdict op a mn mx = .cannotMatch)
    (hcovers : (StatBounds.boolean mn mx).Covers x)
    (hcmp : x.wideCompare (.boolean a) = some o) : op.holds o = false := by
  cases x with
  | boolean v =>
    obtain rfl := Option.some.inj hcmp
    rcases mn with _ | mn
    · cases hverdict
    · rcases mx with _ | mx
      · cases hverdict
      · have hmin := hcovers.1 mn rfl
        have hmax := hcovers.2 mx rfl
        cases op with
        | eq | ne => clear hcovers hcmp; revert a mn mx v; decide
        | _ => cases hverdict
  | _ => cases hcmp

/-! ### Floats -/

section Floats

variable {width infinity bits : ℕ}

theorem pgFloatKey_of_number {k : ℤ} (h : ieeeKey? width infinity bits = some k) :
    pgFloatKey width infinity bits = k := by
  unfold ieeeKey? at h
  unfold pgFloatKey
  split_ifs at h ⊢ <;> exact Option.some.inj h

theorem pgFloatKey_of_nan (h : ieeeKey? width infinity bits = none) :
    pgFloatKey width infinity bits = 2 ^ width := by
  unfold ieeeKey? at h
  unfold pgFloatKey
  split_ifs at h ⊢
  rfl

/-- Every number is below the NaN of Postgres. -/
theorem ieeeKey?_lt {k : ℤ} (h : ieeeKey? width infinity bits = some k) : k < 2 ^ width := by
  have hpow : 2 ^ (width - 1) ≤ 2 ^ width := Nat.pow_le_pow_right (by decide) (Nat.sub_le width 1)
  have hpos : 0 < 2 ^ width := Nat.two_pow_pos width
  zify at hpow hpos
  unfold ieeeKey? at h
  split_ifs at h with hnan hsign <;> obtain rfl := Option.some.inj h
  · zify at hsign
    omega
  · zify at hsign
    omega

/-- The bounds rule the comparison out for every number, and a NaN satisfies it. -/
def NanAbove (width infinity lit mn mx : ℕ) : PushedOp → Prop
  | .ne => ∃ k, ieeeKey? width infinity lit = some k ∧ ieeeKey? width infinity mn = some k ∧
      ieeeKey? width infinity mx = some k
  | .gt => ∃ l u, ieeeKey? width infinity lit = some l ∧ ieeeKey? width infinity mx = some u ∧ u ≤ l
  | .ge => ∃ l u, ieeeKey? width infinity lit = some l ∧ ieeeKey? width infinity mx = some u ∧ u < l
  | _ => False

/-- It is so exactly when the bounds exclude an operator that holds of a greater value. -/
theorem nanAbove_iff {lit mn mx : ℕ} {op : PushedOp} :
    NanAbove width infinity lit mn mx op ↔
      Excludes (ieeeKey? width infinity) lit mn mx op ∧ op.holds .gt = true := by
  cases op with
  | ne =>
    simp only [NanAbove, Excludes, keyedCmp_eq_some, compare_eq_iff_eq, PushedOp.holds]
    constructor
    · rintro ⟨k, hlit, hmn, hmx⟩
      exact ⟨⟨⟨k, k, hmn, hmx, rfl⟩, k, k, hlit, hmn, rfl⟩, rfl⟩
    · rintro ⟨⟨⟨k, u, hmn, hmx, rfl⟩, l, k', hlit, hmn', rfl⟩, -⟩
      exact ⟨k, hmn.symm.trans hmn' ▸ hlit, hmn, hmx⟩
  | gt =>
    simp only [NanAbove, Excludes, keyedCmp_eq_some, compare_eq_iff_eq, compare_lt_iff_lt,
      PushedOp.holds]
    constructor
    · rintro ⟨l, u, hlit, hmx, hle⟩
      refine ⟨?_, rfl⟩
      rcases hle.lt_or_eq with hlt | heq
      · exact .inl ⟨u, l, hmx, hlit, hlt⟩
      · exact .inr ⟨u, l, hmx, hlit, heq⟩
    · rintro ⟨⟨u, l, hmx, hlit, h⟩ | ⟨u, l, hmx, hlit, h⟩, -⟩
      · exact ⟨l, u, hlit, hmx, h.le⟩
      · exact ⟨l, u, hlit, hmx, h.le⟩
  | ge =>
    simp only [NanAbove, Excludes, keyedCmp_eq_some, compare_lt_iff_lt, PushedOp.holds]
    exact ⟨fun ⟨l, u, hlit, hmx, h⟩ => ⟨⟨u, l, hmx, hlit, h⟩, rfl⟩,
      fun ⟨⟨u, l, hmx, hlit, h⟩, _⟩ => ⟨l, u, hlit, hmx, h⟩⟩
  | _ => simp [NanAbove, Excludes, PushedOp.holds]

/-- Bounds exclude nothing when the literal is a NaN. -/
theorem Excludes.literal_number {lit mn mx : ℕ} {op : PushedOp}
    (h : Excludes (ieeeKey? width infinity) lit mn mx op) :
    ∃ l, ieeeKey? width infinity lit = some l := by
  cases op with
  | eq => rcases h with h | h <;> exact (keyedCmp_eq_some.mp h).imp fun _ ⟨_, hl, _⟩ => hl
  | ne => exact (keyedCmp_eq_some.mp h.2).imp fun _ ⟨_, hl, _⟩ => hl
  | lt | gt =>
    rcases h with h | h <;>
    · obtain ⟨_, l, -, hl, -⟩ := keyedCmp_eq_some.mp h
      exact ⟨l, hl⟩
  | le | ge =>
    obtain ⟨_, l, -, hl, -⟩ := keyedCmp_eq_some.mp h
    exact ⟨l, hl⟩
  | isNull | isNotNull => exact h.elim

/-- The verdict on floats of either width, given their bits. -/
theorem floatVerdict_eq_cannotMatch {α : Type} {toNat : α → ℕ} {op : PushedOp} {lit : α}
    {mn mx : Option α} :
    cmpVerdict (fun a b => floatPartialCmp width infinity (toNat a) (toNat b)) op lit mn mx =
        .cannotMatch ↔
      ∃ m m', mn = some m ∧ mx = some m' ∧
        Excludes (ieeeKey? width infinity) (toNat lit) (toNat m) (toNat m') op := by
  have hkeyed : (fun a b => floatPartialCmp width infinity (toNat a) (toNat b)) =
      keyedCmp fun a => ieeeKey? width infinity (toNat a) := rfl
  rw [hkeyed, cmpVerdict_eq_cannotMatch]
  cases op <;> rfl

/-- A NaN compares above a number. -/
theorem compare_nan {x lit : ℕ} {l : ℤ} (hnan : ieeeKey? width infinity x = none)
    (hlit : ieeeKey? width infinity lit = some l) :
    compare (pgFloatKey width infinity x) (pgFloatKey width infinity lit) = .gt := by
  rw [pgFloatKey_of_nan hnan, pgFloatKey_of_number hlit]
  exact compare_gt_iff_gt.mpr (ieeeKey?_lt hlit)

/-- **What a float satisfies although the bounds exclude it: it is a NaN above them.** -/
theorem float_holds_iff {lit mn mx x : ℕ} {op : PushedOp}
    (h : Excludes (ieeeKey? width infinity) lit mn mx op)
    (hwithin : FloatWithin width infinity (some mn) (some mx) x) :
    op.holds (compare (pgFloatKey width infinity x) (pgFloatKey width infinity lit)) = true ↔
      ieeeKey? width infinity x = none ∧ NanAbove width infinity lit mn mx op := by
  obtain ⟨l, hlit⟩ := h.literal_number
  cases hx : ieeeKey? width infinity x with
  | none =>
    rw [compare_nan hx hlit, nanAbove_iff]
    exact ⟨fun hgt => ⟨rfl, h, hgt⟩, fun hnan => hnan.2.2⟩
  | some k =>
    obtain ⟨hmin, hmax⟩ := hwithin k hx
    have hfalse := h.not_holds (x := k) hlit
      (fun k' hk' => Std.isLE_compare.mpr (hmin mn k' rfl hk'))
      fun k' hk' => Std.isLE_compare.mpr (hmax mx k' rfl hk')
    rw [pgFloatKey_of_number hx, pgFloatKey_of_number hlit, hfalse]
    simp

end Floats

/-! ### Leaves -/

/-- The value is a NaN that satisfies the comparison, above bounds that exclude it. -/
def PushedQual.NanEscapes (q : PushedQual) : StatBounds → ArrowValue → Prop
  | .float (some mn) (some mx), .float32 x =>
    ∃ lit, q.value = .f32 lit ∧ ieeeKey? 32 0x7f800000 x.toNat = none ∧
      NanAbove 32 0x7f800000 lit.toNat mn.toNat mx.toNat q.op
  | .double (some mn) (some mx), .float64 x =>
    ∃ lit, q.value = .f64 lit ∧ ieeeKey? 64 0x7ff0000000000000 x.toNat = none ∧
      NanAbove 64 0x7ff0000000000000 lit.toNat mn.toNat mx.toNat q.op
  | _, _ => False

/-- **A value satisfies a comparison that its bounds exclude only as a NaN above them.** -/
theorem nanEscapes_of_holds {q : PushedQual} {bounds : StatBounds} {x lit : ArrowValue}
    {o : Ordering} (hverdict : compareWithBounds q.op q.value bounds = .cannotMatch)
    (hcovers : bounds.Covers x) (hlit : q.value.toValue = some lit)
    (hcmp : x.wideCompare lit = some o) (hholds : q.op.holds o = true) : q.NanEscapes bounds x := by
  obtain ⟨col, op, value⟩ := q
  have absurd_of : op.holds o = false → PushedQual.NanEscapes ⟨col, op, value⟩ bounds x := by
    intro hfalse
    exact absurd (hfalse.symm.trans hholds) Bool.false_ne_true
  cases value with
  | null => cases hlit
  | bool v =>
    obtain rfl := Option.some.inj hlit
    cases bounds with
    | boolean mn mx => exact absurd_of (bool_not_holds hverdict hcovers hcmp)
    | _ => cases hverdict
  | i16 v =>
    obtain rfl := Option.some.inj hlit
    cases bounds with
    | int32 mn mx =>
      have hstored : (ArrowValue.int16 v).stored? = some v.toInt32.toInt := by
        simp [ArrowValue.stored?, ArrowValue.int?]
      exact absurd_of
        (stored_not_holds Int32.compare_eq_compare_toInt hverdict hcovers hstored hcmp)
    | _ => cases hverdict
  | i32 v | date32 v =>
    obtain rfl := Option.some.inj hlit
    cases bounds with
    | int32 mn mx =>
      exact absurd_of (stored_not_holds Int32.compare_eq_compare_toInt hverdict hcovers rfl hcmp)
    | _ => cases hverdict
  | i64 v | timestampMicros v =>
    obtain rfl := Option.some.inj hlit
    cases bounds with
    | int64 mn mx =>
      exact absurd_of (stored_not_holds Int64.compare_eq_compare_toInt hverdict hcovers rfl hcmp)
    | _ => cases hverdict
  | utf8 v =>
    obtain rfl := Option.some.inj hlit
    cases bounds with
    | byteArray mn mx => exact absurd_of (bytes_not_holds hverdict hcovers hcmp)
    | _ => cases hverdict
  | f32 v =>
    obtain rfl := Option.some.inj hlit
    cases bounds with
    | float mn mx =>
      obtain ⟨m, m', rfl, rfl, hexcludes⟩ := floatVerdict_eq_cannotMatch.mp hverdict
      cases x with
      | float32 x =>
        obtain rfl := Option.some.inj hcmp
        exact ⟨v, rfl, (float_holds_iff hexcludes hcovers).mp hholds⟩
      | _ => cases hcmp
    | _ => cases hverdict
  | f64 v =>
    obtain rfl := Option.some.inj hlit
    cases bounds with
    | double mn mx =>
      obtain ⟨m, m', rfl, rfl, hexcludes⟩ := floatVerdict_eq_cannotMatch.mp hverdict
      cases x with
      | float64 x =>
        obtain rfl := Option.some.inj hcmp
        exact ⟨v, rfl, (float_holds_iff hexcludes hcovers).mp hholds⟩
      | _ => cases hcmp
    | _ => cases hverdict
  | decimal128 v p s => cases bounds <;> cases hverdict

/-- What a leaf needs to know of a chunk to rule a row group out. -/
def RulesOut (q : PushedQual) (col : ColumnChunk) (s : Statistics) : Prop :=
  match q.op with
  | .isNull => s.nullCount = some 0
  | .isNotNull => ∃ n, s.nullCount = some n ∧ col.numValues ≤ n
  | op => compareWithBounds op q.value s.bounds = .cannotMatch

theorem evaluateLeafAgainstRg_eq_cannotMatch {numFields : ℕ} {rg : List ColumnChunk}
    {q : PushedQual} :
    evaluateLeafAgainstRg numFields rg q = .cannotMatch ↔
      q.col < numFields ∧ ∃ col s, rg[q.col]? = some col ∧ col.statistics = some s ∧
        RulesOut q col s := by
  obtain ⟨c, op, value⟩ := q
  unfold evaluateLeafAgainstRg
  by_cases hfields : numFields ≤ c
  · simp [hfields]
  · cases hcol : rg[c]? with
    | none => simp [hfields]
    | some col =>
      cases hstats : col.statistics with
      | none => simp [hfields, hstats]
      | some s =>
        cases op with
        | isNull =>
          rcases hcount : s.nullCount with _ | _ | n <;>
            simp [hfields, hstats, RulesOut, hcount, Nat.not_le.mp hfields]
        | isNotNull =>
          rcases hcount : s.nullCount with _ | n
          · simp [hfields, hstats, RulesOut, hcount]
          · by_cases hle : col.numValues ≤ n <;>
              simp [hfields, hstats, RulesOut, hcount, hle, Nat.not_le.mp hfields]
        | _ => simp [hfields, hstats, RulesOut, Nat.not_le.mp hfields]

theorem RulesOut.comparison {q : PushedQual} {col : ColumnChunk} {s : Statistics}
    (h : RulesOut q col s) (hop : q.op.isComparison = true) :
    compareWithBounds q.op q.value s.bounds = .cannotMatch := by
  obtain ⟨c, op, value⟩ := q
  cases op with
  | isNull | isNotNull => cases hop
  | _ => exact h

theorem RulesOut.of_comparison {q : PushedQual} {col : ColumnChunk} {s : Statistics}
    (hop : q.op.isComparison = true)
    (h : compareWithBounds q.op q.value s.bounds = .cannotMatch) : RulesOut q col s := by
  obtain ⟨c, op, value⟩ := q
  cases op with
  | isNull | isNotNull => cases hop
  | _ => exact h

/-- A null test that is ruled out is false on every row. -/
theorem RulesOut.null_test_false {q : PushedQual} {col : ColumnChunk} {s : Statistics}
    {values : List (Option ArrowValue)} {cmp : ArrowValue → ArrowValue → Option Ordering}
    (h : RulesOut q col s) (hop : q.op.isComparison = false) (hvalid : col.Valid values)
    (hstats : col.statistics = some s) {v : Option ArrowValue} (hv : v ∈ values) :
    q.sqlBy cmp v = some false := by
  obtain ⟨c, op, value⟩ := q
  cases op with
  | isNull =>
    have hcount : 0 = values.count none := hvalid.null_count s 0 hstats h
    have hnone : v ≠ none := by
      rintro rfl
      exact absurd hcount (List.count_pos_iff.mpr hv).ne
    simpa [PushedQual.sqlBy, Option.isSome_iff_ne_none] using hnone
  | isNotNull =>
    obtain ⟨n, hn, hle⟩ := h
    have hcount := hvalid.null_count s n hstats hn
    have hall : values.count none = values.length := by
      have hbound := List.count_le_length (a := (none : Option ArrowValue)) (l := values)
      have hnum := hvalid.num_values
      omega
    have hnone : none = v := List.count_eq_length.mp hall v hv
    simp [PushedQual.sqlBy, ← hnone]
  | _ => cases hop

section Group

variable {types : List DataType} {g : RowGroup types} {r : TypedRow types} {q : PushedQual}

/-- **A row that satisfies a leaf is in a group that the leaf rules out only with a NaN.** -/
theorem nanEscapes_of_true_row (hvalid : g.StatsValid) (hr : r ∈ g.rows)
    (hverdict : evaluateLeafAgainstRg types.length g.columns q = .cannotMatch)
    (htrue : q.sqlBy ArrowValue.wideCompare (r.cell q.col) = some true) :
    ∃ col s x, g.columns[q.col]? = some col ∧ col.statistics = some s ∧ r.cell q.col = some x ∧
      q.NanEscapes s.bounds x := by
  obtain ⟨-, col, s, hcol, hstats, hrules⟩ := evaluateLeafAgainstRg_eq_cannotMatch.mp hverdict
  have hchunk := hvalid q.col col hcol
  have hcell : r.cell q.col ∈ g.rows.map (·.cell q.col) := List.mem_map.mpr ⟨r, hr, rfl⟩
  cases hop : q.op.isComparison with
  | true =>
    obtain ⟨x, lit, o, hx, hlit, hcmp, hholds⟩ := (PushedQual.sqlBy_eq_true hop).mp htrue
    have hcovers := hchunk.bounds s hstats x (hx ▸ hcell)
    exact ⟨col, s, x, hcol, hstats, hx,
      nanEscapes_of_holds (hrules.comparison hop) hcovers hlit hcmp hholds⟩
  | false =>
    have hfalse : q.sqlBy ArrowValue.wideCompare (r.cell q.col) = some false :=
      hrules.null_test_false hop hchunk hstats hcell
    rw [hfalse] at htrue
    cases htrue

/-- A column that is no float has no NaN. -/
theorem not_nanEscapes {bounds : StatBounds} {x : ArrowValue}
    (hfloat : types[q.col]? ≠ some .float32 ∧ types[q.col]? ≠ some .float64)
    (hx : r.cell q.col = some x) : ¬ q.NanEscapes bounds x := by
  intro hnan
  have htyped := rowTyped_getD r.typed q.col (.other "")
  rw [← TypedRow.cell, hx] at htyped
  rw [List.getD_eq_getElem?_getD] at htyped
  unfold PushedQual.NanEscapes at hnan
  split at hnan
  on_goal 3 => exact hnan
  all_goals
    cases hty : types[q.col]? with
    | none => rw [hty] at htyped; cases htyped
    | some ty =>
      rw [hty] at htyped hfloat
      cases ty <;> simp_all [cellTyped, ArrowValue.hasType]

end Group

/-! ### Trees and files -/

section Tree

variable {numFields : ℕ} {rg : List ColumnChunk} {t : PushedQual → Truth}

/-- The verdict on a tree is as good as those on its leaves. -/
theorem evaluateAgainstRg_sound (e : PushedExpr)
    (hleaf : ∀ q ∈ e.leaves, evaluateLeafAgainstRg numFields rg q = .cannotMatch → t q ≠ some true)
    (h : evaluateAgainstRg numFields rg e = .cannotMatch) : e.truth t ≠ some true := by
  induction e using PushedExpr.induction with
  | leaf q =>
    rw [PushedExpr.truth_leaf]
    rw [evaluateAgainstRg] at h
    exact hleaf q (by simp [PushedExpr.leaves]) h
  | and xs ih =>
    rw [evaluateAgainstRg, evaluateAllAgainstRg_eq_map] at h
    split_ifs at h with hcannot
    obtain ⟨x, hx, hverdict⟩ := List.mem_map.mp hcannot
    rw [PushedExpr.leaves, PushedExpr.forall_leavesList] at hleaf
    intro htrue
    rw [PushedExpr.truth_and, all_eq_true] at htrue
    exact ih x hx (hleaf x hx) hverdict (htrue _ (List.mem_map_of_mem hx))
  | or xs ih =>
    rw [evaluateAgainstRg, evaluateAllAgainstRg_eq_map] at h
    split_ifs at h with hcan hind
    rw [PushedExpr.leaves, PushedExpr.forall_leavesList] at hleaf
    intro htrue
    rw [PushedExpr.truth_or, any_eq_true] at htrue
    obtain ⟨x, hx, hxtrue⟩ := List.mem_map.mp htrue
    -- no child can match or is undetermined, so this one cannot match
    have hverdict : evaluateAgainstRg numFields rg x = .cannotMatch := by
      cases hv : evaluateAgainstRg numFields rg x with
      | cannotMatch => rfl
      | canMatch => exact absurd (List.mem_map.mpr ⟨x, hx, hv⟩) hcan
      | indeterminate => exact absurd (List.mem_map.mpr ⟨x, hx, hv⟩) hind
    exact ih x hx (hleaf x hx) hverdict hxtrue
  | not x ih =>
    rw [evaluateAgainstRg] at h
    cases h

theorem surveyRowGroup_survives {es : List PushedExpr} :
    (surveyRowGroup numFields rg es).1 = true ↔
      ∀ e ∈ es, evaluateAgainstRg numFields rg e ≠ .cannotMatch := by
  induction es with
  | nil => simp [surveyRowGroup]
  | cons e es ih =>
    rw [surveyRowGroup, List.forall_mem_cons]
    cases evaluateAgainstRg numFields rg e with
    | cannotMatch => simp
    | canMatch => simpa using ih
    | indeterminate => simpa using ih

theorem mem_pruneRowGroups {rgs : List (List ColumnChunk)} {exprs : List PushedExpr}
    {keep : List ℕ} (h : pruneRowGroups numFields rgs exprs = some keep) {i : ℕ} :
    i ∈ keep ↔ ∃ rg, rgs[i]? = some rg ∧
      ∀ e ∈ exprs, evaluateAgainstRg numFields rg e ≠ .cannotMatch := by
  unfold pruneRowGroups at h
  split_ifs at h
  obtain rfl := Option.some.inj h
  simp only [List.mem_map, List.mem_filter, List.mem_zipIdx_iff_getElem?, surveyRowGroup_survives,
    Prod.exists, exists_eq_right]

end Tree

/-- **A row group with a row on which every expression is true is read.** -/
theorem pruneRowGroups_keeps_matching (file : ParquetFile) (exprs : List PushedExpr)
    (hvalid : ∀ g ∈ file.rowGroups, g.StatsValid)
    (hfloat : ∀ e ∈ exprs, e.OverNonFloats file.types) :
    pruneRowGroups file.types.length (file.rowGroups.map (·.columns)) exprs = none ∨
      ∃ keep, pruneRowGroups file.types.length (file.rowGroups.map (·.columns)) exprs = some keep ∧
        keep.Pairwise (· < ·) ∧ (∀ i ∈ keep, i < file.rowGroups.length) ∧
        ∀ i g, file.rowGroups[i]? = some g → (∃ r ∈ g.rows, ∀ e ∈ exprs, e.TrueOn r) →
          i ∈ keep := by
  cases hprune : pruneRowGroups file.types.length (file.rowGroups.map (·.columns)) exprs with
  | none => exact .inl rfl
  | some keep =>
    refine .inr ⟨keep, rfl, ?_, ?_, ?_⟩
    · exact List.pairwise_lt_range.sublist (pruneRowGroups_sorted hprune)
    · intro i hi
      have hrange := (pruneRowGroups_sorted hprune).subset hi
      simpa using hrange
    · rintro i g hg ⟨r, hr, htrue⟩
      refine (mem_pruneRowGroups hprune).mpr ⟨g.columns, by simp [hg], fun e he hverdict => ?_⟩
      refine evaluateAgainstRg_sound e (fun q hq hleaf hqtrue => ?_) hverdict (htrue e he)
      have hwide : q.sqlBy ArrowValue.wideCompare (r.cell q.col) = some true :=
        PushedQual.sqlBy_mono DataType.wideCompare_of_sqlCompare hqtrue
      obtain ⟨col, s, x, -, -, hx, hnan⟩ :=
        nanEscapes_of_true_row (hvalid g (List.mem_of_getElem? hg)) hr hleaf hwide
      exact not_nanEscapes (hfloat e he q hq) hx hnan

theorem rowTyped_one : rowTyped [.int32] [some (.int32 1)] = true := rfl

/-- A file with two row groups of one integer column, with bounds that are not tight. -/
def twoGroups : ParquetFile where
  types := [.int32]
  rowGroups := [
    ⟨[⟨[some (.int32 1)], rowTyped_one⟩, ⟨[none], rfl⟩], [⟨2, some ⟨some 1, .int32 (some 0) (some 3)⟩⟩]⟩,
    ⟨[⟨[some (.int32 7)], rfl⟩], [⟨1, some ⟨some 0, .int32 (some 5) (some 9)⟩⟩]⟩]

theorem twoGroups_valid : ∀ g ∈ twoGroups.rowGroups, g.StatsValid := by
  -- one integer, and perhaps a NULL, between two bounds
  have hchunk : ∀ {values : List (Option ArrowValue)} {num count : ℕ} {n m v : Int32},
      num = values.length → count = values.count none → (∀ x, some x ∈ values → x = .int32 v) →
      (compare n.toInt v.toInt).isLE = true → (compare v.toInt m.toInt).isLE = true →
      ColumnChunk.Valid ⟨num, some ⟨some count, .int32 (some n) (some m)⟩⟩ values := by
    intro values num count n m v hnum hcount hvalues hn hm
    refine ⟨hnum, ?_, ?_⟩
    · rintro s k hs hk
      obtain rfl := Option.some.inj hs
      exact (Option.some.inj hk).symm.trans hcount
    · rintro s hs x hx
      obtain rfl := Option.some.inj hs
      intro k hk
      rw [hvalues x hx] at hk
      obtain rfl := Option.some.inj hk
      exact ⟨fun _ h => Option.some.inj h ▸ hn, fun _ h => Option.some.inj h ▸ hm⟩
  intro g hg i col hcol
  rcases List.mem_pair.mp hg with rfl | rfl <;> rcases i with _ | i
  · obtain rfl := Option.some.inj hcol
    refine hchunk (v := 1) rfl rfl (fun x hx => ?_) (by decide) (by decide)
    have hx' : some x ∈ [some (ArrowValue.int32 1), none] := hx
    simpa using hx'
  · cases hcol
  · obtain rfl := Option.some.inj hcol
    refine hchunk (v := 7) rfl rfl (fun x hx => ?_) (by decide) (by decide)
    have hx' : some x ∈ [some (ArrowValue.int32 7)] := hx
    simpa using hx'
  · cases hcol

/-- The group with a row above `4` is read, by its index; the other is dropped. -/
theorem twoGroups_keeps_second :
    pruneRowGroups 1 (twoGroups.rowGroups.map (·.columns)) [.leaf ⟨0, .gt, .i16 4⟩] = some [1] ∧
      ∃ keep, pruneRowGroups 1 (twoGroups.rowGroups.map (·.columns)) [.leaf ⟨0, .gt, .i16 4⟩] =
        some keep ∧ 1 ∈ keep := by
  have hprune : pruneRowGroups 1 (twoGroups.rowGroups.map (·.columns)) [.leaf ⟨0, .gt, .i16 4⟩] =
      some [1] := by decide
  refine ⟨hprune, ?_⟩
  have hfloat : ∀ e ∈ [PushedExpr.leaf ⟨0, .gt, .i16 4⟩], e.OverNonFloats twoGroups.types := by
    simp [PushedExpr.OverNonFloats, PushedExpr.leaves, twoGroups]
  have htrue : ∀ e ∈ [PushedExpr.leaf ⟨0, .gt, .i16 4⟩],
      e.TrueOn (⟨[some (.int32 7)], rfl⟩ : TypedRow [.int32]) := by
    simp only [List.mem_singleton, forall_eq, PushedExpr.TrueOn, PushedExpr.truth_leaf]
    decide
  rcases pruneRowGroups_keeps_matching twoGroups _ twoGroups_valid hfloat with
    h | ⟨keep, hkeep, -, -, hmem⟩
  · exact absurd (hprune.symm.trans h) (by simp)
  · exact ⟨keep, hkeep, hmem 1 _ rfl ⟨_, List.mem_singleton_self _, htrue⟩⟩

/-- A NaN of the group satisfies the leaf, above bounds that exclude it. -/
def RowGroup.NanEscapes {types : List DataType} (g : RowGroup types) (q : PushedQual) : Prop :=
  ∃ col s, g.columns[q.col]? = some col ∧ col.statistics = some s ∧
    ∃ r ∈ g.rows, ∃ x, r.cell q.col = some x ∧ q.NanEscapes s.bounds x

/-- A NaN that escapes its bounds satisfies the leaf, which rules it out. -/
theorem PushedQual.NanEscapes.ruled_out {q : PushedQual} {bounds : StatBounds} {x : ArrowValue}
    (h : q.NanEscapes bounds x) :
    q.op.isComparison = true ∧ q.sql (some x) = some true ∧
      compareWithBounds q.op q.value bounds = .cannotMatch := by
  have hop : ∀ {width infinity lit mn mx : ℕ}, NanAbove width infinity lit mn mx q.op →
      q.op.isComparison = true := by
    intro width infinity lit mn mx hnan
    cases hq : q.op <;> rw [hq] at hnan <;> first | rfl | exact hnan.elim
  unfold NanEscapes at h
  split at h
  on_goal 3 => exact h.elim
  -- the same for `real` and `double precision`
  all_goals
    obtain ⟨lit, hlit, hnan, habove⟩ := h
    obtain ⟨hexcludes, hgt⟩ := nanAbove_iff.mp habove
    obtain ⟨l, hl⟩ := hexcludes.literal_number
    refine ⟨hop habove, ?_, ?_⟩
    · rw [← sqlBy_sqlCompare, sqlBy_eq_true (hop habove), hlit]
      exact ⟨_, _, _, rfl, rfl, congrArg some (compare_nan hnan hl), hgt⟩
    · rw [hlit]
      exact floatVerdict_eq_cannotMatch.mpr ⟨_, _, rfl, rfl, hexcludes⟩

theorem ArrowValue.wideCompare_of_sqlCompare {x lit : ArrowValue} {o : Ordering}
    (h : x.sqlCompare lit = some o) : x.wideCompare lit = some o := by
  cases x <;> cases lit <;>
    simp_all [wideCompare, int?, sqlCompare, compareExact, Int16.compare_eq_compare_toInt,
      Int32.compare_eq_compare_toInt, Int64.compare_eq_compare_toInt]

/-- **A group with a row that satisfies a leaf is ruled out exactly when a NaN escapes.** -/
theorem float_verdict_sound_iff {types : List DataType} (g : RowGroup types) (hvalid : g.StatsValid)
    (q : PushedQual) :
    ((∃ r ∈ g.rows, q.sql (r.cell q.col) = some true) →
        evaluateLeafAgainstRg types.length g.columns q ≠ .cannotMatch) ↔ ¬ g.NanEscapes q := by
  constructor
  · rintro hsound ⟨col, s, hcol, hstats, r, hr, x, hx, hnan⟩
    obtain ⟨hop, htrue, hverdict⟩ := hnan.ruled_out
    refine hsound ⟨r, hr, hx ▸ htrue⟩ (evaluateLeafAgainstRg_eq_cannotMatch.mpr ⟨?_, col, s, hcol,
      hstats, ?_⟩)
    · have hlen := r.length_cells
      by_contra hle
      rw [TypedRow.cell, List.getD_eq_default _ _ (by omega)] at hx
      cases hx
    · exact .of_comparison hop hverdict
  · rintro hnan ⟨r, hr, htrue⟩ hverdict
    have hwide : q.sqlBy ArrowValue.wideCompare (r.cell q.col) = some true :=
      PushedQual.sqlBy_mono ArrowValue.wideCompare_of_sqlCompare htrue
    obtain ⟨col, s, x, hcol, hstats, hx, hescapes⟩ := nanEscapes_of_true_row hvalid hr hverdict hwide
    exact hnan ⟨col, s, hcol, hstats, r, hr, x, hx, hescapes⟩

/-- A group of `real` values whose bounds are `1.0` and `2.0`, with a NaN among them. -/
def groupWithNan : RowGroup [.float32] where
  rows := [⟨[some (.float32 0x3f800000)], rfl⟩, ⟨[some (.float32 0x7fc00000)], rfl⟩]
  columns := [⟨2, some ⟨some 0, .float (some 0x3f800000) (some 0x40000000)⟩⟩]

theorem groupWithNan_valid : groupWithNan.StatsValid := by
  intro i col hcol
  rcases i with _ | i
  · obtain rfl := Option.some.inj hcol
    refine ⟨rfl, ?_, ?_⟩
    · rintro s n hs hn
      obtain rfl := Option.some.inj hs
      exact (Option.some.inj hn).symm
    · rintro s hs x hx
      obtain rfl := Option.some.inj hs
      have hx' : some x ∈ [some (ArrowValue.float32 0x3f800000), some (.float32 0x7fc00000)] := hx
      have hlow : ieeeKey? 32 0x7f800000 0x3f800000 = some 0x3f800000 := by decide
      have hhigh : ieeeKey? 32 0x7f800000 0x40000000 = some 0x40000000 := by decide
      have hnan : ieeeKey? 32 0x7f800000 0x7fc00000 = none := by decide
      rcases List.mem_pair.mp hx' with h | h <;> obtain rfl := Option.some.inj h <;> intro k hk
      · obtain rfl := Option.some.inj (hlow.symm.trans hk)
        refine ⟨fun m l hm hl => ?_, fun m u hm hu => ?_⟩
        · obtain rfl := Option.some.inj hm
          exact (Option.some.inj (hlow.symm.trans hl)).ge
        · obtain rfl := Option.some.inj hm
          obtain rfl := Option.some.inj (hhigh.symm.trans hu)
          decide
      · exact absurd (hnan.symm.trans hk) (by simp)
  · cases hcol

/-- The group has values above `0.5`, the NaN among them, and is kept. -/
theorem nan_row_kept :
    (∃ r ∈ groupWithNan.rows, PushedQual.sql ⟨0, .gt, .f32 0x3f000000⟩ (r.cell 0) = some true) ∧
      evaluateLeafAgainstRg 1 groupWithNan.columns ⟨0, .gt, .f32 0x3f000000⟩ ≠ .cannotMatch := by
  have hrow : ∃ r ∈ groupWithNan.rows,
      PushedQual.sql ⟨0, .gt, .f32 0x3f000000⟩ (r.cell 0) = some true := by decide
  refine ⟨hrow, (float_verdict_sound_iff groupWithNan groupWithNan_valid _).mpr ?_ hrow⟩
  -- the maximum is above the literal
  rintro ⟨col, s, hcol, hstats, r, hr, x, hx, hnan⟩
  obtain rfl := Option.some.inj hcol
  obtain rfl := Option.some.inj hstats
  cases x with
  | float32 x =>
    obtain ⟨lit, hlit, -, l, u, hl, hu, hle⟩ := hnan
    obtain rfl := ScalarValueRepr.f32.inj hlit
    have hlit' : ieeeKey? 32 0x7f800000 0x3f000000 = some 0x3f000000 := by decide
    have hmax : ieeeKey? 32 0x7f800000 0x40000000 = some 0x40000000 := by decide
    obtain rfl := Option.some.inj (hlit'.symm.trans hl)
    obtain rfl := Option.some.inj (hmax.symm.trans hu)
    exact absurd hle (by decide)
  | _ => exact hnan

/-- The NaN is above `5.0` in Postgres' order, and the group is dropped. -/
theorem nan_row_dropped :
    groupWithNan.StatsValid ∧
      (∃ r ∈ groupWithNan.rows, PushedQual.sql ⟨0, .gt, .f32 0x40a00000⟩ (r.cell 0) = some true) ∧
      evaluateLeafAgainstRg 1 groupWithNan.columns ⟨0, .gt, .f32 0x40a00000⟩ = .cannotMatch :=
  ⟨groupWithNan_valid, by decide, by decide⟩

end ParquetAzureFdw
