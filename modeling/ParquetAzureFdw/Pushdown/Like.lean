/-
# `LIKE` with a literal prefix as a range

The walker pushes `col LIKE 'literal%'` as two comparisons, `col >= literal` and
`col < bound`, where `next_lex_upper` makes the bound by adding one to a byte of the
literal's encoding.  `sqlLike` is the meaning of the operator on characters; the
comparisons are of bytes.

A text begins with the characters of the literal exactly when its bytes begin with the
literal's (`utf8Bytes_prefix_iff`), and byte strings with a common prefix are the interval
below the bound (`ByteOrder.prefix_iff_between`).  So the two comparisons are the operator
on every text, and their inversion is its negation (`like_range_exact`).
-/

import ParquetAzureFdw.Pushdown.Walk

namespace ParquetAzureFdw

open ThreeValued

/-- `LIKE` on characters: `%` is any text, `_` any one character, and a backslash takes the next
character as it is.  Postgres refuses a pattern that ends in a backslash; here it matches
nothing. -/
def likeMatches : List Char → List Char → Bool
  | [], s => s.isEmpty
  | '%' :: p, s => s.tails.any (likeMatches p)
  | '_' :: p, s => s.tail?.any (likeMatches p)
  | ['\\'], _ => false
  | '\\' :: c :: p, s => s.head? == some c && likeMatches p s.tail
  | c :: p, s => s.head? == some c && likeMatches p s.tail

/-- SQL's `s LIKE pattern`. -/
def sqlLike (pattern s : String) : Bool := likeMatches pattern.toList s.toList

/-- A character that is no wildcard and no escape stands for itself. -/
theorem likeMatches_literal {c : Char} {p s : List Char} (hpercent : c ≠ '%') (hunderscore : c ≠ '_')
    (hescape : c ≠ '\\') :
    likeMatches (c :: p) s = (s.head? == some c && likeMatches p s.tail) := by
  rw [likeMatches]
  all_goals simp_all

/-- A literal and a final `%` match the texts that begin with the literal. -/
theorem likeMatches_prefix {p s : List Char} (hpercent : '%' ∉ p) (hunderscore : '_' ∉ p)
    (hescape : '\\' ∉ p) : likeMatches (p ++ ['%']) s = true ↔ p <+: s := by
  induction p generalizing s with
  | nil =>
    have hall : ([] : List Char) ∈ s.tails := (List.mem_tails _ _).mpr List.nil_suffix
    simp only [List.nil_append, List.nil_prefix, iff_true]
    rw [likeMatches]
    exact List.any_eq_true.mpr ⟨[], hall, rfl⟩
  | cons c p ih =>
    rw [List.mem_cons, not_or] at hpercent hunderscore hescape
    rw [List.cons_append, likeMatches_literal (Ne.symm hpercent.1) (Ne.symm hunderscore.1)
      (Ne.symm hescape.1), Bool.and_eq_true, ih hpercent.2 hunderscore.2 hescape.2]
    cases s with
    | nil => simp
    | cons x s => simp [List.cons_prefix_cons, @eq_comm _ c x]

/-- **A prefix of the bytes is a prefix of the characters**: no encoding of a character begins
that of another. -/
theorem utf8Bytes_prefix_iff {p s : String} :
    utf8Bytes p <+: utf8Bytes s ↔ p.toList <+: s.toList := by
  have hbytes : ∀ t : String, (⟨(utf8Bytes t).toArray⟩ : ByteArray) = t.toList.utf8Encode := by
    intro t
    simp [utf8Bytes, String.utf8Encode_toList]
  constructor
  · rintro ⟨rest, hrest⟩
    refine List.isPrefix_of_utf8Encode_append_eq_utf8Encode ⟨rest.toArray⟩ ?_
    rw [← hbytes, ← hbytes, ← hrest]
    ext1
    simp
  · rintro ⟨rest, hrest⟩
    obtain rfl : p ++ String.ofList rest = s := String.toList_inj.mp (by simp [hrest])
    exact ⟨utf8Bytes (String.ofList rest), by simp [utf8Bytes]⟩

/-- `LIKE` with the pattern of a literal prefix. -/
theorem sqlLike_of_likePrefixLiteral {pattern literal : String}
    (h : likePrefixLiteral pattern = some literal) (s : String) :
    sqlLike pattern s = decide (utf8Bytes literal <+: utf8Bytes s) := by
  obtain ⟨rfl, hpercent, hunderscore, hescape⟩ := likePrefixLiteral_eq_some h
  rw [Bool.eq_iff_iff, decide_eq_true_iff, utf8Bytes_prefix_iff,
    ← likeMatches_prefix hpercent hunderscore hescape, sqlLike, String.toList_append]
  rfl

/-- The comparison of a NULL is unknown, on both sides of the range. -/
theorem sql_prefixRange_null {col : ℕ} {literal bound : String} {stored : ℕ → Option ArrowValue}
    (hx : stored col = none) :
    (PushedExpr.and [.leaf ⟨col, .ge, .utf8 literal⟩, .leaf ⟨col, .lt, .utf8 bound⟩]).sql stored =
      none := by
  rw [PushedExpr.sql_and, List.map_cons, List.map_singleton, PushedExpr.sql_leaf,
    PushedExpr.sql_leaf, hx]
  rfl

/-- **The range of a literal prefix is exact.**  A text matches the pattern exactly when its bytes
are between the literal and the bound; so what the walker emits for the pattern is true where
`LIKE` is and false where it is false, what inversion makes of it is true where `NOT LIKE` is and
false where it is false, and both are unknown on a NULL. -/
theorem like_range_exact {pattern literal bound : String}
    (hliteral : likePrefixLiteral pattern = some literal)
    (hbound : nextLexUpper literal = some bound) :
    (∀ s : String, sqlLike pattern s = true ↔
        compare (utf8Bytes literal) (utf8Bytes s) ≠ .gt ∧
          compare (utf8Bytes s) (utf8Bytes bound) = .lt) ∧
      ∀ (lhs rhs : Node) (e : PushedExpr), constTextArg rhs = some pattern →
        walkOpExpr textLikeOpno [lhs, rhs] = some e →
        ∃ col e', tryVar lhs = some col ∧ invertPushed e = some e' ∧
          ∀ stored : ℕ → Option ArrowValue,
            (∀ s, stored col = some (.utf8 s) →
              e.sql stored = some (sqlLike pattern s) ∧ e'.sql stored = some (!sqlLike pattern s)) ∧
            (stored col = none → e.sql stored = none ∧ e'.sql stored = none) := by
  constructor
  · intro s
    rw [sqlLike_of_likePrefixLiteral hliteral, decide_eq_true_iff,
      ByteOrder.prefix_iff_between (nextLexUpper_bytes hbound)]
  · intro lhs rhs e hpattern hwalk
    obtain ⟨lhs', rhs', hargs, hwalked⟩ := walkOpExpr_eq_some hwalk
    obtain ⟨rfl, rfl⟩ : lhs = lhs' ∧ rhs = rhs' := by simpa using hargs
    -- `~~` is no entry of the table of operators, so the range is all that is pushed for it.
    cases hwalked with
    | compare hop | flipped hop => cases hop
    | @like col pattern' literal' bound' _ hcol _ hpattern' hliteral' hbound' =>
      obtain rfl := Option.some.inj (hpattern.symm.trans hpattern')
      obtain rfl := Option.some.inj (hliteral.symm.trans hliteral')
      obtain rfl := Option.some.inj (hbound.symm.trans hbound')
      refine ⟨col, .or [.leaf ⟨col, .lt, .utf8 literal⟩, .leaf ⟨col, .ge, .utf8 bound⟩], hcol, rfl,
        fun stored => ?_⟩
      have hinvert : (PushedExpr.or [.leaf ⟨col, .lt, .utf8 literal⟩,
          .leaf ⟨col, .ge, .utf8 bound⟩]).sql stored = ((PushedExpr.and
          [.leaf ⟨col, .ge, .utf8 literal⟩, .leaf ⟨col, .lt, .utf8 bound⟩]).sql stored).not :=
        invertPushed_sql stored rfl
      constructor
      · intro s hs
        rw [hinvert, sql_prefixRange hs hbound, sqlLike_of_likePrefixLiteral hliteral]
        exact ⟨rfl, rfl⟩
      · intro hnull
        rw [hinvert, sql_prefixRange_null hnull]
        exact ⟨rfl, rfl⟩

/-- `LIKE 'ab%'` is the range from `ab` to `ac`. -/
theorem like_ab_is_range :
    likePrefixLiteral "ab%" = some "ab" ∧ nextLexUpper "ab" = some "ac" ∧
      ∀ s : String, sqlLike "ab%" s = true ↔
        compare (utf8Bytes "ab") (utf8Bytes s) ≠ .gt ∧ compare (utf8Bytes s) (utf8Bytes "ac") = .lt :=
  have hliteral : likePrefixLiteral "ab%" = some "ab" := by decide
  have hbound : nextLexUpper "ab" = some "ac" := by decide
  ⟨hliteral, hbound, (like_range_exact hliteral hbound).1⟩

end ParquetAzureFdw
