/-
# A table and its own inserts

The name under which INSERT writes a group is derived by cutting the `filename` pattern
at its first `*` (`pick_target_layout`); a scan lists the names that match the whole
pattern, segment by segment.  The two agree exactly when the pattern below the cut has
one segment for each partition value and one for the file, each matching what INSERT
puts there (`own_insert_listed_iff`).  A pattern with `?` only, read as a literal name by
INSERT, lists what was written exactly when the table has no partition columns.
-/

import ParquetAzureFdw.Modify.TargetName
import ParquetAzureFdw.Scan.Glob

namespace ParquetAzureFdw

open Paths Wildcard

/-- Whether a text matches a pattern. -/
def globMatches (pattern text : List Char) : Bool :=
  Wildcard.isMatch '/' (pattern.map globAtom) text

section Patterns

variable {pattern text : List Char}

theorem lit_slash_mem_iff : .lit '/' ∈ pattern.map globAtom ↔ '/' ∈ pattern := by
  have hatom : ∀ c, globAtom c = .lit '/' ↔ c = '/' := by
    intro c
    unfold globAtom
    split <;> simp_all
  simp [hatom]

theorem star_mem_iff : .star ∈ pattern.map globAtom ↔ '*' ∈ pattern := by
  have hatom : ∀ c, globAtom c = .star ↔ c = '*' := by
    intro c
    unfold globAtom
    split <;> simp_all
  simp [hatom]

/-- A pattern matches a path segment by segment. -/
theorem globMatches_iff_segments (pattern text : List Char) :
    globMatches pattern text = true ↔ List.Forall₂ (fun p t => globMatches p t = true)
      (pattern.splitOn '/') (text.splitOn '/') := by
  have hsegments : (pattern.map globAtom).splitOn (.lit '/') =
      (pattern.splitOn '/').map (List.map globAtom) := by
    induction pattern using segment_induction '/' with
    | last p hp =>
      rw [List.splitOn_eq_singleton (lit_slash_mem_iff.not.mpr hp), List.splitOn_eq_singleton hp]
      rfl
    | more p rest hp ih =>
      rw [List.map_append, List.map_cons, globAtom_eq_lit (by decide) (by decide),
        List.splitOn_append_cons_self_of_not_mem (lit_slash_mem_iff.not.mpr hp),
        List.splitOn_append_cons_self_of_not_mem hp, ih, List.map_cons]
  unfold globMatches
  rw [isMatch_iff_segments, hsegments, List.forall₂_map_left_iff]

/-- A character of the pattern other than `*` takes one of the text. -/
theorem globMatches_cons {c x : Char} (hstar : c ≠ '*') :
    globMatches (c :: pattern) (x :: text) =
      ((if c = '?' then x != '/' else x == c) && globMatches pattern text) := by
  unfold globMatches
  rw [List.map_cons]
  split_ifs with hone
  · subst hone
    rfl
  · rw [globAtom_eq_lit hstar hone, isMatch_lit_cons]

/-- A pattern without `*` matches itself. -/
theorem globMatches_self (hstar : '*' ∉ pattern) : globMatches pattern pattern = true := by
  induction pattern with
  | nil => rfl
  | cons c pattern ih =>
    obtain ⟨hc, hstar⟩ := not_or.mp (List.mem_cons.not.mp hstar)
    rw [globMatches_cons (Ne.symm hc), ih hstar]
    split_ifs with hone
    · subst hone
      rfl
    · simp

theorem globMatches_append {rest : List Char} (hstar : '*' ∉ pattern) (text : List Char) :
    globMatches (pattern ++ rest) (pattern ++ text) = globMatches rest text := by
  unfold globMatches
  rw [List.map_append]
  exact isMatch_append_of_isMatch (star_mem_iff.not.mpr hstar) (globMatches_self hstar)

/-- A star takes nothing of a text that begins with a slash. -/
theorem globMatches_star_slash : globMatches ('*' :: pattern) ('/' :: text) =
    globMatches pattern ('/' :: text) := by
  have hrests : rests '/' ('/' :: text) = ['/' :: text] := by simp [rests]
  unfold globMatches
  rw [List.map_cons]
  simp [globAtom, hrests]

/-- A pattern without slashes matches no text with one. -/
theorem globMatches_eq_false (hpattern : '/' ∉ pattern) (htext : '/' ∈ text) :
    globMatches pattern text = false :=
  isMatch_eq_false_of_sep (lit_slash_mem_iff.not.mpr hpattern) htext

end Patterns

/-! ### The pattern below the base prefix -/

/-- What a pattern has below the base prefix: INSERT takes the text before the first `*`,
without its slashes, as a directory. -/
def RestBelow (base pattern rest : List Char) : Prop :=
  base = [] ∧ pattern = rest ∨
    base ≠ [] ∧ (pattern = base ++ '/' :: rest ∨ pattern = base ++ '*' :: '/' :: rest)

/-- A text is its trimmed part and slashes. -/
theorem rdropWhile_slash_spec (s : List Char) :
    ∃ slashes, s = s.rdropWhile (· == '/') ++ slashes ∧ (∀ c ∈ slashes, c = '/') ∧
      (s.rdropWhile (· == '/')).getLast? ≠ some '/' := by
  refine ⟨s.rtakeWhile (· == '/'), List.rdropWhile_append_rtakeWhile.symm, fun c hc => ?_, fun h => ?_⟩
  · have hbeq : (c == '/') = true := List.mem_rtakeWhile_imp (p := (· == '/')) hc
    exact eq_of_beq hbeq
  · have hne : s.rdropWhile (· == '/') ≠ [] := by
      intro hnil
      simp [hnil] at h
    refine List.rdropWhile_last_not (· == '/') s hne ?_
    rw [List.getLast?_eq_some_getLast hne] at h
    simp [Option.some.inj h]

section Below

variable {base slashes after tail : List Char}

/-- **A pattern with a `*` matches a path below its base prefix exactly when what it has there
matches the path.** -/
theorem globMatches_under_iff (hbase : '*' ∉ base) (hlast : base.getLast? ≠ some '/')
    (hslashes : ∀ c ∈ slashes, c = '/')
    (hrelative : (base ++ slashes ++ '*' :: after).head? ≠ some '/')
    (hstars : after.head? ≠ some '*') :
    globMatches (base ++ slashes ++ '*' :: after) (under '/' base tail) = true ↔
      ∃ rest, RestBelow base (base ++ slashes ++ '*' :: after) rest ∧
        globMatches rest tail = true := by
  by_cases hnil : base = []
  · -- nothing stands before the star: the pattern is relative
    subst hnil
    cases slashes with
    | nil => simp [RestBelow]
    | cons c slashes => simp [hslashes c (by simp)] at hrelative
  · rw [under_of_last_ne hnil hlast, List.append_assoc, globMatches_append hbase]
    cases slashes with
    | nil =>
      simp only [RestBelow, hnil, List.nil_append, globMatches_star_slash, List.append_cancel_left_eq]
      cases after with
      | nil => simp [globMatches]
      | cons c after =>
        have hc : c ≠ '*' := by simpa using hstars
        by_cases hone : c = '?'
        · subst hone
          simp [globMatches_cons hc]
        · rw [globMatches_cons hc, if_neg hone]
          by_cases hslash : c = '/'
          · simp [hslash, hnil]
          · simp [hslash, Ne.symm hslash]
    | cons c slashes =>
      obtain rfl : c = '/' := hslashes c (by simp)
      rw [List.cons_append, globMatches_cons (by decide)]
      simp [RestBelow, hnil]

end Below

/-! ### The names of inserted blobs -/

/-- The name under which INSERT into a table writes a group. -/
def insertedName (filename : String) (declared : List (String × PgPartitionType)) (stamp : Stamp)
    (values : List String) : String :=
  computeTargetName (pickTargetLayout filename).1 (pickTargetLayout filename).2 declared stamp values

/-- Below the base prefix the pattern has a segment for each of these, and it matches. -/
def PatternReaches (filename : String) (segments : List (List Char)) : Prop :=
  ∃ rest, RestBelow (pickTargetLayout filename).1.toList filename.toList rest ∧
    List.Forall₂ (fun p s => globMatches p s = true) (rest.splitOn '/')
      (segments.flatMap (List.splitOn '/'))

section Inserted

variable {filename : String} {declared : List (String × PgPartitionType)} {stamp : Stamp}
  {values : List String}

theorem pickTargetLayout_of_star {before after : List Char}
    (hfilename : filename.toList = before ++ '*' :: after) (hbefore : '*' ∉ before) :
    pickTargetLayout filename = (String.ofList (before.rdropWhile (· == '/')), none) := by
  rw [pickTargetLayout, splitOnce_eq_some_iff.mpr ⟨hfilename, hbefore⟩]
  simp [trimEndSlashes]

theorem pickTargetLayout_of_no_star (hstar : '*' ∉ filename.toList) :
    pickTargetLayout filename = (dirname filename, some filename) := by
  rw [pickTargetLayout, splitOnce_eq_none_iff.mpr hstar]

/-- The directory of a file name. -/
theorem dirname_spec (filename : String) :
    (dirname filename = "" ∧ '/' ∉ filename.toList) ∨
      ∃ file, '/' ∉ file ∧ filename.toList = (dirname filename).toList ++ '/' :: file := by
  unfold dirname
  cases hsplit : splitOnce '/' filename.toList.reverse with
  | none => exact .inl ⟨rfl, by simpa using splitOnce_eq_none_iff.mp hsplit⟩
  | some kv =>
    obtain ⟨file, dir⟩ := kv
    obtain ⟨hreverse, hfile⟩ := splitOnce_eq_some_iff.mp hsplit
    refine .inr ⟨file.reverse, by simpa using hfile, ?_⟩
    rw [← List.reverse_reverse filename.toList, hreverse]
    simp

/-- A staging name below a base prefix: the infix stands in the prefix or in a segment of a
value, never in the file. -/
theorem isStagingName_iff_of_toList {name basePrefix : String}
    (hname : name.toList = under '/' basePrefix.toList
      (['/'].intercalate (targetSegments declared stamp values))) :
    isStagingName name = false ↔ isStagingName basePrefix = false ∧
      ∀ v ∈ values.zipIdx, isStagingName (partitionSegment declared v) = false := by
  have hslash : '/' ∉ ".tmp.".toList := by decide
  have hfile : ¬ ".tmp.".toList <:+: stamp.file.toList := by
    intro hword
    have hm : 'm' ∉ stamp.file.toList := stamp.not_mem_file (by decide) (by decide)
    exact hm (hword.subset (by decide))
  have hne : targetSegments declared stamp values ≠ [] := by simp [targetSegments]
  simp only [isStagingName_eq_false_iff, hname, infix_under_iff hslash,
    infix_intercalate_iff hslash hne]
  generalize ".tmp.".toList = w at hfile ⊢
  simp [targetSegments, hfile]

/-- A table without `*` whose blob has partition values does not list it: its pattern has no
slash below the directory. -/
theorem globMatches_partitioned_eq_false (hstar : '*' ∉ filename.toList) {first : List Char}
    {rest : List Char} (hfirst : first ≠ []) :
    globMatches filename.toList (under '/' (dirname filename).toList (first ++ '/' :: rest)) =
      false := by
  rcases dirname_spec filename with ⟨hdir, hslash⟩ | ⟨file, hfile, hfilename⟩
  · rw [hdir]
    exact globMatches_eq_false hslash (by simp)
  · have hdir : '*' ∉ (dirname filename).toList := by
      intro h
      rw [hfilename] at hstar
      exact hstar (List.mem_append_left _ h)
    rw [hfilename, under]
    split_ifs
    · -- the directory ends in a slash: the pattern has a second one, a name only if the key does
      rw [globMatches_append hdir]
      cases first with
      | nil => exact absurd rfl hfirst
      | cons c first =>
        rw [List.cons_append, globMatches_cons (by decide), globMatches_eq_false hfile (by simp)]
        simp
    · rw [globMatches_append hdir, globMatches_cons (by decide), globMatches_eq_false hfile (by simp)]
      simp

/-- With a `*` the name is put below the base prefix. -/
theorem insertedName_toList_of_star (hstar : '*' ∈ filename.toList)
    (hslash : ∀ v ∈ values, '/' ∉ v.toList) :
    (insertedName filename declared stamp values).toList =
      under '/' (pickTargetLayout filename).1.toList
        (['/'].intercalate (targetSegments declared stamp values)) := by
  obtain ⟨before, after, hfilename, hbefore⟩ := List.eq_append_cons_of_mem hstar
  obtain ⟨-, -, -, hlast⟩ := rdropWhile_slash_spec before
  refine computeTargetName_toList hslash fun _ => ?_
  rw [pickTargetLayout_of_star hfilename hbefore]
  exact ⟨rfl, by simpa using hlast⟩

/-- Below the base prefix the pattern is matched segment by segment. -/
theorem globMatches_below_prefix_iff {glob : GlobPattern} (hglob : AcceptedGlob filename glob)
    (hstar : '*' ∈ filename.toList) :
    globMatches filename.toList (under '/' (pickTargetLayout filename).1.toList
        (['/'].intercalate (targetSegments declared stamp values))) = true ↔
      PatternReaches filename (targetSegments declared stamp values) := by
  obtain ⟨before, after, hfilename, hbefore⟩ := List.eq_append_cons_of_mem hstar
  have hlayout := pickTargetLayout_of_star hfilename hbefore
  obtain ⟨slashes, hsplit, hslashes, hlast⟩ := rdropWhile_slash_spec before
  have hpattern : filename.toList = before.rdropWhile (· == '/') ++ slashes ++ '*' :: after :=
    hfilename.trans (congrArg (· ++ '*' :: after) hsplit)
  have hbase : '*' ∉ before.rdropWhile (· == '/') := fun h =>
    hbefore ((List.rdropWhile_prefix _ before).subset h)
  have hstars : after.head? ≠ some '*' := by
    intro h
    obtain ⟨rest, rfl⟩ := List.head?_eq_some_iff.mp h
    exact hglob.no_double_star ⟨before, rest, by simp [hfilename]⟩
  have hrelative := hglob.relative
  rw [hpattern] at hrelative
  unfold PatternReaches
  simp only [hlayout, String.toList_ofList, hpattern]
  rw [globMatches_under_iff hbase hlast hslashes hrelative hstars]
  simp only [globMatches_iff_segments _ (['/'].intercalate _),
    splitOn_intercalate_flatMap (by simp [targetSegments] : targetSegments declared stamp values ≠ [])]

/-- A partition value puts a slash behind a first segment. -/
theorem exists_first_segment (value : String) (values : List String) :
    ∃ first rest, first ≠ [] ∧
      ['/'].intercalate (targetSegments declared stamp (value :: values)) = first ++ '/' :: rest := by
  obtain ⟨segment, segments, hsegments⟩ := List.exists_cons_of_ne_nil
    (List.concat_ne_nil stamp.file.toList
      ((values.zipIdx 1).map fun v => (partitionSegment declared v).toList))
  have htarget : targetSegments declared stamp (value :: values) =
      (partitionSegment declared (value, 0)).toList :: segment :: segments := by
    rw [← hsegments]
    simp [targetSegments]
  rw [htarget, List.intercalate_cons_cons, List.append_assoc]
  exact ⟨_, _, by simp [partitionSegment], rfl⟩

/-- **A table lists the blob of its own INSERT exactly when its pattern, below the base prefix,
has a matching segment for each partition value and for the file, and no part of the name is a
staging name; or, with no `*`, when it has no partition values.** -/
theorem own_insert_listed_iff {regexNew : List (Atom Char) → Except String Unit}
    {glob : GlobPattern} (hglob : parseGlob regexNew filename = .ok glob)
    {formatPgDays : Int32 → Option String} (hdates : PlainDates formatPgDays)
    {layout : InsertLayout} {tuple : Tuple} {row : ArrowRow}
    (happend : appendSlot formatPgDays layout tuple = .ok (values, row))
    (declared : List (String × PgPartitionType)) (stamp : Stamp) :
    (glob.isMatch (insertedName filename declared stamp values) = true ∧
      isStagingName (insertedName filename declared stamp values) = false) ↔
      ('*' ∈ filename.toList ∧ PatternReaches filename (targetSegments declared stamp values) ∧
        isStagingName (pickTargetLayout filename).1 = false ∧
        ∀ v ∈ values.zipIdx, isStagingName (partitionSegment declared v) = false) ∨
      ('*' ∉ filename.toList ∧ values = [] ∧ isStagingName filename = false) := by
  have hglob := parseGlob_eq_ok hglob
  have hslash : ∀ v ∈ values, '/' ∉ v.toList := fun v hv =>
    (WrittenText.of_appendSlot hdates happend v hv).no_slash
  have hmatch : ∀ name, glob.isMatch name = globMatches filename.toList name.toList := by
    intro name
    rw [GlobPattern.isMatch, hglob.regex_eq, globMatches]
  by_cases hstar : '*' ∈ filename.toList
  · simp only [hstar, true_and, not_true_eq_false, false_and, or_false]
    have hname : (insertedName filename declared stamp values).toList = _ :=
      insertedName_toList_of_star hstar hslash
    rw [isStagingName_iff_of_toList hname, hmatch, hname]
    exact and_congr_left fun _ => globMatches_below_prefix_iff hglob hstar
  · simp only [hstar, false_and, not_false_eq_true, true_and, false_or]
    have hlayout := pickTargetLayout_of_no_star hstar
    cases values with
    | nil =>
      have hname : insertedName filename declared stamp [] = filename := by
        rw [insertedName, hlayout]
        rfl
      rw [hname, hmatch, globMatches_self hstar]
      simp
    | cons value values =>
      have hname : (insertedName filename declared stamp (value :: values)).toList =
          under '/' (pickTargetLayout filename).1.toList
            (['/'].intercalate (targetSegments declared stamp (value :: values))) :=
        computeTargetName_toList hslash fun h => by cases h
      obtain ⟨first, rest, hne, htail⟩ := exists_first_segment value values
      rw [hmatch, hname, hlayout, htail, globMatches_partitioned_eq_false hstar hne]
      simp

end Inserted

/-- A table with a region, its partition column, and an id. -/
def regionLayout : InsertLayout := ⟨[⟨"id", .int32, true⟩], [textOid, int4Oid], [0]⟩

/-- A table partitioned by region on `data/*/*.parquet` lists what is inserted into it. -/
theorem region_table_lists_own_insert :
    (⟨"data/", "data/*/*.parquet".toList.map globAtom⟩ : GlobPattern).isMatch
        (insertedName "data/*/*.parquet" [("region", .text)] someStamp ["eu"]) = true ∧
      isStagingName (insertedName "data/*/*.parquet" [("region", .text)] someStamp ["eu"]) =
        false := by
  have hglob : parseGlob (fun _ => .ok ()) "data/*/*.parquet" =
      .ok ⟨"data/", "data/*/*.parquet".toList.map globAtom⟩ := by decide
  have hdates : PlainDates fun _ => none := ⟨nofun, nofun⟩
  have happend : appendSlot (fun _ => none) regionLayout [some (.text "eu"), some (.int4 7)] =
      .ok (["eu"], [some (.int32 7)]) := by decide
  have hbelow : RestBelow (pickTargetLayout "data/*/*.parquet").1.toList
      "data/*/*.parquet".toList "*/*.parquet".toList := .inr ⟨by decide, .inl (by decide)⟩
  have hpatterns : "*/*.parquet".toList.splitOn '/' = ["*".toList, "*.parquet".toList] := by decide
  have hsegments : (targetSegments [("region", .text)] someStamp ["eu"]).flatMap
      (List.splitOn '/') = ["region=eu".toList, someStamp.file.toList] := by decide
  have hreaches : PatternReaches "data/*/*.parquet"
      (targetSegments [("region", .text)] someStamp ["eu"]) := by
    refine ⟨"*/*.parquet".toList, hbelow, ?_⟩
    rw [hpatterns, hsegments]
    exact .cons (by decide) (.cons (by decide) .nil)
  exact (own_insert_listed_iff hglob hdates happend _ someStamp).mpr
    (.inl ⟨by decide, hreaches, by decide, by decide⟩)

/-- A table on `data/events*` does not list what is inserted into it: INSERT writes into a
directory `data/events`, and the star crosses no slash. -/
theorem data_events_misses_own_insert :
    ∃ glob, parseGlob (fun _ => .ok ()) "data/events*" = .ok glob ∧
      appendSlot (fun _ => none) ⟨[⟨"id", .int32, true⟩], [int4Oid], []⟩ [some (.int4 7)] =
        .ok ([], [some (.int32 7)]) ∧
      glob.isMatch (insertedName "data/events*" [] someStamp []) = false :=
  ⟨⟨"data/events", "data/events*".toList.map globAtom⟩, by decide, by decide, by decide⟩

end ParquetAzureFdw
