/-
# The groups of an import

`group_blobs_by_directory` of `src/fdw/import_schema.rs`.  The listed blobs are collected under
their directories, and each directory claims a table name: its last component, or the name of
the container at the root.  The directories claim in the order of their bytes, so of those with
one table name the least wins (`groupBlobsByDirectory_eq_some_iff`).
-/

import ParquetAzureFdw.Arrow.Batch
import ParquetAzureFdw.Lib.Grouping
import ParquetAzureFdw.Lib.Paths

namespace ParquetAzureFdw

open Std Grouping Paths

/-- The order of a Rust `String`: that of its bytes. -/
def compareBytes (a b : String) : Ordering := compareOn utf8Bytes a b

instance : TransCmp compareBytes := inferInstanceAs (TransCmp (compareOn utf8Bytes))

instance : LawfulEqCmp compareBytes where
  compare_self := ReflCmp.compare_self
  eq_of_compare h := utf8Bytes_injective (LawfulEqCmp.eq_of_compare h)

/-- The text before the last `/` of a blob name; empty at the root. -/
def directory (blob : String) : String :=
  match splitLast '/' blob.toList with
  | some (dir, _) => String.ofList dir
  | none => ""

/-- The table name of a directory. -/
def tableName (container dir : String) : String :=
  if dir.isEmpty then container
  else
    match splitLast '/' dir.toList with
    | some (_, last) => String.ofList last
    | none => dir

/-- The variables of the second pass, and the notices so far. -/
structure Claims where
  out : TreeMap String (List String) compareBytes
  claimedBy : TreeMap String String compareBytes
  notices : List String

/-- An iteration of the second pass. -/
def Claims.claim (container : String) (s : Claims) (entry : String × List String) : Claims :=
  let table := tableName container entry.1
  match s.claimedBy[table]? with
  | some prevDir =>
    { s with notices := s.notices ++ ["skipped directory '" ++ entry.1 ++
        "' — its table name '" ++ table ++ "' is already claimed by directory '" ++ prevDir ++
        "'; narrow the IMPORT FOREIGN SCHEMA remote_schema prefix to disambiguate"] }
  | none =>
    { s with
      claimedBy := s.claimedBy.insert table entry.1
      out := s.out.insert table entry.2 }

/-- Both passes of `group_blobs_by_directory`. -/
def claimTables (blobs : List String) (container : String) : Claims :=
  (groupBy compareBytes directory blobs).toList.foldl (Claims.claim container) ⟨∅, ∅, []⟩

/-- `group_blobs_by_directory`. -/
def groupBlobsByDirectory (blobs : List String) (container : String) :
    TreeMap String (List String) compareBytes :=
  (claimTables blobs container).out

section Groups

variable {blobs : List String} {container table : String} {group : List String}

/-- The directory has a listed blob. -/
def Listed (blobs : List String) (dir : String) : Prop := ∃ b ∈ blobs, directory b = dir

/-- What an iteration does to the maps. -/
theorem Claims.claim_maps (s : Claims) (entry : String × List String) :
    (∃ prevDir, s.claimedBy[tableName container entry.1]? = some prevDir ∧
        (s.claim container entry).claimedBy = s.claimedBy ∧
        (s.claim container entry).out = s.out) ∨
      s.claimedBy[tableName container entry.1]? = none ∧
        (s.claim container entry).claimedBy =
          s.claimedBy.insert (tableName container entry.1) entry.1 ∧
        (s.claim container entry).out = s.out.insert (tableName container entry.1) entry.2 := by
  cases h : s.claimedBy[tableName container entry.1]? with
  | some prevDir =>
    refine .inl ⟨prevDir, rfl, ?_, ?_⟩ <;> simp only [Claims.claim, h]
  | none =>
    refine .inr ⟨rfl, ?_, ?_⟩ <;> simp only [Claims.claim, h]

/-- The tables claimed so far are those with a group. -/
def Claims.Agree (s : Claims) : Prop :=
  ∀ table : String, s.claimedBy[table]? = none ↔ s.out[table]? = none

theorem Claims.Agree.claim {s : Claims} (h : s.Agree) (entry : String × List String) :
    (s.claim container entry).Agree := by
  intro table
  obtain ⟨prevDir, -, hclaimedBy, hout⟩ | ⟨-, hclaimedBy, hout⟩ :=
    s.claim_maps entry
  · rw [hclaimedBy, hout]
    exact h table
  · rw [hclaimedBy, hout, TreeMap.getElem?_insert, TreeMap.getElem?_insert]
    split_ifs
    · simp
    · exact h table

/-- The first entry with a name keeps it. -/
theorem Claims.out_claim {s : Claims} (h : s.Agree) (entry : String × List String)
    (table : String) : (s.claim container entry).out[table]? =
      s.out[table]?.or (if tableName container entry.1 = table then some entry.2 else none) := by
  obtain ⟨prevDir, hclaimed, -, hout⟩ | ⟨hfree, -, hout⟩ :=
    s.claim_maps entry
  · rw [hout]
    split_ifs with htable
    · subst htable
      have hgroup : s.out[tableName container entry.1]? ≠ none := fun hnone => by
        rw [(h _).mpr hnone] at hclaimed
        cases hclaimed
      obtain ⟨group, hgroup⟩ := Option.ne_none_iff_exists'.mp hgroup
      rw [hgroup, Option.some_or]
    · rw [Option.or_none]
  · rw [hout, TreeMap.getElem?_insert]
    by_cases htable : tableName container entry.1 = table
    · subst htable
      rw [if_pos ReflCmp.compare_self, if_pos rfl, (h _).mp hfree, Option.none_or]
    · rw [if_neg (mt LawfulEqCmp.eq_of_compare htable), if_neg htable, Option.or_none]

/-- The loop keeps the first entry of each name. -/
theorem Claims.out_foldl {s : Claims} (h : s.Agree) (entries : List (String × List String))
    (table : String) : (entries.foldl (Claims.claim container) s).out[table]? =
      s.out[table]?.or
        ((entries.find? fun e => decide (tableName container e.1 = table)).map Prod.snd) := by
  induction entries generalizing s with
  | nil => simp
  | cons e entries ih =>
    rw [List.foldl_cons, ih (h.claim e), Claims.out_claim h, Option.or_assoc, List.find?_cons]
    congr 1
    by_cases htable : tableName container e.1 = table
    · simp [htable]
    · simp [htable]

/-- **The group of a table is that of the least directory with its name.** -/
theorem groupBlobsByDirectory_eq_some_iff :
    (groupBlobsByDirectory blobs container)[table]? = some group ↔
      ∃ dir, group = ofKey directory blobs dir ∧ Listed blobs dir ∧
        tableName container dir = table ∧
        ∀ dir', Listed blobs dir' → compareBytes dir' dir = .lt →
          tableName container dir' ≠ table := by
  have hempty : (⟨∅, ∅, []⟩ : Claims).Agree := fun table => by
    simp only [TreeMap.getElem?_emptyc]
  have hentries : ∀ e : String × List String,
      e ∈ (groupBy compareBytes directory blobs).toList ↔
        e.2 = ofKey directory blobs e.1 ∧ Listed blobs e.1 := by
    intro e
    rw [mem_toList_groupBy]
    constructor
    · rintro ⟨he, hne⟩
      exact ⟨he, ofKey_ne_nil_iff.mp (he ▸ hne)⟩
    · rintro ⟨he, hlisted⟩
      exact ⟨he, he ▸ ofKey_ne_nil_iff.mpr hlisted⟩
  rw [groupBlobsByDirectory, claimTables, Claims.out_foldl hempty, TreeMap.getElem?_emptyc,
    Option.none_or, Option.map_eq_some_iff]
  simp only [find?_eq_some_iff_least, hentries, decide_eq_true_eq, decide_eq_false_iff_not]
  constructor
  · rintro ⟨⟨dir, group⟩, ⟨⟨hgroup, hlisted⟩, htable, hleast⟩, rfl⟩
    exact ⟨dir, hgroup, hlisted, htable, fun dir' hdir' hlt =>
      hleast (dir', ofKey directory blobs dir') ⟨rfl, hdir'⟩ hlt⟩
  · rintro ⟨dir, rfl, hlisted, htable, hleast⟩
    exact ⟨(dir, _), ⟨⟨rfl, hlisted⟩, htable, fun e he hlt => hleast e.1 he.2 hlt⟩, rfl⟩

/-- A directory is known by its blobs. -/
theorem eq_of_mem_ofKey {dir : String} {b : String} (h : b ∈ ofKey directory blobs dir) :
    directory b = dir := (mem_ofKey.mp h).2

/-- The blob is in the directory: the text before the last `/` of its name, or the empty text when
there is none. -/
def InDirectory (dir blob : String) : Prop :=
  (∃ file, '/' ∉ file ∧ blob.toList = dir.toList ++ '/' :: file) ∨ '/' ∉ blob.toList ∧ dir = ""

theorem inDirectory_iff {dir blob : String} : InDirectory dir blob ↔ directory blob = dir := by
  unfold directory
  cases h : splitLast '/' blob.toList with
  | none =>
    have hnone := splitLast_eq_none_iff.mp h
    constructor
    · rintro (⟨file, -, hblob⟩ | ⟨-, rfl⟩)
      · exact absurd (hblob ▸ by simp) hnone
      · rfl
    · rintro rfl
      exact .inr ⟨hnone, rfl⟩
  | some parts =>
    obtain ⟨before, file⟩ := parts
    obtain ⟨hblob, hfile⟩ := splitLast_eq_some_iff.mp h
    constructor
    · rintro (⟨file', hfile', hblob'⟩ | ⟨hnone, -⟩)
      · have hsame := h.symm.trans (splitLast_eq_some_iff.mpr ⟨hblob', hfile'⟩)
        obtain ⟨rfl, -⟩ := Prod.mk.inj (Option.some.inj hsame)
        exact String.ofList_toList
      · exact absurd (hblob ▸ by simp) hnone
    · rintro rfl
      exact .inl ⟨file, hfile, by rw [String.toList_ofList, hblob]⟩

instance (dir blob : String) : Decidable (InDirectory dir blob) :=
  decidable_of_iff _ inDirectory_iff.symm

/-- The table has the name that the directory gives: its last component, or the name of the container
at the root. -/
def NamedAfter (container dir table : String) : Prop :=
  if dir = "" then table = container
  else '/' ∉ table.toList ∧
    (dir = table ∨ ∃ parent, dir.toList = parent ++ '/' :: table.toList)

theorem namedAfter_iff {dir : String} :
    NamedAfter container dir table ↔ tableName container dir = table := by
  unfold NamedAfter tableName
  simp only [String.isEmpty_iff]
  split_ifs with hroot
  · exact eq_comm
  · cases h : splitLast '/' dir.toList with
    | none =>
      have hnone := splitLast_eq_none_iff.mp h
      constructor
      · rintro ⟨-, hdir | ⟨parent, hdir⟩⟩
        · exact hdir
        · exact absurd (hdir ▸ by simp) hnone
      · rintro rfl
        exact ⟨hnone, .inl rfl⟩
    | some parts =>
      obtain ⟨parent, last⟩ := parts
      obtain ⟨hdir, hlast⟩ := splitLast_eq_some_iff.mp h
      constructor
      · rintro ⟨htable, rfl | ⟨parent', hdir'⟩⟩
        · exact absurd (hdir ▸ by simp) htable
        · have hsame := h.symm.trans (splitLast_eq_some_iff.mpr ⟨hdir', htable⟩)
          obtain ⟨-, rfl⟩ := Prod.mk.inj (Option.some.inj hsame)
          exact String.ofList_toList
      · rintro rfl
        rw [String.toList_ofList]
        exact ⟨hlast, .inr ⟨parent, hdir⟩⟩

/-- **The grouping law.**  Each group is all the listed blobs of one directory, in the order of
the listing and as often as they are listed, under the last component of that directory, or the name
of the container at the root; no blob is in two groups; and a listed directory is left out exactly
when a smaller listed directory has the same table name. -/
theorem grouping_law (blobs : List String) (container : String) :
    (∀ (table : String) group, (groupBlobsByDirectory blobs container)[table]? = some group →
      ∃ dir, (∃ b ∈ blobs, InDirectory dir b) ∧ NamedAfter container dir table ∧
        group = blobs.filter fun b => decide (InDirectory dir b)) ∧
    (∀ (table₁ table₂ : String) group₁ group₂,
      (groupBlobsByDirectory blobs container)[table₁]? = some group₁ →
      (groupBlobsByDirectory blobs container)[table₂]? = some group₂ → table₁ ≠ table₂ →
      ∀ b ∈ group₁, b ∉ group₂) ∧
    (∀ dir, (∃ b ∈ blobs, InDirectory dir b) →
      ((∀ table : String, (groupBlobsByDirectory blobs container)[table]? ≠
          some (blobs.filter fun b => decide (InDirectory dir b))) ↔
        ∃ dir', (∃ b ∈ blobs, InDirectory dir' b) ∧ compareBytes dir' dir = .lt ∧
          ∃ table, NamedAfter container dir' table ∧ NamedAfter container dir table)) := by
  simp only [inDirectory_iff, namedAfter_iff]
  refine ⟨fun table group h => ?_, fun table₁ table₂ group₁ group₂ h₁ h₂ hne b hb₁ hb₂ => ?_,
    fun dir hdir => ⟨fun h => ?_, ?_⟩⟩
  · obtain ⟨dir, rfl, hdir, rfl, -⟩ := groupBlobsByDirectory_eq_some_iff.mp h
    exact ⟨dir, hdir, rfl, rfl⟩
  · obtain ⟨dir₁, rfl, -, rfl, -⟩ := groupBlobsByDirectory_eq_some_iff.mp h₁
    obtain ⟨dir₂, rfl, -, rfl, -⟩ := groupBlobsByDirectory_eq_some_iff.mp h₂
    rw [← eq_of_mem_ofKey hb₁, ← eq_of_mem_ofKey hb₂] at hne
    exact hne rfl
  · by_contra hnone
    refine h (tableName container dir) (groupBlobsByDirectory_eq_some_iff.mpr
      ⟨dir, rfl, hdir, rfl, fun dir' hdir' hlt hname => hnone ⟨dir', hdir', hlt, _, hname, rfl⟩⟩)
  · rintro ⟨dir', hdir', hlt, _, hname, rfl⟩ table h
    obtain ⟨dir'', hgroup, hdir'', rfl, hleast⟩ := groupBlobsByDirectory_eq_some_iff.mp h
    obtain ⟨b, hb, rfl⟩ := hdir
    -- the group has a blob of the directory, so it is the group of this directory
    have hmem : b ∈ ofKey directory blobs dir'' := hgroup ▸ mem_ofKey.mpr ⟨hb, rfl⟩
    rw [← eq_of_mem_ofKey hmem] at hleast
    exact hleast dir' hdir' hlt hname

/-- Of two directories `raw` the first is kept. -/
theorem second_raw_is_left_out :
    (∃ b ∈ ["b/raw/y.parquet", "a/raw/x.parquet"], InDirectory "b/raw" b) ∧
      ∀ table : String,
        (groupBlobsByDirectory ["b/raw/y.parquet", "a/raw/x.parquet"] "data")[table]? ≠
          some (["b/raw/y.parquet", "a/raw/x.parquet"].filter fun b =>
            decide (InDirectory "b/raw" b)) := by
  have hdir : ∃ b ∈ ["b/raw/y.parquet", "a/raw/x.parquet"], InDirectory "b/raw" b :=
    ⟨"b/raw/y.parquet", by decide, by decide⟩
  exact ⟨hdir, ((grouping_law _ "data").2.2 "b/raw" hdir).mpr
    ⟨"a/raw", ⟨"a/raw/x.parquet", by decide, by decide⟩, by decide, "raw",
      namedAfter_iff.mpr (by decide), namedAfter_iff.mpr (by decide)⟩⟩

end Groups

end ParquetAzureFdw
