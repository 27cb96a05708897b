/-
# The grammar of a partitioned path

What `partition_values_from_path` of `src/fdw/partition.rs` accepts, in the words of
the path alone: a segment names a key when the text before its first `=` is the key's
name, ignoring ASCII case, and the rest of the segment is the value.  When no two
declared names are equal ignoring case, a path is accepted exactly when every declared
key is named by one segment, with a value that is not empty and has no percent sign;
the map has the declared names and those values (`partition_path_grammar`).  Neither the
order of the segments nor any other segment matters.
-/

import ParquetAzureFdw.Partition.Path

namespace ParquetAzureFdw

/-- The segment names the key before its first `=`, and gives it the value. -/
def GivesValue (name : String) (segment : List Char) (value : String) : Prop :=
  ∃ key, segment = key ++ '=' :: value.toList ∧ '=' ∉ key ∧
    eqIgnoreAsciiCase name.toList key = true

/-- Exactly one of the segments names the key, and it gives it the value. -/
def NamedOnce (segments : List (List Char)) (name value : String) : Prop :=
  ∃ (i : ℕ) (segment : List Char), segments[i]? = some segment ∧ GivesValue name segment value ∧
    ∀ (j : ℕ) (segment' : List Char) (value' : String), segments[j]? = some segment' →
      GivesValue name segment' value' → j = i

/-- No two declared names are equal ignoring case. -/
def DistinctKeys (declared : List (String × PgPartitionType)) : Prop :=
  declared.Pairwise fun d d' => eqIgnoreAsciiCase d.1.toList d'.1.toList = false

section Grammar

variable {declared : List (String × PgPartitionType)} {segments : List (List Char)}

theorem givesValue_iff {name value : String} {segment : List Char} :
    GivesValue name segment value ↔ ∃ key, splitOnce '=' segment = some (key, value.toList) ∧
      eqIgnoreAsciiCase name.toList key = true := by
  simp only [GivesValue, splitOnce_eq_some_iff, and_assoc]

/-- An entry is of a declared key that the segment names. -/
theorem givesValue_of_segmentEntry {segment : List Char} {e : String × String}
    (h : segmentEntry declared segment = some e) :
    (∃ d ∈ declared, d.1 = e.1) ∧ GivesValue e.1 segment e.2 := by
  obtain ⟨⟨key, value⟩, hsplit, h⟩ := Option.bind_eq_some_iff.mp h
  obtain ⟨⟨name, ty⟩, hfind, h⟩ := Option.bind_eq_some_iff.mp h
  obtain rfl := Option.some.inj h
  refine ⟨⟨_, List.mem_of_find?_eq_some hfind, rfl⟩, givesValue_iff.mpr ⟨key, ?_, ?_⟩⟩
  · simpa using hsplit
  · simpa using List.find?_some hfind

/-- Among distinct names, the key that a text names is found. -/
theorem DistinctKeys.find?_eq (hdistinct : DistinctKeys declared) {d : String × PgPartitionType}
    (hd : d ∈ declared) {key : List Char} (hkey : eqIgnoreAsciiCase d.1.toList key = true) :
    declared.find? (fun d => eqIgnoreAsciiCase d.1.toList key) = some d := by
  obtain ⟨before, after, rfl⟩ := List.append_of_mem hd
  refine List.find?_eq_some_iff_append.mpr ⟨hkey, before, after, rfl, fun d' hd' => ?_⟩
  have hne := (List.pairwise_append.mp hdistinct).2.2 d' hd' d (by simp)
  rw [← eqIgnoreAsciiCase_congr hkey, hne]
  rfl

/-- **Among distinct names, the entries of a key are the values that segments give it.** -/
theorem DistinctKeys.segmentEntry_eq_iff (hdistinct : DistinctKeys declared)
    {d : String × PgPartitionType} (hd : d ∈ declared) {segment : List Char} {value : String} :
    segmentEntry declared segment = some (d.1, value) ↔ GivesValue d.1 segment value := by
  constructor
  · intro h
    exact (givesValue_of_segmentEntry h).2
  · intro h
    obtain ⟨key, hsplit, hkey⟩ := givesValue_iff.mp h
    simp [segmentEntry, hsplit, hdistinct.find?_eq hd hkey]

/-- The entries of a path have distinct keys exactly when no two segments make an entry of one
key. -/
theorem nodup_entries_iff :
    ((segments.filterMap (segmentEntry declared)).map Prod.fst).Nodup ↔
      ∀ (i j : ℕ) (s t : List Char) (e e' : String × String), segments[i]? = some s →
        segments[j]? = some t → segmentEntry declared s = some e →
        segmentEntry declared t = some e' → e.1 = e'.1 → i = j := by
  rw [List.Nodup, List.pairwise_map, List.pairwise_filterMap, List.pairwise_iff_getElem]
  constructor
  · intro h i j s t e e' hs ht he he' hkey
    obtain ⟨hi, rfl⟩ := List.getElem?_eq_some_iff.mp hs
    obtain ⟨hj, rfl⟩ := List.getElem?_eq_some_iff.mp ht
    rcases Nat.lt_trichotomy i j with hlt | heq | hgt
    · exact absurd hkey (h i j hi hj hlt e he e' he')
    · exact heq
    · exact absurd hkey.symm (h j i hj hi hgt e' he' e he)
  · intro h i j hi hj hlt e he e' he' hkey
    exact Nat.ne_of_lt hlt (h i j _ _ e e' (List.getElem?_eq_getElem hi)
      (List.getElem?_eq_getElem hj) he he' hkey)

/-- Entries with distinct keys: the segment of an entry is the only one that names its key. -/
theorem DistinctKeys.namedOnce_iff (hdistinct : DistinctKeys declared)
    (hnodup : ((segments.filterMap (segmentEntry declared)).map Prod.fst).Nodup)
    {d : String × PgPartitionType} (hd : d ∈ declared) {value : String} :
    (d.1, value) ∈ segments.filterMap (segmentEntry declared) ↔ NamedOnce segments d.1 value := by
  rw [List.mem_filterMap]
  constructor
  · rintro ⟨segment, hsegment, hentry⟩
    obtain ⟨i, hi⟩ := List.getElem?_of_mem hsegment
    refine ⟨i, segment, hi, (hdistinct.segmentEntry_eq_iff hd).mp hentry, ?_⟩
    intro j segment' value' hj hgives
    have hentry' := (hdistinct.segmentEntry_eq_iff hd).mpr hgives
    exact nodup_entries_iff.mp hnodup j i _ _ _ _ hj hi hentry' hentry rfl
  · rintro ⟨i, segment, hi, hgives, -⟩
    exact ⟨segment, List.mem_of_getElem? hi, (hdistinct.segmentEntry_eq_iff hd).mpr hgives⟩

/-- When every declared key is named once, no two entries have one key. -/
theorem nodup_entries_of_namedOnce
    (h : ∀ d ∈ declared, ∃ value, NamedOnce segments d.1 value) :
    ((segments.filterMap (segmentEntry declared)).map Prod.fst).Nodup := by
  refine nodup_entries_iff.mpr fun i j s t e e' hs ht he he' hkey => ?_
  obtain ⟨⟨d, hd, hname⟩, hgives⟩ := givesValue_of_segmentEntry he
  obtain ⟨-, hgives'⟩ := givesValue_of_segmentEntry he'
  obtain ⟨value, k, -, -, -, hunique⟩ := h d hd
  rw [← hname] at hgives
  rw [← hkey, ← hname] at hgives'
  exact (hunique i s e.2 hs hgives).trans (hunique j t e'.2 ht hgives').symm

end Grammar

/-- **A path is accepted exactly when every declared key is named by one segment**, whose value
is not empty and has no percent sign; the map then has the declared names and these values, and
nothing else. -/
theorem partition_path_grammar (blobName : String) (declared : List (String × PgPartitionType))
    (hdistinct : DistinctKeys declared) :
    ((∃ found, partitionValuesFromPath blobName declared = .ok found) ↔
        ∀ d ∈ declared, ∃ value, NamedOnce (blobName.toList.splitOn '/') d.1 value ∧
          WellFormedValue value) ∧
      ∀ found, partitionValuesFromPath blobName declared = .ok found →
        (found.map Prod.fst).Nodup ∧
          ∀ name value, (name, value) ∈ found ↔
            (∃ d ∈ declared, d.1 = name) ∧ NamedOnce (blobName.toList.splitOn '/') name value := by
  have hmap : ∀ found, partitionValuesFromPath blobName declared = .ok found →
      (found.map Prod.fst).Nodup ∧
        ∀ name value, (name, value) ∈ found ↔
          (∃ d ∈ declared, d.1 = name) ∧ NamedOnce (blobName.toList.splitOn '/') name value := by
    intro found hok
    obtain ⟨rfl, -, hnodup, -⟩ := partitionValuesFromPath_eq_ok_iff.mp hok
    refine ⟨hnodup, fun name value => ⟨fun hmem => ?_, ?_⟩⟩
    · obtain ⟨segment, -, hentry⟩ := List.mem_filterMap.mp hmem
      obtain ⟨⟨d, hd, rfl⟩, -⟩ := givesValue_of_segmentEntry hentry
      exact ⟨⟨d, hd, rfl⟩, (hdistinct.namedOnce_iff hnodup hd).mp hmem⟩
    · rintro ⟨⟨d, hd, rfl⟩, honce⟩
      exact (hdistinct.namedOnce_iff hnodup hd).mpr honce
  refine ⟨⟨?_, fun h => ?_⟩, hmap⟩
  · rintro ⟨found, hok⟩ d hd
    obtain ⟨-, hwf, -, hkeys⟩ := partitionValuesFromPath_eq_ok_iff.mp hok
    obtain ⟨⟨name, value⟩, hmem, rfl⟩ := List.mem_map.mp (hkeys d hd)
    exact ⟨value, (((hmap found hok).2 _ _).mp hmem).2, hwf _ hmem⟩
  · have honces : ∀ d ∈ declared, ∃ value, NamedOnce (blobName.toList.splitOn '/') d.1 value :=
      fun d hd => (h d hd).imp fun _ hvalue => hvalue.1
    have hnodup := nodup_entries_of_namedOnce honces
    refine ⟨_, partitionValuesFromPath_eq_ok_iff.mpr ⟨rfl, fun e he => ?_, hnodup, fun d hd => ?_⟩⟩
    · obtain ⟨segment, -, hentry⟩ := List.mem_filterMap.mp he
      obtain ⟨⟨d, hd, hname⟩, -⟩ := givesValue_of_segmentEntry hentry
      -- The value of the entry is the one value that the path gives its key.
      obtain ⟨value, honce, hformed⟩ := h d hd
      have hvalue := (hdistinct.namedOnce_iff hnodup hd).mpr honce
      rwa [← List.inj_on_of_nodup_map hnodup hvalue he hname]
    · obtain ⟨value, honce, -⟩ := h d hd
      exact List.mem_map_of_mem ((hdistinct.namedOnce_iff hnodup hd).mpr honce)

/-- The keys of a table partitioned by year and region. -/
def yearAndRegion : List (String × PgPartitionType) := [("year", .int4), ("region", .text)]

/-- A path with its keys in another order and case, and with segments of no declared key. -/
theorem year_and_region_named_once :
    DistinctKeys yearAndRegion ∧
      ∀ d ∈ yearAndRegion, ∃ value,
        NamedOnce ("t/Region=eu/YEAR=2024/x=1/part.parquet".toList.splitOn '/') d.1 value ∧
          WellFormedValue value := by
  have hdistinct : DistinctKeys yearAndRegion := by
    unfold DistinctKeys
    decide
  exact ⟨hdistinct, (partition_path_grammar _ _ hdistinct).1.mp
    ⟨[("region", "eu"), ("year", "2024")], by decide⟩⟩

end ParquetAzureFdw
