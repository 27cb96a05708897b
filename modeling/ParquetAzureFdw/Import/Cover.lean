/-
# What an imported table lists

A table of IMPORT FOREIGN SCHEMA stands for the group of blobs that `do_import` made it from, but
a scan of it lists the container again with the glob of its `filename`.  The two are separate
rules.  The group has the blobs under the remote schema in one directory, with the extension in
any case; the glob has `*.parquet` below the text of that directory, in which `*` and `?` are
wildcards, and knows nothing of the remote schema.  `group_covered_iff` says exactly when the
table can be used and lists its group.
-/

import ParquetAzureFdw.Import.Tables

namespace ParquetAzureFdw

open Grouping Paths

/-! ### Directories and files -/

/-- The text of a blob name up to its last `/`, with it. -/
def folder (blob : String) : List Char :=
  match splitLast '/' blob.toList with
  | some (dir, _) => dir ++ ['/']
  | none => []

/-- A text that can be a folder: it is empty or ends in a `/`. -/
def IsFolder (f : List Char) : Prop := f = [] ∨ ∃ dir, f = dir ++ ['/']

section Folders

variable {blob sample : String} {f file : List Char}

theorem isFolder_folder (blob : String) : IsFolder (folder blob) := by
  unfold folder
  split
  · exact .inr ⟨_, rfl⟩
  · exact .inl rfl

theorem exists_file (blob : String) : ∃ file, blob.toList = folder blob ++ file ∧ '/' ∉ file := by
  unfold folder
  split
  · next dir file h =>
    obtain ⟨hblob, hfile⟩ := splitLast_eq_some_iff.mp h
    exact ⟨file, by rw [hblob, List.append_assoc]; rfl, hfile⟩
  · next h => exact ⟨blob.toList, rfl, splitLast_eq_none_iff.mp h⟩

/-- A name is cut into folder and file in one way. -/
theorem folder_eq (hblob : blob.toList = f ++ file) (hf : IsFolder f) (hfile : '/' ∉ file) :
    folder blob = f := by
  rcases hf with rfl | ⟨dir, rfl⟩
  · have hnone := splitLast_eq_none_iff.mpr hfile
    rw [folder, hblob, List.nil_append, hnone]
  · have hsome : splitLast '/' (dir ++ '/' :: file) = some (dir, file) :=
      splitLast_eq_some_iff.mpr ⟨rfl, hfile⟩
    rw [folder, hblob, List.append_assoc, List.singleton_append, hsome]

/-- The glob of a sample is `*.parquet` in its folder. -/
theorem toList_buildFilenameGlob (sample : String) :
    (buildFilenameGlob sample).toList = folder sample ++ "*.parquet".toList := by
  unfold buildFilenameGlob folder
  cases splitLast '/' sample.toList with
  | none => rfl
  | some parts => simp

/-- A folder that is matched is a folder. -/
theorem IsFolder.of_matchesGlob (hf : IsFolder f) {g : List Char} (h : MatchesGlob f g) :
    IsFolder g := by
  rcases hf with rfl | ⟨dir, rfl⟩
  · cases h
    exact .inl rfl
  · obtain ⟨a, b, rfl, -, hb⟩ := matchesGlob_append_iff.mp h
    rw [(matchesGlob_plain_iff (by decide) (by decide)).mp hb]
    exact .inr ⟨a, rfl⟩

/-- `*.parquet` matches the names of files with the extension. -/
theorem matchesGlob_star_parquet_iff :
    MatchesGlob "*.parquet".toList file ↔ ∃ run, '/' ∉ run ∧ file = run ++ ".parquet".toList := by
  have hplain : ∀ name, MatchesGlob ".parquet".toList name ↔ name = ".parquet".toList := fun name =>
    matchesGlob_plain_iff (by decide) (by decide)
  constructor
  · rintro (_ | ⟨hrun, h⟩ | _ | ⟨hstar, _, _⟩)
    · exact ⟨_, hrun, congrArg _ ((hplain _).mp h)⟩
    · exact absurd rfl hstar
  · rintro ⟨run, hrun, rfl⟩
    exact .star hrun ((hplain _).mpr rfl)

/-- **The glob of a sample matches the parquet files of the folders that the sample's folder
matches.** -/
theorem matchesGlob_buildFilenameGlob_iff :
    MatchesGlob (buildFilenameGlob sample).toList blob.toList ↔
      MatchesGlob (folder sample) (folder blob) ∧ ".parquet".toList <:+ blob.toList := by
  have hslash : '/' ∉ ".parquet".toList := by decide
  rw [toList_buildFilenameGlob, matchesGlob_append_iff]
  constructor
  · rintro ⟨f, file, hblob, hf, hfile⟩
    obtain ⟨run, hrun, rfl⟩ := matchesGlob_star_parquet_iff.mp hfile
    have hfolder : folder blob = f :=
      folder_eq hblob ((isFolder_folder sample).of_matchesGlob hf) (by simp [hrun])
    refine ⟨hfolder ▸ hf, ?_⟩
    rw [hblob, ← List.append_assoc]
    exact List.suffix_append _ _
  · rintro ⟨hf, hsuffix⟩
    obtain ⟨file, hblob, hfile⟩ := exists_file blob
    have hsuffix : ".parquet".toList <:+ file := by
      rw [hblob] at hsuffix
      rcases isFolder_folder blob with hnil | ⟨dir, hdir⟩
      · rwa [hnil] at hsuffix
      · rw [hdir, List.append_assoc] at hsuffix
        exact (suffix_append_cons_iff hslash).mp hsuffix
    obtain ⟨run, rfl⟩ := hsuffix
    refine ⟨folder blob, _, hblob, hf, matchesGlob_star_parquet_iff.mpr ⟨run, ?_, rfl⟩⟩
    exact fun h => hfile (List.mem_append_left _ h)

/-- The name does not begin with a slash. -/
def IsRelative (blob : String) : Prop := blob.toList.head? ≠ some '/'

/-- The folder of a relative name is its directory with a slash, if it has one. -/
theorem folder_eq_directory (h : IsRelative blob) :
    folder blob =
      if directory blob = "" then [] else (directory blob).toList ++ ['/'] := by
  unfold folder directory
  cases hsplit : splitLast '/' blob.toList with
  | none => rfl
  | some parts =>
    have hdir : parts.1 ≠ [] := fun hnil => by
      have hblob := (splitLast_eq_some_iff.mp hsplit).1
      rw [IsRelative, hblob, hnil] at h
      exact h rfl
    simp [hdir]

theorem folder_eq_of_directory_eq (h : IsRelative blob) (h' : IsRelative sample)
    (hdir : directory blob = directory sample) : folder blob = folder sample := by
  rw [folder_eq_directory h, folder_eq_directory h', hdir]

theorem directory_eq (blob : String) : directory blob = String.ofList (folder blob).dropLast := by
  unfold folder directory
  cases splitLast '/' blob.toList with
  | none => rfl
  | some parts => simp

/-- The table name of a directory is empty when the directory ends in a slash. -/
theorem tableName_ne_empty_iff {container dir : String} (hcontainer : container ≠ "") :
    tableName container dir ≠ "" ↔ dir.toList.getLast? ≠ some '/' := by
  unfold tableName
  split_ifs with hempty
  · have hnil : dir.toList = [] := by simpa using hempty
    simp [hnil, hcontainer]
  · cases hsplit : splitLast '/' dir.toList with
    | none =>
      have hslash := splitLast_eq_none_iff.mp hsplit
      refine ⟨fun _ hlast => hslash (List.mem_of_getLast? hlast), fun _ => by simpa using hempty⟩
    | some parts =>
      obtain ⟨before, last⟩ := parts
      obtain ⟨hdir, hlast⟩ := splitLast_eq_some_iff.mp hsplit
      rw [hdir]
      cases last with
      | nil => simp
      | cons c last =>
        refine iff_of_true (by simp) fun h => hlast ?_
        rw [List.getLast?_append_of_ne_nil _ (List.cons_ne_nil _ _), List.getLast?_cons_cons] at h
        exact List.mem_of_getLast? h

/-- A word of the glob without slashes is in the directory, if it is not in `*.parquet`. -/
theorem infix_buildFilenameGlob_iff {w : List Char} (hw : '/' ∉ w)
    (hfile : ¬ w <:+: "*.parquet".toList) :
    w <:+: (buildFilenameGlob sample).toList ↔ w <:+: (directory sample).toList := by
  have hnil : ¬ w <:+: [] := fun h => hfile (h.trans List.nil_infix)
  unfold buildFilenameGlob directory
  cases splitLast '/' sample.toList with
  | none => exact iff_of_false hfile hnil
  | some parts =>
    have hglob : (String.ofList parts.1 ++ "/*.parquet").toList =
        parts.1 ++ '/' :: "*.parquet".toList := by simp
    simp only [hglob, infix_append_cons_iff hw, hfile, or_false, String.toList_ofList]

end Folders

/-! ### Coverage -/

/-- A blob of the container that a listing does not leave out. -/
def Visible (s : BlobStore) (blob : String) : Prop :=
  s.blobs blob ≠ none ∧ isStagingName blob = false

/-- The table can be made and used, and lists the blobs of its group. -/
structure ImportedTable.Covers (crate : RegexCrate) (listing : List BlobItem) (t : ImportedTable) :
    Prop where
  name_ne_empty : t.table ≠ ""
  option_ok : validateBlobPattern t.filenameGlob "filename" = .ok ()
  lists : ∃ glob, compileGlob crate t.filenameGlob = .ok glob ∧
    ∃ out, glob.list listing = .ok out ∧ (out.map Prod.fst).Perm t.blobs

/-- The names that a listing of the glob looks at. -/
def underGlob (listing : List BlobItem) (glob : String) : List (String × String) :=
  (listing.filter (BlobItem.hasPrefix (String.ofList
    (glob.toList.takeWhile fun c => c != '*' && c != '?')))).filterMap BlobItem.listed?

/-- When the glob of a sample stands for the sample's group. -/
structure Coverable (crate : RegexCrate) (s : BlobStore) (listing : List BlobItem)
    (remoteSchema sample : String) : Prop where
  /-- The last component of the directory is not empty. -/
  last_component : (directory sample).toList.getLast? ≠ some '/'
  no_dots : ¬ ['.', '.'] <:+: (directory sample).toList
  no_double_star : ¬ ['*', '*'] <:+: (directory sample).toList
  /-- The regex crate takes the translated glob. -/
  compiles : ∃ regex, crate.new (regexSource (buildFilenameGlob sample)) = .ok regex
  few : (underGlob listing (buildFilenameGlob sample)).length ≤ maxListResults
  /-- The blobs of the group have the extension in lower case. -/
  lower_case : ∀ blob, Visible s blob → remoteSchema.toList <+: blob.toList →
    directory blob = directory sample → isParquetName blob = true →
    ".parquet".toList <:+ blob.toList
  /-- No parquet blob of another directory that the directory matches as a pattern, and none
  outside the remote schema. -/
  alone : ∀ blob, Visible s blob → ".parquet".toList <:+ blob.toList →
    MatchesGlob (folder sample) (folder blob) →
    folder blob = folder sample ∧ remoteSchema.toList <+: blob.toList

section Coverage

variable {crate : RegexCrate} {env : ImportEnv} {stmt : ImportStmt} {imported : Imported}
  {t : ImportedTable} {s : BlobStore} {container : String} {listed : List (String × String)}

/-- The blobs of a group. -/
theorem Emitted.mem_blobs_iff (h : Emitted env stmt container listed t)
    (hlists : s.Lists (env.listing container)) {blob : String} :
    blob ∈ t.blobs ↔ Visible s blob ∧ stmt.remoteSchema.toList <+: blob.toList ∧
      isParquetName blob = true ∧ directory blob = directory t.sample := by
  have hlisted : listed = ((env.listing container).filter (BlobItem.hasPrefix
      stmt.remoteSchema)).filterMap BlobItem.listed? := foldlM_collectListed_eq h.lists
  have hnames : blob ∈ listed.map Prod.fst ↔ Visible s blob ∧
      stmt.remoteSchema.toList <+: blob.toList := by
    rw [hlisted, List.mem_map]
    constructor
    · rintro ⟨b, hb, rfl⟩
      obtain ⟨hbegins, hstaging, v, hv, -⟩ := (hlists.mem_listed _).mp hb
      exact ⟨⟨by simp [hv], hstaging⟩, List.isPrefixOf_iff_prefix.mp hbegins⟩
    · rintro ⟨⟨hblob, hstaging⟩, hbegins⟩
      obtain ⟨v, hv⟩ := Option.ne_none_iff_exists'.mp hblob
      exact ⟨(blob, v.etag), (hlists.mem_listed _).mpr
        ⟨List.isPrefixOf_iff_prefix.mpr hbegins, hstaging, v, hv, rfl⟩, rfl⟩
  rw [h.blobs_eq, mem_ofKey, List.mem_filter, hnames]
  tauto

theorem Emitted.nodup_blobs (h : Emitted env stmt container listed t)
    (hlists : s.Lists (env.listing container)) : t.blobs.Nodup := by
  rw [h.blobs_eq]
  refine List.Nodup.filter _ (List.Nodup.filter _ ?_)
  rw [foldlM_collectListed_eq h.lists]
  exact hlists.nodup_names _

/-- Names under the remote schema do not begin with a slash. -/
theorem Emitted.isRelative (h : Emitted env stmt container listed t) {blob : String}
    (hbegins : stmt.remoteSchema.toList <+: blob.toList) : IsRelative blob := by
  have hschema := h.remoteSchema_ok
  unfold validateBlobPattern at hschema
  split_ifs at hschema with hempty hslash hdots
  obtain ⟨rest, hrest⟩ := hbegins
  obtain ⟨c, cs, hcs⟩ := List.exists_cons_of_ne_nil
    (by simpa using hempty : stmt.remoteSchema.toList ≠ [])
  rw [IsRelative, ← hrest]
  rw [hcs] at hslash ⊢
  exact hslash

theorem Emitted.container_ne_empty (h : Emitted env stmt container listed t) :
    container ≠ "" := by
  rintro rfl
  have hcontainer := h.container_ok
  unfold validateContainerName at hcontainer
  dsimp only at hcontainer
  split_ifs at hcontainer with hok
  exact absurd hok.1.1 (by decide)

/-- The glob of a relative name is not empty and does not begin with a slash. -/
theorem relative_buildFilenameGlob {sample : String} (hrelative : IsRelative sample) :
    buildFilenameGlob sample ≠ "" ∧ (buildFilenameGlob sample).toList.head? ≠ some '/' := by
  have hglob := toList_buildFilenameGlob sample
  constructor
  · intro hempty
    rw [hempty] at hglob
    exact absurd hglob (by simp)
  · rw [hglob]
    obtain ⟨file, hsample, -⟩ := exists_file sample
    cases hfolder : folder sample with
    | nil => decide
    | cons c cs =>
      rw [IsRelative, hsample, hfolder] at hrelative
      exact hrelative

/-- The glob can be parsed when its directory has no `..` and no `**`. -/
theorem exists_compileGlob_buildFilenameGlob_iff {sample : String}
    (hrelative : IsRelative sample) :
    (∃ glob, compileGlob crate (buildFilenameGlob sample) = .ok glob) ↔
      ¬ ['.', '.'] <:+: (directory sample).toList ∧
        ¬ ['*', '*'] <:+: (directory sample).toList ∧
        ∃ regex, crate.new (regexSource (buildFilenameGlob sample)) = .ok regex := by
  rw [exists_compileGlob_iff, infix_buildFilenameGlob_iff (by decide) (by decide),
    infix_buildFilenameGlob_iff (by decide) (by decide),
    and_iff_right (relative_buildFilenameGlob hrelative)]

/-- The listing of a glob succeeds when there are few names under its prefix. -/
theorem exists_list_iff {glob : CompiledGlob crate} {pattern : String} {listing : List BlobItem}
    (hglob : compileGlob crate pattern = .ok glob) (hlists : s.Lists listing) :
    (∃ out, glob.list listing = .ok out) ↔ (underGlob listing pattern).length ≤ maxListResults := by
  have hitems : ∀ item ∈ listing.filter (BlobItem.hasPrefix glob.prefixText), ∃ name etag,
      item = ⟨some name, some etag⟩ := fun item hitem =>
    hlists.items item (List.mem_of_mem_filter hitem)
  have hnil : ([] : List (String × String)).length ≤ maxListResults := Nat.zero_le _
  have hlisted := exists_foldlM_collectListed_iff hitems hnil
  rw [List.length_nil, Nat.zero_add] at hlisted
  have hbegin : glob.prefixText = _ := (compileGlob_eq_ok hglob).1.prefixText_eq
  rw [underGlob, ← hbegin, ← hlisted]
  constructor
  · rintro ⟨out, hout⟩
    obtain ⟨names, hnames, -⟩ := except_bind_eq_ok.mp hout
    exact ⟨names, hnames⟩
  · rintro ⟨names, hnames⟩
    exact ⟨_, except_bind_eq_ok.mpr ⟨names, hnames, rfl⟩⟩

/-- The names that the glob of a sample lists. -/
theorem mem_names_of_list {glob : CompiledGlob crate} {sample : String} {listing : List BlobItem}
    (hglob : compileGlob crate (buildFilenameGlob sample) = .ok glob) (hlists : s.Lists listing)
    {out : List (String × String)} (hout : glob.list listing = .ok out) {blob : String} :
    blob ∈ out.map Prod.fst ↔ Visible s blob ∧ MatchesGlob (folder sample) (folder blob) ∧
      ".parquet".toList <:+ blob.toList := by
  rw [List.mem_map, ← matchesGlob_buildFilenameGlob_iff]
  constructor
  · rintro ⟨⟨blob, etag⟩, hb, rfl⟩
    obtain ⟨⟨v, hv, -⟩, hstaging, hmatch⟩ := (CompiledGlob.mem_of_list hglob hlists hout _ _).mp hb
    exact ⟨⟨by simp [hv], hstaging⟩, hmatch⟩
  · rintro ⟨⟨hblob, hstaging⟩, hmatch⟩
    obtain ⟨v, hv⟩ := Option.ne_none_iff_exists'.mp hblob
    exact ⟨(blob, v.etag), (CompiledGlob.mem_of_list hglob hlists hout _ _).mpr
      ⟨⟨v, hv, rfl⟩, hstaging, hmatch⟩, rfl⟩

theorem isParquetName_of_suffix {blob : String} (h : ".parquet".toList <:+ blob.toList) :
    isParquetName blob = true :=
  decide_eq_true (h.map Char.toLower)

theorem Emitted.covers_iff (h : Emitted env stmt container listed t)
    (hlists : s.Lists (env.listing container)) :
    t.Covers crate (env.listing container) ↔
      Coverable crate s (env.listing container) stmt.remoteSchema t.sample := by
  have hmem : ∀ blob, blob ∈ t.blobs ↔ _ := fun blob => h.mem_blobs_iff hlists
  have hrelative : IsRelative t.sample :=
    h.isRelative ((hmem _).mp h.sample_mem).2.1
  constructor
  · rintro ⟨hname, -, glob, hglob, out, hout, hperm⟩
    rw [h.table_eq, tableName_ne_empty_iff h.container_ne_empty] at hname
    rw [h.glob_eq] at hglob
    obtain ⟨hdots, hstars, hregex⟩ :=
      (exists_compileGlob_buildFilenameGlob_iff hrelative).mp ⟨glob, hglob⟩
    refine ⟨hname, hdots, hstars, hregex, (exists_list_iff hglob hlists).mp ⟨out, hout⟩, ?_, ?_⟩
    · intro blob hvisible hbegins hdir hparquet
      have hblob := hperm.mem_iff.mpr ((hmem blob).mpr ⟨hvisible, hbegins, hparquet, hdir⟩)
      exact ((mem_names_of_list hglob hlists hout).mp hblob).2.2
    · intro blob hvisible hsuffix hmatch
      have hblob := hperm.mem_iff.mp
        ((mem_names_of_list hglob hlists hout).mpr ⟨hvisible, hmatch, hsuffix⟩)
      obtain ⟨-, hbegins, -, hdir⟩ := (hmem blob).mp hblob
      exact ⟨folder_eq_of_directory_eq (h.isRelative hbegins) hrelative hdir, hbegins⟩
  · rintro ⟨hname, hdots, hstars, hregex, hfew, hlower, halone⟩
    obtain ⟨glob, hglob⟩ :=
      (exists_compileGlob_buildFilenameGlob_iff hrelative).mpr ⟨hdots, hstars, hregex⟩
    obtain ⟨out, hout⟩ := (exists_list_iff hglob hlists).mpr hfew
    refine ⟨?_, ?_, glob, ?_, out, hout, ?_⟩
    · rwa [h.table_eq, tableName_ne_empty_iff h.container_ne_empty]
    · rw [h.glob_eq]
      exact (compileGlob_eq_ok hglob).1.validateBlobPattern _
    · rwa [h.glob_eq]
    · have hnodup : (out.map Prod.fst).Nodup :=
        nodup_globSourceList hlists ((glob.list_eq hglob _).symm.trans hout)
      refine (List.perm_ext_iff_of_nodup hnodup (h.nodup_blobs hlists)).mpr fun blob => ?_
      rw [mem_names_of_list hglob hlists hout, hmem]
      constructor
      · rintro ⟨hvisible, hmatch, hsuffix⟩
        obtain ⟨hfolder, hbegins⟩ := halone blob hvisible hsuffix hmatch
        refine ⟨hvisible, hbegins, isParquetName_of_suffix hsuffix, ?_⟩
        rw [directory_eq, directory_eq, hfolder]
      · rintro ⟨hvisible, hbegins, hparquet, hdir⟩
        refine ⟨hvisible, ?_, hlower blob hvisible hbegins hdir hparquet⟩
        rw [folder_eq_of_directory_eq (h.isRelative hbegins) hrelative hdir]
        exact matchesGlob_self _

/-- **When an imported table covers its group.**  Its statement is emitted; it has a name, its
`filename` is accepted, and a scan lists exactly the group, if and only if the directory is one
that a glob can stand for, the extensions are in lower case, and nothing else matches. -/
theorem group_covered_iff (h : importTables env stmt = .ok imported) (ht : t ∈ imported.tables)
    (hlists : s.Lists (env.listing imported.container)) :
    (∀ ddls, doImport env stmt = .ok ddls → imported.ddl stmt t ∈ ddls) ∧
      (t.Covers crate (env.listing imported.container) ↔
        Coverable crate s (env.listing imported.container) stmt.remoteSchema t.sample) := by
  obtain ⟨listed, hemitted⟩ := emitted_of_importTables h ht
  exact ⟨fun ddls hddls => ddl_mem_of_doImport h hddls ht, hemitted.covers_iff hlists⟩

end Coverage

/-! ### Two containers -/

/-- An import of the container `lake` with these blobs, each of one column. -/
def lakeEnv (blobs : List (String × Version)) : ImportEnv where
  serverName := some "azure"
  client _ := .ok ()
  listing _ := blobs.map fun b => ⟨some b.1, some b.2.etag⟩
  schema _ := .ok [("id", .int32)]

def lakeStmt : ImportStmt := ⟨"data", "public", .all, [], [("container", "lake")]⟩

/-- The table for a directory with these blobs. -/
def directoryTable (name : String) (blobs : List String) (sample : String) : ImportedTable :=
  ⟨name, blobs, sample, name ++ "/*.parquet", [("id", "INTEGER")]⟩

/-- Two directories, one of them with a file that is not imported. -/
def lowerCase : List (String × Version) :=
  [("data/a.parquet", ⟨"0x1", []⟩), ("data/b.parquet", ⟨"0x2", []⟩), ("data/notes.txt", ⟨"0x3", []⟩),
    ("database/c.parquet", ⟨"0x4", []⟩)]

/-- The blobs of the directory `data` in it. -/
def lowerCaseTable : ImportedTable :=
  directoryTable "data" ["data/a.parquet", "data/b.parquet"] "data/a.parquet"

/-- A table that covers its group, and no other blob. -/
theorem lower_case_is_covered :
    importTables (lakeEnv lowerCase) lakeStmt = .ok ⟨"azure", "lake", [lowerCaseTable,
        directoryTable "database" ["database/c.parquet"] "database/c.parquet"], []⟩ ∧
      lowerCaseTable.Covers (onlyCrate "data/*.parquet") ((lakeEnv lowerCase).listing "lake") := by
  have himport : importTables (lakeEnv lowerCase) lakeStmt = .ok ⟨"azure", "lake", [lowerCaseTable,
      directoryTable "database" ["database/c.parquet"] "database/c.parquet"], []⟩ := by decide
  have hlists : (BlobStore.holding lowerCase).Lists ((lakeEnv lowerCase).listing "lake") :=
    BlobStore.lists_holding (by decide)
  refine ⟨himport, (group_covered_iff himport List.mem_cons_self hlists).2.mpr ?_⟩
  have hnames : ∀ blob, Visible (.holding lowerCase) blob → blob ∈ lowerCase.map Prod.fst := by
    intro blob hvisible
    obtain ⟨v, hv⟩ := Option.ne_none_iff_exists'.mp hvisible.1
    exact List.mem_map_of_mem (mem_of_lookup hv)
  refine ⟨by decide, by decide, by decide, ⟨(), ?_⟩, by decide, fun blob hvisible => ?_,
    fun blob hvisible => ?_⟩
  · have hglob : buildFilenameGlob "data/a.parquet" = "data/*.parquet" := by decide
    exact hglob ▸ onlyCrate_new _
  · have hlower : ∀ blob ∈ lowerCase.map Prod.fst, isParquetName blob = true →
        ".parquet".toList <:+ blob.toList := by decide
    exact fun _ _ => hlower blob (hnames blob hvisible)
  · have halone : ∀ blob ∈ lowerCase.map Prod.fst,
        Wildcard.isMatch '/' ((folder "data/a.parquet").map globAtom) (folder blob) = true →
          folder blob = folder "data/a.parquet" ∧ "data".toList <+: blob.toList := by decide
    exact fun _ hmatch => halone blob (hnames blob hvisible) (isMatch_iff_matchesGlob.mpr hmatch)

/-- A blob whose extension is in upper case. -/
def upperCase : List (String × Version) := [("data/a.PARQUET", ⟨"0x1", []⟩)]

/-- It is imported, and its table lists nothing. -/
theorem upper_case_is_not_covered :
    importTables (lakeEnv upperCase) lakeStmt = .ok ⟨"azure", "lake",
        [directoryTable "data" ["data/a.PARQUET"] "data/a.PARQUET"], []⟩ ∧
      ¬ (directoryTable "data" ["data/a.PARQUET"] "data/a.PARQUET").Covers
        (onlyCrate "data/*.parquet") ((lakeEnv upperCase).listing "lake") := by
  refine ⟨by decide, fun hcovers => ?_⟩
  obtain ⟨glob, hglob, out, hout, hperm⟩ := hcovers.lists
  have hlists : (BlobStore.holding upperCase).Lists ((lakeEnv upperCase).listing "lake") :=
    BlobStore.lists_holding (by decide)
  have hmem : "data/a.PARQUET" ∈ out.map Prod.fst :=
    hperm.mem_iff.mpr (List.mem_singleton_self _)
  obtain ⟨⟨name, etag⟩, hb, rfl⟩ := List.mem_map.mp hmem
  obtain ⟨-, -, hmatch⟩ := (CompiledGlob.mem_of_list hglob hlists hout _ _).mp hb
  exact absurd (isMatch_iff_matchesGlob.mpr hmatch) (by decide)

end ParquetAzureFdw
