/-
# IMPORT FOREIGN SCHEMA

`do_import`, `apply_limit_or_except`, `build_filename_glob` and `infer_columns` of
`src/fdw/import_schema.rs`.  The parquet
blobs under the remote schema are grouped by their directories.  A table is made for each group
whose first blob, the sample, has a schema; its `filename` is the directory of the sample with
`*.parquet` below it.

What the catalogue, the service and the parquet reader give is in `ImportEnv`.
-/

import ParquetAzureFdw.Import.Ddl
import ParquetAzureFdw.Import.Group
import ParquetAzureFdw.Options.Table
import ParquetAzureFdw.Scan.GlobText

namespace ParquetAzureFdw

open Std Grouping Paths

/-- `ImportForeignSchemaType`. -/
inductive ImportSchemaType where
  | all | limitTo | except
  deriving DecidableEq, Repr

/-- The fields of `ImportForeignSchemaStmt` that `do_import` reads. -/
structure ImportStmt where
  remoteSchema : String
  localSchema : String
  listType : ImportSchemaType
  tableList : List String
  options : List (String × String)
  deriving DecidableEq, Repr

/-- What `do_import` finds outside: the name of the foreign server, the result of building a
client for a container, the blobs that the service lists there, and the fields of the arrow
schema of a blob. -/
structure ImportEnv where
  serverName : Option String
  client : String → FdwResult Unit
  listing : String → List BlobItem
  schema : String → FdwResult (List (String × DataType))

/-- The test that `do_import` filters the listing by. -/
def isParquetName (name : String) : Bool :=
  decide (".parquet".toList <:+ name.toList.map Char.toLower)

/-- `apply_limit_or_except`. -/
def applyLimitOrExcept (groups : TreeMap String (List String) compareBytes) (stmt : ImportStmt) :
    TreeMap String (List String) compareBytes :=
  match stmt.listType with
  | .all => groups
  | .limitTo => groups.filter fun table _ => stmt.tableList.contains table
  | .except => groups.filter fun table _ => !stmt.tableList.contains table

/-- `build_filename_glob`. -/
def buildFilenameGlob (sample : String) : String :=
  match splitLast '/' sample.toList with
  | some (dir, _) => String.ofList dir ++ "/*.parquet"
  | none => "*.parquet"

/-- `infer_columns`. -/
def inferColumns (env : ImportEnv) (name : String) : FdwResult (List (String × String)) := do
  let fields ← env.schema name
  let cols ← fields.mapM fun f => do
    let ty ← arrowTypeToPgTypename f.2
    return (f.1, ty)
  if cols.isEmpty then
    .error (.schemaMismatch ("Parquet file '" ++ name ++ "' has no columns, cannot import"))
  else .ok cols

/-- A table with what its statement is made of, and the blobs of its group. -/
structure ImportedTable where
  table : String
  blobs : List String
  sample : String
  filenameGlob : String
  columns : List (String × String)
  deriving DecidableEq, Repr

/-- The variables of `do_import` behind its loop, and the notices of the loop. -/
structure Imported where
  serverName : String
  container : String
  tables : List ImportedTable
  notices : List String
  deriving DecidableEq, Repr

/-- An iteration of the loop over the groups. -/
def Imported.emit (env : ImportEnv) (s : Imported) (group : String × List String) : Imported :=
  match group.2 with
  | [] => s
  | sample :: _ =>
    match inferColumns env sample with
    | .error e =>
      { s with notices := s.notices ++
          ["skipped table \"" ++ group.1 ++ "\" (schema inference failed: " ++ e.display ++ ")"] }
    | .ok columns =>
      { s with tables := s.tables ++
          [⟨group.1, group.2, sample, buildFilenameGlob sample, columns⟩] }

/-- `GetForeignServer`. -/
def ImportEnv.foreignServer (env : ImportEnv) : FdwResult String :=
  match env.serverName with
  | some name => .ok name
  | none => .error (.invalidOption "foreign server not found")

/-- The container that the options of the statement name. -/
def ImportStmt.container (stmt : ImportStmt) : FdwResult String :=
  match stmt.options.find? fun kv => kv.1 == "container" with
  | some kv => .ok kv.2
  | none => .error (.missingOption "IMPORT FOREIGN SCHEMA requires OPTIONS (container 'xxx')")

/-- `do_import` up to the end of the loop over the groups. -/
def importTables (env : ImportEnv) (stmt : ImportStmt) : FdwResult Imported := do
  let serverName ← env.foreignServer
  let container ← stmt.container
  validateContainerName container
  env.client container
  validateBlobPattern stmt.remoteSchema "remote_schema"
  let listed ← listWithPrefixEtags (env.listing container) stmt.remoteSchema
  let blobNames := (listed.map Prod.fst).filter isParquetName
  let groups := applyLimitOrExcept (groupBlobsByDirectory blobNames container) stmt
  return groups.toList.foldl (Imported.emit env) ⟨serverName, container, [], []⟩

/-- The statement for a table. -/
def Imported.ddl (s : Imported) (stmt : ImportStmt) (t : ImportedTable) : String :=
  buildCreateTableDdl stmt.localSchema t.table s.serverName s.container t.filenameGlob t.columns

/-- `CString::new` for a statement. -/
def cStringNew (ddl : String) : FdwResult String :=
  if '\x00' ∈ ddl.toList then .error (.schemaMismatch "generated DDL contains NUL byte")
  else .ok ddl

/-- `do_import`. -/
def doImport (env : ImportEnv) (stmt : ImportStmt) : FdwResult (List String) := do
  let imported ← importTables env stmt
  imported.tables.mapM fun t => cStringNew (imported.ddl stmt t)

/-! ### What it emits -/

section Emitted

variable {env : ImportEnv} {stmt : ImportStmt} {imported : Imported} {t : ImportedTable}

/-- The statements are those of the tables. -/
theorem ddl_mem_of_doImport {ddls : List String} (h : importTables env stmt = .ok imported)
    (hddls : doImport env stmt = .ok ddls) (ht : t ∈ imported.tables) :
    imported.ddl stmt t ∈ ddls := by
  rw [doImport, h] at hddls
  have hforall : List.Forall₂ (fun t ddl => imported.ddl stmt t = ddl) imported.tables ddls := by
    refine (mapM_eq_ok_iff.mp hddls).imp fun t ddl hddl => ?_
    unfold cStringNew at hddl
    split_ifs at hddl
    exact Except.ok.inj hddl
  have hmap : imported.tables.map (imported.ddl stmt) = ddls := by
    rwa [← List.forall₂_map_left_iff, List.forall₂_eq_eq_eq] at hforall
  exact hmap ▸ List.mem_map_of_mem ht

/-- An iteration of the loop adds at most the table of its group. -/
theorem Imported.mem_tables_emit {s : Imported} {group : String × List String}
    (ht : t ∈ (s.emit env group).tables) :
    t ∈ s.tables ∨ t.table = group.1 ∧ t.blobs = group.2 ∧ group.2.head? = some t.sample ∧
      t.filenameGlob = buildFilenameGlob t.sample := by
  obtain ⟨table, blobs⟩ := group
  cases blobs with
  | nil => exact .inl ht
  | cons sample blobs =>
    unfold Imported.emit at ht
    dsimp only at ht
    cases hcolumns : inferColumns env sample with
    | error e =>
      rw [hcolumns] at ht
      exact .inl ht
    | ok columns =>
      rw [hcolumns] at ht
      rcases List.mem_append.mp ht with ht | ht
      · exact .inl ht
      · rw [List.mem_singleton.mp ht]
        exact .inr ⟨rfl, rfl, rfl, rfl⟩

theorem Imported.container_emit (s : Imported) (group : String × List String) :
    (s.emit env group).container = s.container := by
  unfold Imported.emit
  split
  · rfl
  · split <;> rfl

/-- **Every table is that of a group.** -/
theorem Imported.mem_tables_foldl {s : Imported} {groups : List (String × List String)}
    (hs : s.tables = []) (ht : t ∈ (groups.foldl (Imported.emit env) s).tables) :
    (t.table, t.blobs) ∈ groups ∧ t.blobs.head? = some t.sample ∧
      t.filenameGlob = buildFilenameGlob t.sample := by
  have hall : ∀ (groups : List (String × List String)) (s : Imported),
      t ∈ (groups.foldl (Imported.emit env) s).tables → t ∈ s.tables ∨
        (t.table, t.blobs) ∈ groups ∧ t.blobs.head? = some t.sample ∧
          t.filenameGlob = buildFilenameGlob t.sample := by
    intro groups
    induction groups with
    | nil => exact fun s ht => .inl ht
    | cons group groups ih =>
      intro s ht
      rcases ih _ ht with ht | ⟨hmem, hrest⟩
      · rcases Imported.mem_tables_emit ht with ht | ⟨htable, hblobs, hrest⟩
        · exact .inl ht
        · exact .inr ⟨by rw [htable, hblobs]; exact List.mem_cons_self, hblobs ▸ hrest⟩
      · exact .inr ⟨List.mem_cons_of_mem _ hmem, hrest⟩
  rcases hall groups s ht with ht | ht
  · rw [hs] at ht
    cases ht
  · exact ht

theorem Imported.container_foldl (s : Imported) (groups : List (String × List String)) :
    (groups.foldl (Imported.emit env) s).container = s.container := by
  induction groups generalizing s with
  | nil => rfl
  | cons group groups ih => rw [List.foldl_cons, ih, Imported.container_emit]

/-- Groups are only left out. -/
theorem mem_toList_of_applyLimitOrExcept {groups : TreeMap String (List String) compareBytes}
    {group : String × List String} (h : group ∈ (applyLimitOrExcept groups stmt).toList) :
    group ∈ groups.toList := by
  unfold applyLimitOrExcept at h
  split at h
  · exact h
  · rw [TreeMap.toList_filter] at h
    exact List.mem_of_mem_filter h
  · rw [TreeMap.toList_filter] at h
    exact List.mem_of_mem_filter h

/-- A table with where it comes from. -/
structure Emitted (env : ImportEnv) (stmt : ImportStmt) (container : String)
    (listed : List (String × String)) (t : ImportedTable) : Prop where
  container_ok : validateContainerName container = .ok ()
  remoteSchema_ok : validateBlobPattern stmt.remoteSchema "remote_schema" = .ok ()
  lists : listWithPrefixEtags (env.listing container) stmt.remoteSchema = .ok listed
  table_eq : t.table = tableName container (directory t.sample)
  sample_mem : t.sample ∈ t.blobs
  blobs_eq : t.blobs = ofKey directory ((listed.map Prod.fst).filter isParquetName)
    (directory t.sample)
  glob_eq : t.filenameGlob = buildFilenameGlob t.sample

theorem emitted_of_importTables (h : importTables env stmt = .ok imported)
    (ht : t ∈ imported.tables) : ∃ listed, Emitted env stmt imported.container listed t := by
  unfold importTables at h
  obtain ⟨serverName, -, h⟩ := except_bind_eq_ok.mp h
  obtain ⟨container, -, h⟩ := except_bind_eq_ok.mp h
  obtain ⟨⟨⟩, hcontainer, h⟩ := except_bind_eq_ok.mp h
  obtain ⟨⟨⟩, -, h⟩ := except_bind_eq_ok.mp h
  obtain ⟨⟨⟩, hschema, h⟩ := except_bind_eq_ok.mp h
  obtain ⟨listed, hlisted, h⟩ := except_bind_eq_ok.mp h
  obtain rfl := Except.ok.inj h
  rw [Imported.container_foldl]
  obtain ⟨hmem, hsample, hglob⟩ := Imported.mem_tables_foldl rfl ht
  have hgroup := TreeMap.mem_toList_iff_getElem?_eq_some.mp
    (mem_toList_of_applyLimitOrExcept hmem)
  obtain ⟨dir, hblobs, -, htable, -⟩ := groupBlobsByDirectory_eq_some_iff.mp hgroup
  have hsampleMem : t.sample ∈ t.blobs := List.mem_of_head? hsample
  have hdir : directory t.sample = dir := eq_of_mem_ofKey (hblobs ▸ hsampleMem)
  subst hdir
  exact ⟨listed, hcontainer, hschema, hlisted, htable.symm, hsampleMem, hblobs, hglob⟩

end Emitted

end ParquetAzureFdw
