/-
# The relation's columns

What every callback reads of the foreign table: the attributes of its tuple
descriptor, and which of them the table options declare as partition columns.
The other attributes are the storage columns: a blob written by INSERT carries
those and no others, in descriptor order (`storageAttnos`).

INSERT, the scan and the rewrite each number columns for themselves.  The number
of a storage column in a blob is its rank among the storage columns; it is the
number of the attribute exactly when no partition column stands before it
(`storageAttnos_getElem?_self_iff`).
-/

import ParquetAzureFdw.Lib.Ascending
import ParquetAzureFdw.Partition.Path

namespace ParquetAzureFdw

/-- The fields of `pg_attribute` that the wrapper reads. -/
structure Attribute where
  name : String
  typid : Oid
  notNull : Bool
  isDropped : Bool
  deriving DecidableEq, Repr

/-- The options `partition_columns` and `partition_keys`, as
`parse_table_options_from_slice` accepts them: the same names, in the same order. -/
structure PartitionOptions where
  columns : List String
  keys : List (String × PgPartitionType)
  agree : List.Forall₂ (fun col key => eqIgnoreAsciiCase col.toList key.1.toList = true) columns keys

/-- The walk over the tuple descriptor that collects the types of the attributes;
`path` ends the text of the error. -/
def attributeOids (path : String) (attrs : List Attribute) : FdwResult (List Oid) :=
  attrs.zipIdx.mapM fun (att, i) =>
    if att.isDropped then
      .error (.schemaMismatch ("dropped column at attnum " ++ toString (i + 1) ++ " not supported" ++
        path))
    else .ok att.typid

/-- The attribute of a declared partition column. -/
def resolvePartitionAttnum (attrs : List Attribute) (name : String) : FdwResult ℕ :=
  match attrs.findIdx? fun att => eqIgnoreAsciiCase att.name.toList name.toList with
  | some attno => .ok attno
  | none =>
    .error (.schemaMismatch ("partition_columns names '" ++ name ++
      "' but no such column in foreign table"))

/-- Whether the options declare attribute `p` as a partition column: it is the first of a
declared name, ignoring case. -/
def PartitionOptions.Declares (opts : PartitionOptions) (attrs : List Attribute) (p : ℕ) : Prop :=
  ∃ name ∈ opts.columns,
    attrs.findIdx? (fun att => eqIgnoreAsciiCase att.name.toList name.toList) = some p

/-- The partition resolution of `build_state`, for a scan as for INSERT. -/
def resolvePartitionAttnums (attrs : List Attribute) (columns : List String) : FdwResult (List ℕ) :=
  columns.mapM (resolvePartitionAttnum attrs)

/-- The attributes that are no partition columns, in descriptor order. -/
def storageAttnos (partitionAttnums : List ℕ) (natts : ℕ) : List ℕ :=
  (List.range natts).filter (· ∉ partitionAttnums)

theorem attributeOids_eq {path : String} {attrs : List Attribute} {oids : List Oid}
    (h : attributeOids path attrs = .ok oids) : oids = attrs.map Attribute.typid := by
  have hall := mapM_eq_ok_iff.mp h
  have htypid : List.Forall₂ (fun (att : Attribute × ℕ) oid => att.1.typid = oid) attrs.zipIdx oids := by
    refine hall.imp fun att oid hatt => ?_
    dsimp only at hatt
    split_ifs at hatt
    exact Except.ok.inj hatt
  have hmap : attrs.zipIdx.map (Attribute.typid ∘ Prod.fst) = oids := by
    rw [← List.forall₂_eq_eq_eq, List.forall₂_map_left_iff]
    exact htypid
  rw [← hmap, ← List.map_map, List.zipIdx_map_fst]

/-- The two walks over the descriptor reject the same columns. -/
theorem attributeOids_path {path : String} {attrs : List Attribute} {oids : List Oid}
    (h : attributeOids path attrs = .ok oids) (path' : String) :
    attributeOids path' attrs = .ok oids := by
  refine mapM_eq_ok_iff.mpr ((mapM_eq_ok_iff.mp h).imp fun att oid hatt => ?_)
  dsimp only at hatt ⊢
  split_ifs at hatt with hdropped
  rw [if_neg hdropped]
  exact hatt

theorem resolvePartitionAttnum_eq_ok {attrs : List Attribute} {name : String} {p : ℕ} :
    resolvePartitionAttnum attrs name = .ok p ↔
      attrs.findIdx? (fun att => eqIgnoreAsciiCase att.name.toList name.toList) = some p := by
  rw [resolvePartitionAttnum]
  split
  · rename_i attno hfind
    rw [hfind, Except.ok.injEq, Option.some.injEq]
  · rename_i hfind
    rw [hfind]
    simp

/-- The attributes resolved are those that the options declare. -/
theorem mem_partitionAttnums_iff {attrs : List Attribute} {opts : PartitionOptions}
    {partitionAttnums : List ℕ}
    (h : resolvePartitionAttnums attrs opts.columns = .ok partitionAttnums) {p : ℕ} :
    p ∈ partitionAttnums ↔ opts.Declares attrs p := by
  have hall := mapM_eq_ok_iff.mp h
  constructor
  · intro hp
    obtain ⟨name, hname, hresolve⟩ := forall₂_exists_of_mem hall.flip hp
    exact ⟨name, hname, resolvePartitionAttnum_eq_ok.mp hresolve⟩
  · rintro ⟨name, hname, hfind⟩
    obtain ⟨k, hk⟩ := List.getElem?_of_mem hname
    obtain ⟨q, hq, hresolve⟩ := forall₂_getElem? hall hk
    obtain rfl : p = q :=
      Except.ok.inj ((resolvePartitionAttnum_eq_ok.mpr hfind).symm.trans hresolve)
    exact List.mem_of_getElem? hq

theorem PartitionOptions.Declares.lt {opts : PartitionOptions} {attrs : List Attribute} {p : ℕ}
    (h : opts.Declares attrs p) : p < attrs.length := by
  obtain ⟨name, -, hfind⟩ := h
  exact (List.findIdx?_eq_some_iff_getElem.mp hfind).1

section Storage

variable {partitionAttnums : List ℕ} {natts : ℕ}

theorem mem_storageAttnos {a : ℕ} :
    a ∈ storageAttnos partitionAttnums natts ↔ a < natts ∧ a ∉ partitionAttnums := by
  simp [storageAttnos]

theorem storageAttnos_sorted : (storageAttnos partitionAttnums natts).Pairwise (· < ·) :=
  List.Pairwise.filter _ List.pairwise_lt_range

/-- **A storage column has its attribute's number in the blob exactly when no partition
column stands before it.** -/
theorem storageAttnos_getElem?_self_iff {a : ℕ} (ha : a < natts) :
    (storageAttnos partitionAttnums natts)[a]? = some a ↔ ∀ p ∈ partitionAttnums, a < p := by
  constructor
  · intro h p hp
    have hmem := (mem_storageAttnos.mp (List.mem_of_getElem? h)).2
    have hbelow := (Ascending.rank_le_and_eq_iff storageAttnos_sorted h).2.mp rfl
    by_contra hle
    rcases Nat.lt_or_eq_of_le (Nat.le_of_not_lt hle) with hlt | rfl
    · exact (mem_storageAttnos.mp (hbelow p hlt)).2 hp
    · exact hmem hp
  · intro h
    have hstorage : ∀ q ≤ a, q ∈ storageAttnos partitionAttnums natts := fun q hq =>
      mem_storageAttnos.mpr ⟨by omega, fun hp => by have := h q hp; omega⟩
    obtain ⟨r, hr⟩ := List.getElem?_of_mem (hstorage a le_rfl)
    have hrank := (Ascending.rank_le_and_eq_iff storageAttnos_sorted hr).2.mpr fun q hq =>
      hstorage q hq.le
    rwa [hrank] at hr

end Storage

end ParquetAzureFdw
