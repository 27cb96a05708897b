/-
# Nested root fields

A parquet schema is a tree.  Row-group metadata has a column chunk for every leaf, a
projection has a column for every root field.  `evaluate_leaf_against_rg` of
`src/fdw/pushdown.rs` takes the column of a qual as the number of a leaf,
`build_row_filter` as the number of a root.

The leaf `c` belongs to the root `c` exactly when the roots before it have one leaf each
(`ParquetSchema.columnRoot_spec`).  Together with the order in which the filter looks its
columns up, this decides when pruning and the filter consult the same column
(`pruning_and_filter_agree_iff`).
-/

import ParquetAzureFdw.Lib.Segments
import ParquetAzureFdw.Partition.Split
import ParquetAzureFdw.Pushdown.RowFilter
import ParquetAzureFdw.Pushdown.RowGroups
import ParquetAzureFdw.Pushdown.Walk

namespace ParquetAzureFdw

/-! ### Schema trees -/

/-- A field of a parquet schema.  An element of the file's schema without children is read as a
primitive column, so a group has a first field. -/
inductive SchemaField where
  | primitive
  | group (first : SchemaField) (others : List SchemaField)

mutual

/-- The number of leaf columns of a field. -/
def SchemaField.leafCount : SchemaField → ℕ
  | .primitive => 1
  | .group first others => first.leafCount + SchemaField.leafCounts others

/-- The number of leaf columns of a list of fields. -/
def SchemaField.leafCounts : List SchemaField → ℕ
  | [] => 0
  | f :: fs => f.leafCount + SchemaField.leafCounts fs

end

theorem SchemaField.leafCount_pos (field : SchemaField) : 1 ≤ field.leafCount :=
  @SchemaField.rec (fun f => 1 ≤ f.leafCount) (fun _ => True) (by rw [leafCount])
    (fun first others hfirst _ => by rw [leafCount]; omega) trivial (fun _ _ _ _ => trivial) field

/-- `SchemaDescriptor`: the root fields. -/
structure ParquetSchema where
  roots : List SchemaField

/-- Each root with the number of its leaves. -/
def ParquetSchema.segments (schema : ParquetSchema) : List (ℕ × ℕ) :=
  schema.roots.zipIdx.map fun root => (root.2, root.1.leafCount)

/-- `get_column_root_idx`: the root of a leaf column.  The leaves are numbered depth first. -/
def ParquetSchema.columnRoot (schema : ParquetSchema) (leaf : ℕ) : Option ℕ :=
  (Segments.entries schema.segments)[leaf]?.map Prod.fst

/-- The roots before `c` have one leaf each. -/
def ParquetSchema.FlatBefore (schema : ParquetSchema) (c : ℕ) : Prop :=
  ∀ i < c, ∀ root, schema.roots[i]? = some root → root.leafCount = 1

namespace ParquetSchema

variable {schema : ParquetSchema}

theorem segments_getElem? {i : ℕ} : schema.segments[i]? =
    schema.roots[i]?.map fun root => (i, root.leafCount) := by
  simp [segments, Function.comp_def]

/-- The leaves of a root begin at its number or later, and at its number exactly when the roots
before have one leaf each. -/
theorem start_segments {i : ℕ} (hi : i ≤ schema.roots.length) :
    i ≤ Segments.start schema.segments i ∧
      (i = Segments.start schema.segments i ↔ schema.FlatBefore i) := by
  have hones : Segments.start (schema.roots.zipIdx.map fun root => (root.2, 1)) i = i := by
    simp [Segments.start, Function.comp_def, hi]
  obtain ⟨hle, hiff⟩ := Segments.start_eq_start_iff schema.roots.zipIdx Prod.snd
    (f := fun _ => 1) (g := fun root => root.1.leafCount)
    (fun root _ => root.1.leafCount_pos) i
  rw [hones] at hle hiff
  refine ⟨hle, hiff.trans (forall₂_congr fun j _ => ⟨fun h root hroot => ?_, fun h root hroot => ?_⟩)⟩
  · exact (h (root, j) (by simp [hroot])).symm
  · rw [List.getElem?_zipIdx] at hroot
    obtain ⟨field, hfield, rfl⟩ := Option.map_eq_some_iff.mp hroot
    exact (h field hfield).symm

/-- **The root of a leaf that is the number of a root**: it is there, it is not after that root,
and it is that root exactly when the roots before have one leaf each. -/
theorem columnRoot_spec {c : ℕ} (hc : c < schema.roots.length) :
    ∃ r ≤ c, schema.columnRoot c = some r ∧ (r = c ↔ schema.FlatBefore c) := by
  have hlt : c < (Segments.entries schema.segments).length := by
    have hall : schema.roots.length ≤ Segments.start schema.segments schema.roots.length :=
      (start_segments le_rfl).1
    rw [Segments.length_entries, segments, List.length_map, List.length_zipIdx, ← segments]
    exact hc.trans_le hall
  obtain ⟨i, k, hentry⟩ : ∃ i k, (Segments.entries schema.segments)[c]? = some (i, k) :=
    ⟨_, _, List.getElem?_eq_getElem hlt⟩
  obtain ⟨j, n, hsegment, hk, hstart⟩ := Segments.exists_of_getElem? hentry
  rw [segments_getElem?] at hsegment
  obtain ⟨root, hroot, hpair⟩ := Option.map_eq_some_iff.mp hsegment
  obtain ⟨rfl, rfl⟩ := Prod.mk.inj hpair
  have hj : j < schema.roots.length := (List.getElem?_eq_some_iff.mp hroot).1
  obtain ⟨hle, hflat⟩ := start_segments hj.le
  refine ⟨j, by omega, by rw [columnRoot, hentry]; rfl, ?_⟩
  constructor
  · rintro rfl
    exact hflat.mp (by omega)
  · intro hbefore
    -- Were the root an earlier one, it would have the one leaf at its own number.
    by_contra hne
    have hone := hbefore j (by omega) root hroot
    have hself := hflat.mpr fun i hi => hbefore i (by omega)
    omega

end ParquetSchema

/-! ### The leaves that pruning consults -/

mutual

/-- The leaves whose statistics pruning reads: under a NOT it reads none. -/
def PushedExpr.consulted : PushedExpr → List PushedQual
  | .leaf q => [q]
  | .and xs | .or xs => PushedExpr.consultedList xs
  | .not _ => []

/-- The same for a list of trees. -/
def PushedExpr.consultedList : List PushedExpr → List PushedQual
  | [] => []
  | x :: xs => x.consulted ++ PushedExpr.consultedList xs

end

theorem PushedExpr.consultedList_eq_flatMap (xs : List PushedExpr) :
    PushedExpr.consultedList xs = xs.flatMap PushedExpr.consulted := by
  induction xs with
  | nil => rfl
  | cons x xs ih => rw [consultedList, ih, List.flatMap_cons]

theorem PushedExpr.leavesList_eq_flatMap (xs : List PushedExpr) :
    PushedExpr.leavesList xs = xs.flatMap PushedExpr.leaves := by
  induction xs with
  | nil => rfl
  | cons x xs ih => rw [leavesList, ih, List.flatMap_cons]

/-! ### Pushed expressions have no NOT -/

/-- No NOT in the tree. -/
inductive PushedExpr.NotFree : PushedExpr → Prop
  | leaf (q : PushedQual) : NotFree (.leaf q)
  | and {xs : List PushedExpr} (h : ∀ x ∈ xs, NotFree x) : NotFree (.and xs)
  | or {xs : List PushedExpr} (h : ∀ x ∈ xs, NotFree x) : NotFree (.or xs)

/-- In a tree without NOT every leaf is consulted. -/
theorem PushedExpr.NotFree.consulted_eq {e : PushedExpr} (h : e.NotFree) :
    e.consulted = e.leaves := by
  induction h with
  | leaf q => simp [consulted, leaves]
  | @and xs _ ih | @or xs _ ih =>
    rw [consulted, leaves, consultedList_eq_flatMap, leavesList_eq_flatMap]
    exact List.flatMap_congr ih

theorem join_notFree {isOr : Bool} {children : List PushedExpr} {p : PushedExpr}
    (h : join isOr children = some p) (hchildren : ∀ c ∈ children, c.NotFree) : p.NotFree := by
  unfold join at h
  split at h
  · cases h
  · obtain rfl := Option.some.inj h
    exact hchildren _ List.mem_cons_self
  · obtain rfl := Option.some.inj h
    cases isOr with
    | true => exact .or hchildren
    | false => exact .and hchildren

/-- Inversion turns the connectives round and brings in no NOT. -/
theorem invertPushed_notFree {e e' : PushedExpr} (he : e.NotFree) (h : invertPushed e = some e') :
    e'.NotFree := by
  have hlist : ∀ {xs ys : List PushedExpr}, List.Forall₂ (fun x y => x.NotFree → y.NotFree) xs ys →
      (∀ x ∈ xs, x.NotFree) → ∀ y ∈ ys, y.NotFree := by
    intro xs ys hys hxs y hy
    obtain ⟨x, hx, hxy⟩ := forall₂_exists_of_mem hys.flip hy
    exact hxy (hxs x hx)
  refine invertPushed_induction (P := fun e e' => e.NotFree → e'.NotFree) (fun q op _ _ => .leaf _)
    (fun xs ys hys hand => ?_) (fun xs ys hys hor => ?_) (fun x hnot => nomatch hnot) h he
  · cases hand with
    | and hxs => exact .or (hlist hys hxs)
  · cases hor with
    | or hxs => exact .and (hlist hys hxs)

theorem combine_notFree {boolop : BoolExprType} {walked : List (Option PushedExpr)} {p : PushedExpr}
    (h : combine boolop walked = some p) (hwalked : ∀ c, some c ∈ walked → c.NotFree) :
    p.NotFree := by
  have hchildren : ∀ c ∈ walked.filterMap id, c.NotFree := fun c hc => hwalked c (by simpa using hc)
  unfold combine at h
  cases boolop with
  | and => exact join_notFree h hchildren
  | or =>
    simp only at h
    split_ifs at h
    exact join_notFree h hchildren
  | not =>
    simp only at h
    split at h
    · rename_i inner hinner
      exact invertPushed_notFree (hchildren inner (by rw [hinner]; exact List.mem_cons_self)) h
    · cases h

/-- **The walker pushes no NOT.** -/
theorem walkNode_notFree {n : Node} {p : PushedExpr} (h : walkNode n = some p) : p.NotFree := by
  induction n using Node.induction generalizing p with
  | var ty attno coll =>
    rw [walkNode] at h
    split_ifs at h
    obtain rfl := Option.some.inj h
    exact .leaf _
  | const ty v => cases h
  | relabelType arg ih =>
    rw [walkNode] at h
    exact ih h
  | opExpr opno args =>
    rw [walkNode] at h
    obtain ⟨lhs, rhs, -, hwalked⟩ := walkOpExpr_eq_some h
    cases hwalked with
    | like =>
      refine .and (List.forall_mem_cons.mpr ⟨.leaf _, List.forall_mem_singleton.mpr (.leaf _)⟩)
    | compare | flipped => exact .leaf _
  | boolExpr op args ih =>
    rw [walkNode, walkNodes_eq_map] at h
    refine combine_notFree h fun c hc => ?_
    obtain ⟨arg, harg, hc⟩ := List.mem_map.mp hc
    exact ih arg harg hc
  | nullTest arg kind =>
    rw [walkNode, walkNullTest] at h
    obtain ⟨col, -, h⟩ := Option.bind_eq_some_iff.mp h
    cases kind <;> (obtain rfl := Option.some.inj h; exact .leaf _)
  | booleanTest arg kind =>
    rw [walkNode, walkBooleanTest] at h
    obtain ⟨col, -, h⟩ := Option.bind_eq_some_iff.mp h
    cases kind <;> first | cases h; exact .leaf _ | cases h
  | scalarArrayOpExpr opno useOr args =>
    rw [walkNode] at h
    obtain ⟨op, _, _, _, _, _, col, scalars, -, -, -, -, -, hjoin⟩ := walkScalarArrayOp_eq_some h
    refine join_notFree hjoin fun c hc => ?_
    obtain ⟨v, -, rfl⟩ := List.mem_map.mp hc
    exact .leaf _
  | other tag => cases h

theorem translateQuals_eq_mapM (map : List (Option ℕ)) (xs : List PushedExpr) :
    translateQuals map xs = xs.mapM (translateQualToParquetIdx map) := by
  induction xs with
  | nil => rfl
  | cons x xs ih => rw [translateQuals, ih, List.mapM_cons]

/-- Renumbering the columns brings in no NOT. -/
theorem translateQualToParquetIdx_notFree {map : List (Option ℕ)} {e e' : PushedExpr}
    (he : e.NotFree) (h : translateQualToParquetIdx map e = some e') : e'.NotFree := by
  have hlist : ∀ {xs ys}, translateQuals map xs = some ys →
      (∀ x ∈ xs, ∀ {y}, translateQualToParquetIdx map x = some y → y.NotFree) →
      ∀ y ∈ ys, y.NotFree := by
    intro xs ys hys ih y hy
    rw [translateQuals_eq_mapM] at hys
    obtain ⟨x, hx, hxy⟩ := forall₂_exists_of_mem (mapM_eq_some_iff.mp hys).flip hy
    exact ih x hx hxy
  induction he generalizing e' with
  | leaf q =>
    obtain ⟨p, -, h⟩ := Option.bind_eq_some_iff.mp h
    exact Option.some.inj h ▸ .leaf _
  | and _ ih =>
    obtain ⟨ys, hys, h⟩ := Option.bind_eq_some_iff.mp h
    exact Option.some.inj h ▸ .and (hlist hys ih)
  | or _ ih =>
    obtain ⟨ys, hys, h⟩ := Option.bind_eq_some_iff.mp h
    exact Option.some.inj h ▸ .or (hlist hys ih)

theorem storageQuals_notFree {partitionAttnums : List ℕ} {natts : ℕ} {quals : List Node}
    {e : PushedExpr} (he : e ∈ storageQuals partitionAttnums natts (walkQuals quals)) :
    e.NotFree := by
  obtain ⟨e₀, he₀, htranslate⟩ := List.mem_filterMap.mp he
  have hwalked : e₀ ∈ walkQuals quals := List.mem_of_mem_filter he₀
  rw [walkQuals, walkNodes_eq_map] at hwalked
  obtain ⟨n, -, hn⟩ : ∃ n ∈ quals, walkNode n = some e₀ := by simpa using hwalked
  exact translateQualToParquetIdx_notFree (walkNode_notFree hn) htranslate

/-! ### The column of a leaf, in pruning and in the filter -/

/-- A rearrangement of a list that is nowhere larger is the list itself. -/
theorem eq_of_perm_of_forall₂_le {l m : List ℕ} (hperm : l.Perm m)
    (hle : List.Forall₂ (· ≤ ·) l m) : l = m := by
  have hsum : l.sum ≤ m.sum ∧ (l.sum = m.sum → l = m) := by
    clear hperm
    induction hle with
    | nil => simp
    | @cons a b l m hab _ ih =>
      obtain ⟨hsum, heq⟩ := ih
      simp only [List.sum_cons, List.cons.injEq]
      exact ⟨by omega, fun h => ⟨by omega, heq (by omega)⟩⟩
  exact hsum.2 hperm.sum_eq

/-- **One predicate**: pruning and the filter take every leaf to the same column exactly when the
columns are mentioned in ascending order and the roots before each have one leaf. -/
theorem buildPredicate_agrees_iff {schema : ParquetSchema} {e : PushedExpr} {p : ArrowPredicate}
    (hp : buildPredicate schema.roots.length e = .ok p) :
    (∀ q ∈ e.leaves, p.leafRoot q.col = schema.columnRoot q.col) ↔
      FirstMentionsAscend e.mentions ∧ ∀ q ∈ e.leaves, schema.FlatBefore q.col := by
  obtain ⟨-, hcols, hproj, -⟩ := buildPredicate_eq_ok hp
  obtain ⟨-, hnodup, hsorted⟩ := collectCols_spec e
  rw [forall_leaves_iff_collectCols e fun c => p.leafRoot c = schema.columnRoot c,
    forall_leaves_iff_collectCols e schema.FlatBefore, ← hsorted]
  rw [← hcols] at hnodup ⊢
  obtain ⟨hrange, hascend, -⟩ := projectionRoots_spec hproj
  have hperm := projectionRoots_perm hnodup hproj
  constructor
  · intro hagree
    -- The batch has at each position the root of the leaf listed there, which is never a later one.
    have hroots : p.projection = p.cols := by
      refine eq_of_perm_of_forall₂_le hperm (forall₂_of_getElem? hperm.length_eq ?_)
      intro k r c hr hc
      obtain ⟨hk, rfl⟩ := List.getElem?_eq_some_iff.mp hc
      have hmem := List.getElem_mem hk
      obtain ⟨r', hle, hroot, -⟩ := ParquetSchema.columnRoot_spec (hrange _ hmem)
      have hsame := hagree _ hmem
      rw [p.leafRoot_getElem hnodup hk, hr, hroot] at hsame
      exact Option.some.inj hsame ▸ hle
    have hself := (leafRoot_eq_iff p hnodup hproj).mpr (hroots ▸ hascend)
    refine ⟨hroots ▸ hascend, fun c hc => ?_⟩
    obtain ⟨r, -, hroot, hflat⟩ := ParquetSchema.columnRoot_spec (hrange c hc)
    have hsame := hagree c hc
    rw [hself c hc, hroot] at hsame
    exact hflat.mp (Option.some.inj hsame).symm
  · rintro ⟨hcolsSorted, hflats⟩ c hc
    obtain ⟨r, -, hroot, hflat⟩ := ParquetSchema.columnRoot_spec (hrange c hc)
    rw [(leafRoot_eq_iff p hnodup hproj).mpr hcolsSorted c hc, hroot, hflat.mpr (hflats c hc)]

/-- **Pruning and the row filter consult the same column for every leaf exactly when, the columns
being roots of the file, each expression mentions them in ascending order and every root before a
mentioned one has one leaf column.** -/
theorem pruning_and_filter_agree_iff (schema : ParquetSchema) (partitionAttnums : List ℕ)
    (natts : ℕ) (quals : List Node) :
    (∀ filter,
        buildRowFilter schema.roots.length
          (storageQuals partitionAttnums natts (walkQuals quals)) = .ok filter →
        ∀ p ∈ filter.getD [], ∀ q ∈ p.expr.consulted,
          p.leafRoot q.col = schema.columnRoot q.col) ↔
      ((∀ e ∈ storageQuals partitionAttnums natts (walkQuals quals), ∀ q ∈ e.leaves,
          q.col < schema.roots.length) →
        ∀ e ∈ storageQuals partitionAttnums natts (walkQuals quals),
          FirstMentionsAscend e.mentions ∧ ∀ q ∈ e.leaves, schema.FlatBefore q.col) := by
  have hconsulted : ∀ e ∈ storageQuals partitionAttnums natts (walkQuals quals),
      e.consulted = e.leaves := fun e he => (storageQuals_notFree he).consulted_eq
  generalize storageQuals partitionAttnums natts (walkQuals quals) = exprs at hconsulted ⊢
  constructor
  · intro hagree hrange e he
    obtain ⟨preds, hpreds, -⟩ := exists_mapM_eq_ok_iff.mpr fun e he =>
      (exists_buildPredicate (hrange e he)).imp fun p hp => ⟨hp, trivial⟩
    obtain ⟨filter, hfilter, rfl⟩ := exists_buildRowFilter hpreds
    obtain ⟨p, hp, hbuild⟩ := forall₂_exists_of_mem (buildRowFilter_eq_ok hfilter) he
    refine (buildPredicate_agrees_iff hbuild).mp ?_
    have hleaves := hagree filter hfilter p hp
    rwa [(buildPredicate_eq_ok hbuild).1, hconsulted e he] at hleaves
  · intro hcond filter hfilter p hp
    have hall := buildRowFilter_eq_ok hfilter
    obtain ⟨e, he, hbuild⟩ := forall₂_exists_of_mem hall.flip hp
    have hrange : ∀ e ∈ exprs, ∀ q ∈ e.leaves, q.col < schema.roots.length := by
      intro e he
      obtain ⟨p, -, hbuild⟩ := forall₂_exists_of_mem hall he
      exact (buildPredicate_eq_ok hbuild).2.2.2
    rw [(buildPredicate_eq_ok hbuild).1, hconsulted e he]
    exact (buildPredicate_agrees_iff hbuild).mpr (hcond hrange e he)

/-- A file with a struct of two fields before an integer column. -/
def structThenInt : ParquetSchema := ⟨[.group .primitive [.primitive], .primitive]⟩

/-- **A row group is dropped for another column's statistics.**  `x = 5` on the column behind the
struct: pruning reads the second field of the struct, and drops the group whose only `x` is 5. -/
theorem struct_field_prunes_x :
    storageQuals [] 2 (walkQuals [.opExpr 96 [.var int4Oid 2 0,
        .const int4Oid (some (.scalar (.int4 5)))]]) = [.leaf ⟨1, .eq, .i32 5⟩] ∧
      (∃ p, buildRowFilter structThenInt.roots.length [.leaf ⟨1, .eq, .i32 5⟩] = .ok (some [p]) ∧
        p.leafRoot 1 = some 1) ∧
      structThenInt.columnRoot 1 = some 0 ∧
      pruneRowGroups structThenInt.roots.length
        [[⟨1, some ⟨some 0, .int32 (some 1) (some 1)⟩⟩,
          ⟨1, some ⟨some 0, .int32 (some 100) (some 200)⟩⟩,
          ⟨1, some ⟨some 0, .int32 (some 5) (some 5)⟩⟩]] [.leaf ⟨1, .eq, .i32 5⟩] = some [] :=
  ⟨rfl, ⟨_, rfl, rfl⟩, rfl, by decide⟩

end ParquetAzureFdw
