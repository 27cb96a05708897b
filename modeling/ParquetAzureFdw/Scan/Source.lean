/-
# Where a scan finds its blobs

`PlanSource` of `src/fdw/scan.rs` and `head_etag` of `src/azure/mod.rs`.  A `filename` with a
wildcard is matched against a listing of the container; any other is asked for by its name, with a
HEAD request.  The two differ when a blob is not there: a listing leaves it out, and the HEAD
request fails (`headEtag_eq_ok_iff`).

A listing has the blobs of the container, each once (`BlobStore.Lists`).  A source that succeeds
finds the blobs of its table that are there (`PlanSource.finds_of_list`).  A listing fails only when
it is longer than `MAX_LIST_RESULTS`, so a container that has lost blobs, or has only gained staging
blobs, can still be listed (`exists_globSourceList`).
-/

import ParquetAzureFdw.Azure.Store
import ParquetAzureFdw.Scan.Glob

namespace ParquetAzureFdw

/-- `HeadEtagSource` and `GlobSource`. -/
inductive PlanSource where
  | head (name : String)
  | glob (pattern : GlobPattern)
  deriving DecidableEq, Repr

/-- The source that `build_scan_state_core` takes for the `filename` of a table. -/
def planSource (regexNew : List (Wildcard.Atom Char) → Except String Unit) (filename : String) :
    FdwResult PlanSource :=
  if '*' ∉ filename.toList ∧ '?' ∉ filename.toList then .ok (.head filename)
  else .glob <$> parseGlob regexNew filename

/-- `head_etag`, for the reply of the service. -/
def readHead (blob : String) : Response (Option String) → FdwResult String
  | .notFound => .error (.concurrentUpdate blob "blob disappeared")
  | .preconditionFailed => .error (.azure "412 Precondition Failed")
  | .failed msg => .error (.azure msg)
  | .ok none => .error (.azure ("HEAD '" ++ blob ++ "' missing etag"))
  | .ok (some etag) => .ok etag

/-- The reply of a service that answers every request. -/
def BlobStore.headReply (s : BlobStore) (blob : String) : Response (Option String) :=
  match s.blobs blob with
  | some v => .ok (some v.etag)
  | none => .notFound

/-- `head_etag`. -/
def headEtag (s : BlobStore) (blob : String) : FdwResult String := readHead blob (s.headReply blob)

/-- `PlanSource::list`; `container` is what the service lists. -/
def PlanSource.list (s : BlobStore) (container : List BlobItem) :
    PlanSource → FdwResult (List (String × String))
  | .head name => do
    let etag ← headEtag s name
    return [(name, etag)]
  | .glob pattern => globSourceList pattern container

theorem headEtag_eq_ok_iff {s : BlobStore} {blob etag : String} :
    headEtag s blob = .ok etag ↔ ∃ v, s.blobs blob = some v ∧ v.etag = etag := by
  unfold headEtag BlobStore.headReply
  cases s.blobs blob with
  | none => simp [readHead]
  | some v => simp [readHead]

/-- A blob that is not there: the error is that of a concurrent update. -/
theorem headEtag_of_absent {s : BlobStore} {blob : String} (h : s.blobs blob = none) :
    headEtag s blob = .error (.concurrentUpdate blob "blob disappeared") := by
  rw [headEtag, BlobStore.headReply, h]
  rfl

theorem PlanSource.list_head_eq_ok_iff {s : BlobStore} {container : List BlobItem} {name : String}
    {out : List (String × String)} :
    (PlanSource.head name).list s container = .ok out ↔
      ∃ v, s.blobs name = some v ∧ out = [(name, v.etag)] := by
  unfold PlanSource.list
  rw [except_bind_eq_ok]
  constructor
  · rintro ⟨etag, hetag, hout⟩
    obtain ⟨v, hv, rfl⟩ := headEtag_eq_ok_iff.mp hetag
    exact ⟨v, hv, (Except.ok.inj hout).symm⟩
  · rintro ⟨v, hv, rfl⟩
    exact ⟨v.etag, headEtag_eq_ok_iff.mpr ⟨v, hv, rfl⟩, rfl⟩

/-! ### Listings of a container -/

/-- The listing has every blob of the container, with its etag, once. -/
structure BlobStore.Lists (s : BlobStore) (container : List BlobItem) : Prop where
  mem_iff : ∀ item, item ∈ container ↔ ∃ name v, s.blobs name = some v ∧
    item = ⟨some name, some v.etag⟩
  nodup : container.Nodup

theorem BlobStore.lists_holding {blobs : List (String × Version)}
    (hnodup : (blobs.map Prod.fst).Nodup) :
    (holding blobs).Lists (blobs.map fun b => ⟨some b.1, some b.2.etag⟩) where
  mem_iff item := by
    rw [List.mem_map]
    constructor
    · rintro ⟨⟨name, v⟩, hb, rfl⟩
      exact ⟨name, v, lookup_eq_some_of_mem hnodup hb, rfl⟩
    · rintro ⟨name, v, hv, rfl⟩
      exact ⟨(name, v), mem_of_lookup hv, rfl⟩
  nodup := by
    refine List.Nodup.of_map BlobItem.name ?_
    rw [List.map_map]
    simpa [Function.comp_def] using hnodup.map (Option.some_injective String)

/-- A new blob is listed with the others. -/
theorem BlobStore.Lists.write {s : BlobStore} {container : List BlobItem} (h : s.Lists container)
    {name : String} (habsent : s.blobs name = none) (v : Version) :
    (s.write name v).Lists (container ++ [⟨some name, some v.etag⟩]) := by
  have hother : ∀ other v', s.blobs other = some v' →
      other ≠ name ∧ (s.write name v).blobs other = some v' := by
    intro other v' hv'
    have hne : other ≠ name := by
      rintro rfl
      cases habsent.symm.trans hv'
    exact ⟨hne, (Function.update_of_ne hne ..).trans hv'⟩
  refine ⟨fun item => ?_, h.nodup.append (List.nodup_singleton _) fun item hitem hnew => ?_⟩
  · rw [List.mem_append, List.mem_singleton, h.mem_iff]
    constructor
    · rintro (⟨other, v', hv', rfl⟩ | rfl)
      · exact ⟨other, v', (hother other v' hv').2, rfl⟩
      · exact ⟨name, v, Function.update_self .., rfl⟩
    · rintro ⟨other, v', hv', rfl⟩
      by_cases hname : other = name
      · subst hname
        rw [show (s.write other v).blobs other = some v from Function.update_self ..] at hv'
        exact .inr (by rw [Option.some.inj hv'])
      · exact .inl ⟨other, v', (Function.update_of_ne hname ..).symm.trans hv', rfl⟩
  · obtain ⟨other, v', hv', rfl⟩ := (h.mem_iff item).mp hitem
    obtain ⟨hname, -⟩ : other = name ∧ v'.etag = v.etag := by simpa using hnew
    exact (hother other v' hv').1 hname

/-- The blob that an item of a listing stands for, if it is no staging blob. -/
def BlobItem.listed? (item : BlobItem) : Option (String × String) := do
  let name ← item.name
  let etag ← item.etag
  if isStagingName name then none else some (name, etag)

theorem BlobItem.listed?_eq_some_iff {item : BlobItem} {b : String × String} :
    item.listed? = some b ↔ item = ⟨some b.1, some b.2⟩ ∧ isStagingName b.1 = false := by
  obtain ⟨name, etag⟩ := item
  cases name with
  | none => simp [BlobItem.listed?]
  | some name =>
    cases etag with
    | none => simp [BlobItem.listed?]
    | some etag => simp [BlobItem.listed?, Prod.ext_iff]; grind

section Listing

variable {container : List BlobItem} {out : List (String × String)} {s s' : BlobStore}

/-- What a listing collects, in order. -/
theorem foldlM_collectListed_eq {init : List (String × String)}
    (h : container.foldlM collectListed init = .ok out) :
    out = init ++ container.filterMap BlobItem.listed? := by
  refine foldlM_induct (fun done out => out = init ++ done.filterMap BlobItem.listed?) ?_ h
    (by rw [List.filterMap_nil, List.append_nil])
  rintro done ⟨name, etag⟩ out next hnext rfl
  rw [List.filterMap_append, ← List.append_assoc]
  unfold collectListed at hnext
  cases name with
  | none =>
    obtain rfl := Except.ok.inj hnext
    exact (List.append_nil _).symm
  | some name =>
    dsimp only at hnext
    split_ifs at hnext with hstaging hfull
    · obtain rfl := Except.ok.inj hnext
      cases etag with
      | none => exact (List.append_nil _).symm
      | some etag => simp [BlobItem.listed?, hstaging]
    · cases etag with
      | none => cases hnext
      | some etag =>
        obtain rfl := Except.ok.inj hnext
        simp [BlobItem.listed?, hstaging]

/-- With names and etags, a listing fails only when it is too long. -/
theorem exists_foldlM_collectListed_iff (hitems : ∀ item ∈ container, ∃ name etag,
    item = ⟨some name, some etag⟩) {init : List (String × String)} (hinit : init.length ≤ maxListResults) :
    (∃ out, container.foldlM collectListed init = .ok out) ↔
      init.length + (container.filterMap BlobItem.listed?).length ≤ maxListResults := by
  induction container generalizing init with
  | nil => exact ⟨fun _ => hinit, fun _ => ⟨init, rfl⟩⟩
  | cons item container ih =>
    obtain ⟨name, etag, rfl⟩ := hitems item List.mem_cons_self
    have ih := fun init => @ih (fun item hitem => hitems item (List.mem_cons_of_mem _ hitem)) init
    rw [List.foldlM_cons]
    by_cases hstaging : isStagingName name = true
    · have hstep : collectListed init ⟨some name, some etag⟩ = .ok init := by
        simp [collectListed, hstaging]
      have hnone : BlobItem.listed? ⟨some name, some etag⟩ = none := by
        simp [BlobItem.listed?, hstaging]
      rw [List.filterMap_cons_none hnone, hstep]
      exact ih init hinit
    · have hlisted : BlobItem.listed? ⟨some name, some etag⟩ = some (name, etag) := by
        simp [BlobItem.listed?, hstaging]
      rw [List.filterMap_cons_some hlisted, List.length_cons]
      by_cases hfull : maxListResults ≤ init.length
      · have hstep : ∃ e, collectListed init ⟨some name, some etag⟩ = .error e := by
          simp [collectListed, hstaging, hfull]
        obtain ⟨e, hstep⟩ := hstep
        rw [hstep]
        refine ⟨fun ⟨out, hout⟩ => (by cases hout), fun hle => ?_⟩
        omega
      · have hstep : collectListed init ⟨some name, some etag⟩ = .ok (init ++ [(name, etag)]) := by
          simp [collectListed, hstaging, hfull]
        rw [hstep]
        have hlength : (init ++ [(name, etag)]).length = init.length + 1 := by simp
        refine (ih (init ++ [(name, etag)]) (by omega)).trans ?_
        rw [hlength]
        omega

theorem BlobStore.Lists.items (h : s.Lists container) (item : BlobItem) (hitem : item ∈ container) :
    ∃ name etag, item = ⟨some name, some etag⟩ := by
  obtain ⟨name, v, -, rfl⟩ := (h.mem_iff item).mp hitem
  exact ⟨name, v.etag, rfl⟩

/-- What a listing has of the container. -/
theorem BlobStore.Lists.mem_listed (h : s.Lists container) (p : BlobItem → Bool)
    {b : String × String} : b ∈ (container.filter p).filterMap BlobItem.listed? ↔
      p ⟨some b.1, some b.2⟩ = true ∧ isStagingName b.1 = false ∧
        ∃ v, s.blobs b.1 = some v ∧ v.etag = b.2 := by
  rw [List.mem_filterMap]
  constructor
  · rintro ⟨item, hitem, hb⟩
    obtain ⟨hmem, hp⟩ := List.mem_filter.mp hitem
    obtain ⟨rfl, hstaging⟩ := BlobItem.listed?_eq_some_iff.mp hb
    obtain ⟨name, v, hv, hitem⟩ := (h.mem_iff _).mp hmem
    obtain ⟨rfl, hetag⟩ : b.1 = name ∧ b.2 = v.etag := by simpa using hitem
    exact ⟨hp, hstaging, v, hv, hetag.symm⟩
  · obtain ⟨name, etag⟩ := b
    rintro ⟨hp, hstaging, v, hv, rfl⟩
    refine ⟨_, List.mem_filter.mpr ⟨(h.mem_iff _).mpr ⟨name, v, hv, rfl⟩, hp⟩, ?_⟩
    exact BlobItem.listed?_eq_some_iff.mpr ⟨rfl, hstaging⟩

/-- A name is listed once. -/
theorem BlobStore.Lists.nodup_names (h : s.Lists container) (p : BlobItem → Bool) :
    (((container.filter p).filterMap BlobItem.listed?).map Prod.fst).Nodup := by
  refine List.Nodup.map_on ?_ ((h.nodup.filter p).filterMap ?_)
  · rintro ⟨name, etag⟩ hb ⟨name', etag'⟩ hb' rfl
    obtain ⟨-, -, v, hv, rfl⟩ := (h.mem_listed p).mp hb
    obtain ⟨-, -, v', hv', rfl⟩ := (h.mem_listed p).mp hb'
    rw [Option.some.inj (hv.symm.trans hv')]
  · intro item item' b hb hb'
    rw [(BlobItem.listed?_eq_some_iff.mp hb).1, (BlobItem.listed?_eq_some_iff.mp hb').1]

/-! ### The blobs of a source -/

/-- The names that belong to a table. -/
def PlanSource.Covers : PlanSource → String → Prop
  | .head name, n => n = name
  | .glob pattern, n => pattern.isMatch n = true ∧ isStagingName n = false

/-- What a source finds: the blobs of the table that are there, each once, with their etags. -/
structure PlanSource.Finds (source : PlanSource) (s : BlobStore) (out : List (String × String)) :
    Prop where
  nodup : (out.map Prod.fst).Nodup
  mem_iff : ∀ name, name ∈ out.map Prod.fst ↔ source.Covers name ∧ s.blobs name ≠ none

variable {regexNew : List (Wildcard.Atom Char) → Except String Unit} {filename : String}
  {source : PlanSource}

theorem acceptedGlob_of_planSource {pattern : GlobPattern}
    (h : planSource regexNew filename = .ok (.glob pattern)) : AcceptedGlob filename pattern := by
  unfold planSource at h
  split_ifs at h with hplain
  · cases h
  · cases hparse : parseGlob regexNew filename with
    | error e =>
      rw [hparse] at h
      cases h
    | ok pattern' =>
      rw [hparse] at h
      cases h
      exact parseGlob_eq_ok hparse

/-- A `filename` without wildcards. -/
theorem planSource_eq_head {name : String} (h : planSource regexNew filename = .ok (.head name)) :
    ('*' ∉ filename.toList ∧ '?' ∉ filename.toList) ∧ filename = name := by
  unfold planSource at h
  split_ifs at h with hplain
  · cases h
    exact ⟨hplain, rfl⟩
  · cases hparse : parseGlob regexNew filename with
    | error e =>
      rw [hparse] at h
      cases h
    | ok pattern =>
      rw [hparse] at h
      cases h

/-- A listing has each name once. -/
theorem nodup_globSourceList {pattern : GlobPattern} (hlists : s.Lists container)
    (h : globSourceList pattern container = .ok out) : (out.map Prod.fst).Nodup := by
  obtain ⟨listed, hlisted, hout⟩ := except_bind_eq_ok.mp h
  obtain rfl := foldlM_collectListed_eq hlisted
  obtain rfl := Except.ok.inj hout
  refine ((List.mergeSort_perm _ _).map _).nodup_iff.mpr ?_
  exact (hlists.nodup_names _).sublist (List.filter_sublist.map _)

/-- A listing fails only when there are too many names under the prefix. -/
theorem exists_globSourceList_of_length_le {pattern : GlobPattern} (hlists : s.Lists container)
    (hfew : (container.filter (BlobItem.hasPrefix pattern.prefixText)).length ≤ maxListResults) :
    ∃ out, globSourceList pattern container = .ok out := by
  have hitems : ∀ item ∈ container.filter (BlobItem.hasPrefix pattern.prefixText), ∃ name etag,
      item = ⟨some name, some etag⟩ := fun item hitem =>
    hlists.items item (List.mem_of_mem_filter hitem)
  have hlength : ([] : List (String × String)).length +
      ((container.filter (BlobItem.hasPrefix pattern.prefixText)).filterMap
        BlobItem.listed?).length ≤ maxListResults := by
    rw [List.length_nil, Nat.zero_add]
    exact (List.length_filterMap_le _ _).trans hfew
  obtain ⟨listed, hlisted⟩ :=
    (exists_foldlM_collectListed_iff hitems (Nat.zero_le _)).mpr hlength
  exact ⟨_, except_bind_eq_ok.mpr ⟨listed, hlisted, rfl⟩⟩

/-- **A source that succeeds finds the blobs of the table.** -/
theorem PlanSource.finds_of_list (hsource : planSource regexNew filename = .ok source)
    (hlists : s.Lists container) (h : source.list s container = .ok out) : source.Finds s out := by
  cases source with
  | head name =>
    obtain ⟨v, hv, rfl⟩ := PlanSource.list_head_eq_ok_iff.mp h
    refine ⟨by simp, fun n => ?_⟩
    simp only [List.map_cons, List.map_nil, List.mem_singleton, PlanSource.Covers]
    constructor
    · rintro rfl
      exact ⟨rfl, by simp [hv]⟩
    · exact fun hn => hn.1
  | glob pattern =>
    have hglob := acceptedGlob_of_planSource hsource
    refine ⟨nodup_globSourceList hlists h, fun name => ?_⟩
    rw [List.mem_map]
    constructor
    · rintro ⟨⟨name, etag⟩, hb, rfl⟩
      obtain ⟨hmem, hcovers⟩ := (mem_globSourceList_iff hglob h).mp hb
      obtain ⟨name', v, hv, hitem⟩ := (hlists.mem_iff _).mp hmem
      cases hitem
      exact ⟨hcovers, by simp [hv]⟩
    · rintro ⟨hcovers, hexists⟩
      obtain ⟨v, hv⟩ := Option.ne_none_iff_exists'.mp hexists
      have hmem := (hlists.mem_iff _).mpr ⟨name, v, hv, rfl⟩
      exact ⟨(name, v.etag), (mem_globSourceList_iff hglob h).mpr ⟨hmem, hcovers⟩, rfl⟩

/-- A container that has only lost blobs, or gained staging blobs, can still be listed. -/
theorem exists_globSourceList {container' : List BlobItem} {pattern : GlobPattern}
    (hlists : s.Lists container) (hlists' : s'.Lists container')
    (hfewer : ∀ name, isStagingName name = false → s'.blobs name ≠ none → s.blobs name ≠ none)
    (h : globSourceList pattern container = .ok out) :
    ∃ out', globSourceList pattern container' = .ok out' := by
  let p := BlobItem.hasPrefix pattern.prefixText
  have hnames : ∀ {c : List BlobItem} {t : BlobStore}, t.Lists c →
      ∀ item ∈ c.filter p, ∃ name etag, item = ⟨some name, some etag⟩ :=
    fun ht item hitem => ht.items item (List.mem_of_mem_filter hitem)
  obtain ⟨listed, hlisted, -⟩ := except_bind_eq_ok.mp h
  have hlength := (exists_foldlM_collectListed_iff (hnames hlists) (Nat.zero_le _)).mp
    ⟨listed, hlisted⟩
  have hsubset : ((container'.filter p).filterMap BlobItem.listed?).map Prod.fst ⊆
      ((container.filter p).filterMap BlobItem.listed?).map Prod.fst := by
    intro name hname
    obtain ⟨b, hb, rfl⟩ := List.mem_map.mp hname
    obtain ⟨hp, hstaging, v', hv', -⟩ := (hlists'.mem_listed p).mp hb
    obtain ⟨v, hv⟩ := Option.ne_none_iff_exists'.mp (hfewer b.1 hstaging (by simp [hv']))
    exact List.mem_map.mpr ⟨(b.1, v.etag), (hlists.mem_listed p).mpr ⟨hp, hstaging, v, hv, rfl⟩, rfl⟩
  have hle := ((hlists'.nodup_names p).subperm hsubset).length_le
  rw [List.length_map, List.length_map] at hle
  have hlength' : ([] : List (String × String)).length +
      ((container'.filter p).filterMap BlobItem.listed?).length ≤ maxListResults := by
    simp only [List.length_nil] at hlength ⊢
    omega
  obtain ⟨listed', hlisted'⟩ :=
    (exists_foldlM_collectListed_iff (hnames hlists') (Nat.zero_le _)).mpr hlength'
  exact ⟨_, except_bind_eq_ok.mpr ⟨listed', hlisted', rfl⟩⟩

end Listing

end ParquetAzureFdw
