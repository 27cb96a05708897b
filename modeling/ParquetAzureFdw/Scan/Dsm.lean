/-
# The shared segment

`src/fdw/parallel.rs`, down to the bytes.  The leader writes a header and the packed
blob list into the DSM segment (`dsm_serialize_blobs`); each worker reads the list
back from it (`dsm_deserialize_blobs`) and then shares only the header's cursor with
the others.  On a rescan the leader sets the cursor to zero and the workers start
again.

An entry is the two lengths as little-endian `u32`, then the name and the etag.  Reading
an entry that was written gives it back, whatever follows it in memory, as long as the
lengths fit into their fields (`readEntry_packEntry`).  Of bytes that nobody wrote the reader
takes none from outside the declared payload, and what it accepts is the encoding of its
result (`readEntry_cases`); only the declared number of entries is used unchecked
(`readWithoutHarm_iff`).

The cursor is an `AtomicUsize`.  It is not bounded by the list: every call advances it,
also those past the end.  The `j`-th call of a round, by whichever worker, receives entry
`j % 2 ^ 64` (`InRound.received_eq`), so a round shares the list out once exactly as long as it
makes no more than `2 ^ 64` calls (`rounds_share_blobs_iff`).  Below that it is the cursor
of `ParallelDsmState` (`ParallelRanges.nextBlob_eq`).
-/

import ParquetAzureFdw.Lib.LittleEndian
import ParquetAzureFdw.Scan.Parallel

namespace ParquetAzureFdw

open Runs

/-! ### The segment -/

/-- `isize::MAX`. -/
def isizeMax : ℕ := 2 ^ 63 - 1

/-- The size of a `(String, String)`: pointer, capacity and length, twice. -/
def entrySize : ℕ := 48

/-- A `&[(String, String)]`.  Like every slice it takes at most `isize::MAX` bytes. -/
structure BlobSlice where
  entries : List ListedBlob
  fits : entrySize * entries.length ≤ isizeMax

/-- `ParallelDsmStateHeader`.  The two sizes are those of things in memory and do not
overflow; the cursor counts calls. -/
structure ParallelDsmStateHeader where
  cursor : UInt64
  nBlobs : ℕ
  totalPayloadBytes : ℕ
  deriving DecidableEq, Repr

/-- `size_of::<ParallelDsmStateHeader>()`. -/
def headerSize : ℕ := 24

/-- The segment: the header, and the bytes behind it. -/
structure DsmSegment where
  header : ParallelDsmStateHeader
  payload : List UInt8
  deriving DecidableEq, Repr

/-- The bytes that the segment takes. -/
def DsmSegment.size (segment : DsmSegment) : ℕ := headerSize + segment.payload.length

/-- `dsm_size_for`. -/
def dsmSizeFor (blobs : List ListedBlob) : ℕ :=
  headerSize + (blobs.map fun b => 8 + (utf8Bytes b.1).length + (utf8Bytes b.2).length).sum

/-- What an iteration of the loop of `dsm_serialize_blobs` writes.  A field of four bytes
keeps `len as u32`. -/
def packEntry (blob : ListedBlob) : List UInt8 :=
  LittleEndian.bytes 4 (utf8Bytes blob.1).length ++
    (LittleEndian.bytes 4 (utf8Bytes blob.2).length ++ (utf8Bytes blob.1 ++ utf8Bytes blob.2))

/-- `dsm_serialize_blobs`. -/
def dsmSerializeBlobs (dstLen : ℕ) (blobs : List ListedBlob) : DsmSegment where
  header := ⟨0, blobs.length, dstLen - headerSize⟩
  payload := blobs.flatMap packEntry

/-- `initialize_dsm_foreign_scan`. -/
def initializeDsmForeignScan (blobs : List ListedBlob) : DsmSegment :=
  dsmSerializeBlobs (dsmSizeFor blobs) blobs

/-- `re_initialize_dsm_foreign_scan`. -/
def reInitializeDsmForeignScan (segment : DsmSegment) : DsmSegment :=
  { segment with header := { segment.header with cursor := 0 } }

/-- The variables of the loop of `dsm_deserialize_blobs`: the memory from `cur` on, and
`bytes_read`. -/
structure DsmReader where
  cur : List UInt8
  bytesRead : ℕ

/-- `String::from_utf8`, with the error of `dsm_deserialize_blobs`. -/
def entryString (what : String) (bytes : List UInt8) : FdwResult String :=
  match String.fromUTF8? ⟨bytes.toArray⟩ with
  | some s => .ok s
  | none => .error (.schemaMismatch
    ("DSM payload contained non-UTF-8 " ++ what ++ ": invalid utf-8 sequence"))

/-- An iteration of the loop of `dsm_deserialize_blobs`. -/
def readEntry (totalPayloadBytes : ℕ) (r : DsmReader) : FdwResult (ListedBlob × DsmReader) := do
  if r.bytesRead + 8 > totalPayloadBytes then
    throw (.schemaMismatch "DSM payload truncated")
  let nl := LittleEndian.value (r.cur.take 4)
  let cur := r.cur.drop 4
  let el := LittleEndian.value (cur.take 4)
  let cur := cur.drop 4
  let bytesRead := r.bytesRead + 8
  if bytesRead + nl + el > totalPayloadBytes then
    throw (.schemaMismatch "DSM payload out of bounds")
  let nameBytes := cur.take nl
  let cur := cur.drop nl
  let etagBytes := cur.take el
  let cur := cur.drop el
  let name ← entryString "blob name" nameBytes
  let etag ← entryString "etag" etagBytes
  return ((name, etag), ⟨cur, bytesRead + (nl + el)⟩)

/-- The loop of `dsm_deserialize_blobs`. -/
def readEntries (totalPayloadBytes : ℕ) : ℕ → DsmReader → FdwResult (List ListedBlob)
  | 0, _ => .ok []
  | n + 1, r => do
    let (blob, r) ← readEntry totalPayloadBytes r
    let out ← readEntries totalPayloadBytes n r
    return blob :: out

/-- `dsm_deserialize_blobs`, of a header and the memory behind it.  `Vec::with_capacity`
panics above `isize::MAX` bytes. -/
def dsmDeserializeBlobs (header : ParallelDsmStateHeader) (memory : List UInt8) :
    Outcome (List ListedBlob) := do
  if entrySize * header.nBlobs > isizeMax then
    throw (.panic "capacity overflow")
  (readEntries header.totalPayloadBytes header.nBlobs ⟨memory, 0⟩).lift

/-! ### Reading what was written -/

section Codec

variable {blobs : List ListedBlob}

theorem length_packEntry (blob : ListedBlob) :
    (packEntry blob).length = 8 + (utf8Bytes blob.1).length + (utf8Bytes blob.2).length := by
  simp only [packEntry, List.length_append, LittleEndian.length_bytes]
  omega

/-- **The image has the size that was asked for.** -/
theorem size_initializeDsmForeignScan (blobs : List ListedBlob) :
    (initializeDsmForeignScan blobs).size = dsmSizeFor blobs := by
  simp only [DsmSegment.size, initializeDsmForeignScan, dsmSerializeBlobs, dsmSizeFor,
    List.length_flatMap, length_packEntry]

theorem totalPayloadBytes_initialize (blobs : List ListedBlob) :
    (initializeDsmForeignScan blobs).header.totalPayloadBytes =
      (blobs.flatMap packEntry).length := by
  have hsize := size_initializeDsmForeignScan blobs
  simp only [DsmSegment.size, initializeDsmForeignScan, dsmSerializeBlobs] at hsize ⊢
  omega

/-- The two lengths of an entry fit into their fields. -/
def FitsU32 (blob : ListedBlob) : Prop :=
  (utf8Bytes blob.1).length < 2 ^ 32 ∧ (utf8Bytes blob.2).length < 2 ^ 32

theorem entryString_utf8Bytes (what s : String) : entryString what (utf8Bytes s) = .ok s := by
  have hvalid : String.fromUTF8? ⟨(utf8Bytes s).toArray⟩ = some s := by
    have hbytes : (⟨(utf8Bytes s).toArray⟩ : ByteArray) = s.toByteArray := by
      rw [utf8Bytes, Array.toArray_toList]
      rfl
    rw [hbytes, String.fromUTF8?, dif_pos s.isValidUTF8]
    rfl
  rw [entryString, hvalid]

/-- **An entry that was written is read back**, and the reader stands behind it. -/
theorem readEntry_packEntry {total bytesRead : ℕ} {blob : ListedBlob} (hfits : FitsU32 blob)
    (hroom : bytesRead + (packEntry blob).length ≤ total) (rest : List UInt8) :
    readEntry total ⟨packEntry blob ++ rest, bytesRead⟩ =
      .ok (blob, ⟨rest, bytesRead + (packEntry blob).length⟩) := by
  obtain ⟨name, etag⟩ := blob
  obtain ⟨hname, hetag⟩ := hfits
  have hvalue : ∀ {n : ℕ}, n < 2 ^ 32 → LittleEndian.value (LittleEndian.bytes 4 n) = n :=
    fun hn => by rw [LittleEndian.value_bytes, Nat.mod_eq_of_lt (by omega)]
  have hfield : ∀ (n : ℕ) (l : List UInt8),
      (LittleEndian.bytes 4 n ++ l).take 4 = LittleEndian.bytes 4 n ∧
        (LittleEndian.bytes 4 n ++ l).drop 4 = l := fun n l =>
    ⟨List.take_left' (LittleEndian.length_bytes 4 n),
      List.drop_left' (LittleEndian.length_bytes 4 n)⟩
  have hlength : (packEntry (name, etag)).length =
      8 + (utf8Bytes name).length + (utf8Bytes etag).length := length_packEntry (name, etag)
  have htruncated : ¬ bytesRead + 8 > total := by omega
  have hbounds : ¬ bytesRead + 8 + (utf8Bytes name).length + (utf8Bytes etag).length > total := by
    omega
  rw [hlength]
  simp only [readEntry, packEntry, List.append_assoc, (hfield _ _).1, (hfield _ _).2,
    hvalue hname, hvalue hetag, List.take_left, List.drop_left, entryString_utf8Bytes,
    if_neg htruncated, if_neg hbounds]
  simp [bind, Except.bind, pure, Except.pure, add_assoc]

/-- All entries that were written are read back. -/
theorem readEntries_flatMap {total : ℕ} (hfits : ∀ b ∈ blobs, FitsU32 b) (rest : List UInt8)
    {bytesRead : ℕ} (hroom : bytesRead + (blobs.flatMap packEntry).length ≤ total) :
    readEntries total blobs.length ⟨blobs.flatMap packEntry ++ rest, bytesRead⟩ = .ok blobs := by
  induction blobs generalizing bytesRead with
  | nil => rfl
  | cons b blobs ih =>
    obtain ⟨hb, hblobs⟩ := List.forall_mem_cons.mp hfits
    rw [List.flatMap_cons, List.length_append] at hroom
    have hfirst : bytesRead + (packEntry b).length ≤ total := by omega
    have hrest : bytesRead + (packEntry b).length + (blobs.flatMap packEntry).length ≤ total := by
      omega
    rw [List.flatMap_cons, List.append_assoc, List.length_cons, readEntries,
      readEntry_packEntry hb hfirst]
    simp [bind, Except.bind, ih hblobs hrest, pure, Except.pure]

/-- **A worker reads the leader's list**, at any position of the cursor and whatever lies
behind the segment. -/
theorem dsmDeserializeBlobs_initialize (blobs : BlobSlice)
    (hfits : ∀ b ∈ blobs.entries, FitsU32 b) {header : ParallelDsmStateHeader}
    (hblobs : header.nBlobs = blobs.entries.length)
    (htotal : header.totalPayloadBytes = (blobs.entries.flatMap packEntry).length)
    (beyond : List UInt8) :
    dsmDeserializeBlobs header (blobs.entries.flatMap packEntry ++ beyond) = .ok blobs.entries := by
  have hcapacity : ¬ entrySize * header.nBlobs > isizeMax := by
    rw [hblobs]
    exact not_lt.mpr blobs.fits
  have hread : readEntries header.totalPayloadBytes header.nBlobs
      ⟨blobs.entries.flatMap packEntry ++ beyond, 0⟩ = .ok blobs.entries := by
    rw [hblobs, htotal]
    exact readEntries_flatMap hfits beyond (by omega)
  rw [dsmDeserializeBlobs, if_neg hcapacity, hread]
  rfl

end Codec

/-! ### Reading anything

The list is read by running sums over lengths that stand in the segment.  The two checks of an
iteration keep every copy inside the declared payload, and an entry that passes them and is
UTF-8 is the encoding of what is read (`readEntry_cases`).  The capacity of the result is taken
from the header before the loop, without a check. -/

section Untrusted

variable {total bytesRead : ℕ} {rest payload : List UInt8}

/-- A `copy_nonoverlapping` out of the payload: `length` bytes, `start` bytes behind the
header. -/
structure PayloadRead where
  start : ℕ
  length : ℕ
  deriving DecidableEq, Repr

/-- The read ends inside the first `total` bytes. -/
def PayloadRead.Within (total : ℕ) (read : PayloadRead) : Prop := read.start + read.length ≤ total

/-- The two length fields that `cur` points at. -/
def DsmReader.lengths (r : DsmReader) : ℕ × ℕ :=
  (LittleEndian.value (r.cur.take 4), LittleEndian.value ((r.cur.drop 4).take 4))

/-- The copies of an iteration, also of one that fails.  `start` is where `cur` points. -/
def readEntryReads (totalPayloadBytes start : ℕ) (r : DsmReader) : List PayloadRead :=
  if r.bytesRead + 8 > totalPayloadBytes then []
  else
    let (nl, el) := r.lengths
    [⟨start, 4⟩, ⟨start + 4, 4⟩] ++
      if r.bytesRead + 8 + nl + el > totalPayloadBytes then []
      else [⟨start + 8, nl⟩, ⟨start + 8 + nl, el⟩]

/-- The copies of the loop. -/
def readEntriesReads (totalPayloadBytes : ℕ) : ℕ → ℕ → DsmReader → List PayloadRead
  | 0, _, _ => []
  | n + 1, start, r =>
    readEntryReads totalPayloadBytes start r ++
      match readEntry totalPayloadBytes r with
      | .ok (_, r') =>
        readEntriesReads totalPayloadBytes n (start + 8 + r.lengths.1 + r.lengths.2) r'
      | .error _ => []

/-- The copies of `dsm_deserialize_blobs`. -/
def dsmDeserializeReads (header : ParallelDsmStateHeader) (memory : List UInt8) :
    List PayloadRead :=
  if entrySize * header.nBlobs > isizeMax then []
  else readEntriesReads header.totalPayloadBytes header.nBlobs 0 ⟨memory, 0⟩

/-- What a string is read from is its encoding. -/
theorem utf8Bytes_of_entryString {what s : String} {bytes : List UInt8}
    (h : entryString what bytes = .ok s) : utf8Bytes s = bytes := by
  rw [entryString] at h
  split at h
  · rename_i s' hs'
    cases h
    rw [String.fromUTF8?] at hs'
    split at hs'
    · cases hs'
      simp [utf8Bytes, String.fromUTF8]
    · cases hs'
  · cases h

/-- The bytes of an entry, split at its fields, are the encoding of what is read. -/
theorem packEntry_of_fields {what what' name etag : String} {nl el n e : List UInt8}
    (hnl : nl.length = 4) (hel : el.length = 4) (hn : LittleEndian.value nl = n.length)
    (he : LittleEndian.value el = e.length) (hname : entryString what n = .ok name)
    (hetag : entryString what' e = .ok etag) :
    packEntry (name, etag) = nl ++ (el ++ (n ++ e)) := by
  have hbytes : ∀ {l : List UInt8}, l.length = 4 →
      LittleEndian.bytes 4 (LittleEndian.value l) = l := fun {l} hl => by
    rw [← hl, LittleEndian.bytes_value]
  rw [packEntry, utf8Bytes_of_entryString hname, utf8Bytes_of_entryString hetag, ← hn, ← he,
    hbytes hnl, hbytes hel]

/-- The reader stands at two length fields, both inside the payload. -/
theorem readEntry_fields {nl el : List UInt8} (hnl : nl.length = 4) (hel : el.length = 4)
    (htruncated : ¬ bytesRead + 8 > total) (l : List UInt8) :
    readEntry total ⟨nl ++ (el ++ l), bytesRead⟩ =
      if bytesRead + 8 + LittleEndian.value nl + LittleEndian.value el > total then
        .error (.schemaMismatch "DSM payload out of bounds")
      else do
        let name ← entryString "blob name" (l.take (LittleEndian.value nl))
        let etag ← entryString "etag"
          ((l.drop (LittleEndian.value nl)).take (LittleEndian.value el))
        return ((name, etag),
          ⟨(l.drop (LittleEndian.value nl)).drop (LittleEndian.value el),
            bytesRead + 8 + (LittleEndian.value nl + LittleEndian.value el)⟩) := by
  simp only [readEntry, List.take_left' hnl, List.drop_left' hnl, List.take_left' hel,
    List.drop_left' hel, if_neg htruncated]
  split <;> rfl

theorem DsmReader.lengths_fields {nl el : List UInt8} (hnl : nl.length = 4) (hel : el.length = 4)
    (l : List UInt8) :
    DsmReader.lengths ⟨nl ++ (el ++ l), bytesRead⟩ =
      (LittleEndian.value nl, LittleEndian.value el) := by
  simp only [DsmReader.lengths, List.take_left' hnl, List.drop_left' hnl, List.take_left' hel]

/-- A list that is long enough splits behind its first `k` elements. -/
theorem exists_split_at {l : List UInt8} {k : ℕ} (h : k ≤ l.length) :
    ∃ l₁ l₂, l = l₁ ++ l₂ ∧ l₁.length = k :=
  ⟨_, _, (List.take_append_drop k l).symm, List.length_take_of_le h⟩

/-- **An iteration fails, or reads the entry whose encoding comes next.**  Either does not
depend on what lies behind the payload. -/
theorem readEntry_cases (hrest : bytesRead + rest.length = total) :
    (∃ e, ∀ beyond, readEntry total ⟨rest ++ beyond, bytesRead⟩ = .error e) ∨
      ∃ blob rest', rest = packEntry blob ++ rest' ∧ ∀ beyond,
        readEntry total ⟨rest ++ beyond, bytesRead⟩ =
            .ok (blob, ⟨rest' ++ beyond, bytesRead + (packEntry blob).length⟩) ∧
          8 + (DsmReader.lengths ⟨rest ++ beyond, bytesRead⟩).1 +
            (DsmReader.lengths ⟨rest ++ beyond, bytesRead⟩).2 = (packEntry blob).length := by
  by_cases htruncated : bytesRead + 8 > total
  · exact .inl ⟨_, fun beyond => by rw [readEntry, if_pos htruncated]; rfl⟩
  -- both length fields lie inside the payload
  obtain ⟨nl, l, rfl, hnl⟩ := exists_split_at (l := rest) (k := 4) (by omega)
  rw [List.length_append] at hrest
  obtain ⟨el, l, rfl, hel⟩ := exists_split_at (l := l) (k := 4) (by omega)
  rw [List.length_append] at hrest
  by_cases hbounds : bytesRead + 8 + LittleEndian.value nl + LittleEndian.value el > total
  · refine .inl ⟨.schemaMismatch "DSM payload out of bounds", fun beyond => ?_⟩
    rw [List.append_assoc, List.append_assoc, readEntry_fields hnl hel htruncated, if_pos hbounds]
  -- and so do the two strings
  obtain ⟨n, l, rfl, hn⟩ := exists_split_at (l := l) (k := LittleEndian.value nl) (by omega)
  rw [List.length_append] at hrest
  obtain ⟨e, l, rfl, he⟩ := exists_split_at (l := l) (k := LittleEndian.value el) (by omega)
  have hread : ∀ beyond, readEntry total ⟨nl ++ (el ++ (n ++ (e ++ l))) ++ beyond, bytesRead⟩ = do
      let name ← entryString "blob name" n
      let etag ← entryString "etag" e
      return ((name, etag), ⟨l ++ beyond, bytesRead + 8 + (n.length + e.length)⟩) := by
    intro beyond
    simp only [List.append_assoc, readEntry_fields hnl hel htruncated, if_neg hbounds,
      List.take_left' hn, List.drop_left' hn, List.take_left' he, List.drop_left' he, hn, he]
  cases hname : entryString "blob name" n with
  | error err => exact .inl ⟨err, fun beyond => by rw [hread, hname]; rfl⟩
  | ok name =>
    cases hetag : entryString "etag" e with
    | error err => exact .inl ⟨err, fun beyond => by rw [hread, hname, hetag]; rfl⟩
    | ok etag =>
      have hpack := packEntry_of_fields hnl hel hn.symm he.symm hname hetag
      have hlength : (packEntry (name, etag)).length = 8 + (n.length + e.length) := by
        rw [hpack]
        simp only [List.length_append, hnl, hel]
        omega
      refine .inr ⟨(name, etag), l, by simp only [hpack, List.append_assoc], fun beyond => ⟨?_, ?_⟩⟩
      · rw [hread, hname, hetag, hlength, add_assoc bytesRead]
        rfl
      · rw [List.append_assoc, List.append_assoc, DsmReader.lengths_fields hnl hel, hlength]
        omega

/-- The copies of an iteration stay inside the payload. -/
theorem readEntryReads_within (r : DsmReader) {read : PayloadRead}
    (hread : read ∈ readEntryReads total r.bytesRead r) : read.Within total := by
  simp only [readEntryReads] at hread
  split at hread
  · cases hread
  · split at hread
    · simp only [List.append_nil, List.mem_cons, List.not_mem_nil, or_false] at hread
      rcases hread with rfl | rfl <;> simp only [PayloadRead.Within] <;> omega
    · simp only [List.cons_append, List.nil_append, List.mem_cons, List.not_mem_nil,
        or_false] at hread
      rcases hread with rfl | rfl | rfl | rfl <;> simp only [PayloadRead.Within] <;> omega

/-- **The loop fails, or reads entries whose encoding comes next**, without regard to what lies
behind the payload. -/
theorem readEntries_cases (n : ℕ) (hrest : bytesRead + rest.length = total) :
    (∃ e, ∀ beyond, readEntries total n ⟨rest ++ beyond, bytesRead⟩ = .error e) ∨
      ∃ blobs : List ListedBlob, blobs.length = n ∧ blobs.flatMap packEntry <+: rest ∧
        ∀ beyond, readEntries total n ⟨rest ++ beyond, bytesRead⟩ = .ok blobs := by
  induction n generalizing bytesRead rest with
  | zero => exact .inr ⟨[], rfl, List.nil_prefix, fun _ => rfl⟩
  | succ n ih =>
    rcases readEntry_cases hrest with ⟨e, he⟩ | ⟨blob, rest, rfl, hblob⟩
    · exact .inl ⟨e, fun beyond => by rw [readEntries, he]; rfl⟩
    · rw [List.length_append, ← add_assoc] at hrest
      rcases ih hrest with ⟨e, he⟩ | ⟨blobs, hlength, hencoded, hblobs⟩
      · refine .inl ⟨e, fun beyond => ?_⟩
        rw [readEntries, (hblob beyond).1]
        simp only [bind, Except.bind, he]
      · refine .inr ⟨blob :: blobs, congrArg (· + 1) hlength, ?_, fun beyond => ?_⟩
        · rw [List.flatMap_cons]
          exact (List.prefix_append_right_inj _).mpr hencoded
        · rw [readEntries, (hblob beyond).1]
          simp only [bind, Except.bind, hblobs, pure, Except.pure]

/-- **The copies of the loop stay inside the payload**: `cur` and `bytes_read` advance
together. -/
theorem readEntriesReads_within (n : ℕ) (hrest : bytesRead + rest.length = total)
    (beyond : List UInt8) {read : PayloadRead}
    (hread : read ∈ readEntriesReads total n bytesRead ⟨rest ++ beyond, bytesRead⟩) :
    read.Within total := by
  induction n generalizing bytesRead rest with
  | zero => cases hread
  | succ n ih =>
    rw [readEntriesReads, List.mem_append] at hread
    rcases hread with hfirst | hlater
    · exact readEntryReads_within _ hfirst
    · rcases readEntry_cases hrest with ⟨e, he⟩ | ⟨blob, rest, rfl, hblob⟩
      · rw [he] at hlater
        cases hlater
      · rw [(hblob beyond).1, add_assoc, add_assoc, ← add_assoc 8, (hblob beyond).2] at hlater
        rw [List.length_append, ← add_assoc] at hrest
        exact ih hrest hlater

/-- A segment is read without harm: every copy stays inside the declared payload, and the
outcome, which does not depend on what lies behind it, is an error or a list of as many entries
as the header declares whose encoding the payload begins with. -/
structure ReadWithoutHarm (header : ParallelDsmStateHeader) (payload : List UInt8) : Prop where
  within : ∀ beyond, ∀ read ∈ dsmDeserializeReads header (payload ++ beyond),
    read.Within header.totalPayloadBytes
  outcome : (∃ e, ∀ beyond, dsmDeserializeBlobs header (payload ++ beyond) = .error (.error e)) ∨
    ∃ blobs : List ListedBlob, blobs.length = header.nBlobs ∧
      blobs.flatMap packEntry <+: payload ∧
      ∀ beyond, dsmDeserializeBlobs header (payload ++ beyond) = .ok blobs

/-- **A segment is read without harm exactly when the declared list fits into memory.**  Nothing
is asked of the payload but that it has the declared length; above the limit
`Vec::with_capacity` panics before the first check. -/
theorem readWithoutHarm_iff (header : ParallelDsmStateHeader) (payload : List UInt8)
    (hpayload : payload.length = header.totalPayloadBytes) :
    ReadWithoutHarm header payload ↔ entrySize * header.nBlobs ≤ isizeMax := by
  constructor
  · intro h
    by_contra hcapacity
    have hpanic : dsmDeserializeBlobs header (payload ++ []) =
        .error (.panic "capacity overflow") := by
      rw [dsmDeserializeBlobs, if_pos (not_le.mp hcapacity)]
      rfl
    rcases h.outcome with ⟨e, he⟩ | ⟨blobs, _, _, hblobs⟩
    · cases hpanic.symm.trans (he [])
    · cases hpanic.symm.trans (hblobs [])
  · intro hcapacity
    have hstart : 0 + payload.length = header.totalPayloadBytes := by rw [hpayload, zero_add]
    have hloop : ∀ memory, dsmDeserializeBlobs header memory =
        (readEntries header.totalPayloadBytes header.nBlobs ⟨memory, 0⟩).lift := fun memory => by
      rw [dsmDeserializeBlobs, if_neg (not_lt.mpr hcapacity)]
    refine ⟨fun beyond read hread => ?_, ?_⟩
    · rw [dsmDeserializeReads, if_neg (not_lt.mpr hcapacity)] at hread
      exact readEntriesReads_within _ hstart beyond hread
    · rcases readEntries_cases header.nBlobs hstart with ⟨e, he⟩ | ⟨blobs, hlength, hencoded, hok⟩
      · exact .inl ⟨e, fun beyond => by rw [hloop, he]; rfl⟩
      · exact .inr ⟨blobs, hlength, hencoded, fun beyond => by rw [hloop, hok]; rfl⟩

/-- A payload of nine bytes that declares a name of nine bytes. -/
theorem overlong_name_is_rejected :
    [9, 0, 0, 0, 0, 0, 0, 0, 97].length = (⟨0, 1, 9⟩ : ParallelDsmStateHeader).totalPayloadBytes ∧
      ReadWithoutHarm ⟨0, 1, 9⟩ [9, 0, 0, 0, 0, 0, 0, 0, 97] :=
  ⟨rfl, (readWithoutHarm_iff ⟨0, 1, 9⟩ [9, 0, 0, 0, 0, 0, 0, 0, 97] rfl).mpr (by decide)⟩

/-- A header that declares `2 ^ 60` entries over an empty payload is not rejected: the worker
panics. -/
theorem count_is_trusted :
    ([] : List UInt8).length = (⟨0, 2 ^ 60, 0⟩ : ParallelDsmStateHeader).totalPayloadBytes ∧
      dsmDeserializeBlobs ⟨0, 2 ^ 60, 0⟩ [] = .error (.panic "capacity overflow") ∧
      ¬ ReadWithoutHarm ⟨0, 2 ^ 60, 0⟩ [] := by
  have hpanic : dsmDeserializeBlobs ⟨0, 2 ^ 60, 0⟩ [] = .error (.panic "capacity overflow") := by
    rw [dsmDeserializeBlobs, if_pos (by decide)]
    rfl
  refine ⟨rfl, hpanic, fun h => ?_⟩
  rcases h.outcome with ⟨e, he⟩ | ⟨blobs, _, _, hblobs⟩
  · cases hpanic.symm.trans (he [])
  · cases hpanic.symm.trans (hblobs [])

end Untrusted

/-! ### The workers -/

/-- `ParallelRanges`: the worker's own copy of the list.  Its `dsm` points at the shared
header. -/
structure ParallelRanges where
  blobs : List ListedBlob
  deriving DecidableEq, Repr

/-- `ParallelRanges::next_blob`.  `fetch_add` wraps around. -/
def ParallelRanges.nextBlob (ranges : ParallelRanges) (dsm : ParallelDsmStateHeader) :
    Option ListedBlob × ParallelDsmStateHeader :=
  (ranges.blobs[dsm.cursor.toNat]?, { dsm with cursor := dsm.cursor + 1 })

/-- Short of the wrap the shared header is the unbounded cursor of `ParallelDsmState`. -/
theorem ParallelRanges.nextBlob_eq (ranges : ParallelRanges) {dsm : ParallelDsmStateHeader}
    (hcursor : dsm.cursor.toNat + 1 < 2 ^ 64) :
    ((ranges.nextBlob dsm).1,
        ({ cursor := (ranges.nextBlob dsm).2.cursor.toNat, blobs := ranges.blobs } :
          ParallelDsmState)) =
      ParallelDsmState.nextBlob ⟨dsm.cursor.toNat, ranges.blobs⟩ := by
  have hsucc : (dsm.cursor + 1).toNat = dsm.cursor.toNat + 1 := by
    rw [UInt64.toNat_add, UInt64.toNat_one, Nat.mod_eq_of_lt hcursor]
  rw [ParallelDsmState.nextBlob, ParallelRanges.nextBlob, hsucc]

/-- The shared segment, and the workers that have attached to it. -/
structure SharedScan (ι : Type) where
  segment : DsmSegment
  workers : ι → Option ParallelRanges

/-- What a worker does: attach to the segment, or call `next_blob`. -/
inductive WorkerEvent (ι : Type) where
  | attach (w : ι) (decoded : Outcome (List ListedBlob))
  | nextBlob (w : ι) (blob : Option ListedBlob)

/-- The state after `initialize_dsm_foreign_scan`. -/
def SharedScan.initial (ι : Type) (blobs : List ListedBlob) : SharedScan ι where
  segment := initializeDsmForeignScan blobs
  workers _ := none

section Workers

variable {ι : Type}

/-- The atomic steps of the workers.  `initialize_worker_foreign_scan` decodes the segment,
with whatever lies behind it in memory. -/
def WorkerStep [DecidableEq ι] (s : SharedScan ι) : WorkerEvent ι → SharedScan ι → Prop
  | .attach w decoded, s' =>
    (∃ beyond, decoded = dsmDeserializeBlobs s.segment.header (s.segment.payload ++ beyond)) ∧
      s' = match decoded with
        | .ok blobs => { s with workers := Function.update s.workers w (some ⟨blobs⟩) }
        | .error _ => s
  | .nextBlob w blob, s' => ∃ ranges, s.workers w = some ranges ∧
      blob = (ranges.nextBlob s.segment.header).1 ∧
      s' = { s with
        segment := { s.segment with header := (ranges.nextBlob s.segment.header).2 } }

/-- A round: what the workers do in some order, then `re_initialize_dsm_foreign_scan`. -/
def RoundStep [DecidableEq ι] (s : SharedScan ι) (events : List (WorkerEvent ι))
    (s' : SharedScan ι) : Prop :=
  ∃ t, Run WorkerStep s events t ∧
    s' = { t with segment := reInitializeDsmForeignScan t.segment }

/-- What the calls of `next_blob` returned, over all workers. -/
def received (events : List (WorkerEvent ι)) : List (Option ListedBlob) :=
  events.filterMap fun
    | .attach _ _ => none
    | .nextBlob _ blob => some blob

/-- The workers that made those calls. -/
def callers (events : List (WorkerEvent ι)) : List ι :=
  events.filterMap fun
    | .attach _ _ => none
    | .nextBlob w _ => some w

/-- Every blob is received once, and then only `None`. -/
def OnceThenNone {α : Type} (blobs : List α) (rs : List (Option α)) : Prop :=
  ∃ k, rs = blobs.map some ++ List.replicate k none

/-- What holds in the middle of a round: the segment is the leader's but for the cursor,
which has counted the calls; every worker holds the leader's list; and the calls have
received its entries in order, from the start again after `2 ^ 64` calls. -/
structure InRound (blobs : List ListedBlob) (events : List (WorkerEvent ι)) (s : SharedScan ι) :
    Prop where
  nBlobs : s.segment.header.nBlobs = blobs.length
  totalPayloadBytes : s.segment.header.totalPayloadBytes = (blobs.flatMap packEntry).length
  payload : s.segment.payload = blobs.flatMap packEntry
  cursor : s.segment.header.cursor = UInt64.ofNat (received events).length
  workers : ∀ w ranges, s.workers w = some ranges → ranges.blobs = blobs
  attached : ∀ w decoded, .attach w decoded ∈ events → decoded = .ok blobs
  received_eq : received events =
    (List.range (received events).length).map fun j => blobs[j % 2 ^ 64]?

variable {blobs : BlobSlice} {events : List (WorkerEvent ι)} {s s' : SharedScan ι}

theorem InRound.initial : InRound blobs.entries [] (SharedScan.initial ι blobs.entries) where
  nBlobs := rfl
  totalPayloadBytes := totalPayloadBytes_initialize blobs.entries
  payload := rfl
  cursor := rfl
  workers _ _ h := by cases h
  attached _ _ h := absurd h List.not_mem_nil
  received_eq := rfl

/-- `re_initialize_dsm_foreign_scan` starts a new round. -/
theorem InRound.reInitialize (h : InRound blobs.entries events s) :
    InRound blobs.entries []
      { s with segment := reInitializeDsmForeignScan s.segment } where
  nBlobs := h.nBlobs
  totalPayloadBytes := h.totalPayloadBytes
  payload := h.payload
  cursor := rfl
  workers := h.workers
  attached _ _ h := absurd h List.not_mem_nil
  received_eq := rfl

theorem received_concat_attach (events : List (WorkerEvent ι)) (w : ι) (decoded : Outcome (List ListedBlob)) :
    received (events ++ [.attach w decoded]) = received events := by
  simp [received]

theorem received_concat_nextBlob (events : List (WorkerEvent ι)) (w : ι) (blob : Option ListedBlob) :
    received (events ++ [.nextBlob w blob]) = received events ++ [blob] := by
  simp [received]

theorem length_received (events : List (WorkerEvent ι)) :
    (received events).length = (callers events).length := by
  induction events with
  | nil => rfl
  | cons event events ih => cases event <;> simpa [received, callers] using ih

variable [DecidableEq ι]

/-- A worker that attaches holds the leader's list. -/
theorem InRound.attach (h : InRound blobs.entries events s)
    (hfits : ∀ b ∈ blobs.entries, FitsU32 b) {w : ι} {decoded : Outcome (List ListedBlob)}
    (hstep : WorkerStep s (.attach w decoded) s') :
    InRound blobs.entries (events ++ [.attach w decoded]) s' := by
  obtain ⟨⟨beyond, hdecoded⟩, rfl⟩ := hstep
  rw [h.payload, dsmDeserializeBlobs_initialize blobs hfits h.nBlobs h.totalPayloadBytes] at hdecoded
  subst hdecoded
  have hreceived := received_concat_attach events w (.ok blobs.entries)
  exact {
    nBlobs := h.nBlobs
    totalPayloadBytes := h.totalPayloadBytes
    payload := h.payload
    cursor := hreceived ▸ h.cursor
    workers := fun w' ranges hw' => by
      have hw' : Function.update s.workers w (some ⟨blobs.entries⟩) w' = some ranges := hw'
      by_cases hw : w' = w
      · rw [hw, Function.update_self] at hw'
        exact Option.some.inj hw' ▸ rfl
      · rw [Function.update_of_ne hw] at hw'
        exact h.workers w' ranges hw'
    attached := fun w' decoded hmem => by
      rcases List.mem_append.mp hmem with hmem | hmem
      · exact h.attached w' decoded hmem
      · cases List.mem_singleton.mp hmem
        rfl
    received_eq := hreceived ▸ h.received_eq }

/-- A call receives the entry at the number of calls before it. -/
theorem InRound.nextBlob (h : InRound blobs.entries events s) {w : ι} {blob : Option ListedBlob}
    (hstep : WorkerStep s (.nextBlob w blob) s') :
    InRound blobs.entries (events ++ [.nextBlob w blob]) s' := by
  obtain ⟨ranges, hw, rfl, rfl⟩ := hstep
  have hblob : (ranges.nextBlob s.segment.header).1 =
      blobs.entries[(received events).length % 2 ^ 64]? := by
    rw [ParallelRanges.nextBlob, h.workers w ranges hw, h.cursor, UInt64.toNat_ofNat']
  have hreceived := received_concat_nextBlob events w
    (ranges.nextBlob s.segment.header).1
  exact {
    nBlobs := h.nBlobs
    totalPayloadBytes := h.totalPayloadBytes
    payload := h.payload
    cursor := by
      rw [hreceived, List.length_append, List.length_singleton, UInt64.ofNat_add]
      exact congrArg (· + 1) h.cursor
    workers := h.workers
    attached := fun w' decoded hmem => by
      rcases List.mem_append.mp hmem with hmem | hmem
      · exact h.attached w' decoded hmem
      · cases List.mem_singleton.mp hmem
    received_eq := by
      rw [hreceived, List.length_append, List.length_singleton, List.range_succ, List.map_append,
        ← h.received_eq, hblob]
      rfl }

/-- A step of a worker in a round. -/
theorem InRound.step (hfits : ∀ b ∈ blobs.entries, FitsU32 b)
    (h : InRound blobs.entries events s) {event : WorkerEvent ι} (hstep : WorkerStep s event s') :
    InRound blobs.entries (events ++ [event]) s' := by
  cases event with
  | attach w decoded => exact h.attach hfits hstep
  | nextBlob w blob => exact h.nextBlob hstep

/-- The invariant at the end of a round, from its start. -/
theorem InRound.run (hfits : ∀ b ∈ blobs.entries, FitsU32 b) (h : InRound blobs.entries [] s)
    (run : Run WorkerStep s events s') : InRound blobs.entries events s' :=
  run.induct h fun _ _ _ _ h hstep => h.step hfits hstep

/-! ### What a round hands out -/

/-- A list read past its end. -/
theorem map_getElem?_range {α : Type} {l : List α} {n : ℕ} (hn : l.length ≤ n) :
    (List.range n).map (fun j => l[j]?) = l.map some ++ List.replicate (n - l.length) none := by
  refine List.ext_getElem? fun i => ?_
  rw [List.getElem?_map]
  by_cases hi : i < l.length
  · rw [List.getElem?_range (by omega), List.getElem?_append_left (by rwa [List.length_map]),
      List.getElem?_map, List.getElem?_eq_getElem hi]
    simp [hi]
  · rw [List.getElem?_append_right (by rw [List.length_map]; omega), List.length_map,
      List.getElem?_replicate]
    by_cases hin : i < n
    · rw [List.getElem?_range hin, if_pos (by omega)]
      simp [Nat.not_lt.mp hi]
    · rw [List.getElem?_eq_none (by simpa using hin), if_neg (by omega)]
      rfl

/-- Calls that receive the entries in order, from the start again after `m` of them, share
the list out once as long as they do not start again. -/
theorem onceThenNone_iff {α : Type} {l : List α} {m n : ℕ} (hm : 0 < m)
    (hnone : none ∈ (List.range n).map fun j => l[j % m]?) :
    OnceThenNone l ((List.range n).map fun j => l[j % m]?) ↔ l = [] ∨ n ≤ m := by
  obtain ⟨j, hj, hend⟩ := List.mem_map.mp hnone
  have hj : j < n := List.mem_range.mp hj
  have hend : l.length ≤ j % m := List.getElem?_eq_none_iff.mp hend
  have hmod : j % m < m := Nat.mod_lt j hm
  have hle : j % m ≤ j := Nat.mod_le j m
  constructor
  · rintro ⟨k, hk⟩
    by_contra hmore
    obtain ⟨hne, hmore⟩ := not_or.mp hmore
    -- The call that starts again receives the first entry, where only `None` may stand.
    have hagain : ((List.range n).map fun j => l[j % m]?)[m]? = some l[0]? := by
      rw [List.getElem?_map, List.getElem?_range (by omega), Option.map_some, Nat.mod_self]
    rw [hk, List.getElem?_append_right (by rw [List.length_map]; omega),
      List.getElem?_replicate] at hagain
    split at hagain
    · have hempty : l.length ≤ 0 := List.getElem?_eq_none_iff.mp (Option.some.inj hagain).symm
      exact hne (List.eq_nil_of_length_eq_zero (Nat.le_zero.mp hempty))
    · cases hagain
  · rintro (rfl | hn)
    · exact ⟨n, by simp⟩
    · have hsame : ((List.range n).map fun j => l[j % m]?) = (List.range n).map fun j => l[j]? := by
        refine List.map_congr_left fun i hi => ?_
        rw [Nat.mod_eq_of_lt ((List.mem_range.mp hi).trans_le hn)]
      exact ⟨n - l.length, hsame.trans (map_getElem?_range (by omega))⟩

/-- **Every round starts as the first one did.** -/
theorem InRound.round (hfits : ∀ b ∈ blobs.entries, FitsU32 b) (h : InRound blobs.entries [] s)
    (hround : RoundStep s events s') :
    InRound blobs.entries [] s' ∧ ∃ t, InRound blobs.entries events t := by
  obtain ⟨t, run, rfl⟩ := hround
  have hend := h.run hfits run
  exact ⟨hend.reInitialize, t, hend⟩

/-- **The workers share the list without loss or repetition, up to `2 ^ 64` calls.**  For
every list whose names and etags are shorter than `2 ^ 32` bytes, the image has the size
that `dsm_size_for` computes; and in every round of every run, over any workers and in any
order of their steps, each worker that attaches reads the leader's list, and once a call
has received `None`, the calls have received every blob once and then only `None` exactly
when there is no blob or there were at most `2 ^ 64` calls in this round. -/
theorem rounds_share_blobs_iff (blobs : BlobSlice) (hfits : ∀ b ∈ blobs.entries, FitsU32 b) :
    (initializeDsmForeignScan blobs.entries).size = dsmSizeFor blobs.entries ∧
      ∀ rounds s, Run RoundStep (SharedScan.initial ι blobs.entries) rounds s →
        ∀ events ∈ rounds,
          (∀ w decoded, .attach w decoded ∈ events → decoded = .ok blobs.entries) ∧
          (none ∈ received events →
            (OnceThenNone blobs.entries (received events) ↔
              blobs.entries = [] ∨ (received events).length ≤ 2 ^ 64)) := by
  refine ⟨size_initializeDsmForeignScan blobs.entries, fun rounds s run events hevents => ?_⟩
  have hround : ∃ t, InRound blobs.entries events t :=
    run.forall_mem (P := fun events => ∃ t, InRound blobs.entries events t) InRound.initial
      (fun _ _ _ h hround => h.round hfits hround) events hevents
  obtain ⟨t, h⟩ := hround
  refine ⟨h.attached, fun hnone => ?_⟩
  rw [h.received_eq] at hnone ⊢
  rw [onceThenNone_iff (by decide) hnone, List.length_map, List.length_range]

/-- Workers attach in a round, one after the other. -/
theorem InRound.exists_attached (hfits : ∀ b ∈ blobs.entries, FitsU32 b)
    (h : InRound blobs.entries [] s) (ws : List ι) : ∃ events t, Run WorkerStep s events t ∧
      callers events = [] ∧ ∀ w ∈ ws, t.workers w = some ⟨blobs.entries⟩ := by
  induction ws with
  | nil => exact ⟨[], s, .nil, rfl, fun _ hw => absurd hw List.not_mem_nil⟩
  | cons w ws ih =>
    obtain ⟨events, t, run, hcallers, hheld⟩ := ih
    have ht := h.run hfits run
    have hattach : WorkerStep t (.attach w (.ok blobs.entries))
        { t with workers := Function.update t.workers w (some ⟨blobs.entries⟩) } := by
      refine ⟨⟨[], ?_⟩, rfl⟩
      rw [ht.payload, dsmDeserializeBlobs_initialize blobs hfits ht.nBlobs ht.totalPayloadBytes]
    refine ⟨_, _, run.snoc hattach, by simpa [callers] using hcallers, fun w' hw' => ?_⟩
    show Function.update t.workers w (some ⟨blobs.entries⟩) w' = some ⟨blobs.entries⟩
    by_cases hw : w' = w
    · rw [hw, Function.update_self]
    · rw [Function.update_of_ne hw]
      exact hheld w' ((List.mem_cons.mp hw').resolve_left hw)

/-- Workers that have attached can make calls in any order. -/
theorem exists_calls {t : SharedScan ι} (run : Run WorkerStep s events t) (calls : List ι)
    {ranges : ParallelRanges} (hheld : ∀ w ∈ calls, t.workers w = some ranges) :
    ∃ events' t', Run WorkerStep s events' t' ∧ callers events' = callers events ++ calls := by
  induction calls generalizing events t with
  | nil => exact ⟨events, t, run, (List.append_nil _).symm⟩
  | cons w calls ih =>
    have hcall : WorkerStep t (.nextBlob w (ranges.nextBlob t.segment.header).1)
        { t with segment := { t.segment with header := (ranges.nextBlob t.segment.header).2 } } :=
      ⟨ranges, hheld w List.mem_cons_self, rfl, rfl⟩
    obtain ⟨events', t', run', hcallers⟩ :=
      ih (run.snoc hcall) fun w' hw' => hheld w' (List.mem_cons_of_mem w hw')
    exact ⟨events', t', run', by simpa [callers] using hcallers⟩

/-- A round of the given calls. -/
theorem InRound.exists_round (hfits : ∀ b ∈ blobs.entries, FitsU32 b)
    (h : InRound blobs.entries [] s) {ws calls : List ι} (hattached : calls ⊆ ws) :
    ∃ events s', RoundStep s events s' ∧ callers events = calls ∧
      received events = (List.range calls.length).map fun j => blobs.entries[j % 2 ^ 64]? := by
  obtain ⟨attaches, t, run, hnone, hheld⟩ := h.exists_attached hfits ws
  obtain ⟨events, t', run', hcallers⟩ :=
    exists_calls run calls fun w hw => hheld w (hattached hw)
  rw [hnone, List.nil_append] at hcallers
  have hreceived := (h.run hfits run').received_eq
  rw [length_received, hcallers] at hreceived
  exact ⟨events, _, ⟨t', run', rfl⟩, hcallers, hreceived⟩

/-- A list of two blobs. -/
def twoBlobs : BlobSlice := ⟨[("a", "e1"), ("b", "e2")], by decide⟩

theorem fitsU32_twoBlobs : ∀ b ∈ twoBlobs.entries, FitsU32 b := by
  intro b hb
  rcases List.mem_pair.mp hb with rfl | rfl <;> exact ⟨by decide, by decide⟩

/-- Two workers share two blobs in each of two rounds. -/
theorem two_rounds_of_two_blobs :
    ∃ (first second : List (WorkerEvent Bool)) (s : SharedScan Bool),
      Run RoundStep (SharedScan.initial Bool twoBlobs.entries) [first, second] s ∧
        callers first = [true, false, true, false] ∧ callers second = [true, true, false, true] ∧
        OnceThenNone twoBlobs.entries (received first) ∧
        OnceThenNone twoBlobs.entries (received second) := by
  obtain ⟨first, s₁, hfirst, hcallers₁, hreceived₁⟩ := InRound.initial.exists_round
    fitsU32_twoBlobs (show [true, false, true, false] ⊆ [true, false] by decide)
  have hstart := (InRound.initial.round fitsU32_twoBlobs hfirst).1
  obtain ⟨second, s₂, hsecond, hcallers₂, hreceived₂⟩ := hstart.exists_round
    fitsU32_twoBlobs (show [true, true, false, true] ⊆ [true, false] by decide)
  have run := (Run.nil.snoc hfirst).snoc hsecond
  have hshared := (rounds_share_blobs_iff twoBlobs fitsU32_twoBlobs).2 _ _ run
  have hnone : none ∈ (List.range 4).map fun j => twoBlobs.entries[j % 2 ^ 64]? :=
    List.mem_map.mpr ⟨2, by decide, rfl⟩
  have hcalls : ∀ events ∈ [first, second],
      received events = ((List.range 4).map fun j => twoBlobs.entries[j % 2 ^ 64]?) →
      OnceThenNone twoBlobs.entries (received events) := fun events hmem hreceived =>
    ((hshared events hmem).2 (hreceived ▸ hnone)).mpr (.inr (by simp [hreceived]))
  exact ⟨first, second, s₂, run, hcallers₁, hcallers₂, hcalls first (by simp) hreceived₁,
    hcalls second (by simp) hreceived₂⟩

/-- A list of one blob. -/
def oneBlob : BlobSlice := ⟨[("a", "e1")], by decide⟩

theorem fitsU32_oneBlob : ∀ b ∈ oneBlob.entries, FitsU32 b := by
  intro b hb
  rw [List.mem_singleton.mp hb]
  exact ⟨by decide, by decide⟩

/-- **The cursor starts again.**  A worker that calls `next_blob` once more than `2 ^ 64`
times in a round receives the only blob of the list twice, with `None` in between. -/
theorem cursor_starts_again : ∃ (events : List (WorkerEvent Unit)) (s : SharedScan Unit),
    Run RoundStep (SharedScan.initial Unit oneBlob.entries) [events] s ∧
      (received events)[0]? = some (some ("a", "e1")) ∧ (received events)[1]? = some none ∧
      (received events)[2 ^ 64]? = some (some ("a", "e1")) ∧
      ¬ OnceThenNone oneBlob.entries (received events) := by
  obtain ⟨events, s, hround, -, hreceived⟩ := InRound.initial.exists_round fitsU32_oneBlob
    (List.replicate_subset_singleton (2 ^ 64 + 1) ())
  rw [List.length_replicate] at hreceived
  have hat : ∀ j, j < 2 ^ 64 + 1 →
      (received events)[j]? = some oneBlob.entries[j % 2 ^ 64]? := fun j hj => by
    rw [hreceived, List.getElem?_map, List.getElem?_range hj, Option.map_some]
  have hnone := hat 1 (by decide)
  refine ⟨events, s, Run.nil.snoc hround, hat 0 (by decide), hnone, hat _ (by decide), ?_⟩
  have hmem : none ∈ received events := List.mem_of_getElem? hnone
  rw [hreceived] at hmem ⊢
  rw [onceThenNone_iff (by decide) hmem]
  rintro (hempty | hle)
  · cases hempty
  · omega

end Workers

end ParquetAzureFdw
