/-
# Synthetic row identities

`src/fdw/modify/rowid.rs`.  A row of a scanned blob is named by a `RowId`: the id
of its 65,536-row chunk and its offset in the chunk.  `to_ctid` packs it into a
Postgres item pointer, 32 bits of block number in two halves and 16 bits of
offset, and `from_ctid` unpacks it: nothing is lost on the way
(`fromCtid_toCtid`).  A row's chunk id is the id of its blob's first chunk plus
the number of whole chunks before the row; the sum saturates at `u32::MAX`.
-/

import Mathlib.Tactic

namespace ParquetAzureFdw

/-- `CHUNK_ROWS`. -/
def chunkRows : ℕ := 65536

/-- `RowId`. -/
structure RowId where
  blobId : UInt32
  offset : UInt16
  deriving DecidableEq, Repr

/-- `pg_sys::ItemPointerData`. -/
structure ItemPointerData where
  biHi : UInt16
  biLo : UInt16
  ipPosid : UInt16
  deriving DecidableEq, Repr

/-- `u32::saturating_add`. -/
def saturatingAdd (a b : UInt32) : UInt32 := UInt32.ofNat (min (a.toNat + b.toNat) (2 ^ 32 - 1))

namespace RowId

/-- `RowId::from_absolute`; the casts to `u32` and `u16` truncate. -/
def fromAbsolute (blobBaseId : UInt32) (absRow : ℕ) : RowId where
  blobId := saturatingAdd blobBaseId (UInt32.ofNat (absRow / chunkRows))
  offset := UInt16.ofNat (absRow % chunkRows)

/-- `RowId::to_ctid`. -/
def toCtid (r : RowId) : ItemPointerData where
  biHi := (r.blobId >>> 16).toUInt16
  biLo := (r.blobId &&& 0xffff).toUInt16
  ipPosid := r.offset

/-- `RowId::from_ctid`. -/
def fromCtid (ctid : ItemPointerData) : RowId where
  blobId := (ctid.biHi.toUInt32 <<< 16) ||| ctid.biLo.toUInt32
  offset := ctid.ipPosid

end RowId

/-- The two halves of a block number, put together. -/
theorem halves_or (n : ℕ) (hn : n < 2 ^ 32) :
    (n / 65536 % 65536) <<< 16 % 4294967296 ||| (n &&& 65535) % 65536 = n := by
  have hlow : (n &&& 65535) % 65536 = n % 65536 := by
    rw [show (65535 : ℕ) = 2 ^ 16 - 1 from rfl, Nat.and_two_pow_sub_one_eq_mod, Nat.mod_mod]
  have hhigh : (n / 65536 % 65536) <<< 16 % 4294967296 = (n / 65536) <<< 16 := by
    rw [Nat.shiftLeft_eq, Nat.shiftLeft_eq]
    omega
  rw [hlow, hhigh, ← Nat.shiftLeft_add_eq_or_of_lt (Nat.mod_lt _ (by norm_num)), Nat.shiftLeft_eq]
  omega

/-- **Packing a row identity into a ctid loses nothing.** -/
@[simp] theorem RowId.fromCtid_toCtid (r : RowId) : fromCtid r.toCtid = r := by
  have hblob : (fromCtid r.toCtid).blobId = r.blobId := by
    apply UInt32.toNat_inj.mp
    have hlt := r.blobId.toNat_lt
    simp only [fromCtid, toCtid, UInt32.toNat_or, UInt32.toNat_shiftLeft, UInt16.toNat_toUInt32,
      UInt32.toNat_toUInt16, UInt32.toNat_shiftRight, UInt32.toNat_and]
    simpa [Nat.shiftRight_eq_div_pow] using halves_or r.blobId.toNat hlt
  show RowId.mk (fromCtid r.toCtid).blobId r.offset = r
  rw [hblob]

/-- The chunk id of a row saturates. -/
theorem RowId.blobId_fromAbsolute (base : UInt32) {absRow : ℕ} (h : absRow < 2 ^ 48) :
    (fromAbsolute base absRow).blobId.toNat =
      min (base.toNat + absRow / chunkRows) (2 ^ 32 - 1) := by
  have hdiv : absRow / chunkRows < 2 ^ 32 := by
    simp only [chunkRows]
    omega
  rw [fromAbsolute, saturatingAdd, UInt32.toNat_ofNat', UInt32.toNat_ofNat', Nat.mod_eq_of_lt hdiv]
  exact Nat.mod_eq_of_lt (by omega)

theorem RowId.offset_fromAbsolute (base : UInt32) (absRow : ℕ) :
    (fromAbsolute base absRow).offset.toNat = absRow % chunkRows := by
  rw [fromAbsolute, UInt16.toNat_ofNat']
  exact Nat.mod_eq_of_lt (Nat.mod_lt _ (by decide))

end ParquetAzureFdw
