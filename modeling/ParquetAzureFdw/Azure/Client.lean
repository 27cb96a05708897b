/-
# The storage client of the modify path

The conditional requests of `src/azure/mod.rs`, as programs over the HTTP requests
they make: `get_body_if_match`, `put_if_match`, `put_if_none_match`,
`delete_if_match` and `delete_unconditional`.  A reply is the body or the status;
what the client makes of it is a function of the reply alone.

A statement also draws the names of its staging blobs and keeps the set of those in
flight with the coordinator of its backend (`src/fdw/modify/coordinator.rs`).  These
are requests too, so that a program is all that a statement does to the outside.
-/

import ParquetAzureFdw.Error
import ParquetAzureFdw.Lib.Programs

namespace ParquetAzureFdw

open Programs

/-- `bytes::Bytes`. -/
abbrev Bytes := List UInt8

/-- `MAX_BLOB_BYTES`. -/
def maxBlobBytes : ℕ := 512 * 1024 * 1024

/-- The response of the store. -/
inductive Response (α : Type) where
  | ok (a : α)
  | preconditionFailed
  | notFound
  | failed (msg : String)

/-- What a statement asks of the outside. -/
inductive StoreOp where
  | getIfMatch (blob etag : String)
  | putIfMatch (blob : String) (body : Bytes) (etag : String)
  | putIfNoneMatch (blob : String) (body : Bytes)
  | deleteIfMatch (blob etag : String)
  | delete (blob : String)
  | newUuid
  | registerStaging (name : String)
  | markCommitted (name : String)
  deriving DecidableEq, Repr

/-- What it is told: of a download the declared length and the body, of an upload the
etag, which the response may lack. -/
def StoreOp.Reply : StoreOp → Type
  | .getIfMatch .. => Response (Option ℕ × Bytes)
  | .putIfMatch .. | .putIfNoneMatch .. => Response (Option String)
  | .deleteIfMatch .. | .delete .. => Response Unit
  | .newUuid => String
  | .registerStaging _ | .markCommitted _ => Unit

/-- A program of the modify path. -/
abbrev StoreProgram := Program StoreOp.Reply Failure

/-- A request with its reply. -/
abbrev StoreEvent := Event StoreOp.Reply

/-! ### What the client makes of a reply -/

section Replies

variable (blob : String)

/-- The error that stands for another writer's change. -/
def concurrentUpdate {α : Type} (reason : String) : Outcome α :=
  .error (.error (.concurrentUpdate blob reason))

def readBody : Response (Option ℕ × Bytes) → Outcome Bytes
  | .preconditionFailed => concurrentUpdate blob "blob changed since SELECT (etag mismatch on GET)"
  | .notFound => concurrentUpdate blob "blob disappeared"
  | .failed msg => .error (.error (.azure msg))
  | .ok (len, body) =>
    if len.any (maxBlobBytes < ·) then
      .error (.error (.azure ("blob '" ++ blob ++ "' is " ++ toString (len.getD 0) ++
        " bytes, exceeds MAX_BLOB_BYTES=" ++ toString maxBlobBytes)))
    else if maxBlobBytes < body.length then
      .error (.error (.azure ("blob '" ++ blob ++ "' body is " ++ toString body.length ++
        " bytes, exceeds MAX_BLOB_BYTES=" ++ toString maxBlobBytes)))
    else .ok body

/-- The check of both uploads before the request is made. -/
def refuseOversized (body : Bytes) : Outcome Unit :=
  if maxBlobBytes < body.length then
    .error (.error (.azure ("refusing to upload blob '" ++ blob ++ "': " ++ toString body.length ++
      " bytes exceeds MAX_BLOB_BYTES=" ++ toString maxBlobBytes)))
  else .ok ()

def readUpload (mismatch : String) : Response (Option String) → Outcome String
  | .preconditionFailed => concurrentUpdate blob mismatch
  | .notFound => .error (.error (.azure "404 Not Found"))
  | .failed msg => .error (.error (.azure msg))
  | .ok none => .error (.error (.azure "upload response missing ETag"))
  | .ok (some etag) => .ok etag

def readDelete : Response Unit → Outcome Unit
  | .preconditionFailed => concurrentUpdate blob "etag mismatch"
  | .notFound => concurrentUpdate blob "blob disappeared"
  | .failed msg => .error (.error (.azure msg))
  | .ok () => .ok ()

def readUnconditionalDelete : Response Unit → Outcome Unit
  | .preconditionFailed => .error (.error (.azure "412 Precondition Failed"))
  | .notFound => .ok ()
  | .failed msg => .error (.error (.azure msg))
  | .ok () => .ok ()

end Replies

/-! ### The requests -/

/-- `get_body_if_match`. -/
def getBodyIfMatch (blob ifMatch : String) : StoreProgram Bytes := do
  let reply ← Program.call (StoreOp.getIfMatch blob ifMatch)
  Program.ofExcept (readBody blob reply)

/-- `put_if_match`. -/
def putIfMatch (blob : String) (body : Bytes) (etag : String) : StoreProgram String := do
  Program.ofExcept (refuseOversized blob body)
  let reply ← Program.call (StoreOp.putIfMatch blob body etag)
  Program.ofExcept (readUpload blob "etag mismatch" reply)

/-- `put_if_none_match`. -/
def putIfNoneMatch (blob : String) (body : Bytes) : StoreProgram String := do
  Program.ofExcept (refuseOversized blob body)
  let reply ← Program.call (StoreOp.putIfNoneMatch blob body)
  Program.ofExcept (readUpload blob "staging-name collision (If-None-Match)" reply)

/-- `delete_if_match`. -/
def deleteIfMatch (blob etag : String) : StoreProgram Unit := do
  let reply ← Program.call (StoreOp.deleteIfMatch blob etag)
  Program.ofExcept (readDelete blob reply)

/-- `delete_unconditional`, as the result that the caller may drop. -/
def deleteUnconditional (blob : String) : StoreProgram (Outcome Unit) := do
  let reply ← Program.call (StoreOp.delete blob)
  return readUnconditionalDelete reply

theorem readBody_eq_ok {blob : String} {reply : Response (Option ℕ × Bytes)} {body : Bytes}
    (h : readBody blob reply = .ok body) : ∃ len, reply = .ok (len, body) := by
  cases reply with
  | ok a =>
    simp only [readBody] at h
    split_ifs at h
    exact ⟨a.1, by rw [← Except.ok.inj h]⟩
  | preconditionFailed | notFound | failed => cases h

theorem refuseOversized_eq_ok {blob : String} {body : Bytes} :
    refuseOversized blob body = .ok () ↔ body.length ≤ maxBlobBytes := by
  rw [refuseOversized, ← not_lt]
  split_ifs with h <;> simp [h]

theorem readUpload_eq_ok {blob mismatch etag : String} {reply : Response (Option String)}
    (h : readUpload blob mismatch reply = .ok etag) : reply = .ok (some etag) := by
  cases reply with
  | ok a =>
    cases a with
    | none => cases h
    | some e => rw [Except.ok.inj h]
  | preconditionFailed | notFound | failed => cases h

theorem readDelete_eq_ok {blob : String} {reply : Response Unit}
    (h : readDelete blob reply = .ok ()) : reply = .ok () := by
  cases reply with
  | ok a => rfl
  | preconditionFailed | notFound | failed => cases h

end ParquetAzureFdw
