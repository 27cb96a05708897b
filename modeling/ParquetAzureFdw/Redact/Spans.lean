/-
# Redaction

`src/redact.rs`: the scanner that strips secrets from a message before it is logged.  It walks
the bytes from the left.  Where `Bearer` and white space begin, or a secret key with `=`
behind a separator, it writes a fixed text and jumps behind the token or the value; every
other byte is pushed as a character.

What it finds is a reading of the message into pieces: plain bytes, key spans and Bearer spans
(`nextPiece`, `redactLoop_eq`).  Whether a span begins is decided by the run of letters and
underscores in front and the byte that ends it (`front`): neither pattern has any other byte
but its last.  So what a span begins with is never cut in two by a change elsewhere in the
message.
-/

import ParquetAzureFdw.Arrow.Batch
import ParquetAzureFdw.Lib.Scanning

namespace ParquetAzureFdw

open Scanning

/-! ### The scanner -/

/-- `SECRET_QUERY_KEYS`. -/
def secretQueryKeys : List String :=
  ["sig", "signature", "skoid", "sktid", "skt", "ske", "sks", "skv", "code", "access_token",
    "refresh_token", "id_token", "client_assertion", "assertion"]

/-- `u8::to_ascii_lowercase`. -/
def toAsciiLowercase (c : UInt8) : UInt8 := if 65 ≤ c && c ≤ 90 then c + 32 else c

/-- `u8::is_ascii_whitespace`: space, tab, line feed, form feed, carriage return. -/
def isAsciiWhitespace (c : UInt8) : Bool := [32, 9, 10, 12, 13].contains c

/-- The bytes that end a Bearer token: white space, `"`, `,` and `'`. -/
def endsToken (c : UInt8) : Bool := isAsciiWhitespace c || [34, 44, 39].contains c

/-- The bytes that end the value of a key: `&`, space, tab, line feed, `)`, `'`, `"` and `,`. -/
def endsValue (c : UInt8) : Bool := [38, 32, 9, 10, 41, 39, 34, 44].contains c

/-- `prev_ok`: a key stands at the start, or behind `?`, `&`, space, tab, line feed, `(`, `'`,
`"` or `,`. -/
def prevOk : Option UInt8 → Bool
  | none => true
  | some c => [63, 38, 32, 9, 10, 40, 39, 34, 44].contains c

/-- `consume_prefix_ci`. -/
def consumePrefixCi (bytes pat : List UInt8) : Option (List UInt8) :=
  if bytes.length < pat.length then none
  else if ((bytes.take pat.length).zip pat).all fun ab =>
      toAsciiLowercase ab.1 == toAsciiLowercase ab.2 then
    some (bytes.drop pat.length)
  else none

/-- `b"bearer"`. -/
def bearerWord : List UInt8 := utf8Bytes "bearer"

/-- The first test of an iteration: how far `i` advances over `Bearer`, white space and a
token. -/
def bearerLength (bytes : List UInt8) : Option ℕ := do
  let rest ← consumePrefixCi bytes bearerWord
  let wsLen := (rest.takeWhile isAsciiWhitespace).length
  if wsLen > 0 then
    let tail := rest.drop wsLen
    some ((bytes.length - rest.length) + wsLen + tail.findIdx endsToken)
  else none

/-- An iteration of the loop over the keys: how far `i` advances over the key, `=` and its
value. -/
def keyLength (prev : Option UInt8) (bytes : List UInt8) (key : String) : Option (String × ℕ) := do
  let rest ← consumePrefixCi bytes (utf8Bytes key ++ [61])
  if prevOk prev then
    some (key, (bytes.length - rest.length) + rest.findIdx endsValue)
  else none

/-- The second test: the first key that stands here. -/
def secretLength (prev : Option UInt8) (bytes : List UInt8) : Option (String × ℕ) :=
  secretQueryKeys.findSome? (keyLength prev bytes)

/-- The loop of `redact`, on the bytes from `i` on.  `prev` is `bytes[i - 1]`.  Every iteration
advances, so the length of the message is enough fuel. -/
def redactLoop : ℕ → Option UInt8 → List UInt8 → List Char
  | 0, _, _ => []
  | _ + 1, _, [] => []
  | fuel + 1, prev, c :: bytes =>
    match bearerLength (c :: bytes) with
    | some n =>
      "Bearer REDACTED".toList ++ redactLoop fuel (c :: bytes)[n - 1]? ((c :: bytes).drop n)
    | none =>
      match secretLength prev (c :: bytes) with
      | some (key, n) =>
        key.toList ++ "=REDACTED".toList ++
          redactLoop fuel (c :: bytes)[n - 1]? ((c :: bytes).drop n)
      | none => Char.ofNat c.toNat :: redactLoop fuel (some c) bytes

/-- The fast path's test: the message mentions a key with `=`, or `bearer`. -/
def mentionsSecret (msg : String) : Bool :=
  let lower := (utf8Bytes msg).map toAsciiLowercase
  (secretQueryKeys.any fun key => decide (utf8Bytes key ++ [61] <:+: lower)) ||
    decide (bearerWord <:+: lower)

/-- `redact`. -/
def redact (msg : String) : String :=
  if mentionsSecret msg then
    String.ofList (redactLoop (utf8Bytes msg).length none (utf8Bytes msg))
  else msg

/-! ### What the patterns are made of -/

/-- A lower-case letter or `_`. -/
def isKeyLetter (c : UInt8) : Bool := (97 ≤ c && c ≤ 122) || c == 95

/-- A letter of either case, or `_`. -/
def isKeyByte (c : UInt8) : Bool := isKeyLetter (toAsciiLowercase c)

theorem isKeyLetter_of_mem_bearerWord : ∀ c ∈ bearerWord, isKeyLetter c = true :=
  List.all_eq_true.mp (by decide)

theorem map_lower_bearerWord : bearerWord.map toAsciiLowercase = bearerWord := by decide

theorem isKeyLetter_of_mem_key :
    ∀ key ∈ secretQueryKeys, ∀ c ∈ utf8Bytes key, isKeyLetter c = true := by
  have h : (secretQueryKeys.all fun key => (utf8Bytes key).all isKeyLetter) = true := by
    decide
  simpa only [List.all_eq_true] using h

theorem map_lower_key :
    ∀ key ∈ secretQueryKeys, (utf8Bytes key).map toAsciiLowercase = utf8Bytes key := by
  have h : (secretQueryKeys.all fun key =>
      (utf8Bytes key).map toAsciiLowercase == utf8Bytes key) = true := by decide
  simpa only [List.all_eq_true, beq_iff_eq] using h

theorem key_ne_nil : ∀ key ∈ secretQueryKeys, utf8Bytes key ≠ [] := by
  have h : (secretQueryKeys.all fun key => utf8Bytes key != []) = true := by decide
  simpa only [List.all_eq_true, bne_iff_ne] using h

/-- What is spelled like a word of key letters consists of key bytes. -/
theorem isKeyByte_of_map_lower {w word : List UInt8} (hw : w.map toAsciiLowercase = word)
    (hword : ∀ c ∈ word, isKeyLetter c = true) : ∀ c ∈ w, isKeyByte c = true :=
  fun _ hc => hword _ (hw ▸ List.mem_map_of_mem hc)

theorem isKeyByte_eq_false_of_ws {c : UInt8} (h : isAsciiWhitespace c = true) :
    isKeyByte c = false := by
  simp only [isAsciiWhitespace, List.contains_eq_mem, decide_eq_true_eq, List.mem_cons,
    List.not_mem_nil, or_false] at h
  rcases h with rfl | rfl | rfl | rfl | rfl <;> decide

theorem isKeyByte_eq_false_of_endsToken {c : UInt8} (h : endsToken c = true) :
    isKeyByte c = false := by
  rcases Bool.or_eq_true_iff.mp h with h | h
  · exact isKeyByte_eq_false_of_ws h
  · simp only [List.contains_eq_mem, decide_eq_true_eq, List.mem_cons, List.not_mem_nil,
      or_false] at h
    rcases h with rfl | rfl | rfl <;> decide

theorem isKeyByte_eq_false_of_endsValue {c : UInt8} (h : endsValue c = true) :
    isKeyByte c = false := by
  simp only [endsValue, List.contains_eq_mem, decide_eq_true_eq, List.mem_cons,
    List.not_mem_nil, or_false] at h
  rcases h with rfl | rfl | rfl | rfl | rfl | rfl | rfl | rfl <;> decide

theorem isKeyByte_eq_false_of_prevOk {c : UInt8} (h : prevOk (some c) = true) :
    isKeyByte c = false := by
  simp only [prevOk, List.contains_eq_mem, decide_eq_true_eq, List.mem_cons,
    List.not_mem_nil, or_false] at h
  rcases h with rfl | rfl | rfl | rfl | rfl | rfl | rfl | rfl | rfl <;> decide

/-- The run of key bytes in front, in lower case, and the byte that ends it. -/
def front (bytes : List UInt8) : List UInt8 × Option UInt8 :=
  ((bytes.takeWhile isKeyByte).map toAsciiLowercase, (bytes.dropWhile isKeyByte).head?)

/-- `Bearer` and white space. -/
def opensBearer (f : List UInt8 × Option UInt8) : Bool :=
  f.1 == bearerWord && f.2.any isAsciiWhitespace

/-- A secret key and `=`. -/
def opensSecret (f : List UInt8 × Option UInt8) : Bool :=
  (secretQueryKeys.any fun key => f.1 == utf8Bytes key) && f.2 == some 61

theorem front_cons_of_key {c : UInt8} (h : isKeyByte c = true) (l : List UInt8) :
    front (c :: l) = (toAsciiLowercase c :: (front l).1, (front l).2) := by
  simp [front, h]

theorem front_cons_of_not_key {c : UInt8} (h : isKeyByte c = false) (l : List UInt8) :
    front (c :: l) = ([], some c) := by
  simp [front, h]

theorem front_append_of_key {w : List UInt8} (h : ∀ c ∈ w, isKeyByte c = true) (l : List UInt8) :
    front (w ++ l) = (w.map toAsciiLowercase ++ (front l).1, (front l).2) := by
  simp only [front, List.takeWhile_append_of_pos h, List.dropWhile_append_of_pos h,
    List.map_append]

/-- A byte that is no key byte hides what comes behind it. -/
theorem front_append_of_not_key {u : List UInt8} {c : UInt8} (hc : c ∈ u)
    (hkey : isKeyByte c = false) (l : List UInt8) : front (u ++ l) = front u := by
  induction u with
  | nil => cases hc
  | cons d u ih =>
    cases hd : isKeyByte d with
    | false => rw [List.cons_append, front_cons_of_not_key hd, front_cons_of_not_key hd]
    | true =>
      have hcu : c ∈ u := by
        rcases List.mem_cons.mp hc with rfl | hcu
        · exact absurd (hkey.symm.trans hd) Bool.false_ne_true
        · exact hcu
      rw [List.cons_append, front_cons_of_key hd, front_cons_of_key hd, ih hcu]

/-! ### The two tests -/

section Tests

variable {bytes pat rest word gap token name value : List UInt8} {key : String} {n : ℕ}

theorem consumePrefixCi_eq_some_iff : consumePrefixCi bytes pat = some rest ↔
    ∃ w, bytes = w ++ rest ∧ w.map toAsciiLowercase = pat.map toAsciiLowercase := by
  have hall : ∀ w : List UInt8, w.length = pat.length →
      ((w.zip pat).all (fun ab => toAsciiLowercase ab.1 == toAsciiLowercase ab.2) = true ↔
        w.map toAsciiLowercase = pat.map toAsciiLowercase) := by
    intro w hw
    induction w generalizing pat with
    | nil =>
      cases pat with
      | nil => simp
      | cons => simp at hw
    | cons a w ih =>
      cases pat with
      | nil => simp at hw
      | cons b pat => simp [ih (Nat.succ.inj hw)]
  rw [consumePrefixCi]
  constructor
  · intro h
    split at h
    · cases h
    · rename_i hlength
      split at h
      · rename_i hw
        cases h
        exact ⟨_, (List.take_append_drop _ _).symm,
          (hall _ (List.length_take_of_le (not_lt.mp hlength))).mp hw⟩
      · cases h
  · rintro ⟨w, rfl, hw⟩
    have hlength : w.length = pat.length := by simpa using congrArg List.length hw
    rw [if_neg (by simp [hlength]), List.take_left' hlength, List.drop_left' hlength,
      if_pos ((hall w hlength).mpr hw)]

/-- `Bearer`, white space and a token, as far as they go in front of the rest. -/
structure BearerParts (word gap token rest : List UInt8) : Prop where
  word : word.map toAsciiLowercase = bearerWord
  gap_ne : gap ≠ []
  gap : ∀ c ∈ gap, isAsciiWhitespace c = true
  gap_ends : StopsAt (fun c => !isAsciiWhitespace c) (token ++ rest)
  token : ∀ c ∈ token, endsToken c = false
  rest : StopsAt endsToken rest

/-- A key, `=` and a value, as far as it goes in front of the rest. -/
structure SecretParts (key : String) (name value rest : List UInt8) : Prop where
  mem : key ∈ secretQueryKeys
  name : name.map toAsciiLowercase = utf8Bytes key
  value : ∀ c ∈ value, endsValue c = false
  rest : StopsAt endsValue rest

theorem bearerLength_eq_some_iff : bearerLength bytes = some n ↔
    ∃ word gap token rest, BearerParts word gap token rest ∧
      bytes = word ++ (gap ++ (token ++ rest)) ∧
      n = (word ++ (gap ++ token)).length := by
  constructor
  · intro h
    obtain ⟨rest, hrest, h⟩ := Option.bind_eq_some_iff.mp h
    obtain ⟨word, rfl, hword⟩ := consumePrefixCi_eq_some_iff.mp hrest
    obtain ⟨gap, tail, rfl, hgap, htail⟩ := exists_split (fun c => !isAsciiWhitespace c) rest
    obtain ⟨token, rest, rfl, htoken, hends⟩ := exists_split endsToken tail
    have hgap' : ∀ c ∈ gap, isAsciiWhitespace c = true := by simpa using hgap
    simp only [takeWhile_split hgap' htail, List.drop_left, findIdx_split htoken hends,
      Option.ite_none_right_eq_some, Option.some.injEq] at h
    refine ⟨word, gap, token, rest, ⟨hword.trans map_lower_bearerWord, ?_, hgap', htail, htoken,
      hends⟩, rfl, ?_⟩
    · exact List.ne_nil_of_length_pos h.1
    · simp only [List.length_append] at h ⊢
      omega
  · rintro ⟨word, gap, token, rest, h, rfl, rfl⟩
    have hword : consumePrefixCi (word ++ (gap ++ (token ++ rest))) bearerWord =
        some (gap ++ (token ++ rest)) :=
      consumePrefixCi_eq_some_iff.mpr ⟨word, rfl, h.word.trans map_lower_bearerWord.symm⟩
    simp only [bearerLength, hword, Option.bind_eq_bind, Option.bind_some,
      takeWhile_split h.gap h.gap_ends, if_pos (List.length_pos_iff.mpr h.gap_ne), List.drop_left,
      findIdx_split h.token h.rest, List.length_append]
    congr 1
    omega

theorem front_bearer (hword : word.map toAsciiLowercase = bearerWord) (hne : gap ≠ [])
    (hgap : ∀ c ∈ gap, isAsciiWhitespace c = true) (l : List UInt8) :
    ∃ g, isAsciiWhitespace g = true ∧ front (word ++ (gap ++ l)) = (bearerWord, some g) := by
  obtain ⟨g, gap', rfl⟩ := List.exists_cons_of_ne_nil hne
  have hg := hgap g List.mem_cons_self
  refine ⟨g, hg, ?_⟩
  rw [front_append_of_key (isKeyByte_of_map_lower hword isKeyLetter_of_mem_bearerWord),
    List.cons_append, front_cons_of_not_key (isKeyByte_eq_false_of_ws hg), List.append_nil, hword]

theorem BearerParts.opens (h : BearerParts word gap token rest) :
    opensBearer (front (word ++ (gap ++ (token ++ rest)))) = true := by
  obtain ⟨g, hg, hfront⟩ := front_bearer h.word h.gap_ne h.gap (token ++ rest)
  rw [hfront]
  simp [opensBearer, hg]

/-- **The front of the bytes decides the first test.** -/
theorem isSome_bearerLength (bytes : List UInt8) :
    (bearerLength bytes).isSome = opensBearer (front bytes) := by
  rw [Bool.eq_iff_iff, Option.isSome_iff_exists]
  constructor
  · rintro ⟨n, hn⟩
    obtain ⟨word, gap, token, rest, h, rfl, -⟩ := bearerLength_eq_some_iff.mp hn
    exact h.opens
  · intro h
    obtain ⟨hword, hstop⟩ := Bool.and_eq_true_iff.mp h
    obtain ⟨g, hg, hws⟩ := (Option.any_eq_true _ _).mp hstop
    obtain ⟨l, hl⟩ := List.head?_eq_some_iff.mp hg
    obtain ⟨gap, tail, hsplit, hgap, htail⟩ := exists_split (fun c => !isAsciiWhitespace c) l
    obtain ⟨token, rest, rfl, htoken, hends⟩ := exists_split endsToken tail
    refine ⟨_, bearerLength_eq_some_iff.mpr ⟨bytes.takeWhile isKeyByte, g :: gap, token, rest,
      ⟨beq_iff_eq.mp hword, List.cons_ne_nil _ _, ?_, htail, htoken, hends⟩, ?_, rfl⟩⟩
    · exact List.forall_mem_cons.mpr ⟨hws, by simpa using hgap⟩
    · rw [List.cons_append, ← hsplit, ← hl, List.takeWhile_append_dropWhile]

theorem SecretParts.front_eq (h : SecretParts key name value rest) :
    front (name ++ (61 :: (value ++ rest))) = (utf8Bytes key, some 61) := by
  have hname := isKeyByte_of_map_lower h.name (isKeyLetter_of_mem_key key h.mem)
  rw [front_append_of_key hname, front_cons_of_not_key (by decide), List.append_nil, h.name]

theorem SecretParts.opens (h : SecretParts key name value rest) :
    opensSecret (front (name ++ (61 :: (value ++ rest)))) = true := by
  rw [h.front_eq, opensSecret, Bool.and_eq_true, List.any_eq_true]
  exact ⟨⟨key, h.mem, beq_self_eq_true _⟩, beq_self_eq_true _⟩

/-- A key with `=` begins no Bearer span. -/
theorem SecretParts.not_bearer (h : SecretParts key name value rest) :
    opensBearer (front (name ++ (61 :: (value ++ rest)))) = false := by
  rw [h.front_eq, opensBearer]
  simp [isAsciiWhitespace]

theorem eq_of_toAsciiLowercase_eq {c : UInt8} (h : toAsciiLowercase c = 61) : c = 61 := by
  rw [toAsciiLowercase] at h
  split at h
  · rename_i hc
    simp only [Bool.and_eq_true, decide_eq_true_eq, UInt8.le_iff_toNat_le] at hc
    have hsum := congrArg UInt8.toNat h
    rw [UInt8.toNat_add] at hsum
    change (c.toNat + 32) % 256 = 61 at hsum
    change 65 ≤ c.toNat ∧ c.toNat ≤ 90 at hc
    omega
  · exact h

theorem keyLength_eq_some_iff {prev : Option UInt8} {r : String × ℕ}
    (hkey : key ∈ secretQueryKeys) :
    keyLength prev bytes key = some r ↔
      prevOk prev = true ∧ ∃ name value rest, SecretParts key name value rest ∧
        bytes = name ++ (61 :: (value ++ rest)) ∧ r = (key, (name ++ (61 :: value)).length) := by
  constructor
  · intro h
    obtain ⟨rest, hrest, h⟩ := Option.bind_eq_some_iff.mp h
    obtain ⟨w, rfl, hw⟩ := consumePrefixCi_eq_some_iff.mp hrest
    rw [List.map_append, map_lower_key key hkey,
      show [61].map toAsciiLowercase = [61] from rfl] at hw
    obtain ⟨name, last, rfl, hname, hlast⟩ := List.map_eq_append_iff.mp hw
    obtain ⟨e, rfl, he⟩ : ∃ e, last = [e] ∧ toAsciiLowercase e = 61 := by
      simpa [List.map_eq_cons_iff] using hlast
    obtain rfl := eq_of_toAsciiLowercase_eq he
    obtain ⟨value, rest, rfl, hvalue, hends⟩ := exists_split endsValue rest
    simp only [findIdx_split hvalue hends, Option.ite_none_right_eq_some, Option.some.injEq] at h
    refine ⟨h.1, name, value, rest, ⟨hkey, hname, hvalue, hends⟩, by simp, ?_⟩
    rw [← h.2]
    simp only [List.length_append, List.length_cons, List.length_nil]
    congr 1
    omega
  · rintro ⟨hprev, name, value, rest, h, rfl, rfl⟩
    have hname : consumePrefixCi (name ++ (61 :: (value ++ rest))) (utf8Bytes key ++ [61]) =
        some (value ++ rest) := by
      refine consumePrefixCi_eq_some_iff.mpr ⟨name ++ [61], by simp, ?_⟩
      rw [List.map_append, List.map_append, map_lower_key key hkey, h.name]
    simp only [keyLength, hname, Option.bind_eq_bind, Option.bind_some, if_pos hprev,
      findIdx_split h.value h.rest, List.length_append, List.length_cons]
    congr 2
    omega

theorem secretLength_eq_some_iff {prev : Option UInt8} : secretLength prev bytes = some (key, n) ↔
    prevOk prev = true ∧ ∃ name value rest, SecretParts key name value rest ∧
      bytes = name ++ (61 :: (value ++ rest)) ∧ n = (name ++ (61 :: value)).length := by
  have hsome : ∀ {r}, secretLength prev bytes = some r →
      ∃ key' ∈ secretQueryKeys, keyLength prev bytes key' = some r :=
    fun hr => List.exists_of_findSome?_eq_some hr
  constructor
  · intro h
    obtain ⟨key', hkey', h⟩ := hsome h
    obtain ⟨hprev, name, value, rest, hparts, hbytes, hr⟩ := (keyLength_eq_some_iff hkey').mp h
    cases hr
    exact ⟨hprev, name, value, rest, hparts, hbytes, rfl⟩
  · rintro ⟨hprev, name, value, rest, hparts, hbytes, rfl⟩
    have hkey := (keyLength_eq_some_iff hparts.mem).mpr ⟨hprev, name, value, rest, hparts, hbytes,
      rfl⟩
    cases hr : secretLength prev bytes with
    | none =>
      have hnone := List.findSome?_eq_none_iff.mp hr key hparts.mem
      cases hkey.symm.trans hnone
    | some r =>
      -- the run of key bytes in front is that of one key only
      obtain ⟨key', hkey', h⟩ := hsome hr
      obtain ⟨-, name', value', rest', hparts', hbytes', -⟩ := (keyLength_eq_some_iff hkey').mp h
      have hfront := (hbytes ▸ hparts.front_eq).symm.trans (hbytes' ▸ hparts'.front_eq)
      obtain rfl := utf8Bytes_injective (Prod.ext_iff.mp hfront).1
      exact h.symm.trans hkey

/-- **The front of the bytes and the byte before decide the second test.** -/
theorem isSome_secretLength (prev : Option UInt8) (bytes : List UInt8) :
    (secretLength prev bytes).isSome = (prevOk prev && opensSecret (front bytes)) := by
  rw [Bool.eq_iff_iff, Option.isSome_iff_exists, Bool.and_eq_true]
  constructor
  · rintro ⟨⟨key, n⟩, hn⟩
    obtain ⟨hprev, name, value, rest, h, rfl, -⟩ := secretLength_eq_some_iff.mp hn
    exact ⟨hprev, h.opens⟩
  · rintro ⟨hprev, h⟩
    obtain ⟨hname, hstop⟩ := Bool.and_eq_true_iff.mp h
    obtain ⟨key, hkey, hname⟩ := List.any_eq_true.mp hname
    obtain ⟨l, hl⟩ := List.head?_eq_some_iff.mp (beq_iff_eq.mp hstop)
    obtain ⟨value, rest, rfl, hvalue, hends⟩ := exists_split endsValue l
    refine ⟨(key, _), secretLength_eq_some_iff.mpr ⟨hprev, bytes.takeWhile isKeyByte, value, rest,
      ⟨hkey, beq_iff_eq.mp hname, hvalue, hends⟩, ?_, rfl⟩⟩
    rw [← hl, List.takeWhile_append_dropWhile]

end Tests

/-! ### Pieces of a message -/

/-- A piece of a message: a byte that is copied, or a span that is replaced. -/
inductive Piece where
  | plain (c : UInt8)
  | bearer (span : List UInt8)
  | secret (key : String) (span : List UInt8)
  deriving DecidableEq, Repr

/-- The bytes of the message that the piece covers. -/
def Piece.raw : Piece → List UInt8
  | .plain c => [c]
  | .bearer span => span
  | .secret _ span => span

/-- What `redact` pushes for the piece. -/
def Piece.pushed : Piece → List Char
  | .plain c => [Char.ofNat c.toNat]
  | .bearer _ => "Bearer REDACTED".toList
  | .secret key _ => key.toList ++ "=REDACTED".toList

theorem Piece.pushed_plain (c : UInt8) : (Piece.plain c).pushed = [Char.ofNat c.toNat] := rfl

theorem Piece.pushed_bearer (span : List UInt8) :
    (Piece.bearer span).pushed = "Bearer REDACTED".toList := rfl

theorem Piece.pushed_secret (key : String) (span : List UInt8) :
    (Piece.secret key span).pushed = key.toList ++ "=REDACTED".toList := rfl

/-- The piece that an iteration of the loop finds. -/
def nextPiece (prev : Option UInt8) (bytes : List UInt8) :
    Option (Piece × Option UInt8 × List UInt8) :=
  match bearerLength bytes with
  | some n => some (.bearer (bytes.take n), bytes[n - 1]?, bytes.drop n)
  | none =>
    match secretLength prev bytes with
    | some (key, n) => some (.secret key (bytes.take n), bytes[n - 1]?, bytes.drop n)
    | none =>
      match bytes with
      | [] => none
      | c :: rest => some (.plain c, some c, rest)

/-- A piece in front of the rest, with `prev` before it. -/
inductive Taken (prev : Option UInt8) : Piece → List UInt8 → Prop
  | bearer {word gap token rest : List UInt8} (parts : BearerParts word gap token rest) :
      Taken prev (.bearer (word ++ (gap ++ token))) rest
  | secret {key : String} {name value rest : List UInt8} (hprev : prevOk prev = true)
      (parts : SecretParts key name value rest) :
      Taken prev (.secret key (name ++ (61 :: value))) rest
  | plain {c : UInt8} {rest : List UInt8} (hbearer : opensBearer (front (c :: rest)) = false)
      (hsecret : (prevOk prev && opensSecret (front (c :: rest))) = false) :
      Taken prev (.plain c) rest

section Pieces

variable {prev s : Option UInt8} {bytes rest : List UInt8} {p : Piece} {ps : List Piece}

theorem Taken.raw_ne_nil (h : Taken prev p rest) : p.raw ≠ [] := by
  cases h with
  | bearer parts => simp [Piece.raw, parts.gap_ne]
  | secret _ _ => simp [Piece.raw]
  | plain _ _ => simp [Piece.raw]

/-- The byte before position `n`, when the first `n` bytes are the span. -/
theorem getElem?_span {span : List UInt8} (h : span ≠ []) (rest : List UInt8) :
    (span ++ rest)[span.length - 1]? = span.getLast? := by
  have hpos := List.length_pos_iff.mpr h
  rw [List.getElem?_append_left (by omega), List.getLast?_eq_getElem?]

/-- **What an iteration can find**, and that it goes on behind the piece. -/
theorem nextPiece_eq_some_iff : nextPiece prev bytes = some (p, s, rest) ↔
    Taken prev p rest ∧ bytes = p.raw ++ rest ∧ s = p.raw.getLast? := by
  constructor
  · intro h
    unfold nextPiece at h
    split at h
    · rename_i n hn
      obtain ⟨word, gap, token, rest, parts, rfl, rfl⟩ := bearerLength_eq_some_iff.mp hn
      have hne : word ++ (gap ++ token) ≠ [] := by simp [parts.gap_ne]
      have hbytes : word ++ (gap ++ (token ++ rest)) = (word ++ (gap ++ token)) ++ rest := by simp
      rw [hbytes, List.take_left, List.drop_left, getElem?_span hne] at h
      cases h
      exact ⟨.bearer parts, hbytes, rfl⟩
    · rename_i hbearer
      split at h
      · rename_i key n hn
        obtain ⟨hprev, name, value, rest, parts, rfl, rfl⟩ := secretLength_eq_some_iff.mp hn
        have hbytes : name ++ (61 :: (value ++ rest)) = (name ++ (61 :: value)) ++ rest := by simp
        rw [hbytes, List.take_left, List.drop_left, getElem?_span (by simp)] at h
        cases h
        exact ⟨.secret hprev parts, hbytes, rfl⟩
      · rename_i hsecret
        split at h
        · cases h
        · cases h
          refine ⟨.plain ?_ ?_, rfl, rfl⟩
          · rw [← isSome_bearerLength, hbearer]
            rfl
          · rw [← isSome_secretLength, hsecret]
            rfl
  · rintro ⟨h, rfl, rfl⟩
    cases h with
    | @bearer word gap token _ parts =>
      have hn := bearerLength_eq_some_iff.mpr ⟨word, gap, token, rest, parts, rfl, rfl⟩
      have hne : word ++ (gap ++ token) ≠ [] := by simp [parts.gap_ne]
      have hbytes : word ++ (gap ++ (token ++ rest)) = (word ++ (gap ++ token)) ++ rest := by simp
      rw [hbytes] at hn
      rw [Piece.raw, nextPiece.eq_def, hn]
      simp only [List.take_left, List.drop_left, getElem?_span hne]
    | @secret key name value _ hprev parts =>
      have hn := secretLength_eq_some_iff.mpr ⟨hprev, name, value, rest, parts, rfl, rfl⟩
      have hbearer := parts.not_bearer
      rw [← isSome_bearerLength, Option.isSome_eq_false_iff, Option.isNone_iff_eq_none] at hbearer
      have hbytes : name ++ (61 :: (value ++ rest)) = (name ++ (61 :: value)) ++ rest := by simp
      rw [hbytes] at hn hbearer
      rw [Piece.raw, nextPiece.eq_def, hn, hbearer]
      simp only [List.take_left, List.drop_left, getElem?_span (show name ++ 61 :: value ≠ [] by simp)]
    | @plain c _ hbearer hsecret =>
      rw [← isSome_bearerLength, Option.isSome_eq_false_iff, Option.isNone_iff_eq_none] at hbearer
      rw [← isSome_secretLength, Option.isSome_eq_false_iff, Option.isNone_iff_eq_none] at hsecret
      simp only [Piece.raw, List.cons_append, List.nil_append, nextPiece, hbearer, hsecret]
      rfl

/-- A piece, and the reading of what is behind it. -/
theorem Taken.reads (h : Taken prev p rest) (hrest : Reads nextPiece p.raw.getLast? rest ps) :
    Reads nextPiece prev (p.raw ++ rest) (p :: ps) :=
  .cons (by simp [h.raw_ne_nil]) (nextPiece_eq_some_iff.mpr ⟨h, rfl, rfl⟩) hrest

/-- Induction on a reading, piece by piece. -/
theorem pieces_induct {M : Option UInt8 → List UInt8 → List Piece → Prop}
    (h : Reads nextPiece prev bytes ps) (nil : ∀ prev, M prev [] [])
    (cons : ∀ {prev p rest ps}, Taken prev p rest → Reads nextPiece p.raw.getLast? rest ps →
      M p.raw.getLast? rest ps → M prev (p.raw ++ rest) (p :: ps)) : M prev bytes ps := by
  induction h with
  | nil s => exact nil s
  | cons hl taken reads ih =>
    obtain ⟨htaken, rfl, rfl⟩ := nextPiece_eq_some_iff.mp taken
    exact cons htaken reads ih

/-- **Every message has a reading.** -/
theorem exists_pieces (prev : Option UInt8) (bytes : List UInt8) :
    ∃ ps, Reads nextPiece prev bytes ps := by
  refine exists_reads (fun prev bytes hbytes => ?_) (fun prev bytes p s rest h => ?_) prev bytes
  · rw [nextPiece.eq_def]
    split
    · exact ⟨_, _, _, rfl⟩
    · split
      · exact ⟨_, _, _, rfl⟩
      · split
        · exact absurd rfl hbytes
        · exact ⟨_, _, _, rfl⟩
  · obtain ⟨htaken, rfl, -⟩ := nextPiece_eq_some_iff.mp h
    have hpos := List.length_pos_iff.mpr htaken.raw_ne_nil
    rw [List.length_append]
    omega

/-- The pieces make up the message. -/
theorem flatMap_raw (h : Reads nextPiece prev bytes ps) : ps.flatMap Piece.raw = bytes := by
  refine pieces_induct h (M := fun _ bytes ps => ps.flatMap Piece.raw = bytes) (fun _ => rfl) ?_
  intro prev p rest ps _ _ ih
  rw [List.flatMap_cons, ih]

theorem redactLoop_succ (fuel : ℕ) (hbytes : bytes ≠ [])
    (h : nextPiece prev bytes = some (p, s, rest)) :
    redactLoop (fuel + 1) prev bytes = p.pushed ++ redactLoop fuel s rest := by
  obtain ⟨c, bytes, rfl⟩ := List.exists_cons_of_ne_nil hbytes
  rw [nextPiece.eq_def] at h
  rw [redactLoop]
  split at h
  · cases h
    rfl
  · split at h
    · cases h
      rfl
    · cases h
      rfl

/-- **The loop pushes the pieces one by one.** -/
theorem redactLoop_eq {fuel : ℕ} (h : Reads nextPiece prev bytes ps)
    (hfuel : bytes.length ≤ fuel) : redactLoop fuel prev bytes = ps.flatMap Piece.pushed := by
  induction h generalizing fuel with
  | nil s => cases fuel <;> rfl
  | @cons prev s bytes rest p ps hbytes taken reads ih =>
    obtain ⟨htaken, rfl, rfl⟩ := nextPiece_eq_some_iff.mp taken
    have hpos := List.length_pos_iff.mpr htaken.raw_ne_nil
    rw [List.length_append] at hfuel
    obtain ⟨fuel, rfl⟩ : ∃ k, fuel = k + 1 := ⟨fuel - 1, by omega⟩
    rw [redactLoop_succ fuel hbytes taken, ih (by omega), List.flatMap_cons]

/-- **What `redact` returns**: the message itself, or what its pieces are replaced by. -/
theorem redact_eq {msg : String} (h : Reads nextPiece none (utf8Bytes msg) ps) :
    redact msg = if mentionsSecret msg then String.ofList (ps.flatMap Piece.pushed) else msg := by
  rw [redact, redactLoop_eq h le_rfl]

end Pieces

end ParquetAzureFdw
