/-
# Secrets in the redacted text

Two messages that differ only in a secret should be redacted to the same text.  They are, as
long as the scanner stands at the secret when it gets there.  It does not when the part before
ends inside a span that is still open: then the secret is read as more of that span, and as the
two kinds of spans end at different bytes, what is left of it is copied.

A reading of the part before is kept by whatever follows, up to its last piece if this is a span
(`reads_append`, `reads_rewind`): what follows would have to complete a pattern
(`SameFronts`), and neither a separator nor `Bearer` can do so.
-/

import ParquetAzureFdw.Redact.Spans

namespace ParquetAzureFdw

open Scanning

/-! ### What follows a part of the message -/

section Following

variable {prev prev' : Option UInt8} {pre more rest span x y l : List UInt8} {p : Piece}
  {ps psm : List Piece} {c : UInt8} {key : String}

/-- What follows begins no span inside the part that does not begin there anyway. -/
def SameFronts (pre more : List UInt8) : Prop :=
  ∀ u, u <:+ pre → u ≠ [] →
    opensBearer (front (u ++ more)) = opensBearer (front u) ∧
      opensSecret (front (u ++ more)) = opensSecret (front u)

theorem SameFronts.of_suffix (h : SameFronts pre more) (hrest : rest <:+ pre) :
    SameFronts rest more := fun u hu => h u (hu.trans hrest)

/-- Behind a byte that is in neither pattern. -/
theorem sameFronts_of_last (h : ∀ c ∈ pre.getLast?, isKeyByte c = false) (more : List UInt8) :
    SameFronts pre more := by
  rintro u ⟨v, rfl⟩ hu
  have hlast : (v ++ u).getLast? = some (u.getLast hu) := by
    rw [List.getLast?_append_of_ne_nil _ hu, List.getLast?_eq_getLast_of_ne_nil hu]
  rw [front_append_of_not_key (List.getLast_mem hu) (h _ hlast)]
  exact ⟨rfl, rfl⟩

/-- In front of `Bearer` and white space. -/
theorem sameFronts_bearer (pre : List UInt8) {g : UInt8} (hg : isAsciiWhitespace g = true)
    (hmore : front more = (bearerWord, some g)) : SameFronts pre more := by
  rintro u - hu
  by_cases hkey : ∀ c ∈ u, isKeyByte c = true
  · have hfront : front u = (u.map toAsciiLowercase, none) := by
      have := front_append_of_key hkey []
      rwa [List.append_nil, show front [] = ([], none) from rfl, List.append_nil] at this
    have hlength : u.map toAsciiLowercase ++ bearerWord ≠ bearerWord := by
      simpa using hu
    have hstop : g ≠ 61 := by
      rintro rfl
      exact absurd hg (by decide)
    rw [front_append_of_key hkey, hmore, hfront]
    simp [opensBearer, opensSecret, hlength, hstop]
  · obtain ⟨c, hc, hckey⟩ := not_forall₂.mp hkey
    rw [front_append_of_not_key hc (Bool.eq_false_iff.mpr hckey)]
    exact ⟨rfl, rfl⟩

/-- Spans are what is replaced. -/
def Piece.isSpan : Piece → Bool
  | .plain _ => false
  | .bearer _ => true
  | .secret _ _ => true

/-- A piece that has ended stays the same, whatever follows the rest. -/
theorem Taken.append (h : Taken prev p rest) (hended : p.isSpan = true → rest ≠ [])
    (hsame : SameFronts (p.raw ++ rest) more) : Taken prev p (rest ++ more) := by
  cases h with
  | bearer parts =>
    have hrest := hended rfl
    refine .bearer ⟨parts.word, parts.gap_ne, parts.gap, ?_, parts.token,
      parts.rest.append hrest more⟩
    rw [← List.append_assoc]
    exact parts.gap_ends.append (by simp [hrest]) more
  | secret hprev parts =>
    exact .secret hprev ⟨parts.mem, parts.name, parts.value, parts.rest.append (hended rfl) more⟩
  | @plain c _ hbearer hsecret =>
    obtain ⟨hb, hs⟩ := hsame (c :: rest) List.suffix_rfl (List.cons_ne_nil _ _)
    rw [List.cons_append] at hb hs
    exact .plain (hb.trans hbearer) (by rw [hs]; exact hsecret)

/-- **A part that does not end in a span is read the same, whatever follows.** -/
theorem reads_append (h : Reads nextPiece prev pre ps) (hsame : SameFronts pre more)
    (hlast : ∀ p ∈ ps.getLast?, p.isSpan = false)
    (hmore : Reads nextPiece (pre.getLast?.or prev) more psm) :
    Reads nextPiece prev (pre ++ more) (ps ++ psm) := by
  revert hsame hlast hmore
  refine pieces_induct h (M := fun prev pre ps => SameFronts pre more →
    (∀ p ∈ ps.getLast?, p.isSpan = false) →
    Reads nextPiece (pre.getLast?.or prev) more psm →
    Reads nextPiece prev (pre ++ more) (ps ++ psm)) ?_ ?_
  · intro prev _ _ hmore
    exact hmore
  · intro prev p rest ps htaken hreads ih hsame hlast hmore
    have hrest : Reads nextPiece p.raw.getLast? (rest ++ more) (ps ++ psm) := by
      refine ih (hsame.of_suffix (List.suffix_append _ _)) (fun q hq => hlast q ?_) ?_
      · rw [List.getLast?_cons, Option.mem_def.mp hq]
        rfl
      · have hlast : p.raw.getLast?.or prev = p.raw.getLast? := by
          rw [List.getLast?_eq_getLast_of_ne_nil htaken.raw_ne_nil, Option.some_or]
        rwa [List.getLast?_append, Option.or_assoc, hlast] at hmore
    have hended : p.isSpan = true → rest ≠ [] := by
      rintro hspan rfl
      cases hreads with
      | nil => exact absurd (hlast p rfl) (by simp [hspan])
      | cons hl => exact hl rfl
    rw [List.append_assoc, List.cons_append]
    exact (htaken.append hended hsame).reads hrest

/-- **A part is read the same up to its last piece, whatever follows.** -/
theorem reads_rewind (h : Reads nextPiece prev pre ps) (hlast : ps.getLast? = some p) :
    ∃ ps₀ prev', Taken prev' p [] ∧ ∀ more psm, SameFronts pre more →
      Reads nextPiece prev' (p.raw ++ more) psm →
      Reads nextPiece prev (pre ++ more) (ps₀ ++ psm) := by
  revert hlast
  refine pieces_induct h (M := fun prev pre ps => ps.getLast? = some p →
    ∃ ps₀ prev', Taken prev' p [] ∧ ∀ more psm, SameFronts pre more →
      Reads nextPiece prev' (p.raw ++ more) psm →
      Reads nextPiece prev (pre ++ more) (ps₀ ++ psm)) ?_ ?_
  · intro prev hlast
    cases hlast
  · intro prev q rest ps htaken hreads ih hlast
    cases hreads with
    | nil =>
      cases hlast
      exact ⟨[], prev, htaken, fun more psm _ hpsm => by simpa using hpsm⟩
    | @cons _ _ _ _ _ ps hrest _ _ =>
      rw [List.getLast?_cons_cons] at hlast
      obtain ⟨ps₀, prev', hp, hps₀⟩ := ih hlast
      refine ⟨q :: ps₀, prev', hp, fun more psm hsame hpsm => ?_⟩
      have hreads := hps₀ more psm (hsame.of_suffix (List.suffix_append _ _)) hpsm
      rw [List.append_assoc, List.cons_append]
      exact (htaken.append (fun _ => hrest) hsame).reads hreads

/-- An open Bearer span takes what does not end its token. -/
theorem Taken.extend_bearer (h : Taken prev (.bearer span) []) (hx : ∀ c ∈ x, endsToken c = false)
    (hxy : StopsAt (fun c => !isAsciiWhitespace c) (x ++ y)) (hy : StopsAt endsToken y) :
    Taken prev (.bearer (span ++ x)) y := by
  cases h with
  | @bearer word gap token _ parts =>
    have htoken : ∀ c ∈ token ++ x, endsToken c = false := fun c hc =>
      (List.mem_append.mp hc).elim (parts.token c) (hx c)
    have hgap : StopsAt (fun c => !isAsciiWhitespace c) ((token ++ x) ++ y) := by
      cases token with
      | nil => exact hxy
      | cons c token => simpa using parts.gap_ends
    have h' : Taken prev (.bearer (word ++ (gap ++ (token ++ x)))) y :=
      .bearer ⟨parts.word, parts.gap_ne, parts.gap, hgap, htoken, hy⟩
    simpa using h'

/-- An open key span takes what does not end its value. -/
theorem Taken.extend_secret (h : Taken prev (.secret key span) [])
    (hx : ∀ c ∈ x, endsValue c = false) (hy : StopsAt endsValue y) :
    Taken prev (.secret key (span ++ x)) y := by
  cases h with
  | @secret _ name value _ hprev parts =>
    have hvalue : ∀ c ∈ value ++ x, endsValue c = false := fun c hc =>
      (List.mem_append.mp hc).elim (parts.value c) (hx c)
    have h' : Taken prev (.secret key (name ++ (61 :: (value ++ x)))) y :=
      .secret hprev ⟨parts.mem, parts.name, hvalue, hy⟩
    simpa using h'

/-- A byte that is in neither pattern is plain. -/
theorem taken_plain (hc : isKeyByte c = false) (prev : Option UInt8) (rest : List UInt8) :
    Taken prev (.plain c) rest := by
  refine .plain ?_ ?_ <;> rw [front_cons_of_not_key hc]
  · rfl
  · rw [show opensSecret ([], some c) = false from rfl, Bool.and_false]

theorem reads_plain (hx : ∀ c ∈ x, isKeyByte c = false)
    (h : Reads nextPiece (x.getLast?.or prev) y ps) :
    Reads nextPiece prev (x ++ y) (x.map .plain ++ ps) := by
  induction x generalizing prev with
  | nil => exact h
  | cons c x ih =>
    obtain ⟨hc, hx⟩ := List.forall_mem_cons.mp hx
    have hlast : (c :: x).getLast?.or prev = x.getLast?.or (some c) := by
      rw [List.getLast?_cons]
      cases x.getLast? <;> rfl
    rw [hlast] at h
    exact (taken_plain hc prev (x ++ y)).reads (ih hx h)

/-- **What is left of a secret behind a span is copied**: the part ends in the piece `p`, which
goes on over `x`, and behind it come bytes that are in neither pattern. -/
theorem exists_leak {p' : Piece} (h : Reads nextPiece none pre ps) (hlast : ps.getLast? = some p)
    (hraw : p'.raw = p.raw ++ x) (hends : ∀ prev rest, Taken prev p [] → Taken prev p' (y ++ rest))
    (hy : ∀ c ∈ y, isKeyByte c = false) :
    ∃ out : List Char, ∀ d z, isKeyByte d = false → SameFronts pre (x ++ (y ++ (d :: z))) →
      ∃ ps' tail, Reads nextPiece none (pre ++ (x ++ (y ++ (d :: z)))) ps' ∧
        ps'.flatMap Piece.pushed = out ++ Char.ofNat d.toNat :: tail := by
  obtain ⟨ps₀, prev, hp, hps₀⟩ := reads_rewind h hlast
  refine ⟨ps₀.flatMap Piece.pushed ++ p'.pushed ++ (y.map Piece.plain).flatMap Piece.pushed,
    fun d z hd hsame => ?_⟩
  obtain ⟨psz, hz⟩ := exists_pieces (some d) z
  have hbehind : Reads nextPiece p'.raw.getLast? (y ++ (d :: z))
      (y.map .plain ++ (.plain d :: psz)) :=
    reads_plain hy ((taken_plain hd _ z).reads hz)
  have hspan : Reads nextPiece prev (p.raw ++ (x ++ (y ++ (d :: z))))
      (p' :: (y.map .plain ++ (.plain d :: psz))) := by
    rw [← List.append_assoc, ← hraw]
    exact (hends prev (d :: z) hp).reads hbehind
  refine ⟨_, psz.flatMap Piece.pushed, hps₀ _ _ hsame hspan, ?_⟩
  rw [List.flatMap_append, List.flatMap_cons, List.flatMap_append, List.flatMap_cons,
    List.append_assoc, List.append_assoc]
  rfl

/-- At a byte that is in neither pattern it does not matter what comes before. -/
theorem reads_of_prev (h : Reads nextPiece prev l ps)
    (hl : StopsAt (fun c => !isKeyByte c) l) : Reads nextPiece prev' l ps := by
  cases l with
  | nil =>
    cases h with
    | nil => exact .nil _
    | cons hl => exact absurd rfl hl
  | cons c l =>
    have hc : isKeyByte c = false := by simpa using hl
    obtain ⟨ps', hps'⟩ := exists_pieces (some c) l
    have hread : ∀ prev, Reads nextPiece prev (c :: l) (.plain c :: ps') := fun prev =>
      (taken_plain hc prev l).reads hps'
    rw [h.unique (hread prev)]
    exact hread prev'

end Following

/-! ### Hidden secrets -/

theorem utf8Bytes_append (a b : String) : utf8Bytes (a ++ b) = utf8Bytes a ++ utf8Bytes b := by
  simp [utf8Bytes]

/-- A secret key, in any letter case. -/
def IsSecretKey (key : String) : Prop :=
  ∃ k ∈ secretQueryKeys, (utf8Bytes key).map toAsciiLowercase = utf8Bytes k

/-- `Bearer` in any letter case. -/
def IsBearerWord (word : String) : Prop := (utf8Bytes word).map toAsciiLowercase = bearerWord

/-- One or more white space characters. -/
def IsGap (gap : String) : Prop :=
  gap ≠ "" ∧ ∀ c ∈ utf8Bytes gap, isAsciiWhitespace c = true

/-- The message with a value of the key in it. -/
def withValue (pre key suf value : String) : String := pre ++ key ++ "=" ++ value ++ suf

/-- The message with a token behind `Bearer` in it. -/
def withToken (pre word gap suf token : String) : String := pre ++ word ++ gap ++ token ++ suf

/-- A value: none of its characters ends it.  (These are ASCII, so they are bytes of their own.) -/
def IsValue (value : String) : Prop := ∀ c ∈ utf8Bytes value, endsValue c = false

/-- A token: not empty, without white space, quotes and commas. -/
def IsToken (token : String) : Prop :=
  token ≠ "" ∧ ∀ c ∈ utf8Bytes token, endsToken c = false

/-- The value of the key does not influence the redacted text. -/
def ValueHidden (pre key suf : String) : Prop :=
  ∀ v₁ v₂, IsValue v₁ → IsValue v₂ →
    redact (withValue pre key suf v₁) = redact (withValue pre key suf v₂)

/-- The token does not influence the redacted text. -/
def TokenHidden (pre word gap suf : String) : Prop :=
  ∀ t₁ t₂, IsToken t₁ → IsToken t₂ →
    redact (withToken pre word gap suf t₁) = redact (withToken pre word gap suf t₂)

/-- The text ends inside a Bearer span: `Bearer` and white space, and no end of the token. -/
def EndsInBearer (pre : String) : Prop :=
  ∃ ps span, Reads nextPiece none (utf8Bytes pre) ps ∧ ps.getLast? = some (.bearer span)

/-- The text ends inside the value of a key. -/
def EndsInValue (pre : String) : Prop :=
  ∃ ps key span, Reads nextPiece none (utf8Bytes pre) ps ∧ ps.getLast? = some (.secret key span)

section Hidden

variable {pre key suf word gap : String} {ps : List Piece}

theorem mentionsSecret_withValue (hkey : IsSecretKey key) (pre suf value : String) :
    mentionsSecret (withValue pre key suf value) = true := by
  obtain ⟨k, hk, hname⟩ := hkey
  rw [mentionsSecret, Bool.or_eq_true, List.any_eq_true]
  refine .inl ⟨k, hk, decide_eq_true ⟨(utf8Bytes pre).map toAsciiLowercase,
    (utf8Bytes value ++ utf8Bytes suf).map toAsciiLowercase, ?_⟩⟩
  have heq : (utf8Bytes "=").map toAsciiLowercase = [61] := by decide
  simp only [withValue, utf8Bytes_append, List.map_append, hname, heq, List.append_assoc]

theorem mentionsSecret_withToken (hword : IsBearerWord word)
    (pre gap suf token : String) : mentionsSecret (withToken pre word gap suf token) = true := by
  rw [mentionsSecret, Bool.or_eq_true]
  refine .inr (decide_eq_true ⟨(utf8Bytes pre).map toAsciiLowercase,
    (utf8Bytes gap ++ (utf8Bytes token ++ utf8Bytes suf)).map toAsciiLowercase, ?_⟩)
  rw [IsBearerWord] at hword
  simp only [withToken, utf8Bytes_append, List.map_append, hword, List.append_assoc]

theorem isKeyByte_secretKey (hkey : IsSecretKey key) : ∀ c ∈ utf8Bytes key, isKeyByte c = true := by
  obtain ⟨k, hk, hname⟩ := hkey
  exact isKeyByte_of_map_lower hname (isKeyLetter_of_mem_key k hk)

/-- Key bytes end neither a token nor a value. -/
theorem ends_eq_false_of_key {c : UInt8} (h : isKeyByte c = true) :
    endsToken c = false ∧ endsValue c = false := by
  constructor <;> by_contra hends <;> rw [Bool.not_eq_false] at hends
  · exact absurd (h.symm.trans (isKeyByte_eq_false_of_endsToken hends)) Bool.false_ne_true.symm
  · exact absurd (h.symm.trans (isKeyByte_eq_false_of_endsValue hends)) Bool.false_ne_true.symm

theorem not_ws_of_endsToken {c : UInt8} (h : endsToken c = false) :
    isAsciiWhitespace c = false := (Bool.or_eq_false_iff.mp h).1

theorem utf8Bytes_withValue (pre key suf value : String) :
    utf8Bytes (withValue pre key suf value) =
      utf8Bytes pre ++ (utf8Bytes key ++ (61 :: (utf8Bytes value ++ utf8Bytes suf))) := by
  have heq : utf8Bytes "=" = [61] := by decide
  simp only [withValue, utf8Bytes_append, heq, List.append_assoc, List.cons_append, List.nil_append]

/-- A key that the scanner gets to is read with its value. -/
theorem exists_reading_of_value (hkey : IsSecretKey key)
    (hprev : prevOk (utf8Bytes pre).getLast? = true)
    (hsame : ∀ more, SameFronts (utf8Bytes pre) more)
    (hreads : Reads nextPiece none (utf8Bytes pre) ps)
    (hlast : ∀ p ∈ ps.getLast?, p.isSpan = false) :
    ∃ out, ∀ v, IsValue v → ∃ ps', Reads nextPiece none (utf8Bytes (withValue pre key suf v)) ps' ∧
      ps'.flatMap Piece.pushed = out := by
  obtain ⟨k, hk, hname⟩ := hkey
  obtain ⟨suf₁, suf₂, hsuf, hsuf₁, hsuf₂⟩ := exists_split endsValue (utf8Bytes suf)
  obtain ⟨ps₂, hps₂⟩ := exists_pieces none suf₂
  refine ⟨ps.flatMap Piece.pushed ++ ((Piece.secret k []).pushed ++ ps₂.flatMap Piece.pushed),
    fun v hv => ?_⟩
  have hvalue : ∀ c ∈ utf8Bytes v ++ suf₁, endsValue c = false := fun c hc =>
    (List.mem_append.mp hc).elim (hv c) (hsuf₁ c)
  have hspan : Taken ((utf8Bytes pre).getLast?.or none)
      (.secret k (utf8Bytes key ++ (61 :: (utf8Bytes v ++ suf₁)))) suf₂ :=
    .secret (by rwa [Option.or_none]) ⟨hk, hname, hvalue, hsuf₂⟩
  have hmore := hspan.reads (reads_of_prev hps₂ (hsuf₂.mono fun c hc => by
    simp [isKeyByte_eq_false_of_endsValue hc]))
  have hbytes : utf8Bytes (withValue pre key suf v) = utf8Bytes pre ++
      ((utf8Bytes key ++ (61 :: (utf8Bytes v ++ suf₁))) ++ suf₂) := by
    simp [utf8Bytes_withValue, hsuf]
  rw [hbytes]
  refine ⟨_, reads_append hreads (hsame _) hlast hmore, ?_⟩
  rw [List.flatMap_append, List.flatMap_cons]
  rfl

/-- A key inside the value of another is read as part of that value. -/
theorem exists_reading_in_value {k : String} {span : List UInt8} (hkey : IsSecretKey key)
    (hsame : ∀ more, SameFronts (utf8Bytes pre) more)
    (hreads : Reads nextPiece none (utf8Bytes pre) ps)
    (hlast : ps.getLast? = some (.secret k span)) :
    ∃ out, ∀ v, IsValue v → ∃ ps', Reads nextPiece none (utf8Bytes (withValue pre key suf v)) ps' ∧
      ps'.flatMap Piece.pushed = out := by
  obtain ⟨suf₁, suf₂, hsuf, hsuf₁, hsuf₂⟩ := exists_split endsValue (utf8Bytes suf)
  obtain ⟨ps₂, hps₂⟩ := exists_pieces none suf₂
  obtain ⟨ps₀, prev, hp, hps₀⟩ := reads_rewind hreads hlast
  refine ⟨ps₀.flatMap Piece.pushed ++ ((Piece.secret k []).pushed ++ ps₂.flatMap Piece.pushed),
    fun v hv => ?_⟩
  have hx : ∀ c ∈ utf8Bytes key ++ (61 :: (utf8Bytes v ++ suf₁)), endsValue c = false := by
    intro c hc
    simp only [List.mem_append, List.mem_cons] at hc
    rcases hc with hc | rfl | hc | hc
    · exact (ends_eq_false_of_key (isKeyByte_secretKey hkey c hc)).2
    · decide
    · exact hv c hc
    · exact hsuf₁ c hc
  have hspan := hp.extend_secret hx hsuf₂
  have hmore := hspan.reads (reads_of_prev hps₂ (hsuf₂.mono fun c hc => by
    simp [isKeyByte_eq_false_of_endsValue hc]))
  rw [Piece.raw, List.append_assoc] at hmore
  have hbytes : utf8Bytes (withValue pre key suf v) = utf8Bytes pre ++
      ((utf8Bytes key ++ (61 :: (utf8Bytes v ++ suf₁))) ++ suf₂) := by
    simp [utf8Bytes_withValue, hsuf]
  rw [hbytes]
  refine ⟨_, hps₀ _ _ (hsame _) hmore, ?_⟩
  rw [List.flatMap_append, List.flatMap_cons]
  rfl

/-- Messages with secrets in them, redacted to what their pieces push. -/
theorem redact_eq_ofList {msg : String} (h : Reads nextPiece none (utf8Bytes msg) ps)
    (hmentions : mentionsSecret msg = true) :
    redact msg = String.ofList (ps.flatMap Piece.pushed) := by
  rw [redact_eq h, if_pos hmentions]

/-- **Two messages that differ in a byte behind an open span are redacted differently.** -/
theorem redact_ne_of_leak {m₁ m₂ : String} {p p' : Piece} {x y z : List UInt8}
    (h : Reads nextPiece none (utf8Bytes pre) ps) (hlast : ps.getLast? = some p)
    (hraw : p'.raw = p.raw ++ x) (hends : ∀ prev rest, Taken prev p [] → Taken prev p' (y ++ rest))
    (hy : ∀ c ∈ y, isKeyByte c = false)
    (hsame : ∀ l, SameFronts (utf8Bytes pre) (x ++ (y ++ l)))
    (hm₁ : utf8Bytes m₁ = utf8Bytes pre ++ (x ++ (y ++ (33 :: z))))
    (hm₂ : utf8Bytes m₂ = utf8Bytes pre ++ (x ++ (y ++ (35 :: z))))
    (hsecret₁ : mentionsSecret m₁ = true) (hsecret₂ : mentionsSecret m₂ = true) :
    redact m₁ ≠ redact m₂ := by
  obtain ⟨out, hout⟩ := exists_leak h hlast hraw hends hy
  obtain ⟨ps₁, tail₁, hps₁, hout₁⟩ := hout 33 z (by decide) (hsame _)
  obtain ⟨ps₂, tail₂, hps₂, hout₂⟩ := hout 35 z (by decide) (hsame _)
  rw [← hm₁] at hps₁
  rw [← hm₂] at hps₂
  rw [redact_eq_ofList hps₁ hsecret₁, redact_eq_ofList hps₂ hsecret₂, hout₁, hout₂]
  intro heq
  have htails := List.append_cancel_left (String.ofList_injective heq)
  exact absurd (List.cons.inj htails).1 (by decide)

/-- A value behind an open Bearer span: a carriage return in it ends the token. -/
theorem not_valueHidden (hkey : IsSecretKey key) (hsame : ∀ more, SameFronts (utf8Bytes pre) more)
    (hbearer : EndsInBearer pre) (suf : String) : ¬ ValueHidden pre key suf := by
  obtain ⟨ps, span, hreads, hlast⟩ := hbearer
  have hx : ∀ c ∈ utf8Bytes key ++ [61], endsToken c = false := by
    intro c hc
    rcases List.mem_append.mp hc with hc | hc
    · exact (ends_eq_false_of_key (isKeyByte_secretKey hkey c hc)).1
    · rw [List.mem_singleton.mp hc]
      decide
  have hends : ∀ prev rest, Taken prev (.bearer span) [] →
      Taken prev (.bearer (span ++ (utf8Bytes key ++ [61]))) ([13] ++ rest) := fun prev rest hp =>
    hp.extend_bearer hx (stopsAt_of_forall (fun c hc => by simp [not_ws_of_endsToken (hx c hc)])
      (by simp) _) (by simp [endsToken, isAsciiWhitespace])
  have hv₁ : utf8Bytes "\r!" = [13, 33] := by decide
  have hv₂ : utf8Bytes "\r#" = [13, 35] := by decide
  have hcr : ∀ c ∈ ([13] : List UInt8), isKeyByte c = false :=
    List.forall_mem_singleton.mpr (by decide)
  intro hhidden
  refine redact_ne_of_leak hreads hlast rfl hends hcr (fun l => hsame _) (z := utf8Bytes suf)
    ?_ ?_ (mentionsSecret_withValue hkey _ _ _) (mentionsSecret_withValue hkey _ _ _)
    (hhidden "\r!" "\r#" ?_ ?_)
  · simp [utf8Bytes_withValue, hv₁]
  · simp [utf8Bytes_withValue, hv₂]
  · simp [IsValue, hv₁, endsValue]
  · simp [IsValue, hv₂, endsValue]

theorem utf8Bytes_ne_nil {s : String} (h : s ≠ "") : utf8Bytes s ≠ [] := fun hs =>
  h (utf8Bytes_injective (hs.trans (by decide : utf8Bytes "" = []).symm))

theorem utf8Bytes_withToken (pre word gap suf token : String) :
    utf8Bytes (withToken pre word gap suf token) =
      utf8Bytes pre ++ (utf8Bytes word ++ (utf8Bytes gap ++ (utf8Bytes token ++ utf8Bytes suf))) := by
  simp only [withToken, utf8Bytes_append, List.append_assoc]

/-- `Bearer` completes no pattern that begins before it. -/
theorem sameFronts_withToken (hword : IsBearerWord word) (hgap : IsGap gap)
    (pre l : List UInt8) : SameFronts pre (utf8Bytes word ++ (utf8Bytes gap ++ l)) := by
  obtain ⟨g, hg, hfront⟩ := front_bearer hword (utf8Bytes_ne_nil hgap.1) hgap.2 l
  exact sameFronts_bearer pre hg hfront

/-- A token that the scanner gets to is read with its `Bearer`. -/
theorem exists_reading_of_token (hword : IsBearerWord word) (hgap : IsGap gap)
    (hreads : Reads nextPiece none (utf8Bytes pre) ps)
    (hlast : ∀ p ∈ ps.getLast?, p.isSpan = false) :
    ∃ out, ∀ t, IsToken t →
      ∃ ps', Reads nextPiece none (utf8Bytes (withToken pre word gap suf t)) ps' ∧
        ps'.flatMap Piece.pushed = out := by
  obtain ⟨suf₁, suf₂, hsuf, hsuf₁, hsuf₂⟩ := exists_split endsToken (utf8Bytes suf)
  obtain ⟨ps₂, hps₂⟩ := exists_pieces none suf₂
  refine ⟨ps.flatMap Piece.pushed ++ ((Piece.bearer []).pushed ++ ps₂.flatMap Piece.pushed),
    fun t ht => ?_⟩
  have htoken : ∀ c ∈ utf8Bytes t ++ suf₁, endsToken c = false := fun c hc =>
    (List.mem_append.mp hc).elim (ht.2 c) (hsuf₁ c)
  have hgapEnds : StopsAt (fun c => !isAsciiWhitespace c) ((utf8Bytes t ++ suf₁) ++ suf₂) :=
    stopsAt_of_forall (fun c hc => by simp [not_ws_of_endsToken (htoken c hc)])
      (by simp [utf8Bytes_ne_nil ht.1]) _
  have hspan : Taken ((utf8Bytes pre).getLast?.or none)
      (.bearer (utf8Bytes word ++ (utf8Bytes gap ++ (utf8Bytes t ++ suf₁)))) suf₂ :=
    .bearer ⟨hword, utf8Bytes_ne_nil hgap.1, hgap.2, hgapEnds, htoken, hsuf₂⟩
  have hmore := hspan.reads (reads_of_prev hps₂ (hsuf₂.mono fun c hc => by
    simp [isKeyByte_eq_false_of_endsToken hc]))
  have hbytes : utf8Bytes (withToken pre word gap suf t) = utf8Bytes pre ++
      ((utf8Bytes word ++ (utf8Bytes gap ++ (utf8Bytes t ++ suf₁))) ++ suf₂) := by
    simp [utf8Bytes_withToken, hsuf]
  have hsame : SameFronts (utf8Bytes pre)
      ((utf8Bytes word ++ (utf8Bytes gap ++ (utf8Bytes t ++ suf₁))) ++ suf₂) := by
    rw [List.append_assoc, List.append_assoc]
    exact sameFronts_withToken hword hgap _ _
  rw [hbytes]
  refine ⟨_, reads_append hreads hsame hlast hmore, ?_⟩
  rw [List.flatMap_append, List.flatMap_cons]
  rfl

/-- A token is logged when the span before it ends in the white space, at the latest at a `&` that
the token begins with. -/
theorem not_tokenHidden_of_ends {p p' : Piece} {gap₁ gap₂ : List UInt8} (hword : IsBearerWord word)
    (hgap : IsGap gap) (hreads : Reads nextPiece none (utf8Bytes pre) ps)
    (hlast : ps.getLast? = some p) (hsplit : utf8Bytes gap = gap₁ ++ gap₂)
    (hraw : p'.raw = p.raw ++ (utf8Bytes word ++ gap₁))
    (hends : ∀ prev rest, Taken prev p [] → Taken prev p' ((gap₂ ++ [38]) ++ rest)) (suf : String) :
    ¬ TokenHidden pre word gap suf := by
  have hv₁ : utf8Bytes "&!" = [38, 33] := by decide
  have hv₂ : utf8Bytes "&#" = [38, 35] := by decide
  have htoken₁ : IsToken "&!" := ⟨by decide, by simp [hv₁, endsToken, isAsciiWhitespace]⟩
  have htoken₂ : IsToken "&#" := ⟨by decide, by simp [hv₂, endsToken, isAsciiWhitespace]⟩
  intro hhidden
  refine redact_ne_of_leak hreads hlast hraw hends ?_ ?_ (z := utf8Bytes suf) ?_ ?_
    (mentionsSecret_withToken hword _ _ _ _) (mentionsSecret_withToken hword _ _ _ _)
    (hhidden _ _ htoken₁ htoken₂)
  · intro c hc
    rcases List.mem_append.mp hc with hc | hc
    · exact isKeyByte_eq_false_of_ws (hgap.2 c (hsplit ▸ List.mem_append_right _ hc))
    · rw [List.mem_singleton.mp hc]
      decide
  · intro l
    have hmore : (utf8Bytes word ++ gap₁) ++ ((gap₂ ++ [38]) ++ l) =
        utf8Bytes word ++ (utf8Bytes gap ++ (38 :: l)) := by simp [hsplit]
    rw [hmore]
    exact sameFronts_withToken hword hgap _ _
  · simp [utf8Bytes_withToken, hsplit, hv₁]
  · simp [utf8Bytes_withToken, hsplit, hv₂]

/-- A token behind an open span: the white space before it ends a Bearer token, and it may itself
contain what ends a value. -/
theorem not_tokenHidden (hword : IsBearerWord word) (hgap : IsGap gap)
    (hopen : EndsInBearer pre ∨ EndsInValue pre) (suf : String) :
    ¬ TokenHidden pre word gap suf := by
  have hkey : ∀ c ∈ utf8Bytes word, endsToken c = false ∧ endsValue c = false := fun c hc =>
    ends_eq_false_of_key (isKeyByte_of_map_lower hword isKeyLetter_of_mem_bearerWord c hc)
  have hwordNe : utf8Bytes word ≠ [] := by
    intro h
    rw [IsBearerWord, h] at hword
    exact absurd hword (by decide)
  rcases hopen with ⟨ps, span, hreads, hlast⟩ | ⟨ps, key, span, hreads, hlast⟩
  · have hraw : (Piece.bearer (span ++ utf8Bytes word)).raw =
        (Piece.bearer span).raw ++ (utf8Bytes word ++ []) := by rw [List.append_nil]; rfl
    refine not_tokenHidden_of_ends hword hgap hreads hlast (List.nil_append _).symm hraw ?_ suf
    intro prev rest hp
    refine hp.extend_bearer (fun c hc => (hkey c hc).1) (stopsAt_of_forall
      (fun c hc => by simp [not_ws_of_endsToken (hkey c hc).1]) hwordNe _) ?_
    rw [List.append_assoc]
    exact stopsAt_of_forall (fun c hc => by simp [endsToken, hgap.2 c hc])
      (utf8Bytes_ne_nil hgap.1) _
  · -- of the white space only a part may end the value
    obtain ⟨gap₁, gap₂, hsplit, hgap₁, hgap₂⟩ := exists_split endsValue (utf8Bytes gap)
    have hraw : (Piece.secret key (span ++ (utf8Bytes word ++ gap₁))).raw =
        (Piece.secret key span).raw ++ (utf8Bytes word ++ gap₁) := rfl
    refine not_tokenHidden_of_ends hword hgap hreads hlast hsplit hraw ?_ suf
    intro prev rest hp
    refine hp.extend_secret (fun c hc => ?_) ?_
    · exact (List.mem_append.mp hc).elim (fun hc => (hkey c hc).2) (hgap₁ c)
    · cases gap₂ with
      | nil => simp [endsValue]
      | cons g gap₂ => simpa using hgap₂

/-- **When a secret does not influence the redacted text.**  A value, exactly when the message
before the key does not end inside a Bearer span; a Bearer token, exactly when it does not end
inside any span. -/
theorem secrets_hidden_iff (pre suf : String) :
    (∀ key, IsSecretKey key → prevOk (utf8Bytes pre).getLast? = true →
      (ValueHidden pre key suf ↔ ¬ EndsInBearer pre)) ∧
    (∀ word gap, IsBearerWord word → IsGap gap →
      (TokenHidden pre word gap suf ↔ ¬ EndsInBearer pre ∧ ¬ EndsInValue pre)) := by
  constructor
  · intro key hkey hprev
    have hsame : ∀ more, SameFronts (utf8Bytes pre) more := sameFronts_of_last fun c hc =>
      isKeyByte_eq_false_of_prevOk (by rwa [Option.mem_def.mp hc] at hprev)
    refine ⟨fun hhidden hbearer => not_valueHidden hkey hsame hbearer suf hhidden, ?_⟩
    intro hbearer v₁ v₂ hv₁ hv₂
    obtain ⟨ps, hps⟩ := exists_pieces none (utf8Bytes pre)
    obtain ⟨out, hout⟩ : ∃ out, ∀ v, IsValue v →
        ∃ ps', Reads nextPiece none (utf8Bytes (withValue pre key suf v)) ps' ∧
          ps'.flatMap Piece.pushed = out := by
      cases hlast : ps.getLast? with
      | none => exact exists_reading_of_value hkey hprev hsame hps (by simp [hlast])
      | some p =>
        cases p with
        | plain c => exact exists_reading_of_value hkey hprev hsame hps (by simp [hlast, Piece.isSpan])
        | bearer span => exact absurd ⟨ps, span, hps, hlast⟩ hbearer
        | secret k span => exact exists_reading_in_value hkey hsame hps hlast
    obtain ⟨ps₁, hps₁, hout₁⟩ := hout v₁ hv₁
    obtain ⟨ps₂, hps₂, hout₂⟩ := hout v₂ hv₂
    rw [redact_eq_ofList hps₁ (mentionsSecret_withValue hkey _ _ _),
      redact_eq_ofList hps₂ (mentionsSecret_withValue hkey _ _ _), hout₁, hout₂]
  · intro word gap hword hgap
    constructor
    · intro hhidden
      exact not_or.mp fun hopen => not_tokenHidden hword hgap hopen suf hhidden
    · rintro ⟨hbearer, hvalue⟩ t₁ t₂ ht₁ ht₂
      obtain ⟨ps, hps⟩ := exists_pieces none (utf8Bytes pre)
      have hlast : ∀ p ∈ ps.getLast?, p.isSpan = false := by
        intro p hp
        cases p with
        | plain c => rfl
        | bearer span => exact absurd ⟨ps, span, hps, hp⟩ hbearer
        | secret k span => exact absurd ⟨ps, k, span, hps, hp⟩ hvalue
      obtain ⟨out, hout⟩ := exists_reading_of_token hword hgap hps hlast
      obtain ⟨ps₁, hps₁, hout₁⟩ := hout t₁ ht₁
      obtain ⟨ps₂, hps₂, hout₂⟩ := hout t₂ ht₂
      rw [redact_eq_ofList hps₁ (mentionsSecret_withToken hword _ _ _ _),
        redact_eq_ofList hps₂ (mentionsSecret_withToken hword _ _ _ _), hout₁, hout₂]

/-- A text whose reading does not end in a span. -/
theorem not_endsIn_of_reads (h : Reads nextPiece none (utf8Bytes pre) ps)
    (hlast : ∀ p ∈ ps.getLast?, p.isSpan = false) : ¬ EndsInBearer pre ∧ ¬ EndsInValue pre := by
  constructor
  · rintro ⟨ps', span, hps', hspan⟩
    rw [h.unique hps'] at hlast
    exact absurd (hlast _ hspan) (by simp [Piece.isSpan])
  · rintro ⟨ps', key, span, hps', hspan⟩
    rw [h.unique hps'] at hlast
    exact absurd (hlast _ hspan) (by simp [Piece.isSpan])

end Hidden

theorem isSecretKey_sig : IsSecretKey "Sig" := ⟨"sig", by decide, by decide⟩

theorem isBearerWord_bearer : IsBearerWord "Bearer" := by
  rw [IsBearerWord]
  decide

theorem isGap_space : IsGap " " :=
  ⟨by decide, List.all_eq_true.mp (by decide)⟩

/-- A signature in a URL and a token in a header are hidden. -/
theorem url_and_header_are_hidden :
    IsSecretKey "Sig" ∧ prevOk (utf8Bytes "https://a/c?se=1&").getLast? = true ∧
      ValueHidden "https://a/c?se=1&" "Sig" "&sv=2" ∧
      IsBearerWord "Bearer" ∧ IsGap " " ∧ TokenHidden "auth: " "Bearer" " " " more" := by
  have hurl : Reads nextPiece none (utf8Bytes "https://a/c?se=1&")
      ((utf8Bytes "https://a/c?se=1&").map .plain) :=
    reads_of_scan (show scan nextPiece 20 none _ = _ by decide)
  have hheader : Reads nextPiece none (utf8Bytes "auth: ") ((utf8Bytes "auth: ").map .plain) :=
    reads_of_scan (show scan nextPiece 20 none _ = _ by decide)
  have hprev : prevOk (utf8Bytes "https://a/c?se=1&").getLast? = true := by decide
  have hplain : ∀ l : List UInt8, ∀ p ∈ (l.map Piece.plain).getLast?, p.isSpan = false := by
    intro l p hp
    obtain ⟨c, -, rfl⟩ := List.mem_map.mp (List.mem_of_getLast? hp)
    rfl
  exact ⟨isSecretKey_sig, hprev,
    ((secrets_hidden_iff _ _).1 _ isSecretKey_sig hprev).mpr (not_endsIn_of_reads hurl (hplain _)).1,
    isBearerWord_bearer, isGap_space,
    ((secrets_hidden_iff _ _).2 _ _ isBearerWord_bearer isGap_space).mpr
      (not_endsIn_of_reads hheader (hplain _))⟩

/-- A bearer token as the value of `access_token` is logged, and so is what follows a carriage
return in the value of a key that stands in a Bearer token. -/
theorem token_in_value_is_logged :
    redact (withToken "?access_token=" "Bearer" " " "" "eyJ1") = "?access_token=REDACTED eyJ1" ∧
      ¬ TokenHidden "?access_token=" "Bearer" " " "" ∧ ¬ ValueHidden "Bearer a&" "Sig" "" := by
  have hends : ((utf8Bytes "1" ++ utf8Bytes "2").all fun c => endsToken c == false) = true ∧
      ((utf8Bytes "\r1" ++ utf8Bytes "\r2").all fun c => endsValue c == false) = true := by
    decide
  simp only [List.all_eq_true, beq_iff_eq, List.forall_mem_append] at hends
  refine ⟨by decide, fun h => ?_, fun h => ?_⟩
  · exact absurd (h "1" "2" ⟨by decide, hends.1.1⟩ ⟨by decide, hends.1.2⟩) (by decide)
  · exact absurd (h "\r1" "\r2" hends.2.1 hends.2.2) (by decide)

end ParquetAzureFdw
