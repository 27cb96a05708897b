/-
# What redaction leaves alone

The redacted text should be the message with its spans replaced, and redacting it again should
change nothing.  In ASCII both hold.  The second reading finds the same pieces: in a pattern's
letters the text is unchanged up to case, and the bytes that end a span are kept
(`reads_redacted`).

A byte outside ASCII is pushed as the character of its number, which takes two bytes: each
character outside ASCII, of any length, comes out as several others.
-/

import ParquetAzureFdw.Redact.Secrets

namespace ParquetAzureFdw

open Scanning

/-! ### UTF-8 -/

theorem utf8Bytes_ofList (l : List Char) :
    utf8Bytes (String.ofList l) = l.flatMap String.utf8EncodeChar := by
  simp [utf8Bytes, List.utf8Encode]

/-- The encoding of the character that a byte is pushed as. -/
theorem utf8EncodeChar_byte (c : UInt8) :
    (c.toNat < 128 → String.utf8EncodeChar (Char.ofNat c.toNat) = [c]) ∧
      (¬ c.toNat < 128 → (String.utf8EncodeChar (Char.ofNat c.toNat)).length = 2) := by
  have h : ((List.range 256).all fun n =>
      if n < 128 then String.utf8EncodeChar (Char.ofNat n) == [UInt8.ofNat n]
      else (String.utf8EncodeChar (Char.ofNat n)).length == 2) = true := by
    decide +kernel
  have hc := List.all_eq_true.mp h c.toNat (List.mem_range.mpr c.toNat_lt)
  constructor
  · intro hlt
    rw [if_pos hlt, beq_iff_eq] at hc
    simpa using hc
  · intro hlt
    simpa [hlt] using hc

/-! ### Redacting again -/

/-- The bytes that should stand for a piece. -/
def Piece.redacted : Piece → List UInt8
  | .plain c => [c]
  | .bearer _ => utf8Bytes "Bearer" ++ ([32] ++ utf8Bytes "REDACTED")
  | .secret key _ => utf8Bytes key ++ (61 :: utf8Bytes "REDACTED")

/-- The piece that is found where it stands. -/
def Piece.again : Piece → Piece
  | .plain c => .plain c
  | .bearer span => .bearer (Piece.bearer span).redacted
  | .secret key span => .secret key (Piece.secret key span).redacted

section Again

variable {prev prev' : Option UInt8} {bytes rest : List UInt8} {p : Piece} {ps : List Piece}

theorem Piece.raw_again (p : Piece) : p.again.raw = p.redacted := by cases p <;> rfl

theorem Piece.pushed_again (p : Piece) : p.again.pushed = p.pushed := by cases p <;> rfl

/-- A span begins with a key byte. -/
theorem Taken.not_stops (h : Taken prev p rest) (hspan : p.isSpan = true) :
    ¬ StopsAt (fun c => !isKeyByte c) (p.raw ++ rest) := by
  have hhead : ∀ {w l word : List UInt8}, w.map toAsciiLowercase = word → word ≠ [] →
      (∀ c ∈ word, isKeyLetter c = true) → ¬ StopsAt (fun c => !isKeyByte c) (w ++ l) := by
    intro w l word hw hne hword
    obtain ⟨c, w, rfl⟩ : ∃ c w', w = c :: w' := List.exists_cons_of_ne_nil fun h => hne (by
      rw [← hw, h]
      rfl)
    have hc := isKeyByte_of_map_lower hw hword c List.mem_cons_self
    simp [hc]
  cases h with
  | @bearer word gap token _ parts =>
    rw [Piece.raw, List.append_assoc]
    exact hhead parts.word (by decide) isKeyLetter_of_mem_bearerWord
  | @secret key name value _ hprev parts =>
    rw [Piece.raw, List.append_assoc]
    exact hhead parts.name (key_ne_nil key parts.mem) (isKeyLetter_of_mem_key key parts.mem)
  | plain _ _ => cases hspan

/-- What ends a span is kept. -/
theorem stopsAt_redacted {q : UInt8 → Bool} (h : Reads nextPiece prev rest ps)
    (hrest : StopsAt q rest) (hq : ∀ c, q c = true → isKeyByte c = false) :
    StopsAt q (ps.flatMap Piece.redacted) := by
  revert hrest
  refine pieces_induct h (M := fun _ rest ps => StopsAt q rest →
    StopsAt q (ps.flatMap Piece.redacted)) (fun _ _ => by simp) ?_
  intro prev p rest ps htaken _ _ hrest
  cases p with
  | plain c => simpa [Piece.raw, Piece.redacted] using hrest
  | bearer span =>
    exact absurd (hrest.mono fun c hc => by simp [hq c hc]) (htaken.not_stops rfl)
  | secret key span =>
    exact absurd (hrest.mono fun c hc => by simp [hq c hc]) (htaken.not_stops rfl)

theorem bearerParts_again (h : StopsAt endsToken rest) :
    BearerParts (utf8Bytes "Bearer") [32] (utf8Bytes "REDACTED") rest where
  word := by decide
  gap_ne := List.cons_ne_nil _ _
  gap := by simp [isAsciiWhitespace]
  gap_ends := stopsAt_of_forall (List.all_eq_true.mp (by decide)) (by decide) rest
  token := by
    have h : ((utf8Bytes "REDACTED").all fun c => endsToken c == false) = true := by decide
    simpa only [List.all_eq_true, beq_iff_eq] using h
  rest := h

theorem secretParts_again {key : String} (hkey : key ∈ secretQueryKeys)
    (h : StopsAt endsValue rest) :
    SecretParts key (utf8Bytes key) (utf8Bytes "REDACTED") rest where
  mem := hkey
  name := map_lower_key key hkey
  value := by
    have h : ((utf8Bytes "REDACTED").all fun c => endsValue c == false) = true := by decide
    simpa only [List.all_eq_true, beq_iff_eq] using h
  rest := h

/-- Two fronts that begin the same spans. -/
def FrontsAgree (f f' : List UInt8 × Option UInt8) : Prop :=
  f.1 = f'.1 ∧ (f.2 = f'.2 ∨ f.2.any isAsciiWhitespace = true ∧ f'.2.any isAsciiWhitespace = true)

theorem FrontsAgree.opens {f f' : List UInt8 × Option UInt8} (h : FrontsAgree f f') :
    opensBearer f = opensBearer f' ∧ opensSecret f = opensSecret f' := by
  obtain ⟨w, stop⟩ := f
  obtain ⟨w', stop'⟩ := f'
  obtain ⟨hw, hstop⟩ := h
  simp only at hw hstop
  subst hw
  rcases hstop with rfl | ⟨hstop, hstop'⟩
  · exact ⟨rfl, rfl⟩
  · have hnot : ∀ {s : Option UInt8}, s.any isAsciiWhitespace = true → (s == some 61) = false := by
      rintro s hs
      obtain ⟨g, rfl, hg⟩ := (Option.any_eq_true _ _).mp hs
      rw [beq_eq_false_iff_ne]
      rintro h
      cases h
      exact absurd hg (by decide)
    simp only [opensBearer, opensSecret, hstop, hstop', hnot hstop, hnot hstop', Bool.and_true,
      Bool.and_false, and_self]

/-- **Redaction keeps the fronts.** -/
theorem frontsAgree_redacted (h : Reads nextPiece prev bytes ps) :
    FrontsAgree (front (ps.flatMap Piece.redacted)) (front bytes) := by
  refine pieces_induct h (M := fun _ bytes ps => FrontsAgree (front (ps.flatMap Piece.redacted))
    (front bytes)) (fun _ => ⟨rfl, .inl rfl⟩) ?_
  intro prev p rest ps htaken hreads ih
  rw [List.flatMap_cons]
  cases htaken with
  | @bearer word gap token _ parts =>
    have hrest := stopsAt_redacted hreads parts.rest fun _ => isKeyByte_eq_false_of_endsToken
    obtain ⟨g, hg, hfront⟩ := front_bearer parts.word parts.gap_ne parts.gap (token ++ rest)
    obtain ⟨g', hg', hfront'⟩ := front_bearer (bearerParts_again hrest).word
      (bearerParts_again hrest).gap_ne (bearerParts_again hrest).gap
      (utf8Bytes "REDACTED" ++ ps.flatMap Piece.redacted)
    simp only [Piece.redacted, Piece.raw, List.append_assoc, hfront, hfront']
    exact ⟨rfl, .inr ⟨hg', hg⟩⟩
  | @secret key name value _ hprev parts =>
    have hrest := stopsAt_redacted hreads parts.rest fun _ => isKeyByte_eq_false_of_endsValue
    have hagain := (secretParts_again parts.mem hrest).front_eq
    simp only [Piece.redacted, Piece.raw, List.append_assoc, List.cons_append, parts.front_eq,
      hagain]
    exact ⟨rfl, .inl rfl⟩
  | @plain c _ hbearer hsecret =>
    simp only [Piece.redacted, Piece.raw, List.cons_append, List.nil_append]
    cases hc : isKeyByte c with
    | true =>
      rw [front_cons_of_key hc, front_cons_of_key hc]
      exact ⟨congrArg (toAsciiLowercase c :: ·) ih.1, ih.2⟩
    | false =>
      rw [front_cons_of_not_key hc, front_cons_of_not_key hc]
      exact ⟨rfl, .inl rfl⟩

/-- **The redacted text is read as the same pieces.** -/
theorem reads_redacted (h : Reads nextPiece prev bytes ps) :
    Reads nextPiece prev (ps.flatMap Piece.redacted) (ps.map Piece.again) := by
  -- behind a span `prev` is not the same, but there it does not matter
  suffices hgeneral : ∀ prev', prev' = prev ∨ StopsAt (fun c => !isKeyByte c) bytes →
      Reads nextPiece prev' (ps.flatMap Piece.redacted) (ps.map Piece.again) from
    hgeneral prev (.inl rfl)
  refine pieces_induct h (M := fun prev bytes ps => ∀ prev',
    prev' = prev ∨ StopsAt (fun c => !isKeyByte c) bytes →
    Reads nextPiece prev' (ps.flatMap Piece.redacted) (ps.map Piece.again))
    (fun _ prev' _ => .nil prev') ?_
  intro prev p rest ps htaken hreads ih prev' hprev'
  rw [List.flatMap_cons, List.map_cons, ← Piece.raw_again]
  have hagree := frontsAgree_redacted (htaken.reads hreads)
  have hspan := htaken.not_stops
  cases htaken with
  | @bearer word gap token _ parts =>
    have hrest := stopsAt_redacted hreads parts.rest fun _ => isKeyByte_eq_false_of_endsToken
    have hnot := parts.rest.mono fun c hc => show (!isKeyByte c) = true by
      simp [isKeyByte_eq_false_of_endsToken hc]
    have htaken : Taken prev' (Piece.again (.bearer (word ++ (gap ++ token))))
        (ps.flatMap Piece.redacted) := .bearer (bearerParts_again hrest)
    exact htaken.reads (ih _ (.inr hnot))
  | @secret key name value _ hprev parts =>
    have hrest := stopsAt_redacted hreads parts.rest fun _ => isKeyByte_eq_false_of_endsValue
    have hnot := parts.rest.mono fun c hc => show (!isKeyByte c) = true by
      simp [isKeyByte_eq_false_of_endsValue hc]
    obtain rfl : prev' = prev := hprev'.resolve_right (hspan rfl)
    have htaken : Taken prev' (Piece.again (.secret key (name ++ (61 :: value))))
        (ps.flatMap Piece.redacted) := .secret hprev (secretParts_again parts.mem hrest)
    exact htaken.reads (ih _ (.inr hnot))
  | @plain c _ hbearer hsecret =>
    have htaken : Taken prev' (.plain c) (ps.flatMap Piece.redacted) := by
      rcases hprev' with rfl | hstops
      · obtain ⟨hb, hs⟩ := hagree.opens
        exact .plain (hb.trans hbearer) (by rw [← hsecret]; exact congrArg _ hs)
      · exact taken_plain (by simpa [Piece.raw] using hstops) _ _
    exact htaken.reads (ih _ (.inl rfl))

end Again

/-! ### Exactness -/

/-- The bytes of what is pushed for a piece. -/
def Piece.logged (p : Piece) : List UInt8 := p.pushed.flatMap String.utf8EncodeChar

/-- The pieces that are copied are ASCII. -/
def Piece.IsAscii : Piece → Prop
  | .plain c => c.toNat < 128
  | .bearer _ => True
  | .secret _ _ => True

section Exact

variable {prev : Option UInt8} {bytes : List UInt8} {p : Piece} {ps : List Piece} {msg : String}

theorem Piece.logged_plain (c : UInt8) :
    (Piece.plain c).logged = String.utf8EncodeChar (Char.ofNat c.toNat) := by
  rw [logged, pushed_plain, List.flatMap_cons, List.flatMap_nil, List.append_nil]

theorem Piece.logged_eq (p : Piece) (h : p.IsAscii) : p.logged = p.redacted := by
  cases p with
  | plain c => rw [logged_plain, (utf8EncodeChar_byte c).1 h, redacted]
  | bearer span =>
    have hword : "Bearer REDACTED".toList.flatMap String.utf8EncodeChar =
        utf8Bytes "Bearer" ++ ([32] ++ utf8Bytes "REDACTED") := by decide
    rw [logged, pushed_bearer, hword, redacted]
  | secret key span =>
    have hvalue : "=REDACTED".toList.flatMap String.utf8EncodeChar =
        61 :: utf8Bytes "REDACTED" := by decide
    rw [logged, pushed_secret, List.flatMap_append, hvalue, ← utf8Bytes_ofList,
      String.ofList_toList, redacted]

theorem Piece.length_logged (p : Piece) :
    p.redacted.length ≤ p.logged.length ∧ (p.logged.length = p.redacted.length → p.IsAscii) := by
  by_cases h : p.IsAscii
  · rw [p.logged_eq h]
    exact ⟨le_rfl, fun _ => h⟩
  · cases p with
    | plain c =>
      rw [logged_plain, (utf8EncodeChar_byte c).2 h, redacted, List.length_singleton]
      exact ⟨by decide, fun h => absurd h (by decide)⟩
    | bearer span => exact absurd trivial h
    | secret key span => exact absurd trivial h

/-- **The pieces are logged as they should be exactly when those that are copied are ASCII.** -/
theorem flatMap_logged_eq_iff : ps.flatMap Piece.logged = ps.flatMap Piece.redacted ↔
    ∀ p ∈ ps, p.IsAscii := by
  constructor
  · intro h
    -- no piece is logged shorter than it should be, so none is longer
    have hlength := congrArg List.length h
    rw [List.length_flatMap, List.length_flatMap] at hlength
    have hle : ∀ p ∈ ps, p.redacted.length ≤ p.logged.length := fun p _ => p.length_logged.1
    intro p hp
    by_contra hascii
    have hlt : p.redacted.length < p.logged.length :=
      lt_of_le_of_ne p.length_logged.1 fun heq => hascii (p.length_logged.2 heq.symm)
    exact absurd hlength (List.sum_lt_sum _ _ hle ⟨p, hp, hlt⟩).ne'
  · intro h
    exact List.flatMap_congr fun p hp => p.logged_eq (h p hp)

theorem Taken.of_mem (h : Reads nextPiece prev bytes ps) (hp : p ∈ ps) :
    ∃ prev rest, Taken prev p rest := by
  revert hp
  refine pieces_induct h (M := fun _ _ ps => p ∈ ps → ∃ prev rest, Taken prev p rest)
    (fun _ hp => by cases hp) ?_
  intro prev q rest ps htaken _ ih hp
  rcases List.mem_cons.mp hp with rfl | hp
  · exact ⟨prev, rest, htaken⟩
  · exact ih hp

/-- A message with a span in it mentions a secret: the fast path is taken only by messages
without one. -/
theorem mentionsSecret_of_span (h : Reads nextPiece none (utf8Bytes msg) ps) (hp : p ∈ ps)
    (hspan : p.isSpan = true) : mentionsSecret msg = true := by
  have hraw : p.raw.map toAsciiLowercase <:+: (utf8Bytes msg).map toAsciiLowercase := by
    obtain ⟨a, b, rfl⟩ := List.append_of_mem hp
    rw [← flatMap_raw h, List.flatMap_append, List.flatMap_cons, ← List.append_assoc]
    exact List.IsInfix.map _ ⟨_, _, rfl⟩
  obtain ⟨prev, rest, htaken⟩ := Taken.of_mem h hp
  rw [mentionsSecret, Bool.or_eq_true, List.any_eq_true]
  cases htaken with
  | @bearer word gap token _ parts =>
    refine .inr (decide_eq_true (List.IsInfix.trans ?_ hraw))
    rw [Piece.raw, List.map_append, parts.word]
    exact (List.prefix_append _ _).isInfix
  | @secret key name value _ hprev parts =>
    refine .inl ⟨key, parts.mem, decide_eq_true (List.IsInfix.trans ?_ hraw)⟩
    refine List.IsPrefix.isInfix ⟨value.map toAsciiLowercase, ?_⟩
    simp only [Piece.raw, List.map_append, parts.name, List.map_cons, List.append_assoc,
      List.cons_append, List.nil_append]
    rfl
  | plain _ _ => cases hspan

/-- The redacted text is the message with its spans replaced and every other byte copied. -/
def OnlySecretsReplaced (msg : String) : Prop :=
  ∀ ps, Reads nextPiece none (utf8Bytes msg) ps →
    utf8Bytes (redact msg) = ps.flatMap Piece.redacted

/-- **When redaction touches only secrets and is idempotent**: exactly when nothing is mentioned
that looks like a secret, or all that is copied is ASCII. -/
theorem redact_exact_iff (msg : String) :
    OnlySecretsReplaced msg ∧ redact (redact msg) = redact msg ↔
      mentionsSecret msg = false ∨
        ∀ ps, Reads nextPiece none (utf8Bytes msg) ps → ∀ p ∈ ps, p.IsAscii := by
  obtain ⟨ps, hps⟩ := exists_pieces none (utf8Bytes msg)
  have hunique : ∀ {ps'}, Reads nextPiece none (utf8Bytes msg) ps' → ps' = ps := fun h =>
    h.unique hps
  cases hmentions : mentionsSecret msg with
  | false =>
    have hsame : redact msg = msg := by rw [redact_eq hps, hmentions]; rfl
    refine ⟨fun _ => .inl rfl, fun _ => ⟨fun ps' hps' => ?_, by rw [hsame, hsame]⟩⟩
    have hplain : ∀ p ∈ ps, p.raw = p.redacted := by
      intro p hp
      cases p with
      | plain c => rfl
      | bearer span => exact absurd (mentionsSecret_of_span hps hp rfl) (by simp [hmentions])
      | secret key span => exact absurd (mentionsSecret_of_span hps hp rfl) (by simp [hmentions])
    rw [hunique hps', hsame, ← flatMap_raw hps]
    exact List.flatMap_congr hplain
  | true =>
    have hredact := redact_eq_ofList hps hmentions
    have hbytes : utf8Bytes (redact msg) = ps.flatMap Piece.logged := by
      rw [hredact, utf8Bytes_ofList, List.flatMap_assoc]
      rfl
    constructor
    · rintro ⟨honly, -⟩
      refine .inr fun ps' hps' => ?_
      rw [hunique hps']
      exact flatMap_logged_eq_iff.mp (hbytes.symm.trans (honly ps hps))
    · rintro (hfalse | hascii)
      · cases hfalse
      · have honly := flatMap_logged_eq_iff.mpr (hascii ps hps)
        refine ⟨fun ps' hps' => by rw [hunique hps', hbytes, honly], ?_⟩
        have hagain := reads_redacted hps
        rw [← honly, ← hbytes] at hagain
        have hpushed : (ps.map Piece.again).flatMap Piece.pushed = ps.flatMap Piece.pushed := by
          rw [List.flatMap_map]
          exact List.flatMap_congr fun p _ => p.pushed_again
        rw [redact_eq hagain, hpushed, ← hredact]
        split <;> rfl

end Exact

/-- A letter outside ASCII is broken in two, and again the next time. -/
theorem letter_is_broken :
    redact "é ?sig=x" = "Ã© ?sig=REDACTED" ∧ redact (redact "é ?sig=x") ≠ redact "é ?sig=x" ∧
      ¬ OnlySecretsReplaced "é ?sig=x" := by
  have hreads : Reads nextPiece none (utf8Bytes "é ?sig=x")
      [.plain 195, .plain 169, .plain 32, .plain 63, .secret "sig" (utf8Bytes "sig=x")] :=
    reads_of_scan (show scan nextPiece 20 none _ = _ by decide)
  exact ⟨by decide, by decide, fun h => absurd (h _ hreads) (by decide)⟩

end ParquetAzureFdw
