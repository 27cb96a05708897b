/-
# Scanning from the left

A scanner takes a token from the front of what is left of its input, in a state that it
carries along, until nothing is left.  `Reads next s l bs` says that it reads `l` from state
`s` as the tokens `bs`.  There is at most one reading (`Reads.unique`), and there is one when
every token takes something and the scanner never gives up (`exists_reads`).

Most tokens run up to the first element of some kind: `a ++ b` with nothing of the kind in
`a` and `b` empty or beginning with one (`StopsAt`).
-/

import Mathlib.Tactic

namespace Scanning

section Stops

variable {α : Type} {p q : α → Bool} {a b l : List α}

/-- The list is empty or begins with an element of the kind. -/
def StopsAt (p : α → Bool) (l : List α) : Prop := ∀ c ∈ l.head?, p c = true

@[simp] theorem stopsAt_nil : StopsAt p ([] : List α) := by simp [StopsAt]

@[simp] theorem stopsAt_cons {c : α} : StopsAt p (c :: l) ↔ p c = true := by simp [StopsAt]

theorem StopsAt.mono (h : StopsAt p l) (hpq : ∀ c, p c = true → q c = true) : StopsAt q l :=
  fun c hc => hpq c (h c hc)

/-- What follows does not matter behind an element. -/
theorem StopsAt.append (h : StopsAt p b) (hb : b ≠ []) (l : List α) : StopsAt p (b ++ l) := by
  cases b with
  | nil => exact absurd rfl hb
  | cons c b => simpa using h

theorem stopsAt_of_forall (h : ∀ c ∈ a, p c = true) (ha : a ≠ []) (l : List α) :
    StopsAt p (a ++ l) := by
  cases a with
  | nil => exact absurd rfl ha
  | cons c a => simpa using h c List.mem_cons_self

/-- Every list runs up to the first element of the kind. -/
theorem exists_split (p : α → Bool) (l : List α) :
    ∃ a b, l = a ++ b ∧ (∀ c ∈ a, p c = false) ∧ StopsAt p b := by
  induction l with
  | nil => exact ⟨[], [], rfl, by simp, by simp⟩
  | cons c l ih =>
    cases hc : p c with
    | true => exact ⟨[], c :: l, rfl, by simp, by simpa using hc⟩
    | false =>
      obtain ⟨a, b, rfl, ha, hb⟩ := ih
      exact ⟨c :: a, b, rfl, List.forall_mem_cons.mpr ⟨hc, ha⟩, hb⟩

theorem takeWhile_split (ha : ∀ c ∈ a, p c = true) (hb : StopsAt (fun c => !p c) b) :
    (a ++ b).takeWhile p = a := by
  rw [List.takeWhile_append_of_pos ha]
  cases b with
  | nil => simp
  | cons c b =>
    have hc : p c = false := by simpa using hb
    simp [hc]

theorem dropWhile_split (ha : ∀ c ∈ a, p c = true) (hb : StopsAt (fun c => !p c) b) :
    (a ++ b).dropWhile p = b := by
  rw [List.dropWhile_append_of_pos ha]
  cases b with
  | nil => simp
  | cons c b =>
    have hc : p c = false := by simpa using hb
    simp [hc]

theorem findIdx_split (ha : ∀ c ∈ a, p c = false) (hb : StopsAt p b) :
    (a ++ b).findIdx p = a.length := by
  induction a with
  | nil =>
    cases b with
    | nil => rfl
    | cons c b => simp [List.findIdx_cons, stopsAt_cons.mp hb]
  | cons c a ih =>
    obtain ⟨hc, ha⟩ := List.forall_mem_cons.mp ha
    simp [List.findIdx_cons, hc, ih ha]

end Stops

section Reading

variable {σ α β : Type}

/-- A scanner: from a state and what is left, the token taken, the new state and the rest. -/
abbrev Next (σ α β : Type) := σ → List α → Option (β × σ × List α)

/-- `next` reads the list from the state as the tokens. -/
inductive Reads (next : Next σ α β) : σ → List α → List β → Prop
  | nil (s : σ) : Reads next s [] []
  | cons {s s' : σ} {l rest : List α} {b : β} {bs : List β} (hl : l ≠ [])
      (taken : next s l = some (b, s', rest)) (reads : Reads next s' rest bs) :
      Reads next s l (b :: bs)

variable {next : Next σ α β} {s s' : σ} {l rest : List α} {b : β} {bs bs' : List β}

/-- **There is at most one reading.** -/
theorem Reads.unique (h : Reads next s l bs) (h' : Reads next s l bs') : bs = bs' := by
  induction h generalizing bs' with
  | nil s =>
    cases h' with
    | nil => rfl
    | cons hl => exact absurd rfl hl
  | cons hl taken _ ih =>
    cases h' with
    | nil => exact absurd rfl hl
    | cons _ taken' reads' =>
      cases Option.some.inj (taken.symm.trans taken')
      rw [ih reads']

/-- **A scanner that always takes something reads every input.** -/
theorem exists_reads (htotal : ∀ s l, l ≠ [] → ∃ b s' rest, next s l = some (b, s', rest))
    (hshrinks : ∀ s l b s' rest, next s l = some (b, s', rest) → rest.length < l.length)
    (s : σ) (l : List α) : ∃ bs, Reads next s l bs := by
  induction hn : l.length using Nat.strong_induction_on generalizing s l with
  | _ n ih =>
    by_cases hl : l = []
    · subst hl
      exact ⟨[], .nil s⟩
    · obtain ⟨b, s', rest, htaken⟩ := htotal s l hl
      obtain ⟨bs, hbs⟩ := ih rest.length (hn ▸ hshrinks _ _ _ _ _ htaken) s' rest rfl
      exact ⟨b :: bs, .cons hl htaken hbs⟩

/-- The reading, computed with at most as many tokens as fuel. -/
def scan (next : Next σ α β) : ℕ → σ → List α → Option (List β)
  | _, _, [] => some []
  | 0, _, _ :: _ => none
  | fuel + 1, s, a :: l => do
    let (b, s', rest) ← next s (a :: l)
    let bs ← scan next fuel s' rest
    return b :: bs

theorem reads_of_scan {fuel : ℕ} (h : scan next fuel s l = some bs) : Reads next s l bs := by
  induction fuel generalizing s l bs with
  | zero =>
    cases l with
    | nil =>
      cases h
      exact .nil s
    | cons a l => cases h
  | succ fuel ih =>
    cases l with
    | nil =>
      cases h
      exact .nil s
    | cons a l =>
      obtain ⟨⟨b, s', rest⟩, htaken, h⟩ := Option.bind_eq_some_iff.mp h
      obtain ⟨bs, hbs, h⟩ := Option.bind_eq_some_iff.mp h
      cases h
      exact .cons (List.cons_ne_nil a l) htaken (ih hbs)

/-- As much fuel as input is enough when every token takes something. -/
theorem scan_of_reads
    (hshrinks : ∀ s l b s' rest, next s l = some (b, s', rest) → rest.length < l.length)
    {fuel : ℕ} (h : Reads next s l bs) (hfuel : l.length ≤ fuel) :
    scan next fuel s l = some bs := by
  induction h generalizing fuel with
  | nil s => cases fuel <;> rfl
  | @cons s s' l rest b bs hl htaken _ ih =>
    obtain ⟨a, l, rfl⟩ := List.exists_cons_of_ne_nil hl
    have hrest := hshrinks _ _ _ _ _ htaken
    rw [List.length_cons] at hrest hfuel
    cases fuel with
    | zero => omega
    | succ fuel =>
      have hscan : scan next fuel s' rest = some bs := ih (by omega)
      simp [scan, htaken, hscan]

end Reading

end Scanning
