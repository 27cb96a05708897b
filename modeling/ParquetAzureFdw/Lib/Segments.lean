/-
# Tables of segments

A list of keys with a size each is laid out as one flat table: for every key, in
order, one entry for each index below its size.  `start segs i` is where the
entries of the `i`-th key begin.

The table is read both ways: entry `k` of key `i` stands at `start segs i + k`
(`getElem?_entries`), and whatever stands at a position is of this form
(`exists_of_getElem?`).  With distinct keys the entries of a key are one run, and
going back from any of them while the key stays the same ends at its first entry
(`runStart_eq`).
-/

import Mathlib.Data.List.Basic
import Mathlib.Tactic

namespace Segments

variable {α : Type}

/-- The flat table: the entries of each key, in order. -/
def entries (segs : List (α × ℕ)) : List (α × ℕ) :=
  segs.flatMap fun s => (List.range s.2).map fun k => (s.1, k)

/-- The position of the first entry of the `i`-th key. -/
def start (segs : List (α × ℕ)) (i : ℕ) : ℕ := ((segs.take i).map Prod.snd).sum

@[simp] theorem entries_nil : entries ([] : List (α × ℕ)) = [] := rfl

@[simp] theorem entries_cons (s : α × ℕ) (segs : List (α × ℕ)) :
    entries (s :: segs) = ((List.range s.2).map fun k => (s.1, k)) ++ entries segs := rfl

@[simp] theorem start_zero (segs : List (α × ℕ)) : start segs 0 = 0 := by
  simp [start]

@[simp] theorem start_cons_succ (s : α × ℕ) (segs : List (α × ℕ)) (i : ℕ) :
    start (s :: segs) (i + 1) = s.2 + start segs i := by
  simp [start]

/-- The table ends where a further key would begin. -/
theorem length_entries (segs : List (α × ℕ)) : (entries segs).length = start segs segs.length := by
  simp [entries, start, List.length_flatMap]

/-- The entries of a key end where those of the next begin. -/
theorem start_succ {segs : List (α × ℕ)} {i : ℕ} {a : α} {n : ℕ} (h : segs[i]? = some (a, n)) :
    start segs (i + 1) = start segs i + n := by
  induction segs generalizing i with
  | nil => simp at h
  | cons s segs ih =>
    cases i with
    | zero =>
      obtain rfl : s = (a, n) := by simpa using h
      simp
    | succ i =>
      have := ih (i := i) (by simpa using h)
      rw [start_cons_succ, start_cons_succ, this, Nat.add_assoc]

theorem start_mono (segs : List (α × ℕ)) {i j : ℕ} (h : i ≤ j) : start segs i ≤ start segs j := by
  induction segs generalizing i j with
  | nil => simp [start]
  | cons s segs ih =>
    cases i with
    | zero => simp
    | succ i =>
      cases j with
      | zero => omega
      | succ j =>
        have := ih (i := i) (j := j) (by omega)
        rw [start_cons_succ, start_cons_succ]
        omega

/-- Of two lists with the same keys, one with sizes at most the other's, the starts up
to a key agree exactly when the sizes before it do. -/
theorem start_eq_start_iff {β : Type} (l : List β) (key : β → α) {f g : β → ℕ}
    (hle : ∀ b ∈ l, f b ≤ g b) (i : ℕ) :
    start (l.map fun b => (key b, f b)) i ≤ start (l.map fun b => (key b, g b)) i ∧
      (start (l.map fun b => (key b, f b)) i = start (l.map fun b => (key b, g b)) i ↔
        ∀ j < i, ∀ b, l[j]? = some b → f b = g b) := by
  induction l generalizing i with
  | nil => simp [start]
  | cons b l ih =>
    cases i with
    | zero => simp
    | succ i =>
      obtain ⟨hstart, hiff⟩ := ih (fun b' hb' => hle b' (by simp [hb'])) i
      have hb := hle b (by simp)
      simp only [List.map_cons, start_cons_succ]
      refine ⟨by omega, ?_, ?_⟩
      · intro heq j hj b' hb'
        cases j with
        | zero =>
          obtain rfl : b = b' := by simpa using hb'
          omega
        | succ j => exact hiff.mp (by omega) j (by omega) b' (by simpa using hb')
      · intro h
        have hfirst : f b = g b := h 0 (by omega) b rfl
        have hrest := hiff.mpr fun j hj b' hb' => h (j + 1) (by omega) b' (by simpa using hb')
        omega

/-- Entry `k` of the `i`-th key stands `k` places after the key's start. -/
theorem getElem?_entries {segs : List (α × ℕ)} {i : ℕ} {a : α} {n k : ℕ}
    (h : segs[i]? = some (a, n)) (hk : k < n) : (entries segs)[start segs i + k]? = some (a, k) := by
  induction segs generalizing i with
  | nil => simp at h
  | cons s segs ih =>
    cases i with
    | zero =>
      obtain rfl : s = (a, n) := by simpa using h
      simp [List.getElem?_append_left, hk]
    | succ i =>
      have hrest := ih (i := i) (by simpa using h)
      rw [entries_cons, start_cons_succ, Nat.add_assoc,
        List.getElem?_append_right (by simp), List.length_map, List.length_range,
        Nat.add_sub_cancel_left, hrest]

/-- What stands at a position is an entry of some key. -/
theorem exists_of_getElem? {segs : List (α × ℕ)} {j : ℕ} {a : α} {k : ℕ}
    (h : (entries segs)[j]? = some (a, k)) :
    ∃ i n, segs[i]? = some (a, n) ∧ k < n ∧ j = start segs i + k := by
  induction segs generalizing j with
  | nil => simp at h
  | cons s segs ih =>
    by_cases hj : j < s.2
    · rw [entries_cons, List.getElem?_append_left (by simpa using hj)] at h
      obtain ⟨rfl, rfl⟩ : s.1 = a ∧ j = k := by simpa [hj] using h
      exact ⟨0, s.2, rfl, hj, by simp⟩
    · rw [entries_cons, List.getElem?_append_right (by simp; omega)] at h
      obtain ⟨i, n, hi, hk, hjk⟩ := ih h
      refine ⟨i + 1, n, by simpa using hi, hk, ?_⟩
      rw [List.length_map, List.length_range] at hjk
      rw [start_cons_succ]
      omega

/-- Distinct keys: a key is at one position only. -/
theorem index_unique {segs : List (α × ℕ)} (hnodup : (segs.map Prod.fst).Nodup) {i j : ℕ} {a : α}
    {n m : ℕ} (hi : segs[i]? = some (a, n)) (hj : segs[j]? = some (a, m)) : i = j := by
  have hi' : (segs.map Prod.fst)[i]? = some a := by simp [hi]
  have hj' : (segs.map Prod.fst)[j]? = some a := by simp [hj]
  obtain ⟨hilt, hia⟩ := List.getElem?_eq_some_iff.mp hi'
  obtain ⟨hjlt, hja⟩ := List.getElem?_eq_some_iff.mp hj'
  exact hnodup.getElem_inj_iff.mp (hia.trans hja.symm)

/-- Go back from position `j` while the entry before has the property. -/
def runStart (p : ℕ → Bool) : ℕ → ℕ
  | 0 => 0
  | j + 1 => if p j then runStart p j else j + 1

/-- **Going back through the entries of a key ends at its first entry.** -/
theorem runStart_eq {segs : List (α × ℕ)} (hnodup : (segs.map Prod.fst).Nodup) {i : ℕ} {a : α}
    {n k : ℕ} (hi : segs[i]? = some (a, n)) (hk : k ≤ n) {p : ℕ → Bool}
    (hp : ∀ j, p j = true ↔ ∃ m, (entries segs)[j]? = some (a, m)) :
    runStart p (start segs i + k) = start segs i := by
  induction k with
  | zero =>
    rw [Nat.add_zero]
    cases hs : start segs i with
    | zero => rfl
    | succ j =>
      rw [runStart, if_neg]
      intro hpj
      -- The entry just before the start belongs to an earlier key.
      obtain ⟨m, hm⟩ := (hp j).mp hpj
      obtain ⟨i', n', hi', hm', hj⟩ := exists_of_getElem? hm
      obtain rfl := index_unique hnodup hi hi'
      omega
  | succ k ih =>
    rw [← Nat.add_assoc, runStart, if_pos, ih (by omega)]
    exact (hp _).mpr ⟨k, getElem?_entries hi (by omega)⟩

end Segments
