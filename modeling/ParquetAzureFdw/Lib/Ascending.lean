/-
# Ascending lists of numbers

A strictly ascending list of numbers is a selection of them.  The element of rank
`r` is at least `r`, and it is `r` exactly when nothing below it was left out
(`rank_le_and_eq_iff`): two numberings of a sequence, before and after a selection,
agree up to an element just in case the selection is whole up to it.
-/

import Mathlib.Data.List.Nodup
import Mathlib.Tactic

namespace Ascending

variable {l : List ℕ} {r p : ℕ}

/-- In an ascending list, what stands before `p` is what is below it. -/
theorem mem_take_iff_lt (hsorted : l.Pairwise (· < ·)) (hr : l[r]? = some p) {q : ℕ} (hq : q ∈ l) :
    q ∈ l.take r ↔ q < p := by
  obtain ⟨hlt, hget⟩ := List.getElem?_eq_some_iff.mp hr
  have hdrop : l.drop r = p :: l.drop (r + 1) := by rw [List.drop_eq_getElem_cons hlt, hget]
  rw [← List.take_append_drop r l, hdrop, List.pairwise_append] at hsorted
  obtain ⟨-, hafter, hcross⟩ := hsorted
  constructor
  · intro h
    exact hcross q h p (by simp)
  · intro h
    rw [← List.take_append_drop r l, hdrop, List.mem_append, List.mem_cons] at hq
    rcases hq with hq | rfl | hq
    · exact hq
    · omega
    · have := (List.pairwise_cons.mp hafter).1 q hq
      omega

/-- The rank of an element of an ascending list is at most the element, and equals it
exactly when nothing below it is missing. -/
theorem rank_le_and_eq_iff (hsorted : l.Pairwise (· < ·)) (hr : l[r]? = some p) :
    r ≤ p ∧ (r = p ↔ ∀ q < p, q ∈ l) := by
  have hlen : (l.take r).length = r := by
    have := (List.getElem?_eq_some_iff.mp hr).1
    rw [List.length_take]
    omega
  have hnodup : (l.take r).Nodup := (hsorted.imp ne_of_lt).sublist (List.take_sublist r l)
  have hsub : l.take r ⊆ List.range p := fun q hq =>
    List.mem_range.mpr ((mem_take_iff_lt hsorted hr (List.mem_of_mem_take hq)).mp hq)
  have hle := (hnodup.subperm hsub).length_le
  rw [hlen, List.length_range] at hle
  refine ⟨hle, ?_, ?_⟩
  · intro heq q hq
    have hperm := (hnodup.subperm hsub).perm_of_length_le (by rw [hlen, List.length_range, heq])
    exact List.mem_of_mem_take (hperm.mem_iff.mpr (List.mem_range.mpr hq))
  · intro hall
    have hsub' : List.range p ⊆ l.take r := fun q hq =>
      (mem_take_iff_lt hsorted hr (hall q (List.mem_range.mp hq))).mpr (List.mem_range.mp hq)
    have hge := (List.nodup_range.subperm hsub').length_le
    rw [hlen, List.length_range] at hge
    omega

end Ascending
