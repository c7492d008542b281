import Mathlib.Data.List.Perm.Basic
import Mathlib.Data.List.Sort

/-!
# The best elements of a list

A relation ranks the elements of a type, ties included. The `k` best elements of a
list can be had by sorting it and cutting the result off, or in one pass that keeps
`k` elements and replaces the worst of them. What both keep is the same up to ties.
-/

namespace Ranking
open List

universe u
variable {α : Type u} {r : α → α → Prop} {k : Nat} {l l' s s' : List α} {w x : α}

/-- `s` are `k` of the best elements of `l`, or all of them if there are fewer. -/
structure Top (r : α → α → Prop) (k : Nat) (l s : List α) : Prop where
  length : s.length = min k l.length
  split : ∃ rest, (s ++ rest).Perm l ∧ ∀ a ∈ s, ∀ b ∈ rest, r a b

section Sorting
variable [DecidableRel r]

/-- On a list without ties a sorted permutation is the sorted list. -/
theorem eq_insertionSort [Std.Total r] [IsTrans α r]
    (hanti : ∀ a ∈ l, ∀ b ∈ l, r a b → r b a → a = b) (hperm : l'.Perm l)
    (hsorted : l'.Pairwise r) : l' = l.insertionSort r := by
  refine List.Perm.eq_of_pairwise ?_ hsorted (pairwise_insertionSort r l)
    (hperm.trans (perm_insertionSort r l).symm)
  intro a b ha hb hab hba
  exact hanti a (hperm.mem_iff.mp ha) b ((mem_insertionSort r).mp hb) hab hba

theorem filter_insertionSort [Std.Total r] [IsTrans α r]
    (hanti : ∀ a ∈ l, ∀ b ∈ l, r a b → r b a → a = b) (p : α → Bool) :
    (l.insertionSort r).filter p = (l.filter p).insertionSort r := by
  refine eq_insertionSort ?_ ((perm_insertionSort r l).filter p)
    ((pairwise_insertionSort r l).filter p)
  intro a ha b hb
  exact hanti a (mem_filter.mp ha).1 b (mem_filter.mp hb).1

/-- The front of the sorted list is a best part of it. -/
theorem top_take [Std.Total r] [IsTrans α r] (k : Nat) (l : List α) :
    Top r k l ((l.insertionSort r).take k) where
  length := by rw [length_take, length_insertionSort]
  split := by
    refine ⟨(l.insertionSort r).drop k, ?_, ?_⟩
    · rw [take_append_drop]
      exact perm_insertionSort r l
    · have hsorted := pairwise_insertionSort r l
      rw [← take_append_drop k (l.insertionSort r)] at hsorted
      exact (pairwise_append.mp hsorted).2.2

end Sorting

section Removal
variable {p : α → Bool} {front back : List α}

theorem filter_split (hx : p x = false) (hfront : ∀ a ∈ front, p a = true)
    (hback : ∀ b ∈ back, p b = true) : (front ++ x :: back).filter p = front ++ back := by
  have hnot : ¬ p x = true := by
    rw [hx]
    exact Bool.false_ne_true
  rw [filter_append, filter_cons_of_neg hnot, filter_eq_self.mpr hfront, filter_eq_self.mpr hback]

/-- Taking one element out of a list moves at most one new element into its first `n`. -/
theorem take_filter_split (hx : p x = false) (hfront : ∀ a ∈ front, p a = true)
    (hback : ∀ b ∈ back, p b = true) (n : Nat) :
    ((front ++ x :: back).filter p).take n =
      if n ≤ front.length then (front ++ x :: back).take n
      else ((front ++ x :: back).take n).filter p ++ (front ++ x :: back)[n]?.toList := by
  rw [filter_split hx hfront hback]
  by_cases hn : n ≤ front.length
  · rw [if_pos hn, take_append_of_le_length hn, take_append_of_le_length hn]
  · obtain ⟨m, rfl⟩ : ∃ m, n = front.length + (m + 1) := ⟨n - front.length - 1, by omega⟩
    have hkeep : ∀ b ∈ back.take m, p b = true := fun b hb => hback b (mem_of_mem_take hb)
    rw [if_neg hn, take_length_add_append, take_length_add_append, take_succ_cons,
      filter_split hx hfront hkeep, getElem?_append_right (by omega),
      Nat.add_sub_cancel_left, getElem?_cons_succ, append_assoc, take_add_one]

end Removal

namespace Top

/-- Two best parts of a list differ by ties only. -/
theorem tied [Std.Total r] (h : Top r k l s) (h' : Top r k l s') {a : α} (ha : a ∈ s) :
    ∃ b ∈ s', r a b ∧ r b a := by
  classical
  obtain ⟨rest, hperm, hle⟩ := h.split
  obtain ⟨rest', hperm', hle'⟩ := h'.split
  have hrefl : r a a := (Std.Total.total (r := r) a a).elim id id
  by_cases hmem : a ∈ s'
  · exact ⟨a, hmem, hrefl, hrefl⟩
  have hrest' : a ∈ rest' := by
    have hl : a ∈ s' ++ rest' := hperm'.mem_iff.mpr (hperm.mem_iff.mp (mem_append_left _ ha))
    exact (mem_append.mp hl).resolve_left hmem
  -- some element of s' was left out of s, or s' would be a permutation of s
  have hleft : ∃ b ∈ s', s.count b < s'.count b := by
    by_contra hno
    have hsub : s'.Subperm s := by
      refine subperm_ext_iff.mpr fun b hb => ?_
      exact not_lt.mp fun hlt => hno ⟨b, hb, hlt⟩
    have hlen : s.length ≤ s'.length := (h.length.trans h'.length.symm).le
    exact hmem ((hsub.perm_of_length_le hlen).mem_iff.mpr ha)
  obtain ⟨b, hb, hlt⟩ := hleft
  have hrest : b ∈ rest := by
    have hcount := (hperm.trans hperm'.symm).count_eq b
    rw [count_append, count_append] at hcount
    refine count_pos_iff.mp ?_
    omega
  exact ⟨b, hb, hle a ha b hrest, hle' b hb a hrest'⟩

theorem nil : Top r k [] [] := ⟨(Nat.min_zero k).symm, [], List.Perm.nil, nofun⟩

/-- As long as there are fewer than `k` elements, all of them are kept. -/
theorem push (h : Top r k l s) (hlen : s.length < k) (x : α) : Top r k (l ++ [x]) (s ++ [x]) := by
  obtain ⟨rest, hperm, -⟩ := h.split
  have hall : s.length = l.length := by
    have hmin := h.length
    omega
  have hrest : rest = [] := by
    have hsum := hperm.length_eq
    rw [length_append] at hsum
    exact length_eq_zero_iff.mp (by omega)
  subst hrest
  rw [append_nil] at hperm
  refine ⟨?_, [], ?_, fun _ _ b hb => nomatch hb⟩
  · rw [length_append, length_append, length_singleton]
    omega
  · rw [append_nil]
    exact hperm.append_right [x]

/-- An element that is not better than the worst one is left out. -/
theorem keep [IsTrans α r] (h : Top r k l s) (hlen : s.length = k) (hworst : ∀ a ∈ s, r a w)
    (hx : r w x) : Top r k (l ++ [x]) s := by
  obtain ⟨rest, hperm, hle⟩ := h.split
  refine ⟨?_, rest ++ [x], ?_, fun a ha b hb => ?_⟩
  · have hmin := h.length
    rw [length_append]
    omega
  · rw [← append_assoc]
    exact hperm.append_right [x]
  · rcases mem_append.mp hb with hb | hb
    · exact hle a ha b hb
    · rw [mem_singleton.mp hb]
      exact IsTrans.trans a w x (hworst a ha) hx

/-- Otherwise it takes the place of the worst one. -/
theorem replace [IsTrans α r] (h : Top r k l s) (hlen : s.length = k) {i : Nat}
    (hi : s[i]? = some w) (hworst : ∀ a ∈ s, r a w) (hx : r x w) :
    Top r k (l ++ [x]) (s.set i x) := by
  obtain ⟨rest, hperm, hle⟩ := h.split
  obtain ⟨hlt, hget⟩ := List.getElem?_eq_some_iff.mp hi
  have hw : w ∈ s := mem_of_getElem? hi
  refine ⟨?_, w :: rest, ?_, fun a ha b hb => ?_⟩
  · have hmin := h.length
    rw [length_set, length_append]
    omega
  · have hout : (s.set i x).Perm (x :: s.eraseIdx i) := set_perm_cons_eraseIdx hlt x
    have hback : (w :: s.eraseIdx i).Perm s := by
      rw [← hget]
      exact getElem_cons_eraseIdx_perm hlt
    have hmid : ((s.set i x) ++ w :: rest).Perm (x :: (w :: s.eraseIdx i ++ rest)) := by
      refine perm_middle.trans ?_
      refine ((hout.append_right rest).cons w).trans ?_
      exact List.Perm.swap x w _
    refine hmid.trans ?_
    refine ((hback.append_right rest).cons x).trans ?_
    exact (hperm.cons x).trans (perm_append_singleton x l).symm
  · have haw : r a w := by
      rcases mem_or_eq_of_mem_set ha with ha | rfl
      · exact hworst a ha
      · exact hx
    rcases mem_cons.mp hb with rfl | hb
    · exact haw
    · exact IsTrans.trans a w b haw (hle w hw b hb)

end Top

end Ranking
