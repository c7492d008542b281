import Mathlib.Data.List.Basic

/-!
# Paging through a sorted list with a cursor

A page holds the first elements that rank above a cursor, and the rank of the
last element of a page is the cursor of the next one. The pages of a scan are the
elements above its first cursor, each of them once.
-/

namespace Paging
open List

universe u
variable {α : Type u} {rank : α → Nat} {limit a : Nat} {l : List α} {x : α} {pages : List (List α)}

/-- The elements above the cursor. -/
def beyond (rank : α → Nat) (a : Nat) (l : List α) : List α := l.filter fun x => decide (a < rank x)

/-- The pages from a cursor on; an empty page ends the scan. -/
inductive Scan (rank : α → Nat) (limit : Nat) (l : List α) : Nat → List (List α) → Prop where
  | done {a : Nat} (empty : (beyond rank a l).take limit = []) : Scan rank limit l a []
  | page {a : Nat} {x : α} {rest : List (List α)}
      (last : ((beyond rank a l).take limit).getLast? = some x)
      (rest_scan : Scan rank limit l (rank x) rest) :
      Scan rank limit l a ((beyond rank a l).take limit :: rest)

theorem mem_beyond : x ∈ beyond rank a l ↔ x ∈ l ∧ a < rank x := by
  rw [beyond, mem_filter, decide_eq_true_eq]

section
variable (hsorted : l.Pairwise fun x y => rank x < rank y)
include hsorted

/-- Behind the last element of a page come those that the page has left over. -/
theorem beyond_last (hlast : ((beyond rank a l).take limit).getLast? = some x) :
    beyond rank (rank x) l = (beyond rank a l).drop limit := by
  obtain ⟨front, hfront⟩ := getLast?_eq_some_iff.mp hlast
  have hx : a < rank x := by
    have hmem : x ∈ (beyond rank a l).take limit := mem_of_getLast? hlast
    exact (mem_beyond.mp (mem_of_mem_take hmem)).2
  have hsplit : beyond rank a l = front ++ [x] ++ (beyond rank a l).drop limit := by
    rw [← hfront, take_append_drop]
  have hpair : (beyond rank a l).Pairwise fun x y => rank x < rank y := hsorted.filter _
  have htwice : beyond rank (rank x) l = beyond rank (rank x) (beyond rank a l) := by
    simp only [beyond, filter_filter]
    apply filter_congr
    intro y _
    by_cases hy : rank x < rank y
    · simp [hy, Nat.lt_trans hx hy]
    · simp [hy]
  rw [htwice]
  generalize (beyond rank a l).drop limit = rest at hsplit ⊢
  rw [hsplit, pairwise_append, pairwise_append] at hpair
  obtain ⟨⟨-, -, hbefore⟩, -, hbehind⟩ := hpair
  have hdrop : ∀ y ∈ front ++ [x], ¬ decide (rank x < rank y) = true := by
    intro y hy
    rw [decide_eq_true_eq]
    rcases mem_append.mp hy with hy | hy
    · exact Nat.lt_asymm (hbefore y hy x mem_cons_self)
    · rw [mem_singleton.mp hy]
      exact Nat.lt_irrefl _
  have hkeep : ∀ y ∈ rest, decide (rank x < rank y) = true := by
    intro y hy
    rw [decide_eq_true_eq]
    exact hbehind x (mem_append_right _ mem_cons_self) y hy
  rw [hsplit, beyond, filter_append, filter_eq_nil_iff.mpr hdrop,
    filter_eq_self.mpr hkeep, nil_append]

/-- The pages of a scan are the elements above its cursor. -/
theorem Scan.flatten (hlimit : 0 < limit) (h : Scan rank limit l a pages) :
    pages.flatten = beyond rank a l := by
  induction h with
  | done empty =>
    rcases take_eq_nil_iff.mp empty with hzero | hnil
    · omega
    · rw [hnil, flatten_nil]
  | page last _ ih =>
    rw [flatten_cons, ih, beyond_last hsorted last, take_append_drop]

/-- Every scan comes to an end. -/
theorem exists_scan (hlimit : 0 < limit) : ∃ pages, Scan rank limit l a pages := by
  induction hlen : (beyond rank a l).length using Nat.strongRecOn generalizing a with
  | ind len ih =>
    cases hlast : ((beyond rank a l).take limit).getLast? with
    | none => exact ⟨[], .done (getLast?_eq_none_iff.mp hlast)⟩
    | some x =>
      have hpos : 0 < (beyond rank a l).length :=
        length_pos_of_mem (mem_of_mem_take (mem_of_getLast? hlast))
      have hshort : (beyond rank (rank x) l).length < len := by
        rw [beyond_last hsorted hlast, length_drop]
        omega
      obtain ⟨rest, hrest⟩ := ih _ hshort rfl
      exact ⟨_, .page hlast hrest⟩

end

end Paging
