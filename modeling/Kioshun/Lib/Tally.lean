import Mathlib.Algebra.BigOperators.Group.List.Basic
import Mathlib.Data.List.AList

/-!
# Tallies

A table holds a weight for every bucket, and a bucket that it does not list holds
nothing. Elements are put in one after the other, each into its own bucket. What a
bucket holds in the end is the total of what was put into it, in whatever order.
-/

namespace Tally
open List

universe u v w
variable {α : Type u} {β : Type v} {M : Type w} [DecidableEq β]

section Tables
variable [AddCommMonoid M]

/-- What the bucket `b` holds. -/
def read (t : AList fun _ : β => M) (b : β) : M := (t.lookup b).getD 0

/-- The weight `m` goes into the bucket `b`. -/
def put (t : AList fun _ : β => M) (b : β) (m : M) : AList fun _ : β => M :=
  t.insert b (read t b + m)

/-- The elements of a list go into their buckets. -/
def tally (bucket : α → β) (weight : α → M) (t : AList fun _ : β => M) (l : List α) :
    AList fun _ : β => M :=
  l.foldl (fun t x => put t (bucket x) (weight x)) t

/-- What the elements of a list weigh in the bucket `b`. -/
def total (bucket : α → β) (weight : α → M) (l : List α) (b : β) : M :=
  ((l.filter fun x => decide (bucket x = b)).map weight).sum

variable {bucket : α → β} {weight : α → M} {t : AList fun _ : β => M} {l l' : List α} {b b' : β}
  {m : M}

@[simp] theorem read_empty (b : β) : read (∅ : AList fun _ : β => M) b = 0 := by
  rw [read, AList.lookup_empty, Option.getD_none]

theorem read_of_entry (h : (⟨b, m⟩ : Sigma fun _ : β => M) ∈ t.entries) : read t b = m := by
  rw [read, AList.mem_lookup_iff.mpr h, Option.getD_some]

theorem read_put (t : AList fun _ : β => M) (b b' : β) (m : M) :
    read (put t b m) b' = if b = b' then read t b' + m else read t b' := by
  split_ifs with h
  · subst h
    rw [read, put, AList.lookup_insert, Option.getD_some]
  · rw [read, put, AList.lookup_insert_ne (Ne.symm h), read]

theorem total_cons (x : α) (l : List α) (b : β) :
    total bucket weight (x :: l) b =
      (if bucket x = b then weight x else 0) + total bucket weight l b := by
  by_cases h : bucket x = b
  · simp [total, h]
  · simp [total, h]

theorem total_append (l l' : List α) (b : β) :
    total bucket weight (l ++ l') b = total bucket weight l b + total bucket weight l' b := by
  rw [total, filter_append, map_append, sum_append, total, total]

theorem total_perm (h : l.Perm l') (b : β) : total bucket weight l b = total bucket weight l' b :=
  ((h.filter _).map weight).sum_eq

theorem total_congr {weight' : α → M} (h : ∀ x ∈ l, weight x = weight' x) (b : β) :
    total bucket weight l b = total bucket weight' l b := by
  have hmap := map_congr_left (l := l.filter fun x => decide (bucket x = b))
    fun x hx => h x (mem_filter.mp hx).1
  rw [total, hmap, total]

theorem total_map {γ : Type*} (f : γ → α) (l : List γ) (b : β) :
    total bucket weight (l.map f) b = total (bucket ∘ f) (weight ∘ f) l b := by
  rw [total, filter_map, map_map]
  rfl

theorem total_split (bucket : α → β) (weight : α → M) (p : α → Bool) (l : List α) (b : β) :
    total bucket weight l b =
      total bucket weight (l.filter p) b + total bucket weight (l.filter fun x => !p x) b := by
  rw [← total_append]
  exact total_perm (filter_append_perm p l).symm b

theorem read_tally (bucket : α → β) (weight : α → M) (t : AList fun _ : β => M) (l : List α)
    (b : β) : read (tally bucket weight t l) b = read t b + total bucket weight l b := by
  induction l generalizing t with
  | nil => exact (add_zero _).symm
  | cons x l ih =>
    rw [tally, foldl_cons, ← tally, ih, read_put, total_cons]
    split_ifs
    · exact add_assoc ..
    · rw [zero_add]

end Tables

section Cancelling
variable [AddCancelCommMonoid M] [DecidableEq α] {bucket : α → β} {weight : α → M} {l l' : List α}

/-- Two lists weigh the same where the elements that only one of them has do. -/
theorem total_eq_iff (hl : l.Nodup) (hl' : l'.Nodup) (b : β) :
    total bucket weight l b = total bucket weight l' b ↔
      total bucket weight (l.filter fun x => decide (x ∉ l')) b =
        total bucket weight (l'.filter fun x => decide (x ∉ l)) b := by
  have hcommon : (l.filter fun x => decide (x ∈ l')).Perm (l'.filter fun x => decide (x ∈ l)) := by
    refine (perm_ext_iff_of_nodup (hl.filter _) (hl'.filter _)).mpr fun x => ?_
    simp only [mem_filter, decide_eq_true_eq]
    exact and_comm
  have hsplit := total_split bucket weight (fun x => decide (x ∈ l')) l b
  have hsplit' := total_split bucket weight (fun x => decide (x ∈ l)) l' b
  simp only [← decide_not] at hsplit hsplit'
  rw [hsplit, hsplit', total_perm hcommon]
  exact add_right_inj _

end Cancelling

end Tally
