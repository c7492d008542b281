import Mathlib.Algebra.Order.BigOperators.Group.List
import Mathlib.Algebra.Order.Ring.Nat
import Mathlib.Algebra.Group.Action.Defs
import Mathlib.Data.List.Nodup

/-!
# Summaries of a stream

At most `k` elements have a counter. An element that has one is counted there. A new
element gets a counter of its own while there is room, and afterwards takes over the
counter of an element whose count is least and goes on counting from there. What a
counter shows is never less than the number of occurrences, and no count is off by more
than the length of the stream divided by `k`, whichever least counters are taken over.
-/

namespace Summary
open List

universe u
variable {α : Type u}

/-- The counters after the element `a`, in any order. -/
inductive Step (k : Nat) (a : α) : List (α × Nat) → List (α × Nat) → Prop
  | counted {l l' rest : List (α × Nat)} {c : Nat} (before : l.Perm ((a, c) :: rest))
      (after : l'.Perm ((a, c + 1) :: rest)) : Step k a l l'
  | added {l l' : List (α × Nat)} (new : a ∉ l.map Prod.fst) (room : l.length < k)
      (after : l'.Perm ((a, 1) :: l)) : Step k a l l'
  | replaced {l l' rest : List (α × Nat)} {b : α} {least : Nat} (new : a ∉ l.map Prod.fst)
      (full : k ≤ l.length) (before : l.Perm ((b, least) :: rest)) (min : ∀ e ∈ l, least ≤ e.2)
      (after : l'.Perm ((a, least + 1) :: rest)) : Step k a l l'

variable {k : Nat} {a : α} {stream : List α} {l l' : List (α × Nat)} {slack : Nat}

theorem Step.length_le (h : Step k a l l') (hlen : l.length ≤ k) : l'.length ≤ k := by
  cases h with
  | counted before after => simpa [after.length_eq, before.length_eq] using hlen
  | added new room after => simpa [after.length_eq, Nat.succ_le_iff] using room
  | replaced new full before min after => simpa [after.length_eq, before.length_eq] using hlen

theorem Step.sum_eq (h : Step k a l l') : (l'.map Prod.snd).sum = (l.map Prod.snd).sum + 1 := by
  cases h with
  | counted before after =>
    rw [(after.map _).sum_eq, (before.map _).sum_eq]
    simp only [map_cons, sum_cons]
    omega
  | added new room after =>
    rw [(after.map _).sum_eq]
    simp only [map_cons, sum_cons]
    omega
  | replaced new full before min after =>
    rw [(after.map _).sum_eq, (before.map _).sum_eq]
    simp only [map_cons, sum_cons]
    omega

section Error
variable [BEq α]

/-- No count is below the number of occurrences or exceeds it by more than `slack`, nothing without
a counter occurs more often than that, and there is no slack until the counters are used up. -/
structure Within (k : Nat) (stream : List α) (l : List (α × Nat)) (slack : Nat) : Prop where
  least : ∀ e ∈ l, stream.count e.1 ≤ e.2
  most : ∀ e ∈ l, e.2 ≤ stream.count e.1 + slack
  absent : ∀ a, a ∉ l.map Prod.fst → stream.count a ≤ slack
  below : ∀ e ∈ l, slack ≤ e.2
  exact : l.length < k → slack = 0

theorem within_nil (k : Nat) : Within k ([] : List α) [] 0 where
  least := fun _ h => by cases h
  most := fun _ h => by cases h
  absent := fun _ _ => Nat.le_refl 0
  below := fun _ h => by cases h
  exact := fun _ => rfl

/-- The slack is at most the average count. -/
theorem Within.slack_le (h : Within k stream l slack) (hk : 0 < k) :
    slack ≤ (l.map Prod.snd).sum / k := by
  rw [Nat.le_div_iff_mul_le hk]
  rcases Nat.lt_or_ge l.length k with hroom | hfull
  · rw [h.exact hroom, Nat.zero_mul]
    exact Nat.zero_le _
  · have hsum := card_nsmul_le_sum (l.map Prod.snd) slack fun c hc => by
      obtain ⟨e, he, rfl⟩ := mem_map.mp hc
      exact h.below e he
    rw [length_map, smul_eq_mul] at hsum
    calc slack * k ≤ slack * l.length := Nat.mul_le_mul_left slack hfull
      _ = l.length * slack := Nat.mul_comm ..
      _ ≤ (l.map Prod.snd).sum := hsum

variable [LawfulBEq α]

theorem count_concat_self (stream : List α) (a : α) :
    (stream ++ [a]).count a = stream.count a + 1 := by
  rw [count_append, count_singleton, beq_self_eq_true, if_pos rfl]

theorem count_concat_of_ne {b : α} (h : a ≠ b) : (stream ++ [a]).count b = stream.count b := by
  rw [count_append, count_singleton, beq_false_of_ne h]
  rfl

section
variable (h : Within k stream l slack)
include h

/-- The counters that are left alone stay within the slack, also if it grows. -/
theorem Within.kept {e : α × Nat} (he : e ∈ l) (hne : a ≠ e.1) {slack' : Nat}
    (hle : slack ≤ slack') :
    (stream ++ [a]).count e.1 ≤ e.2 ∧ e.2 ≤ (stream ++ [a]).count e.1 + slack' := by
  have hleast := h.least e he
  have hmost := h.most e he
  rw [count_concat_of_ne hne]
  omega

theorem Within.counted {rest : List (α × Nat)} {c : Nat} (hnodup : (l.map Prod.fst).Nodup)
    (before : l.Perm ((a, c) :: rest)) (after : l'.Perm ((a, c + 1) :: rest)) :
    Within k (stream ++ [a]) l' slack := by
  have hold : (a, c) ∈ l := before.mem_iff.mpr mem_cons_self
  have hrest : ∀ e ∈ rest, e ∈ l ∧ a ≠ e.1 := by
    intro e he
    have hkeys := (before.map Prod.fst).nodup_iff.mp hnodup
    refine ⟨before.mem_iff.mpr (mem_cons_of_mem _ he), ?_⟩
    rintro rfl
    exact (nodup_cons.mp hkeys).1 (mem_map.mpr ⟨e, he, rfl⟩)
  have hself := count_concat_self stream a
  have hcases : ∀ e ∈ l', e = (a, c + 1) ∨ e ∈ rest := fun e he =>
    mem_cons.mp (after.mem_iff.mp he)
  refine ⟨fun e he => ?_, fun e he => ?_, fun b hb => ?_, fun e he => ?_, fun hlen => ?_⟩
  · rcases hcases e he with rfl | he
    · exact hself ▸ Nat.succ_le_succ (h.least _ hold)
    · exact (h.kept (hrest e he).1 (hrest e he).2 (Nat.le_refl slack)).1
  · rcases hcases e he with rfl | he
    · have hmost := h.most _ hold
      simp only [hself] at hmost ⊢
      omega
    · exact (h.kept (hrest e he).1 (hrest e he).2 (Nat.le_refl slack)).2
  · rw [(after.map _).mem_iff, map_cons, mem_cons, not_or] at hb
    rw [count_concat_of_ne (Ne.symm hb.1)]
    refine h.absent b fun hin => ?_
    rcases mem_cons.mp ((before.map Prod.fst).mem_iff.mp hin) with hba | hin
    · exact hb.1 hba
    · exact hb.2 hin
  · rcases hcases e he with rfl | he
    · exact Nat.le_succ_of_le (h.below _ hold)
    · exact h.below e (hrest e he).1
  · rw [after.length_eq] at hlen
    exact h.exact (by rw [before.length_eq]; exact hlen)

theorem Within.added (new : a ∉ l.map Prod.fst) (room : l.length < k)
    (after : l'.Perm ((a, 1) :: l)) : Within k (stream ++ [a]) l' 0 := by
  obtain rfl := h.exact room
  have hzero : stream.count a = 0 := Nat.le_zero.mp (h.absent a new)
  have hself : (stream ++ [a]).count a = 1 := by rw [count_concat_self, hzero]
  have hne : ∀ e ∈ l, a ≠ e.1 := by
    rintro e he rfl
    exact new (mem_map.mpr ⟨e, he, rfl⟩)
  have hcases : ∀ e ∈ l', e = (a, 1) ∨ e ∈ l := fun e he => mem_cons.mp (after.mem_iff.mp he)
  refine ⟨fun e he => ?_, fun e he => ?_, fun b hb => ?_, fun _ _ => Nat.zero_le _, fun _ => rfl⟩
  · rcases hcases e he with rfl | he
    · exact hself.le
    · exact (h.kept he (hne e he) (Nat.le_refl 0)).1
  · rcases hcases e he with rfl | he
    · exact hself.ge
    · exact (h.kept he (hne e he) (Nat.le_refl 0)).2
  · rw [(after.map _).mem_iff, map_cons, mem_cons, not_or] at hb
    rw [count_concat_of_ne (Ne.symm hb.1)]
    exact h.absent b hb.2

/-- What takes over the least counter may have occurred as often as that counter shows, and so may
the element that loses it. -/
theorem Within.replaced {rest : List (α × Nat)} {b : α} {least : Nat} (new : a ∉ l.map Prod.fst)
    (full : k ≤ l.length) (before : l.Perm ((b, least) :: rest)) (min : ∀ e ∈ l, least ≤ e.2)
    (after : l'.Perm ((a, least + 1) :: rest)) : Within k (stream ++ [a]) l' least := by
  have hold : (b, least) ∈ l := before.mem_iff.mpr mem_cons_self
  have hslack : slack ≤ least := h.below _ hold
  have hrest : ∀ e ∈ rest, e ∈ l := fun e he => before.mem_iff.mpr (mem_cons_of_mem _ he)
  have hne : ∀ e ∈ rest, a ≠ e.1 := by
    rintro e he rfl
    exact new (mem_map.mpr ⟨e, hrest e he, rfl⟩)
  have hself := count_concat_self stream a
  have hseen : stream.count a ≤ slack := h.absent a new
  have hcases : ∀ e ∈ l', e = (a, least + 1) ∨ e ∈ rest := fun e he =>
    mem_cons.mp (after.mem_iff.mp he)
  refine ⟨fun e he => ?_, fun e he => ?_, fun c hc => ?_, fun e he => ?_, fun hlen => ?_⟩
  · rcases hcases e he with rfl | he
    · simp only [hself]
      omega
    · exact (h.kept (hrest e he) (hne e he) hslack).1
  · rcases hcases e he with rfl | he
    · simp only [hself]
      omega
    · exact (h.kept (hrest e he) (hne e he) hslack).2
  · rw [(after.map _).mem_iff, map_cons, mem_cons, not_or] at hc
    rw [count_concat_of_ne (Ne.symm hc.1)]
    by_cases hcb : c = b
    · rw [hcb]
      exact h.least _ hold
    · refine (h.absent c fun hin => ?_).trans hslack
      rcases mem_cons.mp ((before.map Prod.fst).mem_iff.mp hin) with hin | hin
      · exact hcb hin
      · exact hc.2 hin
  · rcases hcases e he with rfl | he
    · exact Nat.le_succ least
    · exact min e (hrest e he)
  · rw [after.length_eq, length_cons] at hlen
    rw [before.length_eq, length_cons] at full
    omega

end

theorem Step.within (hstep : Step k a l l') (hnodup : (l.map Prod.fst).Nodup)
    (h : Within k stream l slack) : ∃ slack', Within k (stream ++ [a]) l' slack' := by
  cases hstep with
  | counted before after => exact ⟨slack, h.counted hnodup before after⟩
  | added new room after => exact ⟨0, h.added new room after⟩
  | replaced new full before min after => exact ⟨_, h.replaced new full before min after⟩

end Error

end Summary
