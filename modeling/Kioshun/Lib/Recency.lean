import Mathlib.Data.List.Nodup

/-!
# Lists kept by recency

A list is `Ranked` if the time stamps of its members decrease from front to back
and none lies in the future. Stamping a member with the next time and moving it
to the front keeps a list ranked, and so does dropping members; the member at the
back is the one with the oldest stamp.
-/

namespace Recency

universe u
variable {α : Type u}

structure Ranked (stamp : α → Nat) (now : Nat) (l : List α) : Prop where
  sorted : l.Pairwise fun a b => stamp b < stamp a
  past : ∀ a ∈ l, stamp a ≤ now

namespace Ranked
variable {stamp stamp' : α → Nat} {now now' : Nat} {l l' : List α} {a : α}

theorem nil : Ranked stamp now [] := ⟨List.Pairwise.nil, by simp⟩

section
variable (h : Ranked stamp now l)
include h

theorem nodup : l.Nodup := by
  apply h.sorted.imp
  intro a b hlt he
  subst he
  exact Nat.lt_irrefl _ hlt

theorem sublist (hs : l'.Sublist l) : Ranked stamp now l' :=
  ⟨h.sorted.sublist hs, fun a ha => h.past a (hs.subset ha)⟩

/-- Only the stamps of the members count. -/
theorem congr (hs : ∀ a ∈ l, stamp' a = stamp a) (hle : now ≤ now') : Ranked stamp' now' l where
  sorted := by
    refine h.sorted.imp_of_mem fun ha hb hlt => ?_
    rw [hs _ ha, hs _ hb]
    exact hlt
  past := by
    intro a ha
    rw [hs a ha]
    exact Nat.le_trans (h.past a ha) hle

/-- What is stamped with the next time comes first. -/
theorem push (hl : l'.Sublist l) (hs : ∀ b ∈ l', stamp' b = stamp b) (ha : stamp' a = now + 1) :
    Ranked stamp' (now + 1) (a :: l') where
  sorted := by
    refine List.pairwise_cons.mpr
      ⟨fun b hb => ?_, ((h.sublist hl).congr hs (Nat.le_refl now)).sorted⟩
    have hpast := h.past b (hl.subset hb)
    rw [hs b hb, ha]
    omega
  past := by
    intro b hb
    rcases List.mem_cons.mp hb with rfl | hb
    · exact Nat.le_of_eq ha
    · have hpast := h.past b (hl.subset hb)
      rw [hs b hb]
      omega

end

/-- The member at the back has the oldest stamp. -/
theorem last_oldest {v : α} (h : Ranked stamp now (l ++ [v])) (ha : a ∈ l ++ [v]) (hne : a ≠ v) :
    stamp v < stamp a := by
  rcases List.mem_append.mp ha with ha | ha
  · exact (List.pairwise_append.mp h.sorted).2.2 a ha v (List.mem_singleton.mpr rfl)
  · exact absurd (List.mem_singleton.mp ha) hne

end Ranked

end Recency
