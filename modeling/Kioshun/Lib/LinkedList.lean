import Mathlib.Data.List.Chain
import Mathlib.Data.List.Nodup
import Mathlib.Logic.Function.Basic

/-!
# Doubly linked paths through a store of cells

A path is the list of cells it visits. The two pointer fields of the store are
plain functions, and pointer assignments are function updates, so the results
apply to any record layout. A path may return to its first cell: only the
sources of its links, and only their targets, are required to be distinct.
This covers sentinel-terminated lists and circular lists alike.
-/

namespace LinkedList
open Function List

universe u
variable {α : Type u}

/-- Consecutive cells of the path point at each other. -/
def Linked (nxt prv : α → Option α) (l : List α) : Prop :=
  l.IsChain fun a b => nxt a = some b ∧ prv b = some a

/-- A linked path whose links have distinct sources and distinct targets. -/
structure Path (nxt prv : α → Option α) (l : List α) : Prop where
  linked : Linked nxt prv l
  sources : l.dropLast.Nodup
  targets : l.tail.Nodup

variable {nxt prv nxt' prv' : α → Option α}

theorem Linked.congr {l : List α} (h : Linked nxt prv l) (hn : ∀ a ∈ l.dropLast, nxt' a = nxt a)
    (hp : ∀ a ∈ l.tail, prv' a = prv a) : Linked nxt' prv' l := by
  induction l with
  | nil => exact List.IsChain.nil
  | cons a l ih =>
    cases l with
    | nil => exact List.IsChain.singleton a
    | cons b l =>
      obtain ⟨hab, hl⟩ := isChain_cons_cons.mp h
      refine isChain_cons_cons.mpr ⟨⟨?_, ?_⟩, ih hl ?_ ?_⟩
      · exact (hn a (by simp)).trans hab.1
      · exact (hp b (by simp)).trans hab.2
      · exact fun c hc => hn c (by simpa using .inr hc)
      · exact fun c hc => hp c (by simpa using .inr hc)

variable {nxt prv : α → Option α} {l₁ l₂ : List α}

theorem linked_split {a b : α} :
    Linked nxt prv (l₁ ++ a :: b :: l₂) ↔
      Linked nxt prv (l₁ ++ [a]) ∧ (nxt a = some b ∧ prv b = some a) ∧
        Linked nxt prv (b :: l₂) :=
  isChain_append_cons_cons

theorem Path.next {a b : α} (h : Path nxt prv (l₁ ++ a :: b :: l₂)) : nxt a = some b :=
  (linked_split.mp h.linked).2.1.1

theorem Path.prev {a b : α} (h : Path nxt prv (l₁ ++ a :: b :: l₂)) : prv b = some a :=
  (linked_split.mp h.linked).2.1.2

/-- A path depends only on the pointers stored in its own cells. -/
theorem Path.congr {l : List α} (h : Path nxt prv l) (hn : ∀ a ∈ l, nxt' a = nxt a)
    (hp : ∀ a ∈ l, prv' a = prv a) : Path nxt' prv' l where
  linked := h.linked.congr (fun a ha => hn a (dropLast_subset _ ha))
    (fun a ha => hp a (mem_of_mem_tail ha))
  sources := h.sources
  targets := h.targets

section Split

variable {l₁ l₂ : List α} {a b : α}

theorem dropLast_split : (l₁ ++ a :: b :: l₂).dropLast = l₁ ++ a :: (b :: l₂).dropLast := by
  simp [dropLast_append_of_ne_nil]

theorem tail_split : (l₁ ++ a :: b :: l₂).tail = (l₁ ++ [a]).tail ++ b :: l₂ := by
  cases l₁ <;> simp

theorem mem_split_of_mem_tail {c : α} (h : c ∈ (l₁ ++ [a]).tail) : c ∈ l₁ ++ a :: b :: l₂ := by
  have hc : c ∈ l₁ ++ [a] := mem_of_mem_tail h
  simp only [mem_append, mem_cons, not_mem_nil, or_false] at hc ⊢
  tauto

end Split

/-- What follows a cell, up to and including the end of the path. -/
theorem exists_front (l : List α) (e : α) : ∃ b r, l ++ [e] = b :: r := by
  cases l with
  | nil => exact ⟨e, [], rfl⟩
  | cons b l => exact ⟨b, l ++ [e], rfl⟩

/-- What precedes a cell, from the start of the path. -/
theorem exists_back (s : α) (l : List α) : ∃ m a, s :: l = m ++ [a] := by
  rcases eq_nil_or_concat (s :: l) with h | ⟨m, a, h⟩
  · cases h
  · exact ⟨m, a, by simpa using h⟩

variable [DecidableEq α]

theorem Path.insert {a b x : α} (h : Path nxt prv (l₁ ++ a :: b :: l₂))
    (hx : x ∉ l₁ ++ a :: b :: l₂) :
    Path (update (update nxt a (some x)) x (some b))
      (update (update prv x (some a)) b (some x))
      (l₁ ++ a :: x :: b :: l₂) := by
  obtain ⟨hl, -, hr⟩ := linked_split.mp h.linked
  have hs := h.sources
  have ht := h.targets
  rw [dropLast_split] at hs
  rw [tail_split] at ht
  have hxa : x ≠ a := by rintro rfl; simp at hx
  have hxb : x ≠ b := by rintro rfl; simp at hx
  have hs' := nodup_append.mp hs
  have ht' := nodup_append.mp ht
  refine ⟨linked_split.mpr ⟨?_, ⟨?_, ?_⟩, ?_⟩, ?_, ?_⟩
  · refine hl.congr ?_ ?_
    · intro c hc
      have hc : c ∈ l₁ := by simpa using hc
      have hca : c ≠ a := hs'.2.2 c hc a (by simp)
      have hcx : c ≠ x := by rintro rfl; exact hx (by simp [hc])
      simp [hca, hcx]
    · intro c hc
      have hcb : c ≠ b := ht'.2.2 c hc b (by simp)
      have hcx : c ≠ x := by rintro rfl; exact hx (mem_split_of_mem_tail hc)
      simp [hcb, hcx]
  · simp [update_of_ne hxa.symm]
  · simp [update_of_ne hxb]
  · refine isChain_cons_cons.mpr ⟨⟨by simp, by simp⟩, hr.congr ?_ ?_⟩
    · intro c hc
      have hca : c ≠ a := by
        rintro rfl
        exact (nodup_cons.mp hs'.2.1).1 hc
      have hcx : c ≠ x := by
        rintro rfl
        have hm := dropLast_subset _ hc
        exact hx (mem_append_right _ (mem_cons_of_mem _ hm))
      simp [hca, hcx]
    · intro c hc
      have hc : c ∈ l₂ := hc
      have hcb : c ≠ b := by
        rintro rfl
        exact (nodup_cons.mp ht'.2.1).1 hc
      have hcx : c ≠ x := by rintro rfl; exact hx (by simp [hc])
      simp [hcb, hcx]
  · rw [dropLast_split]
    have hm : x ∉ l₁ ++ a :: (b :: l₂).dropLast := by
      rw [← dropLast_split]
      exact fun hc => hx (dropLast_subset _ hc)
    have hd : (x :: b :: l₂).dropLast = x :: (b :: l₂).dropLast := rfl
    rw [hd]
    have hp : (l₁ ++ a :: x :: (b :: l₂).dropLast).Perm (x :: (l₁ ++ a :: (b :: l₂).dropLast)) := by
      have hmid : (l₁ ++ [a] ++ x :: (b :: l₂).dropLast).Perm
          (x :: (l₁ ++ [a] ++ (b :: l₂).dropLast)) := perm_middle
      simpa using hmid
    exact hp.nodup_iff.mpr (nodup_cons.mpr ⟨hm, hs⟩)
  · rw [tail_split]
    have hm : x ∉ (l₁ ++ [a]).tail ++ b :: l₂ := by
      rw [← tail_split]
      exact fun hc => hx (mem_of_mem_tail hc)
    exact perm_middle.nodup_iff.mpr (nodup_cons.mpr ⟨hm, ht⟩)

theorem Path.remove {a b x : α} (h : Path nxt prv (l₁ ++ a :: x :: b :: l₂)) :
    Path (update nxt a (some b)) (update prv b (some a))
      (l₁ ++ a :: b :: l₂) := by
  obtain ⟨hl, -, hr⟩ := linked_split.mp h.linked
  obtain ⟨-, hr⟩ := isChain_cons_cons.mp hr
  have hs := h.sources
  have ht := h.targets
  rw [dropLast_split] at hs
  rw [tail_split] at ht
  have hs' := nodup_append.mp hs
  have ht' := nodup_append.mp ht
  refine ⟨linked_split.mpr ⟨?_, ⟨by simp, by simp⟩, ?_⟩, ?_, ?_⟩
  · refine hl.congr ?_ ?_
    · intro c hc
      have hc : c ∈ l₁ := by simpa using hc
      have hca : c ≠ a := hs'.2.2 c hc a (by simp)
      simp [hca]
    · intro c hc
      have hcb : c ≠ b := ht'.2.2 c hc b (by simp)
      simp [hcb]
  · refine Linked.congr hr ?_ ?_
    · intro c hc
      have hca : c ≠ a := by
        rintro rfl
        exact (nodup_cons.mp hs'.2.1).1 (mem_cons_of_mem _ hc)
      simp [hca]
    · intro c hc
      have hcb : c ≠ b := by
        rintro rfl
        exact (nodup_cons.mp (nodup_cons.mp ht'.2.1).2).1 hc
      simp [hcb]
  · rw [dropLast_split]
    refine hs.sublist (List.Sublist.append_left ?_ l₁)
    exact List.Sublist.cons_cons a (sublist_cons_self x _)
  · rw [tail_split]
    exact ht.sublist (List.Sublist.append_left (sublist_cons_self x _) _)

end LinkedList
