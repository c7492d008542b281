import Mathlib.Order.Lattice
import Mathlib.Tactic.TypeStar

/-!
# Heaps behind an interface

The sifting of `container/heap` on a state that can compare and swap the elements
at two positions. Whatever swaps of positions below a bound preserve is preserved
by sifting below that bound. If the comparison is one of keys, sifting puts them in
heap order again.
-/

namespace Heap

universe u v

/-- `heap.Interface` without `Push` and `Pop`. -/
structure Interface (σ : Type u) where
  Len : σ → Nat
  Less : σ → Nat → Nat → Bool
  Swap : σ → Nat → Nat → σ

variable {σ : Type u}

/-- `up`; the position halves, so that fuel for every position is enough. -/
def up (h : Interface σ) : Nat → σ → Nat → σ
  | 0, s, _ => s
  | fuel + 1, s, j =>
    let i := (j - 1) / 2
    if i = j ∨ h.Less s j i = false then s else up h fuel (h.Swap s i j) i

/-- The smaller child of `i` below `n`, if it has two. -/
def child (h : Interface σ) (s : σ) (n i : Nat) : Nat :=
  if 2 * i + 2 < n ∧ h.Less s (2 * i + 2) (2 * i + 1) = true then 2 * i + 2 else 2 * i + 1

/-- The loop of `down`, with the position it ends at. -/
def down (h : Interface σ) (n : Nat) : Nat → σ → Nat → σ × Nat
  | 0, s, i => (s, i)
  | fuel + 1, s, i =>
    if n ≤ 2 * i + 1 then (s, i)
    else
      let j := child h s n i
      if h.Less s j i = false then (s, i) else down h n fuel (h.Swap s i j) j

/-- `Push` after the element has been appended. -/
def siftLast (h : Interface σ) (s : σ) : σ := up h (h.Len s) s (h.Len s - 1)

/-- `Pop` up to the removal of the last element. -/
def sinkFirst (h : Interface σ) (s : σ) : σ :=
  let n := h.Len s - 1
  (down h n n (h.Swap s 0 n) 0).1

/-- `Remove` up to the removal of the last element. -/
def sinkAt (h : Interface σ) (s : σ) (i : Nat) : σ :=
  let n := h.Len s - 1
  if n = i then s
  else
    let r := down h n n (h.Swap s i n) i
    if i < r.2 then r.1 else up h n r.1 i

section Rules
variable {h : Interface σ} {P : σ → Prop} {n : Nat}

/-- What swaps below `n` preserve. -/
def Kept (h : Interface σ) (n : Nat) (P : σ → Prop) : Prop :=
  ∀ s i j, i < n → j < n → P s → P (h.Swap s i j)

variable {s : σ}

theorem up_kept (hk : Kept h n P) (fuel : Nat) {j : Nat} (hj : j < n) (hs : P s) :
    P (up h fuel s j) := by
  induction fuel generalizing s j with
  | zero => exact hs
  | succ fuel ih =>
    simp only [up]
    split
    · exact hs
    · have hi : (j - 1) / 2 < n := by omega
      exact ih hi (hk s _ j hi hj hs)

theorem child_lt {i : Nat} (hi : ¬ n ≤ 2 * i + 1) : child h s n i < n := by
  unfold child
  split <;> omega

theorem down_kept (hk : Kept h n P) (fuel : Nat) {i : Nat} (hi : i < n) (hs : P s) :
    P (down h n fuel s i).1 := by
  induction fuel generalizing s i with
  | zero => exact hs
  | succ fuel ih =>
    simp only [down]
    split
    · exact hs
    · rename_i hn
      split
      · exact hs
      · exact ih (child_lt hn) (hk s i _ hi (child_lt hn) hs)

theorem siftLast_kept (hk : Kept h (h.Len s) P) (hpos : 0 < h.Len s) (hs : P s) :
    P (siftLast h s) := up_kept hk _ (by omega) hs

/-- The first element is swapped to the end, and then only those before it move. -/
theorem sinkFirst_kept (hk : Kept h (h.Len s - 1) P) (hs : P (h.Swap s 0 (h.Len s - 1))) :
    P (sinkFirst h s) := by
  rcases Nat.eq_zero_or_pos (h.Len s - 1) with hzero | hpos
  · simp only [sinkFirst, hzero, down] at hs ⊢
    exact hs
  · exact down_kept hk _ hpos hs

theorem sinkAt_kept {i : Nat} (hi : i < h.Len s) (hk : Kept h (h.Len s - 1) P)
    (hlast : h.Len s - 1 = i → P s) (hs : h.Len s - 1 ≠ i → P (h.Swap s i (h.Len s - 1))) :
    P (sinkAt h s i) := by
  simp only [sinkAt]
  split
  · exact hlast ‹_›
  · rename_i hne
    have hlt : i < h.Len s - 1 := by omega
    have hdown := down_kept hk (h.Len s - 1) hlt (hs hne)
    split
    · exact hdown
    · exact up_kept hk _ hlt hdown

/-- A relation between two heaps that sifting preserves, because it finds them alike. -/
structure Simulates {τ : Type v} (h : Interface σ) (h' : Interface τ) (R : σ → τ → Prop) :
    Prop where
  len : ∀ {s t}, R s t → h'.Len t = h.Len s
  less : ∀ {s t}, R s t → ∀ i j, h'.Less t i j = h.Less s i j
  swap : ∀ {s t}, R s t → ∀ i j, R (h.Swap s i j) (h'.Swap t i j)

variable {τ : Type v} {h' : Interface τ} {R : σ → τ → Prop} {t : τ}

theorem up_simulates (hR : Simulates h h' R) (fuel : Nat) (j : Nat) (hst : R s t) :
    R (up h fuel s j) (up h' fuel t j) := by
  induction fuel generalizing s t j with
  | zero => exact hst
  | succ fuel ih =>
    simp only [up, hR.less hst]
    split_ifs
    · exact hst
    · exact ih _ (hR.swap hst _ _)

theorem down_simulates (hR : Simulates h h' R) (fuel : Nat) (i : Nat) (hst : R s t) :
    R (down h n fuel s i).1 (down h' n fuel t i).1 := by
  induction fuel generalizing s t i with
  | zero => exact hst
  | succ fuel ih =>
    have hchild : child h' t n i = child h s n i := by simp only [child, hR.less hst]
    simp only [down, hchild, hR.less hst]
    split_ifs
    · exact hst
    · exact hst
    · exact ih _ (hR.swap hst _ _)

theorem siftLast_simulates (hR : Simulates h h' R) (hst : R s t) :
    R (siftLast h s) (siftLast h' t) := by
  rw [siftLast, siftLast, hR.len hst]
  exact up_simulates hR _ _ hst

theorem sinkFirst_simulates (hR : Simulates h h' R) (hst : R s t) :
    R (sinkFirst h s) (sinkFirst h' t) := by
  simp only [sinkFirst, hR.len hst]
  exact down_simulates hR _ _ (hR.swap hst _ _)

end Rules

section Order
variable {κ : Type v} {f : Nat → κ} {n i j : Nat}

/-- The keys after a swap. -/
def exchange (f : Nat → κ) (i j : Nat) : Nat → κ :=
  fun k => if k = i then f j else if k = j then f i else f k

theorem exchange_left (f : Nat → κ) (i j : Nat) : exchange f i j i = f j := if_pos rfl

theorem exchange_right (f : Nat → κ) (i j : Nat) : exchange f i j j = f i := by
  by_cases h : j = i
  · rw [h, exchange_left]
  · rw [exchange, if_neg h, if_pos rfl]

theorem exchange_of_ne {k : Nat} (hi : k ≠ i) (hj : k ≠ j) : exchange f i j k = f k := by
  rw [exchange, if_neg hi, if_neg hj]

variable [LinearOrder κ]

/-- No key below `n` is smaller than that of its parent. -/
def Ordered (f : Nat → κ) (n : Nat) : Prop := ∀ k, 0 < k → k < n → f ((k - 1) / 2) ≤ f k

/-- The first key is the least one. -/
theorem Ordered.first_le (h : Ordered f n) (hi : i < n) : f 0 ≤ f i := by
  induction i using Nat.strong_induction_on with
  | _ i ih =>
    rcases Nat.eq_zero_or_pos i with rfl | hpos
    · exact le_rfl
    · exact (ih ((i - 1) / 2) (by omega) (by omega)).trans (h i hpos hi)

/-- The pairs of parent and child that do not touch `i` are in order, and the children of `i` are
in order with the parent of `i`. -/
structure OrderedBut (f : Nat → κ) (n i : Nat) : Prop where
  apart : ∀ k, 0 < k → k < n → k ≠ i → (k - 1) / 2 ≠ i → f ((k - 1) / 2) ≤ f k
  grand : 0 < i → ∀ k, 0 < k → k < n → (k - 1) / 2 = i → f ((i - 1) / 2) ≤ f k

/-- The key at `i` is not greater than those of its children. -/
def AboveChildren (f : Nat → κ) (n i : Nat) : Prop :=
  ∀ k, 0 < k → k < n → (k - 1) / 2 = i → f i ≤ f k

/-- The three ways to be in order at `i`. -/
theorem OrderedBut.ordered (h : OrderedBut f n i) (hbelow : AboveChildren f n i)
    (habove : 0 < i → f ((i - 1) / 2) ≤ f i) : Ordered f n := by
  intro k hpos hk
  by_cases hki : k = i
  · subst hki
    exact habove hpos
  · by_cases hparent : (k - 1) / 2 = i
    · rw [hparent]
      exact hbelow k hpos hk hparent
    · exact h.apart k hpos hk hki hparent

theorem Ordered.but (h : Ordered f n) (hi : i < n) : OrderedBut f n i := by
  constructor
  · intro k hpos hk _ _
    exact h k hpos hk
  · intro hpos k hkpos hk hparent
    have hfirst := h i hpos hi
    have hsecond := h k hkpos hk
    rw [hparent] at hsecond
    exact hfirst.trans hsecond

theorem OrderedBut.move_up (h : OrderedBut f n j) (hbelow : AboveChildren f n j) (hpos : 0 < j)
    (hj : j < n) (hless : f j < f ((j - 1) / 2)) :
    OrderedBut (exchange f ((j - 1) / 2) j) n ((j - 1) / 2) ∧
      AboveChildren (exchange f ((j - 1) / 2) j) n ((j - 1) / 2) := by
  have hsibling : ∀ k, 0 < k → k < n → (k - 1) / 2 = (j - 1) / 2 → k ≠ j →
      f ((j - 1) / 2) ≤ f k := by
    intro k hkpos hk hparent hkj
    have hle := h.apart k hkpos hk hkj (by omega)
    rwa [hparent] at hle
  refine ⟨⟨?_, ?_⟩, ?_⟩
  · intro k hkpos hk hki hparent
    have hkj : k ≠ j := by
      rintro rfl
      exact hparent rfl
    rw [exchange_of_ne hki hkj]
    by_cases hchild : (k - 1) / 2 = j
    · rw [hchild, exchange_right]
      exact h.grand hpos k hkpos hk hchild
    · rw [exchange_of_ne hparent hchild]
      exact h.apart k hkpos hk hkj hchild
  · intro hipos k hkpos hk hparent
    have hup := h.apart ((j - 1) / 2) hipos (by omega) (by omega) (by omega)
    rw [exchange_of_ne (by omega) (by omega)]
    by_cases hkj : k = j
    · rw [hkj, exchange_right]
      exact hup
    · rw [exchange_of_ne (by omega) hkj]
      exact hup.trans (hsibling k hkpos hk hparent hkj)
  · intro k hkpos hk hparent
    rw [exchange_left]
    by_cases hkj : k = j
    · rw [hkj, exchange_right]
      exact hless.le
    · rw [exchange_of_ne (by omega) hkj]
      exact hless.le.trans (hsibling k hkpos hk hparent hkj)

theorem OrderedBut.move_down (h : OrderedBut f n i) (hpos : 0 < j) (hj : j < n)
    (hparent : (j - 1) / 2 = i) (hmin : ∀ k, 0 < k → k < n → (k - 1) / 2 = i → f j ≤ f k)
    (hless : f j < f i) :
    OrderedBut (exchange f i j) n j ∧ exchange f i j ((j - 1) / 2) ≤ exchange f i j j := by
  have hij : i < j := by omega
  refine ⟨⟨?_, ?_⟩, ?_⟩
  · intro k hkpos hk hkj hchild
    by_cases hki : k = i
    · subst hki
      rw [exchange_left, exchange_of_ne (by omega) (by omega)]
      exact h.grand hkpos j hpos hj hparent
    · rw [exchange_of_ne hki hkj]
      by_cases hsibling : (k - 1) / 2 = i
      · rw [hsibling, exchange_left]
        exact hmin k hkpos hk hsibling
      · rw [exchange_of_ne hsibling hchild]
        exact h.apart k hkpos hk hki hsibling
  · intro _ k hkpos hk hchild
    rw [hparent, exchange_left, exchange_of_ne (by omega) (by omega), ← hchild]
    exact h.apart k hkpos hk (by omega) (by omega)
  · rw [hparent, exchange_left, exchange_right]
    exact hless.le

structure Keyed (h : Interface σ) (key : σ → Nat → κ) : Prop where
  less : ∀ s i j, i < h.Len s → j < h.Len s → (h.Less s i j = true ↔ key s i < key s j)
  len : ∀ s i j, i < h.Len s → j < h.Len s → h.Len (h.Swap s i j) = h.Len s
  swap : ∀ s i j, i < h.Len s → j < h.Len s → key (h.Swap s i j) = exchange (key s) i j

variable {h : Interface σ} {key : σ → Nat → κ} {s : σ}

/-- What sifting up below `n` comes to. -/
theorem up_ordered (hk : Keyed h key) (fuel : Nat) (hfuel : j ≤ fuel) (hn : n ≤ h.Len s)
    (hj : j < n) (hbut : OrderedBut (key s) n j) (hbelow : AboveChildren (key s) n j) :
    Ordered (key (up h fuel s j)) n := by
  induction fuel generalizing s j with
  | zero => exact hbut.ordered hbelow fun hpos => by omega
  | succ fuel ih =>
    have hlen : (j - 1) / 2 < h.Len s := by omega
    simp only [up]
    split_ifs with hstop
    · refine hbut.ordered hbelow fun hpos => ?_
      rcases hstop with hroot | hless
      · omega
      · have hnot : ¬ key s j < key s ((j - 1) / 2) := by
          rw [← hk.less s j _ (by omega) hlen, hless]
          decide
        exact not_lt.mp hnot
    · rw [not_or] at hstop
      have hless : key s j < key s ((j - 1) / 2) :=
        (hk.less s j _ (by omega) hlen).mp (Bool.not_eq_false _ ▸ hstop.2)
      obtain ⟨hbut', hbelow'⟩ := hbut.move_up hbelow (by omega) hj hless
      rw [← hk.swap s _ j hlen (by omega)] at hbut' hbelow'
      refine ih (by omega) ?_ (by omega) hbut' hbelow'
      rw [hk.len s _ j hlen (by omega)]
      exact hn

/-- The child that `down` compares with. -/
theorem child_spec (hk : Keyed h key) (hn : n ≤ h.Len s) :
    (child h s n i - 1) / 2 = i ∧ 0 < child h s n i ∧
      ∀ k, 0 < k → k < n → (k - 1) / 2 = i → key s (child h s n i) ≤ key s k := by
  unfold child
  split_ifs with hright
  · have hless := (hk.less s _ _ (by omega) (by omega)).mp hright.2
    refine ⟨by omega, by omega, fun k hpos hkn hparent => ?_⟩
    obtain rfl | rfl : k = 2 * i + 1 ∨ k = 2 * i + 2 := by omega
    · exact hless.le
    · exact le_rfl
  · refine ⟨by omega, by omega, fun k hpos hkn hparent => ?_⟩
    obtain rfl | rfl : k = 2 * i + 1 ∨ k = 2 * i + 2 := by omega
    · exact le_rfl
    · refine not_lt.mp fun hlt => hright ⟨hkn, ?_⟩
      exact (hk.less s _ _ (by omega) (by omega)).mpr hlt

/-- One round of `down`: it ends at `i`, or it goes on at a child of `i`. -/
theorem down_round (hk : Keyed h key) (fuel : Nat) (hn : n ≤ h.Len s)
    (hbut : OrderedBut (key s) n i) :
    (down h n (fuel + 1) s i = (s, i) ∧ AboveChildren (key s) n i) ∨
      ∃ s' j, down h n (fuel + 1) s i = down h n fuel s' j ∧ i < j ∧ j < n ∧ n ≤ h.Len s' ∧
        OrderedBut (key s') n j ∧ key s' ((j - 1) / 2) ≤ key s' j := by
  simp only [down]
  split_ifs with hleaf hless
  · refine .inl ⟨rfl, fun k hpos hkn hparent => ?_⟩
    omega
  · obtain ⟨hparent, hpos, hmin⟩ := child_spec (i := i) hk hn
    have hlt := child_lt (h := h) (s := s) hleaf
    have hnot : ¬ key s (child h s n i) < key s i := by
      rw [← hk.less s _ i (by omega) (by omega), hless]
      decide
    exact .inl ⟨rfl, fun k hkpos hkn hk' => (not_lt.mp hnot).trans (hmin k hkpos hkn hk')⟩
  · obtain ⟨hparent, hpos, hmin⟩ := child_spec (i := i) hk hn
    have hlt := child_lt (h := h) (s := s) hleaf
    have hless' : key s (child h s n i) < key s i :=
      (hk.less s _ i (by omega) (by omega)).mp (Bool.not_eq_false _ ▸ hless)
    obtain ⟨hbut', habove⟩ := hbut.move_down hpos hlt hparent hmin hless'
    rw [← hk.swap s i _ (by omega) (by omega)] at hbut' habove
    refine .inr ⟨_, _, rfl, by omega, hlt, ?_, hbut', habove⟩
    rw [hk.len s i _ (by omega) (by omega)]
    exact hn

/-- What sifting down below `n` comes to. -/
theorem down_ordered (hk : Keyed h key) (fuel : Nat) (hfuel : n ≤ i + fuel) (hn : n ≤ h.Len s)
    (hi : i < n) (hbut : OrderedBut (key s) n i) (habove : 0 < i → key s ((i - 1) / 2) ≤ key s i) :
    Ordered (key (down h n fuel s i).1) n := by
  induction fuel generalizing s i with
  | zero => omega
  | succ fuel ih =>
    rcases down_round hk fuel hn hbut with ⟨hend, hbelow⟩ | ⟨s', j, hgo, hij, hj, hn', hbut', hle⟩
    · rw [hend]
      exact hbut.ordered hbelow habove
    · rw [hgo]
      exact ih (by omega) hn' hj hbut' fun _ => hle

theorem le_down (fuel : Nat) (s : σ) (i : Nat) : i ≤ (down h n fuel s i).2 := by
  induction fuel generalizing s i with
  | zero => exact Nat.le_refl i
  | succ fuel ih =>
    simp only [down]
    split_ifs with hleaf hless
    · exact Nat.le_refl i
    · exact Nat.le_refl i
    · have hchild : i ≤ child h s n i := by
        unfold child
        split_ifs <;> omega
      exact hchild.trans (ih _ _)

theorem siftLast_ordered (hk : Keyed h key) (hord : Ordered (key s) (h.Len s - 1)) :
    Ordered (key (siftLast h s)) (h.Len s) := by
  rcases Nat.eq_zero_or_pos (h.Len s) with hzero | hpos
  · intro k hkpos hkn
    omega
  · refine up_ordered hk _ (by omega) le_rfl (by omega) ⟨?_, ?_⟩ ?_
    · intro k hkpos hkn hne _
      exact hord k hkpos (by omega)
    · intro _ k hkpos hkn hparent
      omega
    · intro k hkpos hkn hparent
      omega

/-- A key that was at the end stands at `i`, and whatever was there is at the end. -/
theorem Ordered.exchange_last (hord : Ordered f (n + 1)) (hi : i < n) :
    OrderedBut (exchange f i n) n i := by
  have hbut := hord.but (show i < n + 1 by omega)
  constructor
  · intro k hpos hkn hki hparent
    rw [exchange_of_ne hki (by omega), exchange_of_ne hparent (by omega)]
    exact hord k hpos (by omega)
  · intro hipos k hpos hkn hparent
    rw [exchange_of_ne (by omega) (by omega), exchange_of_ne (by omega) (by omega)]
    exact hbut.grand hipos k hpos (by omega) hparent

theorem sinkFirst_ordered (hk : Keyed h key) (hpos : 0 < h.Len s)
    (hord : Ordered (key s) (h.Len s)) : Ordered (key (sinkFirst h s)) (h.Len s - 1) := by
  rcases Nat.eq_zero_or_pos (h.Len s - 1) with hzero | hmany
  · intro k hkpos hkn
    omega
  · have hlen := hk.len s 0 (h.Len s - 1) hpos (by omega)
    have hord' : Ordered (key s) (h.Len s - 1 + 1) := by
      rwa [Nat.sub_add_cancel hpos]
    have hbut := hord'.exchange_last hmany
    rw [← hk.swap s 0 _ hpos (by omega)] at hbut
    exact down_ordered hk _ (by omega) (by omega) hmany hbut fun hlt => absurd hlt (Nat.lt_irrefl 0)

/-- Either the key at `i` moves down, or it stays and may have to move up. -/
theorem sinkAt_ordered (hk : Keyed h key) (hi : i < h.Len s) (hord : Ordered (key s) (h.Len s)) :
    Ordered (key (sinkAt h s i)) (h.Len s - 1) := by
  simp only [sinkAt]
  by_cases hlast : h.Len s - 1 = i
  · rw [if_pos hlast]
    intro k hkpos hkn
    exact hord k hkpos (by omega)
  rw [if_neg hlast]
  have hlt : i < h.Len s - 1 := by omega
  have hord' : Ordered (key s) (h.Len s - 1 + 1) := by
    rwa [Nat.sub_add_cancel (by omega)]
  have hbut := hord'.exchange_last hlt
  have hlen := hk.len s i (h.Len s - 1) hi (by omega)
  rw [← hk.swap s i _ hi (by omega)] at hbut
  generalize h.Swap s i (h.Len s - 1) = s' at hbut hlen
  obtain ⟨fuel, hfuel⟩ : ∃ fuel, h.Len s - 1 = fuel + 1 := ⟨h.Len s - 1 - 1, by omega⟩
  rw [hfuel] at hbut hlt ⊢
  rcases down_round hk fuel (by omega) hbut with
    ⟨hend, hbelow⟩ | ⟨s'', j, hgo, hij, hj, hn', hbut', hle⟩
  · rw [hend, if_neg (Nat.lt_irrefl i)]
    change Ordered (key (up h (fuel + 1) s' i)) (fuel + 1)
    exact up_ordered hk _ (by omega) (by omega) hlt hbut hbelow
  · have hmoved : i < (down h (fuel + 1) fuel s'' j).2 :=
      Nat.lt_of_lt_of_le hij (le_down fuel s'' j)
    rw [hgo, if_pos hmoved]
    exact down_ordered hk _ (by omega) hn' hj hbut' fun _ => hle

end Order

end Heap
