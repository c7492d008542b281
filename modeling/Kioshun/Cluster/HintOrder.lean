import Kioshun.Cluster.HandoffSpec
import Mathlib.Algebra.BigOperators.Group.List.Basic

/-!
# Inside the queue of hints

The delayed hints are a heap by the time at which they are due, and moving a hint
between the containers keeps it one. The index has the queued hints by their keys.
-/

namespace Kioshun
open Function List

namespace HintQueue
variable {q q' : HintQueue} {p a e i j : Nat}

def dueAt (q : HintQueue) (i : Nat) : Int := (q.delayed[i]?.map fun p => (q.item p).nextAt).getD 0

def Ordered (q : HintQueue) : Prop := Heap.Ordered q.dueAt q.delayed.length

theorem dueAt_of_getElem? (hi : q.delayed[i]? = some p) : q.dueAt i = (q.item p).nextAt := by
  simp only [dueAt, hi, Option.map_some, Option.getD_some]

theorem nextAt_delayedSwap (hi : i < q.delayed.length) (hj : j < q.delayed.length) (p : Nat) :
    ((q.delayedSwap i j).item p).nextAt = (q.item p).nextAt := by
  rw [item_swap (getElem?_eq_getElem hi) (getElem?_eq_getElem hj)]
  split_ifs <;> rfl

theorem delayHeap_keyed : Heap.Keyed delayHeap dueAt where
  less := by
    intro q i j hi hj
    have ha := getElem?_eq_getElem hi
    have hb := getElem?_eq_getElem hj
    show q.delayedLess i j = true ↔ _
    simp only [delayedLess, ha, hb, decide_eq_true_eq, dueAt_of_getElem? ha, dueAt_of_getElem? hb]
  len := fun _ _ _ hi hj => length_delayedSwap hi hj
  swap := by
    intro q i j hi hj
    funext k
    have ha := getElem?_eq_getElem hi
    have hb := getElem?_eq_getElem hj
    have hkey : ∀ p, ((q.delayedSwap i j).item p).nextAt = (q.item p).nextAt :=
      nextAt_delayedSwap hi hj
    show (q.delayedSwap i j).dueAt k = _
    rw [dueAt, delayed_swap ha hb, getElem?_swap ha hb]
    by_cases hki : k = i
    · subst hki
      rw [Heap.exchange_left, dueAt_of_getElem? hb]
      by_cases hkj : k = j
      · subst hkj
        simp only [if_true, Option.map_some, Option.getD_some, hkey]
      · simp only [if_neg hkj, if_true, Option.map_some, Option.getD_some, hkey]
    · by_cases hkj : k = j
      · subst hkj
        rw [Heap.exchange_right, dueAt_of_getElem? ha]
        simp only [if_true, Option.map_some, Option.getD_some, hkey]
      · rw [Heap.exchange_of_ne hki hkj]
        simp only [if_neg hki, if_neg hkj, hkey, dueAt]

/-- The order depends on nothing but the delayed hints and their times. -/
theorem Ordered.congr (h : q.Ordered) (hlen : q'.delayed.length = q.delayed.length)
    (hdue : ∀ i < q.delayed.length, q'.dueAt i = q.dueAt i) : q'.Ordered := by
  intro k hpos hk
  rw [hlen] at hk
  rw [hdue k hk, hdue _ (by omega)]
  exact h k hpos hk

theorem Ordered.same (h : q.Ordered) (hdelayed : q'.delayed = q.delayed)
    (hnext : ∀ p ∈ q.delayed, (q'.item p).nextAt = (q.item p).nextAt) : q'.Ordered := by
  refine h.congr (by rw [hdelayed]) fun i hi => ?_
  have hp := getElem?_eq_getElem hi
  have hp' : q'.delayed[i]? = some q.delayed[i] := by rw [hdelayed, hp]
  rw [dueAt_of_getElem? hp', dueAt_of_getElem? hp, hnext _ (getElem_mem hi)]

section Sifting
variable {s : HintQueue}

theorem popLast_length (hs : Sifted q s) : s.popLast.2.delayed.length = q.delayed.length - 1 := by
  rw [popLast, ← hs.length]
  cases hlast : s.delayed.getLast? with
  | none => simp [fault, getLast?_eq_none_iff.mp hlast]
  | some p => simp only [assign, length_dropLast]

/-- The heap without its last hint, after sifting. -/
theorem popLast_ordered (hs : Sifted q s)
    (hord : Heap.Ordered s.dueAt (q.delayed.length - 1)) : s.popLast.2.Ordered := by
  have hdue : ∀ k < q.delayed.length - 1, s.popLast.2.dueAt k = s.dueAt k := by
    intro k hk
    have hlt : s.delayed.length - 1 < s.delayed.length := by
      rw [hs.length]
      omega
    have hlast : s.delayed.getLast? = some s.delayed[s.delayed.length - 1] := by
      rw [getLast?_eq_getElem?, getElem?_eq_getElem hlt]
    have hnext : ∀ x, (s.popLast.2.item x).nextAt = (s.item x).nextAt := by
      intro x
      simp only [popLast, hlast, assign, update_apply]
      split_ifs with hx
      · rw [hx]
      · rfl
    have hdelayed : s.popLast.2.delayed = s.delayed.dropLast := by
      simp only [popLast, hlast, assign]
    simp only [dueAt, hdelayed, getElem?_dropLast, hnext, hs.length, hk, if_true]
  intro k hkpos hk
  rw [popLast_length hs] at hk
  rw [hdue k hk, hdue _ (by omega)]
  exact hord k hkpos hk

theorem sinkFirst_sifted (h : q.Placed) (hpos : 0 < q.delayed.length) :
    Sifted q (Heap.sinkFirst delayHeap q) :=
  Heap.sinkFirst_kept (sifted_kept (Nat.sub_le _ _))
    ((Sifted.refl h).swap hpos (show q.delayed.length - 1 < _ by omega))

theorem heapPop_ordered (h : q.Placed) (hord : q.Ordered) (hpos : 0 < q.delayed.length) :
    q.heapPop.2.Ordered :=
  popLast_ordered (sinkFirst_sifted h hpos) (Heap.sinkFirst_ordered delayHeap_keyed hpos hord)

theorem heapPop_length (h : q.Placed) (hpos : 0 < q.delayed.length) :
    q.heapPop.2.delayed.length = q.delayed.length - 1 :=
  popLast_length (sinkFirst_sifted h hpos)

theorem heapRemove_ordered (h : q.Placed) (hord : q.Ordered) (hi : i < q.delayed.length) :
    (q.heapRemove i).Ordered :=
  popLast_ordered (Heap.sinkAt_kept hi (sifted_kept (Nat.sub_le _ _)) (fun _ => Sifted.refl h)
    fun _ => (Sifted.refl h).swap hi (show q.delayed.length - 1 < _ by omega))
    (Heap.sinkAt_ordered delayHeap_keyed hi hord)

end Sifting

theorem takeOut_ordered (h : q.Placed) (hord : q.Ordered) (hp : q.Queued p) :
    (q.takeOut p).Ordered := by
  rcases hp with ⟨e, he, rfl⟩ | hp
  · simp only [takeOut, (h.ready e he).1]
    exact hord.same rfl fun x hx => by rw [item_assign_of_ne (h.value_ne he hx).symm]
  · obtain ⟨i, hi⟩ := mem_iff_getElem?.mp hp
    obtain ⟨helem, hidx⟩ := h.delayed i p hi
    have hpos : (0 : Int) ≤ i := Int.natCast_nonneg i
    simp only [takeOut, helem, hidx, hpos, if_true, Int.toNat_natCast]
    exact heapRemove_ordered h hord (List.getElem?_eq_some_iff.mp hi).1

theorem pushBack_ordered (hord : q.Ordered) (p : Nat) : (q.pushBack p).Ordered := by
  refine hord.same rfl fun x _ => ?_
  simp only [pushBack, update_apply]
  split_ifs with hx
  · rw [hx]
  · rfl

theorem heapPush_ordered (h : q.Placed) (hord : q.Ordered) (hp : ¬ q.Queued p)
    (hl : (q.item p).elem = none) : (q.heapPush p).Ordered := by
  have happ := append_moves h hp hl
  generalize hq : { q with delayed := q.delayed ++ [p] }.assign p
    (fun h => { h with heapIndex := q.delayed.length }) = q₁ at happ
  have hpush : q.heapPush p = Heap.siftLast delayHeap q₁ := by
    rw [← hq]
    rfl
  have hdelayed : q₁.delayed = q.delayed ++ [p] := by rw [← hq, delayed_assign]
  have hlen : q₁.delayed.length = q.delayed.length + 1 := by
    rw [hdelayed, length_append, length_singleton]
  have hsifted : Sifted q₁ (q.heapPush p) := by
    rw [hpush]
    exact Heap.siftLast_kept (sifted_kept le_rfl) (show 0 < q₁.delayed.length by omega)
      (Sifted.refl happ.placed)
  have hold : Heap.Ordered q₁.dueAt (q₁.delayed.length - 1) := by
    have hdue : ∀ k < q.delayed.length, q₁.dueAt k = q.dueAt k := by
      intro k hk
      have hget := getElem?_eq_getElem hk
      have hget' : q₁.delayed[k]? = some q.delayed[k] := by
        rw [hdelayed, getElem?_append_left hk, hget]
      rw [dueAt_of_getElem? hget', dueAt_of_getElem? hget, ← hq,
        item_assign_of_ne (ne_of_not_queued hp (getElem_mem hk))]
    intro k hkpos hk
    rw [hlen, Nat.add_sub_cancel] at hk
    rw [hdue k hk, hdue _ (by omega)]
    exact hord k hkpos hk
  have hsift := Heap.siftLast_ordered delayHeap_keyed hold
  rw [← hpush] at hsift
  rw [Ordered, hsifted.length]
  exact hsift

/-- The new hint is due when the old one was, or the old one is not delayed. -/
theorem replace_ordered (h : q.Placed) (hord : q.Ordered) (hp : q.Queued p) (ha : ¬ q.Queued a)
    (hdue : p ∈ q.delayed → (q.item a).nextAt = (q.item p).nextAt) : (q.replace a p).Ordered := by
  rcases hp with ⟨e, he, rfl⟩ | hp
  · simp only [replace, (h.ready e he).1]
    refine hord.same rfl fun x hx => ?_
    rw [item_assign_of_ne (ne_of_not_queued ha hx)]
    rfl
  · obtain ⟨i, hi⟩ := mem_iff_getElem?.mp hp
    have hlt : i < q.delayed.length := (List.getElem?_eq_some_iff.mp hi).1
    rw [replace_delayed h hi]
    refine hord.congr length_set fun k hk => ?_
    have hold := getElem?_eq_getElem hk
    by_cases hik : i = k
    · subst hik
      rw [dueAt_of_getElem? (getElem?_set_self hlt), dueAt_of_getElem? hi]
      simp only [item_assign_self]
      exact hdue hp
    · rw [dueAt_of_getElem? ((getElem?_set_ne hik).trans hold), dueAt_of_getElem? hold]
      simp only [item_assign_of_ne (ne_of_not_queued ha (getElem_mem hk))]

section Rep

structure Rep (q : HintQueue) : Prop where
  placed : q.Placed
  indexed : ∀ bk p, q.index bk = some p ↔ (q.item p).key = bk ∧ q.Queued p
  allocated : ∀ p, q.Queued p → p < q.nextItem
  running : q.faulted = false

/-- What no operation of the queue changes. -/
def limits (q : HintQueue) : Nat × Int × Int × Int := (q.nextItem, q.maxItems, q.maxBytes, q.ttl)

theorem ttl_of_limits (hlimits : q'.limits = q.limits) : q'.ttl = q.ttl := by
  have httl := congrArg (fun l : Nat × Int × Int × Int => l.2.2.2) hlimits
  exact httl

/-- The index says what is queued. -/
theorem Rep.queued_iff (h : q.Rep) : q.Queued p ↔ q.index (q.item p).key = some p :=
  ⟨fun hp => (h.indexed _ p).mpr ⟨rfl, hp⟩, fun hp => ((h.indexed _ p).mp hp).2⟩

theorem Rep.key_inj (h : q.Rep) (ha : q.Queued a) (hp : q.Queued p)
    (hkey : (q.item a).key = (q.item p).key) : a = p := by
  have ha' := (h.indexed _ a).mpr ⟨hkey, ha⟩
  have hp' := (h.indexed _ p).mpr ⟨rfl, hp⟩
  exact Option.some.inj (ha'.symm.trans hp')

theorem Rep.update_index (h : q.Rep) (a : Nat) (bk : Bytes) (p : Nat) :
    update q.index (q.item a).key (some a) bk = some p ↔
      (q.item p).key = bk ∧ ((q.Queued p ∧ (q.item p).key ≠ (q.item a).key) ∨ p = a) := by
  by_cases hbk : bk = (q.item a).key
  · subst hbk
    rw [update_self, Option.some.injEq]
    constructor
    · rintro rfl
      exact ⟨rfl, .inr rfl⟩
    · rintro ⟨hkey, ⟨-, hne⟩ | rfl⟩
      · exact absurd hkey hne
      · rfl
  · rw [update_of_ne hbk, h.indexed bk p]
    constructor
    · rintro ⟨rfl, hp⟩
      exact ⟨rfl, .inl ⟨hp, hbk⟩⟩
    · rintro ⟨rfl, ⟨hp, -⟩ | rfl⟩
      · exact ⟨rfl, hp⟩
      · exact absurd rfl hbk

theorem Rep.remove_index (h : q.Rep) (ha : q.Queued a) (bk : Bytes) (p : Nat) :
    update q.index (q.item a).key none bk = some p ↔
      (q.item p).key = bk ∧ q.Queued p ∧ p ≠ a := by
  by_cases hbk : bk = (q.item a).key
  · subst hbk
    rw [update_self]
    constructor
    · rintro ⟨⟩
    · rintro ⟨hkey, hp, hne⟩
      exact absurd (h.key_inj hp ha hkey) hne
  · rw [update_of_ne hbk, h.indexed bk p]
    constructor
    · rintro ⟨rfl, hp⟩
      exact ⟨rfl, hp, fun heq => hbk (by rw [heq])⟩
    · rintro ⟨hkey, hp, -⟩
      exact ⟨hkey, hp⟩

end Rep

def hints (q : HintQueue) : List Nat := q.ready.map q.value ++ q.delayed

def volume (q : HintQueue) : Int := (q.hints.map fun p => (q.item p).size).sum

theorem mem_hints : p ∈ q.hints ↔ q.Queued p := by
  simp only [hints, mem_append, mem_map, Queued]

theorem Placed.nodup_hints (h : q.Placed) : q.hints.Nodup := by
  have hdelayed : q.delayed.Nodup := by
    rw [nodup_iff_getElem?_ne_getElem?]
    intro i j hij hj heq
    have hget := getElem?_eq_getElem hj
    exact absurd (h.delayed_inj (heq.trans hget) hget) (Nat.ne_of_lt hij)
  have hready : (q.ready.map q.value).Nodup :=
    List.Nodup.map_on (fun a ha b hb hab => h.value_inj ha hb hab) h.nodup
  refine List.Nodup.append hready hdelayed fun x hx hx' => ?_
  obtain ⟨e, he, rfl⟩ := mem_map.mp hx
  exact h.value_ne he hx' rfl

/-- The hints are the ones that `p` is put before. -/
theorem hints_perm_cons (h : q.Placed) (h' : q'.Placed) (hp : ¬ q.Queued p)
    (hqueued : ∀ x, q'.Queued x ↔ q.Queued x ∨ x = p) : q'.hints.Perm (p :: q.hints) := by
  have hnodup : (p :: q.hints).Nodup :=
    nodup_cons.mpr ⟨fun hin => hp (mem_hints.mp hin), h.nodup_hints⟩
  refine (perm_ext_iff_of_nodup h'.nodup_hints hnodup).mpr fun x => ?_
  rw [mem_hints, hqueued, mem_cons, mem_hints, or_comm]

theorem hints_perm (h : q.Placed) (h' : q'.Placed) (hqueued : ∀ x, q'.Queued x ↔ q.Queued x) :
    q'.hints.Perm q.hints :=
  (perm_ext_iff_of_nodup h'.nodup_hints h.nodup_hints).mpr fun x => by
    rw [mem_hints, hqueued, mem_hints]

theorem volume_of_perm {l : List Nat} (hperm : q'.hints.Perm l)
    (hsize : ∀ x, (q'.item x).size = (q.item x).size) :
    q'.volume = (l.map fun p => (q.item p).size).sum := by
  rw [volume, (hperm.map _).sum_eq]
  simp only [hsize]

end HintQueue

end Kioshun
