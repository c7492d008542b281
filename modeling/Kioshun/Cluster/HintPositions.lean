import Kioshun.Cluster.HintRuns

/-!
# What `enqueue` can drop for a hint

`dropOldest` takes the first hint of the ready list, and the first one of the heap if the
ready list is empty or begins with the hint to avoid. So a hint in the ready list keeps
those behind it there and no delayed one, and a delayed hint keeps those that would be
popped after it. Both are read off the queue before the call.
-/

namespace Kioshun
open Function List

namespace HintQueue
variable {q q' : HintQueue} {p a : Nat} {now : Int} {f : Nat → Nat}

/-- The delayed hints in the order in which `heap.Pop` takes them. -/
def drain : Nat → HintQueue → List Nat
  | 0, _ => []
  | fuel + 1, q =>
    match q.heapPop with
    | (none, _) => []
    | (some p, q) => p :: drain fuel q

def popOrder (q : HintQueue) : List Nat := drain q.delayed.length q

def following (p : Nat) (l : List Nat) : List Nat := (l.dropWhile (· ≠ p)).tail

/-- The hints behind the place that `enqueue` gives to `it`: the place of the hint that has its key,
or else one in the heap or at the end of the ready list. -/
def behind (q : HintQueue) (it : Nat) (now : Int) : List Nat :=
  match q.index (q.item it).key with
  | some old => if old ∈ q.waiting then following old q.waiting else following old q.popOrder
  | none => if now < (q.item it).nextAt then following it (q.heapPush it).popOrder else []

def inFront (q : HintQueue) (it : Nat) (now : Int) : List Nat :=
  q.hints.filter fun x => q.index (q.item it).key ≠ some x ∧ x ∉ q.behind it now

def Fits (q : HintQueue) (it : Nat) (now : Int) : Prop :=
  q.overCap ((q.behind it now).length + 1)
    ((it :: q.behind it now).map fun p => (q.item p).size).sum = false

section PopOrder

structure Alike (f : Nat → Nat) (q q' : HintQueue) : Prop where
  delayed : q'.delayed = q.delayed.map f
  nextAt : ∀ x ∈ q.delayed, (q'.item (f x)).nextAt = (q.item x).nextAt

theorem Alike.getElem? (h : Alike f q q') (i : Nat) : q'.delayed[i]? = q.delayed[i]?.map f := by
  rw [h.delayed, getElem?_map]

theorem Alike.swap (h : Alike f q q') (i j : Nat) :
    Alike f (q.delayedSwap i j) (q'.delayedSwap i j) := by
  cases hi : q.delayed[i]? with
  | none =>
    simp only [delayedSwap, h.getElem?, hi, Option.map_none]
    exact ⟨h.delayed, h.nextAt⟩
  | some x =>
    cases hj : q.delayed[j]? with
    | none =>
      simp only [delayedSwap, h.getElem?, hi, hj, Option.map_none, Option.map_some]
      exact ⟨h.delayed, h.nextAt⟩
    | some y =>
      have hi' : q'.delayed[i]? = some (f x) := by rw [h.getElem?, hi, Option.map_some]
      have hj' : q'.delayed[j]? = some (f y) := by rw [h.getElem?, hj, Option.map_some]
      have hlt := (List.getElem?_eq_some_iff.mp hi).1
      have hlt' := (List.getElem?_eq_some_iff.mp hj).1
      constructor
      · rw [delayed_swap hi hj, delayed_swap hi' hj', h.delayed, map_set, map_set]
      · intro z hz
        rw [delayed_swap hi hj, mem_swap hi hj] at hz
        rw [nextAt_delayedSwap hlt hlt', nextAt_delayedSwap (List.getElem?_eq_some_iff.mp hi').1
          (List.getElem?_eq_some_iff.mp hj').1, h.nextAt z hz]

theorem alike_simulates (f : Nat → Nat) : Heap.Simulates delayHeap delayHeap (Alike f) where
  len := by
    intro q q' h
    show q'.delayed.length = q.delayed.length
    rw [h.delayed, length_map]
  less := by
    intro q q' h i j
    show q'.delayedLess i j = q.delayedLess i j
    simp only [delayedLess, h.getElem?]
    cases hi : q.delayed[i]? with
    | none => rfl
    | some x =>
      cases hj : q.delayed[j]? with
      | none => rfl
      | some y =>
        simp only [Option.map_some, h.nextAt x (mem_of_getElem? hi),
          h.nextAt y (mem_of_getElem? hj)]
  swap := fun h i j => h.swap i j

theorem Alike.heapPop (h : Alike f q q') :
    q'.heapPop.1 = q.heapPop.1.map f ∧ Alike f q.heapPop.2 q'.heapPop.2 := by
  have hsink := Heap.sinkFirst_simulates (alike_simulates f) h
  simp only [HintQueue.heapPop]
  generalize Heap.sinkFirst delayHeap q = s, Heap.sinkFirst delayHeap q' = s' at hsink
  have hlast : s'.delayed.getLast? = s.delayed.getLast?.map f := by
    rw [hsink.delayed, getLast?_map]
  cases hs : s.delayed.getLast? with
  | none =>
    simp only [popLast, hlast, hs, Option.map_none]
    exact ⟨trivial, hsink.delayed, hsink.nextAt⟩
  | some p =>
    simp only [popLast, hlast, hs, Option.map_some]
    refine ⟨trivial, ?_, fun x hx => ?_⟩
    · simp only [delayed_assign, hsink.delayed, map_dropLast]
    · have hnext := hsink.nextAt x (dropLast_subset _ hx)
      simp only [assign, update_apply]
      split_ifs with h₁ h₂ h₂
      · simpa only [h₁, h₂] using hnext
      · simpa only [h₁] using hnext
      · simpa only [h₂] using hnext
      · exact hnext

theorem Alike.drain (h : Alike f q q') (fuel : Nat) :
    HintQueue.drain fuel q' = (HintQueue.drain fuel q).map f := by
  induction fuel generalizing q q' with
  | zero => rfl
  | succ fuel ih =>
    obtain ⟨hpop, hrest⟩ := h.heapPop
    generalize hr : q.heapPop = r, hr' : q'.heapPop = r' at hpop hrest
    obtain ⟨o, s⟩ := r
    obtain ⟨o', s'⟩ := r'
    simp only at hpop hrest
    subst hpop
    simp only [HintQueue.drain, hr, hr']
    cases o with
    | none => rfl
    | some p => simp only [Option.map_some, map_cons, ih hrest]

/-- The order depends on nothing but the times, and on the places in the heap for equal ones. -/
theorem Alike.popOrder (h : Alike f q q') : q'.popOrder = q.popOrder.map f := by
  rw [HintQueue.popOrder, HintQueue.popOrder, h.delayed, length_map, h.drain]

theorem popOrder_same (hdelayed : q'.delayed = q.delayed)
    (hnext : ∀ x ∈ q.delayed, (q'.item x).nextAt = (q.item x).nextAt) :
    q'.popOrder = q.popOrder := by
  have h : Alike id q q' := ⟨by rw [hdelayed, map_id], hnext⟩
  rw [h.popOrder, map_id]

theorem popOrder_cons (h : q.Placed) (hfront : q.delayed.head? = some p) :
    q.popOrder = p :: q.heapPop.2.popOrder := by
  have hpos : 0 < q.delayed.length := length_pos_of_mem (mem_of_head? hfront)
  obtain ⟨fuel, hfuel⟩ : ∃ fuel, q.delayed.length = fuel + 1 := ⟨q.delayed.length - 1, by omega⟩
  have hrest : q.heapPop.2.delayed.length = fuel := by
    rw [heapPop_length h hpos, hfuel, Nat.add_sub_cancel]
  have hres := (heapPop_takes h hfront).1
  rw [popOrder, popOrder, hfuel, hrest]
  generalize hr : q.heapPop = r at hres
  obtain ⟨o, s⟩ := r
  simp only at hres
  subst hres
  simp only [drain, hr]

theorem popOrder_perm (h : q.Placed) : q.popOrder.Perm q.delayed := by
  induction hn : q.delayed.length generalizing q with
  | zero =>
    rw [length_eq_zero_iff] at hn
    rw [popOrder, hn]
    rfl
  | succ n ih =>
    obtain ⟨p, hfront⟩ : ∃ p, q.delayed.head? = some p := by
      cases hl : q.delayed with
      | nil => rw [hl] at hn; cases hn
      | cons p l => exact ⟨p, rfl⟩
    obtain ⟨-, ⟨hmoves, -⟩, -⟩ := heapPop_takes h hfront
    have hlength := heapPop_length h (by omega)
    have hout : ¬ q.heapPop.2.Queued p := fun hin => ((hmoves.queued p).mp hin).2 rfl
    have hback : ∀ x, q.Queued x ↔ q.heapPop.2.Queued x ∨ x = p := by
      intro x
      rw [hmoves.queued]
      by_cases hx : x = p
      · simp only [hx, or_true, iff_true]
        exact .inr (mem_of_head? hfront)
      · simp only [hx, or_false, ne_eq, not_false_eq_true, and_true]
    have hperm := hints_perm_cons hmoves.placed h hout hback
    have hwait := heapPop_waiting q
    rw [waiting, waiting] at hwait
    rw [hints, hints, hwait] at hperm
    have hcons : q.delayed.Perm (p :: q.heapPop.2.delayed) :=
      (perm_append_left_iff _).mp (hperm.trans perm_middle.symm)
    rw [popOrder_cons h hfront]
    exact ((ih hmoves.placed (by omega)).cons p).trans hcons.symm

end PopOrder

section Dropping

theorem mem_waiting_or (h : q.Queued a) : a ∈ q.waiting ∨ a ∈ q.delayed := by
  rwa [← mem_hints, hints, mem_append] at h

theorem Placed.not_delayed_of_waiting (h : q.Placed) (ha : a ∈ q.waiting) : a ∉ q.delayed := by
  obtain ⟨e, he, rfl⟩ := mem_map.mp ha
  exact fun hin => h.value_ne he hin rfl

/-- The hint and those that `dropOldest` will not find. -/
def staying (q : HintQueue) (a : Nat) : List Nat :=
  if a ∈ q.waiting then q.waiting.dropWhile (· ≠ a) else q.popOrder.dropWhile (· ≠ a)

theorem dropWhile_ne_cons {l : List Nat} (h : p ≠ a) :
    (p :: l).dropWhile (· ≠ a) = l.dropWhile (· ≠ a) := by
  rw [dropWhile_cons_of_pos (by simpa using h)]

theorem dropWhile_ne_self (a : Nat) (l : List Nat) : (a :: l).dropWhile (· ≠ a) = a :: l := by
  rw [dropWhile_cons_of_neg (by simp)]

theorem staying_same (hwait : q'.waiting = q.waiting) (hdelayed : q'.delayed = q.delayed)
    (hnext : ∀ x ∈ q.delayed, (q'.item x).nextAt = (q.item x).nextAt) :
    q'.staying a = q.staying a := by
  rw [staying, staying, hwait, popOrder_same hdelayed hnext]

theorem staying_count {n b : Int} : (q.count n b).staying a = q.staying a :=
  staying_same rfl rfl fun _ _ => rfl

theorem staying_setIndex {key : Bytes} : (q.setIndex key p).staying a = q.staying a :=
  staying_same rfl rfl fun _ _ => rfl

/-- The first hint of the ready list is dropped. -/
theorem staying_tryDropReady (h : q.Sound) {e : Nat} (hfront : q.ready.head? = some e)
    (hne : q.value e ≠ a) : (q.removeItem (q.value e)).staying a = q.staying a := by
  have he : e ∈ q.ready := mem_of_head? hfront
  obtain ⟨l, hl⟩ : ∃ l, q.ready = e :: l := by
    cases hr : q.ready with
    | nil => rw [hr] at he; cases he
    | cons x l =>
      rw [hr, head?_cons, Option.some.injEq] at hfront
      exact ⟨l, by rw [hfront]⟩
  have helem : ((q.unindex (q.item (q.value e)).key).item (q.value e)).elem = some e :=
    (h.rep.placed.ready e he).1
  have hwait : q.waiting = q.value e :: (q.removeItem (q.value e)).waiting := by
    simp only [removeItem, takeOut, helem, waiting, hl]
    simp [count, assign, unindex, hl]
  have horder : (q.removeItem (q.value e)).popOrder = q.popOrder := by
    refine popOrder_same ?_ fun x _ => ?_
    · simp only [removeItem, takeOut, helem]
      rfl
    · exact HintItem.eq_of_content HintItem.nextAt (fun _ => rfl)
        ((removeItem_drops h (.inl ⟨e, he, rfl⟩)).becomes.content x)
  simp only [staying, horder, hwait, mem_cons, Ne.symm hne, false_or, dropWhile_ne_cons hne]

/-- The hint that is due first is dropped. -/
theorem staying_tryDropDelayed (h : q.Sound) (hfront : q.delayed.head? = some p) (hne : p ≠ a)
    {key : Bytes} {n b : Int} : ((q.heapPop.2.unindex key).count n b).staying a = q.staying a := by
  have hwait : ((q.heapPop.2.unindex key).count n b).waiting = q.waiting := heapPop_waiting q
  have horder : ((q.heapPop.2.unindex key).count n b).popOrder = q.heapPop.2.popOrder :=
    popOrder_same rfl fun _ _ => rfl
  rw [staying, staying, hwait, horder, popOrder_cons h.rep.placed hfront, dropWhile_ne_cons hne]

theorem staying_dropOldest (h : q.Sound) {b : Int} (hdrop : q.dropOldest a = some (b, q')) :
    q'.staying a = q.staying a := by
  cases hready : q.tryDropReady a with
  | some r =>
    simp only [dropOldest, hready, Option.some.injEq] at hdrop
    subst hdrop
    cases hfront : q.ready.head? with
    | none => simp only [tryDropReady, hfront, reduceCtorEq] at hready
    | some e =>
      simp only [tryDropReady, hfront, Option.ite_none_left_eq_some, Option.some.injEq,
        Prod.mk.injEq] at hready
      obtain ⟨hne, -, rfl⟩ := hready
      exact staying_tryDropReady h hfront hne
  | none =>
    simp only [dropOldest, hready] at hdrop
    cases hfront : q.delayed.head? with
    | none => simp only [tryDropDelayed, hfront, reduceCtorEq] at hdrop
    | some p =>
      have hres := (heapPop_takes h.rep.placed hfront).1
      simp only [tryDropDelayed, hfront, hres, Option.ite_none_left_eq_some, Option.some.injEq,
        Prod.mk.injEq] at hdrop
      obtain ⟨hne, -, rfl⟩ := hdrop
      exact staying_tryDropDelayed h hfront hne

/-- `dropOldest` finds nothing if the containers begin with the hint or are empty. -/
theorem dropOldest_none (h : q.Sound) (hnone : q.dropOldest a = none) :
    (∀ p ∈ q.waiting.head?, p = a) ∧ ∀ p ∈ q.delayed.head?, p = a := by
  have hready : q.tryDropReady a = none := by
    cases hr : q.tryDropReady a with
    | none => rfl
    | some r => simp only [dropOldest, hr, reduceCtorEq] at hnone
  simp only [dropOldest, hready] at hnone
  constructor
  · intro p hp
    rw [waiting, head?_map, Option.mem_def, Option.map_eq_some_iff] at hp
    obtain ⟨e, hfront, rfl⟩ := hp
    by_contra hne
    simp only [tryDropReady, hfront, if_neg hne, reduceCtorEq] at hready
  · intro p hfront
    by_contra hne
    obtain ⟨q', hsome, -⟩ := tryDropDelayed_drops h hfront hne
    cases hnone.symm.trans hsome

theorem hints_of_stuck (h : q.Sound) (ha : q.Queued a) (hnone : q.dropOldest a = none) :
    q.hints.Perm (q.staying a) := by
  obtain ⟨hfirst, hnext⟩ := dropOldest_none h hnone
  by_cases hin : a ∈ q.waiting
  · have hdelayed : q.delayed = [] := by
      cases hd : q.delayed with
      | nil => rfl
      | cons p l =>
        obtain rfl : p = a := hnext p (by rw [hd]; rfl)
        exact absurd (hd ▸ mem_cons_self) (h.rep.placed.not_delayed_of_waiting hin)
    rw [staying, if_pos hin, hints, hdelayed, append_nil]
    cases hw : q.waiting with
    | nil => rw [hw] at hin; cases hin
    | cons p l =>
      obtain rfl : p = a := hfirst p (by rw [hw]; rfl)
      rw [dropWhile_ne_self, ← hw]
      rfl
  · have hwaiting : q.waiting = [] := by
      cases hw : q.waiting with
      | nil => rfl
      | cons p l =>
        obtain rfl : p = a := hfirst p (by rw [hw]; rfl)
        exact absurd (hw ▸ mem_cons_self) hin
    obtain ⟨p, hp⟩ : ∃ p, q.delayed.head? = some p := by
      cases hd : q.delayed with
      | nil =>
        have hempty := (mem_waiting_or ha).resolve_left hin
        rw [hd] at hempty
        cases hempty
      | cons p l => exact ⟨p, rfl⟩
    obtain rfl : p = a := hnext p hp
    have hperm := popOrder_perm h.rep.placed
    rw [popOrder_cons h.rep.placed hp] at hperm
    rw [staying, if_neg hin, popOrder_cons h.rep.placed hp, dropWhile_ne_self]
    show (q.waiting ++ q.delayed).Perm _
    rw [hwaiting, nil_append]
    exact hperm.symm

/-- What is left when nothing more can be dropped. -/
theorem exhaust_hints (fuel : Nat) (h : q.Sound) (ha : q.Queued a) (hfuel : q.hints.length < fuel) :
    (exhaust a fuel q).hints.Perm (q.staying a) := by
  induction fuel generalizing q with
  | zero => omega
  | succ fuel ih =>
    rcases dropOldest_cases h a with hnone | ⟨p, q₁, hsome, -, hne, hdrops⟩
    · simp only [exhaust, hnone]
      exact hints_of_stuck h ha hnone
    · have hless : q₁.hints.length < fuel := by
        have hcount := hdrops.becomes.items
        rw [hdrops.becomes.sound.items, h.items] at hcount
        omega
      simp only [exhaust, hsome]
      rw [← staying_dropOldest h hsome]
      exact ih hdrops.becomes.sound ((hdrops.becomes.queued a).mpr ⟨ha, hne.symm⟩) hless

end Dropping

section Installed
variable {l : List Nat} {old : Nat}

theorem dropWhile_ne_of_mem (h : a ∈ l) : l.dropWhile (· ≠ a) = a :: following a l := by
  induction l with
  | nil => cases h
  | cons x l ih =>
    by_cases hx : x = a
    · rw [hx, following, dropWhile_ne_self, tail_cons]
    · rw [following, dropWhile_ne_cons hx, ih ((mem_cons.mp h).resolve_left (Ne.symm hx)),
        following]
      rfl

/-- One hint of a list gets another name. -/
theorem dropWhile_ne_rename (hnodup : l.Nodup) (hold : old ∈ l) (ha : a ∉ l) :
    (l.map (update id old a)).dropWhile (· ≠ a) = a :: following old l := by
  induction l with
  | nil => cases hold
  | cons x l ih =>
    obtain ⟨hx, hnodup⟩ := nodup_cons.mp hnodup
    rw [mem_cons, not_or] at ha
    by_cases hxo : x = old
    · subst hxo
      have hrest : l.map (update id x a) = l := by
        refine (map_congr_left fun y hy => ?_).trans (map_id l)
        exact update_of_ne (fun heq : y = x => hx (heq ▸ hy)) _ _
      rw [map_cons, update_self, dropWhile_ne_self, hrest, following, dropWhile_ne_self, tail_cons]
    · rw [map_cons, update_of_ne hxo, id, dropWhile_ne_cons (Ne.symm ha.1),
        ih hnodup ((mem_cons.mp hold).resolve_left (Ne.symm hxo)) ha.2, following, following,
        dropWhile_ne_cons hxo]

theorem heapPush_waiting (q : HintQueue) (p : Nat) : (q.heapPush p).waiting = q.waiting := by
  have hsift : (q.heapPush p).ready = q.ready ∧ (q.heapPush p).value = q.value := by
    refine Heap.siftLast_kept
      (P := fun s : HintQueue => s.ready = q.ready ∧ s.value = q.value) (fun s i j _ _ hs => ?_) ?_
      ⟨rfl, rfl⟩
    · exact ⟨(delayedSwap_ready s i j).1.trans hs.1, (delayedSwap_ready s i j).2.trans hs.2⟩
    · show 0 < (q.delayed ++ [p]).length
      rw [length_append, length_singleton]
      omega
  rw [waiting, hsift.1, hsift.2, waiting]

/-- In the place of a hint of the ready list. -/
theorem staying_replace_ready (h : q.Placed) (hold : old ∈ q.waiting) (ha : ¬ q.Queued a) :
    (q.replace a old).staying a = a :: following old q.waiting := by
  obtain ⟨e, he, rfl⟩ := mem_map.mp hold
  have hwait : (q.replace a (q.value e)).waiting = q.waiting.map (update id (q.value e) a) := by
    simp only [replace, (h.ready e he).1, waiting, map_map, ready_assign, value_assign, setValue]
    refine map_congr_left fun x hx => ?_
    by_cases hxe : x = e
    · rw [hxe, update_self, comp_apply, update_self]
    · rw [update_of_ne hxe, comp_apply, update_of_ne fun heq => hxe (h.value_inj hx he heq), id]
  have hnodup : q.waiting.Nodup := (nodup_append.mp h.nodup_hints).1
  have hout : a ∉ q.waiting := fun hin => ha (mem_hints.mp (mem_append_left _ hin))
  have hmem : a ∈ (q.replace a (q.value e)).waiting := by
    rw [hwait]
    exact mem_map.mpr ⟨_, hold, update_self ..⟩
  rw [staying, if_pos hmem, hwait, dropWhile_ne_rename hnodup hold hout]

/-- In the place of a delayed hint, which is due at the same time. -/
theorem staying_replace_delayed (h : q.Placed) (hold : old ∈ q.delayed) (ha : ¬ q.Queued a)
    (hdue : (q.item a).nextAt = (q.item old).nextAt) :
    (q.replace a old).staying a = a :: following old q.popOrder := by
  obtain ⟨i, hi⟩ := mem_iff_getElem?.mp hold
  have hreplace := replace_delayed (a := a) h hi
  have hnext : ∀ x, ((q.replace a old).item x).nextAt = (q.item x).nextAt := fun x =>
    HintItem.eq_of_content HintItem.nextAt (fun _ => rfl)
      ((replace_moves h (.inr hold) ha).content x)
  have halike : Alike (update id old a) q (q.replace a old) := by
    constructor
    · rw [hreplace]
      refine ext_getElem? fun k => ?_
      rw [getElem?_map, getElem?_set]
      split_ifs with hik hk
      · rw [← hik, hi, Option.map_some, update_self]
      · exact absurd (hik ▸ (List.getElem?_eq_some_iff.mp hi).1) hk
      · cases hk : q.delayed[k]? with
        | none => rfl
        | some x =>
          have hx : x ≠ old := fun heq => hik (h.delayed_inj hi (heq ▸ hk))
          rw [Option.map_some, update_of_ne hx, id]
    · intro x hx
      rw [hnext]
      by_cases hxo : x = old
      · rw [hxo, update_self, hdue]
      · rw [update_of_ne hxo, id]
  have hperm := popOrder_perm h
  have hnodup : q.popOrder.Nodup := hperm.nodup_iff.mpr (nodup_append.mp h.nodup_hints).2.1
  have hout : a ∉ q.popOrder := fun hin => ha (.inr (hperm.mem_iff.mp hin))
  have hwait : (q.replace a old).waiting = q.waiting := by
    rw [hreplace]
    rfl
  have hmem : a ∉ (q.replace a old).waiting := by
    rw [hwait]
    exact fun hin => ha (mem_hints.mp (mem_append_left _ hin))
  rw [staying, if_neg hmem, halike.popOrder,
    dropWhile_ne_rename hnodup (hperm.mem_iff.mpr hold) hout]

/-- In a place of its own. -/
theorem staying_place (h : q.Sound) (ha : ¬ q.Queued a) (hnew : (q.place a now).Placed)
    (hin : (q.place a now).Queued a) : (q.place a now).staying a =
      a :: if now < (q.item a).nextAt then following a (q.heapPush a).popOrder else [] := by
  have hout : a ∉ q.waiting := fun hin => ha (mem_hints.mp (mem_append_left _ hin))
  rw [place] at hnew hin ⊢
  split_ifs at hnew hin ⊢ with hlate
  · have hwait : ((q.heapPush a).assign a fun h => { h with elem := none }).waiting = q.waiting :=
      heapPush_waiting q a
    have horder : ((q.heapPush a).assign a fun h => { h with elem := none }).popOrder =
        (q.heapPush a).popOrder := by
      refine popOrder_same rfl fun x _ => ?_
      by_cases hx : x = a
      · rw [hx, item_assign_self]
      · rw [item_assign_of_ne hx]
    have hmem : a ∈ (q.heapPush a).popOrder := by
      rw [← horder, (popOrder_perm hnew).mem_iff]
      exact (mem_waiting_or hin).resolve_left (hwait ▸ hout)
    rw [staying, if_neg (hwait ▸ hout), horder, dropWhile_ne_of_mem hmem]
  · have hwait : ((q.pushBack a).assign a fun h => { h with heapIndex := -1 }).waiting =
        q.waiting ++ [a] := pushBack_waiting h.rep.placed a
    have hfront : ∀ x ∈ q.waiting, decide (x ≠ a) = true := by
      intro x hx
      rw [decide_eq_true_eq]
      rintro rfl
      exact hout hx
    rw [staying, hwait, if_pos (mem_append_right _ (mem_singleton_self a)),
      dropWhile_append_of_pos hfront, dropWhile_ne_self]

theorem staying_installed (h : Ready q a) (ha : ¬ q.Queued a) (now : Int)
    (hent : Enters q a (q.installed a now)) :
    (q.installed a now).staying a = a :: q.behind a now := by
  cases hkey : q.index (q.item a).key with
  | some old =>
    obtain ⟨hsame, hold⟩ := (h.sound.rep.indexed _ old).mp hkey
    obtain ⟨f, hin, -, hr⟩ := inherit_replaces h.sound hold ha h.allocated hsame.symm h.sized
    have horder : (q.assign a f).popOrder = q.popOrder :=
      popOrder_same rfl fun x hx => by rw [item_assign_of_ne (ne_of_not_queued ha hx)]
    simp only [installed, behind, hkey, hin, staying_setIndex, staying_count]
    split_ifs with hwait
    · exact staying_replace_ready hr.sound.rep.placed hwait hr.new
    · have hdelayed : old ∈ q.delayed := (mem_waiting_or hold).resolve_left hwait
      rw [staying_replace_delayed hr.sound.rep.placed hdelayed hr.new (hr.due hdelayed), horder]
  | none =>
    have hplaced := hent.sound.rep.placed
    have hnew := hent.new
    simp only [installed, hkey] at hplaced hnew
    simp only [installed, behind, hkey, staying_setIndex, staying_count]
    exact staying_place h.sound ha
      ⟨hplaced.nodup, hplaced.elems, hplaced.ready, hplaced.delayed⟩ hnew

/-- Without all that `dropOldest` finds, the queue holds the hint and those behind it. -/
theorem cleared_hints (h : Ready q a) (ha : ¬ q.Queued a) (now : Int)
    (hent : Enters q a (q.installed a now)) :
    (q.cleared a now).hints.Perm (a :: q.behind a now) := by
  rw [← staying_installed h ha now hent]
  exact exhaust_hints _ hent.sound hent.new (hints_lt_rounds _)

/-- What `enqueue` may drop for the hint are those in front of it. -/
theorem installed_hints (h : Ready q a) (ha : ¬ q.Queued a) (now : Int)
    (hent : Enters q a (q.installed a now)) :
    (q.installed a now).hints.Perm ((q.cleared a now).hints ++ q.inFront a now) := by
  have hsheds := exhaust_sheds (q.installed a now).rounds hent.sound hent.new
  have hperm := cleared_hints h ha now hent
  have hnodup := hsheds.sound.rep.placed.nodup_hints
  have hmem : ∀ x, x ∈ (q.cleared a now).hints ↔ x = a ∨ x ∈ q.behind a now := fun x => by
    rw [hperm.mem_iff, mem_cons]
  have hfront : ∀ x, x ∈ q.inFront a now ↔
      (q.Queued x ∧ q.index (q.item a).key ≠ some x) ∧ x ∉ q.behind a now := by
    intro x
    rw [inFront, mem_filter, mem_hints, decide_eq_true_eq, and_assoc]
  have hdisjoint : ∀ x ∈ (q.cleared a now).hints, x ∉ q.inFront a now := by
    intro x hx hin
    obtain ⟨⟨hqx, -⟩, hnot⟩ := (hfront x).mp hin
    rcases (hmem x).mp hx with rfl | hb
    · exact ha hqx
    · exact hnot hb
  refine (perm_ext_iff_of_nodup hent.sound.rep.placed.nodup_hints ?_).mpr fun x => ?_
  · exact hnodup.append (h.sound.rep.placed.nodup_hints.filter _) hdisjoint
  · rw [mem_append, mem_hints, hent.queued, hfront, hmem]
    constructor
    · rintro (hx | rfl)
      · by_cases hb : x ∈ q.behind a now
        · exact .inl (.inr hb)
        · exact .inr ⟨hx, hb⟩
      · exact .inl (.inl rfl)
    · rintro (hx | hx)
      · exact (hent.queued x).mp (hsheds.queued x (mem_hints.mp ((hmem x).mpr hx)))
      · exact .inl hx.1

theorem cleared_size (hent : Enters q a (q.installed a now)) (x : Nat) :
    ((q.cleared a now).item x).size = (q.item x).size := by
  have hsheds := exhaust_sheds (q.installed a now).rounds hent.sound hent.new
  rw [cleared, size_of_content (hsheds.content x)]
  by_cases hx : x = a
  · rw [hx, hent.size]
  · rw [size_of_content (hent.content x hx)]

theorem cleared_within_iff (h : Ready q a) (ha : ¬ q.Queued a) (now : Int)
    (hent : Enters q a (q.installed a now)) : (q.cleared a now).Within ↔ q.Fits a now := by
  have hsheds : Sheds _ a (q.cleared a now) := exhaust_sheds _ hent.sound hent.new
  have hperm := cleared_hints h ha now hent
  have hlimits := hsheds.limits.trans hent.limits
  simp only [limits, Prod.mk.injEq] at hlimits
  rw [Within, Fits, hsheds.sound.items, hsheds.sound.bytes, hperm.length_eq,
    volume_of_perm hperm (cleared_size hent), overCap, overCap, hlimits.2.1, hlimits.2.2.1]
  rfl

theorem dropped_iff (h : Ready q a) (ha : ¬ q.Queued a) (now : Int)
    (hent : Enters q a (q.installed a now)) :
    (∀ x, (q.installed a now).Queued x → (q.cleared a now).Queued x) ↔ q.inFront a now = [] := by
  have hperm := installed_hints h ha now hent
  have hnodup := hperm.nodup_iff.mp hent.sound.rep.placed.nodup_hints
  simp only [← mem_hints, hperm.mem_iff, mem_append]
  constructor
  · intro hall
    refine eq_nil_iff_forall_not_mem.mpr fun x hx => ?_
    exact disjoint_of_nodup_append hnodup (hall x (.inr hx)) hx
  · rintro hnil x (hx | hx)
    · exact hx
    · rw [hnil] at hx
      cases hx

theorem cleared_bytes (h : Ready q a) (ha : ¬ q.Queued a) (now : Int)
    (hent : Enters q a (q.installed a now)) : (q.installed a now).bytes =
      (q.cleared a now).bytes + ((q.inFront a now).map fun p => (q.item p).size).sum := by
  have hsheds : Sheds _ a (q.cleared a now) := exhaust_sheds _ hent.sound hent.new
  have hsize : ∀ x, ((q.installed a now).item x).size = ((q.cleared a now).item x).size := fun x =>
    (size_of_content (hsheds.content x)).symm
  rw [hent.sound.bytes, volume_of_perm (installed_hints h ha now hent) hsize, map_append,
    sum_append, hsheds.sound.bytes, volume]
  simp only [cleared_size hent]

end Installed

end HintQueue

end Kioshun
