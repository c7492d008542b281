import Kioshun.Cluster.Handoff
import Mathlib.Data.List.Nodup
import Mathlib.Tactic.Ring

/-!
# The queue of hints

A queued hint is in one of the two containers and knows where. Moving hints around
in the containers changes nothing else about them, so that the queue can be read as
a map from keys to hints.
-/

namespace Kioshun
open Function List

/-- A hint without the fields that say where it is. -/
def HintItem.content (h : HintItem) : HintItem := { h with elem := none, heapIndex := -1 }

/-- A hint without its schedule as well. -/
def HintItem.payload (h : HintItem) : HintItem := { h.content with nextAt := 0, tries := 0 }

/-- What does not depend on the place is the same for hints with the same content. -/
theorem HintItem.eq_of_content {α : Type*} {h h' : HintItem} (f : HintItem → α)
    (hf : ∀ h, f h.content = f h) (heq : h.content = h'.content) : f h = f h' := by
  rw [← hf h, heq, hf h']

theorem HintItem.eq_of_payload {α : Type*} {h h' : HintItem} (f : HintItem → α)
    (hf : ∀ h, f h.payload = f h) (heq : h.payload = h'.payload) : f h = f h' := by
  rw [← hf h, heq, hf h']

structure HintItem.Loose (h : HintItem) : Prop where
  elem : h.elem = none
  heapIndex : h.heapIndex = -1

namespace HintQueue
variable {q q' q'' : HintQueue} {p a b e i j : Nat}

section Fields
variable {f : HintItem → HintItem}

@[simp] theorem item_assign_self : (q.assign p f).item p = f (q.item p) :=
  update_self ..

theorem item_assign_of_ne (h : a ≠ p) : (q.assign p f).item a = q.item a :=
  update_of_ne h _ _

@[simp] theorem ready_assign : (q.assign p f).ready = q.ready := rfl

@[simp] theorem value_assign : (q.assign p f).value = q.value := rfl

@[simp] theorem delayed_assign : (q.assign p f).delayed = q.delayed := rfl

end Fields

def Queued (q : HintQueue) (p : Nat) : Prop := (∃ e ∈ q.ready, q.value e = p) ∨ p ∈ q.delayed

structure Placed (q : HintQueue) : Prop where
  nodup : q.ready.Nodup
  elems : ∀ e ∈ q.ready, e < q.nextElem
  ready : ∀ e ∈ q.ready, (q.item (q.value e)).elem = some e ∧ (q.item (q.value e)).heapIndex = -1
  delayed : ∀ (i p : Nat), q.delayed[i]? = some p →
    (q.item p).elem = none ∧ (q.item p).heapIndex = i

/-- What moving hints around does not change. -/
def settings (q : HintQueue) :
    Nat × Int × Int × Int × DropPolicy × Bool × Int × Int × (Bytes → Option Nat) :=
  (q.nextItem, q.maxItems, q.maxBytes, q.ttl, q.drop, q.faulted, q.items, q.bytes, q.index)

/-- From `q` to `q'` hints have been moved around, and `members` are queued now. -/
structure Moves (q : HintQueue) (members : Nat → Prop) (q' : HintQueue) : Prop where
  placed : q'.Placed
  queued : ∀ p, q'.Queued p ↔ members p
  content : ∀ p, (q'.item p).content = (q.item p).content
  item : ∀ p, ¬ q.Queued p → ¬ q'.Queued p → q'.item p = q.item p
  settings : q'.settings = q.settings

section
variable (h : q.Placed)
include h

theorem Moves.refl : Moves q q.Queued q :=
  ⟨h, fun _ => Iff.rfl, fun _ => rfl, fun _ _ _ => rfl, rfl⟩

theorem Placed.delayed_inj (hi : q.delayed[i]? = some p) (hj : q.delayed[j]? = some p) : i = j := by
  have hij := (h.delayed i p hi).2.symm.trans (h.delayed j p hj).2
  omega

theorem Placed.elem_of_delayed (hp : p ∈ q.delayed) : (q.item p).elem = none := by
  obtain ⟨i, hi⟩ := mem_iff_getElem?.mp hp
  exact (h.delayed i p hi).1

/-- No hint is in both containers. -/
theorem Placed.value_ne (he : e ∈ q.ready) (hp : p ∈ q.delayed) : q.value e ≠ p := by
  intro heq
  have hsome := (h.ready e he).1
  rw [heq, h.elem_of_delayed hp] at hsome
  cases hsome

theorem Placed.value_inj (ha : a ∈ q.ready) (hb : b ∈ q.ready) (hab : q.value a = q.value b) :
    a = b := by
  have hsome := (h.ready a ha).1
  rw [hab, (h.ready b hb).1] at hsome
  exact (Option.some.inj hsome).symm

end

section
variable {M M' : Nat → Prop}

/-- Two moves, the second of which leaves what the first has put into a container. -/
theorem Moves.trans (h : Moves q M q') (h' : Moves q' M' q'')
    (hback : ∀ p, M p → q.Queued p ∨ M' p) : Moves q M' q'' := by
  refine ⟨h'.placed, h'.queued, fun p => (h'.content p).trans (h.content p), fun p hp hp' => ?_,
    h'.settings.trans h.settings⟩
  have hmid : ¬ q'.Queued p := fun hmid => by
    rcases hback p ((h.queued p).mp hmid) with hold | hnew
    · exact hp hold
    · exact hp' ((h'.queued p).mpr hnew)
  exact (h'.item p hmid hp').trans (h.item p hp hmid)

theorem Moves.congr (h : Moves q M q') (hM : ∀ p, M p ↔ M' p) : Moves q M' q' :=
  ⟨h.placed, fun p => (h.queued p).trans (hM p), h.content, h.item, h.settings⟩

/-- A move that writes one hint, which is in a container before or after it. -/
theorem Moves.of_item {g : HintItem} (hplaced : q'.Placed) (hqueued : ∀ x, q'.Queued x ↔ M x)
    (hitem : q'.item = update q.item p g) (hcontent : g.content = (q.item p).content)
    (hp : q.Queued p ∨ M p) (hset : q'.settings = q.settings) : Moves q M q' := by
  refine ⟨hplaced, hqueued, fun x => ?_, fun x hx hx' => ?_, hset⟩
  · by_cases hx : x = p
    · rw [hx, hitem, update_self, hcontent]
    · rw [hitem, update_of_ne hx]
  · have hne : x ≠ p := by
      rintro rfl
      exact hp.elim hx fun hnew => hx' ((hqueued x).mpr hnew)
    rw [hitem, update_of_ne hne]

theorem Moves.index (h : Moves q M q') : q'.index = q.index :=
  congrArg (fun t => t.2.2.2.2.2.2.2.2) h.settings

theorem Moves.items (h : Moves q M q') : q'.items = q.items :=
  congrArg (fun t => t.2.2.2.2.2.2.1) h.settings

theorem Moves.bytes (h : Moves q M q') : q'.bytes = q.bytes :=
  congrArg (fun t => t.2.2.2.2.2.2.2.1) h.settings

end

/-- The hint has been taken out, and the others are in the containers they were in. -/
structure Takes (q : HintQueue) (p : Nat) (q' : HintQueue) : Prop where
  moves : Moves q (fun x => q.Queued x ∧ x ≠ p) q'
  elem : ∀ x, x ≠ p → (q'.item x).elem = (q.item x).elem

theorem value_ne_of_not_queued (hp : ¬ q.Queued p) (he : e ∈ q.ready) : q.value e ≠ p :=
  fun heq => hp (.inl ⟨e, he, heq⟩)

theorem ne_of_not_queued (hp : ¬ q.Queued p) (ha : a ∈ q.delayed) : a ≠ p := by
  rintro rfl
  exact hp (.inr ha)

theorem getElem?_swap {l : List Nat} (hi : l[i]? = some a) (hj : l[j]? = some b) (k : Nat) :
    ((l.set i b).set j a)[k]? = if k = j then some a else if k = i then some b else l[k]? := by
  obtain ⟨hi', -⟩ := List.getElem?_eq_some_iff.mp hi
  obtain ⟨hj', -⟩ := List.getElem?_eq_some_iff.mp hj
  by_cases hkj : k = j
  · subst hkj
    simp [hj']
  · by_cases hki : k = i
    · subst hki
      simp [hkj, Ne.symm hkj, hi']
    · simp [hkj, hki, Ne.symm hkj, Ne.symm hki]

theorem mem_swap {l : List Nat} (hi : l[i]? = some a) (hj : l[j]? = some b) :
    p ∈ (l.set i b).set j a ↔ p ∈ l := by
  simp only [mem_iff_getElem?, getElem?_swap hi hj]
  constructor
  · rintro ⟨k, hk⟩
    split_ifs at hk
    · exact ⟨i, hi.trans hk⟩
    · exact ⟨j, hj.trans hk⟩
    · exact ⟨k, hk⟩
  · rintro ⟨k, hk⟩
    by_cases hki : k = i
    · subst hki
      exact ⟨j, by rw [if_pos rfl, ← hk, hi]⟩
    · by_cases hkj : k = j
      · subst hkj
        refine ⟨i, ?_⟩
        rw [if_neg (Ne.symm hki), if_pos rfl, ← hk, hj]
      · exact ⟨k, by rw [if_neg hkj, if_neg hki, hk]⟩

theorem item_swap (hi : q.delayed[i]? = some a) (hj : q.delayed[j]? = some b) :
    (q.delayedSwap i j).item p =
      if p = a then { q.item p with heapIndex := j }
      else if p = b then { q.item p with heapIndex := i } else q.item p := by
  simp only [delayedSwap, hi, hj, assign]
  by_cases hpa : p = a
  · subst hpa
    by_cases hab : p = b
    · subst hab
      simp
    · simp [hab]
  · by_cases hpb : p = b
    · subst hpb
      simp [hpa]
    · simp [hpa, hpb]

theorem delayed_swap (hi : q.delayed[i]? = some a) (hj : q.delayed[j]? = some b) :
    (q.delayedSwap i j).delayed = (q.delayed.set i b).set j a := by
  simp only [delayedSwap, hi, hj, assign]

theorem swap_moves (h : q.Placed) (hi : i < q.delayed.length) (hj : j < q.delayed.length) :
    Moves q q.Queued (q.delayedSwap i j) := by
  obtain ⟨a, ha⟩ : ∃ a, q.delayed[i]? = some a := ⟨_, getElem?_eq_getElem hi⟩
  obtain ⟨b, hb⟩ : ∃ b, q.delayed[j]? = some b := ⟨_, getElem?_eq_getElem hj⟩
  have hma : a ∈ q.delayed := mem_of_getElem? ha
  have hmb : b ∈ q.delayed := mem_of_getElem? hb
  have hready : (q.delayedSwap i j).ready = q.ready := by simp only [delayedSwap, ha, hb, assign]
  have hvalue : (q.delayedSwap i j).value = q.value := by simp only [delayedSwap, ha, hb, assign]
  have hnext : (q.delayedSwap i j).nextElem = q.nextElem := by
    simp only [delayedSwap, ha, hb, assign]
  have hqueued : ∀ p, (q.delayedSwap i j).Queued p ↔ q.Queued p := by
    intro p
    simp only [Queued, hready, hvalue, delayed_swap ha hb, mem_swap ha hb]
  refine ⟨⟨?_, ?_, ?_, ?_⟩, hqueued, fun p => ?_, fun p hp _ => ?_, ?_⟩
  · rw [hready]
    exact h.nodup
  · rw [hready, hnext]
    exact h.elems
  · intro e he
    rw [hready] at he
    rw [hvalue, item_swap ha hb, if_neg (h.value_ne he hma), if_neg (h.value_ne he hmb)]
    exact h.ready e he
  · intro k p hk
    rw [delayed_swap ha hb, getElem?_swap ha hb] at hk
    rw [item_swap ha hb]
    by_cases hkj : k = j
    · rw [if_pos hkj, Option.some.injEq] at hk
      subst hk
      rw [if_pos rfl]
      exact ⟨h.elem_of_delayed hma, by rw [hkj]⟩
    · rw [if_neg hkj] at hk
      by_cases hki : k = i
      · rw [if_pos hki, Option.some.injEq] at hk
        subst hk
        have hne : b ≠ a := by
          rintro rfl
          exact hkj (hki.trans (h.delayed_inj ha hb))
        rw [if_neg hne, if_pos rfl]
        exact ⟨h.elem_of_delayed hmb, by rw [hki]⟩
      · rw [if_neg hki] at hk
        have hpa : p ≠ a := by
          rintro rfl
          exact hki (h.delayed_inj hk ha)
        have hpb : p ≠ b := by
          rintro rfl
          exact hkj (h.delayed_inj hk hb)
        rw [if_neg hpa, if_neg hpb]
        exact h.delayed k p hk
  · rw [item_swap ha hb]
    split_ifs <;> rfl
  · rw [item_swap ha hb, if_neg (ne_of_not_queued hp hma).symm,
      if_neg (ne_of_not_queued hp hmb).symm]
  · simp only [settings, delayedSwap, ha, hb, assign]

theorem length_delayedSwap (hi : i < q.delayed.length) (hj : j < q.delayed.length) :
    (q.delayedSwap i j).delayed.length = q.delayed.length := by
  rw [delayed_swap (getElem?_eq_getElem hi) (getElem?_eq_getElem hj), length_set, length_set]

structure Sifted (q q' : HintQueue) : Prop where
  moves : Moves q q.Queued q'
  length : q'.delayed.length = q.delayed.length
  elem : ∀ p, (q'.item p).elem = (q.item p).elem

theorem Sifted.refl (h : q.Placed) : Sifted q q := ⟨Moves.refl h, rfl, fun _ => rfl⟩

theorem Sifted.swap (h : Sifted q q') (hi : i < q.delayed.length) (hj : j < q.delayed.length) :
    Sifted q (q'.delayedSwap i j) := by
  rw [← h.length] at hi hj
  refine ⟨(h.moves.trans (swap_moves h.moves.placed hi hj) fun p hp => .inl hp).congr
    h.moves.queued, (length_delayedSwap hi hj).trans h.length, fun p => Eq.trans ?_ (h.elem p)⟩
  rw [item_swap (getElem?_eq_getElem hi) (getElem?_eq_getElem hj)]
  split_ifs <;> rfl

theorem sifted_kept {n : Nat} (hn : n ≤ q.delayed.length) : Heap.Kept delayHeap n (Sifted q) :=
  fun _ _ _ hi hj hs => hs.swap (by omega) (by omega)

/-- The same for the positions before the last one, which keeps its hint. -/
theorem sifted_kept_last (q : HintQueue) (p : Nat) : Heap.Kept delayHeap (q.delayed.length - 1)
    fun s => Sifted q s ∧ s.delayed[q.delayed.length - 1]? = some p := by
  rintro s i j hi hj ⟨hs, hlast⟩
  have hi' : i < s.delayed.length := by
    rw [hs.length]
    omega
  have hj' : j < s.delayed.length := by
    rw [hs.length]
    omega
  refine ⟨hs.swap (by omega) (by omega), ?_⟩
  show (s.delayedSwap i j).delayed[_]? = _
  rw [delayed_swap (getElem?_eq_getElem hi') (getElem?_eq_getElem hj'),
    getElem?_swap (getElem?_eq_getElem hi') (getElem?_eq_getElem hj'),
    if_neg (by omega), if_neg (by omega)]
  exact hlast

section
variable (h : q.Placed)
include h

theorem popLast_takes (hlast : q.delayed[q.delayed.length - 1]? = some p) :
    q.popLast.1 = some p ∧ Takes q p q.popLast.2 ∧ (q.popLast.2.item p).heapIndex = -1 := by
  have hget : q.delayed.getLast? = some p := by rw [getLast?_eq_getElem?, hlast]
  have hmem : p ∈ q.delayed := mem_of_getLast? hget
  have hrest : ∀ x, x ∈ q.delayed.dropLast ↔ x ∈ q.delayed ∧ x ≠ p := by
    intro x
    simp only [mem_iff_getElem?, getElem?_dropLast]
    constructor
    · rintro ⟨k, hk⟩
      split_ifs at hk with hlt
      refine ⟨⟨k, hk⟩, ?_⟩
      rintro rfl
      have := h.delayed_inj hk hlast
      omega
    · rintro ⟨⟨k, hk⟩, hne⟩
      have hlt : k < q.delayed.length := (List.getElem?_eq_some_iff.mp hk).1
      have hk' : k ≠ q.delayed.length - 1 := by
        rintro rfl
        rw [hlast, Option.some.injEq] at hk
        exact hne hk.symm
      exact ⟨k, by rw [if_pos (by omega)]; exact hk⟩
  simp only [popLast, hget]
  refine ⟨trivial, ⟨Moves.of_item ⟨h.nodup, h.elems, ?_, ?_⟩ (fun x => ?_) rfl rfl
    (.inl (.inr hmem)) rfl, fun x hx => by rw [item_assign_of_ne hx]⟩, by rw [item_assign_self]⟩
  · intro e he
    simp only [value_assign, item_assign_of_ne (h.value_ne he hmem)]
    exact h.ready e he
  · intro k x hk
    simp only [delayed_assign] at hk
    have hx := (hrest x).mp (mem_of_getElem? hk)
    rw [getElem?_dropLast] at hk
    split_ifs at hk
    rw [item_assign_of_ne hx.2]
    exact h.delayed k x hk
  · simp only [Queued, ready_assign, value_assign, delayed_assign, hrest]
    constructor
    · rintro (⟨e, he, rfl⟩ | hx)
      · exact ⟨.inl ⟨e, he, rfl⟩, h.value_ne he hmem⟩
      · exact ⟨.inr hx.1, hx.2⟩
    · rintro ⟨hx | hx, hne⟩
      · exact .inl hx
      · exact .inr ⟨hx, hne⟩

omit h in
theorem popLast_sifted (hs : Sifted q q') (hlast : q'.delayed[q.delayed.length - 1]? = some p) :
    q'.popLast.1 = some p ∧ Takes q p q'.popLast.2 ∧ (q'.popLast.2.item p).heapIndex = -1 := by
  rw [← hs.length] at hlast
  obtain ⟨hres, htakes, hidx⟩ := popLast_takes hs.moves.placed hlast
  refine ⟨hres, ⟨(hs.moves.trans htakes.moves fun x hx => .inl hx).congr fun x => ?_,
    fun x hx => (htakes.elem x hx).trans (hs.elem x)⟩, hidx⟩
  rw [hs.moves.queued]

theorem heapPop_takes (hfront : q.delayed.head? = some p) :
    q.heapPop.1 = some p ∧ Takes q p q.heapPop.2 ∧ (q.heapPop.2.item p).heapIndex = -1 := by
  have hfirst : q.delayed[0]? = some p := by rw [← head?_eq_getElem?, hfront]
  have hpos : 0 < q.delayed.length := (List.getElem?_eq_some_iff.mp hfirst).1
  have hlt : q.delayed.length - 1 < q.delayed.length := by omega
  have hkept :=
    Heap.sinkFirst_kept (sifted_kept_last q p) (s := q) ⟨(Sifted.refl h).swap hpos hlt, by
    show (q.delayedSwap 0 (q.delayed.length - 1)).delayed[_]? = _
    rw [delayed_swap hfirst (getElem?_eq_getElem hlt),
      getElem?_swap hfirst (getElem?_eq_getElem hlt), if_pos rfl]⟩
  exact popLast_sifted hkept.1 hkept.2

theorem heapRemove_takes (hi : q.delayed[i]? = some p) : Takes q p (q.heapRemove i) := by
  have hlen : i < q.delayed.length := (List.getElem?_eq_some_iff.mp hi).1
  have hlt : q.delayed.length - 1 < q.delayed.length := by omega
  have hkept := Heap.sinkAt_kept (s := q) hlen (sifted_kept_last q p)
    (fun hlast => ⟨Sifted.refl h, by
      have hlast' : q.delayed.length - 1 = i := hlast
      rw [hlast', hi]⟩)
    (fun _ => ⟨(Sifted.refl h).swap hlen hlt, by
      show (q.delayedSwap i (q.delayed.length - 1)).delayed[_]? = _
      rw [delayed_swap hi (getElem?_eq_getElem hlt),
        getElem?_swap hi (getElem?_eq_getElem hlt), if_pos rfl]⟩)
  exact (popLast_sifted hkept.1 hkept.2).2.1

theorem append_moves (hp : ¬ q.Queued p) (hl : (q.item p).elem = none) :
    Moves q (fun x => q.Queued x ∨ x = p) ({ q with delayed := q.delayed ++ [p] }.assign p
      fun h => { h with heapIndex := q.delayed.length }) := by
  refine Moves.of_item ⟨h.nodup, h.elems, ?_, ?_⟩ (fun x => ?_) rfl rfl (.inr (.inr rfl)) rfl
  · intro e he
    have hne : q.value e ≠ p := value_ne_of_not_queued hp he
    simp only [value_assign, item_assign_of_ne hne]
    exact h.ready e he
  · intro k x hk
    simp only [delayed_assign] at hk
    by_cases hlt : k < q.delayed.length
    · rw [getElem?_append_left hlt] at hk
      have hx : x ≠ p := ne_of_not_queued hp (mem_of_getElem? hk)
      rw [item_assign_of_ne hx]
      exact h.delayed k x hk
    · rw [getElem?_append_right (by omega)] at hk
      have hk0 : k = q.delayed.length := by
        have := (List.getElem?_eq_some_iff.mp hk).1
        simp only [length_singleton] at this
        omega
      subst hk0
      simp only [Nat.sub_self, getElem?_cons_zero, Option.some.injEq] at hk
      subst hk
      rw [item_assign_self]
      exact ⟨hl, rfl⟩
  · simp only [Queued, ready_assign, value_assign, delayed_assign, mem_append,
      mem_singleton, or_assoc]

theorem heapPush_moves (hp : ¬ q.Queued p) (hl : (q.item p).elem = none) :
    Moves q (fun x => q.Queued x ∨ x = p) (q.heapPush p) ∧
      ((q.heapPush p).item p).elem = none := by
  have happ := append_moves h hp hl
  have hpos : 0 < (q.delayed ++ [p]).length := by simp
  have hsift : Sifted ({ q with delayed := q.delayed ++ [p] }.assign p
      fun h => { h with heapIndex := q.delayed.length }) (q.heapPush p) :=
    Heap.siftLast_kept (sifted_kept le_rfl) hpos (Sifted.refl happ.placed)
  have hmem := happ.queued
  refine ⟨(happ.trans hsift.moves fun x hx => .inr ((hmem x).mpr hx)).congr hmem, ?_⟩
  refine (hsift.elem p).trans ?_
  rw [item_assign_self]
  exact hl

end

section
variable (h : q.Placed)
include h

theorem pushBack_moves (hp : ¬ q.Queued p) (hl : (q.item p).heapIndex = -1) :
    Moves q (fun x => q.Queued x ∨ x = p) (q.pushBack p) := by
  have hnew : ∀ e ∈ q.ready, e ≠ q.nextElem := fun e he => Nat.ne_of_lt (h.elems e he)
  have hvalue : ∀ e ∈ q.ready, (q.pushBack p).value e = q.value e := fun e he =>
    update_of_ne (hnew e he) _ _
  have hlast : (q.pushBack p).value q.nextElem = p := update_self ..
  have hitem : ∀ x, x ≠ p → (q.pushBack p).item x = q.item x := fun x hx =>
    update_of_ne hx _ _
  have hself : (q.pushBack p).item p = { q.item p with elem := some q.nextElem } :=
    update_self ..
  have hcases : ∀ e, e ∈ (q.pushBack p).ready ↔ e ∈ q.ready ∨ e = q.nextElem := by
    intro e
    exact mem_append.trans (or_congr_right mem_singleton)
  have hqueued : ∀ x, (q.pushBack p).Queued x ↔ q.Queued x ∨ x = p := by
    intro x
    constructor
    · rintro (⟨e, he, rfl⟩ | hx)
      · rcases (hcases e).mp he with he | rfl
        · exact .inl (.inl ⟨e, he, (hvalue e he).symm⟩)
        · exact .inr hlast
      · exact .inl (.inr hx)
    · rintro ((⟨e, he, rfl⟩ | hx) | rfl)
      · exact .inl ⟨e, (hcases e).mpr (.inl he), hvalue e he⟩
      · exact .inr hx
      · exact .inl ⟨q.nextElem, (hcases _).mpr (.inr rfl), hlast⟩
  refine Moves.of_item ⟨?_, ?_, ?_, ?_⟩ hqueued rfl rfl (.inr (.inr rfl)) rfl
  · exact List.Nodup.append h.nodup (nodup_singleton _)
      fun e he he' => hnew e he (mem_singleton.mp he')
  · intro e he
    show e < q.nextElem + 1
    rcases (hcases e).mp he with he | rfl
    · exact Nat.lt_succ_of_lt (h.elems e he)
    · exact Nat.lt_succ_self _
  · intro e he
    rcases (hcases e).mp he with he | rfl
    · rw [hvalue e he, hitem _ (value_ne_of_not_queued hp he)]
      exact h.ready e he
    · rw [hlast, hself]
      exact ⟨rfl, hl⟩
  · intro k x hk
    rw [hitem x (ne_of_not_queued hp (mem_of_getElem? hk))]
    exact h.delayed k x hk

theorem takeOut_takes (hp : q.Queued p) : Takes q p (q.takeOut p) := by
  rcases hp with ⟨e, he, rfl⟩ | hp
  · have helem := (h.ready e he).1
    have hother : ∀ e' ∈ q.ready, q.value e' ≠ q.value e ↔ e' ≠ e := fun e' he' =>
      not_congr ⟨h.value_inj he' he, fun heq => by rw [heq]⟩
    have hmem : ∀ e', e' ∈ q.ready.erase e ↔ e' ≠ e ∧ e' ∈ q.ready := fun e' =>
      h.nodup.mem_erase_iff
    simp only [takeOut, helem]
    refine ⟨Moves.of_item ⟨h.nodup.erase e, ?_, ?_, ?_⟩ (fun x => ?_) rfl rfl
      (.inl (.inl ⟨e, he, rfl⟩)) rfl, fun x hx => by rw [item_assign_of_ne hx]⟩
    · exact fun e' he' => h.elems e' ((hmem e').mp he').2
    · intro e' he'
      obtain ⟨hne, he'⟩ := (hmem e').mp he'
      simp only [value_assign, item_assign_of_ne ((hother e' he').mpr hne)]
      exact h.ready e' he'
    · intro k x hk
      rw [item_assign_of_ne (h.value_ne he (mem_of_getElem? hk)).symm]
      exact h.delayed k x hk
    · simp only [Queued, ready_assign, value_assign, delayed_assign, hmem]
      constructor
      · rintro (⟨e', ⟨hne, he'⟩, rfl⟩ | hx)
        · exact ⟨.inl ⟨e', he', rfl⟩, (hother e' he').mpr hne⟩
        · exact ⟨.inr hx, (h.value_ne he hx).symm⟩
      · rintro ⟨⟨e', he', rfl⟩ | hx, hne⟩
        · exact .inl ⟨e', ⟨(hother e' he').mp hne, he'⟩, rfl⟩
        · exact .inr hx
  · obtain ⟨i, hi⟩ := mem_iff_getElem?.mp hp
    obtain ⟨helem, hidx⟩ := h.delayed i p hi
    have hpos : (0 : Int) ≤ i := Int.natCast_nonneg i
    simp only [takeOut, helem, hidx, hpos, if_true, Int.toNat_natCast]
    exact heapRemove_takes h hi

theorem replace_ready_moves (he : e ∈ q.ready) (ha : ¬ q.Queued a) :
    Moves q (fun x => (q.Queued x ∧ x ≠ q.value e) ∨ x = a) (q.replace a (q.value e)) := by
  have hvalue : ∀ e', e' ≠ e → update q.value e a e' = q.value e' := fun e' hne =>
    update_of_ne hne _ _
  have hqueued : ∀ x, (q.setValue e a).Queued x ↔ (q.Queued x ∧ x ≠ q.value e) ∨ x = a := by
    intro x
    simp only [Queued, setValue]
    constructor
    · rintro (⟨e', he', rfl⟩ | hx)
      · by_cases hne : e' = e
        · subst hne
          exact .inr (update_self ..)
        · rw [hvalue e' hne]
          exact .inl ⟨.inl ⟨e', he', rfl⟩, fun heq => hne (h.value_inj he' he heq)⟩
      · exact .inl ⟨.inr hx, (h.value_ne he hx).symm⟩
    · rintro (⟨⟨e', he', rfl⟩ | hx, hne⟩ | rfl)
      · exact .inl ⟨e', he', hvalue e' fun heq => hne (by rw [heq])⟩
      · exact .inr hx
      · exact .inl ⟨e, he, update_self ..⟩
  simp only [replace, (h.ready e he).1]
  refine Moves.of_item ⟨h.nodup, h.elems, fun e' he' => ?_, fun k x hk => ?_⟩ hqueued rfl rfl
    (.inr (.inr rfl)) rfl
  · by_cases hne : e' = e
    · subst hne
      simp only [value_assign, setValue, update_self, item_assign_self]
      exact ⟨trivial, trivial⟩
    · simp only [value_assign, setValue, hvalue e' hne]
      rw [item_assign_of_ne (value_ne_of_not_queued ha he')]
      exact h.ready e' he'
  · rw [item_assign_of_ne (ne_of_not_queued ha (mem_of_getElem? hk))]
    exact h.delayed k x hk

theorem replace_delayed (hi : q.delayed[i]? = some p) :
    q.replace a p = { q.assign a fun h => { h with heapIndex := i, elem := none } with
      delayed := q.delayed.set i a } := by
  obtain ⟨helem, hidx⟩ := h.delayed i p hi
  have hlt : (i : Int) < q.delayed.length := Int.ofNat_lt.mpr (List.getElem?_eq_some_iff.mp hi).1
  simp only [replace, helem, hidx, setDelayed, delayed_assign, Int.natCast_nonneg, hlt, and_self,
    if_true, Int.toNat_natCast]

theorem replace_delayed_moves (hi : q.delayed[i]? = some p) (ha : ¬ q.Queued a) :
    Moves q (fun x => (q.Queued x ∧ x ≠ p) ∨ x = a) (q.replace a p) := by
  have hp : p ∈ q.delayed := mem_of_getElem? hi
  have hlt : i < q.delayed.length := (List.getElem?_eq_some_iff.mp hi).1
  have hget : ∀ k : Nat, (q.delayed.set i a)[k]? = if i = k then some a else q.delayed[k]? := by
    intro k
    simp only [getElem?_set, hlt, if_true]
  have hset : ∀ x, x ∈ q.delayed.set i a ↔ (x ∈ q.delayed ∧ x ≠ p) ∨ x = a := by
    intro x
    simp only [mem_iff_getElem?, hget]
    constructor
    · rintro ⟨k, hk⟩
      split_ifs at hk with hik
      · exact .inr (Option.some.inj hk).symm
      · exact .inl ⟨⟨k, hk⟩, fun heq => hik (h.delayed_inj hi (heq ▸ hk))⟩
    · rintro (⟨⟨k, hk⟩, hne⟩ | rfl)
      · have hik : i ≠ k := by
          rintro rfl
          exact hne (Option.some.inj (hk.symm.trans hi))
        exact ⟨k, by rw [if_neg hik, hk]⟩
      · exact ⟨i, if_pos rfl⟩
  rw [replace_delayed h hi]
  have hqueued : ∀ x, (q.Queued x ∧ x ≠ p) ∨ x = a ↔
      (∃ e ∈ q.ready, q.value e = x) ∨ x ∈ q.delayed.set i a := by
    intro x
    rw [hset]
    constructor
    · rintro (⟨hx | hx, hne⟩ | rfl)
      · exact .inl hx
      · exact .inr (.inl ⟨hx, hne⟩)
      · exact .inr (.inr rfl)
    · rintro (⟨e', he', rfl⟩ | ⟨hx, hne⟩ | rfl)
      · exact .inl ⟨.inl ⟨e', he', rfl⟩, h.value_ne he' hp⟩
      · exact .inl ⟨.inr hx, hne⟩
      · exact .inr rfl
  refine Moves.of_item ⟨h.nodup, h.elems, fun e' he' => ?_, fun k x hk => ?_⟩
    (fun x => (hqueued x).symm) rfl rfl (.inr (.inr rfl)) rfl
  · have hne : q.value e' ≠ a := value_ne_of_not_queued ha he'
    simp only [value_assign, item_assign_of_ne hne]
    exact h.ready e' he'
  · simp only [hget] at hk
    split_ifs at hk with hik
    · obtain rfl : a = x := Option.some.inj hk
      subst hik
      simp only [item_assign_self]
      exact ⟨trivial, trivial⟩
    · simp only [item_assign_of_ne (ne_of_not_queued ha (mem_of_getElem? hk))]
      exact h.delayed k x hk

theorem replace_moves (hp : q.Queued p) (ha : ¬ q.Queued a) :
    Moves q (fun x => (q.Queued x ∧ x ≠ p) ∨ x = a) (q.replace a p) := by
  rcases hp with ⟨e, he, rfl⟩ | hp
  · exact replace_ready_moves h he ha
  · obtain ⟨i, hi⟩ := mem_iff_getElem?.mp hp
    exact replace_delayed_moves h hi ha

/-- The first hint of the heap goes to the end of the ready list. -/
theorem promote_moves (hfront : q.delayed.head? = some p) :
    q.heapPop.1 = some p ∧ Moves q q.Queued (q.heapPop.2.pushBack p) := by
  obtain ⟨hres, ⟨hpop, -⟩, hidx⟩ := heapPop_takes h hfront
  have hgone : ¬ q.heapPop.2.Queued p := fun hx => ((hpop.queued _).mp hx).2 rfl
  have hpush := pushBack_moves hpop.placed hgone hidx
  have hback : ∀ x, q.heapPop.2.Queued x ∨ x = p ↔ q.Queued x := by
    intro x
    rw [hpop.queued]
    constructor
    · rintro (hx | rfl)
      · exact hx.1
      · exact .inr (mem_of_head? hfront)
    · intro hx
      by_cases hne : x = p
      · exact .inr hne
      · exact .inl ⟨hx, hne⟩
  exact ⟨hres, (hpop.trans hpush fun x hx => .inl hx.1).congr hback⟩

end

theorem moveDue_moves (now : Int) (fuel : Nat) (h : q.Placed) :
    Moves q q.Queued (moveDue now fuel q) := by
  induction fuel generalizing q with
  | zero => exact Moves.refl h
  | succ fuel ih =>
    cases hfront : q.delayed.head? with
    | none =>
      simp only [moveDue, hfront]
      exact Moves.refl h
    | some front =>
      simp only [moveDue, hfront]
      split
      · exact Moves.refl h
      · obtain ⟨hres, hround⟩ := promote_moves h hfront
        simp only [hres]
        exact (hround.trans (ih hround.placed) fun x hx => .inl hx).congr hround.queued

end HintQueue

end Kioshun
