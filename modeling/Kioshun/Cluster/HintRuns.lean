import Kioshun.Cluster.HintEnqueue

/-!
# The queue of hints over whole runs

`enqueue`, `requeue` and `popReady` keep the queue in order, in every sequence of
calls and for every hint, one that was rejected before included: what such a hint
still says about its place is overwritten when it is put into a container.
-/

namespace Kioshun
open Function List

namespace HintQueue
variable {q q₁ q' : HintQueue} {p a e i j : Nat} {now : Int}

def waiting (q : HintQueue) : List Nat := q.ready.map q.value

theorem delayedSwap_ready (q : HintQueue) (i j : Nat) :
    (q.delayedSwap i j).ready = q.ready ∧ (q.delayedSwap i j).value = q.value := by
  rw [delayedSwap]
  split <;> exact ⟨rfl, rfl⟩

theorem popLast_waiting (q : HintQueue) : q.popLast.2.waiting = q.waiting := by
  rw [popLast]
  split <;> rfl

theorem heapPop_waiting (q : HintQueue) : q.heapPop.2.waiting = q.waiting := by
  have hsift : (Heap.sinkFirst delayHeap q).ready = q.ready ∧
      (Heap.sinkFirst delayHeap q).value = q.value :=
    Heap.sinkFirst_kept (P := fun s => s.ready = q.ready ∧ s.value = q.value)
      (fun s i j _ _ hs =>
        ⟨(delayedSwap_ready s i j).1.trans hs.1, (delayedSwap_ready s i j).2.trans hs.2⟩)
      (delayedSwap_ready q 0 _)
  rw [heapPop, popLast_waiting, waiting, hsift.1, hsift.2, waiting]

theorem pushBack_waiting (h : q.Placed) (p : Nat) : (q.pushBack p).waiting = q.waiting ++ [p] := by
  have hvalue : ∀ e ∈ q.ready, (q.pushBack p).value e = q.value e := fun e he =>
    update_of_ne (Nat.ne_of_lt (h.elems e he)) _ _
  have hlast : (q.pushBack p).value q.nextElem = p := update_self ..
  show (q.ready ++ [q.nextElem]).map (q.pushBack p).value = _
  rw [map_append, map_congr_left hvalue, map_singleton, hlast, waiting]

/-- One round of `moveDueLocked`: the first hint of the heap goes to the end of the ready list. -/
structure Promotes (q : HintQueue) (p : Nat) (q' : HintQueue) : Prop where
  moves : Moves q q.Queued q'
  ordered : q'.Ordered
  waiting : q'.waiting = q.waiting ++ [p]
  delayed : q'.delayed.length + 1 = q.delayed.length

theorem promotes_first (h : q.Placed) (hord : q.Ordered) (hfront : q.delayed.head? = some p) :
    Promotes q p (q.heapPop.2.pushBack p) := by
  have hpos : 0 < q.delayed.length := length_pos_of_mem (mem_of_head? hfront)
  have hlength := heapPop_length h hpos
  obtain ⟨-, htakes, -⟩ := heapPop_takes h hfront
  refine ⟨(promote_moves h hfront).2, pushBack_ordered (heapPop_ordered h hord hpos) p, ?_, ?_⟩
  · rw [pushBack_waiting htakes.moves.placed, heapPop_waiting]
  · show q.heapPop.2.delayed.length + 1 = q.delayed.length
    omega

/-- What `moveDueLocked` does besides: it promotes the due hints and no others. -/
structure Promoted (q : HintQueue) (now : Int) (q' : HintQueue) : Prop where
  ordered : q'.Ordered
  waiting : ∃ due, q'.waiting = q.waiting ++ due ∧ ∀ x ∈ due, (q.item x).nextAt ≤ now
  late : ∀ x ∈ q'.delayed, now < (q.item x).nextAt

/-- Nothing is due: the first hint of the heap is the one that is due first. -/
theorem Promoted.refl (hord : q.Ordered)
    (hlate : ∀ front, q.delayed.head? = some front → now < (q.item front).nextAt) :
    Promoted q now q := by
  refine ⟨hord, ⟨[], (append_nil _).symm, fun x hx => absurd hx not_mem_nil⟩, ?_⟩
  intro x hx
  obtain ⟨i, hi, rfl⟩ := mem_iff_getElem.mp hx
  have hfirst : q.delayed[0]? = some q.delayed[0] := getElem?_eq_getElem (by omega)
  have hleast : q.dueAt 0 ≤ q.dueAt i := Heap.Ordered.first_le hord hi
  rw [dueAt_of_getElem? hfirst, dueAt_of_getElem? (getElem?_eq_getElem hi)] at hleast
  exact (hlate _ (head?_eq_getElem?.trans hfirst)).trans_le hleast

theorem Promotes.promoted {q₂ : HintQueue} (h : Promotes q p q₁) (hdue : (q.item p).nextAt ≤ now)
    (hrest : Promoted q₁ now q₂) : Promoted q now q₂ := by
  have hnext : ∀ x, (q₁.item x).nextAt = (q.item x).nextAt := fun x =>
    HintItem.eq_of_content HintItem.nextAt (fun _ => rfl) (h.moves.content x)
  obtain ⟨due, hwaiting, hall⟩ := hrest.waiting
  refine ⟨hrest.ordered, ⟨p :: due, ?_, ?_⟩, ?_⟩
  · rw [hwaiting, h.waiting, append_assoc, singleton_append]
  · intro x hx
    rcases mem_cons.mp hx with rfl | hx
    · exact hdue
    · exact (hnext x).symm.trans_le (hall x hx)
  · intro x hx
    exact (hrest.late x hx).trans_eq (hnext x)

theorem moveDue_promoted (now : Int) (fuel : Nat) (h : q.Placed) (hord : q.Ordered)
    (hfuel : q.delayed.length ≤ fuel) : Promoted q now (moveDue now fuel q) := by
  induction fuel generalizing q with
  | zero =>
    refine Promoted.refl hord fun front hfront => ?_
    have hpos := length_pos_of_mem (mem_of_head? hfront)
    omega
  | succ fuel ih =>
    cases hfront : q.delayed.head? with
    | none =>
      simp only [moveDue, hfront]
      refine Promoted.refl hord fun front hsome => ?_
      cases hfront.symm.trans hsome
    | some front =>
      simp only [moveDue, hfront]
      split
      case isTrue hlate =>
        refine Promoted.refl hord fun p hp => ?_
        cases hfront.symm.trans hp
        exact hlate
      case isFalse hdue =>
        have hround := promotes_first h hord hfront
        have hless := hround.delayed
        simp only [(promote_moves h hfront).1]
        exact hround.promoted (Int.not_lt.mp hdue)
          (ih hround.moves.placed hround.ordered (by omega))

theorem moveDueLocked_becomes (h : q.Sound) (now : Int) :
    Becomes q q.Queued 0 0 (q.moveDueLocked now) := by
  have hmoves := moveDue_moves now q.delayed.length h.rep.placed
  have hdue := moveDue_promoted now q.delayed.length h.rep.placed h.ordered le_rfl
  obtain ⟨hcount, hvolume⟩ := tally_same h.rep.placed hmoves.placed hmoves.queued hmoves.content
  refine h.becomes hmoves hdue.ordered rfl ?_ h.rep.allocated h.sized hcount hvolume ?_ ?_
  · show ∀ bk p, (moveDue now q.delayed.length q).index bk = some p ↔ _
    rw [hmoves.index]
    exact h.rep.indexed
  · exact hmoves.items.trans (Int.add_zero _).symm
  · exact hmoves.bytes.trans (Int.add_zero _).symm

theorem removeItem_sound (h : q.Sound) (hw : q.Within) (hp : q.Queued p) :
    (q.removeItem p).Sound ∧ (q.removeItem p).Within := by
  have hdrops := (removeItem_drops h hp).becomes
  have hsize := h.sized p hp
  refine ⟨hdrops.sound, hw.of_le hdrops.limits ?_ ?_⟩
  · rw [hdrops.items]
    omega
  · rw [hdrops.bytes]
    omega

theorem popLoop_sound (now : Int) (fuel : Nat) (h : q.Sound) (hw : q.Within) :
    (popLoop now fuel q).2.Sound ∧ (popLoop now fuel q).2.Within := by
  induction fuel generalizing q with
  | zero => exact ⟨h, hw⟩
  | succ fuel ih =>
    cases hfront : q.ready.head? with
    | none =>
      simp only [popLoop, hfront]
      exact ⟨h, hw⟩
    | some e =>
      have hp : q.Queued (q.value e) := .inl ⟨e, mem_of_head? hfront, rfl⟩
      obtain ⟨h₁, hw₁⟩ := removeItem_sound h hw hp
      simp only [popLoop, hfront]
      split
      · exact ih h₁ hw₁
      · exact ⟨h₁, hw₁⟩

theorem popReady_sound (h : q.Sound) (hw : q.Within) (now : Int) :
    (q.popReady now).2.Sound ∧ (q.popReady now).2.Within := by
  have hdue := moveDueLocked_becomes h now
  refine popLoop_sound now _ hdue.sound (hw.of_le hdue.limits ?_ ?_)
  · rw [hdue.items, Int.add_zero]
  · rw [hdue.bytes, Int.add_zero]

/-- A hint as its makers fill it in: `size` caches a number of bytes, and the other fields are
arbitrary. -/
def SizedItem := { it : HintItem // 0 ≤ it.size }

/-- The calls of a queue, with the readings of the clock. `requeue` is given a hint that was made
before, in the state in which its holder has left it. -/
inductive Call where
  | enqueue (it : SizedItem) (now : Int)
  | requeue (p : Nat) (it : SizedItem) (now : Int)
  | popReady (now : Int)

def alloc (q : HintQueue) (it : HintItem) : HintQueue :=
  { q with item := update q.item q.nextItem it, nextItem := q.nextItem + 1 }

/-- The holder of a hint writes its fields; nobody holds one that is queued. -/
def write (q : HintQueue) (p : Nat) (it : HintItem) : HintQueue :=
  if p ∈ q.hints then q else q.assign p fun _ => it

def requeue (q : HintQueue) (p : Nat) (now : Int) : HintQueue := (q.enqueue p now).2

def call (q : HintQueue) : Call → HintQueue
  | .enqueue it now => ((q.alloc it.1).enqueue q.nextItem now).2
  | .requeue p it now => if p < q.nextItem then (q.write p it.1).requeue p now else q
  | .popReady now => (q.popReady now).2

/-- The hint that a caller gives to `enqueue`, in the queue as it is then: a new object, or one that
was made before. -/
def offer (q : HintQueue) : Option (Fin q.nextItem) → SizedItem → HintQueue × Nat
  | none, it => (q.alloc it.1, q.nextItem)
  | some p, it => (q.write p it.1, p)

def after (cfg : HandoffConfig) (calls : List Call) : HintQueue :=
  Schedule.exec call (newHintQueue cfg) calls

theorem newHintQueue_sound (cfg : HandoffConfig) :
    (newHintQueue cfg).Sound ∧ (newHintQueue cfg).Within := by
  have hnone : ∀ p, ¬ (newHintQueue cfg).Queued p := by
    rintro p (⟨e, he, -⟩ | hp)
    · exact absurd he not_mem_nil
    · exact absurd hp not_mem_nil
  refine ⟨⟨⟨⟨nodup_nil, ?_, ?_, ?_⟩, ?_, ?_, rfl⟩, ?_, rfl, rfl, ?_⟩, ?_⟩
  · exact fun e he => absurd he not_mem_nil
  · exact fun e he => absurd he not_mem_nil
  · exact fun i p hi => absurd (mem_of_getElem? hi) not_mem_nil
  · intro bk p
    constructor
    · rintro ⟨⟩
    · exact fun hp => absurd hp.2 (hnone p)
  · exact fun p hp => absurd hp (hnone p)
  · exact fun k _ hk => absurd hk (Nat.not_lt_zero k)
  · exact fun p hp => absurd hp (hnone p)
  · simp only [Within, overCap, Bool.or_eq_false_iff, decide_eq_false_iff_not]
    show ¬ (0 < cfg.PerPeerCap ∧ cfg.PerPeerCap < 0) ∧
      ¬ (0 < cfg.PerPeerBytes ∧ cfg.PerPeerBytes < 0)
    omega

theorem alloc_sound (h : q.Sound) (it : HintItem) : (q.alloc it).Sound := by
  have hnew : ¬ q.Queued q.nextItem := fun hin => Nat.lt_irrefl _ (h.rep.allocated _ hin)
  obtain ⟨hrep, hord, hitems, hbytes, hsized⟩ := h.assign hnew fun _ => it
  refine ⟨⟨⟨hrep.placed.nodup, hrep.placed.elems, hrep.placed.ready, hrep.placed.delayed⟩,
    hrep.indexed, fun p hp => ?_, hrep.running⟩, hord, hitems, hbytes, hsized⟩
  exact Nat.lt_succ_of_lt (hrep.allocated p hp)

structure Ready (q : HintQueue) (a : Nat) : Prop where
  sound : q.Sound
  within : q.Within
  allocated : a < q.nextItem
  sized : 0 ≤ (q.item a).size

theorem offer_ready (h : q.Sound) (hw : q.Within) (p : Option (Fin q.nextItem)) (it : SizedItem) :
    Ready (q.offer p it).1 (q.offer p it).2 := by
  cases p with
  | none =>
    refine ⟨alloc_sound h it.1, hw, Nat.lt_succ_self _, ?_⟩
    simp only [offer, alloc, update_self]
    exact it.2
  | some p =>
    by_cases hin : (p : Nat) ∈ q.hints
    · simp only [offer, write, if_pos hin]
      exact ⟨h, hw, p.2, h.sized p (mem_hints.mp hin)⟩
    · have hp : ¬ q.Queued p := fun hq => hin (mem_hints.mpr hq)
      simp only [offer, write, if_neg hin]
      refine ⟨h.assign hp _, hw, p.2, ?_⟩
      rw [item_assign_self]
      exact it.2

theorem Ready.enqueue (h : Ready q a) (now : Int) :
    (q.enqueue a now).2.Sound ∧ (q.enqueue a now).2.Within :=
  enqueue_sound h.sound h.within h.allocated h.sized now

theorem call_sound (h : q.Sound) (hw : q.Within) (c : Call) :
    (q.call c).Sound ∧ (q.call c).Within := by
  cases c with
  | enqueue it now => exact (offer_ready h hw none it).enqueue now
  | requeue p it now =>
    simp only [call]
    split
    case isTrue hp => exact (offer_ready h hw (some ⟨p, hp⟩) it).enqueue now
    case isFalse => exact ⟨h, hw⟩
  | popReady now => exact popReady_sound h hw now

theorem after_sound (cfg : HandoffConfig) (calls : List Call) :
    (after cfg calls).Sound ∧ (after cfg calls).Within :=
  Schedule.exec_invariant (I := fun q : HintQueue => q.Sound ∧ q.Within)
    (fun _ c h => call_sound h.1 h.2 c) (newHintQueue_sound cfg)

/-- The representation of the queue. Each hint is once in the ready list or once in the heap, and
nothing but the indexed hints is in either. -/
structure Represents (q : HintQueue) : Prop where
  index : ∀ key p, q.index key = some p ↔ (q.item p).key = key ∧ p ∈ q.hints
  once : q.hints.Nodup
  ready : ∀ e ∈ q.ready, (q.item (q.value e)).elem = some e ∧ (q.item (q.value e)).heapIndex = -1
  delayed : ∀ (i p : Nat), q.delayed[i]? = some p →
    (q.item p).elem = none ∧ (q.item p).heapIndex = i
  ordered : ∀ i a p : Nat, 0 < i → q.delayed[(i - 1) / 2]? = some a → q.delayed[i]? = some p →
    (q.item a).nextAt ≤ (q.item p).nextAt
  items : q.items = q.hints.length
  bytes : q.bytes = (q.hints.map fun p => (q.item p).size).sum
  maxItems : 0 < q.maxItems → q.items ≤ q.maxItems
  maxBytes : 0 < q.maxBytes → q.bytes ≤ q.maxBytes
  running : q.faulted = false

theorem Sound.represents (h : q.Sound) (hw : q.Within) : q.Represents := by
  simp only [Within, overCap, Bool.or_eq_false_iff, decide_eq_false_iff_not] at hw
  obtain ⟨hitems, hbytes⟩ := hw
  constructor
  · intro key p
    rw [mem_hints]
    exact h.rep.indexed key p
  · exact h.rep.placed.nodup_hints
  · exact h.rep.placed.ready
  · exact h.rep.placed.delayed
  · intro i a p hpos ha hp
    have hle := h.ordered i hpos (List.getElem?_eq_some_iff.mp hp).1
    rwa [dueAt_of_getElem? ha, dueAt_of_getElem? hp] at hle
  · exact h.items
  · exact h.bytes
  · omega
  · omega
  · exact h.rep.running

/-- The queue is represented properly after every sequence of calls. -/
theorem after_represents (cfg : HandoffConfig) (calls : List Call) :
    (after cfg calls).Represents := by
  obtain ⟨hsound, hwithin⟩ := after_sound cfg calls
  exact hsound.represents hwithin

end HintQueue

end Kioshun
