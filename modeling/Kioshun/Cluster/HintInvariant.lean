import Kioshun.Cluster.HintOrder
import Kioshun.Lib.Schedule

/-!
# The representation of the queue of hints

Between its operations the queue is in order: the index has exactly the queued hints,
each of them is in one container and knows its place there, the delayed ones are a
heap, the counters count, and the caps hold. The operations are shown to keep this one
by one: dropping a hint, putting a new one in, and putting one in the place of another,
which is also how `enqueue` takes a replacement back.
-/

namespace Kioshun
open Function List

namespace HintQueue
variable {q q₁ q₂ q₃ q' q'' : HintQueue} {p a e i j : Nat} {M : Nat → Prop} {now : Int}
variable {idx idx' : Bytes → Option Nat}

section Sound

structure Sound (q : HintQueue) : Prop where
  rep : q.Rep
  ordered : q.Ordered
  items : q.items = q.hints.length
  bytes : q.bytes = q.volume
  sized : ∀ p, q.Queued p → 0 ≤ (q.item p).size

def Within (q : HintQueue) : Prop := q.overCap q.items q.bytes = false

/-- From `q` to `q'` the counters have changed by `items` and `bytes`, and `members` are queued
now. -/
structure Becomes (q : HintQueue) (members : Nat → Prop) (items bytes : Int) (q' : HintQueue) :
    Prop where
  sound : q'.Sound
  queued : ∀ x, q'.Queued x ↔ members x
  content : ∀ x, (q'.item x).content = (q.item x).content
  limits : q'.limits = q.limits
  drop : q'.drop = q.drop
  items : q'.items = q.items + items
  bytes : q'.bytes = q.bytes + bytes

/-- The size of a hint does not depend on its place. -/
theorem size_of_content {h h' : HintItem} (heq : h.content = h'.content) : h.size = h'.size :=
  HintItem.eq_of_content HintItem.size (fun _ => rfl) heq

/-- After the hints have been moved around, the index and the counters are set. -/
theorem Sound.becomes {items bytes n b : Int} (h : q.Sound)
    (hmoves : Moves { q with index := idx } M q₁) (hord : q₁.Ordered)
    (hsame : { q' with index := idx', items := n, bytes := b } = q₁)
    (hindex : ∀ bk p, q'.index bk = some p ↔ (q.item p).key = bk ∧ M p)
    (halloc : ∀ p, M p → p < q.nextItem) (hsized : ∀ p, M p → 0 ≤ (q.item p).size)
    (hcount : (q₁.hints.length : Int) = q.hints.length + items)
    (hvolume : q₁.volume = q.volume + bytes) (hitems' : q'.items = q.items + items)
    (hbytes' : q'.bytes = q.bytes + bytes) : Becomes q M items bytes q' := by
  subst hsame
  have hset := hmoves.settings
  simp only [settings, Prod.mk.injEq] at hset
  obtain ⟨hnext, hmaxItems, hmaxBytes, httl, hdrop, hfault, -⟩ := hset
  have hrep : q'.Rep := by
    refine ⟨⟨hmoves.placed.nodup, hmoves.placed.elems, hmoves.placed.ready, hmoves.placed.delayed⟩,
      fun bk p => ?_, fun p hp => ?_, hfault.trans h.rep.running⟩
    · have hkey : (q'.item p).key = (q.item p).key :=
        HintItem.eq_of_content HintItem.key (fun _ => rfl) (hmoves.content p)
      rw [hindex, ← hmoves.queued p, ← hkey]
      rfl
    · exact (halloc p ((hmoves.queued p).mp hp)).trans_eq hnext.symm
  refine ⟨⟨hrep, hord, ?_, ?_, fun x hx => ?_⟩, hmoves.queued, hmoves.content, ?_, hdrop, hitems',
    hbytes'⟩
  · rw [hitems', h.items]
    exact hcount.symm
  · rw [hbytes', h.bytes]
    exact hvolume.symm
  · rw [size_of_content (hmoves.content x)]
    exact hsized x ((hmoves.queued x).mp hx)
  · simp only [limits, hnext, hmaxItems, hmaxBytes, httl]

end Sound

theorem tally_remove (h : q.Placed) (h' : q'.Placed) (hp : q.Queued p)
    (hqueued : ∀ x, q'.Queued x ↔ q.Queued x ∧ x ≠ p)
    (hcontent : ∀ x, (q'.item x).content = (q.item x).content) :
    (q'.hints.length : Int) = q.hints.length + -1 ∧ q'.volume = q.volume + -(q.item p).size := by
  have hback : ∀ x, q.Queued x ↔ q'.Queued x ∨ x = p := by
    intro x
    rw [hqueued]
    by_cases hx : x = p
    · rw [hx]
      simp [hp]
    · simp [hx]
  have hperm := hints_perm_cons h' h (fun hin => ((hqueued p).mp hin).2 rfl) hback
  have hvolume := volume_of_perm (q := q') hperm fun x => (size_of_content (hcontent x)).symm
  rw [map_cons, sum_cons, size_of_content (hcontent p)] at hvolume
  constructor
  · rw [hperm.length_eq, length_cons]
    omega
  · rw [hvolume, volume]
    omega

theorem tally_insert (h : q.Placed) (h' : q'.Placed) (ha : ¬ q.Queued a)
    (hqueued : ∀ x, q'.Queued x ↔ q.Queued x ∨ x = a)
    (hcontent : ∀ x, (q'.item x).content = (q.item x).content) :
    (q'.hints.length : Int) = q.hints.length + 1 ∧ q'.volume = q.volume + (q.item a).size := by
  have hperm := hints_perm_cons h h' ha hqueued
  have hvolume := volume_of_perm hperm fun x => size_of_content (hcontent x)
  rw [map_cons, sum_cons] at hvolume
  constructor
  · rw [hperm.length_eq, length_cons]
    omega
  · rw [hvolume, volume]
    omega

theorem tally_replace (h : q.Placed) (h' : q'.Placed) (hp : q.Queued p) (ha : ¬ q.Queued a)
    (hqueued : ∀ x, q'.Queued x ↔ (q.Queued x ∧ x ≠ p) ∨ x = a)
    (hcontent : ∀ x, (q'.item x).content = (q.item x).content) :
    (q'.hints.length : Int) = q.hints.length + 0 ∧
      q'.volume = q.volume + ((q.item a).size - (q.item p).size) := by
  have hold : q.hints.Perm (p :: q.hints.erase p) := perm_cons_erase (mem_hints.mpr hp)
  have hnodup : (a :: q.hints.erase p).Nodup := by
    refine nodup_cons.mpr ⟨fun hin => ha ?_, h.nodup_hints.erase p⟩
    exact mem_hints.mp (mem_of_mem_erase hin)
  have hnew : q'.hints.Perm (a :: q.hints.erase p) := by
    refine (perm_ext_iff_of_nodup h'.nodup_hints hnodup).mpr fun x => ?_
    rw [mem_hints, hqueued, mem_cons, h.nodup_hints.mem_erase_iff, mem_hints, or_comm, and_comm]
  have hvolume := volume_of_perm hnew fun x => size_of_content (hcontent x)
  have hvolume' := volume_of_perm (q := q) hold fun _ => rfl
  rw [map_cons, sum_cons] at hvolume hvolume'
  constructor
  · rw [hnew.length_eq, hold.length_eq, length_cons, length_cons]
    omega
  · omega

theorem tally_same (h : q.Placed) (h' : q'.Placed) (hqueued : ∀ x, q'.Queued x ↔ q.Queued x)
    (hcontent : ∀ x, (q'.item x).content = (q.item x).content) :
    (q'.hints.length : Int) = q.hints.length + 0 ∧ q'.volume = q.volume + 0 := by
  have hperm := hints_perm h h' hqueued
  have hvolume := volume_of_perm hperm fun x => size_of_content (hcontent x)
  rw [hperm.length_eq, hvolume, Int.add_zero, Int.add_zero]
  exact ⟨rfl, rfl⟩

structure Drops (q : HintQueue) (p : Nat) (q' : HintQueue) : Prop where
  becomes : Becomes q (fun x => q.Queued x ∧ x ≠ p) (-1) (-(q.item p).size) q'
  item : ∀ x, ¬ q.Queued x → q'.item x = q.item x
  elem : ∀ x, x ≠ p → (q'.item x).elem = (q.item x).elem

theorem Sound.drops {n b : Int} (h : q.Sound) (hp : q.Queued p)
    (htakes : Takes { q with index := idx } p q₁) (hord : q₁.Ordered)
    (hsame : { q' with index := idx', items := n, bytes := b } = q₁)
    (hindex : q'.index = update q.index (q.item p).key none) (hitems : q'.items = q.items + -1)
    (hbytes : q'.bytes = q.bytes + -(q.item p).size) : Drops q p q' := by
  obtain ⟨hmoves, helem⟩ := htakes
  obtain ⟨hcount, hvolume⟩ :=
    tally_remove h.rep.placed hmoves.placed hp hmoves.queued hmoves.content
  refine ⟨h.becomes hmoves hord hsame ?_ (fun x hx => h.rep.allocated x hx.1)
    (fun x hx => h.sized x hx.1) hcount hvolume hitems hbytes, fun x hx => ?_, fun x hx => ?_⟩
  · rw [hindex]
    exact h.rep.remove_index hp
  · subst hsame
    exact hmoves.item x hx fun hx' => hx ((hmoves.queued x).mp hx').1
  · subst hsame
    exact helem x hx

theorem removeItem_takes (h : q.Rep) (hp : q.Queued p) :
    Takes (q.unindex (q.item p).key) p ((q.unindex (q.item p).key).takeOut p) :=
  takeOut_takes ⟨h.placed.nodup, h.placed.elems, h.placed.ready, h.placed.delayed⟩ hp

theorem removeItem_drops (h : q.Sound) (hp : q.Queued p) : Drops q p (q.removeItem p) := by
  have htakes := removeItem_takes h.rep hp
  have hord := takeOut_ordered (q := q.unindex (q.item p).key)
    ⟨h.rep.placed.nodup, h.rep.placed.elems, h.rep.placed.ready, h.rep.placed.delayed⟩ h.ordered hp
  refine h.drops hp htakes hord rfl htakes.moves.index ?_ ?_
  · exact congrArg (· + -1) htakes.moves.items
  · exact congrArg (· + -(q.item p).size) htakes.moves.bytes

theorem tryDropDelayed_drops (h : q.Sound) (hfront : q.delayed.head? = some p) {avoid : Nat}
    (hne : p ≠ avoid) :
    ∃ q', q.tryDropDelayed avoid = some ((q.item p).size, q') ∧ Drops q p q' := by
  have hp : p ∈ q.delayed := mem_of_head? hfront
  obtain ⟨hres, htakes, -⟩ := heapPop_takes h.rep.placed hfront
  have hord := heapPop_ordered h.rep.placed h.ordered (length_pos_of_mem hp)
  refine ⟨(q.heapPop.2.unindex (q.item p).key).count (-1) (-(q.item p).size), ?_, ?_⟩
  · simp only [tryDropDelayed, hfront, if_neg hne, hres]
  · refine h.drops (.inr hp) htakes hord rfl ?_ ?_ ?_
    · show update q.heapPop.2.index (q.item p).key none = _
      rw [htakes.moves.index]
    · exact congrArg (· + -1) htakes.moves.items
    · exact congrArg (· + -(q.item p).size) htakes.moves.bytes

theorem tryDropReady_drops (h : q.Sound) (hfront : q.ready.head? = some e) {avoid : Nat}
    (hne : q.value e ≠ avoid) :
    ∃ q', q.tryDropReady avoid = some ((q.item (q.value e)).size, q') ∧ Drops q (q.value e) q' := by
  have hp : q.Queued (q.value e) := .inl ⟨e, mem_of_head? hfront, rfl⟩
  refine ⟨q.removeItem (q.value e), ?_, removeItem_drops h hp⟩
  simp only [tryDropReady, hfront, if_neg hne]

/-- `dropOldest` drops one hint other than `avoid`, or there is none at the front. -/
theorem dropOldest_cases (h : q.Sound) (avoid : Nat) :
    q.dropOldest avoid = none ∨ ∃ p q', q.dropOldest avoid = some ((q.item p).size, q') ∧
      q.Queued p ∧ p ≠ avoid ∧ Drops q p q' := by
  have hdelayed : q.tryDropReady avoid = none → q.dropOldest avoid = none ∨
      ∃ p q', q.dropOldest avoid = some ((q.item p).size, q') ∧ q.Queued p ∧ p ≠ avoid ∧
        Drops q p q' := by
    intro hnone
    simp only [dropOldest, hnone]
    cases hfront : q.delayed.head? with
    | none =>
      left
      simp only [tryDropDelayed, hfront]
    | some p =>
      by_cases hne : p = avoid
      · left
        simp only [tryDropDelayed, hfront, if_pos hne]
      · obtain ⟨q', hdrop, hdrops⟩ := tryDropDelayed_drops h hfront hne
        exact .inr ⟨p, q', hdrop, .inr (mem_of_head? hfront), hne, hdrops⟩
  cases hfront : q.ready.head? with
  | none => exact hdelayed (by simp only [tryDropReady, hfront])
  | some e =>
    by_cases hne : q.value e = avoid
    · exact hdelayed (by simp only [tryDropReady, hfront, if_pos hne])
    · obtain ⟨q', hdrop, hdrops⟩ := tryDropReady_drops h hfront hne
      refine .inr ⟨q.value e, q', ?_, .inl ⟨e, mem_of_head? hfront, rfl⟩, hne, hdrops⟩
      simp only [dropOldest, hdrop]

structure Sheds (q : HintQueue) (avoid : Nat) (q' : HintQueue) : Prop where
  sound : q'.Sound
  avoids : q'.Queued avoid
  queued : ∀ x, q'.Queued x → q.Queued x
  content : ∀ x, (q'.item x).content = (q.item x).content
  item : ∀ x, ¬ q.Queued x → q'.item x = q.item x
  elem : ∀ x, q'.Queued x → (q'.item x).elem = (q.item x).elem
  limits : q'.limits = q.limits
  drop : q'.drop = q.drop
  items : q'.items ≤ q.items
  bytes : q'.bytes ≤ q.bytes

theorem Sheds.refl (h : q.Sound) (ha : q.Queued a) : Sheds q a q :=
  ⟨h, ha, fun _ hx => hx, fun _ => rfl, fun _ _ => rfl, fun _ _ => rfl, rfl, rfl, Int.le_refl _,
    Int.le_refl _⟩

theorem Drops.sheds (h : Drops q p q₁) (hsheds : Sheds q₁ a q') (hq : q.Sound) (hp : q.Queued p) :
    Sheds q a q' := by
  have hsub : ∀ x, q'.Queued x → q.Queued x ∧ x ≠ p := fun x hx =>
    (h.becomes.queued x).mp (hsheds.queued x hx)
  have hsize := hq.sized p hp
  constructor
  · exact hsheds.sound
  · exact hsheds.avoids
  · exact fun x hx => (hsub x hx).1
  · exact fun x => (hsheds.content x).trans (h.becomes.content x)
  · intro x hx
    rw [hsheds.item x fun hin => hx ((h.becomes.queued x).mp hin).1, h.item x hx]
  · intro x hx
    rw [hsheds.elem x hx, h.elem x (hsub x hx).2]
  · exact hsheds.limits.trans h.becomes.limits
  · exact hsheds.drop.trans h.becomes.drop
  · have hle := hsheds.items
    rw [h.becomes.items] at hle
    omega
  · have hle := hsheds.bytes
    rw [h.becomes.bytes] at hle
    omega

theorem hints_lt_rounds (q : HintQueue) : q.hints.length < q.rounds := by
  rw [hints, length_append, length_map, rounds]
  omega

theorem Within.of_le (h : q.Within) (hlimits : q'.limits = q.limits) (hitems : q'.items ≤ q.items)
    (hbytes : q'.bytes ≤ q.bytes) : q'.Within := by
  simp only [limits, Prod.mk.injEq] at hlimits
  obtain ⟨-, hmaxItems, hmaxBytes, -⟩ := hlimits
  simp only [Within, overCap, Bool.or_eq_false_iff, decide_eq_false_iff_not, hmaxItems,
    hmaxBytes] at h ⊢
  omega

theorem Sheds.within (h : Sheds q a q') (hw : q.Within) : q'.Within :=
  hw.of_le h.limits h.items h.bytes

/-- The queue after everything has been dropped that `dropOldest` finds. -/
def exhaust (avoid : Nat) : Nat → HintQueue → HintQueue
  | 0, q => q
  | fuel + 1, q =>
    match q.dropOldest avoid with
    | none => q
    | some (_, q) => exhaust avoid fuel q

theorem exhaust_sheds (fuel : Nat) (h : q.Sound) (ha : q.Queued a) :
    Sheds q a (exhaust a fuel q) := by
  induction fuel generalizing q with
  | zero => exact Sheds.refl h ha
  | succ fuel ih =>
    rcases dropOldest_cases h a with hnone | ⟨p, q₁, hsome, hp, hne, hdrops⟩
    · simp only [exhaust, hnone]
      exact Sheds.refl h ha
    · simp only [exhaust, hsome]
      exact hdrops.sheds
        (ih hdrops.becomes.sound ((hdrops.becomes.queued a).mpr ⟨ha, hne.symm⟩)) h hp

/-- What the loops of `enqueue` come to: the totals are what the queue has lost, and they give up
when nothing is left to drop. -/
structure Loops (q : HintQueue) (a : Nat) (totalB totalI : Int) (rest : HintQueue)
    (r : Bool × Int × Int × HintQueue) : Prop where
  sheds : Sheds q a r.2.2.2
  bytes : r.2.1 = totalB + (q.bytes - r.2.2.2.bytes)
  items : r.2.2.1 = totalI + (q.items - r.2.2.2.items)
  within : r.1 = true → r.2.2.2.Within
  room : r.1 = true ↔ rest.Within
  stuck : r.1 = false → r.2.2.2 = rest

/-- They come to an end, and they find room if there is any. -/
theorem dropWhileOver_loops (fuel : Nat) (totalB totalI : Int) (h : q.Sound) (ha : q.Queued a)
    (hfuel : q.hints.length < fuel) :
    Loops q a totalB totalI (exhaust a fuel q) (dropWhileOver a fuel totalB totalI q) := by
  induction fuel generalizing q totalB totalI with
  | zero => omega
  | succ fuel ih =>
    cases hover : q.overCap q.items q.bytes with
    | false =>
      have hrest := exhaust_sheds (fuel + 1) h ha
      simp only [dropWhileOver, hover, Bool.false_eq_true, if_false]
      refine ⟨Sheds.refl h ha, ?_, ?_, fun _ => hover, ?_,
        fun hno => absurd hno.symm Bool.false_ne_true⟩
      · show totalB = totalB + (q.bytes - q.bytes)
        omega
      · show totalI = totalI + (q.items - q.items)
        omega
      · exact ⟨fun _ => hrest.within hover, fun _ => rfl⟩
    | true =>
      simp only [dropWhileOver, hover, if_true]
      rcases dropOldest_cases h a with hnone | ⟨p, q₁, hsome, hp, hne, hdrops⟩
      · simp only [exhaust, hnone]
        refine ⟨Sheds.refl h ha, ?_, ?_, fun hno => absurd hno Bool.false_ne_true, ?_, fun _ => rfl⟩
        · show totalB = totalB + (q.bytes - q.bytes)
          omega
        · show totalI = totalI + (q.items - q.items)
          omega
        · rw [Within, hover]
          simp
      · simp only [exhaust, hsome]
        have ha' : q₁.Queued a := (hdrops.becomes.queued a).mpr ⟨ha, hne.symm⟩
        have hitems := hdrops.becomes.items
        have hbytes := hdrops.becomes.bytes
        have hless : q₁.hints.length < fuel := by
          have hcount := hitems
          rw [hdrops.becomes.sound.items, h.items] at hcount
          omega
        have hloops := ih (totalB + (q.item p).size) (totalI + 1) hdrops.becomes.sound ha' hless
        refine ⟨hdrops.sheds hloops.sheds h hp, ?_, ?_, hloops.within, hloops.room, hloops.stuck⟩
        · rw [hloops.bytes]
          omega
        · rw [hloops.items]
          omega

theorem assign_comm {f g : HintItem → HintItem} (hfg : ∀ h, f (g h) = g (f h)) :
    (q.assign a f).assign p g = (q.assign p g).assign a f := by
  by_cases hap : a = p
  · subst hap
    simp only [assign, update_self, update_idem, hfg]
  · simp only [assign, update_of_ne hap, update_of_ne (Ne.symm hap), update_comm hap]

theorem clearElem_comm (q : HintQueue) (a p : Nat) (k : Int) :
    (q.assign a fun h => { h with elem := none }).assign p (fun h => { h with heapIndex := k }) =
      (q.assign p fun h => { h with heapIndex := k }).assign a fun h => { h with elem := none } :=
  assign_comm fun _ => rfl

/-- The heap does not read in which element of the ready list a hint is. -/
theorem clearElem_simulates (a : Nat) : Heap.Simulates delayHeap delayHeap
    fun q q' => q' = q.assign a fun h => { h with elem := none } where
  len := by
    rintro q _ rfl
    rfl
  less := by
    rintro q _ rfl i j
    have hnext : ∀ x, ((q.assign a fun h => { h with elem := none }).item x).nextAt =
        (q.item x).nextAt := by
      intro x
      by_cases hx : x = a
      · rw [hx, item_assign_self]
      · rw [item_assign_of_ne hx]
    simp only [delayHeap, delayedLess, delayed_assign, hnext]
  swap := by
    rintro q _ rfl i j
    simp only [delayHeap, delayedSwap, delayed_assign]
    cases q.delayed[i]? with
    | none => rfl
    | some x =>
      cases q.delayed[j]? with
      | none => rfl
      | some y =>
        have hy := clearElem_comm { q with delayed := (q.delayed.set i y).set j x } a y i
        refine (congrArg (fun s => assign s x fun h => { h with heapIndex := j }) hy).trans ?_
        exact clearElem_comm _ a x j

/-- What a hint says about its place is overwritten. -/
theorem place_tidy (q : HintQueue) (a : Nat) (now : Int) :
    q.place a now = (q.assign a HintItem.content).place a now := by
  have hnext : ((q.assign a HintItem.content).item a).nextAt = (q.item a).nextAt := by
    rw [item_assign_self]
    rfl
  rw [place, place, hnext]
  split
  · generalize hq : { q with delayed := q.delayed ++ [a] }.assign a
      (fun h => { h with heapIndex := q.delayed.length }) = q₁
    have hpush : q.heapPush a = Heap.siftLast delayHeap q₁ := by
      rw [← hq]
      rfl
    have hpush' : (q.assign a HintItem.content).heapPush a =
        Heap.siftLast delayHeap (q₁.assign a fun h => { h with elem := none }) := by
      rw [← hq, heapPush]
      simp only [assign, update_self, update_idem, HintItem.content]
    have hsift : Heap.siftLast delayHeap (q₁.assign a fun h => { h with elem := none }) =
        (Heap.siftLast delayHeap q₁).assign a fun h => { h with elem := none } :=
      Heap.siftLast_simulates (clearElem_simulates a) rfl
    rw [hpush, hpush', hsift]
    simp only [assign, update_self, update_idem]
  · simp only [pushBack, assign, update_self, update_idem, HintItem.content]

theorem assign_eq_self {f : HintItem → HintItem} (h : f (q.item p) = q.item p) :
    q.assign p f = q := by
  rw [assign, h, update_eq_self]

theorem place_moves (h : q.Placed) (hord : q.Ordered) (ha : ¬ q.Queued a) (hl : (q.item a).Loose)
    (now : Int) :
    Moves q (fun x => q.Queued x ∨ x = a) (q.place a now) ∧ (q.place a now).Ordered := by
  rw [place]
  split
  · obtain ⟨hmoves, helem⟩ := heapPush_moves h ha hl.elem
    rw [assign_eq_self (by rw [← helem])]
    exact ⟨hmoves, heapPush_ordered h hord ha hl.elem⟩
  · have hself : (q.pushBack a).item a = { q.item a with elem := some q.nextElem } :=
      update_self ..
    rw [assign_eq_self (by rw [hself, ← hl.heapIndex])]
    exact ⟨pushBack_moves h ha hl.heapIndex, pushBack_ordered hord a⟩

/-- A hint has been put in the place of another one with its key. -/
theorem replace_becomes {d : Int} (h : q.Sound) (hp : q.Queued p) (ha : ¬ q.Queued a)
    (halloc : a < q.nextItem) (hkey : (q.item a).key = (q.item p).key)
    (hsize : 0 ≤ (q.item a).size) (hdue : p ∈ q.delayed → (q.item a).nextAt = (q.item p).nextAt)
    (hd : d = (q.item a).size - (q.item p).size) :
    Becomes q (fun x => (q.Queued x ∧ x ≠ p) ∨ x = a) 0 d
      (((q.replace a p).count 0 d).setIndex (q.item a).key a) := by
  subst hd
  have hmoves := replace_moves h.rep.placed hp ha
  have hord := replace_ordered h.rep.placed h.ordered hp ha hdue
  obtain ⟨hcount, hvolume⟩ :=
    tally_replace h.rep.placed hmoves.placed hp ha hmoves.queued hmoves.content
  have hsame : ∀ x, q.Queued x → ((q.item x).key ≠ (q.item a).key ↔ x ≠ p) := by
    intro x hx
    rw [hkey]
    exact not_congr ⟨h.rep.key_inj hx hp, fun heq => by rw [heq]⟩
  refine h.becomes hmoves hord rfl (fun bk x => ?_) ?_ ?_ hcount hvolume ?_ ?_
  · show update (q.replace a p).index (q.item a).key (some a) bk = some x ↔ _
    rw [hmoves.index, h.rep.update_index, and_congr_right (hsame x)]
  · rintro x (hx | rfl)
    · exact h.rep.allocated x hx.1
    · exact halloc
  · rintro x (hx | rfl)
    · exact h.sized x hx.1
    · exact hsize
  · exact congrArg (· + 0) hmoves.items
  · exact congrArg (· + ((q.item a).size - (q.item p).size)) hmoves.bytes

/-- A hint that is not queued can be changed in any way. -/
theorem Sound.assign (h : q.Sound) (ha : ¬ q.Queued a) (f : HintItem → HintItem) :
    (q.assign a f).Sound := by
  have hitem : ∀ x, q.Queued x → (q.assign a f).item x = q.item x := by
    intro x hx
    refine item_assign_of_ne ?_
    rintro rfl
    exact ha hx
  have hplaced : (q.assign a f).Placed := by
    refine ⟨h.rep.placed.nodup, h.rep.placed.elems, fun e he => ?_, fun i x hi => ?_⟩
    · simp only [value_assign, hitem _ (.inl ⟨e, he, rfl⟩)]
      exact h.rep.placed.ready e he
    · rw [hitem x (.inr (mem_of_getElem? hi))]
      exact h.rep.placed.delayed i x hi
  have hindexed : ∀ bk x, q.index bk = some x ↔
      ((q.assign a f).item x).key = bk ∧ q.Queued x := by
    intro bk x
    rw [h.rep.indexed]
    exact and_congr_left fun hx => by rw [hitem x hx]
  have hordered : (q.assign a f).Ordered := h.ordered.same rfl fun x hx => by rw [hitem x (.inr hx)]
  have hvolume : (q.assign a f).volume = q.volume := by
    refine congrArg List.sum (map_congr_left fun x hx => ?_)
    rw [hitem x (mem_hints.mp hx)]
  have hsized : ∀ x, q.Queued x → 0 ≤ ((q.assign a f).item x).size := by
    intro x hx
    rw [hitem x hx]
    exact h.sized x hx
  exact ⟨⟨hplaced, hindexed, h.rep.allocated, h.rep.running⟩, hordered, h.items,
    h.bytes.trans hvolume.symm, hsized⟩

theorem place_loose_becomes (h : q.Sound) (ha : ¬ q.Queued a) (hl : (q.item a).Loose)
    (halloc : a < q.nextItem) (hkey : q.index (q.item a).key = none) (hsize : 0 ≤ (q.item a).size)
    (now : Int) :
    Becomes q (fun x => q.Queued x ∨ x = a) 1 (q.item a).size
      (((q.place a now).setIndex (q.item a).key a).count 1 ((q.place a now).item a).size) := by
  obtain ⟨hmoves, hord⟩ := place_moves h.rep.placed h.ordered ha hl now
  obtain ⟨hcount, hvolume⟩ :=
    tally_insert h.rep.placed hmoves.placed ha hmoves.queued hmoves.content
  have hother : ∀ x, q.Queued x → (q.item x).key ≠ (q.item a).key := by
    intro x hx heq
    rw [(h.rep.indexed _ x).mpr ⟨heq, hx⟩] at hkey
    cases hkey
  refine h.becomes hmoves hord rfl (fun bk x => ?_) ?_ ?_ hcount hvolume ?_ ?_
  · show update (q.place a now).index (q.item a).key (some a) bk = some x ↔ _
    rw [hmoves.index, h.rep.update_index, and_iff_left_of_imp (hother x)]
  · rintro x (hx | rfl)
    · exact h.rep.allocated x hx
    · exact halloc
  · rintro x (hx | rfl)
    · exact h.sized x hx
    · exact hsize
  · exact congrArg (· + 1) hmoves.items
  · show (q.place a now).bytes + ((q.place a now).item a).size = _
    rw [hmoves.bytes, size_of_content (hmoves.content a)]

/-- A new hint has been put into the queue, whatever it says about its place. -/
theorem place_becomes (h : q.Sound) (ha : ¬ q.Queued a) (halloc : a < q.nextItem)
    (hkey : q.index (q.item a).key = none) (hsize : 0 ≤ (q.item a).size) (now : Int) :
    Becomes q (fun x => q.Queued x ∨ x = a) 1 (q.item a).size
      (((q.place a now).setIndex (q.item a).key a).count 1 ((q.place a now).item a).size) := by
  have hself : (q.assign a HintItem.content).item a = (q.item a).content := item_assign_self
  have hcontent : ∀ x, ((q.assign a HintItem.content).item x).content = (q.item x).content := by
    intro x
    by_cases hx : x = a
    · rw [hx, hself]
      rfl
    · rw [item_assign_of_ne hx]
  have hnew :=
    place_loose_becomes (h.assign ha HintItem.content) ha (by rw [hself]; exact ⟨rfl, rfl⟩)
    halloc (by rw [hself]; exact hkey) (by rw [hself]; exact hsize) now
  rw [← place_tidy, hself] at hnew
  exact ⟨hnew.sound, hnew.queued, fun x => (hnew.content x).trans (hcontent x), hnew.limits,
    hnew.drop, hnew.items, hnew.bytes⟩

end HintQueue

end Kioshun
