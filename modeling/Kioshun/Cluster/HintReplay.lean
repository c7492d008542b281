import Kioshun.Cluster.HintRuns

/-!
# Which hint is replayed

`popReady` promotes the delayed hints that are due and returns the first hint of the
ready list that has not expired. It does not look at `nextAt` there. A hint can be in the
ready list before it is due: a requeued hint takes the place of an older one that has been
enqueued for its key in the meantime.
-/

namespace Kioshun
open List

namespace HintQueue
variable {q q' : HintQueue} {p e : Nat} {now : Int}

/-- The hint has not expired and its time has come. -/
def Due (q : HintQueue) (now : Int) (p : Nat) : Prop :=
  (q.item p).nextAt ≤ now ∧ (q.item p).expired q.ttl now = false

/-- The first hint of the ready list that has not expired. -/
def firstLive (q : HintQueue) (now : Int) : Option Nat :=
  q.waiting.find? fun p => !(q.item p).expired q.ttl now

theorem due_congr (hcontent : ∀ x, (q'.item x).content = (q.item x).content)
    (hlimits : q'.limits = q.limits) (p : Nat) : q'.Due now p ↔ q.Due now p := by
  rw [Due, Due, HintItem.eq_of_content HintItem.nextAt (fun _ => rfl) (hcontent p),
    HintItem.eq_of_content HintItem.expired (fun _ => rfl) (hcontent p), ttl_of_limits hlimits]

theorem mem_waiting (h : p ∈ q.waiting) : q.Queued p := by
  obtain ⟨e, he, rfl⟩ := mem_map.mp h
  exact .inl ⟨e, he, rfl⟩

theorem Queued.waiting_or (h : q.Queued p) : p ∈ q.waiting ∨ p ∈ q.delayed := by
  rcases h with ⟨e, he, rfl⟩ | hp
  · exact .inl (mem_map_of_mem he)
  · exact .inr hp

/-- The hints and the lifetime decide which hint is the first one, and not where the hints are. -/
theorem firstLive_congr (hcontent : ∀ x, (q'.item x).content = (q.item x).content)
    (hlimits : q'.limits = q.limits) :
    q'.firstLive now = q'.waiting.find? fun p => !(q.item p).expired q.ttl now := by
  rw [firstLive, ttl_of_limits hlimits]
  congr 1
  funext x
  rw [HintItem.eq_of_content HintItem.expired (fun _ => rfl) (hcontent x)]

theorem removeItem_waiting (h : q.Placed) (he : q.ready.head? = some e) :
    (q.removeItem (q.value e)).waiting = q.waiting.tail := by
  obtain ⟨rest, hready⟩ := head?_eq_some_iff.mp he
  have helem := (h.ready e (mem_of_head? he)).1
  have htake : (q.removeItem (q.value e)).waiting = (q.ready.erase e).map q.value := by
    simp only [removeItem, takeOut, unindex, helem]
    rfl
  rw [htake, waiting, hready, erase_cons_head, map_cons, tail_cons]

structure Pops (q : HintQueue) (now : Int) (r : Option Nat × HintQueue) : Prop where
  first : r.1 = q.firstLive now
  gone : ∀ p, r.1 = some p → ¬ r.2.Queued p
  content : ∀ x, (r.2.item x).content = (q.item x).content
  limits : r.2.limits = q.limits

theorem Pops.of_empty (h : q.waiting = []) : Pops q now (none, q) := by
  refine ⟨?_, fun p hp => absurd hp (Option.some_ne_none p).symm, fun _ => rfl, rfl⟩
  rw [firstLive, h, find?_nil]

theorem popLoop_pops (fuel : Nat) (h : q.Sound) (hfuel : q.waiting.length ≤ fuel) :
    Pops q now (popLoop now fuel q) := by
  induction fuel generalizing q with
  | zero => exact Pops.of_empty (length_eq_zero_iff.mp (Nat.le_zero.mp hfuel))
  | succ fuel ih =>
    cases hfront : q.ready.head? with
    | none =>
      simp only [popLoop, hfront]
      apply Pops.of_empty
      rw [waiting, head?_eq_none_iff.mp hfront, map_nil]
    | some e =>
      have hqueued : q.Queued (q.value e) := .inl ⟨e, mem_of_head? hfront, rfl⟩
      have hdrops := (removeItem_drops h hqueued).becomes
      have hrest := removeItem_waiting h.rep.placed hfront
      obtain ⟨rest, hready⟩ := head?_eq_some_iff.mp hfront
      have hwaiting : q.waiting = q.value e :: rest.map q.value := by
        rw [waiting, hready, map_cons]
      rw [hwaiting, tail_cons] at hrest
      rw [hwaiting, length_cons] at hfuel
      simp only [popLoop, hfront]
      split
      case isTrue hexpired =>
        have hpops := ih hdrops.sound (by rw [hrest]; omega)
        refine ⟨hpops.first.trans ?_, hpops.gone, fun x =>
          (hpops.content x).trans (hdrops.content x), hpops.limits.trans hdrops.limits⟩
        rw [firstLive_congr hdrops.content hdrops.limits, hrest, firstLive, hwaiting,
          find?_cons_of_neg (by simp [hexpired])]
      case isFalse hlive =>
        refine ⟨?_, ?_, hdrops.content, hdrops.limits⟩
        · rw [firstLive, hwaiting, find?_cons_of_pos (by simp [hlive])]
        · intro p hp
          cases hp
          exact fun hin => ((hdrops.queued _).mp hin).2 rfl

/-- `popReady` returns the first hint that has not expired, among those of the ready list and the
ones that are promoted. -/
theorem popReady_pops (h : q.Sound) (now : Int) :
    Pops (q.moveDueLocked now) now (q.popReady now) := by
  refine popLoop_pops _ (moveDueLocked_becomes h now).sound ?_
  rw [waiting, length_map]

structure Replays (q : HintQueue) (now : Int) (r : Option Nat × HintQueue) : Prop where
  due : ∀ p, r.1 = some p → q.Queued p ∧ r.2.Due now p ∧ ¬ r.2.Queued p
  none : r.1 = none → ∀ p, q.Queued p → ¬ q.Due now p

/-- The replay respects the schedule if and only if the first hint in the ready list that has not
expired is due. -/
theorem Sound.replays_iff (h : q.Sound) (now : Int) :
    Replays q now (q.popReady now) ↔
      ∀ p, q.firstLive now = some p → (q.item p).nextAt ≤ now := by
  have hmoved := moveDueLocked_becomes h now
  have hpops := popReady_pops h now
  have hsame : ∀ p, (q.popReady now).2.Due now p ↔ q.Due now p := due_congr
    (fun x => (hpops.content x).trans (hmoved.content x)) (hpops.limits.trans hmoved.limits)
  obtain ⟨-, ⟨due, hwaiting, hdue⟩, hlate⟩ :=
    moveDue_promoted now q.delayed.length h.rep.placed h.ordered le_rfl
  have hfirst : (q.popReady now).1 =
      (q.waiting ++ due).find? fun p => !(q.item p).expired q.ttl now := by
    rw [hpops.first, firstLive_congr hmoved.content hmoved.limits, ← hwaiting, moveDueLocked]
  constructor
  · intro hreplays p hp
    have hpopped : (q.popReady now).1 = some p := by
      rw [hfirst, find?_append, ← firstLive, hp, Option.some_or]
    exact ((hsame p).mp (hreplays.due p hpopped).2.1).1
  · intro hready
    constructor
    · intro p hp
      have hgone := hpops.gone p hp
      rw [hfirst] at hp
      have hlive : (q.item p).expired q.ttl now = false := by simpa using find?_some hp
      have hin : q.Queued p := by
        refine (hmoved.queued p).mp (mem_waiting ?_)
        rw [moveDueLocked, hwaiting]
        exact mem_of_find?_eq_some hp
      refine ⟨hin, (hsame p).mpr ⟨?_, hlive⟩, hgone⟩
      rw [find?_append, ← firstLive] at hp
      rcases Option.or_eq_some_iff.mp hp with hwas | ⟨-, hnew⟩
      · exact hready p hwas
      · exact hdue p (mem_of_find?_eq_some hnew)
    · intro hnone p hp hpdue
      rw [hfirst, find?_eq_none] at hnone
      rcases ((hmoved.queued p).mpr hp).waiting_or with hin | hin
      · rw [moveDueLocked, hwaiting] at hin
        have hexpired := hnone p hin
        rw [hpdue.2] at hexpired
        exact hexpired rfl
      · exact absurd hpdue.1 (Int.not_le.mpr (hlate p hin))

/-- For every queue that some calls have led to. -/
theorem popReady_replays_iff (cfg : HandoffConfig) (calls : List Call) (now : Int) :
    Replays (after cfg calls) now ((after cfg calls).popReady now) ↔
      ∀ p, (after cfg calls).firstLive now = some p → ((after cfg calls).item p).nextAt ≤ now :=
  (after_sound cfg calls).1.replays_iff now

/-- A hint is popped and fails. Before it is requeued for the time `100`, an older version is
enqueued; the requeued hint takes its place in the ready list and is returned at the time `2`. -/
theorem popReady_early :
    let it : HintItem := ⟨[1], [], 0, 2, false, false, 0, 0, 0, 10, none, -1⟩
    let calls : List Call :=
      [.enqueue ⟨it, by decide⟩ 0, .popReady 0, .enqueue ⟨{ it with ver := 1 }, by decide⟩ 1,
        .requeue 0 ⟨{ it with nextAt := 100, tries := 1 }, by decide⟩ 1]
    let q := after ⟨none, 0, 0, 0, .DropOldest, 0, 0⟩ calls
    (q.popReady 2).1 = some 0 ∧ ((q.popReady 2).2.item 0).nextAt = 100 := by
  decide +kernel

end HintQueue

end Kioshun
