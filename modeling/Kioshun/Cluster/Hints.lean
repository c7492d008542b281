import Kioshun.Cluster.HintRuns
import Kioshun.Lib.Outbox

/-!
# No hint is lost

A queue without caps is an outbox: it holds the newest version for each key.
`enqueue` merges a hint into it, `popReady` takes one out, and `scheduleRetry`
merges it again if the peer has not acknowledged it.
-/

namespace Kioshun
open Function List

namespace HintQueue
variable {q q' : HintQueue} {p a : Nat} {M : Nat → Prop} {idx : Bytes → Option Nat} {now : Int}

/-- The index is given by the queued hints. -/
theorem Rep.index_eq (h : q'.Rep) (hkey : ∀ p, (q'.item p).key = (q.item p).key)
    (hidx : ∀ bk p, idx bk = some p ↔ (q.item p).key = bk ∧ q'.Queued p) : q'.index = idx := by
  funext bk
  refine Option.ext fun p => ?_
  rw [h.indexed, hkey, hidx]

theorem Enters.payloads (h : Enters q a q') (p : Nat) :
    (q'.item p).payload = (q.item p).payload := by
  by_cases hp : p = a
  · rw [hp, h.payload]
  · exact HintItem.eq_of_content HintItem.payload (fun _ => rfl) (h.content p hp)

theorem Enters.index (h : Enters q a q') (hq : q.Rep) :
    q'.index = update q.index (q.item a).key (some a) := by
  refine h.sound.rep.index_eq
    (fun p => HintItem.eq_of_payload HintItem.key (fun _ => rfl) (h.payloads p)) fun bk p => ?_
  have hother : q.Queued p → (q.index (q.item a).key ≠ some p ↔ (q.item p).key ≠ (q.item a).key) :=
    fun hp => not_congr ((hq.indexed _ p).trans (and_iff_left hp))
  rw [hq.update_index, h.queued, and_congr_right hother]

structure Unlimited (q : HintQueue) : Prop where
  maxItems : q.maxItems ≤ 0
  maxBytes : q.maxBytes ≤ 0
  ttl : q.ttl ≤ 0

theorem Unlimited.of_limits (h : q.Unlimited) (heq : q'.limits = q.limits) : q'.Unlimited := by
  simp only [limits, Prod.mk.injEq] at heq
  obtain ⟨-, hitems, hbytes, httl⟩ := heq
  exact ⟨hitems ▸ h.maxItems, hbytes ▸ h.maxBytes, httl ▸ h.ttl⟩

theorem Unlimited.within (h : q.Unlimited) : q.Within := by
  have hitems := h.maxItems
  have hbytes := h.maxBytes
  simp only [Within, overCap, Bool.or_eq_false_iff, decide_eq_false_iff_not]
  omega

def hint (q : HintQueue) (bk : Bytes) : Option Nat := (q.index bk).map fun p => (q.item p).ver.toNat

theorem hint_of_index (hindex : q'.index = idx)
    (hpayload : ∀ p, (q'.item p).payload = (q.item p).payload) (bk : Bytes) :
    q'.hint bk = (idx bk).map fun p => (q.item p).ver.toNat := by
  have hver : ∀ p, (q'.item p).ver = (q.item p).ver := fun p =>
    HintItem.eq_of_payload HintItem.ver (fun _ => rfl) (hpayload p)
  simp only [hint, hindex, hver]

/-- The new hint is merged if it is the newer one. -/
theorem Enters.hint_merge (h : Enters q a q') (hq : q.Rep)
    (hnewer : ∀ p, q.index (q.item a).key = some p → (q.item p).ver < (q.item a).ver) :
    q'.hint = Outbox.merge q.hint (q.item a).key (q.item a).ver.toNat := by
  funext bk
  rw [hint_of_index (h.index hq) h.payloads]
  by_cases hbk : bk = (q.item a).key
  · subst hbk
    rw [Outbox.merge, update_self, update_self, Option.map_some]
    cases hp : q.index (q.item a).key with
    | none => simp only [hint, hp, Option.map_none]
    | some p =>
      have hle : (q.item p).ver.toNat ≤ (q.item a).ver.toNat := UInt64.le_of_lt (hnewer p hp)
      simp only [hint, hp, Option.map_some, max_eq_right hle]
  · rw [Outbox.merge, update_of_ne hbk, update_of_ne hbk]
    rfl

theorem hint_merge_older (hp : q.index (q.item a).key = some p)
    (hver : (q.item a).ver ≤ (q.item p).ver) :
    q.hint = Outbox.merge q.hint (q.item a).key (q.item a).ver.toNat := by
  have hle : (q.item a).ver.toNat ≤ (q.item p).ver.toNat := hver
  have hold : q.hint (q.item a).key = some (q.item p).ver.toNat := by
    simp only [hint, hp, Option.map_some]
  simp only [Outbox.merge, hold, max_eq_left hle]
  rw [← hold, update_eq_self]

/-- `popReady` takes a hint out or leaves them all, if none has expired. -/
theorem popReady_becomes (h : q.Sound) (hlive : ∀ p, (q.item p).expired q.ttl now = false) :
    ((q.popReady now).1 = none ∧ Becomes q q.Queued 0 0 (q.popReady now).2) ∨
    ∃ p, (q.popReady now).1 = some p ∧ q.Queued p ∧
      Becomes q (fun x => q.Queued x ∧ x ≠ p) (-1) (-(q.item p).size) (q.popReady now).2 := by
  have hdue := moveDueLocked_becomes h now
  simp only [popReady]
  generalize q.moveDueLocked now = q₁ at hdue
  have hlive₁ : ∀ p, (q₁.item p).expired q₁.ttl now = false := fun p => by
    rw [ttl_of_limits hdue.limits, HintItem.eq_of_content HintItem.expired (fun _ => rfl)
      (hdue.content p), hlive]
  cases hready : q₁.ready with
  | nil =>
    simp only [popLoop, length_nil]
    exact .inl ⟨trivial, hdue⟩
  | cons fe rest =>
    have hp : q₁.Queued (q₁.value fe) := .inl ⟨fe, by rw [hready]; exact mem_cons_self, rfl⟩
    have hdrops := (removeItem_drops hdue.sound hp).becomes
    have hitems := hdue.items
    have hbytes := hdue.bytes
    simp only [popLoop, length_cons, hready, head?_cons, hlive₁, Bool.false_eq_true, if_false]
    refine .inr ⟨_, rfl, (hdue.queued _).mp hp, hdrops.sound, fun x => ?_, fun x => ?_,
      hdrops.limits.trans hdue.limits, hdrops.drop.trans hdue.drop, ?_, ?_⟩
    · rw [hdrops.queued, hdue.queued]
    · exact (hdrops.content x).trans (hdue.content x)
    · rw [hdrops.items]
      omega
    · rw [hdrops.bytes, size_of_content (hdue.content _)]
      omega

section Mirror
variable {reading : Nat → Int} {I : List Nat} {o : Outbox Bytes Nat} {f : HintItem → HintItem}

def Lasting (reading : Nat → Int) (exp : Int) : Prop := exp ≤ 0 ∨ ∀ i, reading i < exp

structure Away (q : HintQueue) (p : Nat) : Prop where
  allocated : p < q.nextItem
  not_queued : ¬ q.Queued p
  sized : 0 ≤ (q.item p).size

/-- The queue, with the hints `I` in flight, is the outbox. -/
structure Mirrors (q : HintQueue) (reading : Nat → Int) (I : List Nat) (o : Outbox Bytes Nat) :
    Prop where
  sound : q.Sound
  unlimited : q.Unlimited
  lasting : ∀ p, Lasting reading (q.item p).exp
  away : ∀ p ∈ I, q.Away p
  nodup : I.Nodup
  queued : q.hint = o.queued
  flying : I.map (fun p => ((q.item p).key, (q.item p).ver.toNat)) = o.flying

section
variable (h : Mirrors q reading I o)
include h

theorem Mirrors.not_expired (p i : Nat) : (q.item p).expired q.ttl (reading i) = false := by
  have httl : ¬ 0 < q.ttl := by
    have := h.unlimited.ttl
    omega
  simp only [HintItem.expired, httl, false_and, if_false]
  rw [if_neg]
  rintro ⟨hpos, hle, -⟩
  rcases h.lasting p with hexp | hexp
  · omega
  · have := hexp i
    omega

/-- The logs of the outbox do not matter. -/
theorem Mirrors.congr {o' : Outbox Bytes Nat} (hqueued : o'.queued = o.queued)
    (hflying : o'.flying = o.flying) : Mirrors q reading I o' :=
  ⟨h.sound, h.unlimited, h.lasting, h.away, h.nodup, h.queued.trans hqueued.symm,
    h.flying.trans hflying.symm⟩

/-- A change of the queue that puts none of the hints in flight into it. -/
theorem Mirrors.changed (hsound : q'.Sound) (hlimits : q'.limits = q.limits)
    (hpayload : ∀ p, (q'.item p).payload = (q.item p).payload) (hI : ∀ p ∈ I, ¬ q'.Queued p) :
    Mirrors q' reading I { o with queued := q'.hint } := by
  refine ⟨hsound, h.unlimited.of_limits hlimits, fun p => ?_, fun p hp => ⟨?_, hI p hp, ?_⟩,
    h.nodup, rfl, ?_⟩
  · rw [HintItem.eq_of_payload HintItem.exp (fun _ => rfl) (hpayload p)]
    exact h.lasting p
  · exact (h.away p hp).allocated.trans_eq (congrArg Prod.fst hlimits).symm
  · rw [HintItem.eq_of_payload HintItem.size (fun _ => rfl) (hpayload p)]
    exact (h.away p hp).sized
  · rw [← h.flying]
    exact map_congr_left fun p _ => HintItem.eq_of_payload (fun it => (it.key, it.ver.toNat))
      (fun _ => rfl) (hpayload p)

theorem Mirrors.becomes {items bytes : Int} (hb : Becomes q M items bytes q')
    (hM : ∀ p, M p → q.Queued p) (hidx : ∀ bk p, idx bk = some p ↔ (q.item p).key = bk ∧ M p) :
    Mirrors q' reading I
      { o with queued := fun bk => (idx bk).map fun p => (q.item p).ver.toNat } := by
  have hpayload : ∀ p, (q'.item p).payload = (q.item p).payload := fun p =>
    HintItem.eq_of_content HintItem.payload (fun _ => rfl) (hb.content p)
  have hindex : q'.index = idx := hb.sound.rep.index_eq
    (fun p => HintItem.eq_of_content HintItem.key (fun _ => rfl) (hb.content p))
    fun bk p => by rw [hidx, hb.queued]
  rw [← funext (hint_of_index hindex hpayload)]
  exact h.changed hb.sound hb.limits hpayload fun p hp hqueued =>
    (h.away p hp).not_queued (hM p ((hb.queued p).mp hqueued))

theorem Mirrors.enqueue (ha : q.Away a) (hI : a ∉ I) (i : Nat) :
    Mirrors (q.enqueue a (reading i)).2 reading I
      { o with queued := Outbox.merge o.queued (q.item a).key (q.item a).ver.toNat } := by
  have hexp := h.not_expired a i
  rw [← h.queued]
  by_cases hfresh : q.Fresh a (reading i)
  · have hent := installed_enters h.sound ha.allocated ha.sized hfresh
    rw [enqueue_of_within hfresh (h.unlimited.of_limits hent.limits).within,
      ← hent.hint_merge h.sound.rep hfresh.2]
    refine h.changed hent.sound hent.limits hent.payloads fun p hp hqueued => ?_
    rcases (hent.queued p).mp hqueued with ⟨hold, -⟩ | rfl
    · exact (h.away p hp).not_queued hold
    · exact hI hp
  · have holder : ∃ p, q.index (q.item a).key = some p ∧ (q.item a).ver ≤ (q.item p).ver := by
      by_contra hnone
      exact hfresh ⟨hexp, fun old hold => UInt64.not_le.mp fun hle => hnone ⟨old, hold, hle⟩⟩
    obtain ⟨p, hkey, hver⟩ := holder
    have hsame : (q.enqueue a (reading i)).2 = q := by
      simp only [HintQueue.enqueue, hexp, hkey, coalesce, if_pos hver, Bool.false_eq_true, if_false]
    rw [hsame, ← hint_merge_older hkey hver]
    exact h.congr h.queued rfl

theorem Mirrors.popReady (i : Nat) :
    ∃ o', (o' = o ∨ Outbox.Step o o') ∧ o'.acked = o.acked ∧ o'.pushed = o.pushed ∧
      Mirrors (q.popReady (reading i)).2 reading ((q.popReady (reading i)).1.toList ++ I) o' := by
  rcases popReady_becomes h.sound fun p => h.not_expired p i with
    ⟨hnone, hb⟩ | ⟨p, hsome, hp, hb⟩
  · refine ⟨o, .inl rfl, rfl, rfl, ?_⟩
    rw [hnone]
    exact (h.becomes hb (fun _ hx => hx) h.sound.rep.indexed).congr h.queued.symm rfl
  · have hkey := h.sound.rep.queued_iff.mp hp
    have hpI : p ∉ I := fun hI => (h.away p hI).not_queued hp
    have hqueued : o.queued (q.item p).key = some (q.item p).ver.toNat := by
      rw [← h.queued, hint, hkey, Option.map_some]
    have hm := h.becomes hb (fun _ hx => hx.1) (h.sound.rep.remove_index hp)
    have hhint : (q.popReady (reading i)).2.hint = update o.queued (q.item p).key none := by
      rw [hm.queued, ← h.queued]
      funext bk
      by_cases hbk : bk = (q.item p).key
      · simp only [hbk, update_self, Option.map_none]
      · simp only [update_of_ne hbk, hint]
    have hlanded : (q.popReady (reading i)).2.Away p := by
      refine ⟨?_, fun hin => ((hb.queued p).mp hin).2 rfl, ?_⟩
      · exact (h.sound.rep.allocated p hp).trans_eq (congrArg Prod.fst hb.limits).symm
      · rw [size_of_content (hb.content p)]
        exact h.sound.sized p hp
    have hsent : (((q.popReady (reading i)).2.item p).key,
        ((q.popReady (reading i)).2.item p).ver.toNat) =
        ((q.item p).key, (q.item p).ver.toNat) :=
      HintItem.eq_of_content (fun it => (it.key, it.ver.toNat)) (fun _ => rfl) (hb.content p)
    refine ⟨_, .inr (.pop hqueued), rfl, rfl, ?_⟩
    rw [hsome]
    refine ⟨hm.sound, hm.unlimited, hm.lasting, ?_, nodup_cons.mpr ⟨hpI, h.nodup⟩, hhint,
      congrArg₂ List.cons hsent hm.flying⟩
    rintro x (_ | ⟨_, hx⟩)
    · exact hlanded
    · exact hm.away x hx

end

/-- A hint that is no longer in flight. -/
theorem Mirrors.land {before after : List Nat} (h : Mirrors q reading (before ++ p :: after) o) :
    ∃ f₁ f₂, o.flying = f₁ ++ ((q.item p).key, (q.item p).ver.toNat) :: f₂ ∧
      Mirrors q reading (before ++ after) { o with flying := f₁ ++ f₂ } ∧ p ∉ before ++ after := by
  have hsub : ∀ x ∈ before ++ after, x ∈ before ++ p :: after := fun x hx => by
    rw [mem_append, mem_cons]
    exact (mem_append.mp hx).imp_right .inr
  have hnodup := nodup_middle.mp h.nodup
  refine ⟨before.map _, after.map _, ?_, ⟨h.sound, h.unlimited, h.lasting,
    fun x hx => h.away x (hsub x hx), (nodup_cons.mp hnodup).2, h.queued, map_append⟩,
    (nodup_cons.mp hnodup).1⟩
  rw [← h.flying, map_append, map_cons]

/-- The holder of a hint changes when it is due. -/
theorem Mirrors.assign (h : Mirrors q reading I o) (ha : ¬ q.Queued a)
    (hf : ∀ it, (f it).payload = it.payload) : Mirrors (q.assign a f) reading I o := by
  have hpayload : ∀ p, ((q.assign a f).item p).payload = (q.item p).payload := by
    intro p
    by_cases hp : p = a
    · rw [hp, item_assign_self, hf]
    · rw [item_assign_of_ne hp]
  have hm := h.changed (h.sound.assign ha f) rfl hpayload fun p hp => (h.away p hp).not_queued
  exact hm.congr (h.queued.symm.trans (funext (hint_of_index rfl hpayload)).symm) rfl

theorem Mirrors.alloc (h : Mirrors q reading I o) {it : HintItem} (hexp : Lasting reading it.exp)
    (hsize : 0 ≤ it.size) :
    Mirrors (q.alloc it) reading I o ∧ (q.alloc it).Away q.nextItem ∧ q.nextItem ∉ I := by
  have hsound := alloc_sound h.sound it
  have hself : (q.alloc it).item q.nextItem = it := update_self ..
  have hne : ∀ p, p < q.nextItem → (q.alloc it).item p = q.item p := fun p hp =>
    update_of_ne (Nat.ne_of_lt hp) _ _
  have hnew : ¬ q.Queued q.nextItem := fun hin => Nat.lt_irrefl _ (h.sound.rep.allocated _ hin)
  refine ⟨⟨hsound, ⟨h.unlimited.1, h.unlimited.2, h.unlimited.3⟩, fun p => ?_, fun p hp => ?_,
    h.nodup, ?_, ?_⟩, ⟨Nat.lt_succ_self _, hnew, hsize.trans_eq (congrArg _ hself).symm⟩,
    fun hin => Nat.lt_irrefl _ (h.away _ hin).allocated⟩
  · by_cases hp : p = q.nextItem
    · rw [hp, hself]
      exact hexp
    · have hitem : (q.alloc it).item p = q.item p := update_of_ne hp _ _
      rw [hitem]
      exact h.lasting p
  · obtain ⟨halloc, hin, hsize⟩ := h.away p hp
    exact ⟨Nat.lt_succ_of_lt halloc, hin, hsize.trans_eq (by rw [hne p halloc])⟩
  · rw [← h.queued]
    funext bk
    cases hp : q.index bk with
    | none => simp only [hint, HintQueue.alloc, hp, Option.map_none]
    | some p =>
      have halloc := h.sound.rep.allocated p ((h.sound.rep.indexed bk p).mp hp).2
      have hindex : (q.alloc it).index bk = some p := hp
      simp only [hint, hindex, hp, Option.map_some, hne p halloc]
  · rw [← h.flying]
    exact map_congr_left fun p hp => by rw [hne p (h.away p hp).allocated]

end Mirror

end HintQueue

section Replays
open HintQueue

/-- What a call does if hints are enabled and not paused. -/
theorem enqueueHint_on {h : Handoff} (it : Int → HintItem)
    (hon : (h.cfg.IsEnabled && !h.paused) = true) :
    (h.enqueueHint it).queue = ((h.queue.alloc (it h.wall.now.1)).enqueue h.queue.nextItem
        (h.wall.reading (h.wall.ticks + 1))).2 ∧
      (h.enqueueHint it).wall.reading = h.wall.reading := by
  simp only [Handoff.enqueueHint, hon, if_true]
  split <;> exact ⟨rfl, rfl⟩

/-- The handoff to one peer: the hints that are in flight, and those that have been enqueued and
acknowledged so far. -/
structure Replay where
  handoff : Handoff
  inflight : List Nat
  enqueued : List (Bytes × UInt64)
  acked : List (Bytes × UInt64)

namespace Replay
variable {s s' : Replay} {o : Outbox Bytes Nat}

def start (cfg : HandoffConfig) (wall : WallClock) : Replay :=
  ⟨⟨cfg, HintQueue.newHintQueue cfg, 0, 0, false, wall⟩, [], [], []⟩

/-- A disabled or paused handoff enqueues nothing. -/
def record (s : Replay) (key : Bytes) (ver : UInt64) : List (Bytes × UInt64) :=
  if s.handoff.cfg.IsEnabled && !s.handoff.paused then (key, ver) :: s.enqueued else s.enqueued

def sent (s : Replay) (p : Nat) : Bytes × UInt64 :=
  ((s.handoff.queue.item p).key, (s.handoff.queue.item p).ver)

/-- The steps of the callers and of `replayOne`, whose hints are in flight between `popReady` and
the reply. The totals and the pause depend on the other peers too. -/
inductive Step : Replay → Replay → Prop where
  | enqueueSet {s : Replay} (key val : Bytes) (exp : Int) (ver : UInt64) (cp : Bool)
      (hexp : Lasting s.handoff.wall.reading exp) :
      Step s { s with
        handoff := s.handoff.enqueueSet key val exp ver cp
        enqueued := s.record key ver }
  | enqueueDel {s : Replay} (key : Bytes) (ver : UInt64) :
      Step s { s with
        handoff := s.handoff.enqueueDel key ver
        enqueued := s.record key ver }
  | popReady {s : Replay} :
      Step s { s with
        handoff := s.handoff.popReady.2
        inflight := s.handoff.popReady.1.toList ++ s.inflight }
  | acknowledge {s : Replay} (before after : List Nat) (p : Nat)
      (h : s.inflight = before ++ p :: after) :
      Step s { s with inflight := before ++ after, acked := s.sent p :: s.acked }
  | scheduleRetry {s : Replay} (before after : List Nat) (p : Nat)
      (h : s.inflight = before ++ p :: after) :
      Step s { s with inflight := before ++ after, handoff := s.handoff.scheduleRetry p }
  | housekeep {s : Replay} (totalItems totalBytes : Int) (paused : Bool) :
      Step s { s with handoff := { s.handoff with
        totalItems := totalItems, totalBytes := totalBytes, paused := paused } }

def numbered (l : List (Bytes × UInt64)) : List (Bytes × Nat) := l.map fun t => (t.1, t.2.toNat)

structure Simulates (s : Replay) (o : Outbox Bytes Nat) : Prop where
  mirrors : Mirrors s.handoff.queue s.handoff.wall.reading s.inflight o
  acked : o.acked = numbered s.acked
  pushed : o.pushed = numbered s.enqueued

theorem simulates_start {cfg : HandoffConfig} {wall : WallClock} (hitems : cfg.PerPeerCap ≤ 0)
    (hbytes : cfg.PerPeerBytes ≤ 0) (httl : cfg.TTL ≤ 0) :
    (start cfg wall).Simulates Outbox.empty := by
  refine ⟨⟨(newHintQueue_sound cfg).1, ⟨hitems, hbytes, httl⟩, fun p => .inl (Int.le_refl 0), ?_,
    nodup_nil, rfl, rfl⟩, rfl, rfl⟩
  rintro p ⟨⟩

/-- A call that enqueues a hint puts its version into the outbox. -/
theorem Simulates.enqueueHint (h : s.Simulates o) {it : Int → HintItem} {key : Bytes} {ver : UInt64}
    (hkey : ∀ t, (it t).key = key) (hver : ∀ t, (it t).ver = ver) (hsize : ∀ t, 0 ≤ (it t).size)
    (hexp : ∀ t, Lasting s.handoff.wall.reading (it t).exp) :
    ∃ o', (o' = o ∨ Outbox.Step o o') ∧
      Simulates { s with
        handoff := s.handoff.enqueueHint it
        enqueued := s.record key ver } o' := by
  by_cases hon : (s.handoff.cfg.IsEnabled && !s.handoff.paused) = true
  · obtain ⟨hqueue, hwall⟩ := enqueueHint_on it hon
    obtain ⟨hm, haway, hfresh⟩ := h.mirrors.alloc (hexp s.handoff.wall.now.1) (hsize _)
    have hnew : (s.handoff.queue.alloc (it s.handoff.wall.now.1)).item s.handoff.queue.nextItem =
        it s.handoff.wall.now.1 := update_self ..
    have hm := hm.enqueue haway hfresh (s.handoff.wall.ticks + 1)
    simp only [hnew, hkey, hver] at hm
    refine ⟨_, .inr (.push key ver.toNat), ⟨?_, h.acked, ?_⟩⟩
    · simp only [hqueue, hwall]
      exact hm.congr rfl rfl
    · simp only [record, hon, if_true, numbered, map_cons, h.pushed]
  · simp only [Handoff.enqueueHint, record, hon]
    exact ⟨o, .inl rfl, h⟩

/-- Each step is a step of the outbox or nothing to it. -/
theorem Step.simulates (hs : Step s s') (h : s.Simulates o) :
    ∃ o', (o' = o ∨ Outbox.Step o o') ∧ s'.Simulates o' := by
  cases hs with
  | enqueueSet key val exp ver cp hexp =>
    exact h.enqueueHint (fun _ => rfl) (fun _ => rfl) (fun _ => by positivity) fun _ => hexp
  | enqueueDel key ver =>
    exact h.enqueueHint (fun _ => rfl) (fun _ => rfl) (fun _ => by positivity)
      fun _ => .inl (Int.le_refl 0)
  | popReady =>
    obtain ⟨o', hstep, hacked, hpushed, hm⟩ := h.mirrors.popReady s.handoff.wall.ticks
    exact ⟨o', hstep, ⟨hm, hacked.trans h.acked, hpushed.trans h.pushed⟩⟩
  | acknowledge before after p hfly =>
    have hm := h.mirrors
    rw [hfly] at hm
    obtain ⟨f₁, f₂, hflying, hland, -⟩ := hm.land
    refine ⟨_, .inr (.ack hflying), ⟨hland.congr rfl rfl, ?_, h.pushed⟩⟩
    simp only [numbered, map_cons, h.acked, sent]
  | scheduleRetry before after p hfly =>
    have hm := h.mirrors
    rw [hfly] at hm
    have hmem : p ∈ before ++ p :: after := mem_append_right _ mem_cons_self
    obtain ⟨halloc, hin, hsize⟩ := hm.away p hmem
    obtain ⟨f₁, f₂, hflying, hland, hnot⟩ := hm.land
    have hretime := hland.assign (f := fun it => { it with
        tries := (s.handoff.queue.item p).tries + 1
        nextAt := wrap64 (s.handoff.wall.now.1 +
          Handoff.backoff ((s.handoff.queue.item p).tries + 1 - 1)) }) hin fun _ => rfl
    have hback := hretime.enqueue (a := p) ⟨halloc, hin, by rw [item_assign_self]; exact hsize⟩ hnot
      (s.handoff.wall.ticks + 1)
    rw [item_assign_self] at hback
    exact ⟨_, .inr (.retry hflying), ⟨hback.congr rfl rfl, h.acked, h.pushed⟩⟩
  | housekeep totalItems totalBytes paused =>
    exact ⟨o, .inl rfl, ⟨h.mirrors, h.acked, h.pushed⟩⟩

theorem reachable_simulates {cfg : HandoffConfig} {wall : WallClock}
    (hitems : cfg.PerPeerCap ≤ 0) (hbytes : cfg.PerPeerBytes ≤ 0) (httl : cfg.TTL ≤ 0)
    (hrun : Relation.ReflTransGen Step (start cfg wall) s) :
    ∃ o : Outbox Bytes Nat, o.Sound ∧ s.Simulates o := by
  induction hrun with
  | refl => exact ⟨_, Outbox.sound_empty, simulates_start hitems hbytes httl⟩
  | tail _ hs ih =>
    obtain ⟨o, hsound, hsim⟩ := ih
    obtain ⟨o', rfl | hstep, hsim'⟩ := hs.simulates hsim
    · exact ⟨_, hsound, hsim'⟩
    · exact ⟨o', hstep.sound hsound, hsim'⟩

theorem mem_numbered {l : List (Bytes × UInt64)} {key : Bytes} {ver : UInt64} :
    (key, ver.toNat) ∈ numbered l ↔ (key, ver) ∈ l := by
  simp only [numbered, mem_map, Prod.mk.injEq, Prod.exists, UInt64.toNat_inj]
  constructor
  · rintro ⟨k, v, hmem, rfl, rfl⟩
    exact hmem
  · exact fun hmem => ⟨key, ver, hmem, rfl, rfl⟩

/-- For every key the greatest version that has been enqueued is acknowledged, in flight or the
version of the queued hint. -/
theorem greatest_version_held {cfg : HandoffConfig} {wall : WallClock}
    (hitems : cfg.PerPeerCap ≤ 0) (hbytes : cfg.PerPeerBytes ≤ 0) (httl : cfg.TTL ≤ 0)
    (hrun : Relation.ReflTransGen Step (start cfg wall) s) {key : Bytes} {ver : UInt64}
    (hver : (key, ver) ∈ s.enqueued) (hmax : ∀ v, (key, v) ∈ s.enqueued → v ≤ ver) :
    (key, ver) ∈ s.acked ∨ (∃ p ∈ s.inflight, s.sent p = (key, ver)) ∨
      ∃ p, s.handoff.queue.index key = some p ∧ (s.handoff.queue.item p).ver = ver := by
  obtain ⟨o, hsound, hsim⟩ := reachable_simulates hitems hbytes httl hrun
  have hgreatest : ∀ w, (key, w) ∈ o.pushed → w ≤ ver.toNat := by
    intro w hw
    rw [hsim.pushed, numbered, mem_map] at hw
    obtain ⟨⟨k, v⟩, hv, heq⟩ := hw
    obtain ⟨rfl, rfl⟩ := Prod.mk.inj heq
    exact hmax v hv
  have hpushed : (key, ver.toNat) ∈ o.pushed := by
    rw [hsim.pushed]
    exact mem_numbered.mpr hver
  rcases hsound.greatest_held hpushed hgreatest with hq | hf | ha
  · rw [← hsim.mirrors.queued, hint, Option.map_eq_some_iff] at hq
    obtain ⟨p, hp, hv⟩ := hq
    exact .inr (.inr ⟨p, hp, UInt64.toNat_inj.mp hv⟩)
  · rw [← hsim.mirrors.flying, mem_map] at hf
    obtain ⟨p, hp, heq⟩ := hf
    obtain ⟨hk, hv⟩ := Prod.mk.inj heq
    exact .inr (.inl ⟨p, hp, Prod.ext hk (UInt64.toNat_inj.mp hv)⟩)
  · rw [hsim.acked, mem_numbered] at ha
    exact .inl ha

/-- A hint in flight that comes back after an older one for its key has been enqueued. -/
theorem greatest_version_held_retried :
    ∃ s, Relation.ReflTransGen Step (start ⟨none, 0, 0, 0, .DropOldest, 0, 0⟩ ⟨fun n => n, 0⟩) s ∧
      s.enqueued = [([1], 3), ([1], 5)] ∧
      (([1], 5) ∈ s.acked ∨ (∃ p ∈ s.inflight, s.sent p = ([1], 5)) ∨
        ∃ p, s.handoff.queue.index [1] = some p ∧ (s.handoff.queue.item p).ver = 5) := by
  obtain ⟨s, hrun, henq⟩ : ∃ s, Relation.ReflTransGen Step
      (start ⟨none, 0, 0, 0, .DropOldest, 0, 0⟩ ⟨fun n => n, 0⟩) s ∧
      s.enqueued = [([1], 3), ([1], 5)] :=
    ⟨_, (((Relation.ReflTransGen.refl.tail
      (.enqueueSet [1] [7] 0 5 false (.inl (Int.le_refl 0)))).tail .popReady).tail
      (.enqueueDel [1] 3)).tail (.scheduleRetry [] [] 0 rfl), rfl⟩
  refine ⟨s, hrun, henq,
    greatest_version_held (by decide) (by decide) (by decide) hrun ?_ fun v hv => ?_⟩
  · rw [henq]
    decide
  · rw [henq] at hv
    have hcases : v = 3 ∨ v = 5 := by simpa using hv
    rcases hcases with rfl | rfl <;> decide

end Replay

end Replays

end Kioshun
