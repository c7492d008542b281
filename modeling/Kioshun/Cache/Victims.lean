import Kioshun.Cache.Sections
import Kioshun.Lib.Recency

/-!
# Which entries are evicted

A journal keeps, beside the cache, when each key was last read or written with
success, when it last came into the cache, and how often it was read since it was
last written. The lists of the shards are ordered by the first under LRU and by the
second under FIFO, and under LFU the counts of the items are the third plus one, so
that the entry an evictor takes is the one that its policy promises.
-/

namespace Kioshun

open CellStore Recency Locked List

universe u v
variable {K : Type u} {V : Type v}

/-- The cache in a run, the number of sections so far, and the history of each key. -/
structure Journal (K : Type u) (V : Type v) where
  cache : InMemoryCache K V
  time : Nat
  accessed : K → Nat
  inserted : K → Nat
  gets : K → Nat

variable [DecidableEq K] [Inhabited V]

namespace Journal

def start (c : InMemoryCache K V) : Journal K V := ⟨c, 0, fun _ => 0, fun _ => 0, fun _ => 0⟩

def step (j : Journal K V) (e : Section K V) : Journal K V where
  cache := j.cache.perform e
  time := j.time + 1
  accessed := fun k =>
    if e.read j.cache = some k ∨ e.written = some k then j.time + 1 else j.accessed k
  inserted := fun k =>
    if (j.cache.view k).isNone ∧ ((j.cache.perform e).view k).isSome then j.time + 1
    else j.inserted k
  gets := fun k =>
    if e.written = some k then 0
    else if e.read j.cache = some k then j.gets k + 1 else j.gets k

def run (j : Journal K V) (es : List (Section K V)) : Journal K V := es.foldl step j

end Journal

namespace InMemoryCache

def AtCapacity (c : InMemoryCache K V) (i : Nat) : Prop :=
  0 < c.perShardCap ∧ c.perShardCap ≤ (c.order i).length

/-- How `Set` and `Import` evict from shard `i`: at capacity a new key replaces exactly one entry,
and that entry is `worse` than every other; otherwise no entry leaves. -/
structure Evicts (c : InMemoryCache K V) (i : Nat) (worse : K → K → Prop) : Prop where
  full : ∀ (e : Section K V) (k : K), e.written = some k → c.home k = i → k ∉ c.order i →
    c.AtCapacity i → ∃ v ∈ c.order i, (c.perform e).order i = k :: (c.order i).erase v ∧
      ∀ k' ∈ c.order i, k' ≠ v → worse v k'
  spare : ∀ (e : Section K V) (k : K), e.written = some k → c.home k = i →
    k ∈ c.order i ∨ ¬ c.AtCapacity i → c.order i ⊆ (c.perform e).order i

/-- `Exists`, failed lookups, `Keys` and `Export` move nothing in shard `i`; the first two may
take the key they are called for out. -/
structure Unmoved (c : InMemoryCache K V) (i : Nat) : Prop where
  exists_ : ∀ (key : K) (now : Int),
    (c.perform (.exists_ key now)).order i = c.order i ∨
      (c.perform (.exists_ key now)).order i = (c.order i).erase key
  get : ∀ (key : K) (lockedWrite : Bool), c.hits key lockedWrite = false →
    (c.perform (.get key lockedWrite)).order i = c.order i ∨
      (c.perform (.get key lockedWrite)).order i = (c.order i).erase key
  keys : ∀ (shard : Nat) (now : Int), (c.perform (.keys shard now)).order i = c.order i
  export_ : ∀ (shard : Nat) (selectFn : K → Bool) (max : Nat) (out : List (Item K V)),
    (c.perform (.export_ shard selectFn max out)).order i = c.order i

/-- Neither reading nor overwriting a stored key moves anything in shard `i`. -/
structure InPlace (c : InMemoryCache K V) (i : Nat) : Prop where
  get : ∀ (key : K) (lockedWrite : Bool), c.hits key lockedWrite = true →
    (c.perform (.get key lockedWrite)).order i = c.order i
  write : ∀ (e : Section K V) (k : K), e.written = some k → (c.view k).isSome →
    (c.perform e).order i = c.order i

variable {c c' : InMemoryCache K V} {i : Nat} {k : K} {r w : Option K}

theorem promoted_lru {policy : EvictionPolicy} (hp : policy = .LRU) (k : K) (l : List K) :
    promoted policy k l = k :: l.erase k :=
  if_pos hp

theorem promoted_other {policy : EvictionPolicy} (hp : policy ≠ .LRU) (k : K) (l : List K) :
    promoted policy k l = l :=
  if_neg hp

section
omit [Inhabited V]

/-- Under LRU the key that is read or written comes first, and otherwise keys only leave. -/
theorem Acts.recent (ha : Acts c r w c') (h : Valid c) (hp : c.config.evictionPolicy = .LRU)
    (i : Nat) :
    ((∀ k, r = some k ∨ w = some k → c.home k ≠ i) ∧ (c'.order i).Sublist (c.order i)) ∨
      ∃ k l, (∀ k', r = some k' ∨ w = some k' ↔ k' = k) ∧ c'.order i = k :: l ∧
        l.Sublist ((c.order i).erase k) := by
  cases ha with
  | idle hi =>
    refine .inl ⟨by simp, ?_⟩
    rw [hi.order_count.1]
  | thins hs hstep ht =>
    refine .inl ⟨by simp, ?_⟩
    rw [h.order_put hs hstep]
    split_ifs with hj
    · subst hj
      rw [order_of_shard hs]
      exact ht.order
    · exact List.Sublist.refl _
  | @reads k s t hs hstep hm ho hn =>
    rw [h.order_put hs hstep]
    split_ifs with hj
    · subst hj
      rw [ho, promoted_lru hp, order_of_shard hs]
      exact .inr ⟨k, _, by simp [eq_comm], rfl, List.Sublist.refl _⟩
    · exact .inl ⟨by simpa using Ne.symm hj, List.Sublist.refl _⟩
  | @puts k s t hs hstep hputs =>
    rw [h.order_put hs hstep]
    split_ifs with hj
    · subst hj
      rw [order_of_shard hs]
      refine .inr ⟨k, ?_⟩
      cases hputs with
      | overwrites hm ho hn =>
        exact ⟨_, by simp [eq_comm], by rw [ho, promoted_lru hp], List.Sublist.refl _⟩
      | inserts hnew hroom ho hn =>
        refine ⟨_, by simp [eq_comm], ho, ?_⟩
        rw [erase_of_not_mem hnew]
      | replaces hnew hfull hv hvictim ho hn =>
        refine ⟨_, by simp [eq_comm], ho, ?_⟩
        rw [erase_of_not_mem hnew]
        exact erase_sublist
      | refused hnew hfull hgate ho =>
        rw [hp] at hgate
        cases hgate
    · exact .inl ⟨by simpa using Ne.symm hj, List.Sublist.refl _⟩

/-- Under the other policies only a new key comes first. -/
theorem Acts.arrived (ha : Acts c r w c') (h : Valid c) (hp : c.config.evictionPolicy ≠ .LRU)
    (i : Nat) :
    (c'.order i).Sublist (c.order i) ∨
      ∃ k l, k ∉ c.order i ∧ c'.order i = k :: l ∧ l.Sublist (c.order i) := by
  cases ha with
  | idle hi =>
    rw [hi.order_count.1]
    exact .inl (List.Sublist.refl _)
  | thins hs hstep ht =>
    rw [h.order_put hs hstep]
    split_ifs with hj
    · subst hj
      rw [order_of_shard hs]
      exact .inl ht.order
    · exact .inl (List.Sublist.refl _)
  | reads hs hstep hm ho hn =>
    rw [h.order_put hs hstep]
    split_ifs with hj
    · subst hj
      rw [ho, promoted_other hp, order_of_shard hs]
      exact .inl (List.Sublist.refl _)
    · exact .inl (List.Sublist.refl _)
  | @puts k s t hs hstep hputs =>
    rw [h.order_put hs hstep]
    split_ifs with hj
    · subst hj
      rw [order_of_shard hs]
      cases hputs with
      | overwrites hm ho hn =>
        rw [ho, promoted_other hp]
        exact .inl (List.Sublist.refl _)
      | inserts hnew hroom ho hn => exact .inr ⟨k, _, hnew, ho, List.Sublist.refl _⟩
      | replaces hnew hfull hv hvictim ho hn =>
        exact .inr ⟨k, _, hnew, ho, erase_sublist⟩
      | refused hnew hfull hgate ho =>
        rw [ho]
        exact .inl (List.Sublist.refl _)
    · exact .inl (List.Sublist.refl _)

/-- Under LFU a write sets the count to one, a read adds one, and nothing else changes it. -/
theorem Acts.counted (ha : Acts c r w c') (h : Valid c) (hp : c.config.evictionPolicy = .LFU)
    {n : Int} (hn : c'.count k = some n) :
    (w = some k ∧ n = 1) ∨
      (w ≠ some k ∧ r = some k ∧ ∃ m, c.count k = some m ∧ n = m + 1) ∨
      (w ≠ some k ∧ r ≠ some k ∧ c.count k = some n) := by
  cases ha with
  | idle hi =>
    rw [hi.order_count.2] at hn
    exact .inr (.inr ⟨by simp, by simp, hn⟩)
  | thins hs hstep ht =>
    refine .inr (.inr ⟨by simp, by simp, ?_⟩)
    rw [h.count_put hs hstep] at hn
    split_ifs at hn with hk
    · subst hk
      rw [count_of_shard hs]
      rcases ht.count hp k with he | hnone
      · exact he.symm.trans hn
      · rw [hnone] at hn
        cases hn
    · exact hn
  | @reads k' s t hs hstep hm ho hcount =>
    obtain ⟨m, hm, hupd⟩ := hcount hp
    rw [h.count_put hs hstep] at hn
    by_cases hk : k = k'
    · subst hk
      rw [if_pos rfl, hupd, Function.update_self] at hn
      exact .inr (.inl ⟨by simp, rfl, m, (count_of_shard hs).trans hm, (Option.some.inj hn).symm⟩)
    · refine .inr (.inr ⟨by simp, by simpa using Ne.symm hk, ?_⟩)
      split_ifs at hn with hhome
      · rw [hupd, Function.update_of_ne hk] at hn
        rw [count_of_shard (hhome ▸ hs)]
        exact hn
      · exact hn
  | @puts k' s t hs hstep hputs =>
    rw [hp] at hputs
    obtain ⟨hone, hothers⟩ := hputs.count_lfu
    rw [h.count_put hs hstep] at hn
    by_cases hk : k = k'
    · subst hk
      rw [if_pos rfl, hone] at hn
      exact .inl ⟨rfl, (Option.some.inj hn).symm⟩
    · refine .inr (.inr ⟨by simpa using Ne.symm hk, by simp, ?_⟩)
      split_ifs at hn with hhome
      · rw [count_of_shard (hhome ▸ hs)]
        rcases hothers k hk with he | hnone
        · exact he.symm.trans hn
        · rw [hnone] at hn
          cases hn
      · exact hn

end

theorem subset_promoted (policy : EvictionPolicy) (k : K) (l : List K) :
    l ⊆ promoted policy k l := by
  intro x hx
  unfold promoted
  split_ifs
  · by_cases he : x = k
    · exact he ▸ mem_cons_self
    · exact mem_cons_of_mem _ ((mem_erase_of_ne he).mpr hx)
  · exact hx

/-- A write as an operation on the list of its shard. -/
theorem Valid.write_puts (h : Valid c) (hb : Bounded c) {e : Section K V}
    (he : e.written = some k) :
    ∃ s t, c.shards[c.home k]? = some s ∧ (c.perform e).order (c.home k) = t.order ∧
      (∀ i, i ≠ c.home k → (c.perform e).order i = c.order i) ∧
      Puts c.config.evictionPolicy c.perShardCap k (c.locked s) t := by
  obtain ⟨-, ha⟩ := perform_acts h hb e
  rw [he] at ha
  generalize e.read c = r at ha
  generalize c.perform e = c' at ha
  cases ha with
  | @puts _ s t hs hstep hputs =>
    refine ⟨s, t, hs, ?_, fun i hi => ?_, hputs⟩
    · rw [h.order_put hs hstep, if_pos rfl]
    · rw [h.order_put hs hstep, if_neg hi]

omit [Inhabited V] in
theorem Valid.roomy_iff (h : Valid c) {s : Shard K} (hs : c.shards[i]? = some s) :
    Roomy c.perShardCap (c.locked s) ↔ ¬ c.AtCapacity i := by
  have hlen : ((c.locked s).order.length : Int) = (c.locked s).sh.size :=
    (h.shard i s hs).core.length_order
  rw [AtCapacity, Roomy, order_of_shard hs, hlen]
  omega

/-- What is evicted is worse than the rest if every victim of the policy is. -/
theorem Valid.evicts (h : Valid c) (hb : Bounded c) {worse : K → K → Prop}
    (hp : c.config.evictionPolicy ≠ .AdmissionLFU)
    (hworse : ∀ s, c.shards[i]? = some s → ∀ v, Victim c.config.evictionPolicy (c.locked s) v →
      v ∈ c.order i → ∀ k ∈ c.order i, k ≠ v → worse v k) : c.Evicts i worse where
  full := by
    intro e k he hi hnew hfull
    subst hi
    obtain ⟨s, t, hs, ho, -, hputs⟩ := h.write_puts hb he
    rw [ho]
    have hiff := h.roomy_iff hs
    rw [order_of_shard hs] at hnew hworse ⊢
    cases hputs with
    | overwrites hm => exact absurd hm hnew
    | inserts _ hroom => exact absurd hfull (hiff.mp hroom)
    | @replaces v _ _ hv hvictim horder => exact ⟨v, hv, horder, hworse s hs v hvictim hv⟩
    | refused _ _ hgate => exact absurd hgate hp
  spare := by
    intro e k he hi hspare
    subst hi
    obtain ⟨s, t, hs, ho, -, hputs⟩ := h.write_puts hb he
    rw [ho]
    have hiff := h.roomy_iff hs
    rw [order_of_shard hs] at hspare ⊢
    have hroom : k ∉ (c.locked s).order → Roomy c.perShardCap (c.locked s) :=
      fun hnew => hiff.mpr (hspare.resolve_left hnew)
    cases hputs with
    | overwrites hm horder =>
      rw [horder]
      exact subset_promoted _ k _
    | inserts _ _ horder =>
      rw [horder]
      exact subset_cons_self _ _
    | replaces hnew hfull => exact absurd (hroom hnew) hfull
    | refused hnew hfull => exact absurd (hroom hnew) hfull

theorem Valid.unmoved (h : Valid c) (i : Nat) : c.Unmoved i where
  exists_ := by
    intro key now
    obtain ⟨s, hs⟩ := h.home_shard key
    obtain ⟨hstep, hdrops⟩ := existsSection_drops (h.shard _ s hs) key now
    rw [perform, onShard_eq hs, h.order_put hs hstep]
    split_ifs with hi
    · subst hi
      rw [order_of_shard hs]
      exact hdrops.imp And.left And.left
    · exact .inl rfl
  get := by
    intro key lockedWrite hmiss
    obtain ⟨s, r, hs, heq, hhits, hstep, hreads⟩ := h.get_reads key lockedWrite
    rw [hmiss] at hhits
    cases hreads with
    | miss _ hdrops =>
      rw [heq, h.order_put hs hstep]
      split_ifs with hi
      · subst hi
        rw [order_of_shard hs]
        exact hdrops.imp And.left And.left
      · exact .inl rfl
    | hit hr => exact absurd (hhits.mpr ⟨_, _, hr⟩) Bool.false_ne_true
  keys := fun shard now => by rw [(keys_idle c shard now).order_count.1]
  export_ := fun shard selectFn max out => by
    rw [(export_idle c shard selectFn max out).order_count.1]

theorem Valid.inPlace (h : Valid c) (hb : Bounded c) (hp : c.config.evictionPolicy ≠ .LRU)
    (i : Nat) : c.InPlace i where
  get := by
    intro key lockedWrite hhit
    obtain ⟨s, r, hs, heq, hhits, hstep, hreads⟩ := h.get_reads key lockedWrite
    cases hreads with
    | miss hne =>
      obtain ⟨a, now, hr⟩ := hhits.mp hhit
      exact absurd hr (hne a now)
    | hit _ _ ho =>
      rw [heq, h.order_put hs hstep]
      split_ifs with hi
      · subst hi
        rw [ho, promoted_other hp, order_of_shard hs]
      · rfl
  write := by
    intro e k he hk
    obtain ⟨s, t, hs, ho, hothers, hputs⟩ := h.write_puts hb he
    by_cases hi : i = c.home k
    · have hm := h.mem_order.mpr ⟨hi.symm, hk⟩
      subst hi
      rw [order_of_shard hs] at hm
      rw [ho, order_of_shard hs]
      cases hputs with
      | overwrites _ horder => rw [horder, promoted_other hp]
      | inserts hnew => exact absurd hm hnew
      | replaces hnew => exact absurd hm hnew
      | refused hnew => exact absurd hm hnew
    · exact hothers i hi

end InMemoryCache

namespace Journal
variable {j : Journal K V} {i : Nat}

structure Sound (j : Journal K V) : Prop where
  valid : j.cache.Valid
  bounded : j.cache.Bounded
  recent : j.cache.config.evictionPolicy = .LRU → ∀ i, Ranked j.accessed j.time (j.cache.order i)
  arrived : j.cache.config.evictionPolicy ≠ .LRU → ∀ i, Ranked j.inserted j.time (j.cache.order i)
  counted : j.cache.config.evictionPolicy = .LFU →
    ∀ k n, j.cache.count k = some n → n = 1 + (j.gets k : Int)

section Step
variable (h : j.Sound) (e : Section K V)
include h

theorem Sound.step_config : (j.step e).cache.config = j.cache.config :=
  (InMemoryCache.perform_acts h.valid h.bounded e).1.shape.config

theorem Sound.step_recent (hp : j.cache.config.evictionPolicy = .LRU) (i : Nat) :
    Ranked (j.step e).accessed (j.step e).time ((j.step e).cache.order i) := by
  have ha := (InMemoryCache.perform_acts h.valid h.bounded e).2
  have hr := h.recent hp i
  rcases ha.recent h.valid hp i with ⟨hout, hsub⟩ | ⟨k, l, hk, ho, hsub⟩
  · refine (hr.sublist hsub).congr (fun a hm => ?_) (Nat.le_succ _)
    have hhome := (h.valid.mem_order.mp (hsub.subset hm)).1
    exact if_neg fun hacc => hout a hacc hhome
  · have horder : (j.step e).cache.order i = k :: l := ho
    rw [horder]
    refine hr.push (hsub.trans erase_sublist) (fun a hm => ?_) (if_pos ((hk k).mpr rfl))
    have hne := (hr.nodup.mem_erase_iff.mp (hsub.subset hm)).1
    exact if_neg fun hacc => hne ((hk a).mp hacc)

theorem Sound.step_arrived (hp : j.cache.config.evictionPolicy ≠ .LRU) (i : Nat) :
    Ranked (j.step e).inserted (j.step e).time ((j.step e).cache.order i) := by
  obtain ⟨hout, ha⟩ := InMemoryCache.perform_acts h.valid h.bounded e
  have hr := h.arrived hp i
  -- a stored key keeps the time at which it came
  have hkeep : ∀ a ∈ j.cache.order i, (j.step e).inserted a = j.inserted a := by
    intro a hm
    refine if_neg fun hnew => ?_
    have hstored := (h.valid.mem_order.mp hm).2
    rw [Option.isNone_iff_eq_none.mp hnew.1] at hstored
    cases hstored
  rcases ha.arrived h.valid hp i with hsub | ⟨k, l, hnew, ho, hsub⟩
  · exact (hr.sublist hsub).congr (fun a hm => hkeep a (hsub.subset hm)) (Nat.le_succ _)
  · have horder : (j.step e).cache.order i = k :: l := ho
    have hk : k ∈ (j.cache.perform e).order i := ho ▸ mem_cons_self
    obtain ⟨hhome, hstored⟩ := hout.valid.mem_order.mp hk
    rw [hout.shape.home] at hhome
    have hnone : j.cache.view k = none := by
      by_contra hsome
      exact hnew (h.valid.mem_order.mpr ⟨hhome, Option.isSome_iff_ne_none.mpr hsome⟩)
    rw [horder]
    exact hr.push hsub (fun a hm => hkeep a (hsub.subset hm))
      (if_pos ⟨Option.isNone_iff_eq_none.mpr hnone, hstored⟩)

theorem Sound.step_counted (hp : j.cache.config.evictionPolicy = .LFU) (k : K) (n : Int)
    (hn : (j.step e).cache.count k = some n) : n = 1 + ((j.step e).gets k : Int) := by
  have ha := (InMemoryCache.perform_acts h.valid h.bounded e).2
  rcases ha.counted h.valid hp hn with ⟨hw, rfl⟩ | ⟨hw, hr, m, hm, rfl⟩ | ⟨hw, hr, hm⟩
  · have hzero : (j.step e).gets k = 0 := if_pos hw
    rw [hzero]
    rfl
  · have hsucc : (j.step e).gets k = j.gets k + 1 := (if_neg hw).trans (if_pos hr)
    have hold := h.counted hp k m hm
    omega
  · have hsame : (j.step e).gets k = j.gets k := (if_neg hw).trans (if_neg hr)
    rw [hsame]
    exact h.counted hp k n hm

theorem Sound.step : (j.step e).Sound := by
  obtain ⟨hout, -⟩ := InMemoryCache.perform_acts h.valid h.bounded e
  refine ⟨hout.valid, hout.bounded h.bounded, ?_, ?_, ?_⟩
  · rw [h.step_config e]
    exact h.step_recent e
  · rw [h.step_config e]
    exact h.step_arrived e
  · rw [h.step_config e]
    exact h.step_counted e

end Step

theorem Sound.run (h : j.Sound) (es : List (Section K V)) : (j.run es).Sound := by
  induction es generalizing j with
  | nil => exact h
  | cons e es ih => exact ih (h.step e)

theorem Sound.run_config (h : j.Sound) (es : List (Section K V)) :
    (j.run es).cache.config = j.cache.config := by
  induction es generalizing j with
  | nil => rfl
  | cons e es ih => exact (ih (h.step e)).trans (h.step_config e)

/-- A new cache has an empty history. -/
theorem start_sound {config : Config} {numCPU : Int} {hasher : K → UInt64} {wall : WallClock}
    {choice : Nat → Nat} {c : InMemoryCache K V}
    (hnew : InMemoryCache.New config numCPU hasher wall choice = some c) : (start c).Sound := by
  have hv := (InMemoryCache.New_spec hnew).1
  have hview := InMemoryCache.New_view hnew
  have hnil : ∀ i, c.order i = [] := by
    intro i
    apply eq_nil_iff_forall_not_mem.mpr
    intro k hk
    have hstored := (hv.mem_order.mp hk).2
    rw [hview] at hstored
    cases hstored
  refine ⟨hv, InMemoryCache.New_bounded hnew, fun _ i => ?_, fun _ i => ?_, fun _ k n hn => ?_⟩
  · rw [start, hnil]
    exact Ranked.nil
  · rw [start, hnil]
    exact Ranked.nil
  · have hstored := hv.count_isSome.mp (Option.isSome_of_eq_some hn)
    rw [hview] at hstored
    cases hstored

/-- Shard `i` is kept in the order of the given stamps, the most recent first, and what it evicts
is the entry with the oldest stamp. -/
structure Ordered (j : Journal K V) (stamp : K → Nat) (i : Nat) : Prop where
  stored : ∀ k, k ∈ j.cache.order i ↔ j.cache.home k = i ∧ (j.cache.view k).isSome
  sorted : (j.cache.order i).Pairwise fun a b => stamp b < stamp a
  evicts : j.cache.Evicts i fun v k => stamp v < stamp k
  unmoved : j.cache.Unmoved i

/-- Under policies that evict at the tail, ranked lists are all it takes. -/
theorem Sound.ordered (h : j.Sound) {stamp : K → Nat} (i : Nat)
    (hp : j.cache.config.evictionPolicy = .LRU ∨ j.cache.config.evictionPolicy = .FIFO)
    (hr : Ranked stamp j.time (j.cache.order i)) : j.Ordered stamp i where
  stored := fun _ => h.valid.mem_order
  sorted := hr.sorted
  evicts := by
    refine h.valid.evicts h.bounded ?_ fun s hs v hvictim _ k hk hne => ?_
    · rcases hp with hp | hp <;> rw [hp] <;> decide
    · have hlast : ∃ rest, j.cache.order i = rest ++ [v] := by
        rw [InMemoryCache.order_of_shard hs]
        rcases hp with hp | hp <;> rw [hp] at hvictim <;> exact hvictim
      obtain ⟨rest, hrest⟩ := hlast
      rw [hrest] at hr hk
      exact hr.last_oldest hk hne
  unmoved := h.valid.unmoved i

section Policies
variable {config : Config} {numCPU : Int} {hasher : K → UInt64} {wall : WallClock}
  {choice : Nat → Nat} {c : InMemoryCache K V}

/-- After every run, the list of every shard is ordered by the latest successful read or write
under LRU and by the latest insertion under FIFO, and evictions take the oldest. -/
theorem run_ordered (hnew : InMemoryCache.New config numCPU hasher wall choice = some c)
    (es : List (Section K V)) (i : Nat) :
    (config.evictionPolicy = .LRU →
        ((start c).run es).Ordered ((start c).run es).accessed i) ∧
      (config.evictionPolicy = .FIFO →
        ((start c).run es).Ordered ((start c).run es).inserted i ∧
          ((start c).run es).cache.InPlace i) := by
  have hstart := start_sound hnew
  have hs := hstart.run es
  have hconfig : ((start c).run es).cache.config = config :=
    (hstart.run_config es).trans (InMemoryCache.New_spec hnew).2.2.1
  rw [← hconfig]
  constructor
  · intro hp
    exact hs.ordered i (.inl hp) (hs.recent hp i)
  · intro hp
    have hne : ((start c).run es).cache.config.evictionPolicy ≠ .LRU := by
      rw [hp]
      decide
    exact ⟨hs.ordered i (.inr hp) (hs.arrived hne i), hs.valid.inPlace hs.bounded hne i⟩

def busyRun : List (Section Nat Nat) :=
  [.clock, .set 1 10 0 0, .set 2 20 0 0, .get 1 true, .exists_ 2 0, .get 7 true,
    .import_ ⟨3, 30, 0, 0⟩ 0, .get 1 true, .keys 0 0, .set 4 40 0 0]

def busyJournal (policy : EvictionPolicy) : Journal Nat Nat :=
  (start (InMemoryCache.small policy fun n => n)).run busyRun

/-- In this run LRU keeps the key that is read, and FIFO does not. -/
theorem run_ordered_busy :
    ((busyJournal .LRU).cache.order 0 = [4, 1] ∧
      (busyJournal .LRU).Ordered (busyJournal .LRU).accessed 0) ∧
    (busyJournal .FIFO).cache.order 0 = [4, 3] ∧
      (busyJournal .FIFO).Ordered (busyJournal .FIFO).inserted 0 ∧
      (busyJournal .FIFO).cache.InPlace 0 :=
  ⟨⟨by decide +kernel, (run_ordered (InMemoryCache.New_small ..) busyRun 0).1 (by decide +kernel)⟩,
    by decide +kernel, (run_ordered (InMemoryCache.New_small ..) busyRun 0).2 (by decide +kernel)⟩

/-- Under LFU, item and bucket of every key of shard `i` count its reads since the latest write,
and what is evicted has the least count. -/
structure Counted (j : Journal K V) (i : Nat) : Prop where
  item : ∀ s, j.cache.shards[i]? = some s → ∀ k a, s.data.lookup k = some a →
    (j.cache.body a).frequency = 1 + (j.gets k : Int)
  bucket : ∀ s, j.cache.shards[i]? = some s → ∃ l bs, s.lfuList = some l ∧ l.Rep bs ∧
    ∀ k a, s.data.lookup k = some a → ∃ node ∈ bs, l.itemFreq.lookup a = some node ∧
      a ∈ l.items node ∧ l.freq node = 1 + (j.gets k : Int)
  evicts : j.cache.Evicts i fun v k => j.gets v ≤ j.gets k

/-- After every run under LFU, frequencies count reads and evictions take the least. -/
theorem run_counted (hnew : InMemoryCache.New config numCPU hasher wall choice = some c)
    (hlfu : config.evictionPolicy = .LFU) (es : List (Section K V)) (i : Nat) :
    ((start c).run es).Counted i := by
  have hstart := start_sound hnew
  have hs := hstart.run es
  have hconfig : ((start c).run es).cache.config = config :=
    (hstart.run_config es).trans (InMemoryCache.New_spec hnew).2.2.1
  rw [← hconfig] at hlfu
  generalize (start c).run es = j at hs hlfu
  have hitem : ∀ s, j.cache.shards[i]? = some s → ∀ k a, s.data.lookup k = some a →
      (j.cache.body a).frequency = 1 + (j.gets k : Int) := by
    intro s hi k a hk
    have hhome : j.cache.home k = i := (hs.valid.shard i s hi).core.home k a hk
    subst hhome
    refine hs.counted hlfu k _ ?_
    rw [InMemoryCache.count_of_shard hi]
    exact count_of_lookup hk
  refine ⟨hitem, ?_, ?_⟩
  · intro s hi
    obtain ⟨l, bs, hl, hrep, hfreq⟩ := (hs.valid.shardSound hi).index hlfu
    refine ⟨l, bs, hl, hrep, fun k a hk => ?_⟩
    have hmem : a ∈ s.data.entries.map Sigma.snd := Shard.mem_items_of_lookup hk
    have hsome : l.freqOf a = some (j.cache.body a).frequency := by rw [hfreq, if_pos hmem]
    obtain ⟨node, hnode, ha, hf⟩ := (LfuList.freqOf_eq_some hrep.indexed).mp hsome
    refine ⟨node, hnode, (hrep.indexed.itemFreq a node).mpr ⟨hnode, ha⟩, ha, ?_⟩
    rw [← hitem s hi k a hk]
    exact hf
  · refine hs.valid.evicts hs.bounded (by rw [hlfu]; decide) fun s hi v hvictim hv k hk _ => ?_
    rw [hlfu] at hvictim
    obtain ⟨m, hm, hleast⟩ := hvictim
    rw [InMemoryCache.order_of_shard hi] at hv hk
    obtain ⟨a, ha⟩ := (hs.valid.shard i s hi).core.mem_order.mp hv
    obtain ⟨b, hb⟩ := (hs.valid.shard i s hi).core.mem_order.mp hk
    have hva := hitem s hi v a ha
    have hkb := hitem s hi k b hb
    have hmv : m = (j.cache.body a).frequency :=
      Option.some.inj (hm.symm.trans (count_of_lookup ha))
    have hle : m ≤ (j.cache.body b).frequency := hleast k _ (count_of_lookup hb)
    omega

theorem run_counted_busy :
    (InMemoryCache.smallConfig .LFU).evictionPolicy = .LFU ∧
      (busyJournal .LFU).cache.order 0 = [4, 1] ∧ (busyJournal .LFU).gets 1 = 2 ∧
      (busyJournal .LFU).Counted 0 :=
  ⟨rfl, by decide +kernel, by decide +kernel,
    run_counted (InMemoryCache.New_small ..) rfl busyRun 0⟩

end Policies

end Journal

end Kioshun
