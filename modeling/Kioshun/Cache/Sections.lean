import Kioshun.Cache.Concurrent
import Kioshun.Cache.Order
import Kioshun.Lib.Schedule

/-!
# Runs at the grain of critical sections

Every call is a sequence of critical sections and clock readings, and concurrent
calls interleave in any way at this grain. A run is a list of sections here, so
that a statement about all runs covers all interleavings; sequences of calls and
the interleavings of `System` are such runs.
-/

namespace Kioshun

open CellStore WallClock List

universe u v

/-- A critical section with what its call has fixed before, or a reading of the clock. -/
inductive Section (K : Type u) (V : Type v) where
  | clock
  | get (key : K) (lockedWrite : Bool)
  | set (key : K) (value : V) (now expireTime : Int)
  | import_ (it : Item K V) (now : Int)
  | exists_ (key : K) (now : Int)
  | delete (key : K)
  | cleanup (shard : Nat) (now : Int)
  | clear (shard : Nat)
  | keys (shard : Nat) (now : Int)
  | export_ (shard : Nat) (selectFn : K → Bool) (max : Nat) (out : List (Item K V))

variable {K : Type u} {V : Type v} [DecidableEq K]

namespace InMemoryCache

variable [Inhabited V]

/-- The cache after one section. Loops over the shards stay within them. -/
def perform (c : InMemoryCache K V) : Section K V → InMemoryCache K V
  | .clock => c.now.2
  | .get key lockedWrite =>
    (c.onShard (c.home key) .miss (Locked.getSection c.config lockedWrite key)).2
  | .set key value now expireTime =>
    c.updateShard (c.home key)
      (Locked.setSection c.config c.perShardCap key (c.hasher key) value now expireTime)
  | .import_ it now => c.importOne now it
  | .exists_ key now => (c.onShard (c.home key) false (Locked.existsSection c.config key now)).2
  | .delete key =>
    (c.onShard (c.home key) false (Locked.deleteSection c.config.evictionPolicy key)).2
  | .cleanup shard now =>
    if shard < c.shards.length then c.updateShard shard
      (Locked.cleanup now c.config.evictionPolicy c.config.statsEnabled) else c
  | .clear shard =>
    if shard < c.shards.length then c.updateShard shard
      (Locked.clearSection c.config.evictionPolicy) else c
  | .keys shard now =>
    if shard < c.shards.length then (c.onShard shard [] (keysSection now)).2 else c
  | .export_ shard selectFn max out =>
    if shard < c.shards.length then
      (c.onShard shard (out, false) (exportSection selectFn max out)).2 else c

def hits (c : InMemoryCache K V) (key : K) (lockedWrite : Bool) : Bool :=
  match (c.onShard (c.home key) .miss (Locked.getSection c.config lockedWrite key)).1 with
  | .hit _ _ => true
  | _ => false

def order (c : InMemoryCache K V) (i : Nat) : List K :=
  match c.shards[i]? with
  | none => []
  | some s => (c.locked s).order

def count (c : InMemoryCache K V) (k : K) : Option Int :=
  (c.shards[c.home k]?).bind fun s => (c.locked s).count k

end InMemoryCache

namespace Section

def read (c : InMemoryCache K V) : Section K V → Option K
  | .get key lockedWrite => if c.hits key lockedWrite then some key else none
  | _ => none

def written : Section K V → Option K
  | .set key _ _ _ => some key
  | .import_ it _ => some it.Key
  | _ => none

end Section

namespace InMemoryCache
variable {c c' : InMemoryCache K V} {i j : Nat} {s : Shard K} {t : Locked K V} {k : K}

section Frame

omit [DecidableEq K] in
theorem order_of_shard (h : c.shards[i]? = some s) : c.order i = (c.locked s).order := by
  simp only [order, h]

theorem count_of_shard (h : c.shards[c.home k]? = some s) : c.count k = (c.locked s).count k := by
  simp only [count, h, Option.bind_some]

/-- The list of a shard holds exactly its stored keys. -/
theorem Valid.mem_order (h : Valid c) : k ∈ c.order i ↔ c.home k = i ∧ (c.view k).isSome := by
  have hview : ∀ s, c.shards[c.home k]? = some s →
      ((c.view k).isSome ↔ k ∈ (c.locked s).order) := by
    intro s hs
    rw [view_of_shard hs, (h.shard _ s hs).core.mem_order, Option.isSome_iff_ne_none, Ne,
      Locked.view_eq_none, ← Ne, Option.ne_none_iff_exists']
  constructor
  · intro hk
    cases hs : c.shards[i]? with
    | none => simp [order, hs] at hk
    | some s =>
      rw [order_of_shard hs] at hk
      obtain ⟨a, ha⟩ := (h.shard i s hs).core.mem_order.mp hk
      obtain rfl := (h.shard i s hs).core.home k a ha
      exact ⟨rfl, (hview s hs).mpr hk⟩
  · rintro ⟨rfl, hk⟩
    obtain ⟨s, hs⟩ := h.home_shard k
    rw [order_of_shard hs]
    exact (hview s hs).mp hk

theorem Valid.count_isSome (h : Valid c) : (c.count k).isSome ↔ (c.view k).isSome := by
  obtain ⟨s, hs⟩ := h.home_shard k
  rw [count_of_shard hs, view_of_shard hs, Option.isSome_iff_ne_none, Option.isSome_iff_ne_none,
    Ne, Ne, Locked.count_eq_none, Locked.view_eq_none]

theorem Idle.order_count (h : Idle c c') : c'.order = c.order ∧ c'.count = c.count := by
  have hq : ∀ s : Shard K, Locked.Quiet (c.locked s) (c'.locked s) :=
    fun s => ⟨h.mem, h.pool, rfl, rfl, rfl, rfl⟩
  have hshards : c'.shards = c.shards := by rw [h.shards]
  have hhome : ∀ k, c'.home k = c.home k := fun k => by rw [h.shards]; rfl
  constructor
  · funext i
    simp only [order, hshards]
    cases c.shards[i]? with
    | none => rfl
    | some s => exact (hq s).order
  · funext k
    simp only [count, hshards, hhome]
    cases c.shards[c.home k]? with
    | none => rfl
    | some s => exact congrFun (hq s).count k

variable (h : Valid c) (hi : c.shards[i]? = some s)
  (hstep : Locked.Step c.config.evictionPolicy (fun k => c.home k = i) (c.locked s) t)
include h hi hstep

theorem Valid.order_count_other {s' : Shard K} (hj : c.shards[j]? = some s') (hij : i ≠ j) :
    ((c.put i t).locked s').order = (c.locked s').order ∧
      ((c.put i t).locked s').count = (c.locked s').count := by
  refine (h.shard j s' hj).core.order_frame fun a ha => ?_
  exact (hstep.evolves.foreign a (h.foreign hi hj hij ha)).2

/-- A section changes the order of its own shard only. -/
theorem Valid.order_put : (c.put i t).order j = if j = i then t.order else c.order j := by
  split_ifs with hj
  · subst hj
    exact order_of_shard (getElem?_put_self hi)
  · have hij : i ≠ j := fun he => hj he.symm
    cases hs' : c.shards[j]? with
    | none => simp only [order, getElem?_put_ne hij, hs']
    | some s' =>
      rw [order_of_shard hs', ← (h.order_count_other hi hstep hs' hij).1]
      exact order_of_shard (by rw [getElem?_put_ne hij]; exact hs')

theorem Valid.count_put : (c.put i t).count k = if c.home k = i then t.count k else c.count k := by
  have hhome : (c.put i t).home k = c.home k := rfl
  split_ifs with hk
  · subst hk
    exact count_of_shard (getElem?_put_self hi)
  · obtain ⟨s', hs'⟩ := h.home_shard k
    have hne : i ≠ c.home k := fun he => hk he.symm
    rw [count_of_shard hs', ← (h.order_count_other hi hstep hs' hne).2]
    exact count_of_shard (by rw [hhome, getElem?_put_ne hne]; exact hs')

end Frame

/-- What a section can do, given the key it reads with success and the key it writes. -/
inductive Acts (c : InMemoryCache K V) : Option K → Option K → InMemoryCache K V → Prop where
  | idle {c' : InMemoryCache K V} (idle : Idle c c') : Acts c none none c'
  | thins {i : Nat} {s : Shard K} {t : Locked K V} (shard : c.shards[i]? = some s)
      (step : Locked.Step c.config.evictionPolicy (fun k => c.home k = i) (c.locked s) t)
      (thins : Locked.Thins c.config.evictionPolicy (c.locked s) t) :
      Acts c none none (c.put i t)
  | reads {k : K} {s : Shard K} {t : Locked K V} (shard : c.shards[c.home k]? = some s)
      (step : Locked.Step c.config.evictionPolicy (fun k' => c.home k' = c.home k) (c.locked s) t)
      (stored : k ∈ (c.locked s).order)
      (order : t.order = Locked.promoted c.config.evictionPolicy k (c.locked s).order)
      (count : c.config.evictionPolicy = .LFU → ∃ n, (c.locked s).count k = some n ∧
        t.count = Function.update (c.locked s).count k (some (n + 1))) :
      Acts c (some k) none (c.put (c.home k) t)
  | puts {k : K} {s : Shard K} {t : Locked K V} (shard : c.shards[c.home k]? = some s)
      (step : Locked.Step c.config.evictionPolicy (fun k' => c.home k' = c.home k) (c.locked s) t)
      (puts : Locked.Puts c.config.evictionPolicy c.perShardCap k (c.locked s) t) :
      Acts c none (some k) (c.put (c.home k) t)

/-- A section that only takes keys out. -/
theorem Valid.removes (h : Valid c) (hs : c.shards[i]? = some s)
    (hstep : Locked.Step c.config.evictionPolicy (fun k => c.home k = i) (c.locked s) t)
    (hlater : Later c.rt.wall t.rt.wall)
    (hthins : Locked.Thins c.config.evictionPolicy (c.locked s) t) :
    Outcome c (c.put i t) ∧ Acts c none none (c.put i t) := by
  refine ⟨h.outcome_put hs hstep hlater fun _ hle => ?_, .thins hs hstep hthins⟩
  have hold : ((c.locked s).order.length : Int) = s.size := (h.shard i s hs).core.length_order
  have hlen := hthins.order.length_le
  rw [← hstep.evolves.core.length_order]
  omega

theorem Valid.idles (h : Valid c) (hi : Idle c c') : Outcome c c' ∧ Acts c none none c' :=
  ⟨(hi.outcome h).1, .idle hi⟩

variable [Inhabited V]

/-- A section of `get` as an operation on the list of its shard. -/
theorem Valid.get_reads (h : Valid c) (key : K) (lockedWrite : Bool) :
    ∃ s r, c.shards[c.home key]? = some s ∧
      c.perform (.get key lockedWrite) = c.put (c.home key) r.2 ∧
      (c.hits key lockedWrite = true ↔ ∃ a now, r.1 = .hit a now) ∧
      Locked.Step c.config.evictionPolicy (fun k => c.home k = c.home key) (c.locked s) r.2 ∧
      Locked.Reads c.config.evictionPolicy key (c.locked s) r := by
  obtain ⟨s, hs⟩ := h.home_shard key
  have hval := h.shard _ s hs
  have hreads := Locked.getSection_reads hval lockedWrite key
  have hspec := Locked.getSection_spec hval lockedWrite key
  simp only [perform, hits, onShard_eq hs]
  generalize (c.locked s).getSection c.config lockedWrite key = r at hreads hspec
  refine ⟨s, r, hs, rfl, ?_, ?_, hreads⟩
  · cases r.1 <;> simp
  · cases hspec with
    | absent _ hkeep hidx => exact ⟨hkeep.evolves, hidx⟩
    | hit _ _ hkeep hidx => exact ⟨hkeep.evolves, hidx⟩
    | expired hk _ _ hd hidx => exact ⟨hd.evolves hval.core hk, hidx⟩
    | upgrade _ _ _ hkeep hidx => exact ⟨hkeep.evolves, hidx⟩

theorem Valid.get_acts (h : Valid c) (key : K) (lockedWrite : Bool) :
    Outcome c (c.perform (.get key lockedWrite)) ∧
      Acts c (Section.read c (.get key lockedWrite)) none (c.perform (.get key lockedWrite)) := by
  constructor
  · obtain ⟨s, hs⟩ := h.home_shard key
    obtain ⟨o, t, hr, hout, -⟩ := getSection_put h hs lockedWrite
    rw [perform, onShard_eq hs, hr]
    exact hout
  · obtain ⟨s, r, hs, heq, hhits, hstep, hreads⟩ := h.get_reads key lockedWrite
    rw [heq, Section.read]
    cases hreads with
    | miss hne hdrops =>
      rw [if_neg fun hh => by obtain ⟨a, now, hr⟩ := hhits.mp hh; exact hne a now hr]
      exact .thins hs hstep (hdrops.thins _)
    | hit hr hm ho hn =>
      rw [if_pos (hhits.mpr ⟨_, _, hr⟩)]
      exact .reads hs hstep hm ho hn

theorem keys_idle (c : InMemoryCache K V) (shard : Nat) (now : Int) :
    Idle c (c.perform (.keys shard now)) := by
  rw [perform]
  split_ifs with hlt
  · exact (keysSection_peeks now).idle (getElem?_eq_getElem hlt) []
  · exact Idle.refl c

theorem export_idle (c : InMemoryCache K V) (shard : Nat) (selectFn : K → Bool) (max : Nat)
    (out : List (Item K V)) : Idle c (c.perform (.export_ shard selectFn max out)) := by
  rw [perform]
  split_ifs with hlt
  · exact (exportSection_peeks selectFn max out).idle (getElem?_eq_getElem hlt) _
  · exact Idle.refl c

theorem Valid.set_wrote (h : Valid c) (key : K) (value : V) (now expireTime : Int) :
    Wrote key (value, expireTime) c (c.perform (.set key value now expireTime)) := by
  obtain ⟨s, hs⟩ := h.home_shard key
  have hst : Locked.Stores c.config.evictionPolicy (fun k => c.home k = c.home key)
      c.perShardCap key (value, expireTime) (c.locked s)
      ((c.locked s).setSection c.config c.perShardCap key (c.hasher key) value now expireTime) :=
    Locked.setSection_spec (h.shard _ s hs) rfl ..
  rw [perform, updateShard_eq hs]
  exact h.wrote_put hs hst (Locked.later_setSection (c.locked s) _ ..)

theorem Valid.set_acts (h : Valid c) (key : K) (value : V) (now expireTime : Int) :
    Outcome c (c.perform (.set key value now expireTime)) ∧
      Acts c none (some key) (c.perform (.set key value now expireTime)) := by
  refine ⟨(h.set_wrote key value now expireTime).outcome, ?_⟩
  obtain ⟨s, hs⟩ := h.home_shard key
  have hval := h.shard _ s hs
  have hst : Locked.Stores c.config.evictionPolicy (fun k => c.home k = c.home key)
      c.perShardCap key (value, expireTime) (c.locked s)
      ((c.locked s).setSection c.config c.perShardCap key (c.hasher key) value now expireTime) :=
    Locked.setSection_spec hval rfl ..
  rw [perform, updateShard_eq hs]
  exact .puts hs hst.step (Locked.setSection_puts hval rfl ..)

theorem Valid.import_acts (h : Valid c) (hb : Bounded c) (it : Item K V) (now : Int) :
    Outcome c (c.perform (.import_ it now)) ∧
      Acts c none (some it.Key) (c.perform (.import_ it now)) := by
  obtain ⟨s, hs⟩ := h.home_shard it.Key
  have hval := h.shard _ s hs
  have hst : Locked.Stores c.config.evictionPolicy (fun k => c.home k = c.home it.Key)
      c.perShardCap it.Key (it.Val, it.ExpireAbs) (c.locked s)
      ((c.locked s).importSection c.config c.perShardCap it.Key it.Val now it.ExpireAbs) :=
    (Locked.importSection_spec hval rfl ..).1
  refine ⟨(importOne_spec h now it).1.outcome, ?_⟩
  rw [perform, importOne, updateShard_eq hs]
  exact .puts hs hst.step (Locked.importSection_puts hval rfl
    (fun hcap => hb hcap s (mem_of_getElem? hs)) _ _ _)

/-- Every section keeps the cache valid and within capacity, and acts in one of these ways. -/
theorem perform_acts (h : Valid c) (hb : Bounded c) (e : Section K V) :
    Outcome c (c.perform e) ∧ Acts c (e.read c) e.written (c.perform e) := by
  cases e with
  | clock => exact h.idles ⟨rfl, rfl, rfl, Later.now _⟩
  | get key lockedWrite => exact h.get_acts key lockedWrite
  | set key value now expireTime => exact h.set_acts key value now expireTime
  | import_ it now => exact h.import_acts hb it now
  | exists_ key now =>
    obtain ⟨s, hs⟩ := h.home_shard key
    obtain ⟨hstep, hdrops⟩ := Locked.existsSection_drops (h.shard _ s hs) key now
    rw [perform, onShard_eq hs]
    exact h.removes hs hstep (Later.of_eq (Locked.wall_existsSection ..)) (hdrops.thins _)
  | delete key =>
    obtain ⟨s, hs⟩ := h.home_shard key
    obtain ⟨hstep, hdrops⟩ := Locked.deleteSection_drops (h.shard _ s hs) key
    rw [perform, onShard_eq hs]
    exact h.removes hs hstep (Later.of_eq (Locked.wall_deleteSection ..)) (hdrops.thins _)
  | cleanup shard now =>
    rw [perform]
    split_ifs with hlt
    · have hs : c.shards[shard]? = some c.shards[shard] := getElem?_eq_getElem hlt
      have hval := h.shard _ _ hs
      rw [updateShard_eq hs]
      exact h.removes hs (Locked.cleanup_spec hval now c.config.statsEnabled).1
        (Later.of_eq (Locked.wall_cleanup ..)) (Locked.cleanup_thins hval now _)
    · exact h.idles (Idle.refl c)
  | clear shard =>
    rw [perform]
    split_ifs with hlt
    · have hs : c.shards[shard]? = some c.shards[shard] := getElem?_eq_getElem hlt
      have hval := h.shard _ _ hs
      obtain ⟨-, -, -, -, hwall, -⟩ :=
        Locked.clearSection_pool c.config.evictionPolicy (c.locked c.shards[shard])
      rw [updateShard_eq hs]
      exact h.removes hs (Locked.clearSection_spec hval).1 (Later.of_eq hwall)
        (Locked.clearSection_thins hval)
    · exact h.idles (Idle.refl c)
  | keys shard now => exact h.idles (keys_idle c shard now)
  | export_ shard selectFn max out => exact h.idles (export_idle c shard selectFn max out)

omit [DecidableEq K] [Inhabited V] in
theorem onShard_sameShape {α : Type*} (c : InMemoryCache K V) (i : Nat) (d : α)
    (f : Locked K V → α × Locked K V) : SameShape c (c.onShard i d f).2 := by
  cases hs : c.shards[i]? with
  | none =>
    simp only [onShard, hs]
    exact ⟨rfl, rfl, rfl, rfl, rfl, rfl⟩
  | some s =>
    rw [onShard_eq hs]
    exact put_sameShape

omit [Inhabited V] in
/-- Under the write lock there is nothing to upgrade. -/
theorem onShard_write_ne_upgrade (c : InMemoryCache K V) (i : Nat) (cfg : Config) (key : K) :
    (c.onShard i .miss (Locked.getSection cfg true key)).1 ≠ .upgrade := by
  unfold onShard
  cases c.shards[i]? with
  | none => exact nofun
  | some s =>
    simp only [Locked.getSection]
    cases s.data.lookup key with
    | none => exact nofun
    | some item =>
      simp only [if_true]
      split <;> exact nofun

/-- However the sections of concurrent calls interleave, the shards keep their representation and
the cache its capacity, and no link is followed that is not there. -/
theorem sections_sound {config : Config} {numCPU : Int} {hasher : K → UInt64} {wall : WallClock}
    {choice : Nat → Nat} (hnew : New config numCPU hasher wall choice = some c)
    (es : List (Section K V)) :
    let c' := Schedule.exec perform c es
    (∀ (i : Nat) (s : Shard K), c'.shards[i]? = some s → ShardSound c' i s) ∧
      c'.rt.mem.faulted = false ∧
      (0 < config.maxSize.toInt → c'.Size ≤ config.maxSize.toInt) := by
  have hout : Outcome c (Schedule.exec perform c es) := by
    refine Schedule.exec_invariant (fun c' e h => ?_) (Outcome.refl (New_spec hnew).1)
    exact h.trans (perform_acts h.valid (h.bounded (New_bounded hnew)) e).1
  obtain ⟨s, hs⟩ := hout.valid.exists_shard 0
  exact ⟨fun i s hs => hout.valid.shardSound hs, (hout.valid.shard _ s hs).core.unfaulted,
    fun hmax => (hout.size_le hnew hmax).2⟩

/-- Two writers and a reader with a full shard. -/
theorem sections_sound_small :
    (Schedule.exec perform (small .LRU fun n => n) [.clock, .clock, .set 1 10 1 0, .set 2 20 0 5,
      .get 1 true, .set 3 30 2 0, .cleanup 0 9]).Size ≤ 2 :=
  (sections_sound (New_small ..) _).2.2 (by decide)

end InMemoryCache

end Kioshun
