import Kioshun.Cache.Frame
import Kioshun.Cache.Clock

/-!
# What the operations of the cache do

Each operation keeps the cache valid, the shape of the cache and the clock, and
the bound on the size of the shards. Its effect on the map from keys to values
and expiries is that of the sections it runs.
-/

namespace Kioshun

open CellStore WallClock Function List

universe u v
variable {K : Type u} {V : Type v} [DecidableEq K]

namespace InMemoryCache

def Bounded (c : InMemoryCache K V) : Prop :=
  0 < c.perShardCap → ∀ s ∈ c.shards, s.size ≤ c.perShardCap

structure Outcome (c c' : InMemoryCache K V) : Prop where
  valid : Valid c'
  shape : SameShape c c'
  later : Later c.rt.wall c'.rt.wall
  bounded : Bounded c → Bounded c'

variable {c c' c'' : InMemoryCache K V} {i : Nat} {s : Shard K} {t : Locked K V} {k : K}

namespace Outcome

theorem refl (h : Valid c) : Outcome c c :=
  ⟨h, SameShape.refl c, Later.refl _, id⟩

theorem trans (h : Outcome c c') (h' : Outcome c' c'') : Outcome c c'' :=
  ⟨h'.valid, h.shape.trans h'.shape, h.later.trans h'.later, fun hb => h'.bounded (h.bounded hb)⟩

end Outcome

theorem Valid.outcome_put (h : Valid c) (hi : c.shards[i]? = some s)
    (hstep : Locked.Step c.config.evictionPolicy (fun k => c.home k = i) (c.locked s) t)
    (hlater : Later c.rt.wall t.rt.wall)
    (hsize : 0 < c.perShardCap → s.size ≤ c.perShardCap → t.sh.size ≤ c.perShardCap) :
    Outcome c (c.put i t) where
  valid := h.put hi hstep
  shape := put_sameShape
  later := hlater
  bounded := by
    intro hb hcap x hx
    have hs : s ∈ c.shards := mem_of_getElem? hi
    rcases mem_or_eq_of_mem_set hx with hx | rfl
    · exact hb hcap x hx
    · exact hsize hcap (hb hcap s hs)

theorem Valid.outcome_sheds (h : Valid c) (hi : c.shards[i]? = some s)
    (hstep : Locked.Step c.config.evictionPolicy (fun k => c.home k = i) (c.locked s) t)
    (hsheds : Locked.Sheds (c.locked s) t) (hlater : Later c.rt.wall t.rt.wall) :
    Outcome c (c.put i t) :=
  h.outcome_put hi hstep hlater fun _ hle =>
    (hsheds.size_le (h.shard i s hi).core hstep.evolves.core).trans hle

variable {rt : Runtime K V}

/-- Reading the clock or iterating changes nothing else. -/
theorem Valid.outcome_rt (h : Valid c) (hm : rt.mem = c.rt.mem) (hp : rt.pool = c.rt.pool)
    (hl : Later c.rt.wall rt.wall) :
    Outcome c { c with rt := rt } ∧ ({ c with rt := rt } : InMemoryCache K V).view = c.view := by
  have hq : ∀ s : Shard K, Locked.Quiet (c.locked s) ⟨rt, s⟩ :=
    fun s => ⟨hm, hp, rfl, rfl, rfl, rfl⟩
  refine ⟨⟨⟨?_, h.disjoint, h.inRange⟩, ⟨rfl, rfl, rfl, rfl, rfl, rfl⟩, hl, id⟩, ?_⟩
  · intro i s hi
    exact ((hq s).step rfl (h.shard i s hi)).valid
  · funext k
    obtain ⟨s, hs⟩ := h.home_shard k
    rw [view_of_shard hs, ← Locked.view_of_entry (hq s).entry]
    exact view_of_shard hs

theorem Valid.now (h : Valid c) : Outcome c c.now.2 ∧ c.now.2.view = c.view :=
  h.outcome_rt rfl rfl (Later.now _)

section New
variable {config : Config} {cap : Int} [Inhabited V]

theorem newShard_spec (config : Config) (cap : Int) (home : K → Prop) (rt : Runtime K V)
    (hpool : rt.pool = []) (hf : rt.mem.faulted = false) :
    Locked.Valid config.evictionPolicy home
        (⟨(newShard config cap rt).2, (newShard config cap rt).1⟩ : Locked K V) ∧
      (newShard config cap rt).2.pool = [] ∧
      (newShard config cap rt).2.mem = (initLRU rt.mem Runtime.zeroBody).2 ∧
      (newShard config cap rt).1.cells = [rt.mem.brk, rt.mem.brk + 1] ∧
      (newShard config cap rt).1.size = 0 := by
  refine ⟨⟨⟨⟨[], initLRU_rep _ _, List.Perm.refl _⟩, ?_, ?_, rfl, ?_, ?_, ?_, ?_, hf⟩, ?_⟩, hpool,
    rfl, rfl, rfl⟩
  · intro k a hk
    cases hk
  · intro k a hk
    cases hk
  · intro a ha
    have hcells : a ∈ [rt.mem.brk, rt.mem.brk + 1] := ha
    show a < rt.mem.brk + 2
    rcases mem_pair.mp hcells with rfl | rfl
    · exact Nat.lt_add_of_pos_right (by decide)
    · exact Nat.lt_succ_self _
  · intro a _ ha
    have : a ∈ rt.pool := ha
    rw [hpool] at this
    cases this
  · show rt.pool.Nodup
    rw [hpool]
    exact nodup_nil
  · intro a ha
    have : a ∈ rt.pool := ha
    rw [hpool] at this
    cases this
  · by_cases hp : config.evictionPolicy = .LFU
    · rw [hp]
      refine Locked.indexed_of_tracks (l := LfuList.newLFUList) (by simp [newShard, hp]) ?_
      exact LfuList.newLFUList_tracks
    · exact Locked.indexed_of_none hp (by simp [newShard, hp])

structure Built (policy : EvictionPolicy) (home : Nat → K → Prop) (shards : List (Shard K))
    (rt : Runtime K V) : Prop where
  pool : rt.pool = []
  unfaulted : rt.mem.faulted = false
  valid : ∀ (i : Nat) (s : Shard K), shards[i]? = some s →
    Locked.Valid policy (home i) (⟨rt, s⟩ : Locked K V)
  disjoint : ∀ (i j : Nat) (s t : Shard K), i ≠ j → shards[i]? = some s →
    shards[j]? = some t → ∀ a ∈ s.cells, a ∉ t.cells
  empty : ∀ s ∈ shards, s.data = ∅ ∧ s.size = 0

theorem Built.snoc {home : Nat → K → Prop} {shards : List (Shard K)}
    (h : Built config.evictionPolicy home shards rt) :
    Built config.evictionPolicy home (shards ++ [(newShard config cap rt).1])
      (newShard config cap rt).2 := by
  obtain ⟨hv, hpool, hmem, hcells, hsize⟩ :=
    newShard_spec config cap (home shards.length) rt h.pool h.unfaulted
  -- an index is either that of an old shard or the last one
  have hcase : ∀ (i : Nat) (s : Shard K),
      (shards ++ [(newShard config cap rt).1])[i]? = some s →
        shards[i]? = some s ∨ (i = shards.length ∧ s = (newShard config cap rt).1) := by
    intro i s hs
    rw [getElem?_append] at hs
    split_ifs at hs with hlt
    · exact .inl hs
    · rw [getElem?_singleton] at hs
      split_ifs at hs with h0
      exact .inr ⟨by omega, (Option.some.inj hs).symm⟩
  have hold : ∀ (i : Nat) (s : Shard K), shards[i]? = some s →
      ∀ a ∈ s.cells, a < rt.mem.brk :=
    fun i s hs a ha => (h.valid i s hs).core.bound a ha
  have hnew : ∀ a ∈ (newShard config cap rt).1.cells, rt.mem.brk ≤ a := by
    intro a ha
    rw [hcells] at ha
    rcases mem_pair.mp ha with rfl | rfl
    · exact Nat.le_refl _
    · exact Nat.le_succ _
  refine ⟨hpool, ?_, ?_, ?_, ?_⟩
  · rw [hmem]
    exact h.unfaulted
  · intro i s hs
    rcases hcase i s hs with hs | ⟨rfl, rfl⟩
    · refine ((h.valid i s hs).transfer hv.core fun a ha => ⟨?_, ?_, ?_⟩).1
      · rw [hmem]
        exact Nat.lt_add_right 2 (hold i s hs a ha)
      · rw [hpool]
        exact not_mem_nil
      · rw [hmem]
        exact initLRU_cell _ _ (hold i s hs a ha)
    · exact hv
  · intro i j s t hij hs ht a ha
    rcases hcase i s hs with hs | ⟨rfl, rfl⟩
    · rcases hcase j t ht with ht | ⟨rfl, rfl⟩
      · exact h.disjoint i j s t hij hs ht a ha
      · exact fun ha' => Nat.lt_irrefl _ (Nat.lt_of_lt_of_le (hold i s hs a ha) (hnew a ha'))
    · rcases hcase j t ht with ht | ⟨rfl, -⟩
      · exact fun ha' => Nat.lt_irrefl _ (Nat.lt_of_lt_of_le (hold j t ht a ha') (hnew a ha))
      · exact absurd rfl hij
  · intro s hs
    rcases mem_append.mp hs with hs | hs
    · exact h.empty s hs
    · rw [mem_singleton.mp hs]
      exact ⟨rfl, hsize⟩

theorem newShards_built (config : Config) (cap : Int) (n : Nat) (hpool : rt.pool = [])
    (hf : rt.mem.faulted = false) (home : Nat → K → Prop) :
    (newShards config cap n rt).1.length = n ∧
      Built config.evictionPolicy home (newShards config cap n rt).1
        (newShards config cap n rt).2 := by
  induction n with
  | zero =>
    refine ⟨rfl, hpool, hf, ?_, ?_, ?_⟩
    · intro i s hs
      cases hs
    · intro i j s t _ hs
      cases hs
    · intro s hs
      cases hs
  | succ n ih =>
    refine ⟨?_, ih.2.snoc⟩
    show (_ ++ [_]).length = n + 1
    rw [length_append, ih.1, length_singleton]

variable {hasher : K → UInt64} {c : InMemoryCache K V} {choice : Nat → Nat} {wall : WallClock}
variable {numCPU : Int}

/-- A new cache is valid, open and empty, and its number of shards is a power of two. -/
theorem New_spec (h : New config numCPU hasher wall choice = some c) :
    Valid c ∧ c.closed = false ∧ c.config = config ∧ c.hasher = hasher ∧
      c.perShardCap = config.perShardCap numCPU ∧
      (c.shards.length : Int) = config.shards numCPU ∧ (∃ e, c.shards.length = 2 ^ e) ∧
      (∀ s ∈ c.shards, s.data = ∅ ∧ s.size = 0) := by
  unfold New at h
  simp only at h
  split_ifs at h with hneg
  obtain rfl := Option.some.inj h
  obtain ⟨e, he, hshards⟩ := (config.shards_cases numCPU).resolve_left hneg
  have hcount : (config.shards numCPU).toNat = 2 ^ e := by
    rw [hshards]
    have : ((2 : Int) ^ e) = ((2 ^ e : Nat) : Int) := by push_cast; rfl
    rw [this, Int.toNat_natCast]
  obtain ⟨hlen, hb⟩ := newShards_built config (config.perShardCap numCPU)
    (config.shards numCPU).toNat (show (freshRuntime (V := V) wall choice).pool = [] from rfl) rfl
    (fun i k => (hasher k &&& UInt64.ofInt (config.shards numCPU - 1)).toNat = i)
  refine ⟨⟨hb.valid, hb.disjoint, ?_⟩, rfl, rfl, rfl, rfl, ?_, ⟨e, by rw [hlen, hcount]⟩, hb.empty⟩
  · intro hash
    show (hash &&& UInt64.ofInt (config.shards numCPU - 1)).toNat < _
    rw [hlen, hcount, hshards]
    exact toNat_and_mask_lt he hash
  · rw [hlen, hcount, hshards]
    push_cast
    rfl

/-- A new cache is within its capacity. -/
theorem New_bounded (h : New config numCPU hasher wall choice = some c) : Bounded c := by
  obtain ⟨-, -, -, -, -, -, -, hempty⟩ := New_spec h
  intro hcap s hs
  rw [(hempty s hs).2]
  exact Int.le_of_lt hcap

section
omit [DecidableEq K]

theorem later_newShard (config : Config) (cap : Int) (rt : Runtime K V) :
    Later rt.wall (newShard config cap rt).2.wall := by
  by_cases hgated : config.evictionPolicy = .AdmissionLFU ∧ 0 < cap
  · simp only [newShard, hgated]
    exact ((Later.now _).trans (Later.now _)).trans (Later.now _)
  · simp only [newShard, hgated, if_false]
    exact Later.refl _

theorem later_newShards (config : Config) (cap : Int) (n : Nat) (rt : Runtime K V) :
    Later rt.wall (newShards config cap n rt).2.wall := by
  induction n with
  | zero => exact Later.refl _
  | succ n ih => exact ih.trans (later_newShard config cap _)

theorem New_later (h : New config numCPU hasher wall choice = some c) : Later wall c.rt.wall := by
  unfold New at h
  simp only at h
  split_ifs at h with hneg
  obtain rfl := Option.some.inj h
  exact later_newShards config _ _ (freshRuntime wall choice)

end

theorem New_view (h : New config numCPU hasher wall choice = some c) (k : K) : c.view k = none := by
  obtain ⟨hv, -, -, -, -, -, -, hempty⟩ := New_spec h
  obtain ⟨s, hs⟩ := hv.home_shard k
  rw [view_of_shard hs]
  apply Locked.view_eq_none.mpr
  show s.data.lookup k = none
  rw [(hempty s (mem_of_getElem? hs)).1]
  rfl

end New

section Views

variable (h : Valid c) (hi : c.shards[i]? = some s)
  (hstep : Locked.Step c.config.evictionPolicy (fun k => c.home k = i) (c.locked s) t)
include h hi hstep

theorem Valid.view_put_eq (hv : t.view = (c.locked s).view) : (c.put i t).view = c.view := by
  funext k
  rw [h.view_put hi hstep]
  split_ifs with hk
  · subst hk
    rw [hv, view_of_shard hi]
  · rfl

theorem Valid.view_put_update {e : Option (V × Int)} (hk : c.home k = i)
    (hv : t.view = update (c.locked s).view k e) :
    (c.put i t).view = update c.view k e := by
  funext k'
  rw [h.view_put hi hstep, hv]
  by_cases hkk : k' = k
  · subst hkk
    simp [hk]
  · rw [update_of_ne hkk, update_of_ne hkk]
    split_ifs with hk'
    · subst hk'
      exact (view_of_shard hi).symm
    · rfl

end Views

/-- A section that keeps the entries. -/
theorem Valid.put_keeps (h : Valid c) (hi : c.shards[i]? = some s)
    (hkeep : Locked.Keeps (fun k => c.home k = i) (c.locked s) t)
    (hidx : t.Indexed c.config.evictionPolicy) (hlater : Later c.rt.wall t.rt.wall) :
    Outcome c (c.put i t) ∧ (c.put i t).view = c.view :=
  ⟨h.outcome_sheds hi ⟨hkeep.evolves, hidx⟩ hkeep.sheds hlater,
    h.view_put_eq hi ⟨hkeep.evolves, hidx⟩ hkeep.view⟩

/-- A section that discards the entry of a key. -/
theorem Valid.put_discards (h : Valid c) (hs : c.shards[c.home k]? = some s) {a : Addr}
    (hk : (c.locked s).sh.data.lookup k = some a) (hd : Locked.Discards k a (c.locked s) t)
    (hidx : t.Indexed c.config.evictionPolicy) (hlater : Later c.rt.wall t.rt.wall) :
    Outcome c (c.put (c.home k) t) ∧ (c.put (c.home k) t).view = update c.view k none := by
  have hcore := (h.shard _ s hs).core
  have hstep : Locked.Step c.config.evictionPolicy (fun k' => c.home k' = c.home k)
      (c.locked s) t :=
    ⟨hd.evolves hcore hk, hidx⟩
  exact ⟨h.outcome_sheds hs hstep (hd.sheds hcore hk) hlater,
    h.view_put_update hs hstep rfl (Locked.view_of_entry_none (hd.entry hcore hk))⟩

def Reads (c c' : InMemoryCache K V) (now : Int) : Prop :=
  ∃ j, c.rt.wall.ticks ≤ j ∧ j < c'.rt.wall.ticks ∧ now = c.rt.wall.reading j

omit [DecidableEq K] in
theorem Reads.widen {now : Int} (h : Reads c' c'' now) (hl : Later c.rt.wall c'.rt.wall) :
    Reads c c'' now := by
  obtain ⟨j, hlo, hhi, hj⟩ := h
  exact ⟨j, Nat.le_trans hl.ticks hlo, hhi, by rw [hj, hl.reading]⟩

theorem Delete_spec (h : Valid c) (hopen : c.closed = false) (k : K) :
    Outcome c (c.Delete k).2 ∧ (c.Delete k).2.view = update c.view k none ∧
      (c.Delete k).2.rt.wall = c.rt.wall := by
  obtain ⟨s, hs⟩ := h.home_shard k
  have hval := h.shard _ s hs
  have hwall : ((c.locked s).deleteSection c.config.evictionPolicy k).2.rt.wall = c.rt.wall :=
    Locked.wall_deleteSection ..
  rw [Delete, hopen, if_neg Bool.false_ne_true, onShard_eq hs]
  rcases Locked.deleteSection_spec hval k with ⟨hk, hr⟩ | ⟨a, hk, -, hd, hidx⟩
  · have hnone : c.view k = none := by
      rw [view_of_shard hs]
      exact Locked.view_eq_none.mpr hk
    obtain ⟨hout, hview⟩ := h.put_keeps hs (.refl hval.core) hval.indexed (Later.refl _)
    rw [hr]
    exact ⟨hout, hview.trans (update_eq_self_iff.mpr hnone.symm).symm, rfl⟩
  · obtain ⟨hout, hview⟩ := h.put_discards hs hk hd hidx (Later.of_eq hwall)
    exact ⟨hout, hview, hwall⟩

/-- `Delete` reports whether there was an entry, expired or not. -/
theorem Delete_found (h : Valid c) (hopen : c.closed = false) (k : K) :
    (c.Delete k).1 = (c.view k).isSome := by
  obtain ⟨s, hs⟩ := h.home_shard k
  rw [Delete, hopen, if_neg Bool.false_ne_true, onShard_eq hs, view_of_shard hs]
  rcases Locked.deleteSection_spec (h.shard _ s hs) k with ⟨hk, hr⟩ | ⟨a, hk, hfound, -⟩
  · rw [hr, Locked.view_eq_none.mpr hk]
    rfl
  · rw [Locked.view_of_lookup hk]
    exact hfound

/-- The ways a lookup can end. A hit that was not decided by the first reading was decided by
the second, after the first had found the entry expired. -/
inductive Looked (k : K) (c : InMemoryCache K V) :
    Option (Addr × Int) × InMemoryCache K V → Prop where
  | hit {c' : InMemoryCache K V} {a : Addr} {now : Int}
      (entry : c.view k = some ((c'.body a).value, (c'.body a).expireTime))
      (live : Locked.live now ((c'.body a).value, (c'.body a).expireTime) = true)
      (reads : Reads c c' now)
      (first : now = c.now.1 ∨
        Locked.live c.now.1 ((c'.body a).value, (c'.body a).expireTime) = false)
      (view : c'.view = c.view) : Looked k c (some (a, now), c')
  | absent {c' : InMemoryCache K V} (entry : c.view k = none) (view : c'.view = c.view) :
      Looked k c (none, c')
  | expired {c' : InMemoryCache K V} {e : V × Int} (entry : c.view k = some e)
      (stale : Locked.live c.now.1 e = false) (reads : Reads c c' c.now.1)
      (view : c'.view = update c.view k none) : Looked k c (none, c')

/-- How one critical section of `get` acts on the cache. -/
theorem getSection_put (h : Valid c) (hs : c.shards[c.home k]? = some s) (lockedWrite : Bool) :
    ∃ o t, (c.locked s).getSection c.config lockedWrite k = (o, t) ∧
      Outcome c (c.put (c.home k) t) ∧
      match o with
      | .miss => Looked k c (none, c.put (c.home k) t)
      | .hit a now => Looked k c (some (a, now), c.put (c.home k) t)
      | .upgrade => lockedWrite = false ∧ (c.put (c.home k) t).view = c.view ∧
          Reads c (c.put (c.home k) t) c.now.1 ∧
          ∃ e, c.view k = some e ∧ Locked.live c.now.1 e = false := by
  have hval := h.shard _ s hs
  have hwall := Locked.wall_getSection (c.locked s) c.config lockedWrite k
  have hread : ∀ {t : Locked K V} {a : Addr}, (c.locked s).sh.data.lookup k = some a →
      t.rt.wall = (if (c.locked s).sh.data.lookup k = none then (c.locked s).rt.wall
        else (c.locked s).rt.wall.now.2) →
      Reads c (c.put (c.home k) t) (c.locked s).rt.now.1 ∧ Later c.rt.wall t.rt.wall := by
    intro t a hk hw
    rw [if_neg (by rw [hk]; exact Option.some_ne_none a)] at hw
    refine ⟨⟨c.rt.wall.ticks, Nat.le_refl _, ?_, rfl⟩, ?_⟩
    · show c.rt.wall.ticks < t.rt.wall.ticks
      rw [hw]
      exact Nat.lt_succ_self _
    · rw [hw]
      exact Later.now _
  cases hr : (c.locked s).getSection c.config lockedWrite k with
  | mk o t =>
    have hspec := Locked.getSection_spec hval lockedWrite k
    rw [hr] at hspec hwall
    refine ⟨o, t, rfl, ?_⟩
    cases hspec with
    | absent hk hkeep hidx =>
      rw [if_pos hk] at hwall
      obtain ⟨hout, hview⟩ := h.put_keeps hs hkeep hidx (Later.of_eq hwall)
      exact ⟨hout, .absent ((view_of_shard hs).trans (Locked.view_eq_none.mpr hk)) hview⟩
    | hit hk hlive hkeep hidx =>
      obtain ⟨hreads, hlater⟩ := hread hk hwall
      obtain ⟨hout, hview⟩ := h.put_keeps hs hkeep hidx hlater
      refine ⟨hout, .hit ?_ ?_ hreads (.inl rfl) hview⟩
      · rw [view_of_shard hs, ← hkeep.view]
        exact Locked.view_of_lookup (hkeep.lookup hk)
      · show Locked.live _ ((t.body _).value, (t.body _).expireTime) = true
        rw [hkeep.sheds.value, hkeep.sheds.expireTime, Locked.live_body, hlive]
        rfl
    | expired hk hstale _ hd hidx =>
      obtain ⟨hreads, hlater⟩ := hread hk hwall
      obtain ⟨hout, hview⟩ := h.put_discards hs hk hd hidx hlater
      have hentry := (view_of_shard hs).trans (Locked.view_of_lookup hk)
      refine ⟨hout, .expired hentry ?_ hreads hview⟩
      rw [Locked.live_body]
      exact congrArg Bool.not hstale
    | upgrade hk hstale hread' hkeep hidx =>
      obtain ⟨hreads, hlater⟩ := hread hk hwall
      obtain ⟨hout, hview⟩ := h.put_keeps hs hkeep hidx hlater
      have hentry := (view_of_shard hs).trans (Locked.view_of_lookup hk)
      refine ⟨hout, hread', hview, hreads, _, hentry, ?_⟩
      rw [Locked.live_body]
      exact congrArg Bool.not hstale

/-- A lookup under the write lock after the first reading has found the entry expired. -/
theorem Looked.retry {r : Option (Addr × Int) × InMemoryCache K V} (h : Looked k c' r)
    (hv : c'.view = c.view) (hout : Outcome c' r.2) (hl : Later c.rt.wall c'.rt.wall)
    (hreads : Reads c c' c.now.1) {e : V × Int} (he : c.view k = some e)
    (hstale : Locked.live c.now.1 e = false) : Looked k c r := by
  cases h with
  | hit entry live reads first view =>
    rw [hv, he] at entry
    obtain rfl := Option.some.inj entry
    exact .hit he live (reads.widen hl) (.inr hstale) (view.trans hv)
  | absent entry view =>
    rw [hv, he] at entry
    cases entry
  | expired entry stale reads view =>
    obtain ⟨j, hlo, hhi, hj⟩ := hreads
    exact .expired he hstale ⟨j, hlo, Nat.lt_of_lt_of_le hhi hout.later.ticks, hj⟩
      (by rw [view, hv])

/-- `get` finds an unexpired entry, or removes an expired one, or finds nothing. -/
theorem get_spec (h : Valid c) (hopen : c.closed = false) (k : K) :
    Outcome c (c.get k).2 ∧ Looked k c (c.get k) := by
  obtain ⟨s, hs⟩ := h.home_shard k
  obtain ⟨o, t, hr, hout, hcase⟩ := getSection_put h hs
    (decide (c.config.evictionPolicy = .LRU ∨ c.config.evictionPolicy = .LFU))
  simp only [get, hopen, Bool.false_eq_true, if_false, onShard_eq hs, hr]
  cases o with
  | miss => exact ⟨hout, hcase⟩
  | hit a now => exact ⟨hout, hcase⟩
  | upgrade =>
    obtain ⟨-, hv, hreads, e, he, hstale⟩ := hcase
    have hs' : (c.put (c.home k) t).shards[(c.put (c.home k) t).home k]? = some t.sh :=
      getElem?_put_self hs
    obtain ⟨o', t', hr', hout', hcase'⟩ := getSection_put hout.valid hs' true
    have hsec : (c.put (c.home k) t).onShard (c.home k) Locked.GetOutcome.miss
        (Locked.getSection c.config true k) = (o', (c.put (c.home k) t).put (c.home k) t') := by
      have hr'' : Locked.getSection c.config true k ((c.put (c.home k) t).locked t.sh) =
        (o', t') := hr'
      rw [onShard_eq (i := c.home k) hs', hr'']
    simp only [hsec]
    cases o' with
    | miss => exact ⟨hout.trans hout', hcase'.retry hv hout' hout.later hreads he hstale⟩
    | hit a now => exact ⟨hout.trans hout', hcase'.retry hv hout' hout.later hreads he hstale⟩
    | upgrade => cases hcase'.1

/-- An entry that is unexpired at the first reading is returned. -/
theorem Get_of_live (h : Valid c) (hopen : c.closed = false) {e : V × Int} (he : c.view k = some e)
    (hlive : Locked.live c.now.1 e = true) : (c.Get k).1 = some e.1 := by
  obtain ⟨-, hlook⟩ := get_spec h hopen k
  simp only [Get]
  generalize c.get k = r at hlook
  cases hlook with
  | hit entry live reads first view =>
    rw [he] at entry
    obtain rfl := Option.some.inj entry
    rfl
  | absent entry view =>
    rw [he] at entry
    cases entry
  | expired entry stale reads view =>
    rw [he] at entry
    obtain rfl := Option.some.inj entry
    rw [hlive] at stale
    cases stale

theorem Get_of_absent (h : Valid c) (hopen : c.closed = false) (he : c.view k = none) :
    (c.Get k).1 = none := by
  obtain ⟨-, hlook⟩ := get_spec h hopen k
  simp only [Get]
  generalize c.get k = r at hlook
  cases hlook with
  | hit entry live reads first view =>
    rw [he] at entry
    cases entry
  | absent entry view => rfl
  | expired entry stale reads view => rfl

/-- A lookup that misses leaves no entry behind. -/
theorem view_of_miss (h : Valid c) (hopen : c.closed = false) (hmiss : (c.Get k).1 = none) :
    (c.Get k).2.view k = none := by
  obtain ⟨-, hlook⟩ := get_spec h hopen k
  simp only [Get] at hmiss ⊢
  generalize c.get k = r at hlook hmiss
  cases hlook with
  | hit entry live reads first view => cases hmiss
  | absent entry view => exact (congrFun view k).trans entry
  | expired entry stale reads view => simp only [view, update_self]

theorem Exists_spec (h : Valid c) (hopen : c.closed = false) (k : K) :
    Outcome c (c.Exists k).2 ∧ Reads c (c.Exists k).2 c.now.1 ∧
      (c.Exists k).1 = ((c.view k).any (Locked.live c.now.1)) ∧
      (c.Exists k).2.view = update c.view k ((c.view k).filter (Locked.live c.now.1)) := by
  obtain ⟨hnow, hview⟩ := h.now
  obtain ⟨s, hs⟩ := hnow.valid.home_shard k
  have hs' : c.now.2.shards[c.home k]? = some s := hs
  have hval := hnow.valid.shard _ s hs
  have hwall : ((c.now.2.locked s).existsSection c.config k c.now.1).2.rt.wall = c.now.2.rt.wall :=
    Locked.wall_existsSection ..
  have hreads : ∀ t : Locked K V, t.rt.wall = c.now.2.rt.wall →
      Reads c (c.now.2.put (c.home k) t) c.now.1 := by
    intro t ht
    refine ⟨c.rt.wall.ticks, Nat.le_refl _, ?_, rfl⟩
    show c.rt.wall.ticks < t.rt.wall.ticks
    rw [ht]
    exact Nat.lt_succ_self _
  have hentry : c.view k = (c.now.2.locked s).view k := by
    rw [← hview]
    exact view_of_shard hs
  have hkept := hnow.valid.put_keeps hs (.refl hval.core) hval.indexed (Later.refl _)
  simp only [Exists, hopen, Bool.false_eq_true, if_false, onShard_eq hs']
  rcases Locked.existsSection_spec c.config hval k c.now.1 with
    ⟨hk, hr⟩ | ⟨a, hk, ⟨hlive, hr⟩ | ⟨hstale, hfalse, hd, hidx⟩⟩
  · have hnone : c.view k = none := hentry.trans (Locked.view_eq_none.mpr hk)
    rw [hr, hnone]
    refine ⟨hnow.trans hkept.1, hreads _ rfl, rfl, hkept.2.trans ?_⟩
    rw [hview]
    exact (update_eq_self_iff.mpr (by rw [hnone]; rfl)).symm
  · have hsome := hentry.trans (Locked.view_of_lookup hk)
    rw [hr, hsome]
    refine ⟨hnow.trans hkept.1, hreads _ rfl, ?_, hkept.2.trans ?_⟩
    · rw [Option.any_some, Locked.live_body, hlive]
      rfl
    · rw [hview]
      refine (update_eq_self_iff.mpr ?_).symm
      rw [hsome, Option.filter_some, Locked.live_body, hlive]
      rfl
  · obtain ⟨hout, hgone⟩ := hnow.valid.put_discards hs hk hd hidx (Later.of_eq hwall)
    have hsome := hentry.trans (Locked.view_of_lookup hk)
    rw [hsome]
    refine ⟨hnow.trans hout, hreads _ hwall, ?_, hgone.trans ?_⟩
    · rw [hfalse, Option.any_some, Locked.live_body, hstale]
      rfl
    · rw [hview, Option.filter_some, Locked.live_body, hstale]
      rfl

end InMemoryCache

end Kioshun
