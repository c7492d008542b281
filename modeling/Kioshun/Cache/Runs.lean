import Mathlib.Algebra.Order.BigOperators.Group.List
import Kioshun.Cache.SweepSpec

/-!
# Runs of the cache

A run is a sequence of calls on a new cache. The clock readings, the orders of
iteration and the choices of the item pool are those of the streams the cache was
made with, so a statement about all streams is one about all runs.
-/

namespace Kioshun

open CellStore WallClock

universe u v

inductive Op (K : Type u) (V : Type v) where
  | set (key : K) (value : V) (ttl : Int)
  | get (key : K)
  | getWithTTL (key : K)
  | exists_ (key : K)
  | delete (key : K)
  | clear
  | import_ (items : List (Item K V))
  | export_ (selectFn : K → Bool) (max : Nat)
  | keys
  | cleanup

variable {K : Type u} {V : Type v} [DecidableEq K] [Inhabited V]

namespace InMemoryCache

def step (c : InMemoryCache K V) : Op K V → InMemoryCache K V
  | .set key value ttl => (c.Set key value ttl).2
  | .get key => (c.Get key).2
  | .getWithTTL key => (c.GetWithTTL key).2
  | .exists_ key => (c.Exists key).2
  | .delete key => (c.Delete key).2
  | .clear => c.Clear
  | .import_ items => c.Import items
  | .export_ selectFn max => (c.Export selectFn max).2
  | .keys => c.Keys.2
  | .cleanup => c.cleanup

def run (ops : List (Op K V)) (c : InMemoryCache K V) : InMemoryCache K V := ops.foldl step c

variable {c : InMemoryCache K V}

theorem step_outcome (h : Valid c) (hopen : c.closed = false) (op : Op K V) :
    Outcome c (c.step op) := by
  cases op with
  | set key value ttl => exact (Set_spec h hopen key value ttl).1.outcome
  | get key => exact (get_spec h hopen key).1
  | getWithTTL key => exact (get_spec h hopen key).1
  | exists_ key => exact (Exists_spec h hopen key).1
  | delete key => exact (Delete_spec h hopen key).1
  | clear => exact (Clear_spec h hopen).1
  | import_ items => exact (Import_spec h items).1
  | export_ selectFn max => exact (Export_spec h selectFn max).1
  | keys => exact (Keys_spec h hopen).1
  | cleanup => exact (cleanup_spec h hopen).1

theorem run_outcome (h : Valid c) (hopen : c.closed = false) (ops : List (Op K V)) :
    Outcome c (run ops c) := by
  induction ops generalizing c with
  | nil => exact Outcome.refl h
  | cons op ops ih =>
    have hstep := step_outcome h hopen op
    exact hstep.trans (ih hstep.valid (hstep.shape.closed.trans hopen))

structure ShardSound (c : InMemoryCache K V) (i : Nat) (s : Shard K) : Prop where
  chain : ∃ xs, ListRep c.rt.mem s.head s.tail xs ∧ xs.Nodup ∧
    xs.Perm (s.data.entries.map Sigma.snd)
  key : ∀ k a, s.data.lookup k = some a → (c.body a).key = some k
  hash : ∀ k a, s.data.lookup k = some a → (c.hasher k &&& c.shardMask).toNat = i
  size : s.size = s.data.entries.length
  index : c.config.evictionPolicy = .LFU → ∃ l bs, s.lfuList = some l ∧ l.Rep bs ∧
    ∀ a, l.freqOf a =
      if a ∈ s.data.entries.map Sigma.snd then some (c.body a).frequency else none
  noIndex : c.config.evictionPolicy ≠ .LFU → s.lfuList = none
  pool : ∀ a ∈ c.rt.pool, a ≠ s.head ∧ a ≠ s.tail ∧ a ∉ s.data.entries.map Sigma.snd ∧
    ∀ l, s.lfuList = some l → l.freqOf a = none

omit [Inhabited V] in
theorem Valid.shardSound (h : Valid c) {i : Nat} {s : Shard K} (hs : c.shards[i]? = some s) :
    ShardSound c i s := by
  have hv := h.shard i s hs
  have hlen : s.items.length = s.data.entries.length := List.length_map _
  have hout : ∀ a ∈ c.rt.pool, a ∉ s.cells := fun a ha hc => hv.core.unpooled a hc ha
  refine ⟨?_, hv.core.key, hv.core.home, by rw [← hlen]; exact hv.core.size, ?_, ?_, ?_⟩
  · obtain ⟨xs, hrep, hp⟩ := hv.core.chain
    exact ⟨xs, hrep, hrep.items_nodup, hp⟩
  · intro hp
    have hi := hv.indexed
    rw [hp] at hi
    obtain ⟨l, hl, ⟨bs, hbs⟩, hf⟩ := hi.lfu
    exact ⟨l, bs, hl, hbs, fun a => congrFun hf a⟩
  · exact hv.indexed.none
  · intro a ha
    have hcells := hout a ha
    simp only [Shard.cells, List.mem_cons, not_or] at hcells
    refine ⟨hcells.1, hcells.2.1, hcells.2.2, fun l hl => ?_⟩
    by_cases hp : c.config.evictionPolicy = .LFU
    · have hi := hv.indexed
      rw [hp] at hi
      obtain ⟨l', hl', -, hf⟩ := hi.lfu
      have heq : l = l' := Option.some.inj (hl.symm.trans hl')
      rw [heq, hf]
      exact if_neg hcells.2.2
    · have hnone : s.lfuList = none := hv.indexed.none hp
      rw [hnone] at hl
      cases hl

/-- The representation invariant holds in every shard after every run, and no call panics. -/
theorem run_shardSound {config : Config} {numCPU : Int} {hasher : K → UInt64} {wall : WallClock}
    {choice : Nat → Nat} {c : InMemoryCache K V}
    (hnew : New config numCPU hasher wall choice = some c) (ops : List (Op K V)) :
    (∀ (i : Nat) (s : Shard K), (run ops c).shards[i]? = some s → ShardSound (run ops c) i s) ∧
      (run ops c).rt.mem.faulted = false := by
  obtain ⟨hv, hopen, -⟩ := New_spec hnew
  have hout := run_outcome hv hopen ops
  refine ⟨fun i s hs => hout.valid.shardSound hs, ?_⟩
  obtain ⟨s, hs⟩ := hout.valid.exists_shard 0
  exact (hout.valid.shard _ s hs).core.unfaulted

def smallConfig (policy : EvictionPolicy) : Config where
  maxSize := 2
  shardCount := 1
  defaultTTL := 0
  evictionPolicy := policy
  statsEnabled := true
  admissionResetInterval := 0
  admissionScanRateThreshold := 0
  admissionScanMissThreshold := 0
  admissionScanRecencyThreshold := 0
  admissionRecencyTieBreak := 0

@[irreducible] def small (policy : EvictionPolicy) (reading : Nat → Int) : InMemoryCache Nat Nat :=
  (New (smallConfig policy) 4 UInt64.ofNat ⟨reading, 0⟩ fun _ => 0).get rfl

theorem New_small (policy : EvictionPolicy) (reading : Nat → Int) :
    New (smallConfig policy) 4 UInt64.ofNat ⟨reading, 0⟩ (fun _ => 0) =
      some (small policy reading) := by
  unfold small
  rfl

theorem run_shardSound_small :
    let c := run [.set 1 10 0, .get 1, .set 2 20 5, .set 3 30 0, .delete 1] (small .LFU fun n => n)
    (∀ (i : Nat) (s : Shard Nat), c.shards[i]? = some s → ShardSound c i s) ∧
      c.rt.mem.faulted = false :=
  run_shardSound (New_small ..) _

omit [DecidableEq K] in
theorem New_some {config : Config} (numCPU : Int) (hasher : K → UInt64) (wall : WallClock)
    (choice : Nat → Nat) (h : 0 < config.maxSize.toInt) :
    ∃ c : InMemoryCache K V, New config numCPU hasher wall choice = some c := by
  obtain ⟨e, he, -⟩ := config.shards_le_maxSize numCPU h
  have hpos : ¬ config.shards numCPU < 0 := by
    rw [he]
    have : (0 : Int) < 2 ^ e := by positivity
    omega
  exact ⟨_, if_neg hpos⟩

/-- `Keys` lists the keys that `Exists` finds, each of them once. -/
theorem run_keys_exist {config : Config} {numCPU : Int} {hasher : K → UInt64} {wall : WallClock}
    {choice : Nat → Nat} {c : InMemoryCache K V}
    (hnew : New config numCPU hasher wall choice = some c) (ops : List (Op K V)) :
    (run ops c).Keys.1.Nodup ∧
      ∀ k, k ∈ (run ops c).Keys.1 ↔ ((run ops c).Exists k).1 = true := by
  obtain ⟨hv, hopen, -⟩ := New_spec hnew
  have hout := run_outcome hv hopen ops
  have hstill := hout.shape.closed.trans hopen
  refine ⟨Keys_nodup hout.valid, fun k => ?_⟩
  rw [(Keys_spec hout.valid hstill).2.2 k, (Exists_spec hout.valid hstill k).2.2.1,
    Option.any_eq_true]

theorem run_keys_exist_small :
    (run [.set 1 10 0, .set 2 20 1, .set 3 30 0] (small .LFU fun n => n)).Keys.1.Nodup :=
  (run_keys_exist (New_small ..) _).1

/-- Nothing that keeps the shards within their shares exceeds `MaxSize`. -/
theorem Outcome.size_le {config : Config} {numCPU : Int} {hasher : K → UInt64} {wall : WallClock}
    {choice : Nat → Nat} {c' : InMemoryCache K V} (hout : Outcome c c')
    (hnew : New config numCPU hasher wall choice = some c) (hmax : 0 < config.maxSize.toInt) :
    (∀ s ∈ c'.shards, s.size ≤ c.perShardCap) ∧ c'.Size ≤ config.maxSize.toInt := by
  obtain ⟨hv, hopen, hcfg, -, hcap, hlen, -⟩ := New_spec hnew
  obtain ⟨hone, htotal⟩ := config.perShardCap_spec numCPU hmax
  rw [← hcap] at hone htotal
  rw [← hlen] at htotal
  have hbounded : ∀ s ∈ c'.shards, s.size ≤ c.perShardCap := by
    have hend := hout.bounded (New_bounded hnew)
    rw [Bounded, hout.shape.cap] at hend
    exact hend (by omega)
  have hsum : c'.Size ≤ (c'.shards.map Shard.size).length • c.perShardCap := by
    refine List.sum_le_card_nsmul _ _ fun x hx => ?_
    obtain ⟨s, hs, rfl⟩ := List.mem_map.mp hx
    exact hbounded s hs
  rw [List.length_map, hout.shape.length, nsmul_eq_mul] at hsum
  exact ⟨hbounded, hsum.trans htotal⟩

/-- A cache with a positive `MaxSize` has a power of two of shards with room for at least one
entry each and for `MaxSize` together; no run ever exceeds this. -/
theorem run_capacity (config : Config) (numCPU : Int) (hasher : K → UInt64) (wall : WallClock)
    (choice : Nat → Nat) (hmax : 0 < config.maxSize.toInt) :
    ∃ c : InMemoryCache K V, New config numCPU hasher wall choice = some c ∧
      (∃ e, c.shards.length = 2 ^ e) ∧ 1 ≤ c.perShardCap ∧
      c.shards.length * c.perShardCap ≤ config.maxSize.toInt ∧
      (∀ hash : UInt64, (hash &&& c.shardMask).toNat < c.shards.length) ∧
      ∀ ops : List (Op K V),
        (∀ s ∈ (run ops c).shards, (s.data.entries.length : Int) ≤ c.perShardCap) ∧
          (run ops c).Size ≤ config.maxSize.toInt := by
  obtain ⟨c, hnew⟩ := New_some (K := K) (V := V) numCPU hasher wall choice hmax
  obtain ⟨hv, hopen, hcfg, -, hcap, hlen, hpow, -⟩ := New_spec hnew
  obtain ⟨hone, htotal⟩ := config.perShardCap_spec numCPU hmax
  rw [← hcap] at hone htotal
  rw [← hlen] at htotal
  refine ⟨c, hnew, hpow, hone, htotal, hv.inRange, fun ops => ?_⟩
  have hout := run_outcome hv hopen ops
  obtain ⟨hbounded, hsize⟩ := hout.size_le hnew hmax
  refine ⟨fun s hs => ?_, hsize⟩
  obtain ⟨i, hi⟩ := List.mem_iff_getElem?.mp hs
  rw [← (hout.valid.shardSound hi).size]
  exact hbounded s hs

theorem run_capacity_small :
    0 < (smallConfig .FIFO).maxSize.toInt ∧
      ∃ c : InMemoryCache Nat Nat,
        New (smallConfig .FIFO) 4 UInt64.ofNat ⟨fun n => n, 0⟩ id = some c ∧
          (∃ e, c.shards.length = 2 ^ e) ∧ 1 ≤ c.perShardCap ∧
          c.shards.length * c.perShardCap ≤ (smallConfig .FIFO).maxSize.toInt ∧
          (∀ hash : UInt64, (hash &&& c.shardMask).toNat < c.shards.length) ∧
          ∀ ops : List (Op Nat Nat),
            (∀ s ∈ (run ops c).shards, (s.data.entries.length : Int) ≤ c.perShardCap) ∧
              (run ops c).Size ≤ (smallConfig .FIFO).maxSize.toInt :=
  ⟨by decide, run_capacity (smallConfig .FIFO) 4 UInt64.ofNat ⟨fun n => n, 0⟩ id (by decide)⟩

end InMemoryCache

end Kioshun
