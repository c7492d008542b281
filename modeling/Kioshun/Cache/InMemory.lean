import Kioshun.Cache.Shard

/-!
# The sharded cache

`InMemoryCache` with the operations of `cache.go` and `snapshot.go`. An operation
picks a shard by the hash of the key and runs critical sections on it; readings
of the clock happen where the source takes them. The background cleaner is not
part of the state: a run may call `cleanup` at any point.
-/

namespace Kioshun

open CellStore

universe u v

structure InMemoryCache (K : Type u) (V : Type v) where
  shards : List (Shard K)
  shardMask : UInt64
  config : Config
  perShardCap : Int
  closed : Bool
  hasher : K → UInt64
  rt : Runtime K V

inductive CacheError where
  | ErrCacheClosed
  deriving DecidableEq, Repr

/-- `Item`, the exported form of an entry. -/
structure Item (K : Type u) (V : Type v) where
  Key : K
  Val : V
  ExpireAbs : Int
  Version : UInt64

def newShard {K : Type u} {V : Type v} [Inhabited V] (config : Config) (perShardCap : Int)
    (rt : Runtime K V) : Shard K × Runtime K V :=
  let fresh := initLRU rt.mem Runtime.zeroBody
  let nc := max (UInt64.ofInt (wrap64 (perShardCap * 10))) 1024
  let resetInterval := if config.admissionResetInterval = 0 then 60000000000
    else config.admissionResetInterval.toInt
  let filter := AdaptiveAdmissionFilter.newAdaptiveAdmissionFilter nc resetInterval
    config.admissionScanRateThreshold config.admissionScanMissThreshold
    config.admissionScanRecencyThreshold.toInt config.admissionRecencyTieBreak.toInt rt.wall
  let gated := config.evictionPolicy = .AdmissionLFU ∧ 0 < perShardCap
  ({ data := ∅
     head := fresh.1.1
     tail := fresh.1.2
     lfuList := if config.evictionPolicy = .LFU then some LfuList.newLFUList else none
     size := 0
     hits := 0
     misses := 0
     evictions := 0
     expirations := 0
     admission := if gated then some filter.1 else none
     lastVictimFrequency := 0 },
   { rt with mem := fresh.2, wall := if gated then filter.2 else rt.wall })

def newShards {K : Type u} {V : Type v} [Inhabited V] (config : Config) (perShardCap : Int) :
    Nat → Runtime K V → List (Shard K) × Runtime K V
  | 0, rt => ([], rt)
  | n + 1, rt =>
    let built := newShards config perShardCap n rt
    let last := newShard config perShardCap built.2
    (built.1 ++ [last.1], last.2)

namespace InMemoryCache
variable {K : Type u} {V : Type v} [DecidableEq K]

section New
variable [Inhabited V]

/-- A runtime in which nothing has been allocated. -/
def freshRuntime (wall : WallClock) (choice : Nat → Nat) : Runtime K V where
  mem := ⟨fun _ => ⟨Runtime.zeroBody, none, none⟩, 0, false⟩
  pool := []
  wall := wall
  choice := choice
  draws := 0

/-- `New`. Allocating a negative number of shards panics. -/
def New (config : Config) (numCPU : Int) (hasher : K → UInt64) (wall : WallClock)
    (choice : Nat → Nat) : Option (InMemoryCache K V) :=
  let shardCount := config.shards numCPU
  if shardCount < 0 then none
  else
    let perShardCap := config.perShardCap numCPU
    let built := newShards config perShardCap shardCount.toNat (freshRuntime wall choice)
    some
      { shards := built.1
        shardMask := UInt64.ofInt (shardCount - 1)
        config := config
        perShardCap := perShardCap
        closed := false
        hasher := hasher
        rt := built.2 }

end New

/-- `hash & shardMask`. -/
def shardIndex (c : InMemoryCache K V) (hash : UInt64) : Nat := (hash &&& c.shardMask).toNat

def home (c : InMemoryCache K V) (key : K) : Nat := c.shardIndex (c.hasher key)

/-- One critical section on a shard. An index out of range panics. -/
def onShard {α : Type*} (c : InMemoryCache K V) (i : Nat) (panicked : α)
    (section_ : Locked K V → α × Locked K V) : α × InMemoryCache K V :=
  match c.shards[i]? with
  | none => (panicked, { c with rt := { c.rt with mem := c.rt.mem.fault } })
  | some s =>
    let r := section_ ⟨c.rt, s⟩
    (r.1, { c with shards := c.shards.set i r.2.sh, rt := r.2.rt })

def updateShard (c : InMemoryCache K V) (i : Nat) (section_ : Locked K V → Locked K V) :
    InMemoryCache K V :=
  (c.onShard i () fun s => ((), section_ s)).2

/-- `time.Now().UnixNano()` outside the locks. -/
def now (c : InMemoryCache K V) : Int × InMemoryCache K V :=
  (c.rt.now.1, { c with rt := c.rt.now.2 })

def get (c : InMemoryCache K V) (key : K) : Option (Addr × Int) × InMemoryCache K V :=
  if c.closed then (none, c)
  else
    let nw := decide (c.config.evictionPolicy = .LRU ∨ c.config.evictionPolicy = .LFU)
    let r := c.onShard (c.home key) .miss (Locked.getSection c.config nw key)
    match r.1 with
    | .miss => (none, r.2)
    | .hit item now => (some (item, now), r.2)
    | .upgrade =>
      let r := r.2.onShard (c.home key) .miss (Locked.getSection c.config true key)
      match r.1 with
      | .hit item now => (some (item, now), r.2)
      | .miss => (none, r.2)
      | .upgrade => (none, r.2)

def body (c : InMemoryCache K V) (item : Addr) : ItemBody K V := c.rt.mem.body item

def Get (c : InMemoryCache K V) (key : K) : Option V × InMemoryCache K V :=
  let r := c.get key
  (r.1.map fun hit => (r.2.body hit.1).value, r.2)

def remaining (expireTime now : Int) : Int :=
  if expireTime = 0 then -1 else wrap64 (expireTime - now)

def GetWithTTL (c : InMemoryCache K V) (key : K) : Option (V × Int) × InMemoryCache K V :=
  let r := c.get key
  (r.1.map fun hit => ((r.2.body hit.1).value, remaining (r.2.body hit.1).expireTime hit.2), r.2)

def Exists (c : InMemoryCache K V) (key : K) : Bool × InMemoryCache K V :=
  if c.closed then (false, c)
  else
    let now := c.now
    now.2.onShard (c.home key) false (Locked.existsSection c.config key now.1)

def keysSection (now : Int) (s : Locked K V) : List K × Locked K V :=
  let order := s.rt.iterate s.sh.data.entries
  ((order.1.filter fun e => !(s.body e.2).expired now).map Sigma.fst, { s with rt := order.2 })

def Keys (c : InMemoryCache K V) : List K × InMemoryCache K V :=
  if c.closed then ([], c)
  else
    let now := c.now
    (List.range c.shards.length).foldl
      (fun acc i =>
        let r := acc.2.onShard i [] (keysSection now.1)
        (acc.1 ++ r.1, r.2)) ([], now.2)

def Size (c : InMemoryCache K V) : Int := (c.shards.map Shard.size).sum

/-- One round of the inner loop of `Export`. The flag is set by `break outer`. -/
def exportEntry (selectFn : K → Bool) (max : Nat) (now : Int) (s : Locked K V)
    (acc : List (Item K V) × Bool) (e : Sigma fun _ : K => Addr) : List (Item K V) × Bool :=
  if acc.2 then acc
  else if 0 < max ∧ max ≤ acc.1.length then (acc.1, true)
  else if (s.body e.2).expired now then acc
  else if selectFn e.1 then
    (acc.1 ++ [⟨e.1, (s.body e.2).value, (s.body e.2).expireTime,
      UInt64.ofInt (s.body e.2).frequency⟩], false)
  else acc

def exportSection (selectFn : K → Bool) (max : Nat) (out : List (Item K V)) (s : Locked K V) :
    (List (Item K V) × Bool) × Locked K V :=
  let now := s.rt.now
  let order := now.2.iterate s.sh.data.entries
  (order.1.foldl (exportEntry selectFn max now.1 s) (out, false), { s with rt := order.2 })

def Export (c : InMemoryCache K V) (selectFn : K → Bool) (max : Nat) :
    List (Item K V) × InMemoryCache K V :=
  let r := (List.range c.shards.length).foldl
    (fun (acc : (List (Item K V) × Bool) × InMemoryCache K V) i =>
      if acc.1.2 then acc
      else acc.2.onShard i acc.1 (exportSection selectFn max acc.1.1)) (([], false), c)
  (r.1.1, r.2)

section Write
variable [Inhabited V]

/-- The expiry that `Set` stamps on an entry. -/
def stamp (config : Config) (now ttl : Int) : Int :=
  let ttl := if ttl = 0 then config.defaultTTL.toInt else ttl
  if 0 < ttl then wrap64 (now + ttl) else 0

def Set (c : InMemoryCache K V) (key : K) (value : V) (ttl : Int) :
    Except CacheError Unit × InMemoryCache K V :=
  if c.closed then (.error .ErrCacheClosed, c)
  else
    let now := c.now
    (.ok (), now.2.updateShard (c.home key)
      (Locked.setSection c.config c.perShardCap key (c.hasher key) value now.1
        (stamp c.config now.1 ttl)))

def Delete (c : InMemoryCache K V) (key : K) : Bool × InMemoryCache K V :=
  if c.closed then (false, c)
  else c.onShard (c.home key) false (Locked.deleteSection c.config.evictionPolicy key)

def Clear (c : InMemoryCache K V) : InMemoryCache K V :=
  if c.closed then c
  else (List.range c.shards.length).foldl
    (fun acc i => acc.updateShard i (Locked.clearSection c.config.evictionPolicy)) c

def cleanup (c : InMemoryCache K V) : InMemoryCache K V :=
  if c.closed then c
  else
    let now := c.now
    (List.range c.shards.length).foldl
      (fun acc i => acc.updateShard i
        (Locked.cleanup now.1 c.config.evictionPolicy c.config.statsEnabled)) now.2

def importOne (now : Int) (c : InMemoryCache K V) (it : Item K V) : InMemoryCache K V :=
  c.updateShard (c.home it.Key)
    (Locked.importSection c.config c.perShardCap it.Key it.Val now it.ExpireAbs)

def Import (c : InMemoryCache K V) (items : List (Item K V)) : InMemoryCache K V :=
  items.foldl (importOne c.now.1) c.now.2

end Write

end InMemoryCache

end Kioshun
