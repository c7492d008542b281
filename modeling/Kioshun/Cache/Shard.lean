import Kioshun.Cache.Admission
import Kioshun.Cache.Lru
import Kioshun.Cache.Lfu

/-!
# Shards, evictors and critical sections

A shard holds addresses of items; the items themselves live in the runtime.
`Locked` pairs the two, and is what a goroutine that holds the shard's lock can
reach. The functions of `shard.go` and `eviction.go` and the locked parts of the
operations of `cache.go` and `snapshot.go` act on it.
-/

namespace Kioshun

open CellStore

universe u v

structure Shard (K : Type u) where
  data : AList (fun _ : K => Addr)
  head : Addr
  tail : Addr
  lfuList : Option LfuList
  size : Int
  hits : Nat
  misses : Nat
  evictions : Nat
  expirations : Nat
  admission : Option AdaptiveAdmissionFilter
  lastVictimFrequency : UInt64

structure Locked (K : Type u) (V : Type v) where
  rt : Runtime K V
  sh : Shard K

def ItemBody.expired {K : Type u} {V : Type v} (b : ItemBody K V) (now : Int) : Bool :=
  decide (0 < b.expireTime ∧ b.expireTime < now)

namespace Locked
variable {K : Type u} {V : Type v} [DecidableEq K]

def body (c : Locked K V) (item : Addr) : ItemBody K V := c.rt.mem.body item

def assign (c : Locked K V) (item : Addr) (f : ItemBody K V → ItemBody K V) : Locked K V :=
  { c with rt := c.rt.assign item f }

/-- An operation on the links of the items. -/
def relink (c : Locked K V) (f : Store (ItemBody K V) → Store (ItemBody K V)) : Locked K V :=
  { c with rt := { c.rt with mem := f c.rt.mem } }

/-- A method call on `lfuList`, which panics on a nil list. -/
def onLfuList (c : Locked K V) (f : LfuList → LfuList) : Locked K V :=
  match c.sh.lfuList with
  | none => c.relink Store.fault
  | some l => { c with sh := { c.sh with lfuList := some (f l) } }

def lfuRemove (policy : EvictionPolicy) (item : Addr) (c : Locked K V) : Locked K V :=
  if policy = .LFU then c.onLfuList fun l => l.remove item else c

def lfuAdd (c : Locked K V) (item : Addr) : Locked K V :=
  (c.assign item fun b => { b with frequency := 1 }).onLfuList fun l => l.add item

def lfuIncrement (c : Locked K V) (item : Addr) : Locked K V :=
  match c.sh.lfuList with
  | none => c.relink Store.fault
  | some l =>
    let r := l.increment item
    { c with sh := { c.sh with lfuList := some r.1 } }.assign item
      fun b => { b with frequency := r.2 }

def deleteKey (c : Locked K V) (key : K) : Locked K V :=
  { c with sh := { c.sh with data := c.sh.data.erase key } }

/-- `itemPool.Put(item); size--`. -/
def recycle (c : Locked K V) (item : Addr) : Locked K V :=
  { c with rt := c.rt.poolPut item, sh := { c.sh with size := c.sh.size - 1 } }

def countEviction (c : Locked K V) (statsEnabled : Bool) : Locked K V :=
  if statsEnabled then { c with sh := { c.sh with evictions := c.sh.evictions + 1 } } else c

def countExpiration (c : Locked K V) (statsEnabled : Bool) : Locked K V :=
  if statsEnabled then { c with sh := { c.sh with expirations := c.sh.expirations + 1 } } else c

def countMiss (c : Locked K V) (statsEnabled : Bool) : Locked K V :=
  if statsEnabled then { c with sh := { c.sh with misses := c.sh.misses + 1 } } else c

def countHit (c : Locked K V) (statsEnabled : Bool) : Locked K V :=
  if statsEnabled then { c with sh := { c.sh with hits := c.sh.hits + 1 } } else c

/-- How `get`, `Exists`, `Delete` and `cleanup` take an entry out of the shard. -/
def discard (policy : EvictionPolicy) (key : K) (item : Addr) (c : Locked K V) : Locked K V :=
  let c := (c.deleteKey key).relink fun st => removeFromLRU st item
  (c.lfuRemove policy item).recycle item

/-- One round of the first loop of `shard.cleanup`: collect or age. -/
def cleanupScan (now : Int) (policy : EvictionPolicy)
    (acc : List K × Locked K V) (entry : Sigma fun _ : K => Addr) : List K × Locked K V :=
  if (acc.2.body entry.2).expired now then (acc.1 ++ [entry.1], acc.2)
  else if policy = .AdmissionLFU ∧ 1 < (acc.2.body entry.2).frequency then
    (acc.1, acc.2.assign entry.2 fun b => { b with frequency := b.frequency / 2 })
  else acc

def cleanupDrop (policy : EvictionPolicy) (statsEnabled : Bool) (c : Locked K V) (key : K) :
    Locked K V :=
  match c.sh.data.lookup key with
  | none => c
  | some item => (c.discard policy key item).countExpiration statsEnabled

def cleanup (now : Int) (policy : EvictionPolicy) (statsEnabled : Bool) (c : Locked K V) :
    Locked K V :=
  let order := c.rt.iterate c.sh.data.entries
  let scanned := order.1.foldl (cleanupScan now policy) ([], { c with rt := order.2 })
  scanned.1.foldl (cleanupDrop policy statsEnabled) scanned.2

/-- The item before the tail sentinel with its key; none if the list is empty or the key nil. -/
def oldest (c : Locked K V) : Option (K × Addr) :=
  if c.rt.mem.prev c.sh.tail = some c.sh.head then none
  else match c.rt.mem.prev c.sh.tail with
    | none => none
    | some item => (c.body item).key.map fun key => (key, item)

def evictItem (key : K) (item : Addr) (statsEnabled : Bool) (c : Locked K V) : Locked K V :=
  let c := (c.deleteKey key).relink fun st => removeFromLRU st item
  (c.recycle item).countEviction statsEnabled

def lruEvict (statsEnabled : Bool) (c : Locked K V) : Bool × Locked K V :=
  match c.oldest with
  | none => (false, c)
  | some (key, lru) => (true, c.evictItem key lru statsEnabled)

def fifoEvict (statsEnabled : Bool) (c : Locked K V) : Bool × Locked K V :=
  match c.oldest with
  | none => (false, c)
  | some (key, oldest) =>
    let c := (c.deleteKey key).relink fun st => removeFromLRU st oldest
    let c := if c.sh.lfuList.isSome then c.onLfuList fun l => l.remove oldest else c
    (true, (c.recycle oldest).countEviction statsEnabled)

/-- `lfuList.removeLFU()`; the victim is whichever item of the bucket `range` visits first. -/
def popLFU (c : Locked K V) : Option Addr × Locked K V :=
  match c.sh.lfuList with
  | none => (none, c.relink Store.fault)
  | some l =>
    let r := l.removeLFU fun i => c.rt.choice (c.rt.draws + i)
    (r.2,
      { rt := { c.rt with draws := c.rt.draws + c.sh.data.entries.length }
        sh := { c.sh with lfuList := some r.1 } })

def lfuEvict (statsEnabled : Bool) (c : Locked K V) : Bool × Locked K V :=
  let popped := c.popLFU
  match popped.1 with
  | none => (false, popped.2)
  | some lfu =>
    match (popped.2.body lfu).key with
    | none => (false, popped.2)
    | some key => (true, popped.2.evictItem key lfu statsEnabled)

def defaultAdmissionLFUSampleSize : Nat := 5

def maxAdmissionLFUSampleSize : Nat := 20

/-- The comparison in `pickVictim`: lower frequency, then older access, is worse. -/
def worse (c : Locked K V) (victim : Option Addr) (it : Addr) : Option Addr :=
  match victim with
  | none => some it
  | some v =>
    if (c.body it).frequency < (c.body v).frequency ∨
        ((c.body it).frequency = (c.body v).frequency ∧
          (c.body it).lastAccess < (c.body v).lastAccess) then some it else some v

def sampleCount (sampleSize len : Nat) : Nat :=
  let n := if sampleSize = 0 then defaultAdmissionLFUSampleSize
    else if maxAdmissionLFUSampleSize < sampleSize then maxAdmissionLFUSampleSize else sampleSize
  if len < n then len else n

def pickVictim (sampleSize : Nat) (c : Locked K V) : Option Addr × Locked K V :=
  if c.sh.data.entries.length = 0 then (none, c)
  else
    let order := c.rt.iterate c.sh.data.entries
    let sample := order.1.take (sampleCount sampleSize c.sh.data.entries.length)
    (sample.foldl (fun victim entry => c.worse victim entry.2) none, { c with rt := order.2 })

def removeVictim (victim : Addr) (statsEnabled : Bool) (c : Locked K V) : Locked K V :=
  let c := match (c.body victim).key with
    | none => c
    | some key => c.deleteKey key
  ((c.relink fun st => removeFromLRU st victim).recycle victim).countEviction statsEnabled

def admissionEvict (statsEnabled : Bool) (c : Locked K V) : Bool × Locked K V :=
  let picked := c.pickVictim defaultAdmissionLFUSampleSize
  match picked.1 with
  | none => (false, picked.2)
  | some victim =>
    let c := if picked.2.sh.admission.isSome then
        { picked.2 with sh := { picked.2.sh with
          lastVictimFrequency := UInt64.ofInt (picked.2.body victim).frequency } }
      else picked.2
    (true, c.removeVictim victim statsEnabled)

/-- The call of `shouldAdmit` in `evictWithAdmission`. -/
def consult (admission : AdaptiveAdmissionFilter) (keyHash : UInt64) (victim : Addr)
    (c : Locked K V) : Bool × Locked K V :=
  let freq := UInt64.ofInt (c.body victim).frequency
  let decision := admission.shouldAdmit keyHash freq (c.body victim).lastAccess c.rt.wall
  (decision.1,
    { rt := { c.rt with wall := decision.2.2 }
      sh := { c.sh with lastVictimFrequency := freq, admission := some decision.2.1 } })

/-- `admission.RecordEviction()`. -/
def recordEviction (c : Locked K V) : Locked K V :=
  { c with sh := { c.sh with admission := c.sh.admission.map (·.RecordEviction) } }

/-- `evictWithAdmission`, which may refuse the candidate and keep the victim. -/
def evictWithAdmission (statsEnabled : Bool) (admission : AdaptiveAdmissionFilter)
    (keyHash : UInt64) (c : Locked K V) : Bool × Locked K V :=
  let picked := c.pickVictim defaultAdmissionLFUSampleSize
  match picked.1 with
  | none => (false, picked.2)
  | some victim =>
    let gate := picked.2.consult admission keyHash victim
    if gate.1 then (true, (gate.2.removeVictim victim statsEnabled).recordEviction)
    else (false, gate.2)

def evict (policy : EvictionPolicy) (statsEnabled : Bool) (c : Locked K V) : Bool × Locked K V :=
  match policy with
  | .LRU => c.lruEvict statsEnabled
  | .LFU => c.lfuEvict statsEnabled
  | .FIFO => c.fifoEvict statsEnabled
  | .AdmissionLFU => c.admissionEvict statsEnabled
  | .other => c.admissionEvict statsEnabled

inductive GetOutcome where
  | miss
  | hit (item : Addr) (now : Int)
  | upgrade

/-- The metadata `get` updates on a hit. -/
def touch (policy : EvictionPolicy) (item : Addr) (now : Int) (c : Locked K V) : Locked K V :=
  match policy with
  | .LRU => c.relink fun st => moveToLRUHead st c.sh.head item
  | .LFU =>
    (c.assign item fun b =>
      { b with lastAccess := now, frequency := b.frequency + 1 }).lfuIncrement item
  | .AdmissionLFU =>
    c.assign item fun b => { b with lastAccess := now, frequency := b.frequency + 1 }
  | .FIFO => c
  | .other => c

def getSection (cfg : Config) (lockedWrite : Bool) (key : K) (c : Locked K V) :
    GetOutcome × Locked K V :=
  match c.sh.data.lookup key with
  | none => (.miss, c.countMiss cfg.statsEnabled)
  | some item =>
    let now := c.rt.now
    let c := { c with rt := now.2 }
    if (c.body item).expired now.1 then
      if lockedWrite then
        (.miss, ((c.discard cfg.evictionPolicy key item).countExpiration cfg.statsEnabled).countMiss
          cfg.statsEnabled)
      else (.upgrade, c)
    else (.hit item now.1, (c.touch cfg.evictionPolicy item now.1).countHit cfg.statsEnabled)

/-- The policy metadata of an item that `Set` or `Import` has filled in. Under LFU the item is
not in the frequency index at this point. -/
def refresh (policy : EvictionPolicy) (ex : Addr) (c : Locked K V) : Locked K V :=
  match policy with
  | .LRU => c.relink fun st => moveToLRUHead st c.sh.head ex
  | .LFU => (c.assign ex fun b => { b with frequency := 1 }).lfuAdd ex
  | .AdmissionLFU => c.assign ex fun b => { b with frequency := 1 }
  | .FIFO => c
  | .other => c

def setExisting (policy : EvictionPolicy) (ex : Addr) (value : V) (now expireTime : Int)
    (c : Locked K V) : Locked K V :=
  let c := c.assign ex fun b =>
    { b with value := value, lastAccess := now, expireTime := expireTime }
  (c.lfuRemove policy ex).refresh policy ex

/-- The capacity enforcement of `Set`; false means that the candidate was refused. -/
def makeRoom (cfg : Config) (perShardCap : Int) (keyHash : UInt64) (c : Locked K V) :
    Bool × Locked K V :=
  if 0 < perShardCap ∧ perShardCap ≤ c.sh.size then
    match cfg.evictionPolicy, c.sh.admission with
    | .AdmissionLFU, some admission => c.evictWithAdmission cfg.statsEnabled admission keyHash
    | _, _ => (true, (c.evict cfg.evictionPolicy cfg.statsEnabled).2)
  else (true, c)

section Fresh
variable [Inhabited V]

def takeItem (c : Locked K V) : Addr × Locked K V :=
  (c.rt.poolGet.1, { c with rt := c.rt.poolGet.2 })

/-- `data[key] = item; addToLRUHead(item)`. -/
def link (key : K) (item : Addr) (c : Locked K V) : Locked K V :=
  { c with sh := { c.sh with data := c.sh.data.insert key item } }.relink
    fun st => addToLRUHead st c.sh.head item

def grow (c : Locked K V) : Locked K V :=
  { c with sh := { c.sh with size := c.sh.size + 1 } }

def setFresh (policy : EvictionPolicy) (key : K) (value : V) (now expireTime : Int)
    (c : Locked K V) : Locked K V :=
  let taken := c.takeItem
  let item := taken.1
  let c := taken.2.assign item fun _ => ⟨value, expireTime, now, 1, some key⟩
  let c := c.link key item
  let c := if policy = .LFU then c.lfuAdd item else c
  c.grow

def setSection (cfg : Config) (perShardCap : Int) (key : K) (keyHash : UInt64) (value : V)
    (now expireTime : Int) (c : Locked K V) : Locked K V :=
  match c.sh.data.lookup key with
  | some ex => c.setExisting cfg.evictionPolicy ex value now expireTime
  | none =>
    let room := c.makeRoom cfg perShardCap keyHash
    if room.1 then room.2.setFresh cfg.evictionPolicy key value now expireTime else room.2

/-- The eviction loop of `Import`. The first argument bounds the number of rounds. -/
def evictLoop (cfg : Config) (perShardCap : Int) : Nat → Locked K V → Locked K V
  | 0, c => c
  | rounds + 1, c =>
    if perShardCap ≤ c.sh.size then
      let r := c.evict cfg.evictionPolicy cfg.statsEnabled
      if r.1 then evictLoop cfg perShardCap rounds r.2 else r.2
    else c

/-- How `Import` finds or makes the item for a key. -/
def importItem (cfg : Config) (perShardCap : Int) (key : K) (c : Locked K V) :
    Addr × Locked K V :=
  match c.sh.data.lookup key with
  | some ex => (ex, c.lfuRemove cfg.evictionPolicy ex)
  | none =>
    let c := if 0 < perShardCap then
      c.evictLoop cfg perShardCap (c.sh.data.entries.length + 1) else c
    let taken := c.takeItem
    (taken.1, (taken.2.link key taken.1).grow)

def importSection (cfg : Config) (perShardCap : Int) (key : K) (value : V) (now expireAbs : Int)
    (c : Locked K V) : Locked K V :=
  let found := c.importItem cfg perShardCap key
  let ex := found.1
  let c := found.2.assign ex fun b =>
    { b with key := some key, value := value, lastAccess := now, expireTime := expireAbs }
  c.refresh cfg.evictionPolicy ex

/-- The critical section of `Clear`; items keep their links when they are put back. -/
def clearSection (policy : EvictionPolicy) (c : Locked K V) : Locked K V :=
  let order := c.rt.iterate c.sh.data.entries
  let rt := order.1.foldl (fun rt entry => rt.poolPut entry.2) order.2
  let fresh := initLRU rt.mem Runtime.zeroBody
  { rt := { rt with mem := fresh.2 }
    sh := { c.sh with
      data := ∅
      head := fresh.1.1
      tail := fresh.1.2
      lfuList := if policy = .LFU then some LfuList.newLFUList else c.sh.lfuList
      admission := if policy = .AdmissionLFU then c.sh.admission.map (·.Reset) else c.sh.admission
      size := 0 } }

end Fresh

def deleteSection (policy : EvictionPolicy) (key : K) (c : Locked K V) : Bool × Locked K V :=
  match c.sh.data.lookup key with
  | none => (false, c)
  | some item => (true, c.discard policy key item)

def existsSection (cfg : Config) (key : K) (now : Int) (c : Locked K V) : Bool × Locked K V :=
  match c.sh.data.lookup key with
  | none => (false, c)
  | some item =>
    if (c.body item).expired now then
      (false, (c.discard cfg.evictionPolicy key item).countExpiration cfg.statsEnabled)
    else (true, c)

end Locked

end Kioshun
