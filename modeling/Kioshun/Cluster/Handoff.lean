import Kioshun.Cache.Config
import Kioshun.Cache.Runtime
import Kioshun.Cluster.Wire
import Kioshun.Lib.Heap

/-!
# Hinted handoff

The queue of the hints for one peer, in `handoff.go`. A hint is in the ready list
or in the heap of delayed hints, and the index finds it by its key. Hints and list
elements are objects that several places point to, so they have addresses, and a
hint that has been popped is held by the goroutine that replays it.
-/

namespace Kioshun
open Function

inductive DropPolicy where
  | DropOldest
  | DropNewest
  | DropNone
  deriving DecidableEq

/-- The fields of `HandoffConfig` that the modelled functions read; a missing `Enable` enables. -/
structure HandoffConfig where
  Enable : Option Bool
  PerPeerCap : Int
  PerPeerBytes : Int
  TTL : Int
  DropPolicy : DropPolicy
  AutopauseItems : Int
  AutopauseBytes : Int

def HandoffConfig.IsEnabled (c : HandoffConfig) : Bool :=
  match c.Enable with
  | none => true
  | some b => b

structure HintItem where
  key : Bytes
  val : Bytes
  exp : Int
  ver : UInt64
  cp : Bool
  isDel : Bool
  addedAt : Int
  nextAt : Int
  tries : Int
  size : Int
  elem : Option Nat
  heapIndex : Int

def HintItem.expired (h : HintItem) (ttl now : Int) : Bool :=
  if 0 < ttl ∧ ttl ≤ wrap64 (now - h.addedAt) then true
  else if 0 < h.exp ∧ h.exp ≤ now ∧ h.isDel = false then true
  else false

/-- `hintQueue`, with the hints and the list elements it points to; an index out of range
panics. -/
structure HintQueue where
  item : Nat → HintItem
  value : Nat → Nat
  nextItem : Nat
  nextElem : Nat
  index : Bytes → Option Nat
  ready : List Nat
  delayed : List Nat
  bytes : Int
  items : Int
  maxItems : Int
  maxBytes : Int
  ttl : Int
  drop : DropPolicy
  faulted : Bool

namespace HintQueue

def assign (q : HintQueue) (p : Nat) (f : HintItem → HintItem) : HintQueue :=
  { q with item := update q.item p (f (q.item p)) }

def fault (q : HintQueue) : HintQueue := { q with faulted := true }

/-- `hi.elem = q.ready.PushBack(hi)`. -/
def pushBack (q : HintQueue) (p : Nat) : HintQueue :=
  { q with
    ready := q.ready ++ [q.nextElem]
    value := update q.value q.nextElem p
    nextElem := q.nextElem + 1
    item := update q.item p { q.item p with elem := some q.nextElem } }

/-- `elem.Value = hi`. -/
def setValue (q : HintQueue) (e p : Nat) : HintQueue :=
  { q with value := update q.value e p }

def setDelayed (q : HintQueue) (i : Int) (p : Nat) : HintQueue :=
  if 0 ≤ i ∧ i < q.delayed.length then { q with delayed := q.delayed.set i.toNat p } else q.fault

def delayedLess (q : HintQueue) (i j : Nat) : Bool :=
  match q.delayed[i]?, q.delayed[j]? with
  | some a, some b => decide ((q.item a).nextAt < (q.item b).nextAt)
  | _, _ => false

def delayedSwap (q : HintQueue) (i j : Nat) : HintQueue :=
  match q.delayed[i]?, q.delayed[j]? with
  | some a, some b =>
    (({ q with delayed := (q.delayed.set i b).set j a }.assign b
      fun h => { h with heapIndex := i }).assign a fun h => { h with heapIndex := j })
  | _, _ => q.fault

def delayHeap : Heap.Interface HintQueue := ⟨fun q => q.delayed.length, delayedLess, delayedSwap⟩

/-- `delayHeap.Pop`. -/
def popLast (q : HintQueue) : Option Nat × HintQueue :=
  match q.delayed.getLast? with
  | none => (none, q.fault)
  | some p => (some p, { q with delayed := q.delayed.dropLast }.assign p
      fun h => { h with heapIndex := -1 })

def heapPush (q : HintQueue) (p : Nat) : HintQueue :=
  Heap.siftLast delayHeap ({ q with delayed := q.delayed ++ [p] }.assign p
    fun h => { h with heapIndex := q.delayed.length })

def heapPop (q : HintQueue) : Option Nat × HintQueue := (Heap.sinkFirst delayHeap q).popLast

def heapRemove (q : HintQueue) (i : Nat) : HintQueue := (Heap.sinkAt delayHeap q i).popLast.2

def newHintQueue (cfg : HandoffConfig) : HintQueue where
  item := fun _ => ⟨[], [], 0, 0, false, false, 0, 0, 0, 0, none, -1⟩
  value := fun _ => 0
  nextItem := 0
  nextElem := 0
  index := fun _ => none
  ready := []
  delayed := []
  bytes := 0
  items := 0
  maxItems := cfg.PerPeerCap
  maxBytes := cfg.PerPeerBytes
  ttl := cfg.TTL
  drop := cfg.DropPolicy
  faulted := false

def unindex (q : HintQueue) (key : Bytes) : HintQueue :=
  { q with index := update q.index key none }

/-- `q.index[key] = hi`. -/
def setIndex (q : HintQueue) (key : Bytes) (p : Nat) : HintQueue :=
  { q with index := update q.index key (some p) }

/-- The hint leaves the container it is in. -/
def takeOut (q : HintQueue) (p : Nat) : HintQueue :=
  match (q.item p).elem with
  | some e => { q with ready := q.ready.erase e }.assign p fun h => { h with elem := none }
  | none => if 0 ≤ (q.item p).heapIndex then q.heapRemove (q.item p).heapIndex.toNat else q

/-- `q.items += n; q.bytes += b`. -/
def count (q : HintQueue) (n b : Int) : HintQueue :=
  { q with items := q.items + n, bytes := q.bytes + b }

def removeItem (q : HintQueue) (p : Nat) : HintQueue :=
  ((q.unindex (q.item p).key).takeOut p).count (-1) (-(q.item p).size)

/-- `moveDueLocked`; every round takes a hint out of the heap. -/
def moveDue (now : Int) : Nat → HintQueue → HintQueue
  | 0, q => q
  | fuel + 1, q =>
    match q.delayed.head? with
    | none => q
    | some front =>
      if now < (q.item front).nextAt then q
      else
        let r := q.heapPop
        match r.1 with
        | none => r.2
        | some hi => moveDue now fuel (r.2.pushBack hi)

def moveDueLocked (q : HintQueue) (now : Int) : HintQueue := moveDue now q.delayed.length q

def overCap (q : HintQueue) (items bytes : Int) : Bool :=
  decide (0 < q.maxItems ∧ q.maxItems < items) || decide (0 < q.maxBytes ∧ q.maxBytes < bytes)

def tryDropReady (q : HintQueue) (avoid : Nat) : Option (Int × HintQueue) :=
  match q.ready.head? with
  | none => none
  | some fe => if q.value fe = avoid then none
    else some ((q.item (q.value fe)).size, q.removeItem (q.value fe))

def tryDropDelayed (q : HintQueue) (avoid : Nat) : Option (Int × HintQueue) :=
  match q.delayed.head? with
  | none => none
  | some front => if front = avoid then none
    else
      let r := q.heapPop
      match r.1 with
      | none => none
      | some hi => some ((q.item hi).size,
          (r.2.unindex (q.item hi).key).count (-1) (-(q.item hi).size))

/-- `dropOldest`; what it drops is one hint or none. -/
def dropOldest (q : HintQueue) (avoid : Nat) : Option (Int × HintQueue) :=
  match q.tryDropReady avoid with
  | some r => some r
  | none => q.tryDropDelayed avoid

/-- The loops of `enqueue` that drop hints while the queue is over its caps: `none` if a hint has
to be dropped and there is no other, with the number and the bytes of the dropped hints. -/
def dropWhileOver (avoid : Nat) : Nat → Int → Int → HintQueue → Bool × Int × Int × HintQueue
  | 0, totalB, totalI, q => (true, totalB, totalI, q)
  | fuel + 1, totalB, totalI, q =>
    if q.overCap q.items q.bytes then
      match q.dropOldest avoid with
      | none => (false, totalB, totalI, q)
      | some (db, q) => dropWhileOver avoid fuel (totalB + db) (totalI + 1) q
    else (true, totalB, totalI, q)

/-- The number of rounds after which the loops have ended: each of them drops a queued hint. -/
def rounds (q : HintQueue) : Nat := q.ready.length + q.delayed.length + 1

/-- A hint that replaces a delayed one is tried when that one would have been. -/
def inherit (q : HintQueue) (it old : Nat) : HintQueue :=
  if 0 ≤ (q.item old).heapIndex then
    q.assign it fun h => { h with nextAt := (q.item old).nextAt, tries := (q.item old).tries }
  else q

/-- The new hint takes the place of the old one. -/
def replace (q : HintQueue) (it old : Nat) : HintQueue :=
  match (q.item old).elem with
  | some e => (q.setValue e it).assign it fun h => { h with elem := some e, heapIndex := -1 }
  | none =>
    let idx := (q.item old).heapIndex
    (q.assign it fun h => { h with heapIndex := idx, elem := none }).setDelayed idx it

/-- What `enqueue` returns, and the queue after it. -/
abbrev Enqueued := (Bool × Int × Int) × HintQueue

/-- The old hint takes its place back under `DropOldest`. -/
def restore (q : HintQueue) (it old : Nat) (placedReady : Bool) : HintQueue :=
  if placedReady then
    match (q.item it).elem with
    | some e =>
      ((q.setValue e old).assign old fun h => { h with elem := some e }).assign it
        fun h => { h with elem := none }
    | none => q.fault
  else
    let idx := (q.item it).heapIndex
    ((q.setDelayed idx old).assign old fun h => { h with heapIndex := idx }).assign it
      fun h => { h with heapIndex := -1 }

/-- The old hint takes its place back under the other policies. -/
def undo (q : HintQueue) (old : Nat) : HintQueue :=
  match (q.item old).elem with
  | some e => q.setValue e old
  | none => if 0 ≤ (q.item old).heapIndex then q.setDelayed (q.item old).heapIndex old else q

def coalesce (q : HintQueue) (it old : Nat) : Enqueued :=
  if (q.item it).ver ≤ (q.item old).ver then ((false, 0, 0), q)
  else
    let keyStr := (q.item it).key
    let q := q.inherit it old
    let placedReady := (q.item old).elem.isSome
    let delta := (q.item it).size - (q.item old).size
    let q := ((q.replace it old).count 0 delta).setIndex keyStr it
    if q.overCap q.items q.bytes then
      match q.drop with
      | .DropOldest =>
        match dropWhileOver it q.rounds 0 0 q with
        | (true, totalB, totalI, q) => ((true, delta - totalB, -totalI), q)
        | (false, totalB, totalI, q) =>
          ((false, totalB, -totalI),
            ((q.restore it old placedReady).setIndex keyStr old).count 0 (-delta))
      | _ => ((false, 0, 0), ((q.undo old).setIndex keyStr old).count 0 (-delta))
    else ((true, delta, 0), q)

/-- The container of a new hint depends on its `nextAt`. -/
def place (q : HintQueue) (it : Nat) (now : Int) : HintQueue :=
  if now < (q.item it).nextAt then (q.heapPush it).assign it fun h => { h with elem := none }
  else (q.pushBack it).assign it fun h => { h with heapIndex := -1 }

def insert (q : HintQueue) (it : Nat) (now : Int) : Enqueued :=
  let keyStr := (q.item it).key
  let q := q.place it now
  let q := (q.setIndex keyStr it).count 1 (q.item it).size
  if q.overCap q.items q.bytes then
    match q.drop with
    | .DropOldest =>
      match dropWhileOver it q.rounds 0 0 q with
      | (true, totalB, totalI, q) => ((true, (q.item it).size - totalB, 1 - totalI), q)
      | (false, totalB, totalI, q) =>
        ((false, -totalB, -totalI), (q.removeItem it).unindex keyStr)
    | _ => ((false, 0, 0), (q.removeItem it).unindex keyStr)
  else ((true, (q.item it).size, 1), q)

def enqueue (q : HintQueue) (it : Nat) (now : Int) : Enqueued :=
  if (q.item it).expired q.ttl now then ((false, 0, 0), q)
  else
    match q.index (q.item it).key with
    | some old => q.coalesce it old
    | none => q.insert it now

/-- The loop of `popReady`; every round takes a hint out of the ready list. -/
def popLoop (now : Int) : Nat → HintQueue → Option Nat × HintQueue
  | 0, q => (none, q)
  | fuel + 1, q =>
    match q.ready.head? with
    | none => (none, q)
    | some fe =>
      let it := q.value fe
      if (q.item it).expired q.ttl now then popLoop now fuel (q.removeItem it)
      else (some it, q.removeItem it)

def popReady (q : HintQueue) (now : Int) : Option Nat × HintQueue :=
  let q := q.moveDueLocked now
  popLoop now q.ready.length q

end HintQueue

/-- `handoff` for one peer, and the clock. The counters are shared with other peers. -/
structure Handoff where
  cfg : HandoffConfig
  queue : HintQueue
  totalItems : Int
  totalBytes : Int
  paused : Bool
  wall : WallClock

namespace Handoff

def alloc (h : Handoff) (it : HintItem) : Nat × Handoff :=
  (h.queue.nextItem, { h with queue := { h.queue with
    item := update h.queue.item h.queue.nextItem it
    nextItem := h.queue.nextItem + 1 } })

/-- `q.enqueue(it)`, which reads the clock. -/
def enqueue (h : Handoff) (it : Nat) : (Bool × Int × Int) × Handoff :=
  let now := h.wall.now
  let r := h.queue.enqueue it now.1
  (r.1, { h with queue := r.2, wall := now.2 })

/-- What `enqueueSet` and `enqueueDel` do with the new hint; `addedAt` is the time at which it is
made. -/
def enqueueHint (h : Handoff) (it : Int → HintItem) : Handoff :=
  if h.cfg.IsEnabled && !h.paused then
    let added := h.wall.now
    let new := { h with wall := added.2 }.alloc (it added.1)
    let r : (Bool × Int × Int) × Handoff := new.2.enqueue new.1
    let h : Handoff := { r.2 with
      totalItems := r.2.totalItems + r.1.2.2
      totalBytes := r.2.totalBytes + r.1.2.1 }
    if r.1.1 = true ∧ ((0 < h.cfg.AutopauseItems ∧ h.cfg.AutopauseItems ≤ h.totalItems) ∨
        (0 < h.cfg.AutopauseBytes ∧ h.cfg.AutopauseBytes ≤ h.totalBytes)) then
      { h with paused := true }
    else h
  else h

def enqueueSet (h : Handoff) (key val : Bytes) (exp : Int) (ver : UInt64) (cp : Bool) : Handoff :=
  h.enqueueHint fun addedAt =>
    ⟨key, val, exp, ver, cp, false, addedAt, 0, 0, key.length + val.length + 24, none, -1⟩

def enqueueDel (h : Handoff) (key : Bytes) (ver : UInt64) : Handoff :=
  h.enqueueHint fun addedAt =>
    ⟨key, [], 0, ver, false, true, addedAt, 0, 0, key.length + 16, none, -1⟩

/-- `backoff` of `loop`, in nanoseconds. -/
def backoff (attemptIndex : Int) : Int :=
  let shift := min 6 (if attemptIndex < 0 then 0 else attemptIndex)
  let d := 200000000 * 2 ^ shift.toNat
  if 5000000000 < d then 5000000000 else d

def scheduleRetry (h : Handoff) (hi : Nat) : Handoff :=
  let tries := (h.queue.item hi).tries + 1
  let now := h.wall.now
  let h := { h with
    wall := now.2
    queue := h.queue.assign hi fun it =>
      { it with tries := tries, nextAt := wrap64 (now.1 + backoff (tries - 1)) } }
  (h.enqueue hi).2

/-- The part of `replayOne` that takes a hint, with the time at which the replay began. -/
def popReady (h : Handoff) : Option Nat × Handoff :=
  let now := h.wall.now
  let r := h.queue.popReady now.1
  (r.1, { h with queue := r.2, wall := now.2 })

end Handoff

end Kioshun
