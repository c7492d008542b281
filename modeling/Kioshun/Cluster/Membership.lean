import Kioshun.Cache.Config
import Kioshun.Cache.Runtime
import Kioshun.Cluster.Ring
import Kioshun.Lib.Iteration

/-!
# Membership

The view that a node has of the cluster, in `membership.go`, and what `Start`, a
Hello, a gossip message and a tick of `weightLoop` do with it. The membership and
the ring point to the same metadata objects, so that a weight that gossip brings
is seen by the ring at once. Connections are left out.
-/

namespace Kioshun
open Function

/-- `nodeMeta` with the address. -/
structure PeerMeta extends NodeMeta where
  Addr : String

structure PeerInfo where
  ID : NodeID
  Addr : String

structure NodeLoad where
  Size : Int
  Evictions : Int
  FreeMemBytes : UInt64
  CPUu16 : UInt16

structure HotKey where
  K : Bytes
  C : UInt64

structure MsgHello where
  FromID : NodeID
  FromAddr : String
  Token : String

structure MsgGossip where
  FromID : NodeID
  FromAddr : String
  Seen : NodeID → Option Int
  Peers : List PeerInfo
  Load : NodeLoad
  TopK : List HotKey
  Epoch : UInt64

/-- `membership`, with the metadata objects that it and the ring point to. -/
structure Membership where
  metas : Nat → PeerMeta
  nextMeta : Nat
  peers : List (NodeID × Nat)
  seen : NodeID → Option Int
  epoch : UInt64

namespace Membership

/-- `newMeta`; the salt is the hash of the ID. -/
def newMeta (Sum64 : Bytes → UInt64) (id : NodeID) (addr : String) : PeerMeta :=
  ⟨⟨id, 500000, Sum64 id⟩, addr⟩

def alloc (m : Membership) (nm : PeerMeta) : Nat × Membership :=
  (m.nextMeta, { m with
    metas := update m.metas m.nextMeta nm
    nextMeta := m.nextMeta + 1 })

def newMembership : Membership := ⟨fun _ => ⟨⟨[], 0, 0⟩, ""⟩, 0, [], fun _ => none, 0⟩

section Methods
variable (Sum64 : Bytes → UInt64)

/-- `m.peers[id] = newMeta(id, addr)` for an ID that is not there. -/
def add (m : Membership) (id : NodeID) (addr : String) : Membership :=
  let new := m.alloc (newMeta Sum64 id addr)
  { new.2 with peers := m.peers ++ [(id, new.1)] }

def see (m : Membership) (id : NodeID) (ts : Int) : Membership :=
  { m with seen := update m.seen id (some ts) }

def ensure (m : Membership) (id : NodeID) (addr : String) (now : Int) : Membership :=
  match m.peers.lookup id with
  | none => (m.add Sum64 id addr).see id now
  | some _ => m.see id now

/-- A peer of `integrate`: it is added, or its address is replaced. -/
def learn (m : Membership) (id : NodeID) (addr : String) : Membership :=
  match m.peers.lookup id with
  | none => m.add Sum64 id addr
  | some p => { m with metas := update m.metas p { m.metas p with Addr := addr } }

/-- The freshest timestamp per node; the keys of a map are distinct, so that the order in which
they are visited does not matter. -/
def mergeSeen (old new : NodeID → Option Int) (id : NodeID) : Option Int :=
  match new id, old id with
  | none, ts => ts
  | some ts, none => some ts
  | some ts, some old => if old < ts then some ts else some old

def integrate (m : Membership) (id : NodeID) (addr : String) (peers : List PeerInfo)
    (seen : NodeID → Option Int) (epoch : UInt64) (now : Int) : Membership :=
  let m := if m.epoch < epoch then { m with epoch := epoch } else m
  let m := (m.learn Sum64 id addr).see id now
  let m := peers.foldl (fun m p => m.learn Sum64 p.ID p.Addr) m
  { m with seen := mergeSeen m.seen seen }

/-- `alive`; the map is visited in the order that `pick` decides. -/
def alive (m : Membership) (now suspicionAfter : Int) (pick : Nat → Nat) : List Nat :=
  let threshold := wrap64 (now - suspicionAfter)
  ((Iteration.shuffle pick m.peers).filter fun t =>
    decide (threshold ≤ (m.seen t.1).getD 0)).map Prod.snd

def expired (m : Membership) (threshold : Int) (id : NodeID) : Bool :=
  match m.seen id with
  | none => false
  | some ts => decide (ts < threshold)

def pruneTombstones (m : Membership) (now tombstoneAfter : Int) : Membership :=
  let threshold := wrap64 (now - tombstoneAfter)
  { m with
    peers := m.peers.filter fun t => !m.expired threshold t.1
    seen := fun id =>
      if (m.peers.lookup id).isSome && m.expired threshold id then none else m.seen id }

def bumpEpoch (m : Membership) : Membership := { m with epoch := m.epoch + 1 }

def setWeight (m : Membership) (id : NodeID) (weight : UInt64) : Membership :=
  match m.peers.lookup id with
  | none => m
  | some p => { m with metas := update m.metas p { m.metas p with weight := weight } }

end Methods

end Membership

/-- The fields of the cluster's `Config` that membership depends on. -/
structure MemberConfig where
  ID : NodeID
  PublicURL : String
  ReplicationFactor : Nat
  SuspicionAfter : Int
  TombstoneAfter : Int
  MirrorTTL : Int
  AuthToken : String

/-- The part of `Node` that membership works on. The ring has pointers; the library function and
the weight of a load are parameters. -/
structure Member where
  cfg : MemberConfig
  Sum64 : Bytes → UInt64
  computeWeight : NodeLoad → UInt64
  mem : Membership
  nodes : List Nat
  hotSet : Bytes → Option Int
  lastRingSig : UInt64
  lastEpoch : UInt64
  backfillKick : Bool
  wall : WallClock

namespace Member

def NewNode (cfg : MemberConfig) (Sum64 : Bytes → UInt64) (computeWeight : NodeLoad → UInt64)
    (wall : WallClock) : Member :=
  ⟨cfg, Sum64, computeWeight, Membership.newMembership, [], fun _ => none, 0, 0, false, wall⟩

def ring (n : Member) : Ring :=
  ⟨n.nodes.map fun p => (n.mem.metas p).toNodeMeta, n.cfg.ReplicationFactor⟩

def ensure (n : Member) (id : NodeID) (addr : String) : Member :=
  { n with mem := n.mem.ensure n.Sum64 id addr n.wall.now.1, wall := n.wall.now.2 }

def prime (n : Member) : Member :=
  let new := n.mem.alloc (Membership.newMeta n.Sum64 n.cfg.ID n.cfg.PublicURL)
  { n with mem := new.2, nodes := [new.1] }

def Start (n : Member) : Member := (n.ensure n.cfg.ID n.cfg.PublicURL).prime

/-- `ensureSeed`, if the peer at the address answers with its ID. -/
def ensureSeed (n : Member) (peerID : NodeID) (addr : String) : Member := n.ensure peerID addr

/-- A Hello with the right token, or if none is set. -/
def authOK (cfg : MemberConfig) (h : MsgHello) : Bool :=
  !(decide (cfg.AuthToken ≠ "") && decide (h.Token ≠ cfg.AuthToken))

/-- What a connection that begins with a Hello does to the membership. -/
def handleHello (n : Member) (h : MsgHello) : Member :=
  if authOK n.cfg h then n.ensure h.FromID h.FromAddr else n

def mirror (n : Member) (now : Int) (TopK : List HotKey) : Member :=
  if 0 < n.cfg.MirrorTTL then
    let exp := wrap64 (now + n.cfg.MirrorTTL)
    { n with hotSet := TopK.foldl (fun hot hk => update hot hk.K (some exp)) n.hotSet }
  else n

def ingestGossip (n : Member) (g : MsgGossip) : Member :=
  let now := n.wall.now
  let prevEpoch := n.mem.epoch
  let n := { n with wall := now.2 }.ensure g.FromID g.FromAddr
  let mem := n.mem.integrate n.Sum64 g.FromID g.FromAddr g.Peers g.Seen g.Epoch now.1
  let curEpoch := mem.epoch
  let n := { n with mem := mem.setWeight g.FromID (n.computeWeight g.Load) }
  let n := n.mirror now.1 g.TopK
  if prevEpoch < curEpoch ∧ n.lastEpoch < curEpoch then
    { n with lastEpoch := curEpoch, backfillKick := true }
  else n

def cleanupHot (n : Member) (now : Int) : Member :=
  { n with hotSet := fun k =>
      match n.hotSet k with
      | none => none
      | some exp => if exp ≤ now then none else some exp }

def aliveSig (n : Member) (alive : List Nat) : UInt64 :=
  ((alive.map fun p => (n.mem.metas p).ID).insertionSort fun a b => a ≤ b).foldl
    (fun acc s => n.Sum64 (s ++ [124]) ^^^ ((acc <<< 1) ||| (acc >>> 63))) 0

/-- The end of a tick: another set of alive nodes is a new epoch. -/
def noteRing (n : Member) (sig : UInt64) : Member :=
  if sig ≠ n.lastRingSig then
    { n with lastRingSig := sig, mem := n.mem.bumpEpoch, backfillKick := true }
  else n

def weightTick (n : Member) (pick : Nat → Nat) : Member :=
  let now := n.wall.now
  let alive := n.mem.alive now.1 n.cfg.SuspicionAfter pick
  let n := { n with wall := now.2, nodes := alive }.cleanupHot now.1
  let n := { n with mem := n.mem.pruneTombstones now.1 n.cfg.TombstoneAfter }
  n.noteRing (n.aliveSig alive)

inductive Event where
  | hello (h : MsgHello)
  | seed (peerID : NodeID) (addr : String)
  | gossip (g : MsgGossip)
  | tick (pick : Nat → Nat)

def step (n : Member) : Event → Member
  | .hello h => n.handleHello h
  | .seed peerID addr => n.ensureSeed peerID addr
  | .gossip g => n.ingestGossip g
  | .tick pick => n.weightTick pick

def run (n : Member) (events : List Event) : Member := events.foldl step n

/-- A node is reachable before `Start` puts it into its own membership. -/
def started (cfg : MemberConfig) (Sum64 : Bytes → UInt64) (computeWeight : NodeLoad → UInt64)
    (wall : WallClock) (early : List Event) : Member :=
  ((NewNode cfg Sum64 computeWeight wall).run early).Start

end Member

end Kioshun
