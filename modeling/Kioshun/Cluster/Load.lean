import Kioshun.Cluster.Client

/-!
# Read-through loads

`GetOrLoad` on the first owner of a key calls the loader under a lease, stores the
value and replicates it like a write; on any other node it asks the first owner,
whose handler is `rpcLeaseLoad`. What the lease table, the rate limiter, the loader
and the peers answer are arguments, and a call that waits for a lease finds the
node as it left it.
-/

namespace Kioshun

universe u v w
variable {K : Type u} {V : Type v}

def ErrNoLoader : String := "no loader configured on primary"

inductive Lease where
  | acquired
  | waited (err : Option String)

structure Called (K : Type u) (V : Type v) (α : Type w) where
  result : α
  sent : List (NodeID × Msg)
  hints : List (NodeID × Hint)
  node : Node K V

namespace Node

def answer {α : Type w} (n : Node K V) (result : α) : Called K V α := ⟨result, [], [], n⟩

section Loads
variable [DecidableEq K] [Inhabited V]

def readLoaded (n : Node K V) (resp : MsgLeaseLoadResp) : Except String V :=
  if resp.Err ≠ "" then .error resp.Err
  else if resp.Found then
    match n.maybeDecompress resp.Val resp.Cp with
    | .error err => .error err
    | .ok vb => n.codec.Decode vb
  else .error "loader returned no value"

/-- `GetOrLoad` on the first owner, with the lease. -/
def loadOwned (n : Node K V) (net : Network) (replies : NodeID → Except String Ack)
    (loader : Except String (V × Int)) (owners : List NodeMeta) (key : K) :
    Called K V (Except String V) :=
  match loader with
  | .error err => n.answer (.error err)
  | .ok (v, ttl) =>
    let n := { n with localCache := (n.localCache.Set key v ttl).2 }
    match n.codec.Encode v with
    | .error err => n.answer (.error err)
    | .ok bv =>
      if tooLarge n.cfg.Sec.MaxValueSize bv then n.answer (.error errValueTooLarge)
      else
        let ver := n.next
        let exp := ver.2.absExpiry ttl
        let bk := n.kc.EncodeKey key
        let w := exp.2.replicateSet net replies bk bv exp.1 ver.1 owners
        ⟨.ok v, w.sent, w.hints, w.node.recordOwn bk ver.1⟩

def GetOrLoad (n : Node K V) (net : Network) (replies : NodeID → Except String Ack)
    (lease : Lease) (reply : NodeID → MsgLeaseLoad → Except String MsgLeaseLoadResp)
    (loader : Except String (V × Int)) (key : K) : Called K V (Except String V) :=
  let got := n.localCache.Get key
  let n := { n with localCache := got.2 }
  match got.1, n.owners key with
  | some v, _ => n.answer (.ok v)
  | none, [] => n.answer (.error ErrNoOwner)
  | none, primary :: others =>
    if primary.ID = n.cfg.ID then
      match lease with
      | .acquired => n.loadOwned net replies loader (primary :: others) key
      | .waited (some err) => n.answer (.error err)
      | .waited none =>
        let again := n.localCache.Get key
        let n := { n with localCache := again.2 }
        match again.1 with
        | some v => n.answer (.ok v)
        | none => n.answer (.error "lease resolved but key absent")
    else if net.connected primary.ID then
      let issued := n.nextReqID
      match reply primary.ID ⟨issued.1, n.kc.EncodeKey key⟩ with
      | .error err => issued.2.answer (.error err)
      | .ok resp => issued.2.answer (issued.2.readLoaded resp)
    else n.answer (.error ErrBadPeer)

/-- `b, _ := n.codec.Encode(v)`. -/
def encodeAnyway (n : Node K V) (v : V) : Bytes :=
  match n.codec.Encode v with
  | .error _ => []
  | .ok b => b

def loadedResp (n : Node K V) (ID : UInt64) (v : V) : MsgLeaseLoadResp :=
  let b2 := n.maybeCompress (n.encodeAnyway v)
  ⟨ID, true, b2.1, 0, b2.2, ""⟩

def leaseOwned (n : Node K V) (net : Network) (replies : NodeID → Except String Ack)
    (loader : K → Except String (V × Int)) (ll : MsgLeaseLoad) (k : K) :
    Called K V MsgLeaseLoadResp :=
  match loader k with
  | .error err => n.answer ⟨ll.ID, false, [], 0, false, err⟩
  | .ok (v, ttl) =>
    let n := { n with localCache := (n.localCache.Set k v ttl).2 }
    let owners := n.ownersFor k
    let exp := owners.2.absExpiry ttl
    let ver := exp.2.next
    let w := ver.2.replicateSet net replies ll.Key (n.encodeAnyway v) exp.1 ver.1 (owners.1.getD [])
    let n := w.node.recordOwn ll.Key ver.1
    ⟨n.loadedResp ll.ID v, w.sent, w.hints, n⟩

/-- `rpcLeaseLoad`; `allowed` is what the rate limiter says, if there is one. -/
def rpcLeaseLoad (n : Node K V) (net : Network) (replies : NodeID → Except String Ack)
    (allowed : Bool) (lease : Lease) (Loader : Option (K → Except String (V × Int)))
    (ll : MsgLeaseLoad) : Called K V MsgLeaseLoadResp :=
  if allowed then
    match n.kc.DecodeKey ll.Key with
    | .error err => n.answer ⟨ll.ID, false, [], 0, false, err⟩
    | .ok k =>
      let got := n.localCache.Get k
      let n := { n with localCache := got.2 }
      match got.1, Loader, lease with
      | some v, _, _ => n.answer (n.loadedResp ll.ID v)
      | none, none, _ => n.answer ⟨ll.ID, false, [], 0, false, ErrNoLoader⟩
      | none, some loader, .acquired => n.leaseOwned net replies loader ll k
      | none, some _, .waited (some err) => n.answer ⟨ll.ID, false, [], 0, false, err⟩
      | none, some _, .waited none =>
        let again := n.localCache.Get k
        let n := { n with localCache := again.2 }
        match again.1 with
        | some v => n.answer (n.loadedResp ll.ID v)
        | none => n.answer ⟨ll.ID, false, [], 0, false, ""⟩
  else n.answer ⟨ll.ID, false, [], 0, false, "rate limited"⟩

end Loads

end Node

end Kioshun
