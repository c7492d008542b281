import Kioshun.Cluster.Convergence

/-!
# The client operations of a node

`Set` and `Delete` write locally if the node is the first owner of the key, and
replicate to the other owners. `Get` reads the local copy if the node is an owner,
and asks the other owners otherwise. The connections and the answers of the peers
are arguments; no context is cancelled.
-/

namespace Kioshun

universe u v
variable {K : Type u} {V : Type v}

def ErrNoOwner : String := "no owner for key"

def ErrTimeout : String := "timeout"

def ErrBadPeer : String := "bad peer response"

/-- The peers as a node sees them: `getPeer` returns a connection, the connection is penalized,
and there is a queue for hints. -/
structure Network where
  connected : NodeID → Bool
  penalized : NodeID → Bool
  handoff : Bool

/-- A write for a peer; `enqueueSet` and `enqueueDel` take the same values as the messages. -/
inductive Hint where
  | set (Key Val : Bytes) (Exp : Int) (Ver : UInt64) (Cp : Bool)
  | del (Key : Bytes) (Ver : UInt64)

namespace Hint

def toMsg (reqID : UInt64) : Hint → Msg
  | .set Key Val Exp Ver Cp => .set ⟨reqID, Key, Val, Exp, Ver, Cp⟩
  | .del Key Ver => .del ⟨reqID, Key, Ver⟩

end Hint

structure Written (K : Type u) (V : Type v) where
  result : Except String Unit
  sent : List (NodeID × Msg)
  hints : List (NodeID × Hint)
  node : Node K V

namespace Node

def owners (n : Node K V) (key : K) : List NodeMeta := n.ring.ownersFromKeyHash (n.hash64Of key)

def isPrimary (n : Node K V) (owners : List NodeMeta) : Bool :=
  owners.head?.any fun o => o.ID == n.cfg.ID

def sendAll (n : Node K V) (hint : Hint) : List NodeID → List (NodeID × Msg) × Node K V
  | [] => ([], n)
  | id :: ids =>
    let issued := n.nextReqID
    let rest := issued.2.sendAll hint ids
    ((id, hint.toMsg issued.1) :: rest.1, rest.2)

def wrap32 (x : Int) : Int := (x + 2 ^ 31) % 2 ^ 32 - 2 ^ 31

/-- One of the first `oks` acknowledgements finds `remaining` used up; `remaining` is an
`int32`. -/
def metConcern (want : Int) (oks : Nat) : Bool :=
  (List.range oks).any fun j => decide (wrap32 (want - (j + 1)) ≤ 0)

/-- The peer answers in time, and with OK. -/
def acked (net : Network) (replies : NodeID → Except String Ack) (id : NodeID) : Bool :=
  net.connected id && match replies id with
    | .ok resp => resp.OK
    | .error _ => false

def required (n : Node K V) : Int := if n.cfg.WriteConcern < 1 then 1 else n.cfg.WriteConcern

/-- The other owners get the write, or a hint is left for them; what the caller waits for are
the acknowledgements that the write concern lacks. -/
def replicate (n : Node K V) (net : Network) (replies : NodeID → Except String Ack) (hint : Hint)
    (owners : List NodeMeta) : Written K V :=
  let want := n.required - if n.isPrimary owners then 1 else 0
  let others := (owners.map NodeMeta.ID).filter fun id => id ≠ n.cfg.ID
  let sends := n.sendAll hint (others.filter net.connected)
  { result :=
      if want ≤ 0 ∨ metConcern want (others.filter (acked net replies)).length then .ok ()
      else .error ErrTimeout
    sent := sends.1
    hints :=
      if net.handoff then (others.filter fun id => !acked net replies id).map fun id => (id, hint)
      else []
    node := sends.2 }

def replicateSet (n : Node K V) (net : Network) (replies : NodeID → Except String Ack)
    (key val : Bytes) (exp : Int) (ver : UInt64) (owners : List NodeMeta) : Written K V :=
  let b2 := n.maybeCompress val
  n.replicate net replies (.set key b2.1 exp ver b2.2) owners

def replicateDelete (n : Node K V) (net : Network) (replies : NodeID → Except String Ack)
    (key : Bytes) (owners : List NodeMeta) (ver : UInt64) : Written K V :=
  n.replicate net replies (.del key ver) owners

section Client
variable [DecidableEq K] [Inhabited V]

def refuse (n : Node K V) (err : String) : Written K V := ⟨.error err, [], [], n⟩

/-- The version that the first owner records for its own write. -/
def recordOwn (n : Node K V) (bk : Bytes) (ver : UInt64) : Node K V :=
  if n.cfg.LWWEnabled then n.lwwSetVersion bk ver else n

/-- The part of `Set` that only the first owner executes. -/
def setLocal (n : Node K V) (owners : List NodeMeta) (key : K) (val : V) (ttl : Int) (bk : Bytes)
    (ver : UInt64) : Node K V :=
  if n.isPrimary owners then
    { n with localCache := (n.localCache.Set key val ttl).2 }.recordOwn bk ver
  else n

/-- The part of `Delete` that only the first owner executes. -/
def deleteLocal (n : Node K V) (owners : List NodeMeta) (key : K) (bk : Bytes) (ver : UInt64) :
    Node K V :=
  if n.isPrimary owners then
    { n with localCache := (n.localCache.Delete key).2 }.recordOwn bk ver
  else n

def Set (n : Node K V) (net : Network) (replies : NodeID → Except String Ack) (key : K) (val : V)
    (ttl : Int) : Written K V :=
  let bk := n.kc.EncodeKey key
  let owners := n.owners key
  if tooLarge n.cfg.Sec.MaxKeySize bk then n.refuse errKeyTooLarge
  else if owners.isEmpty then n.refuse ErrNoOwner
  else
    match n.codec.Encode val with
    | .error err => n.refuse err
    | .ok bv =>
      if tooLarge n.cfg.Sec.MaxValueSize bv then n.refuse errValueTooLarge
      else
        let exp := n.absExpiry ttl
        let ver := exp.2.next
        (ver.2.setLocal owners key val ttl bk ver.1).replicateSet net replies bk bv exp.1 ver.1
          owners

def Delete (n : Node K V) (net : Network) (replies : NodeID → Except String Ack) (key : K) :
    Written K V :=
  let bk := n.kc.EncodeKey key
  let owners := n.owners key
  if tooLarge n.cfg.Sec.MaxKeySize bk then n.refuse errKeyTooLarge
  else if owners.isEmpty then n.refuse ErrNoOwner
  else
    let ver := n.next
    (ver.2.deleteLocal owners key bk ver.1).replicateDelete net replies bk owners ver.1

/-- What a leg of `Get` puts into its channel. -/
inductive Leg where
  | failed (err : String)
  | miss
  | hit (val : Bytes) (cp : Bool)

def startLeg (n : Node K V) (net : Network) (reply : NodeID → MsgGet → Except String MsgGetResp)
    (bk : Bytes) (id : NodeID) : Leg × Node K V :=
  if net.connected id then
    let issued := n.nextReqID
    match reply id ⟨issued.1, bk⟩ with
    | .error err => (.failed err, issued.2)
    | .ok rmsg =>
      if rmsg.Err ≠ "" then
        if rmsg.Err = ErrNotFound then (.miss, issued.2) else (.failed rmsg.Err, issued.2)
      else if rmsg.Found then (.hit rmsg.Val rmsg.Cp, issued.2)
      else (.miss, issued.2)
  else (.failed ErrBadPeer, n)

def readHit (n : Node K V) (val : Bytes) (cp : Bool) : Except String (Option V) :=
  match n.maybeDecompress val cp with
  | .error err => .error err
  | .ok vb =>
    match n.codec.Decode vb with
    | .error err => .error err
    | .ok v => .ok (some v)

/-- The legs of `Get`. `startLeg` blocks its caller and the channel keeps the order, so whatever
the timers do, the answers are taken in the order of the candidates up to the first hit. -/
def awaitLegs (n : Node K V) (net : Network)
    (reply : NodeID → MsgGet → Except String MsgGetResp) (bk : Bytes) (clean : Bool)
    (lastErr : Option String) : List NodeID → Except String (Option V) × Node K V
  | [] =>
    match clean, lastErr with
    | false, some err => (.error err, n)
    | _, _ => (.ok none, n)
  | id :: ids =>
    let leg := n.startLeg net reply bk id
    match leg.1 with
    | .failed err => leg.2.awaitLegs net reply bk clean (some err) ids
    | .miss => leg.2.awaitLegs net reply bk true lastErr ids
    | .hit val cp => (leg.2.readHit val cp, leg.2)

/-- The owners that `Get` asks, those with a good connection first. -/
def candidates (n : Node K V) (net : Network) (owners : List NodeMeta) : List NodeID :=
  let others := (owners.map NodeMeta.ID).filter fun id => id ≠ n.cfg.ID
  others.filter (fun id => net.connected id && !net.penalized id) ++
    others.filter fun id => !(net.connected id && !net.penalized id)

def Get (n : Node K V) (net : Network) (reply : NodeID → MsgGet → Except String MsgGetResp)
    (key : K) : Except String (Option V) × Node K V :=
  let owners := n.owners key
  if owners.isEmpty then (.error ErrNoOwner, n)
  else
    let looked :=
      if owners.any fun own => own.ID == n.cfg.ID then
        ((n.localCache.Get key).1, { n with localCache := (n.localCache.Get key).2 })
      else (none, n)
    match looked.1 with
    | some v => (.ok (some v), looked.2)
    | none =>
      looked.2.awaitLegs net reply (n.kc.EncodeKey key) false none (n.candidates net owners)

end Client

end Node

end Kioshun
