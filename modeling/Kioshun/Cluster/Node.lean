import Kioshun.Cache.InMemory
import Kioshun.Cluster.Hlc
import Kioshun.Cluster.Ring

/-!
# A node and its handlers

The state of `Node` that reads and writes of keys depend on, and the handlers of
replicated writes in `node.go`. The node and its cache read the same wall clock.
Connections to peers and the answers of other nodes are arguments of the
functions that need them.
-/

namespace Kioshun

universe u v

/-- The limits of `Security` that apply to keys and values. -/
structure Security where
  MaxKeySize : Int
  MaxValueSize : Int
  CompressionThreshold : Int

/-- The fields of the cluster's `Config` that the modelled functions read. -/
structure ClusterConfig where
  ID : NodeID
  WriteConcern : Int
  RebalanceLimit : Int
  Sec : Security
  LWWEnabled : Bool

structure Node (K : Type u) (V : Type v) where
  cfg : ClusterConfig
  kc : KeyCodec K
  codec : Codec V
  ext : Externals
  localCache : InMemoryCache K V
  ring : Ring
  hotSet : Bytes → Option Int
  version : Bytes → UInt64
  clock : Hlc
  reqID : UInt64

namespace Node
variable {K : Type u} {V : Type v}

def now (n : Node K V) : Int × Node K V :=
  (n.localCache.now.1, { n with localCache := n.localCache.now.2 })

def unixMilli (nanos : Int) : Int := nanos / 1000000

def next (n : Node K V) : UInt64 × Node K V :=
  let now := n.now
  let issued := n.clock.Next (unixMilli now.1)
  (issued.1, { now.2 with clock := issued.2 })

def observe (n : Node K V) (ver : UInt64) : Node K V :=
  let now := n.now
  { now.2 with clock := n.clock.Observe ver (unixMilli now.1) }

def nextReqID (n : Node K V) : UInt64 × Node K V :=
  (n.reqID + 1, { n with reqID := n.reqID + 1 })

/-- `n.version[string(bk)] = ver`. -/
def record (n : Node K V) (bk : Bytes) (ver : UInt64) : Node K V :=
  { n with version := Function.update n.version bk ver }

def lwwSetVersion (n : Node K V) (bk : Bytes) (ver : UInt64) : Node K V := n.record bk ver

def absExpiry (n : Node K V) (ttl : Int) : Int × Node K V :=
  if ttl ≤ 0 then (0, n) else (wrap64 (n.now.1 + ttl), n.now.2)

def maybeCompress (n : Node K V) (b : Bytes) : Bytes × Bool :=
  let thr := n.cfg.Sec.CompressionThreshold
  if thr ≤ 0 ∨ (b.length : Int) < thr then (b, false)
  else if b.length ≤ (n.ext.gzip b).length then (b, false)
  else (n.ext.gzip b, true)

def maybeDecompress (n : Node K V) (b : Bytes) (cp : Bool) : Except String Bytes :=
  if cp then n.ext.gunzip b else .ok b

def hash64Of (n : Node K V) (k : K) : UInt64 :=
  match n.kc.Hash64 with
  | some hash => hash k
  | none => n.ext.Sum64 (n.kc.EncodeKey k)

/-- The first candidate that is not an owner yet. -/
def shadow (owners cands : List NodeMeta) : List NodeMeta :=
  match cands.find? fun cand => !owners.any fun ex => ex.ID == cand.ID with
  | some cand => owners ++ [cand]
  | none => owners

/-- `ownersFor`; a hot key has one owner more. It panics for `none`, which ends the process: what a
caller does with the owners does not happen then, and the model of the caller takes no owners. -/
def ownersFor (n : Node K V) (k : K) : Option (List NodeMeta) × Node K V :=
  let owners := n.ring.ownersFromKeyHash (n.hash64Of k)
  match n.hotSet (n.kc.EncodeKey k) with
  | none => (some owners, n)
  | some expAt =>
    if n.now.1 < expAt then
      let cands := n.ring.ownersTopNFromKeyHash (n.hash64Of k) (wrap64 (n.ring.rf + 3))
      (cands.map (shadow owners), n.now.2)
    else (some owners, n.now.2)

/-- The size checks; a limit that is not positive is no limit. -/
def tooLarge (limit : Int) (b : Bytes) : Bool := decide (0 < limit ∧ limit < b.length)

section Handlers
variable [DecidableEq K] [Inhabited V]

def importItems (n : Node K V) (items : List (Item K V)) : Node K V :=
  { n with localCache := n.localCache.Import items }

def rpcGet (n : Node K V) (g : MsgGet) : MsgGetResp × Node K V :=
  match n.kc.DecodeKey g.Key with
  | .error err => (⟨g.ID, false, [], 0, false, err⟩, n)
  | .ok k =>
    let got := n.localCache.Get k
    let n := { n with localCache := got.2 }
    match got.1 with
    | none => (⟨g.ID, false, [], 0, false, ErrNotFound⟩, n)
    | some v =>
      match n.codec.Encode v with
      | .error err => (⟨g.ID, false, [], 0, false, err⟩, n)
      | .ok b =>
        if tooLarge n.cfg.Sec.MaxValueSize b then
          (⟨g.ID, false, [], 0, false, errValueTooLarge⟩, n)
        else (⟨g.ID, true, (n.maybeCompress b).1, 0, (n.maybeCompress b).2, ""⟩, n)

/-- The decompressed value, if it is within the limits. -/
def inflate (n : Node K V) (val : Bytes) (cp : Bool) : Except String Bytes :=
  match n.maybeDecompress val cp with
  | .error err => .error err
  | .ok vbytes =>
    if tooLarge n.cfg.Sec.MaxValueSize vbytes then .error errValueTooLarge else .ok vbytes

/-- The checks of `rpcSet` before the version is looked up. -/
def checkSet (n : Node K V) (s : MsgSet) : Except String (K × Bytes) :=
  if tooLarge n.cfg.Sec.MaxKeySize s.Key then .error errKeyTooLarge
  else if tooLarge n.cfg.Sec.MaxValueSize s.Val then .error errValueTooLarge
  else
    match n.inflate s.Val s.Cp with
    | .error err => .error err
    | .ok vbytes =>
      match n.kc.DecodeKey s.Key with
      | .error err => .error err
      | .ok k => .ok (k, vbytes)

/-- A message with this version is dropped: a greater one is recorded for the key. -/
def stale (n : Node K V) (bk : Bytes) (ver : UInt64) : Bool :=
  n.cfg.LWWEnabled && decide (ver < n.version bk)

/-- The update of the version table after a write. -/
def commit (n : Node K V) (bk : Bytes) (ver : UInt64) : Node K V :=
  if n.cfg.LWWEnabled then (n.record bk ver).observe ver else n

def rpcSet (n : Node K V) (s : MsgSet) : MsgSetResp × Node K V :=
  match n.checkSet s with
  | .error err => (⟨s.ID, false, err⟩, n)
  | .ok (k, vbytes) =>
    if n.stale s.Key s.Ver then (⟨s.ID, true, ""⟩, n)
    else
      match n.codec.Decode vbytes with
      | .error err => (⟨s.ID, false, err⟩, n)
      | .ok val =>
        (⟨s.ID, true, ""⟩, (n.importItems [⟨k, val, s.Exp, s.Ver⟩]).commit s.Key s.Ver)

def checkItem (n : Node K V) (kv : KV) : Except String (K × V) :=
  if tooLarge n.cfg.Sec.MaxKeySize kv.K then .error errKeyTooLarge
  else if tooLarge n.cfg.Sec.MaxValueSize kv.V then .error errValueTooLarge
  else
    match n.kc.DecodeKey kv.K with
    | .error err => .error err
    | .ok k =>
      match n.inflate kv.V kv.Cp with
      | .error err => .error err
      | .ok vbytes =>
        match n.codec.Decode vbytes with
        | .error err => .error err
        | .ok val => .ok (k, val)

/-- The loop of `rpcSetBulk`; versions are recorded before anything is imported. -/
def collect (n : Node K V) (items : List (Item K V)) :
    List KV → Except String (List (Item K V)) × Node K V
  | [] => (.ok items, n)
  | kv :: kvs =>
    match n.checkItem kv with
    | .error err => (.error err, n)
    | .ok (k, val) =>
      if n.stale kv.K kv.Ver then n.collect items kvs
      else (n.commit kv.K kv.Ver).collect (items ++ [⟨k, val, kv.E, kv.Ver⟩]) kvs

def rpcSetBulk (n : Node K V) (sb : MsgSetBulk) : MsgSetBulkResp × Node K V :=
  let r := n.collect [] sb.Items
  match r.1 with
  | .error err => (⟨sb.ID, false, err⟩, r.2)
  | .ok items => (⟨sb.ID, true, ""⟩, r.2.importItems items)

def rpcDel (n : Node K V) (d : MsgDel) : MsgDelResp × Node K V :=
  if tooLarge n.cfg.Sec.MaxKeySize d.Key then (⟨d.ID, false, errKeyTooLarge⟩, n)
  else
    match n.kc.DecodeKey d.Key with
    | .error err => (⟨d.ID, false, err⟩, n)
    | .ok k =>
      if n.stale d.Key d.Ver then (⟨d.ID, true, ""⟩, n)
      else
        let n := n.commit d.Key d.Ver
        let r := n.localCache.Delete k
        (⟨d.ID, r.1, ""⟩, { n with localCache := r.2 })

end Handlers

end Node

end Kioshun
