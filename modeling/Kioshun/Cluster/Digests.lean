import Kioshun.Cluster.Pages
import Kioshun.Lib.Tally

/-!
# Digests of the key space

Donor and joiner sum up the keys that the joiner owns bucket by bucket: their number
and the exclusive or of their hashes and versions. Both loops put every key into its
bucket once, so what they get does not depend on the order of the keys. An imported
batch is put in on top, and a key that was counted already is then counted twice.
-/

namespace Kioshun

open BigEndian Tally

universe u v
variable {K : Type u} {V : Type v}

/-- `bucketSig`, and the `agg` of `rpcBackfillDigest`. -/
structure BucketSig where
  count : UInt32
  hash : UInt64
deriving DecidableEq

namespace BucketSig

instance : Zero BucketSig := ⟨⟨0, 0⟩⟩

/-- Counts are added and hashes are combined by exclusive or. -/
instance : Add BucketSig := ⟨fun s s' => ⟨s.count + s'.count, s.hash ^^^ s'.hash⟩⟩

instance : Neg BucketSig := ⟨fun s => ⟨-s.count, s.hash⟩⟩

instance : AddCommGroup BucketSig where
  add_assoc s s' s'' := congrArg₂ mk (UInt32.add_assoc ..) (UInt64.xor_assoc ..)
  zero_add s := congrArg₂ mk (UInt32.zero_add _) UInt64.zero_xor
  add_zero s := congrArg₂ mk (UInt32.add_zero _) UInt64.xor_zero
  add_comm s s' := congrArg₂ mk (UInt32.add_comm _ _) (UInt64.xor_comm _ _)
  neg_add_cancel s := congrArg₂ mk (UInt32.add_left_neg _) UInt64.xor_self
  nsmul := nsmulRec
  zsmul := zsmulRec

def one (h64 ver : UInt64) : BucketSig := ⟨1, h64 ^^^ ver⟩

end BucketSig

abbrev Digest := AList fun _ : Bytes => BucketSig

structure MsgBackfillDigestReq where
  ID : UInt64
  TargetID : NodeID
  Depth : UInt8

structure BucketDigest where
  Prefix : Bytes
  Count : UInt32
  Hash64 : UInt64

structure MsgBackfillDigestResp where
  ID : UInt64
  Depth : UInt8
  Buckets : List BucketDigest
  NotInRing : Bool

namespace Node

/-- A depth that is out of range is 2. -/
def clampDepth (depth : Int) : Nat := if depth ≤ 0 ∨ 8 < depth then 2 else depth.toNat

/-- The loop of `rpcBackfillDigest` over the keys. -/
def aggregate (n : Node K V) (depth : Nat) (targetID : NodeID) (buckets : Digest) (k : K) :
    Digest :=
  let h64 := n.hash64Of k
  if n.ring.ownsHash targetID h64 then
    let ver := if n.cfg.LWWEnabled then n.version (n.kc.EncodeKey k) else 0
    let p := (PutUint64 h64).take depth
    let a := read buckets p
    buckets.insert p ⟨a.count + 1, a.hash ^^^ (h64 ^^^ ver)⟩
  else buckets

def rpcBackfillDigest (n : Node K V) (req : MsgBackfillDigestReq) :
    MsgBackfillDigestResp × Node K V :=
  let depth := clampDepth req.Depth.toNat
  if n.ring.hasID req.TargetID then
    let keys := n.localCache.Keys
    let n := { n with localCache := keys.2 }
    let buckets := keys.1.foldl (n.aggregate depth req.TargetID) ∅
    let order := n.localCache.rt.iterate buckets.entries
    let out := order.1.map fun e => (⟨e.1, e.2.count, e.2.hash⟩ : BucketDigest)
    (⟨req.ID, UInt8.ofNat depth, out.insertionSort fun a b => a.Prefix ≤ b.Prefix, false⟩,
      { n with localCache := { n.localCache with rt := order.2 } })
  else (⟨req.ID, UInt8.ofNat depth, [], true⟩, n)

/-- The loop of `computeLocalDigests` over the keys. -/
def digestKey (n : Node K V) (depth : Nat) (m : Digest) (k : K) : Digest :=
  let h64 := n.hash64Of k
  if n.ring.ownsHash n.cfg.ID h64 then
    let p := (PutUint64 h64).take depth
    let ver := if n.cfg.LWWEnabled then n.version (n.kc.EncodeKey k) else 0
    let s := read m p
    m.insert p ⟨s.count + 1, s.hash ^^^ (h64 ^^^ ver)⟩
  else m

def computeLocalDigests (n : Node K V) (depth : Int) : Digest × Node K V :=
  let depth := clampDepth depth
  let keys := n.localCache.Keys
  let n := { n with localCache := keys.2 }
  (keys.1.foldl (n.digestKey depth) ∅, n)

/-- `hb[:depth]`, which panics if the depth is out of range. -/
def sliceTo (hb : Bytes) (depth : Int) : Option Bytes :=
  if 0 ≤ depth ∧ depth ≤ hb.length then some (hb.take depth.toNat) else none

/-- `updateLocalDigestWithBatch`; `none` if it panics. -/
def updateLocalDigestWithBatch (n : Node K V) (m : Digest) (depth : Int)
    (batch : List (Item K V)) : Option Digest :=
  batch.foldlM (fun m it => do
    let h64 := n.hash64Of it.Key
    let p ← sliceTo (PutUint64 h64) depth
    let ver := if n.cfg.LWWEnabled then it.Version else 0
    let s := read m p
    return m.insert p ⟨s.count + 1, s.hash ^^^ (h64 ^^^ ver)⟩) m

def bucketOf (n : Node K V) (depth : Nat) (k : K) : Bytes := (PutUint64 (n.hash64Of k)).take depth

def versionOf (n : Node K V) (k : K) : UInt64 :=
  if n.cfg.LWWEnabled then n.version (n.kc.EncodeKey k) else 0

def sig (n : Node K V) (k : K) : BucketSig := .one (n.hash64Of k) (n.versionOf k)

/-- What an imported item adds to its bucket. -/
def itemSig (n : Node K V) (it : Item K V) : BucketSig :=
  .one (n.hash64Of it.Key) (if n.cfg.LWWEnabled then it.Version else 0)

def counted (n : Node K V) (target : NodeID) : List K :=
  n.localCache.Keys.1.filter fun k => n.ring.ownsHash target (n.hash64Of k)

variable [DecidableEq K]

structure Holds (n : Node K V) (target : NodeID) (k : K) (ver : UInt64) : Prop where
  live : n.Live k
  owned : n.ring.ownsHash target (n.hash64Of k) = true
  version : n.version (n.kc.EncodeKey k) = ver

/-- Donor and joiner are set up alike and hold the same versions of what the joiner owns. -/
structure Converged (donor joiner : Node K V) : Prop where
  ring : donor.ring = joiner.ring
  lww : donor.cfg.LWWEnabled = joiner.cfg.LWWEnabled
  kc : donor.kc = joiner.kc
  sum64 : donor.ext.Sum64 = joiner.ext.Sum64
  holds : ∀ k ver, donor.Holds joiner.cfg.ID k ver ↔ joiner.Holds joiner.cfg.ID k ver

variable {n n' donor joiner : Node K V} {depth : Int} {target : NodeID} {k : K}
variable {req : MsgBackfillDigestReq}

section
omit [DecidableEq K]

theorem foldl_aggregate (n : Node K V) (d : Nat) (target : NodeID) (m : Digest) (keys : List K) :
    keys.foldl (n.aggregate d target) m = tally (n.bucketOf d) n.sig m
      (keys.filter fun k => n.ring.ownsHash target (n.hash64Of k)) := by
  rw [tally, List.foldl_filter]
  rfl

/-- The two loops do the same with a key. -/
theorem digestKey_eq_aggregate (n : Node K V) (d : Nat) :
    n.digestKey d = n.aggregate d n.cfg.ID := rfl

theorem read_computeLocalDigests (n : Node K V) (depth : Int) (p : Bytes) :
    read (n.computeLocalDigests depth).1 p =
      total (n.bucketOf (clampDepth depth)) n.sig (n.counted n.cfg.ID) p := by
  have hdigest : (n.computeLocalDigests depth).1 =
      tally (n.bucketOf (clampDepth depth)) n.sig ∅ (n.counted n.cfg.ID) := by
    simp only [computeLocalDigests, digestKey_eq_aggregate]
    exact foldl_aggregate n.listed ..
  rw [hdigest, read_tally, read_empty, zero_add]

/-- A bucket of the reply has the total of its keys. -/
theorem mem_rpcBackfillDigest {b : BucketDigest} (hb : b ∈ (n.rpcBackfillDigest req).1.Buckets) :
    (⟨b.Count, b.Hash64⟩ : BucketSig) =
      total (n.bucketOf (clampDepth req.Depth.toNat)) n.sig (n.counted req.TargetID) b.Prefix := by
  unfold rpcBackfillDigest at hb
  split_ifs at hb
  · simp only [List.mem_insertionSort, List.mem_map, Runtime.iterate, Iteration.mem_shuffle] at hb
    obtain ⟨e, he, rfl⟩ := hb
    have hread := read_of_entry he
    rw [foldl_aggregate, read_tally, read_empty, zero_add] at hread
    exact hread.symm
  · cases hb

end

theorem mem_counted (h : n.Ready) (target : NodeID) (k : K) :
    k ∈ n.counted target ↔ n.Live k ∧ n.ring.ownsHash target (n.hash64Of k) = true := by
  rw [counted, List.mem_filter, mem_keys h]

theorem counted_nodup (h : n.Ready) (target : NodeID) : (n.counted target).Nodup :=
  (InMemoryCache.Keys_nodup h.valid).filter _

/-- `computeLocalDigests` and `rpcBackfillDigest` leave entries and versions alone. -/
theorem rpcBackfillDigest_silent (h : n.Ready) (req : MsgBackfillDigestReq) :
    Silent n (n.rpcBackfillDigest req).2 := by
  have hlisted := listed_silent h
  unfold rpcBackfillDigest
  split_ifs
  · have hidle : InMemoryCache.Idle n.listed.localCache
        { n.listed.localCache with rt := (n.listed.localCache.rt.iterate
          (n.localCache.Keys.1.foldl (n.listed.aggregate (clampDepth req.Depth.toNat) req.TargetID)
            ∅).entries).2 } := ⟨rfl, rfl, rfl, WallClock.Later.refl _⟩
    obtain ⟨hout, hview⟩ := hidle.outcome hlisted.advances.ready.valid
    exact hlisted.trans ⟨hlisted.advances.ready.advances hout, rfl, hview⟩
  · exact Silent.refl h

omit [DecidableEq K] in
theorem updateLocalDigestWithBatch_eq (n : Node K V) (m : Digest) (hdepth : 0 ≤ depth ∧ depth ≤ 8)
    (batch : List (Item K V)) : n.updateLocalDigestWithBatch m depth batch =
      some (tally (fun it => n.bucketOf depth.toNat it.Key) n.itemSig m batch) := by
  induction batch generalizing m with
  | nil => rfl
  | cons it batch ih =>
    have hslice : sliceTo (PutUint64 (n.hash64Of it.Key)) depth =
        some (n.bucketOf depth.toNat it.Key) := if_pos hdepth
    simp only [updateLocalDigestWithBatch, List.foldlM_cons, hslice]
    exact ih _

section
variable (h : Converged donor joiner)
include h

theorem Converged.hash64Of : donor.hash64Of = joiner.hash64Of := by
  funext k
  rw [Node.hash64Of, h.kc, h.sum64, Node.hash64Of]

/-- Both count the same keys. -/
theorem Converged.counted_perm (hd : donor.Ready) (hj : joiner.Ready) :
    (donor.counted joiner.cfg.ID).Perm (joiner.counted joiner.cfg.ID) := by
  refine (List.perm_ext_iff_of_nodup (counted_nodup hd _) (counted_nodup hj _)).mpr fun k => ?_
  rw [mem_counted hd, mem_counted hj]
  constructor
  · rintro ⟨hlive, howned⟩
    have hk := (h.holds k _).mp ⟨hlive, howned, rfl⟩
    exact ⟨hk.live, hk.owned⟩
  · rintro ⟨hlive, howned⟩
    have hk := (h.holds k _).mpr ⟨hlive, howned, rfl⟩
    exact ⟨hk.live, hk.owned⟩

theorem Converged.sig_eq (hj : joiner.Ready) (hk : k ∈ joiner.counted joiner.cfg.ID) :
    donor.sig k = joiner.sig k := by
  obtain ⟨hlive, howned⟩ := (mem_counted hj _ k).mp hk
  have hver := ((h.holds k _).mpr ⟨hlive, howned, rfl⟩).version
  rw [h.kc] at hver
  rw [sig, sig, versionOf, versionOf, h.hash64Of, h.lww, h.kc, hver]

/-- Whatever the order in which either side lists its keys, every bucket of the reply is what the
joiner has itself. -/
theorem Converged.read_eq (hd : donor.Ready) (hj : joiner.Ready)
    (htarget : req.TargetID = joiner.cfg.ID)
    (hdepth : clampDepth req.Depth.toNat = clampDepth depth) {b : BucketDigest}
    (hb : b ∈ (donor.rpcBackfillDigest req).1.Buckets) :
    read (joiner.computeLocalDigests depth).1 b.Prefix = ⟨b.Count, b.Hash64⟩ := by
  have hbucket : donor.bucketOf = joiner.bucketOf := by
    funext d k
    rw [bucketOf, h.hash64Of, bucketOf]
  have hsame : total (joiner.bucketOf (clampDepth depth)) donor.sig
      (joiner.counted joiner.cfg.ID) b.Prefix = _ := total_congr (fun k hk => h.sig_eq hj hk) _
  rw [read_computeLocalDigests, mem_rpcBackfillDigest hb, htarget, hdepth, hbucket, ← hsame]
  exact (total_perm (h.counted_perm hd hj) _).symm

end

/-- A node of a pair that owns everything. It holds 20 under the key 7. -/
def holder (c : InMemoryCache UInt8 UInt8) (id : NodeID) : Node UInt8 UInt8 :=
  ((plain id ⟨[⟨[1], 0, 0⟩, ⟨[2], 1, 0⟩], 2⟩ c).rpcSet ⟨1, [7], [20], 0, 5, false⟩).2

theorem holder_spec (reading : Nat → Int) (id : NodeID) :
    Advances (plain id ⟨[⟨[1], 0, 0⟩, ⟨[2], 1, 0⟩], 2⟩ (freshCache reading))
        (holder (freshCache reading) id) ∧
      ∀ k e, (holder (freshCache reading) id).localCache.view k = some e → k = 7 ∧ e = (20, 0) :=
  plain_rpcSet_view reading id _ 7 20 0 5

end Node

end Kioshun
