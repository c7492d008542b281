import Kioshun.Cluster.NodeSpec

/-!
# Replicated writes converge

With last writer wins enabled and an unbounded cache, every handler is a sequence
of writes to the registers of the node. What a set of messages leaves behind
therefore does not depend on the order or on the number of their deliveries.
-/

namespace Kioshun

open Lww Function InMemoryCache List

universe u v
variable {K : Type u} {V : Type v}

/-- A replicated write as it comes over the wire. -/
inductive Msg where
  | set (s : MsgSet)
  | setBulk (sb : MsgSetBulk)
  | del (d : MsgDel)

namespace Node

variable [DecidableEq K] [Inhabited V]

def handle (n : Node K V) : Msg → Node K V
  | .set s => (n.rpcSet s).2
  | .setBulk sb => (n.rpcSetBulk sb).2
  | .del d => (n.rpcDel d).2

def deliver (n : Node K V) (msgs : List Msg) : Node K V := msgs.foldl handle n

def Accepts (n : Node K V) : Msg → Prop
  | .set s => ∃ k vbytes v, n.checkSet s = .ok (k, vbytes) ∧ n.codec.Decode vbytes = .ok v
  | .setBulk sb => ∀ kv ∈ sb.Items, ∃ k v, n.checkItem kv = .ok (k, v)
  | .del d => tooLarge n.cfg.Sec.MaxKeySize d.Key = false ∧ ∃ k, n.kc.DecodeKey d.Key = .ok k

variable {k : K}

section Writes

def payload (codec : Codec V) (ext : Externals) (val : Bytes) (cp : Bool) : Option V :=
  match if cp then ext.gunzip val else .ok val with
  | .error _ => none
  | .ok vbytes =>
    match codec.Decode vbytes with
    | .error _ => none
    | .ok v => some v

def writeOf (codec : Codec V) (ext : Externals) (bk val : Bytes) (cp : Bool) (exp : Int)
    (ver : UInt64) : List (Write Bytes Nat (Option (V × Int))) :=
  (payload codec ext val cp).toList.map fun v => ⟨bk, ver.toNat, some (v, exp)⟩

def writes (codec : Codec V) (ext : Externals) : Msg → List (Write Bytes Nat (Option (V × Int)))
  | .set s => writeOf codec ext s.Key s.Val s.Cp s.Exp s.Ver
  | .setBulk sb => sb.Items.flatMap fun kv => writeOf codec ext kv.K kv.V kv.Cp kv.E kv.Ver
  | .del d => [⟨d.Key, d.Ver.toNat, none⟩]

variable {n : Node K V}

section
omit [DecidableEq K] [Inhabited V]

theorem inflate_eq_ok {val vbytes : Bytes} {cp : Bool} : n.inflate val cp = .ok vbytes ↔
    n.maybeDecompress val cp = .ok vbytes ∧ tooLarge n.cfg.Sec.MaxValueSize vbytes = false := by
  unfold inflate
  cases n.maybeDecompress val cp with
  | error err => simp
  | ok b =>
    simp only [Except.ok.injEq]
    split_ifs with hsize
    · simp only [false_iff, not_and]
      rintro rfl
      simp [hsize]
    · simp only [Except.ok.injEq]
      constructor
      · rintro rfl
        exact ⟨rfl, Bool.eq_false_of_not_eq_true hsize⟩
      · exact And.left

theorem payload_of_decode {val vbytes : Bytes} {cp : Bool} {v : V}
    (hd : n.maybeDecompress val cp = .ok vbytes) (hv : n.codec.Decode vbytes = .ok v) :
    payload n.codec n.ext val cp = some v := by
  have hd' : (if cp then n.ext.gunzip val else .ok val) = .ok vbytes := hd
  simp only [payload, hd', hv]

/-- What `rpcSet` asks of a message before it looks up the version. -/
theorem checkSet_eq_ok {s : MsgSet} {vbytes : Bytes} : n.checkSet s = .ok (k, vbytes) ↔
    tooLarge n.cfg.Sec.MaxKeySize s.Key = false ∧ tooLarge n.cfg.Sec.MaxValueSize s.Val = false ∧
      n.inflate s.Val s.Cp = .ok vbytes ∧ n.kc.DecodeKey s.Key = .ok k := by
  unfold checkSet
  cases tooLarge n.cfg.Sec.MaxKeySize s.Key with
  | true => simp
  | false =>
    cases tooLarge n.cfg.Sec.MaxValueSize s.Val with
    | true => simp
    | false =>
      cases n.inflate s.Val s.Cp with
      | error err => simp
      | ok b =>
        cases n.kc.DecodeKey s.Key with
        | error err => simp
        | ok k' => simp [and_comm]

theorem checkItem_ok {kv : KV} {v : V} (h : n.checkItem kv = .ok (k, v)) :
    n.kc.DecodeKey kv.K = .ok k ∧ payload n.codec n.ext kv.V kv.Cp = some v := by
  unfold checkItem at h
  split_ifs at h
  cases hk : n.kc.DecodeKey kv.K with
  | error err =>
    rw [hk] at h
    cases h
  | ok k' =>
    rw [hk] at h
    cases hi : n.inflate kv.V kv.Cp with
    | error err =>
      rw [hi] at h
      cases h
    | ok vbytes =>
      rw [hi] at h
      cases hd : n.codec.Decode vbytes with
      | error err =>
        simp only [hd] at h
        cases h
      | ok v' =>
        simp only [hd] at h
        cases h
        exact ⟨rfl, payload_of_decode (inflate_eq_ok.mp hi).1 hd⟩

end

end Writes

/-- A node on which replicated writes never make room for each other. -/
structure Replica (n : Node K V) : Prop where
  ready : n.Ready
  lww : n.cfg.LWWEnabled = true
  lawful : n.kc.Lawful
  unbounded : n.localCache.perShardCap ≤ 0

structure Performs (n : Node K V) (ws : List (Write Bytes Nat (Option (V × Int))))
    (n' : Node K V) : Prop where
  advances : Advances n n'
  register : n'.register = ws.foldl apply n.register

variable {n n' n'' : Node K V}

section
omit [Inhabited V]

theorem Replica.advances (h : Replica n) (ha : Advances n n') : Replica n' :=
  ⟨ha.ready, ha.cfg ▸ h.lww, ha.kc ▸ h.lawful, ha.cap ▸ h.unbounded⟩

theorem Performs.trans {ws ws' : List (Write Bytes Nat (Option (V × Int)))}
    (h : Performs n ws n') (h' : Performs n' ws' n'') : Performs n (ws ++ ws') n'' where
  advances := h.advances.trans h'.advances
  register := by rw [h'.register, h.register, foldl_append]

/-- The checks read only what no step changes. -/
theorem Advances.checkItem (h : Advances n n') (kv : KV) : n'.checkItem kv = n.checkItem kv := by
  simp only [Node.checkItem, inflate, maybeDecompress, h.cfg, h.kc, h.codec, h.ext]

theorem Advances.accepts (h : Advances n n') (m : Msg) : n'.Accepts m ↔ n.Accepts m := by
  cases m with
  | set s =>
    simp only [Accepts, checkSet, inflate, maybeDecompress, h.cfg, h.kc, h.codec, h.ext]
  | setBulk sb => simp only [Accepts, h.checkItem]
  | del d => simp only [Accepts, h.cfg, h.kc]

end

structure Applied (n : Node K V) (bk : Bytes) (k : K) (ver : UInt64) (e : Option (V × Int))
    (n' : Node K V) : Prop where
  advances : Advances n n'
  entry : n'.localCache.view k = e
  fresh : n'.stale bk ver = false
  version : n.cfg.LWWEnabled = true → n'.version = update n.version bk ver
  view : n.localCache.perShardCap ≤ 0 →
    n'.localCache.view = update n.localCache.view k e

theorem rpcSet_applied (h : n.Ready) {s : MsgSet} {vbytes : Bytes} {v : V}
    (hcheck : n.checkSet s = .ok (k, vbytes)) (hdec : n.codec.Decode vbytes = .ok v)
    (hstale : ¬ n.stale s.Key s.Ver = true) :
    Applied n s.Key k s.Ver (some (v, s.Exp)) (n.rpcSet s).2 := by
  obtain ⟨himp, -, hexact⟩ := importItems_spec h [⟨k, v, s.Exp, s.Ver⟩]
  obtain ⟨hcom, hview, hfresh, hver⟩ := commit_spec himp.ready s.Key s.Ver
  simp only [rpcSet, hcheck, hdec, if_neg hstale]
  refine ⟨himp.trans hcom, ?_, hfresh, ?_, ?_⟩
  · rw [hview]
    exact Import_single h.valid _
  · rw [himp.cfg] at hver
    exact hver
  · intro hcap
    rw [hview, hexact hcap]
    rfl

omit [Inhabited V] in
theorem rpcDel_applied (h : n.Ready) {d : MsgDel}
    (hsize : tooLarge n.cfg.Sec.MaxKeySize d.Key = false) (hk : n.kc.DecodeKey d.Key = .ok k)
    (hstale : ¬ n.stale d.Key d.Ver = true) : Applied n d.Key k d.Ver none (n.rpcDel d).2 := by
  obtain ⟨hcom, hview, hfresh, hver⟩ := commit_spec h d.Key d.Ver
  obtain ⟨hout, hdel, -⟩ := Delete_spec hcom.ready.valid hcom.ready.isOpen k
  rw [hview] at hdel
  simp only [rpcDel, hsize, Bool.false_eq_true, if_false, hk, if_neg hstale]
  refine ⟨hcom.trans (hcom.ready.advances hout), ?_, hfresh, hver, fun _ => hdel⟩
  exact (congrFun hdel k).trans (update_self ..)

omit [Inhabited V] in
/-- On a replica a write that is taken over is a write of its register. -/
theorem Applied.performs {bk : Bytes} {ver : UInt64} {e : Option (V × Int)}
    (ha : Applied n bk k ver e n') (h : Replica n) (hk : n.kc.DecodeKey bk = .ok k)
    (hver : n.version bk ≤ ver) : Performs n [⟨bk, ver.toNat, e⟩] n' := by
  refine ⟨ha.advances, ?_⟩
  rw [register, ha.advances.kc, ha.version h.lww, ha.view h.unbounded]
  exact registers_update h.lawful hk hver e

section
variable (h : Replica n)
include h

omit [Inhabited V] in
/-- A write that is dropped is one that the register drops. -/
theorem performs_stale {bk : Bytes} {ver : UInt64} (e : Option (V × Int))
    (hstale : n.stale bk ver = true) : Performs n [⟨bk, ver.toNat, e⟩] n :=
  ⟨Advances.refl h.ready, (registers_stale ((stale_iff h.lww _ _).mp hstale) e).symm⟩

theorem rpcSet_performs {s : MsgSet} (hacc : n.Accepts (.set s)) :
    Performs n (writes n.codec n.ext (.set s)) (n.rpcSet s).2 := by
  obtain ⟨k, vbytes, v, hcheck, hdec⟩ := hacc
  obtain ⟨-, -, hinf, hk⟩ := checkSet_eq_ok.mp hcheck
  have hws : writes n.codec n.ext (.set s) = [⟨s.Key, s.Ver.toNat, some (v, s.Exp)⟩] := by
    simp [writes, writeOf, payload_of_decode (inflate_eq_ok.mp hinf).1 hdec]
  rw [hws]
  by_cases hstale : n.stale s.Key s.Ver = true
  · simp only [rpcSet, hcheck, hstale, if_true]
    exact performs_stale h _ hstale
  · exact (rpcSet_applied h.ready hcheck hdec hstale).performs h hk (le_of_not_stale h.lww hstale)

omit [Inhabited V] in
/-- The loop of `rpcSetBulk` performs its writes on the versions at once and on the entries as
soon as the items it has collected are imported. -/
theorem collect_spec (items : List (Item K V)) {kvs : List KV}
    (hacc : ∀ kv ∈ kvs, ∃ k v, n.checkItem kv = .ok (k, v)) :
    ∃ items' n', n.collect items kvs = (.ok items', n') ∧ Advances n n' ∧
      n'.localCache.view = n.localCache.view ∧
      registers n.kc n'.version (imported items' n.localCache.view) =
        (kvs.flatMap fun kv => writeOf n.codec n.ext kv.K kv.V kv.Cp kv.E kv.Ver).foldl apply
          (registers n.kc n.version (imported items n.localCache.view)) := by
  induction kvs generalizing n items with
  | nil => exact ⟨items, n, rfl, Advances.refl h.ready, rfl, rfl⟩
  | cons kv kvs ih =>
    obtain ⟨k, v, hcheck⟩ := hacc kv mem_cons_self
    obtain ⟨hk, hpay⟩ := checkItem_ok hcheck
    have hws : writeOf n.codec n.ext kv.K kv.V kv.Cp kv.E kv.Ver =
        [⟨kv.K, kv.Ver.toNat, some (v, kv.E)⟩] := by simp [writeOf, hpay]
    simp only [collect, hcheck, flatMap_cons, foldl_append, hws, foldl_cons, foldl_nil]
    by_cases hstale : n.stale kv.K kv.Ver = true
    · rw [if_pos hstale, registers_stale ((stale_iff h.lww _ _).mp hstale)]
      exact ih h items fun kv' hkv' => hacc kv' (mem_cons_of_mem _ hkv')
    · rw [if_neg hstale]
      have hver := le_of_not_stale h.lww hstale
      obtain ⟨hcom, hview, -, hversion⟩ := commit_spec h.ready kv.K kv.Ver
      obtain ⟨items', n', hcol, hadv, hview', hreg⟩ := ih (h.advances hcom)
        (items ++ [⟨k, v, kv.E, kv.Ver⟩]) fun kv' hkv' => by
          rw [hcom.checkItem]
          exact hacc kv' (mem_cons_of_mem _ hkv')
      refine ⟨items', n', hcol, hcom.trans hadv, hview'.trans hview, ?_⟩
      rw [hcom.kc, hcom.codec, hcom.ext, hview, hversion h.lww] at hreg
      rw [hreg, ← registers_update h.lawful hk hver]
      simp only [imported, foldl_append, foldl_cons, foldl_nil]

theorem rpcSetBulk_performs {sb : MsgSetBulk} (hacc : n.Accepts (.setBulk sb)) :
    Performs n (writes n.codec n.ext (.setBulk sb)) (n.rpcSetBulk sb).2 := by
  obtain ⟨items, n', hcol, hadv, hview, hreg⟩ := collect_spec h [] hacc
  obtain ⟨himp, -, hview'⟩ := importItems_spec hadv.ready items
  simp only [rpcSetBulk, hcol]
  refine ⟨hadv.trans himp, ?_⟩
  rw [register, (hadv.trans himp).kc, hview' (h.advances hadv).unbounded, hview]
  exact hreg

omit [Inhabited V] in
theorem rpcDel_performs {d : MsgDel} (hacc : n.Accepts (.del d)) :
    Performs n (writes n.codec n.ext (.del d)) (n.rpcDel d).2 := by
  obtain ⟨hsize, k, hk⟩ := hacc
  by_cases hstale : n.stale d.Key d.Ver = true
  · simp only [rpcDel, hsize, Bool.false_eq_true, if_false, hk, hstale, if_true]
    exact performs_stale h _ hstale
  · exact (rpcDel_applied h.ready hsize hk hstale).performs h hk (le_of_not_stale h.lww hstale)

theorem handle_performs {m : Msg} (hacc : n.Accepts m) :
    Performs n (writes n.codec n.ext m) (n.handle m) := by
  cases m with
  | set s => exact rpcSet_performs h hacc
  | setBulk sb => exact rpcSetBulk_performs h hacc
  | del d => exact rpcDel_performs h hacc

theorem deliver_performs {msgs : List Msg} (hacc : ∀ m ∈ msgs, n.Accepts m) :
    Performs n (msgs.flatMap (writes n.codec n.ext)) (n.deliver msgs) := by
  induction msgs generalizing n with
  | nil => exact ⟨Advances.refl h.ready, rfl⟩
  | cons m msgs ih =>
    have hm := handle_performs h (hacc m mem_cons_self)
    have hrest := ih (h.advances hm.advances) fun m' hm' =>
      (hm.advances.accepts m').mpr (hacc m' (mem_cons_of_mem _ hm'))
    rw [hm.advances.codec, hm.advances.ext] at hrest
    rw [flatMap_cons]
    exact hm.trans hrest

end

/-- What a delivery sequence leaves of a key is the write with the greatest version, whatever
the order and the duplicates. -/
theorem deliver_wins (h : Replica n) {msgs sent : List Msg} (hacc : ∀ m ∈ msgs, n.Accepts m)
    (hsent : ∀ m, m ∈ sent ↔ m ∈ msgs) (k : K) :
    Wins n.register (msgs.flatMap (writes n.codec n.ext)) (n.kc.EncodeKey k)
      ⟨((n.deliver sent).version (n.kc.EncodeKey k)).toNat,
        (n.deliver sent).localCache.view k⟩ := by
  have hperf := deliver_performs h fun m hm => hacc m ((hsent m).mp hm)
  have hwins := foldl_apply_wins n.register (sent.flatMap (writes n.codec n.ext)) (n.kc.EncodeKey k)
  have hkey := register_key (h.advances hperf.advances).lawful k
  rw [hperf.advances.kc] at hkey
  rw [← hperf.register, hkey] at hwins
  refine hwins.congr fun x => ?_
  simp only [mem_flatMap, hsent]

/-- Replicas that start equal and receive the same messages, each at least once and in any
order, end equal: with the write of the greatest version of every key. -/
theorem deliver_converges {n₁ n₂ : Node K V} (h₁ : Replica n₁) (h₂ : Replica n₂)
    (hkc : n₂.kc = n₁.kc) (hcodec : n₂.codec = n₁.codec) (hext : n₂.ext = n₁.ext)
    (hversion : n₂.version = n₁.version) (hview : n₂.localCache.view = n₁.localCache.view)
    {msgs sent₁ sent₂ : List Msg} (hacc₁ : ∀ m ∈ msgs, n₁.Accepts m)
    (hacc₂ : ∀ m ∈ msgs, n₂.Accepts m)
    (hdistinct : Functional (msgs.flatMap (writes n₁.codec n₁.ext)))
    (hsent₁ : ∀ m, m ∈ sent₁ ↔ m ∈ msgs) (hsent₂ : ∀ m, m ∈ sent₂ ↔ m ∈ msgs) (k : K) :
    (n₁.deliver sent₁).localCache.view k = (n₂.deliver sent₂).localCache.view k ∧
      (n₁.deliver sent₁).version (n₁.kc.EncodeKey k) =
        (n₂.deliver sent₂).version (n₁.kc.EncodeKey k) ∧
      Wins n₁.register (msgs.flatMap (writes n₁.codec n₁.ext)) (n₁.kc.EncodeKey k)
        ⟨((n₁.deliver sent₁).version (n₁.kc.EncodeKey k)).toNat,
          (n₁.deliver sent₁).localCache.view k⟩ := by
  have hwins₁ := deliver_wins h₁ hacc₁ hsent₁ k
  have hwins₂ := deliver_wins h₂ hacc₂ hsent₂ k
  have hreg : n₂.register = n₁.register := by simp only [register, hkc, hversion, hview]
  rw [hreg, hcodec, hext, hkc] at hwins₂
  have heq := hwins₁.unique hwins₂ hdistinct
  simp only [Stamped.mk.injEq] at heq
  exact ⟨heq.2, UInt64.toNat_inj.mp heq.1, hwins₁⟩

/-- A key is one byte, a value is one byte, and nothing is compressed. -/
def byteKeys : KeyCodec UInt8 where
  EncodeKey := fun k => [k]
  DecodeKey := fun b => match b with
    | [k] => .ok k
    | _ => .error "invalid key length"
  Hash64 := some fun k => k.toUInt64

theorem byteKeys_lawful : byteKeys.Lawful where
  decode_encode := fun _ => rfl
  encode_decode := by
    intro b k h
    match b, h with
    | [k'], h =>
      cases h
      rfl

def byteValues : Codec UInt8 where
  Encode := fun v => .ok [v]
  Decode := fun b => match b with
    | [v] => .ok v
    | _ => .error "invalid value length"

def stored : Externals where
  gzip := id
  gunzip := .ok
  Sum64 := fun b => UInt64.ofNat b.length

/-- A node without limits around a cache. -/
def plain (ID : NodeID) (ring : Ring) (c : InMemoryCache UInt8 UInt8) : Node UInt8 UInt8 where
  cfg := ⟨ID, 1, 0, ⟨0, 0, 0⟩, true⟩
  kc := byteKeys
  codec := byteValues
  ext := stored
  localCache := c
  ring := ring
  hotSet := fun _ => none
  version := fun _ => 0
  clock := Hlc.newHLC 1
  reqID := 0

def unboundedConfig : Config where
  maxSize := 0
  shardCount := 1
  defaultTTL := 0
  evictionPolicy := .LRU
  statsEnabled := false
  admissionResetInterval := 0
  admissionScanRateThreshold := 0
  admissionScanMissThreshold := 0
  admissionScanRecencyThreshold := 0
  admissionRecencyTieBreak := 0

/-- An empty cache without a limit; `reading` is what its clock reads. -/
@[irreducible] def freshCache (reading : Nat → Int) : InMemoryCache UInt8 UInt8 :=
  (New unboundedConfig 1 UInt8.toUInt64 ⟨reading, 0⟩ id).get rfl

theorem New_freshCache (reading : Nat → Int) :
    New unboundedConfig 1 UInt8.toUInt64 ⟨reading, 0⟩ id = some (freshCache reading) := by
  unfold freshCache
  rfl

@[simp] theorem freshCache_reading (reading : Nat → Int) :
    (freshCache reading).rt.wall.reading = reading := by
  unfold freshCache
  rfl

theorem plain_replica (reading : Nat → Int) (ID : NodeID) (ring : Ring) :
    Replica (plain ID ring (freshCache reading)) := by
  obtain ⟨-, -, -, -, hcap, -⟩ := New_spec (New_freshCache reading)
  have hfree : (freshCache reading).perShardCap ≤ 0 := by
    rw [hcap]
    decide
  exact ⟨ready_of_run (New_freshCache reading) [] rfl, rfl, byteKeys_lawful, hfree⟩

/-- A node around an empty cache that is sent a value holds this value and no other. -/
theorem plain_rpcSet_view (reading : Nat → Int) (ID : NodeID) (ring : Ring) (k v : UInt8)
    (exp : Int) (ver : UInt64) :
    let n := plain ID ring (freshCache reading)
    Advances n (n.rpcSet ⟨1, [k], [v], exp, ver, false⟩).2 ∧
      ∀ k' e, (n.rpcSet ⟨1, [k], [v], exp, ver, false⟩).2.localCache.view k' = some e →
        k' = k ∧ e = (v, exp) := by
  intro n
  have hrep : Replica n := plain_replica reading ID ring
  have hfresh : ¬ n.stale [k] ver = true := fun hstale =>
    UInt64.not_lt_zero ((stale_iff rfl _ _).mp hstale)
  have happ := rpcSet_applied hrep.ready (s := ⟨1, [k], [v], exp, ver, false⟩) (k := k) (v := v) rfl
    rfl hfresh
  refine ⟨happ.advances, fun k' e he => ?_⟩
  rw [happ.view hrep.unbounded] at he
  by_cases hk : k' = k
  · rw [hk, update_self] at he
    exact ⟨hk, (Option.some.inj he).symm⟩
  · rw [update_of_ne hk] at he
    cases (New_view (New_freshCache reading) k').symm.trans he

def threeWrites : List Msg :=
  [.set ⟨1, [7], [10], 0, 5, false⟩, .del ⟨2, [7], 8⟩, .setBulk ⟨3, [⟨[7], [11], 0, 6, false⟩]⟩]

theorem deliver_converges_swapped :
    let n₁ := plain [1] ⟨[], 1⟩ (freshCache fun n => n)
    let n₂ := plain [1] ⟨[], 1⟩ (freshCache fun n => 3 * n)
    (n₁.deliver threeWrites).localCache.view 7 =
      (n₂.deliver (threeWrites.reverse ++ [.del ⟨2, [7], 8⟩])).localCache.view 7 := by
  intro n₁ n₂
  have hacc : ∀ (c : InMemoryCache UInt8 UInt8), ∀ m ∈ threeWrites,
      (plain [1] ⟨[], 1⟩ c).Accepts m := by
    intro c m hm
    simp only [threeWrites, mem_cons, not_mem_nil, or_false] at hm
    rcases hm with rfl | rfl | rfl
    · exact ⟨7, [10], 10, rfl, rfl⟩
    · exact ⟨rfl, 7, rfl⟩
    · intro kv hkv
      rw [mem_singleton.mp hkv]
      exact ⟨7, 11, rfl⟩
  have hview : n₂.localCache.view = n₁.localCache.view := funext fun k =>
    (New_view (New_freshCache fun n => 3 * n) k).trans (New_view (New_freshCache fun n => n) k).symm
  have hdistinct : Functional (threeWrites.flatMap (writes byteValues stored)) := by
    unfold Functional
    decide
  have h₁ : Replica n₁ := plain_replica ..
  have h₂ : Replica n₂ := plain_replica ..
  exact (deliver_converges h₁ h₂ rfl rfl rfl rfl hview (hacc _) (hacc _) hdistinct
    (fun m => Iff.rfl) (fun m => by simp [threeWrites]; tauto) 7).1

end Node

end Kioshun
