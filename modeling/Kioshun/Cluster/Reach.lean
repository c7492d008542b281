import Kioshun.Cluster.Client

/-!
# Which owners a write reaches

The coordinator of a write sends it to the other owners and writes itself only if
it is the first one. An owner that is neither sent the write nor the first keeps
what it had: in particular a coordinator that is a later owner, which goes on to
serve its old copy.
-/

namespace Kioshun
open Function InMemoryCache List

universe u v
variable {K : Type u} {V : Type v}

/-- The handler takes over the message: within the limits, decodable and not stale. -/
def Node.Applies (n : Node K V) (m : Msg) : Prop :=
  n.Accepts m ∧ match m with
    | .set s => n.stale s.Key s.Ver = false
    | .setBulk sb => ∀ kv ∈ sb.Items, n.stale kv.K kv.Ver = false
    | .del d => n.stale d.Key d.Ver = false

variable [DecidableEq K] [Inhabited V]

def deliverTo (nodes : NodeID → Node K V) (delivered : List (NodeID × Msg)) :
    NodeID → Node K V :=
  delivered.foldl (fun nodes x => update nodes x.1 ((nodes x.1).handle x.2)) nodes

/-- The nodes after the write `w` of `me`, once `delivered` has arrived. -/
def afterWrite (nodes : NodeID → Node K V) (me : NodeID) (w : Written K V)
    (delivered : List (NodeID × Msg)) : NodeID → Node K V :=
  deliverTo (update nodes me w.node) delivered

structure Cluster (nodes : NodeID → Node K V) (me : NodeID) : Prop where
  ID : (nodes me).cfg.ID = me
  ready : ∀ id, (nodes id).Ready
  kc : ∀ id, (nodes id).kc = (nodes me).kc
  codec : ∀ id, (nodes id).codec = (nodes me).codec
  ext : ∀ id, (nodes id).ext = (nodes me).ext
  keys : (nodes me).kc.Lawful
  values : (nodes me).codec.Lawful
  gzip : (nodes me).ext.Lawful

/-- The write has returned without an error; all that it sent has arrived and was taken over, and
so have `replays` of its hints. -/
structure Delivery (nodes : NodeID → Node K V) (w : Written K V)
    (replays delivered : List (NodeID × Msg)) : Prop where
  returned : w.result = .ok ()
  hinted : ∀ x ∈ replays, ∃ hint reqID, (x.1, hint) ∈ w.hints ∧ x.2 = hint.toMsg reqID
  arrived : ∀ x, x ∈ delivered ↔ x ∈ w.sent ∨ x ∈ replays
  applied : ∀ x ∈ delivered, (nodes x.1).Applies x.2

/-- The node is the coordinator and the first owner, or a peer that is connected or has got its
hint. -/
def Reached (n : Node K V) (net : Network) (k : K) (replays : List (NodeID × Msg))
    (id : NodeID) : Prop :=
  if id = n.cfg.ID then n.isPrimary (n.owners k) = true
  else net.connected id = true ∨ ∃ m, (id, m) ∈ replays

namespace Node
variable {n n' : Node K V} {k : K} {e : Option (V × Int)} {hint : Hint}

/-- What a hint leaves under its key. -/
def entryOf (codec : Codec V) (ext : Externals) : Hint → Option (V × Int)
  | .set _ Val Exp _ Cp => (payload codec ext Val Cp).map fun v => (v, Exp)
  | .del _ _ => none

def hintKey : Hint → Bytes
  | .set Key _ _ _ _ => Key
  | .del Key _ => Key

/-- A message that is taken over leaves the entry of its hint, and would be taken over again. -/
theorem handle_applied (h : n.Ready) {reqID : UInt64} (happ : n.Applies (hint.toMsg reqID))
    (hk : n.kc.DecodeKey (hintKey hint) = .ok k) :
    Advances n (n.handle (hint.toMsg reqID)) ∧
      (n.handle (hint.toMsg reqID)).localCache.view k = entryOf n.codec n.ext hint ∧
      ∀ reqID', (n.handle (hint.toMsg reqID)).Applies (hint.toMsg reqID') := by
  obtain ⟨hacc, hstale⟩ := happ
  cases hint with
  | set Key Val Exp Ver Cp =>
    obtain ⟨k', vbytes, v, hcheck, hdec⟩ := hacc
    obtain ⟨-, -, hinf, hk'⟩ := checkSet_eq_ok.mp hcheck
    obtain rfl : k' = k := Except.ok.inj (hk'.symm.trans hk)
    have ha := rpcSet_applied h hcheck hdec (Bool.eq_false_iff.mp hstale)
    refine ⟨ha.advances, ?_, fun reqID' =>
      ⟨(ha.advances.accepts _).mpr ⟨k', vbytes, v, hcheck, hdec⟩, ha.fresh⟩⟩
    rw [entryOf, payload_of_decode (inflate_eq_ok.mp hinf).1 hdec]
    exact ha.entry
  | del Key Ver =>
    obtain ⟨hsize, k', hk'⟩ := hacc
    obtain rfl : k' = k := Except.ok.inj (hk'.symm.trans hk)
    have ha := rpcDel_applied h hsize hk' (Bool.eq_false_iff.mp hstale)
    exact ⟨ha.advances, ha.entry, fun reqID' =>
      ⟨(ha.advances.accepts _).mpr ⟨hsize, k', hk'⟩, ha.fresh⟩⟩

section Coordinator

/-- What the coordinator does for the owners other than itself. -/
structure Spreads (n : Node K V) (net : Network) (owners : List NodeMeta) (hint : Hint)
    (w : Written K V) : Prop where
  sent : ∀ x ∈ w.sent, x.1 ≠ n.cfg.ID ∧ net.connected x.1 = true ∧
    ∃ reqID, x.2 = hint.toMsg reqID
  connected : ∀ o ∈ owners, o.ID ≠ n.cfg.ID → net.connected o.ID = true → ∃ m, (o.ID, m) ∈ w.sent
  hints : ∀ x ∈ w.hints, x.1 ≠ n.cfg.ID ∧ x.2 = hint
  acknowledged : w.result = .ok () → n.isPrimary owners = false →
    ∃ o ∈ owners, o.ID ≠ n.cfg.ID ∧ net.connected o.ID = true

omit [DecidableEq K] [Inhabited V] in
theorem mem_sendAll {ids : List NodeID} {x : NodeID × Msg} (hx : x ∈ (n.sendAll hint ids).1) :
    x.1 ∈ ids ∧ ∃ reqID, x.2 = hint.toMsg reqID := by
  induction ids generalizing n with
  | nil => cases hx
  | cons id ids ih =>
    rcases mem_cons.mp hx with rfl | hx
    · exact ⟨mem_cons_self, _, rfl⟩
    · obtain ⟨hmem, hmsg⟩ := ih hx
      exact ⟨mem_cons_of_mem _ hmem, hmsg⟩

omit [Inhabited V] in
theorem sendAll_spec (h : n.Ready) (hint : Hint) (ids : List NodeID) :
    Silent n (n.sendAll hint ids).2 ∧ ∀ id ∈ ids, ∃ m, (id, m) ∈ (n.sendAll hint ids).1 := by
  induction ids generalizing n with
  | nil => exact ⟨Silent.refl h, fun id hid => absurd hid not_mem_nil⟩
  | cons id ids ih =>
    have hnext := nextReqID_silent h
    obtain ⟨hsilent, hall⟩ := ih hnext.advances.ready
    refine ⟨hnext.trans hsilent, fun id' hid => ?_⟩
    rcases mem_cons.mp hid with rfl | hid
    · exact ⟨_, mem_cons_self⟩
    · obtain ⟨m, hm⟩ := hall id' hid
      exact ⟨m, mem_cons_of_mem _ hm⟩

theorem metConcern_pos {want : Int} {oks : Nat} (h : metConcern want oks = true) : 0 < oks := by
  obtain ⟨j, hj, -⟩ := any_eq_true.mp h
  have hlt := mem_range.mp hj
  omega

omit [Inhabited V] in
theorem replicate_spec (h : n.Ready) (net : Network) (replies : NodeID → Except String Ack)
    (hint : Hint) (owners : List NodeMeta) :
    Silent n (n.replicate net replies hint owners).node ∧
      Spreads n net owners hint (n.replicate net replies hint owners) := by
  obtain ⟨hsilent, hall⟩ := sendAll_spec h hint
    (((owners.map NodeMeta.ID).filter fun id => id ≠ n.cfg.ID).filter net.connected)
  refine ⟨hsilent, fun x hx => ?_, fun o ho hne hcon => ?_, fun x hx => ?_, fun hok hprim => ?_⟩
  · obtain ⟨hmem, hmsg⟩ := mem_sendAll hx
    obtain ⟨hmem, hcon⟩ := mem_filter.mp hmem
    exact ⟨of_decide_eq_true (mem_filter.mp hmem).2, hcon, hmsg⟩
  · refine hall o.ID (mem_filter.mpr ⟨mem_filter.mpr ⟨?_, decide_eq_true hne⟩, hcon⟩)
    exact mem_map_of_mem ho
  · simp only [replicate] at hx
    split_ifs at hx
    · obtain ⟨id, hid, rfl⟩ := mem_map.mp hx
      have hne := (mem_filter.mp (mem_filter.mp hid).1).2
      exact ⟨of_decide_eq_true hne, rfl⟩
    · cases hx
  · have hwant : ¬ n.required - 0 ≤ 0 := by
      unfold required
      split_ifs <;> omega
    simp only [replicate, hprim, Bool.false_eq_true, if_false, hwant, false_or] at hok
    split_ifs at hok with hmet
    obtain ⟨id, hid⟩ := exists_mem_of_length_pos (metConcern_pos hmet)
    obtain ⟨hid, hack⟩ := mem_filter.mp hid
    obtain ⟨hid, hne⟩ := mem_filter.mp hid
    obtain ⟨o, ho, rfl⟩ := mem_map.mp hid
    exact ⟨o, ho, of_decide_eq_true hne, (Bool.and_eq_true_iff.mp hack).1⟩

omit [DecidableEq K] [Inhabited V] in
theorem isPrimary_congr (h : n'.cfg = n.cfg) (owners : List NodeMeta) :
    n'.isPrimary owners = n.isPrimary owners := by
  simp only [isPrimary, h]

variable {net : Network}

omit [Inhabited V] in
/-- The steps of a coordinator before it replicates leave its place in the cluster alone. -/
theorem Spreads.of_advances {owners : List NodeMeta} {w : Written K V}
    (h : Spreads n' net owners hint w) (hadv : Advances n n') : Spreads n net owners hint w := by
  have hprim := isPrimary_congr hadv.cfg owners
  obtain ⟨hsent, hcon, hhints, hack⟩ := h
  rw [hadv.cfg] at hsent hcon hhints hack
  rw [hprim] at hack
  exact ⟨hsent, hcon, hhints, hack⟩

omit [Inhabited V] in
theorem recordOwn_advances (h : n.Ready) (bk : Bytes) (ver : UInt64) :
    Advances n (n.recordOwn bk ver) ∧ (n.recordOwn bk ver).localCache = n.localCache := by
  unfold recordOwn
  split_ifs
  · exact ⟨record_advances h bk ver, rfl⟩
  · exact ⟨Advances.refl h, rfl⟩

/-- A write of the key `k` that has returned without an error: `P` says of an entry that it is
what was written. -/
structure Coordinates (n : Node K V) (net : Network) (k : K) (P : Option (V × Int) → Prop)
    (hint : Hint) (w : Written K V) : Prop where
  advances : Advances n w.node
  spreads : Spreads n net (n.owners k) hint w
  key : hintKey hint = n.kc.EncodeKey k
  entry : P (entryOf n.codec n.ext hint)
  primary : n.isPrimary (n.owners k) = true → P (w.node.localCache.view k)
  replica : n.isPrimary (n.owners k) = false →
    w.node.localCache.view k = n.localCache.view k

omit [DecidableEq K] [Inhabited V] in
theorem maybeDecompress_maybeCompress (h : n.ext.Lawful) (b : Bytes) :
    n.maybeDecompress (n.maybeCompress b).1 (n.maybeCompress b).2 = .ok b := by
  unfold maybeCompress
  simp only
  split_ifs
  · rfl
  · rfl
  · exact h b

section
omit [Inhabited V]

theorem Advances.maybeCompress (h : Advances n n') (b : Bytes) :
    n'.maybeCompress b = n.maybeCompress b := by
  simp only [Node.maybeCompress, h.cfg, h.ext]

theorem absExpiry_room (h : n.Ready) (ttl : Int)
    (hroom : HasRoom n.localCache k) :
    HasRoom (n.absExpiry ttl).2.next.2.localCache k := by
  have hnow : ∀ c : InMemoryCache K V, c.Valid → HasRoom c k →
      HasRoom c.now.2 k := by
    intro c hc hr
    rw [HasRoom, hc.now.2]
    exact hr
  have habs := (absExpiry_silent h ttl).advances.ready.valid
  refine hnow _ habs ?_
  unfold absExpiry
  split_ifs
  · exact hroom
  · exact hnow _ h.valid hroom

/-- What the local part of a write has to provide. -/
theorem replicate_coordinates {m : Node K V} {P : Option (V × Int) → Prop} (hadv : Advances n m)
    (net : Network) (replies : NodeID → Except String Ack)
    (hkey : hintKey hint = n.kc.EncodeKey k) (hentry : P (entryOf n.codec n.ext hint))
    (hprim : n.isPrimary (n.owners k) = true → P (m.localCache.view k))
    (hrep : n.isPrimary (n.owners k) = false →
      m.localCache.view k = n.localCache.view k) :
    Coordinates n net k P hint (m.replicate net replies hint (n.owners k)) := by
  obtain ⟨hsilent, hspreads⟩ := replicate_spec hadv.ready net replies hint (n.owners k)
  refine ⟨hadv.trans hsilent.advances, hspreads.of_advances hadv, hkey, hentry, ?_, ?_⟩
  · rw [hsilent.view]
    exact hprim
  · rw [hsilent.view]
    exact hrep

end

theorem setLocal_spec (h : n.Ready) (owners : List NodeMeta) (v : V) (ttl : Int) (bk : Bytes)
    (ver : UInt64) (hroom : HasRoom n.localCache k) :
    Advances n (n.setLocal owners k v ttl bk ver) ∧
      (n.isPrimary owners = true →
        ∃ exp, (n.setLocal owners k v ttl bk ver).localCache.view k = some (v, exp)) ∧
      (n.isPrimary owners = false →
        (n.setLocal owners k v ttl bk ver).localCache.view k = n.localCache.view k) := by
  obtain ⟨hwrote, -⟩ := Set_spec h.valid h.isOpen k v ttl
  have hset := h.advances hwrote.outcome
  obtain ⟨hrec, hcache⟩ := recordOwn_advances hset.ready bk ver
  by_cases hp : n.isPrimary owners = true
  · rw [setLocal, if_pos hp]
    refine ⟨hset.trans hrec, fun _ => ⟨stamp n.localCache.config n.localCache.now.1 ttl,
      ?_⟩, fun hf => by rw [hp] at hf; cases hf⟩
    rw [hcache]
    exact (congrFun (hwrote.exact hroom) k).trans (update_self ..)
  · rw [setLocal, if_neg hp]
    exact ⟨Advances.refl h, fun ht => absurd ht hp, fun _ => rfl⟩

omit [Inhabited V] in
theorem deleteLocal_spec (h : n.Ready) (owners : List NodeMeta) (k : K) (bk : Bytes)
    (ver : UInt64) :
    Advances n (n.deleteLocal owners k bk ver) ∧
      (n.isPrimary owners = true → (n.deleteLocal owners k bk ver).localCache.view k = none) ∧
      (n.isPrimary owners = false →
        (n.deleteLocal owners k bk ver).localCache.view k = n.localCache.view k) := by
  obtain ⟨hout, hview, -⟩ := Delete_spec h.valid h.isOpen k
  have hdel := h.advances hout
  obtain ⟨hrec, hcache⟩ := recordOwn_advances hdel.ready bk ver
  by_cases hp : n.isPrimary owners = true
  · rw [deleteLocal, if_pos hp]
    refine ⟨hdel.trans hrec, fun _ => ?_, fun hf => by rw [hp] at hf; cases hf⟩
    rw [hcache]
    exact (congrFun hview k).trans (update_self ..)
  · rw [deleteLocal, if_neg hp]
    exact ⟨Advances.refl h, fun ht => absurd ht hp, fun _ => rfl⟩

/-- `Set` returns before anything has happened, or it writes and replicates. -/
theorem Set_cases (n : Node K V) (net : Network) (replies : NodeID → Except String Ack) (k : K)
    (v : V) (ttl : Int) :
    (∃ err, n.Set net replies k v ttl = n.refuse err) ∨
      ∃ bv, n.codec.Encode v = .ok bv ∧ n.Set net replies k v ttl =
        ((n.absExpiry ttl).2.next.2.setLocal (n.owners k) k v ttl (n.kc.EncodeKey k)
          (n.absExpiry ttl).2.next.1).replicateSet net replies (n.kc.EncodeKey k) bv
            (n.absExpiry ttl).1 (n.absExpiry ttl).2.next.1 (n.owners k) := by
  simp only [Set]
  split_ifs
  · exact .inl ⟨_, rfl⟩
  · exact .inl ⟨_, rfl⟩
  · cases n.codec.Encode v with
    | error err => exact .inl ⟨err, rfl⟩
    | ok bv =>
      simp only
      split_ifs
      · exact .inl ⟨_, rfl⟩
      · exact .inr ⟨bv, rfl, rfl⟩

variable {replies : NodeID → Except String Ack}

/-- `Set` sends the value to the other owners, and stores it if the node is the first owner. -/
theorem Set_coordinates (h : n.Ready) (hvalues : n.codec.Lawful) (hgzip : n.ext.Lawful) {v : V}
    {ttl : Int} (hroom : HasRoom n.localCache k)
    (hok : (n.Set net replies k v ttl).result = .ok ()) :
    ∃ bv exp ver, n.codec.Encode v = .ok bv ∧
      Coordinates n net k (fun x => ∃ exp, x = some (v, exp))
        (.set (n.kc.EncodeKey k) (n.maybeCompress bv).1 exp ver (n.maybeCompress bv).2)
        (n.Set net replies k v ttl) := by
  have habs := absExpiry_silent h ttl
  have hsilent := habs.trans (next_silent habs.advances.ready)
  rcases Set_cases n net replies k v ttl with ⟨err, hw⟩ | ⟨bv, henc, hw⟩
  · rw [hw] at hok
    cases hok
  · obtain ⟨hloc, hprim, hrep⟩ := setLocal_spec hsilent.advances.ready
      (n.owners k) v ttl (n.kc.EncodeKey k) (n.absExpiry ttl).2.next.1
      (absExpiry_room h ttl hroom)
    have hadv := hsilent.advances.trans hloc
    have hcomp := maybeDecompress_maybeCompress hgzip bv
    rw [isPrimary_congr hsilent.advances.cfg] at hprim hrep
    rw [hsilent.view] at hrep
    refine ⟨bv, (n.absExpiry ttl).1, (n.absExpiry ttl).2.next.1, henc, ?_⟩
    rw [hw, replicateSet, hadv.maybeCompress]
    exact replicate_coordinates hadv net replies rfl
      ⟨_, by rw [entryOf, payload_of_decode hcomp (hvalues v bv henc)]; rfl⟩ hprim hrep

omit [Inhabited V] in
/-- `Delete` sends the delete to the other owners, and deletes if the node is the first owner. -/
theorem Delete_coordinates (h : n.Ready) (hok : (n.Delete net replies k).result = .ok ()) :
    ∃ ver, Coordinates n net k (fun x => x = none) (.del (n.kc.EncodeKey k) ver)
      (n.Delete net replies k) := by
  have hsilent := next_silent h
  generalize hw : n.Delete net replies k = w at hok
  simp only [Delete] at hw
  split_ifs at hw
  · subst hw
    cases hok
  · subst hw
    cases hok
  · obtain ⟨hloc, hprim, hrep⟩ := deleteLocal_spec hsilent.advances.ready
      (n.owners k) k (n.kc.EncodeKey k) n.next.1
    rw [isPrimary_congr hsilent.advances.cfg] at hprim hrep
    rw [hsilent.view] at hrep
    refine ⟨n.next.1, ?_⟩
    rw [← hw]
    exact replicate_coordinates (hsilent.advances.trans hloc) net replies rfl rfl hprim hrep

end Coordinator

end Node

section Delivery
variable {nodes : NodeID → Node K V} {me : NodeID} {k : K} {hint : Hint} {w : Written K V}
  {replays delivered : List (NodeID × Msg)} {P : Option (V × Int) → Prop} {net : Network}

/-- Nodes that get the message hold its entry; the others are as before. -/
theorem deliverTo_spec (hint : Hint) (hready : ∀ id, (nodes id).Ready)
    (hk : ∀ id, (nodes id).kc.DecodeKey (Node.hintKey hint) = .ok k)
    (hmsg : ∀ x ∈ delivered, (∃ reqID, x.2 = hint.toMsg reqID) ∧ (nodes x.1).Applies x.2)
    (id : NodeID) :
    Node.Advances (nodes id) (deliverTo nodes delivered id) ∧
      ((∀ m, (id, m) ∉ delivered) → deliverTo nodes delivered id = nodes id) ∧
      ((∃ m, (id, m) ∈ delivered) → (deliverTo nodes delivered id).localCache.view k =
        Node.entryOf (nodes id).codec (nodes id).ext hint) := by
  induction delivered generalizing nodes with
  | nil =>
    exact ⟨Node.Advances.refl (hready id), fun _ => rfl, fun ⟨m, hm⟩ => absurd hm not_mem_nil⟩
  | cons x delivered ih =>
    obtain ⟨⟨reqID, hx⟩, happ⟩ := hmsg x mem_cons_self
    rw [hx] at happ
    obtain ⟨hadv, hview, hagain⟩ := Node.handle_applied (hready x.1) happ (hk x.1)
    rw [← hx] at hadv hview hagain
    have hstep : ∀ id, Node.Advances (nodes id) (update nodes x.1 ((nodes x.1).handle x.2) id) := by
      intro id
      by_cases hid : id = x.1
      · subst hid
        rw [update_self]
        exact hadv
      · rw [update_of_ne hid]
        exact Node.Advances.refl (hready id)
    obtain ⟨hadv', hsame, hreached⟩ := ih (fun id => (hstep id).ready)
      (fun id => by rw [(hstep id).kc]; exact hk id) (fun y hy => by
        obtain ⟨⟨reqID', hy'⟩, happ'⟩ := hmsg y (mem_cons_of_mem _ hy)
        refine ⟨⟨reqID', hy'⟩, ?_⟩
        by_cases hid : y.1 = x.1
        · rw [hid, update_self, hy']
          exact hagain reqID'
        · rw [update_of_ne hid]
          exact happ')
    refine ⟨(hstep id).trans hadv', fun hno => ?_, fun hyes => ?_⟩
    · have hid : id ≠ x.1 := by
        rintro rfl
        exact hno x.2 mem_cons_self
      refine (hsame fun m hm => hno m (mem_cons_of_mem _ hm)).trans ?_
      exact update_of_ne hid _ _
    · by_cases hlater : ∃ m, (id, m) ∈ delivered
      · rw [(hstep id).codec, (hstep id).ext] at hreached
        exact hreached hlater
      · obtain ⟨m, hm⟩ := hyes
        have hid : x.1 = id := by
          rcases mem_cons.mp hm with rfl | hm
          · rfl
          · exact absurd ⟨m, hm⟩ hlater
        subst hid
        have hsame' := hsame fun m hm => hlater ⟨m, hm⟩
        rw [update_self] at hsame'
        exact (congrArg (fun n => n.localCache.view k) hsame').trans hview

structure Settled (nodes : NodeID → Node K V) (me : NodeID) (k : K)
    (P : Option (V × Int) → Prop) (w : Written K V) (delivered : List (NodeID × Msg)) :
    Prop where
  advances : ∀ id, Node.Advances (nodes id) (afterWrite nodes me w delivered id)
  coordinator : afterWrite nodes me w delivered me = w.node
  reached : ∀ id m, (id, m) ∈ delivered →
    P ((afterWrite nodes me w delivered id).localCache.view k)
  others : ∀ id, id ≠ me → (∀ m, (id, m) ∉ delivered) →
    afterWrite nodes me w delivered id = nodes id

theorem Delivery.settled (hd : Delivery nodes w replays delivered) (hc : Cluster nodes me)
    (hw : Node.Coordinates (nodes me) net k P hint w) :
    Settled nodes me k P w delivered := by
  have hmsgs : ∀ x ∈ delivered, x.1 ≠ me ∧ ∃ reqID, x.2 = hint.toMsg reqID := by
    intro x hx
    rcases (hd.arrived x).mp hx with hsent | hrep
    · have hs := hw.spreads.sent x hsent
      rw [hc.ID] at hs
      exact ⟨hs.1, hs.2.2⟩
    · obtain ⟨hint', reqID, hmem, hmsg⟩ := hd.hinted x hrep
      obtain ⟨hne, heq⟩ := hw.spreads.hints _ hmem
      rw [hc.ID] at hne
      simp only at heq
      subst heq
      exact ⟨hne, reqID, hmsg⟩
  have hstep : ∀ id, Node.Advances (nodes id) (update nodes me w.node id) := by
    intro id
    by_cases hid : id = me
    · subst hid
      rw [update_self]
      exact hw.advances
    · rw [update_of_ne hid]
      exact Node.Advances.refl (hc.ready id)
  have hspec := deliverTo_spec (k := k) hint (fun id => (hstep id).ready) (fun id => by
      rw [(hstep id).kc, hc.kc, hw.key]
      exact hc.keys.decode_encode k) (fun x hx => by
        obtain ⟨hne, hmsg⟩ := hmsgs x hx
        refine ⟨hmsg, ?_⟩
        rw [update_of_ne hne]
        exact hd.applied x hx)
  refine ⟨fun id => (hstep id).trans (hspec id).1, ?_, fun id m hm => ?_, fun id hne hno => ?_⟩
  · refine ((hspec me).2.1 fun m hm => (hmsgs _ hm).1 rfl).trans ?_
    exact update_self ..
  · have hview := (hspec id).2.2 ⟨m, hm⟩
    rw [(hstep id).codec, (hstep id).ext, hc.codec, hc.ext] at hview
    rw [afterWrite, hview]
    exact hw.entry
  · refine ((hspec id).2.1 hno).trans ?_
    exact update_of_ne hne _ _

/-- All owners hold what was written exactly if those that were not reached did so before. -/
theorem Settled.owners_iff (h : Settled nodes me k P w delivered) (hc : Cluster nodes me)
    (hw : Node.Coordinates (nodes me) net k P hint w)
    (hd : Delivery nodes w replays delivered) :
    (∀ o ∈ (nodes me).owners k, P ((afterWrite nodes me w delivered o.ID).localCache.view k)) ↔
    ∀ o ∈ (nodes me).owners k,
      ¬ Reached (nodes me) net k replays o.ID → P ((nodes o.ID).localCache.view k) := by
  refine forall₂_congr fun o ho => ?_
  by_cases hself : o.ID = me
  · rw [Reached, hself, hc.ID, if_pos rfl, h.coordinator]
    constructor
    · intro hP hprim
      rw [← hw.replica (Bool.eq_false_of_not_eq_true hprim)]
      exact hP
    · intro hP
      by_cases hprim : (nodes me).isPrimary ((nodes me).owners k) = true
      · exact hw.primary hprim
      · rw [hw.replica (Bool.eq_false_of_not_eq_true hprim)]
        exact hP hprim
  · rw [Reached, hc.ID, if_neg hself]
    constructor
    · intro hP hnot
      have hno : ∀ m, (o.ID, m) ∉ delivered := by
        intro m hm
        rcases (hd.arrived _).mp hm with hsent | hrep
        · exact hnot (.inl (hw.spreads.sent _ hsent).2.1)
        · exact hnot (.inr ⟨m, hrep⟩)
      rw [← h.others o.ID hself hno]
      exact hP
    · intro hP
      by_cases hgot : ∃ m, (o.ID, m) ∈ delivered
      · obtain ⟨m, hm⟩ := hgot
        exact h.reached o.ID m hm
      · have hno : ∀ m, (o.ID, m) ∉ delivered := fun m hm => hgot ⟨m, hm⟩
        rw [h.others o.ID hself hno]
        refine hP ?_
        rintro (hcon | ⟨m, hm⟩)
        · obtain ⟨m, hm⟩ := hw.spreads.connected o ho (by rw [hc.ID]; exact hself) hcon
          exact hno m ((hd.arrived _).mpr (.inl hm))
        · exact hno m ((hd.arrived _).mpr (.inr hm))

end Delivery

end Kioshun
