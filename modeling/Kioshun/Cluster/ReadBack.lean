import Kioshun.Cluster.Reach

/-!
# Reading back a write

After a write has been delivered, every owner that was reached holds it, and a
`Get` of the coordinator returns it. A coordinator that is an owner but not the
first one is not reached, and its `Get` goes on to return the old value.
-/

namespace Kioshun
open InMemoryCache Locked List

universe u v
variable {K : Type u} {V : Type v} [DecidableEq K]

namespace Node
variable {n n' : Node K V} {k : K} {net : Network}
  {reply : NodeID → MsgGet → Except String MsgGetResp} {bk : Bytes} {ids : List NodeID}

/-- A peer that holds the value and may send it does so. -/
theorem rpcGet_hit (h : n.Ready) {g : MsgGet} (hk : n.kc.DecodeKey g.Key = .ok k) {e : V × Int}
    (he : n.localCache.view k = some e) (hlive : live n.localCache.now.1 e = true)
    {bv : Bytes} (henc : n.codec.Encode e.1 = .ok bv)
    (hsize : tooLarge n.cfg.Sec.MaxValueSize bv = false) :
    (n.rpcGet g).1 = ⟨g.ID, true, (n.maybeCompress bv).1, 0, (n.maybeCompress bv).2, ""⟩ := by
  have hget := Get_of_live h.valid h.isOpen he hlive
  simp only [rpcGet, hk, hget, henc, hsize]
  rfl

theorem rpcGet_miss (h : n.Ready) {g : MsgGet} (hk : n.kc.DecodeKey g.Key = .ok k)
    (he : n.localCache.view k = none) :
    (n.rpcGet g).1 = ⟨g.ID, false, [], 0, false, ErrNotFound⟩ := by
  have hget := Get_of_absent h.valid h.isOpen he
  simp only [rpcGet, hk, hget]

section
omit [DecidableEq K]

/-- All connected peers answer with the value, and one is connected. -/
theorem awaitLegs_hit {v : V} (hsome : ∃ id ∈ ids, net.connected id = true)
    (hreply : ∀ id ∈ ids, net.connected id = true → ∀ reqID, ∃ resp,
      reply id ⟨reqID, bk⟩ = .ok resp ∧ resp.Err = "" ∧ resp.Found = true ∧
        n.readHit resp.Val resp.Cp = .ok (some v)) (clean : Bool) (lastErr : Option String) :
    (n.awaitLegs net reply bk clean lastErr ids).1 = .ok (some v) := by
  induction ids generalizing n clean lastErr with
  | nil =>
    obtain ⟨id, hid, -⟩ := hsome
    exact absurd hid not_mem_nil
  | cons id ids ih =>
    by_cases hcon : net.connected id = true
    · obtain ⟨resp, hresp, herr, hfound, hread⟩ :=
        hreply id mem_cons_self hcon n.nextReqID.1
      simp only [awaitLegs, startLeg, hcon, if_true, hresp, herr, hfound, ne_eq, not_true_eq_false,
        if_false]
      exact hread
    · have hrest : ∃ id ∈ ids, net.connected id = true := by
        obtain ⟨id', hid', hcon'⟩ := hsome
        rcases mem_cons.mp hid' with rfl | hid'
        · exact absurd hcon' hcon
        · exact ⟨id', hid', hcon'⟩
      simp only [awaitLegs, startLeg, hcon]
      exact ih hrest (fun id' hid' => hreply id' (mem_cons_of_mem _ hid')) _ _

/-- All connected peers answer that they do not have the key. -/
theorem awaitLegs_miss
    (hreply : ∀ id ∈ ids, net.connected id = true → ∀ reqID, ∃ resp,
      reply id ⟨reqID, bk⟩ = .ok resp ∧ resp.Err = ErrNotFound) (clean : Bool)
    (lastErr : Option String) (v : V) :
    (n.awaitLegs net reply bk clean lastErr ids).1 ≠ .ok (some v) := by
  induction ids generalizing n clean lastErr with
  | nil =>
    unfold awaitLegs
    split
    · intro h
      cases h
    · intro h
      cases h
  | cons id ids ih =>
    have hrest := fun id' hid' => hreply id' (mem_cons_of_mem id hid')
    by_cases hcon : net.connected id = true
    · obtain ⟨resp, hresp, herr⟩ := hreply id mem_cons_self hcon n.nextReqID.1
      simp only [awaitLegs, startLeg, hcon, if_true, hresp, herr]
      exact ih hrest _ _
    · simp only [awaitLegs, startLeg, hcon]
      exact ih hrest _ _

theorem mem_candidates {owners : List NodeMeta} {id : NodeID} :
    id ∈ n.candidates net owners ↔ (∃ o ∈ owners, o.ID = id) ∧ id ≠ n.cfg.ID := by
  simp only [candidates, mem_append, mem_filter, mem_map, decide_eq_true_eq]
  cases net.connected id && !net.penalized id <;> simp

end

/-- An owner answers from its own copy. -/
theorem Get_local (h : n.Ready) {o : NodeMeta} (ho : o ∈ n.owners k) (hid : o.ID = n.cfg.ID)
    {e : V × Int} (he : n.localCache.view k = some e)
    (hlive : live n.localCache.now.1 e = true) :
    (n.Get net reply k).1 = .ok (some e.1) := by
  have hget := Get_of_live h.valid h.isOpen he hlive
  have hne : (n.owners k).isEmpty = false :=
    isEmpty_eq_false_iff.mpr (ne_nil_of_mem ho)
  have hown : ((n.owners k).any fun own => own.ID == n.cfg.ID) = true :=
    any_eq_true.mpr ⟨o, ho, beq_iff_eq.mpr hid⟩
  simp only [Get, hne, hown, hget, Bool.false_eq_true, if_false, if_true]

/-- A node without a copy of its own asks the other owners. -/
theorem Get_legs (h : n.Ready) (net : Network)
    (reply : NodeID → MsgGet → Except String MsgGetResp) (hne : n.owners k ≠ [])
    (hmiss : (∃ o ∈ n.owners k, o.ID = n.cfg.ID) → n.localCache.view k = none) :
    ∃ n', Advances n n' ∧ (n.Get net reply k).1 =
      (n'.awaitLegs net reply (n.kc.EncodeKey k) false none
        (n.candidates net (n.owners k))).1 := by
  have hempty : (n.owners k).isEmpty = false := isEmpty_eq_false_iff.mpr hne
  by_cases hown : ((n.owners k).any fun own => own.ID == n.cfg.ID) = true
  · obtain ⟨o, ho, hid⟩ := any_eq_true.mp hown
    have hget := Get_of_absent h.valid h.isOpen (hmiss ⟨o, ho, beq_iff_eq.mp hid⟩)
    refine ⟨{ n with localCache := (n.localCache.Get k).2 },
      h.advances (get_spec h.valid h.isOpen k).1, ?_⟩
    simp only [Get, hempty, hown, hget, Bool.false_eq_true, if_false, if_true]
  · refine ⟨n, Advances.refl h, ?_⟩
    simp only [Get, hempty, hown, Bool.false_eq_true, if_false]

omit [DecidableEq K] in
theorem exists_of_isPrimary {owners : List NodeMeta} (h : n.isPrimary owners = true) :
    ∃ o ∈ owners, o.ID = n.cfg.ID := by
  cases owners with
  | nil => cases h
  | cons o os => exact ⟨o, mem_cons_self, beq_iff_eq.mp h⟩

omit [DecidableEq K] in
theorem maybeDecompress_congr (h : n'.ext = n.ext) (b : Bytes) (cp : Bool) :
    n'.maybeDecompress b cp = n.maybeDecompress b cp := by
  simp only [maybeDecompress, h]

theorem Advances.owners (h : Advances n n') (k : K) : n'.owners k = n.owners k := by
  simp only [Node.owners, hash64Of, h.ring, h.kc, h.ext]

end Node

section ReadBack
variable {nodes : NodeID → Node K V} {me : NodeID} {k : K} {hint : Hint} {w : Written K V}
  {replays delivered : List (NodeID × Msg)} {P : Option (V × Int) → Prop} {net : Network}

def answers (nodes : NodeID → Node K V) (id : NodeID) (g : MsgGet) : Except String MsgGetResp :=
  .ok ((nodes id).rpcGet g).1

/-- A write that has returned without an error has an owner. -/
theorem owners_ne_nil (hw : Node.Coordinates (nodes me) net k P hint w)
    (hok : w.result = .ok ()) : (nodes me).owners k ≠ [] := by
  intro hnil
  have hprim : (nodes me).isPrimary ((nodes me).owners k) = false := by
    rw [hnil]
    rfl
  obtain ⟨o, ho, -⟩ := hw.spreads.acknowledged hok hprim
  rw [hnil] at ho
  exact absurd ho not_mem_nil

variable [Inhabited V]

section
variable (hc : Cluster nodes me)
include hc

omit [Inhabited V] in
/-- What a peer has taken over is within its limits when it is read. -/
theorem Delivery.withinLimits {bv : Bytes} {exp : Int} {ver : UInt64}
    (hw : Node.Coordinates (nodes me) net k P (.set ((nodes me).kc.EncodeKey k)
      ((nodes me).maybeCompress bv).1 exp ver ((nodes me).maybeCompress bv).2) w)
    (hd : Delivery nodes w replays delivered) {id : NodeID} {m : Msg} (hm : (id, m) ∈ w.sent) :
    Node.tooLarge (nodes id).cfg.Sec.MaxValueSize bv = false := by
  obtain ⟨-, -, reqID, rfl⟩ := hw.spreads.sent _ hm
  obtain ⟨⟨k', vbytes, v', hcheck, -⟩, -⟩ := hd.applied _ ((hd.arrived _).mpr (.inl hm))
  obtain ⟨-, -, hinf, -⟩ := Node.checkSet_eq_ok.mp hcheck
  obtain ⟨hdec, hsize⟩ := Node.inflate_eq_ok.mp hinf
  rw [Node.maybeDecompress_congr (hc.ext id), Node.maybeDecompress_maybeCompress hc.gzip] at hdec
  obtain rfl := Except.ok.inj hdec
  exact hsize

/-- When all owners hold the value of a `Set`, a `Get` of the coordinator returns it. -/
theorem Get_after_Set {v : V} {bv : Bytes} {exp : Int} {ver : UInt64}
    (henc : (nodes me).codec.Encode v = .ok bv)
    (hw : Node.Coordinates (nodes me) net k P (.set ((nodes me).kc.EncodeKey k)
      ((nodes me).maybeCompress bv).1 exp ver ((nodes me).maybeCompress bv).2) w)
    (hd : Delivery nodes w replays delivered) (hs : Settled nodes me k P w delivered)
    (hall : ∀ o ∈ (nodes me).owners k, ∃ exp,
      (afterWrite nodes me w delivered o.ID).localCache.view k = some (v, exp) ∧
        live (afterWrite nodes me w delivered o.ID).localCache.now.1 (v, exp) = true) :
    ((afterWrite nodes me w delivered me).Get net (answers (afterWrite nodes me w delivered))
      k).1 = .ok (some v) := by
  have hadv := hs.advances me
  have howners := hadv.owners k
  by_cases hmine : ∃ o ∈ (nodes me).owners k, o.ID = me
  · obtain ⟨o, ho, hid⟩ := hmine
    obtain ⟨exp', hview, hlive⟩ := hall o ho
    rw [hid] at hview hlive
    refine Node.Get_local hadv.ready (o := o) ?_ ?_ hview hlive
    · rw [howners]
      exact ho
    · rw [hadv.cfg, hc.ID]
      exact hid
  · -- a coordinator that is no owner has waited for the answer of a connected one
    have hprim : (nodes me).isPrimary ((nodes me).owners k) = false := by
      refine Bool.eq_false_of_not_eq_true fun ht => hmine ?_
      have hexists := Node.exists_of_isPrimary ht
      rw [hc.ID] at hexists
      exact hexists
    obtain ⟨n', hadv', hget⟩ := Node.Get_legs (k := k) hadv.ready net
      (answers (afterWrite nodes me w delivered)) (by
        rw [howners]
        exact owners_ne_nil hw hd.returned) (by
        rw [howners, hadv.cfg, hc.ID]
        exact fun h => absurd h hmine)
    rw [hget, howners]
    refine Node.awaitLegs_hit ?_ (fun id hid hcon reqID => ?_) _ _
    · obtain ⟨o, ho, hne, hcon⟩ := hw.spreads.acknowledged hd.returned hprim
      refine ⟨o.ID, Node.mem_candidates.mpr ⟨⟨o, ho, rfl⟩, ?_⟩, hcon⟩
      rw [hadv.cfg]
      exact hne
    · obtain ⟨⟨o, ho, rfl⟩, hne⟩ := Node.mem_candidates.mp hid
      rw [hadv.cfg] at hne
      obtain ⟨exp', hview, hlive⟩ := hall o ho
      obtain ⟨m, hm⟩ := hw.spreads.connected o ho hne hcon
      have hpeer := hs.advances o.ID
      have hhit := Node.rpcGet_hit hpeer.ready (g := ⟨reqID, (nodes me).kc.EncodeKey k⟩) (by
          rw [hpeer.kc, hc.kc]
          exact hc.keys.decode_encode k) hview hlive (by
          rw [hpeer.codec, hc.codec]
          exact henc) (by
          rw [hpeer.cfg]
          exact hd.withinLimits hc hw hm)
      have hext : n'.ext = (afterWrite nodes me w delivered o.ID).ext := by
        rw [(hadv.trans hadv').ext, hpeer.ext, hc.ext o.ID]
      rw [hadv.kc]
      refine ⟨_, congrArg Except.ok hhit, rfl, rfl, ?_⟩
      rw [Node.readHit, Node.maybeDecompress_congr hext,
        Node.maybeDecompress_maybeCompress (by rw [hpeer.ext, hc.ext]; exact hc.gzip)]
      simp only [(hadv.trans hadv').codec, hc.values v bv henc]

/-- When no owner holds the key, a `Get` of the coordinator does not find it. -/
theorem Get_after_Delete (hw : Node.Coordinates (nodes me) net k P hint w) (hok : w.result = .ok ())
    (hs : Settled nodes me k P w delivered)
    (hall : ∀ o ∈ (nodes me).owners k, (afterWrite nodes me w delivered o.ID).localCache.view k =
      none)
    (v : V) :
    ((afterWrite nodes me w delivered me).Get net (answers (afterWrite nodes me w delivered))
      k).1 ≠ .ok (some v) := by
  have hadv := hs.advances me
  have howners := hadv.owners k
  obtain ⟨n', hadv', hget⟩ := Node.Get_legs (k := k) hadv.ready net
    (answers (afterWrite nodes me w delivered)) (by
      rw [howners]
      exact owners_ne_nil hw hok) (by
      rw [howners, hadv.cfg, hc.ID]
      rintro ⟨o, ho, rfl⟩
      exact hall o ho)
  rw [hget, howners]
  refine Node.awaitLegs_miss (fun id hid _ reqID => ?_) _ _ v
  obtain ⟨⟨o, ho, rfl⟩, -⟩ := Node.mem_candidates.mp hid
  have hpeer := hs.advances o.ID
  have hmiss := Node.rpcGet_miss hpeer.ready (k := k) (g := ⟨reqID, (nodes me).kc.EncodeKey k⟩) (by
    rw [hpeer.kc, hc.kc]
    exact hc.keys.decode_encode k) (hall o ho)
  rw [hadv.kc]
  exact ⟨_, congrArg Except.ok hmiss, rfl⟩

end

/-- A write that has returned and whose messages have arrived is held by all owners exactly if
the owners that it did not reach have held it before: the coordinator when it is an owner but not
the first one, and peers without a connection whose hint has not been replayed. A write that all
owners hold is what the coordinator reads back. -/
theorem write_reaches_iff (hc : Cluster nodes me) (net : Network)
    (replies : NodeID → Except String Ack) (k : K) (replays delivered : List (NodeID × Msg)) :
    (∀ v ttl, HasRoom (nodes me).localCache k →
      Delivery nodes ((nodes me).Set net replies k v ttl) replays delivered →
      ((∀ o ∈ (nodes me).owners k, ∃ exp,
          (afterWrite nodes me ((nodes me).Set net replies k v ttl) delivered o.ID).localCache.view
            k = some (v, exp)) ↔
        ∀ o ∈ (nodes me).owners k, ¬ Reached (nodes me) net k replays o.ID →
          ∃ exp, (nodes o.ID).localCache.view k = some (v, exp)) ∧
      let after := afterWrite nodes me ((nodes me).Set net replies k v ttl) delivered
      ((∀ o ∈ (nodes me).owners k, ∃ exp, (after o.ID).localCache.view k = some (v, exp) ∧
          live (after o.ID).localCache.now.1 (v, exp) = true) →
        ((after me).Get net (answers after) k).1 = .ok (some v))) ∧
    (Delivery nodes ((nodes me).Delete net replies k) replays delivered →
      ((∀ o ∈ (nodes me).owners k,
          (afterWrite nodes me ((nodes me).Delete net replies k) delivered o.ID).localCache.view
            k = none) ↔
        ∀ o ∈ (nodes me).owners k, ¬ Reached (nodes me) net k replays o.ID →
          (nodes o.ID).localCache.view k = none) ∧
      let after := afterWrite nodes me ((nodes me).Delete net replies k) delivered
      ((∀ o ∈ (nodes me).owners k, (after o.ID).localCache.view k = none) →
        ∀ v, ((after me).Get net (answers after) k).1 ≠ .ok (some v))) := by
  constructor
  · intro v ttl hroom hd
    obtain ⟨bv, exp, ver, henc, hw⟩ := Node.Set_coordinates (hc.ready me) hc.values hc.gzip hroom
      hd.returned
    have hs := hd.settled hc hw
    exact ⟨hs.owners_iff hc hw hd, Get_after_Set hc henc hw hd hs⟩
  · intro hd
    obtain ⟨ver, hw⟩ := Node.Delete_coordinates (hc.ready me) hd.returned
    have hs := hd.settled hc hw
    exact ⟨hs.owners_iff hc hw hd, Get_after_Delete hc hw hd.returned hs⟩

def pairRing : Ring := ⟨[⟨[1], 0, 0⟩, ⟨[2], 1, 0⟩], 2⟩

def allConnected : Network := ⟨fun _ => true, fun _ => false, true⟩

theorem write_reaches_primary :
    let nodes := fun id => Node.plain id pairRing (Node.freshCache fun n => n)
    let w := (nodes [2]).Set allConnected (fun _ => .ok ⟨0, true, ""⟩) 7 20 0
    ∀ o ∈ (nodes [2]).owners 7, ∃ exp,
      (afterWrite nodes [2] w w.sent o.ID).localCache.view 7 = some (20, exp) := by
  intro nodes w
  have hrep : ∀ id, Node.Replica (nodes id) := fun id => Node.plain_replica _ id pairRing
  have hcluster : Cluster nodes [2] :=
    ⟨rfl, fun id => (hrep id).ready, fun _ => rfl, fun _ => rfl, fun _ => rfl, (hrep [2]).lawful,
      fun v b hb => by cases hb; rfl, fun _ => rfl⟩
  have hrun : w.result = .ok () ∧ (nodes [2]).owners 7 = [⟨[2], 1, 0⟩, ⟨[1], 0, 0⟩] := by
    decide +kernel
  obtain ⟨hreturned, howners⟩ := hrun
  obtain ⟨bv, exp, ver, hbv, hw⟩ := Node.Set_coordinates (hcluster.ready [2]) hcluster.values
    hcluster.gzip (.inl (hrep [2]).unbounded) hreturned
  have hd : Delivery nodes w [] w.sent := by
    refine ⟨hreturned, fun x hx => absurd hx not_mem_nil, fun x => by simp, fun x hx => ?_⟩
    obtain ⟨-, -, reqID, hmsg⟩ := hw.spreads.sent x hx
    cases hbv
    rw [hmsg]
    refine ⟨⟨7, [20], 20, rfl, rfl⟩, ?_⟩
    show (true && decide (ver < 0)) = false
    rw [decide_eq_false UInt64.not_lt_zero, Bool.and_false]
  refine ((write_reaches_iff hcluster allConnected _ 7 [] _).1 20 0 (.inl (hrep [2]).unbounded)
    hd).1.mpr fun o ho hnot => ?_
  refine absurd ?_ hnot
  have hmem : o ∈ [(⟨[2], 1, 0⟩ : NodeMeta), ⟨[1], 0, 0⟩] := howners ▸ ho
  rw [Reached, howners]
  simp only [mem_cons, not_mem_nil, or_false] at hmem
  rcases hmem with rfl | rfl
  · rfl
  · exact .inl rfl

def heldByBoth (c : InMemoryCache UInt8 UInt8) (id : NodeID) : Node UInt8 UInt8 :=
  (Node.plain id pairRing c).deliver [.set ⟨1, [7], [10], 0, 1, false⟩]

theorem heldByBoth_advances (reading : Nat → Int) (id : NodeID) :
    Node.Advances (Node.plain id pairRing (Node.freshCache reading))
      (heldByBoth (Node.freshCache reading) id) := by
  refine (Node.deliver_performs (Node.plain_replica reading id pairRing) fun m hm => ?_).advances
  rw [mem_singleton.mp hm]
  exact ⟨7, [10], 10, rfl, rfl⟩

set_option synthInstance.maxSize 400 in
/-- The coordinator is the second owner. Its `Set` and its `Delete` return without an error and
reach the first owner; it keeps the old value itself and goes on to return it. -/
theorem later_owner_stale :
    let nodes := heldByBoth (Node.freshCache fun n => n)
    let set := (nodes [1]).Set allConnected (fun _ => .ok ⟨0, true, ""⟩) 7 20 0
    let del := (nodes [1]).Delete allConnected (fun _ => .ok ⟨0, true, ""⟩) 7
    [set, del].map (fun w =>
      let after := afterWrite nodes [1] w w.sent
      (w.result, [[2], [1]].map fun id => (after id).localCache.view 7,
        ((after [1]).Get allConnected (answers after) 7).1)) =
    [(.ok (), [some (20, 0), some (10, 0)], .ok (some 10)),
      (.ok (), [none, some (10, 0)], .ok (some 10))] := by decide +kernel

end ReadBack

end Kioshun
