import Kioshun.Cluster.MembershipSpec
import Kioshun.Lib.Schedule

/-!
# Nodes that gossip

Any number of nodes send each other what they know. Each operation of the membership
runs under its lock, and between any two of them every other operation of any node may
come in, those of other handlers of the same node too. Messages that have been sent may
arrive late, in any order, several times, at any node, or never.
-/

namespace Kioshun
open List

namespace Membership

/-- The message that `sendGossip` makes of a snapshot. The map is visited in the order that `pick`
decides. The snapshot has the pointers of the membership, and the addresses are read when the lock
is not held any more: `addr` is what the objects hold by then. -/
def sendGossip (m : Membership) (cfg : MemberConfig) (addr : Nat → String) (Load : NodeLoad)
    (TopK : List HotKey) (pick : Nat → Nat) : MsgGossip where
  FromID := cfg.ID
  FromAddr := cfg.PublicURL
  Seen := m.seen
  Peers := (Iteration.shuffle pick m.peers).map fun t => ⟨t.1, addr t.2⟩
  Load := Load
  TopK := TopK
  Epoch := m.epoch

end Membership

structure GossipNet (ι : Type) where
  mem : ι → Membership
  sent : List MsgGossip

namespace GossipNet
variable {ι : Type} [DecidableEq ι] (Sum64 : Bytes → UInt64) (cfg : ι → MemberConfig)

/-- The operations of a membership, with the readings of the clock. A Hello and `ensureSeed` are an
`ensure`; `ingestGossip` is an `ensure`, the delivery of the message and a `setWeight`; a tick is a
`prune` and perhaps a `bumpEpoch`; `Start` is an `ensure` and a `prime`. -/
inductive Event (ι : Type) where
  | ensure (i : ι) (id : NodeID) (addr : String) (now : Int)
  | prime (i : ι)
  | deliver (i : ι) (k : Nat) (now : Int)
  | setWeight (i : ι) (id : NodeID) (weight : UInt64)
  | prune (i : ι) (now tombstoneAfter : Int)
  | bumpEpoch (i : ι)
  | send (i : ι) (addr : Nat → String) (Load : NodeLoad) (TopK : List HotKey) (pick : Nat → Nat)

def start : GossipNet ι := ⟨fun _ => Membership.newMembership, []⟩

def update (s : GossipNet ι) (i : ι) (m : Membership) : GossipNet ι :=
  { s with mem := Function.update s.mem i m }

def step (s : GossipNet ι) : Event ι → GossipNet ι
  | .ensure i id addr now => s.update i ((s.mem i).ensure Sum64 id addr now)
  | .prime i =>
    s.update i ((s.mem i).alloc (Membership.newMeta Sum64 (cfg i).ID (cfg i).PublicURL)).2
  | .deliver i k now =>
    match s.sent[k]? with
    | none => s
    | some g =>
      s.update i ((s.mem i).integrate Sum64 g.FromID g.FromAddr g.Peers g.Seen g.Epoch now)
  | .setWeight i id weight => s.update i ((s.mem i).setWeight id weight)
  | .prune i now tombstoneAfter => s.update i ((s.mem i).pruneTombstones now tombstoneAfter)
  | .bumpEpoch i => s.update i (s.mem i).bumpEpoch
  | .send i addr Load TopK pick =>
    { s with sent := s.sent ++ [(s.mem i).sendGossip (cfg i) addr Load TopK pick] }

def exec (s : GossipNet ι) (es : List (Event ι)) : GossipNet ι :=
  Schedule.exec (step Sum64 cfg) s es

end GossipNet

/-- The peers of a message and its timestamps are about the same nodes. -/
def MsgGossip.SameKeys (g : MsgGossip) : Prop :=
  ∀ id, (∃ x ∈ g.Peers, x.ID = id) ↔ (g.Seen id).isSome

namespace Membership
variable {Sum64 : Bytes → UInt64} {m : Membership} {id : NodeID}

def Listed (m : Membership) (id : NodeID) : Prop := (m.peers.lookup id).isSome

def SameKeys (m : Membership) : Prop := ∀ id, m.Listed id ↔ (m.seen id).isSome

section Keys

theorem listed_iff : m.Listed id ↔ ∃ p, (id, p) ∈ m.peers := by
  constructor
  · intro h
    obtain ⟨p, hp⟩ := Option.isSome_iff_exists.mp h
    exact ⟨p, mem_of_lookup hp⟩
  · rintro ⟨p, hp⟩
    cases hlook : m.peers.lookup id with
    | none => exact absurd hp (not_mem_of_lookup hlook)
    | some q => exact Option.isSome_iff_exists.mpr ⟨q, hlook⟩

variable (x : NodeID) (a : String)

theorem listed_add : (m.add Sum64 x a).Listed id ↔ m.Listed id ∨ id = x := by
  have hmem : ∀ p, (id, p) ∈ (m.add Sum64 x a).peers ↔
      (id, p) ∈ m.peers ∨ id = x ∧ p = m.nextMeta := by
    intro p
    show (id, p) ∈ m.peers ++ [(x, m.nextMeta)] ↔ _
    simp
  simp only [listed_iff, hmem, exists_or, exists_and_left, exists_eq, and_true]

theorem listed_insert {x : NodeID} {p : Nat} (h : m.peers.lookup x = some p) :
    m.Listed id ↔ m.Listed id ∨ id = x := by
  refine ⟨.inl, ?_⟩
  rintro (hid | rfl)
  · exact hid
  · exact Option.isSome_iff_exists.mpr ⟨p, h⟩

theorem listed_learn : (m.learn Sum64 x a).Listed id ↔ m.Listed id ∨ id = x := by
  unfold learn
  cases hlook : m.peers.lookup x with
  | none => exact listed_add x a
  | some p => exact listed_insert hlook

theorem listed_foldl_learn (l : List PeerInfo) :
    (l.foldl (fun m p => m.learn Sum64 p.ID p.Addr) m).Listed id ↔
      m.Listed id ∨ ∃ x ∈ l, x.ID = id := by
  induction l generalizing m with
  | nil => simp
  | cons x l ih =>
    simp only [foldl_cons, ih, listed_learn, mem_cons, exists_eq_or_imp, or_assoc,
      eq_comm (a := id)]

theorem listed_ensure (now : Int) : (m.ensure Sum64 x a now).Listed id ↔ m.Listed id ∨ id = x := by
  unfold ensure
  cases hlook : m.peers.lookup x with
  | none => exact listed_add x a
  | some p => exact listed_insert hlook

theorem listed_integrate (peers : List PeerInfo) (seen : NodeID → Option Int) (epoch : UInt64)
    (now : Int) :
    (m.integrate Sum64 x a peers seen epoch now).Listed id ↔
      (m.Listed id ∨ id = x) ∨ ∃ y ∈ peers, y.ID = id := by
  have hepoch : (if m.epoch < epoch then { m with epoch := epoch } else m).Listed id ↔
      m.Listed id := by
    split <;> rfl
  apply (listed_foldl_learn peers).trans
  apply or_congr_left
  exact (listed_learn x a).trans (or_congr_left hepoch)

theorem isSome_update {seen : NodeID → Option Int} (ts : Int) :
    (Function.update seen x (some ts) id).isSome ↔ (seen id).isSome ∨ id = x := by
  by_cases hid : id = x
  · simp [hid]
  · simp [hid]

theorem isSome_mergeSeen (old new : NodeID → Option Int) :
    (mergeSeen old new id).isSome ↔ (old id).isSome ∨ (new id).isSome := by
  unfold mergeSeen
  cases hnew : new id with
  | none => simp
  | some ts =>
    cases hold : old id with
    | none => simp
    | some ts' => simp only; split <;> simp

end Keys

theorem newMembership_sameKeys : newMembership.SameKeys := by
  intro id
  simp [Listed, newMembership]

theorem SameKeys.of_eq {m' : Membership} (h : m.SameKeys) (hpeers : m'.peers = m.peers)
    (hseen : m'.seen = m.seen) : m'.SameKeys := by
  intro id
  rw [Listed, hpeers, hseen]
  exact h id

theorem SameKeys.ensure (h : m.SameKeys) (x : NodeID) (a : String) (now : Int) :
    (m.ensure Sum64 x a now).SameKeys := by
  intro id
  rw [listed_ensure, seen_ensure, isSome_update, h id]

theorem SameKeys.integrate (h : m.SameKeys) {g : MsgGossip} (hg : g.SameKeys) (now : Int) :
    (m.integrate Sum64 g.FromID g.FromAddr g.Peers g.Seen g.Epoch now).SameKeys := by
  intro id
  rw [listed_integrate, seen_integrate, isSome_mergeSeen, isSome_update, h id, hg id]

theorem SameKeys.setWeight (h : m.SameKeys) (x : NodeID) (w : UInt64) :
    (m.setWeight x w).SameKeys :=
  have hw := setWeight_reweighs m x w
  h.of_eq hw.peers hw.seen

theorem listed_prune {now after : Int} : (m.pruneTombstones now after).Listed id ↔
    m.Listed id ∧ m.expired (wrap64 (now - after)) id = false := by
  simp only [listed_iff, mem_prune, exists_and_right]

theorem SameKeys.prune (h : m.SameKeys) (now after : Int) :
    (m.pruneTombstones now after).SameKeys := by
  intro id
  rw [listed_prune]
  show _ ↔ (if (m.peers.lookup id).isSome && m.expired (wrap64 (now - after)) id then none
    else m.seen id).isSome
  by_cases hid : m.Listed id
  · have hlook : (m.peers.lookup id).isSome = true := hid
    cases hexp : m.expired (wrap64 (now - after)) id with
    | true => simp [hlook]
    | false => simpa [hlook, hid] using (h id).mp hid
  · have hlook : (m.peers.lookup id).isSome = false := Bool.eq_false_iff.mpr hid
    have hseen : ¬(m.seen id).isSome := mt (h id).mpr hid
    simp [hlook, hid, hseen]

/-- A peer without a timestamp would never be pruned; there is none. -/
theorem SameKeys.fresh (h : m.SameKeys) {now after : Int}
    (hid : (m.pruneTombstones now after).Listed id) :
    ∃ ts, (m.pruneTombstones now after).seen id = some ts ∧ wrap64 (now - after) ≤ ts := by
  obtain ⟨hold, hexp⟩ := listed_prune.mp hid
  obtain ⟨ts, hts⟩ := Option.isSome_iff_exists.mp ((h id).mp hold)
  have hnew : (m.pruneTombstones now after).seen id = m.seen id := by
    simp [pruneTombstones, hexp]
  have hle : ¬ts < wrap64 (now - after) := by simpa [expired, hts] using hexp
  exact ⟨ts, hnew.trans hts, Int.not_lt.mp hle⟩

theorem sendGossip_sameKeys (h : m.SameKeys) (cfg : MemberConfig) (addr : Nat → String)
    (Load : NodeLoad) (TopK : List HotKey) (pick : Nat → Nat) :
    (m.sendGossip cfg addr Load TopK pick).SameKeys := by
  intro id
  show _ ↔ (m.seen id).isSome
  rw [← h id, listed_iff]
  constructor
  · rintro ⟨x, hx, rfl⟩
    obtain ⟨t, ht, rfl⟩ := mem_map.mp hx
    exact ⟨t.2, Iteration.mem_shuffle.mp ht⟩
  · rintro ⟨p, hp⟩
    exact ⟨⟨id, addr p⟩, mem_map.mpr ⟨(id, p), Iteration.mem_shuffle.mpr hp, rfl⟩, rfl⟩

end Membership

namespace GossipNet
variable {ι : Type} {s : GossipNet ι}

section Runs

structure Inv (s : GossipNet ι) : Prop where
  mem : ∀ i, (s.mem i).SameKeys
  sent : ∀ g ∈ s.sent, g.SameKeys

theorem start_inv : (start : GossipNet ι).Inv :=
  ⟨fun _ => Membership.newMembership_sameKeys, fun _ hg => absurd hg not_mem_nil⟩

variable [DecidableEq ι] {Sum64 : Bytes → UInt64} {cfg : ι → MemberConfig}

theorem Inv.update (h : s.Inv) {i : ι} {m : Membership} (hm : m.SameKeys) : (s.update i m).Inv := by
  refine ⟨fun j => ?_, h.sent⟩
  by_cases hj : j = i
  · subst hj
    simpa [GossipNet.update] using hm
  · simpa [GossipNet.update, hj] using h.mem j

theorem step_inv (h : s.Inv) (e : Event ι) : (s.step Sum64 cfg e).Inv := by
  cases e with
  | ensure i id addr now => exact h.update ((h.mem i).ensure id addr now)
  | prime i => exact h.update ((h.mem i).of_eq rfl rfl)
  | deliver i k now =>
    cases hk : s.sent[k]? with
    | none => simpa only [step, hk] using h
    | some g =>
      have hg := h.sent g (mem_of_getElem? hk)
      simpa only [step, hk] using h.update ((h.mem i).integrate hg now)
  | setWeight i id weight => exact h.update ((h.mem i).setWeight id weight)
  | prune i now tombstoneAfter => exact h.update ((h.mem i).prune now tombstoneAfter)
  | bumpEpoch i => exact h.update ((h.mem i).of_eq rfl rfl)
  | send i addr Load TopK pick =>
    refine ⟨h.mem, fun g hg => ?_⟩
    rcases mem_append.mp hg with hold | hnew
    · exact h.sent g hold
    · obtain rfl := mem_singleton.mp hnew
      exact Membership.sendGossip_sameKeys (h.mem i) (cfg i) addr Load TopK pick

theorem exec_inv (h : s.Inv) (es : List (Event ι)) : (s.exec Sum64 cfg es).Inv :=
  Schedule.exec_invariant (fun _ e hs => step_inv hs e) h

/-- In every run, every node's `peers` and `seen` have the same keys, and what a tick leaves of its
peers has been seen since the threshold. -/
theorem peers_seen_same_keys (es : List (Event ι)) (i : ι) :
    (∀ id, (((start.exec Sum64 cfg es).mem i).peers.lookup id).isSome ↔
        (((start.exec Sum64 cfg es).mem i).seen id).isSome) ∧
      ∀ now tombstoneAfter id,
        ((((start.exec Sum64 cfg es).mem i).pruneTombstones now tombstoneAfter).peers.lookup
          id).isSome →
        ∃ ts, (((start.exec Sum64 cfg es).mem i).pruneTombstones now tombstoneAfter).seen id =
          some ts ∧ wrap64 (now - tombstoneAfter) ≤ ts := by
  have hinv : (start.exec Sum64 cfg es).Inv := exec_inv start_inv es
  have hi := hinv.mem i
  exact ⟨hi, fun now tombstoneAfter id hid => hi.fresh hid⟩

/-- A run of two nodes: one greets the other, gossips and is gossiped about. -/
theorem peers_seen_same_keys_pruned :
    let es : List (Event Bool) :=
      [.ensure false [1] "a" 10, .ensure true [2] "b" 20, .ensure false [2] "b" 90,
        .send true (fun _ => "b") ⟨0, 0, 0, 0⟩ [] id, .deliver false 0 95]
    let cfg : Bool → MemberConfig := fun i => ⟨if i then [2] else [1], "", 1, 0, 0, 0, ""⟩
    let m := (start.exec (fun _ => 0) cfg es).mem false
    (m.peers.map Prod.fst = [[1], [2]] ∧ (m.pruneTombstones 100 50).peers.map Prod.fst = [[2]]) ∧
      ∃ ts, (m.pruneTombstones 100 50).seen [2] = some ts ∧ wrap64 (100 - 50) ≤ ts :=
  ⟨by decide, (peers_seen_same_keys _ false).2 100 50 [2] (by decide)⟩

end Runs

section Handlers
variable [DecidableEq ι] {Sum64 : Bytes → UInt64} {cfg : ι → MemberConfig} {i : ι}

@[simp] theorem mem_update (m : Membership) : (s.update i m).mem i = m := Function.update_self ..

@[simp] theorem update_update (m m' : Membership) : (s.update i m).update i m' = s.update i m' := by
  simp [update]

@[simp] theorem sent_update (m : Membership) : (s.update i m).sent = s.sent := rfl

theorem update_mem : s.update i (s.mem i) = s := by
  simp [update]

theorem weightTick_mem {n : Member} (pick : Nat → Nat) :
    (n.weightTick pick).mem = n.mem.pruneTombstones n.wall.now.1 n.cfg.TombstoneAfter ∨
      (n.weightTick pick).mem =
        (n.mem.pruneTombstones n.wall.now.1 n.cfg.TombstoneAfter).bumpEpoch := by
  simp only [Member.weightTick, Member.noteRing]
  split
  · exact .inr rfl
  · exact .inl rfl

/-- A handler of a node is such operations, one after the other. -/
theorem exec_of_step {n : Member} (hmem : s.mem i = n.mem) (e : Member.Event)
    (hsent : ∀ g, e = .gossip g → g ∈ s.sent) :
    ∃ es, s.exec n.Sum64 cfg es = s.update i (n.step e).mem := by
  cases e with
  | hello h =>
    by_cases hauth : Member.authOK n.cfg h = true
    · refine ⟨[.ensure i h.FromID h.FromAddr n.wall.now.1], ?_⟩
      simp [exec, step, Member.step, Member.handleHello, hauth, hmem, Member.ensure]
    · refine ⟨[], ?_⟩
      simp [exec, Member.step, Member.handleHello, hauth, ← hmem, update_mem]
  | seed peerID addr =>
    refine ⟨[.ensure i peerID addr n.wall.now.1], ?_⟩
    simp [exec, step, Member.step, Member.ensureSeed, hmem, Member.ensure]
  | gossip g =>
    obtain ⟨k, hk⟩ := mem_iff_getElem?.mp (hsent g rfl)
    have hcore : (n.ingestGossip g).mem = _ := congrArg Prod.fst (Member.ingestGossip_core g)
    refine ⟨[.ensure i g.FromID g.FromAddr n.wall.now.2.now.1, .deliver i k n.wall.now.1,
      .setWeight i g.FromID (n.computeWeight g.Load)], ?_⟩
    simp [exec, step, Member.step, hmem, hk, hcore]
  | tick pick =>
    rcases weightTick_mem (n := n) pick with htick | htick
    · refine ⟨[.prune i n.wall.now.1 n.cfg.TombstoneAfter], ?_⟩
      simp [exec, step, Member.step, hmem, htick]
    · refine ⟨[.prune i n.wall.now.1 n.cfg.TombstoneAfter, .bumpEpoch i], ?_⟩
      simp [exec, step, Member.step, hmem, htick]

/-- So is `Start`. -/
theorem exec_of_start {n : Member} (hmem : s.mem i = n.mem) (hcfg : cfg i = n.cfg) :
    s.exec n.Sum64 cfg [.ensure i n.cfg.ID n.cfg.PublicURL n.wall.now.1, .prime i] =
      s.update i n.Start.mem := by
  simp [exec, step, hmem, hcfg, Member.Start, Member.prime, Member.ensure]

/-- What a node goes through is a run of the network, in which the other nodes do nothing. -/
theorem exec_of_run {n : Member} (hmem : s.mem i = n.mem) (events : List Member.Event)
    (hsent : ∀ g, .gossip g ∈ events → g ∈ s.sent) :
    ∃ es, s.exec n.Sum64 cfg es = s.update i (n.run events).mem := by
  induction events generalizing s n with
  | nil => exact ⟨[], by simp [exec, Member.run, ← hmem, update_mem]⟩
  | cons e events ih =>
    obtain ⟨es, hes⟩ := exec_of_step hmem e fun g he => hsent g (he ▸ mem_cons_self)
    obtain ⟨fs, hfs⟩ := ih (mem_update (n.step e).mem) fun g hg => hsent g (mem_cons_of_mem e hg)
    have hsum : (n.step e).Sum64 = n.Sum64 := congrArg (fun t => t.2.1) (Member.step_constants e)
    refine ⟨es ++ fs, ?_⟩
    rw [exec, Schedule.exec_append, ← exec, ← exec, hes, ← hsum, hfs, update_update]
    rfl

/-- A node hears of itself and of another one. -/
theorem exec_of_run_told :
    let n := Member.NewNode ⟨[1], "a", 1, 0, 9, 0, ""⟩ (fun _ => 0) (fun _ => 1) ⟨fun t => t, 0⟩
    let s : GossipNet Bool := start.exec n.Sum64 (fun _ => n.cfg)
      [.ensure true [2] "b" 20, .send true (fun _ => "b") ⟨0, 0, 0, 0⟩ [] id]
    let events := s.sent.map Member.Event.gossip ++ [.tick id]
    (n.run events).mem.peers.map Prod.fst = [[1], [2]] ∧
      ∃ es, s.exec n.Sum64 (fun _ => n.cfg) es = s.update false (n.run events).mem :=
  ⟨by decide, exec_of_run rfl _ (by simp)⟩

end Handlers

end GossipNet

end Kioshun
