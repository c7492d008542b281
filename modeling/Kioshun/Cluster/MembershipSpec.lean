import Kioshun.Cluster.Membership
import Mathlib.Data.List.Nodup

/-!
# What a node knows about its peers

A peer that is added gets a metadata object of its own, which it keeps until it is
pruned. Hellos and gossip only add peers; gossip changes the weight of its sender
and no other.
-/

namespace Kioshun
open Function List

namespace Membership
variable {Sum64 : Bytes → UInt64} {m m' m'' : Membership} {id : NodeID} {p p' : Nat}
variable (peers : List PeerInfo)

/-- Every peer has an object of its own that carries its ID and its salt. -/
structure Wf (Sum64 : Bytes → UInt64) (m : Membership) : Prop where
  nodup : (m.peers.map Prod.fst).Nodup
  named : ∀ id p, (id, p) ∈ m.peers → (m.metas p).ID = id ∧ (m.metas p).salt = Sum64 id
  bound : ∀ id p, (id, p) ∈ m.peers → p < m.nextMeta

theorem newMembership_wf : newMembership.Wf Sum64 := by
  refine ⟨nodup_nil, ?_, ?_⟩
  · rintro id p ⟨⟩
  · rintro id p ⟨⟩

theorem Wf.inj (h : m.Wf Sum64) (hp : (id, p) ∈ m.peers) (hp' : (id, p') ∈ m.peers) : p = p' :=
  congrArg Prod.snd (inj_on_of_nodup_map h.nodup hp hp' rfl)

theorem mem_of_lookup (h : m.peers.lookup id = some p) : (id, p) ∈ m.peers := by
  obtain ⟨l₁, l₂, heq, -⟩ := lookup_eq_some_iff.mp h
  rw [heq]
  exact mem_append_right _ mem_cons_self

theorem not_mem_of_lookup (h : m.peers.lookup id = none) : (id, p) ∉ m.peers := by
  intro hp
  have hne := lookup_eq_none_iff.mp h _ hp
  simp at hne

theorem lookup_of_mem (h : m.Wf Sum64) (hp : (id, p) ∈ m.peers) : m.peers.lookup id = some p := by
  cases hlook : m.peers.lookup id with
  | none => exact absurd hp (not_mem_of_lookup hlook)
  | some p' => rw [h.inj hp (mem_of_lookup hlook)]

structure Grows (Sum64 : Bytes → UInt64) (m m' : Membership) : Prop where
  wf : m'.Wf Sum64
  kept : ∀ id p, (id, p) ∈ m.peers → (id, p) ∈ m'.peers
  fresh : ∀ id p, (id, p) ∈ m'.peers →
    (id, p) ∈ m.peers ∨ m.nextMeta ≤ p ∧ (m'.metas p).weight = 500000
  metas : ∀ p, p < m.nextMeta → (m'.metas p).toNodeMeta = (m.metas p).toNodeMeta
  next : m.nextMeta ≤ m'.nextMeta

theorem Grows.refl (h : m.Wf Sum64) : Grows Sum64 m m :=
  ⟨h, fun _ _ hp => hp, fun _ _ hp => .inl hp, fun _ _ => rfl, Nat.le_refl _⟩

theorem Grows.trans (h : Grows Sum64 m m') (h' : Grows Sum64 m' m'') : Grows Sum64 m m'' := by
  refine ⟨h'.wf, fun id p hp => h'.kept id p (h.kept id p hp), fun id p hp => ?_,
    fun p hp => (h'.metas p (Nat.lt_of_lt_of_le hp h.next)).trans (h.metas p hp),
    Nat.le_trans h.next h'.next⟩
  rcases h'.fresh id p hp with hmid | ⟨hle, hw⟩
  · rcases h.fresh id p hmid with hold | ⟨hle, hw⟩
    · exact .inl hold
    · have hsame := congrArg NodeMeta.weight (h'.metas p (h.wf.bound id p hmid))
      exact .inr ⟨hle, hsame.trans hw⟩
  · exact .inr ⟨Nat.le_trans h.next hle, hw⟩

theorem alloc_grows (h : m.Wf Sum64) (nm : PeerMeta) : Grows Sum64 m (m.alloc nm).2 := by
  have hmetas : ∀ p, p < m.nextMeta → (m.alloc nm).2.metas p = m.metas p := fun p hp =>
    update_of_ne (Nat.ne_of_lt hp) _ _
  refine ⟨⟨h.nodup, fun id p hp => ?_, fun id p hp => Nat.lt_succ_of_lt (h.bound id p hp)⟩,
    fun _ _ hp => hp, fun _ _ hp => .inl hp, fun p hp => by rw [hmetas p hp], Nat.le_succ _⟩
  rw [hmetas p (h.bound id p hp)]
  exact h.named id p hp

theorem add_grows (h : m.Wf Sum64) (hnone : m.peers.lookup id = none) (addr : String) :
    Grows Sum64 m (m.add Sum64 id addr) := by
  have hmetas : ∀ p, p < m.nextMeta → (m.add Sum64 id addr).metas p = m.metas p := fun p hp =>
    update_of_ne (Nat.ne_of_lt hp) _ _
  have hnew : (m.add Sum64 id addr).metas m.nextMeta = newMeta Sum64 id addr :=
    update_self ..
  have hmem : ∀ t, t ∈ (m.add Sum64 id addr).peers ↔ t ∈ m.peers ∨ t = (id, m.nextMeta) := fun t =>
    mem_append.trans (or_congr_right mem_singleton)
  refine ⟨⟨?_, fun id' p hp => ?_, fun id' p hp => ?_⟩, fun id' p hp => (hmem _).mpr (.inl hp),
    fun id' p hp => ?_, fun p hp => by rw [hmetas p hp], Nat.le_succ _⟩
  · show ((m.peers ++ [(id, m.nextMeta)]).map Prod.fst).Nodup
    rw [map_append, map_singleton]
    refine h.nodup.append (nodup_singleton _) fun x hx hx' => ?_
    obtain ⟨⟨x, p⟩, hp, rfl⟩ := mem_map.mp hx
    obtain rfl : x = id := mem_singleton.mp hx'
    exact not_mem_of_lookup hnone hp
  · rcases (hmem _).mp hp with hp | heq
    · rw [hmetas p (h.bound id' p hp)]
      exact h.named id' p hp
    · obtain ⟨rfl, rfl⟩ := Prod.mk.inj heq
      rw [hnew]
      exact ⟨rfl, rfl⟩
  · rcases (hmem _).mp hp with hp | heq
    · exact Nat.lt_succ_of_lt (h.bound id' p hp)
    · obtain ⟨rfl, rfl⟩ := Prod.mk.inj heq
      exact Nat.lt_succ_self _
  · rcases (hmem _).mp hp with hp | heq
    · exact .inl hp
    · obtain ⟨rfl, rfl⟩ := Prod.mk.inj heq
      rw [hnew]
      exact .inr ⟨Nat.le_refl _, rfl⟩

/-- What the object says about the node does not change with the timestamps and the epoch. -/
theorem Grows.of_eq (h : Grows Sum64 m m') (hpeers : m''.peers = m'.peers)
    (hmetas : ∀ p, (m''.metas p).toNodeMeta = (m'.metas p).toNodeMeta)
    (hnext : m''.nextMeta = m'.nextMeta) : Grows Sum64 m m'' := by
  refine ⟨⟨?_, fun id p hp => ?_, fun id p hp => ?_⟩, fun id p hp => ?_, fun id p hp => ?_,
    fun p hp => (hmetas p).trans (h.metas p hp), hnext ▸ h.next⟩
  · rw [hpeers]
    exact h.wf.nodup
  · rw [hpeers] at hp
    rw [hmetas p]
    exact h.wf.named id p hp
  · rw [hpeers] at hp
    rw [hnext]
    exact h.wf.bound id p hp
  · rw [hpeers]
    exact h.kept id p hp
  · rw [hpeers] at hp
    rw [hmetas p]
    exact h.fresh id p hp

theorem ensure_grows (h : m.Wf Sum64) (id : NodeID) (addr : String) (now : Int) :
    Grows Sum64 m (m.ensure Sum64 id addr now) := by
  unfold ensure
  cases hlook : m.peers.lookup id with
  | none => exact (add_grows h hlook addr).of_eq rfl (fun _ => rfl) rfl
  | some p => exact (Grows.refl h).of_eq rfl (fun _ => rfl) rfl

theorem learn_grows (h : m.Wf Sum64) (id : NodeID) (addr : String) :
    Grows Sum64 m (m.learn Sum64 id addr) := by
  unfold learn
  cases hlook : m.peers.lookup id with
  | none => exact add_grows h hlook addr
  | some p =>
    refine (Grows.refl h).of_eq rfl (fun x => ?_) rfl
    by_cases hx : x = p
    · subst hx
      simp only [update_self]
    · simp only [update_of_ne hx]

theorem foldl_learn_grows (h : Grows Sum64 m m') :
    Grows Sum64 m (peers.foldl (fun m p => m.learn Sum64 p.ID p.Addr) m') := by
  induction peers generalizing m' with
  | nil => exact h
  | cons p peers ih => exact ih (h.trans (learn_grows h.wf p.ID p.Addr))

theorem integrate_grows (h : m.Wf Sum64) (id : NodeID) (addr : String) (peers : List PeerInfo)
    (seen : NodeID → Option Int) (epoch : UInt64) (now : Int) :
    Grows Sum64 m (m.integrate Sum64 id addr peers seen epoch now) := by
  have hepoch : Grows Sum64 m (if m.epoch < epoch then { m with epoch := epoch } else m) := by
    split
    · exact (Grows.refl h).of_eq rfl (fun _ => rfl) rfl
    · exact Grows.refl h
  have hfrom := hepoch.trans (learn_grows hepoch.wf id addr)
  have hsee : Grows Sum64 m (((if m.epoch < epoch then { m with epoch := epoch } else m).learn
      Sum64 id addr).see id now) := hfrom.of_eq rfl (fun _ => rfl) rfl
  exact (foldl_learn_grows peers hsee).of_eq rfl (fun _ => rfl) rfl

theorem mem_ensure (m : Membership) (Sum64 : Bytes → UInt64) (id : NodeID) (addr : String)
    (now : Int) : ∃ p, (id, p) ∈ (m.ensure Sum64 id addr now).peers := by
  unfold ensure
  cases hlook : m.peers.lookup id with
  | none => exact ⟨m.nextMeta, mem_append_right _ (mem_singleton_self _)⟩
  | some p => exact ⟨p, mem_of_lookup hlook⟩

section Timestamps

variable (id : NodeID) (addr : String)

theorem seen_ensure (now : Int) :
    (m.ensure Sum64 id addr now).seen = update m.seen id (some now) := by
  unfold ensure
  split <;> rfl

theorem seen_learn : (m.learn Sum64 id addr).seen = m.seen := by
  unfold learn
  split <;> rfl

theorem seen_foldl_learn :
    (peers.foldl (fun m p => m.learn Sum64 p.ID p.Addr) m).seen = m.seen := by
  induction peers generalizing m with
  | nil => rfl
  | cons p peers ih => exact ih.trans (seen_learn p.ID p.Addr)

theorem seen_integrate (seen : NodeID → Option Int) (epoch : UInt64) (now : Int) :
    (m.integrate Sum64 id addr peers seen epoch now).seen =
      mergeSeen (update m.seen id (some now)) seen := by
  simp only [integrate, seen_foldl_learn, see, seen_learn]
  split <;> rfl

end Timestamps

section Weights
variable {w : UInt64}

structure Reweighs (id : NodeID) (w : UInt64) (m m' : Membership) : Prop where
  peers : m'.peers = m.peers
  seen : m'.seen = m.seen
  next : m'.nextMeta = m.nextMeta
  own : ∀ p, m.peers.lookup id = some p →
    (m'.metas p).toNodeMeta = { (m.metas p).toNodeMeta with weight := w }
  others : ∀ p, m.peers.lookup id ≠ some p → m'.metas p = m.metas p

theorem setWeight_reweighs (m : Membership) (id : NodeID) (w : UInt64) :
    Reweighs id w m (m.setWeight id w) := by
  unfold setWeight
  cases hlook : m.peers.lookup id with
  | none =>
    refine ⟨rfl, rfl, rfl, fun p hp => ?_, fun p _ => rfl⟩
    cases hlook.symm.trans hp
  | some q =>
    refine ⟨rfl, rfl, rfl, fun p hp => ?_, fun p hp => ?_⟩
    · obtain rfl : q = p := Option.some.inj (hlook.symm.trans hp)
      simp only [update_self]
    · have hne : p ≠ q := fun heq => hp (heq ▸ hlook)
      simp only [update_of_ne hne]

theorem Reweighs.identity (h : Reweighs id w m m') (p : Nat) :
    (m'.metas p).ID = (m.metas p).ID ∧ (m'.metas p).salt = (m.metas p).salt := by
  by_cases hp : m.peers.lookup id = some p
  · rw [h.own p hp]
    exact ⟨rfl, rfl⟩
  · rw [h.others p hp]
    exact ⟨rfl, rfl⟩

theorem Reweighs.wf (h : Reweighs id w m m') (hm : m.Wf Sum64) : m'.Wf Sum64 := by
  refine ⟨?_, fun x p hp => ?_, fun x p hp => ?_⟩
  · rw [h.peers]
    exact hm.nodup
  · rw [h.peers] at hp
    rw [(h.identity p).1, (h.identity p).2]
    exact hm.named x p hp
  · rw [h.peers] at hp
    rw [h.next]
    exact hm.bound x p hp

end Weights

section Pruning
variable {now after : Int}

theorem mem_alive {pick : Nat → Nat} :
    p ∈ m.alive now after pick ↔
      ∃ id, (id, p) ∈ m.peers ∧ wrap64 (now - after) ≤ (m.seen id).getD 0 := by
  simp only [alive, mem_map, mem_filter, Iteration.mem_shuffle, decide_eq_true_eq]
  constructor
  · rintro ⟨⟨id, q⟩, ⟨hp, hle⟩, rfl⟩
    exact ⟨id, hp, hle⟩
  · rintro ⟨id, hp, hle⟩
    exact ⟨(id, p), ⟨hp, hle⟩, rfl⟩

/-- The alive nodes have different IDs. -/
theorem nodup_alive (h : m.Wf Sum64) (now after : Int) (pick : Nat → Nat) :
    ((m.alive now after pick).map fun p => (m.metas p).ID).Nodup := by
  have hperm := (Iteration.shuffle_perm pick m.peers).map Prod.fst
  have hids : (m.alive now after pick).map (fun p => (m.metas p).ID) =
      ((Iteration.shuffle pick m.peers).filter fun t =>
        decide (wrap64 (now - after) ≤ (m.seen t.1).getD 0)).map Prod.fst := by
    rw [alive, map_map]
    refine map_congr_left fun t ht => ?_
    have hmem := Iteration.mem_shuffle.mp (mem_filter.mp ht).1
    exact (h.named t.1 t.2 hmem).1
  rw [hids]
  exact (hperm.nodup_iff.mpr h.nodup).sublist (filter_sublist.map Prod.fst)

theorem mem_prune : (id, p) ∈ (m.pruneTombstones now after).peers ↔
    (id, p) ∈ m.peers ∧ m.expired (wrap64 (now - after)) id = false := by
  simp only [pruneTombstones, mem_filter, Bool.not_eq_true']

theorem prune_wf (h : m.Wf Sum64) (now after : Int) : (m.pruneTombstones now after).Wf Sum64 := by
  refine ⟨?_, fun id p hp => h.named id p (mem_prune.mp hp).1,
    fun id p hp => h.bound id p (mem_prune.mp hp).1⟩
  exact h.nodup.sublist (filter_sublist.map Prod.fst)

end Pruning

end Membership

namespace Member
variable {n : Member}

def constants (n : Member) : MemberConfig × (Bytes → UInt64) × (NodeLoad → UInt64) × (Nat → Int) :=
  (n.cfg, n.Sum64, n.computeWeight, n.wall.reading)

def core (n : Member) : Membership × List Nat × WallClock := (n.mem, n.nodes, n.wall)

theorem mirror_core (now : Int) (TopK : List HotKey) : (n.mirror now TopK).core = n.core := by
  unfold mirror
  split <;> rfl

theorem mirror_constants (now : Int) (TopK : List HotKey) :
    (n.mirror now TopK).constants = n.constants := by
  unfold mirror
  split <;> rfl

theorem ingestGossip_core (g : MsgGossip) : (n.ingestGossip g).core =
    (((n.mem.ensure n.Sum64 g.FromID g.FromAddr n.wall.now.2.now.1).integrate n.Sum64 g.FromID
      g.FromAddr g.Peers g.Seen g.Epoch n.wall.now.1).setWeight g.FromID (n.computeWeight g.Load),
      n.nodes, n.wall.now.2.now.2) := by
  unfold ingestGossip
  dsimp only
  split
  · exact mirror_core _ _
  · exact mirror_core _ _

/-- A gossip message adds peers, merges the timestamps and then sets the weight of its sender. -/
theorem ingestGossip_spec (h : n.mem.Wf n.Sum64) (g : MsgGossip) :
    ∃ mid, Membership.Grows n.Sum64 n.mem mid ∧ (∃ p, (g.FromID, p) ∈ mid.peers) ∧
      mid.seen = Membership.mergeSeen
        (update n.mem.seen g.FromID (some n.wall.now.1)) g.Seen ∧
      Membership.Reweighs g.FromID (n.computeWeight g.Load) mid (n.ingestGossip g).mem := by
  have hens := Membership.ensure_grows h g.FromID g.FromAddr n.wall.now.2.now.1
  have hint := Membership.integrate_grows hens.wf g.FromID g.FromAddr g.Peers g.Seen g.Epoch
    n.wall.now.1
  obtain ⟨p, hp⟩ := Membership.mem_ensure n.mem n.Sum64 g.FromID g.FromAddr n.wall.now.2.now.1
  refine ⟨_, hens.trans hint, ⟨p, hint.kept _ _ hp⟩, ?_, ?_⟩
  · rw [Membership.seen_integrate, Membership.seen_ensure, update_idem]
  · have hmem := congrArg Prod.fst (ingestGossip_core (n := n) g)
    rw [show (n.ingestGossip g).mem = _ from hmem]
    exact Membership.setWeight_reweighs ..

theorem noteRing_mem (sig : UInt64) : (n.noteRing sig).nodes = n.nodes ∧
    (n.noteRing sig).wall = n.wall ∧ (n.noteRing sig).mem.peers = n.mem.peers ∧
    (n.noteRing sig).mem.seen = n.mem.seen ∧ (n.noteRing sig).mem.metas = n.mem.metas ∧
    (n.noteRing sig).mem.nextMeta = n.mem.nextMeta := by
  unfold noteRing
  split <;> exact ⟨rfl, rfl, rfl, rfl, rfl, rfl⟩

/-- What a tick does: the ring is set to the alive nodes, and then the others are pruned. -/
theorem weightTick_spec (pick : Nat → Nat) :
    (n.weightTick pick).nodes = n.mem.alive n.wall.now.1 n.cfg.SuspicionAfter pick ∧
    (n.weightTick pick).wall = n.wall.now.2 ∧
    (n.weightTick pick).mem.peers =
      (n.mem.pruneTombstones n.wall.now.1 n.cfg.TombstoneAfter).peers ∧
    (n.weightTick pick).mem.seen = (n.mem.pruneTombstones n.wall.now.1 n.cfg.TombstoneAfter).seen ∧
    (n.weightTick pick).mem.metas = n.mem.metas ∧
    (n.weightTick pick).mem.nextMeta = n.mem.nextMeta :=
  noteRing_mem _

theorem step_constants (e : Event) : (n.step e).constants = n.constants := by
  cases e with
  | hello h =>
    simp only [step, handleHello]
    split <;> rfl
  | seed id addr => rfl
  | gossip g =>
    simp only [step, ingestGossip]
    split
    · exact mirror_constants _ _
    · exact mirror_constants _ _
  | tick pick =>
    simp only [step, weightTick, noteRing]
    split <;> rfl

theorem run_constants (events : List Event) : (n.run events).constants = n.constants := by
  induction events generalizing n with
  | nil => rfl
  | cons e events ih => exact ih.trans (step_constants e)

theorem step_wf (h : n.mem.Wf n.Sum64) (e : Event) : (n.step e).mem.Wf (n.step e).Sum64 := by
  have hsum : (n.step e).Sum64 = n.Sum64 := congrArg (fun t => t.2.1) (step_constants e)
  rw [hsum]
  cases e with
  | hello hl =>
    simp only [step, handleHello]
    split
    · exact (Membership.ensure_grows h ..).wf
    · exact h
  | seed id addr => exact (Membership.ensure_grows h ..).wf
  | gossip g =>
    obtain ⟨mid, hgrow, -, -, hw⟩ := ingestGossip_spec h g
    exact hw.wf hgrow.wf
  | tick pick =>
    obtain ⟨-, -, hpeers, -, hmetas, hnext⟩ := weightTick_spec (n := n) pick
    have hp := Membership.prune_wf h n.wall.now.1 n.cfg.TombstoneAfter
    refine ⟨?_, fun id p hid => ?_, fun id p hid => ?_⟩
    · exact hpeers ▸ hp.nodup
    · rw [show (n.step (.tick pick)).mem.metas = _ from hmetas]
      exact hp.named id p (hpeers ▸ hid)
    · rw [show (n.step (.tick pick)).mem.nextMeta = _ from hnext]
      exact hp.bound id p (hpeers ▸ hid)

theorem run_wf (h : n.mem.Wf n.Sum64) (events : List Event) :
    (n.run events).mem.Wf (n.run events).Sum64 := by
  induction events generalizing n with
  | nil => exact h
  | cons e events ih => exact ih (step_wf h e)

theorem start_grows (h : n.mem.Wf n.Sum64) : Membership.Grows n.Sum64 n.mem n.Start.mem := by
  have hens := Membership.ensure_grows h n.cfg.ID n.cfg.PublicURL n.wall.now.1
  exact hens.trans (Membership.alloc_grows hens.wf _)

theorem started_constants (cfg : MemberConfig) (Sum64 : Bytes → UInt64)
    (computeWeight : NodeLoad → UInt64) (wall : WallClock) (early events : List Event) :
    ((started cfg Sum64 computeWeight wall early).run events).constants =
      (cfg, Sum64, computeWeight, wall.reading) := by
  have hearly := run_constants (n := NewNode cfg Sum64 computeWeight wall) early
  exact (run_constants events).trans hearly

theorem started_wf (cfg : MemberConfig) (Sum64 : Bytes → UInt64)
    (computeWeight : NodeLoad → UInt64) (wall : WallClock) (early : List Event) :
    (started cfg Sum64 computeWeight wall early).mem.Wf
      (started cfg Sum64 computeWeight wall early).Sum64 :=
  (start_grows (run_wf Membership.newMembership_wf early)).wf

/-- Between the ticks the ring has the same nodes. -/
theorem step_nodes {e : Event} (he : ∀ pick, e ≠ .tick pick) : (n.step e).nodes = n.nodes := by
  cases e with
  | hello hl =>
    simp only [step, handleHello]
    split <;> rfl
  | seed id addr => rfl
  | gossip g => exact congrArg (fun t => t.2.1) (ingestGossip_core g)
  | tick pick => exact absurd rfl (he pick)

end Member

end Kioshun
