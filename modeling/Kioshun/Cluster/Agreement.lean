import Kioshun.Cluster.MembershipSpec
import Kioshun.Cluster.RingSpec
import Kioshun.Lib.Schedule

/-!
# Agreement on the owners of a key

Two nodes rank the same members in the same way if they have the same weights for
them. A weight is the default until a gossip message of the member arrives, and
pruning a member forgets it. No node sends gossip to itself.
-/

namespace Kioshun
open List

namespace Membership
variable {Sum64 : Bytes → UInt64} {m m' : Membership} {w : UInt64} {x y : NodeID} {H : Prop}

/-- The peer `x` has the weight `w` if it has been heard of (`H`), and the default weight before. -/
structure Knows (Sum64 : Bytes → UInt64) (w : UInt64) (x : NodeID) (H : Prop) (m : Membership) :
    Prop where
  wf : m.Wf Sum64
  weight : ∀ p, (x, p) ∈ m.peers →
    (m.metas p).weight = w ∨ (¬ H ∧ (m.metas p).weight = 500000)
  listed : H → ∃ p, (x, p) ∈ m.peers

theorem Knows.grow (h : Knows Sum64 w x H m) (hg : Grows Sum64 m m') : Knows Sum64 w x H m' := by
  refine ⟨hg.wf, fun p hp => ?_, fun hH => ?_⟩
  · rcases hg.fresh x p hp with hold | ⟨hle, hw⟩
    · rw [hg.metas p (h.wf.bound x p hold)]
      exact h.weight p hold
    · refine .inr ⟨fun hH => ?_, hw⟩
      obtain ⟨q, hq⟩ := h.listed hH
      have hlt := h.wf.bound x q hq
      rw [hg.wf.inj (hg.kept x q hq) hp] at hlt
      omega
  · obtain ⟨p, hp⟩ := h.listed hH
    exact ⟨p, hg.kept x p hp⟩

theorem Knows.reweigh_other (h : Knows Sum64 w x H m) {v : UInt64} (hr : Reweighs y v m m')
    (hne : y ≠ x) : Knows Sum64 w x H m' := by
  refine ⟨hr.wf h.wf, fun p hp => ?_, fun hH => ?_⟩
  · rw [hr.peers] at hp
    rw [hr.others p fun hlook => ?_]
    · exact h.weight p hp
    · exact hne ((h.wf.named y p (mem_of_lookup hlook)).1.symm.trans (h.wf.named x p hp).1)
  · rw [hr.peers]
    exact h.listed hH

theorem Knows.reweigh (h : Knows Sum64 w x H m) (hr : Reweighs x w m m')
    (hlisted : ∃ p, (x, p) ∈ m.peers) : Knows Sum64 w x True m' := by
  refine ⟨hr.wf h.wf, fun p hp => ?_, fun _ => ?_⟩
  · rw [hr.peers] at hp
    rw [hr.own p (lookup_of_mem h.wf hp)]
    exact .inl rfl
  · rw [hr.peers]
    exact hlisted

end Membership

namespace Member
variable {n : Member} {w : UInt64} {x : NodeID} {H : Prop} {e : Event} {events : List Event}
variable {pick : Nat → Nat}

def Heard (x : NodeID) (events : List Event) : Prop := ∃ g, .gossip g ∈ events ∧ g.FromID = x

/-- At a tick the peer `x` has been seen within `TombstoneAfter`. -/
def Sees (x : NodeID) (n : Member) : Event → Prop
  | .tick _ => (n.mem.peers.lookup x).isSome →
      n.mem.expired (wrap64 (n.wall.now.1 - n.cfg.TombstoneAfter)) x = false
  | _ => True

instance (x : NodeID) (n : Member) : (e : Event) → Decidable (Sees x n e)
  | .tick _ => inferInstanceAs (Decidable (_ → _))
  | .hello _ | .seed .. | .gossip _ => inferInstanceAs (Decidable True)

def KeepsPeer (n : Member) (x : NodeID) (events : List Event) : Prop :=
  Schedule.Along step (Sees x) n events

theorem KeepsPeer.head (h : n.KeepsPeer x (.tick pick :: events)) (hwf : n.mem.Wf n.Sum64) {p : Nat}
    (hp : (x, p) ∈ n.mem.peers) : (x, p) ∈ (n.weightTick pick).mem.peers := by
  obtain ⟨-, -, hpeers, -⟩ := weightTick_spec (n := n) pick
  rw [hpeers, Membership.mem_prune]
  exact ⟨hp, h.1 (by rw [Membership.lookup_of_mem hwf hp]; rfl)⟩

abbrev Knows (w : UInt64) (x : NodeID) (H : Prop) (n : Member) : Prop :=
  n.mem.Knows n.Sum64 w x H

theorem step_sum64 (e : Event) : (n.step e).Sum64 = n.Sum64 :=
  congrArg (fun t => t.2.1) (step_constants e)

theorem step_computeWeight (e : Event) : (n.step e).computeWeight = n.computeWeight :=
  congrArg (fun t => t.2.2.1) (step_constants e)

/-- The events that only add peers. -/
theorem step_grows (h : n.mem.Wf n.Sum64) (hgossip : ∀ g, e ≠ .gossip g)
    (htick : ∀ pick, e ≠ .tick pick) : Membership.Grows n.Sum64 n.mem (n.step e).mem := by
  cases e with
  | hello hl =>
    simp only [step, handleHello]
    split
    · exact Membership.ensure_grows h ..
    · exact Membership.Grows.refl h
  | seed id addr => exact Membership.ensure_grows h ..
  | gossip g => exact absurd rfl (hgossip g)
  | tick pick => exact absurd rfl (htick pick)

theorem gossip_knows (h : n.Knows w x H) (g : MsgGossip)
    (hload : g.FromID = x → n.computeWeight g.Load = w) :
    (n.step (.gossip g)).Knows w x (H ∨ g.FromID = x) := by
  obtain ⟨mid, hgrow, hfrom, -, hr⟩ := ingestGossip_spec h.wf g
  have hmid := h.grow hgrow
  rw [Knows, step_sum64]
  by_cases hx : g.FromID = x
  · subst hx
    rw [hload rfl] at hr
    simp only [or_true]
    exact hmid.reweigh hr hfrom
  · simp only [hx, or_false]
    exact hmid.reweigh_other hr hx

theorem tick_knows (h : n.Knows w x H) (hkeep : n.KeepsPeer x (.tick pick :: events)) :
    (n.step (.tick pick)).Knows w x H := by
  obtain ⟨-, -, hpeers, -, hmetas, -⟩ := weightTick_spec (n := n) pick
  refine ⟨step_wf h.wf (.tick pick), fun p hp => ?_, fun hH => ?_⟩
  · rw [show (n.step (.tick pick)).mem.peers = _ from hpeers, Membership.mem_prune] at hp
    rw [show (n.step (.tick pick)).mem.metas = _ from hmetas]
    exact h.weight p hp.1
  · obtain ⟨p, hp⟩ := h.listed hH
    exact ⟨p, hkeep.head h.wf hp⟩

theorem heard_cons :
    Heard x (e :: events) ↔ (∃ g, e = .gossip g ∧ g.FromID = x) ∨ Heard x events := by
  constructor
  · rintro ⟨g, hg, hx⟩
    rcases mem_cons.mp hg with heq | hg
    · exact .inl ⟨g, heq.symm, hx⟩
    · exact .inr ⟨g, hg, hx⟩
  · rintro (⟨g, rfl, hx⟩ | ⟨g, hg, hx⟩)
    · exact ⟨g, mem_cons_self, hx⟩
    · exact ⟨g, mem_cons_of_mem _ hg, hx⟩

theorem step_knows (h : n.Knows w x H) (hkeep : n.KeepsPeer x (e :: events))
    (hload : ∀ g, e = .gossip g → g.FromID = x → n.computeWeight g.Load = w) :
    (n.step e).Knows w x (H ∨ ∃ g, e = .gossip g ∧ g.FromID = x) := by
  by_cases hgossip : ∃ g, e = .gossip g
  · obtain ⟨g, rfl⟩ := hgossip
    have hiff : (∃ g', Event.gossip g = .gossip g' ∧ g'.FromID = x) ↔ g.FromID = x := by
      constructor
      · rintro ⟨g', heq, hx⟩
        cases heq
        exact hx
      · exact fun hx => ⟨g, rfl, hx⟩
    rw [hiff]
    exact gossip_knows h g (hload g rfl)
  · have hnone : ¬ ∃ g, e = .gossip g ∧ g.FromID = x := fun ⟨g, heq, _⟩ => hgossip ⟨g, heq⟩
    simp only [hnone, or_false]
    by_cases htick : ∃ pick, e = .tick pick
    · obtain ⟨pick, rfl⟩ := htick
      exact tick_knows h hkeep
    · rw [Knows, step_sum64]
      exact h.grow (step_grows h.wf (fun g heq => hgossip ⟨g, heq⟩) fun p heq => htick ⟨p, heq⟩)

theorem run_knows (h : n.Knows w x H) (hkeep : n.KeepsPeer x events)
    (hload : ∀ g, .gossip g ∈ events → g.FromID = x → n.computeWeight g.Load = w) :
    (n.run events).Knows w x (H ∨ Heard x events) := by
  induction events generalizing n H with
  | nil =>
    have hnone : ¬ Heard x [] := fun ⟨g, hg, _⟩ => not_mem_nil hg
    simp only [hnone, or_false]
    exact h
  | cons e events ih =>
    rw [heard_cons, ← or_assoc]
    refine ih (step_knows h hkeep fun g heq => ?_) hkeep.2 fun g hg => ?_
    · exact hload g (heq ▸ mem_cons_self)
    · rw [step_computeWeight]
      exact hload g (mem_cons_of_mem _ hg)

theorem start_knows (h : n.Knows w x H) : n.Start.Knows w x H := h.grow (start_grows h.wf)

section Rings
variable {A : NodeID → Prop}

/-- The ring was installed by a tick, and has the objects of the peers in `A`. -/
structure Ringed (A : NodeID → Prop) (n : Member) : Prop where
  wf : n.mem.Wf n.Sum64
  bound : ∀ p ∈ n.nodes, p < n.mem.nextMeta
  nodup : (n.nodes.map fun p => (n.mem.metas p).ID).Nodup
  entry : ∀ p ∈ n.nodes, A (n.mem.metas p).ID → ((n.mem.metas p).ID, p) ∈ n.mem.peers

theorem tick_ringed (h : n.mem.Wf n.Sum64)
    (hkeep : ∀ x, A x → n.KeepsPeer x (.tick pick :: events)) : (n.step (.tick pick)).Ringed A := by
  obtain ⟨hnodes, -, -, -, hmetas, hnext⟩ := weightTick_spec (n := n) pick
  have hmem : ∀ p ∈ (n.weightTick pick).nodes, ((n.mem.metas p).ID, p) ∈ n.mem.peers := by
    intro p hp
    rw [hnodes] at hp
    obtain ⟨id, hid, -⟩ := Membership.mem_alive.mp hp
    rw [(h.named id p hid).1]
    exact hid
  refine ⟨step_wf h (.tick pick), fun p hp => ?_, ?_, fun p hp hA => ?_⟩
  · rw [show (n.step (.tick pick)).mem.nextMeta = _ from hnext]
    exact h.bound _ p (hmem p hp)
  · rw [show (n.step (.tick pick)).nodes = _ from hnodes,
      show (n.step (.tick pick)).mem.metas = _ from hmetas]
    exact Membership.nodup_alive h _ _ pick
  · rw [show (n.step (.tick pick)).mem.metas = _ from hmetas] at hA ⊢
    exact (hkeep _ hA).head h (hmem p hp)

/-- The ring keeps the objects while peers are added. -/
theorem Ringed.grow (h : n.Ringed A) {n' : Member} (hsum : n'.Sum64 = n.Sum64)
    (hnodes : n'.nodes = n.nodes) {mid : Membership} (hg : Membership.Grows n.Sum64 n.mem mid)
    (hwf : n'.mem.Wf n.Sum64) (hpeers : n'.mem.peers = mid.peers)
    (hnext : n'.mem.nextMeta = mid.nextMeta)
    (hids : ∀ p, (n'.mem.metas p).ID = (mid.metas p).ID) : n'.Ringed A := by
  have hsame : ∀ p ∈ n.nodes, (n'.mem.metas p).ID = (n.mem.metas p).ID := fun p hp =>
    (hids p).trans (congrArg NodeMeta.ID (hg.metas p (h.bound p hp)))
  refine ⟨hsum ▸ hwf, fun p hp => ?_, ?_, fun p hp hA => ?_⟩
  · rw [hnodes] at hp
    rw [hnext]
    exact Nat.lt_of_lt_of_le (h.bound p hp) hg.next
  · rw [hnodes, map_congr_left hsame]
    exact h.nodup
  · rw [hnodes] at hp
    rw [hsame p hp] at hA ⊢
    rw [hpeers]
    exact hg.kept _ _ (h.entry p hp hA)

theorem step_ringed (h : n.Ringed A) (hkeep : ∀ x, A x → n.KeepsPeer x (e :: events)) :
    (n.step e).Ringed A := by
  by_cases htick : ∃ pick, e = .tick pick
  · obtain ⟨pick, rfl⟩ := htick
    exact tick_ringed h.wf hkeep
  · have hother : ∀ pick, e ≠ .tick pick := fun pick heq => htick ⟨pick, heq⟩
    have hnodes := step_nodes (n := n) hother
    by_cases hgossip : ∃ g, e = .gossip g
    · obtain ⟨g, rfl⟩ := hgossip
      obtain ⟨mid, hgrow, -, -, hr⟩ := ingestGossip_spec h.wf g
      exact h.grow (step_sum64 _) hnodes hgrow (hr.wf hgrow.wf) hr.peers hr.next
        fun p => (hr.identity p).1
    · have hgrow := step_grows h.wf (fun g heq => hgossip ⟨g, heq⟩) hother
      exact h.grow (step_sum64 _) hnodes hgrow hgrow.wf rfl rfl fun _ => rfl

theorem run_ringed (h : n.Ringed A) (hkeep : ∀ x, A x → n.KeepsPeer x events) :
    (n.run events).Ringed A := by
  induction events generalizing n with
  | nil => exact h
  | cons e events ih => exact ih (step_ringed h hkeep) fun x hx => (hkeep x hx).2

/-- No ring that a node ever has names an owner of a key twice. -/
theorem owners_distinct (cfg : MemberConfig) (Sum64 : Bytes → UInt64)
    (computeWeight : NodeLoad → UInt64) (wall : WallClock) (early events : List Event)
    (h : UInt64) :
    ((((started cfg Sum64 computeWeight wall early).run events).ring.ownersFromKeyHash h).map
      NodeMeta.ID).Nodup := by
  -- a started node has the ring of itself, and each tick installs the alive peers
  have hstart : (started cfg Sum64 computeWeight wall early).Ringed fun _ => False :=
    ⟨started_wf .., fun p hp => Nat.lt_succ_of_le (mem_singleton.mp hp).le, nodup_singleton _,
      nofun⟩
  generalize started cfg Sum64 computeWeight wall early = n at hstart ⊢
  have hring : (n.run events).Ringed fun _ => False := run_ringed hstart fun _ => False.elim
  have hids : ((n.run events).ring.nodes.map NodeMeta.ID).Nodup := by
    rw [ring, map_map]
    exact hring.nodup
  have hperm : ((n.run events).ring.ranked h).Perm (n.run events).ring.nodes :=
    perm_insertionSort ..
  exact ((hperm.map NodeMeta.ID).nodup_iff.mpr hids).sublist ((take_sublist ..).map NodeMeta.ID)

end Rings

end Member

open Member

structure Participant where
  cfg : MemberConfig
  wall : WallClock
  early : List Event
  events : List Event

namespace Participant
variable {Sum64 : Bytes → UInt64} {computeWeight : NodeLoad → UInt64} {load : NodeID → NodeLoad}
  {c : Participant} {x : NodeID} {alive : List NodeID}

def node (Sum64 : Bytes → UInt64) (computeWeight : NodeLoad → UInt64) (c : Participant) : Member :=
  (started c.cfg Sum64 computeWeight c.wall c.early).run c.events

def owners (Sum64 : Bytes → UInt64) (computeWeight : NodeLoad → UInt64) (c : Participant)
    (keyHash : UInt64) : List NodeID :=
  ((c.node Sum64 computeWeight).ring.ownersFromKeyHash keyHash).map NodeMeta.ID

/-- The node has installed a ring, all gossip carries the loads, and the node has heard of all
alive nodes but itself. -/
structure Informed (Sum64 : Bytes → UInt64) (computeWeight : NodeLoad → UInt64)
    (load : NodeID → NodeLoad) (alive : List NodeID) (c : Participant) : Prop where
  early : ∀ pick, .tick pick ∉ c.early
  tick : ∃ pick, .tick pick ∈ c.events
  loads : ∀ g, .gossip g ∈ c.early ++ c.events → g.Load = load g.FromID
  members : ((c.node Sum64 computeWeight).ring.nodes.map NodeMeta.ID).Perm alive
  heard : ∀ x ∈ alive, x ≠ c.cfg.ID → Heard x (c.early ++ c.events)

/-- The node has a gossip message of its own or the default weight, and has pruned no alive node. -/
structure Steady (Sum64 : Bytes → UInt64) (computeWeight : NodeLoad → UInt64)
    (load : NodeID → NodeLoad) (alive : List NodeID) (c : Participant) : Prop where
  self : c.cfg.ID ∈ alive →
    Heard c.cfg.ID (c.early ++ c.events) ∨ computeWeight (load c.cfg.ID) = 500000
  kept : ∀ x ∈ alive, (started c.cfg Sum64 computeWeight c.wall c.early).KeepsPeer x c.events

section
variable (hi : c.Informed Sum64 computeWeight load alive)
include hi

theorem node_knows
    (hkeep : (started c.cfg Sum64 computeWeight c.wall c.early).KeepsPeer x c.events) :
    (c.node Sum64 computeWeight).Knows (computeWeight (load x)) x
      (Heard x (c.early ++ c.events)) := by
  have hnew : (NewNode c.cfg Sum64 computeWeight c.wall).Knows
      (computeWeight (load x)) x False := by
    refine ⟨Membership.newMembership_wf, ?_, False.elim⟩
    rintro p ⟨⟩
  have hnone : (NewNode c.cfg Sum64 computeWeight c.wall).KeepsPeer x c.early := by
    have huntimed : ∀ e ∈ c.early, ∀ n : Member, Sees x n e := by
      rintro (m | ⟨id, addr⟩ | g | pick) he n
      case tick => exact absurd he (hi.early pick)
      all_goals trivial
    exact Schedule.along_imp (I := fun _ => True) (fun _ _ _ _ => trivial)
      (fun n _ _ h => h n) trivial (Schedule.along_of_forall huntimed)
  have hload : ∀ (n : Member) g, n.computeWeight = computeWeight →
      .gossip g ∈ c.early ++ c.events → g.FromID = x →
        n.computeWeight g.Load = computeWeight (load x) :=
    fun n g hn hg hx => by rw [hn, hi.loads g hg, hx]
  have hcw := congrArg (fun t => t.2.2.1)
    (run_constants (n := NewNode c.cfg Sum64 computeWeight c.wall) c.early)
  have hearly := run_knows hnew hnone fun g hg =>
    hload _ g rfl (mem_append_left _ hg)
  have hrun := run_knows (start_knows hearly) hkeep fun g hg =>
    hload _ g hcw (mem_append_right _ hg)
  have hheard : (False ∨ Heard x c.early) ∨ Heard x c.events ↔ Heard x (c.early ++ c.events) := by
    simp only [false_or, Heard, mem_append, ← exists_or, or_and_right]
  rw [hheard] at hrun
  exact hrun

section
variable (hs : c.Steady Sum64 computeWeight load alive)
include hs

theorem node_ringed : (c.node Sum64 computeWeight).Ringed (· ∈ alive) := by
  obtain ⟨pick, hpick⟩ := hi.tick
  obtain ⟨before, after, heq⟩ := append_of_mem hpick
  have hkept := hs.kept
  rw [heq] at hkept
  have hbefore := run_wf (started_wf c.cfg Sum64 computeWeight c.wall c.early) before
  have hring := tick_ringed hbefore fun x hx => (Schedule.along_append.mp (hkept x hx)).2
  have hafter := run_ringed hring fun x hx => (Schedule.along_append.mp (hkept x hx)).2.2
  rw [node, heq, run, foldl_append]
  exact hafter

theorem node_weight (hx : x ∈ alive) {p : Nat}
    (hp : (x, p) ∈ (c.node Sum64 computeWeight).mem.peers) :
    ((c.node Sum64 computeWeight).mem.metas p).weight = computeWeight (load x) := by
  rcases (node_knows hi (hs.kept x hx)).weight p hp with hw | ⟨hnot, hw⟩
  · exact hw
  · by_cases hself : x = c.cfg.ID
    · subst hself
      exact hw.trans ((hs.self hx).resolve_left hnot).symm
    · exact absurd (hi.heard x hx hself) hnot

/-- Every node of the ring has the weight of its load. -/
theorem ring_nodes :
    (c.node Sum64 computeWeight).ring.nodes =
      ((c.node Sum64 computeWeight).ring.nodes.map NodeMeta.ID).map fun x =>
        ⟨x, computeWeight (load x), Sum64 x⟩ := by
  have hr := node_ringed hi hs
  have hsum : (c.node Sum64 computeWeight).Sum64 = Sum64 := congrArg (fun t => t.2.1)
    (started_constants c.cfg Sum64 computeWeight c.wall c.early c.events)
  rw [map_map]
  refine (map_id _).symm.trans (map_congr_left fun nm hnm => ?_)
  have halive := hi.members.mem_iff.mp (mem_map_of_mem hnm)
  obtain ⟨p, hp, rfl⟩ := mem_map.mp hnm
  have hentry := hr.entry p hp halive
  have hsalt := (hr.wf.named _ p hentry).2
  rw [hsum] at hsalt
  have hweight := node_weight hi hs halive hentry
  exact congrArg₂ (NodeMeta.mk _) hweight hsalt

end

end

/-- Nodes with the same alive members that have heard of all of them and of themselves agree on
the owners of every key. -/
theorem owners_agree {ι : Type*} {c : ι → Participant}
    (hrf : ∀ i j, (c i).cfg.ReplicationFactor = (c j).cfg.ReplicationFactor)
    (hinformed : ∀ i, (c i).Informed Sum64 computeWeight load alive)
    (hsteady : ∀ i, (c i).Steady Sum64 computeWeight load alive) (i j : ι) (keyHash : UInt64) :
    (c i).owners Sum64 computeWeight keyHash = (c j).owners Sum64 computeWeight keyHash := by
  have hring : ∀ i, ((c i).node Sum64 computeWeight).ring.nodes.Perm
      (alive.map fun x => ⟨x, computeWeight (load x), Sum64 x⟩) := by
    intro i
    rw [ring_nodes (hinformed i) (hsteady i)]
    exact (hinformed i).members.map _
  have hids : (((c j).node Sum64 computeWeight).ring.nodes.map NodeMeta.ID).Nodup := by
    have hr := (node_ringed (hinformed j) (hsteady j)).nodup
    rw [ring, map_map]
    exact hr
  have hcfg : ∀ i, ((c i).node Sum64 computeWeight).cfg = (c i).cfg := fun i =>
    congrArg Prod.fst
      (started_constants (c i).cfg Sum64 computeWeight (c i).wall (c i).early (c i).events)
  have hrf' : ((c i).node Sum64 computeWeight).ring.rf =
      ((c j).node Sum64 computeWeight).ring.rf := by
    rw [ring, ring, hcfg i, hcfg j]
    exact hrf i j
  rw [owners, owners, Ring.ownersFromKeyHash, Ring.ownersFromKeyHash, hrf',
    Ring.ranked_perm hids ((hring i).trans (hring j).symm)]

/-- The hashes of the IDs a and b. -/
def saltOf (id : Bytes) : UInt64 :=
  if id = [97] then 15154266338359012955 else 8666379929374662555

/-- The gossip of a node with eight gigabytes of free memory. -/
def greeting (id : NodeID) : MsgGossip :=
  ⟨id, "", fun _ => none, [], ⟨0, 0, 8589934592, 0⟩, [], 0⟩

/-- A node that gets these gossip messages within a second and then installs a ring. -/
def greeted (self : NodeID) (senders : List NodeID) : Participant :=
  ⟨⟨self, "", 1, 2000000000, 30000000000, 0, ""⟩, ⟨fun i => 100000000 * i, 0⟩, [],
    (senders.map fun id => Event.gossip (greeting id)) ++ [.tick id]⟩

variable {weight : NodeLoad → UInt64} {senders : List NodeID}

theorem greeted_informed {self : NodeID} (hsenders : ∀ x ∈ [[97], [98]], x ≠ self → x ∈ senders)
    (hmembers : (((greeted self senders).node saltOf weight).ring.nodes.map NodeMeta.ID).Perm
      [[97], [98]]) :
    (greeted self senders).Informed saltOf weight (fun _ => ⟨0, 0, 8589934592, 0⟩)
      [[97], [98]] := by
  refine ⟨fun pick => not_mem_nil, ⟨id, mem_append_right _ (mem_singleton_self _)⟩,
    fun g hg => ?_, hmembers, fun x hx hne => ?_⟩
  · rcases mem_append.mp hg with hg | hg
    · exact absurd hg not_mem_nil
    · rcases mem_append.mp hg with hg | hg
      · obtain ⟨x, -, hx⟩ := mem_map.mp hg
        cases hx
        rfl
      · cases mem_singleton.mp hg
  · exact ⟨greeting x, mem_append_right _ (mem_append_left _
      (mem_map_of_mem (hsenders x hx hne))), rfl⟩

/-- Two nodes that have heard of each other, and each of which has the default weight for itself:
each of them takes the other one for the owner of the key with hash 0. -/
theorem owners_differ :
    (greeted [97] [[98]]).Informed saltOf (fun _ => 825000) (fun _ => ⟨0, 0, 8589934592, 0⟩)
      [[97], [98]] ∧
    (greeted [98] [[97]]).Informed saltOf (fun _ => 825000) (fun _ => ⟨0, 0, 8589934592, 0⟩)
      [[97], [98]] ∧
    (greeted [97] [[98]]).owners saltOf (fun _ => 825000) 0 = [[98]] ∧
    (greeted [98] [[97]]).owners saltOf (fun _ => 825000) 0 = [[97]] := by
  refine ⟨greeted_informed ?_ ?_, greeted_informed ?_ ?_, ?_, ?_⟩ <;> decide +kernel

def duo (first : Bool) : Participant := if first then greeted [97] [[98]] else greeted [98] [[97]]

/-- The same nodes with loads that have the default weight. -/
theorem owners_agree_greeted :
    (duo true).owners saltOf (fun _ => 500000) 0 =
      (duo false).owners saltOf (fun _ => 500000) 0 := by
  have hinformed : ∀ i, (duo i).Informed saltOf (fun _ => 500000)
      (fun _ => ⟨0, 0, 8589934592, 0⟩) [[97], [98]] := by
    intro i
    cases i <;> exact greeted_informed (by decide +kernel) (by decide +kernel)
  have hsteady : ∀ i, (duo i).Steady saltOf (fun _ => 500000)
      (fun _ => ⟨0, 0, 8589934592, 0⟩) [[97], [98]] := by
    refine fun i => ⟨fun _ => .inr rfl, ?_⟩
    unfold KeepsPeer
    cases i <;> decide +kernel
  exact owners_agree (by decide) hinformed hsteady true false 0

end Participant

end Kioshun
