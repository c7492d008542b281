import Kioshun.Cluster.Client
import Kioshun.Cluster.MembershipSpec

/-!
# The node in its own ring

`Start` puts the node into its membership with the time of the start. After that
only a Hello or a gossip message can bring a newer timestamp for it, so the node
stays in its own ring just as long as these come often enough.
-/

namespace Kioshun
open Function List

universe u v

namespace Member
variable {n : Member} {last : Int} {e : Event}

def Event.readings (cfg : MemberConfig) : Event → Nat
  | .hello h => if authOK cfg h then 1 else 0
  | .seed _ _ => 1
  | .gossip _ => 2
  | .tick _ => 1

/-- The node's timestamp for itself after an event that reads the clock at `now`. -/
def Event.refresh (cfg : MemberConfig) (now last : Int) : Event → Int
  | .hello h => if authOK cfg h = true ∧ h.FromID = cfg.ID then now else last
  | .seed id _ => if id = cfg.ID then now else last
  | .gossip g =>
    let base := if g.FromID = cfg.ID then now else last
    match g.Seen cfg.ID with
    | none => base
    | some ts => if base < ts then ts else base
  | .tick _ => last

def Recent (cfg : MemberConfig) (now last : Int) : Prop :=
  wrap64 (now - cfg.SuspicionAfter) ≤ last ∧ wrap64 (now - cfg.TombstoneAfter) ≤ last

def Refreshed (cfg : MemberConfig) (wall : WallClock) (last : Int) : List Event → Prop
  | [] => True
  | e :: events =>
    (∀ pick, e = .tick pick → Recent cfg wall.now.1 last) ∧
    Refreshed cfg { wall with ticks := wall.ticks + e.readings cfg }
      (e.refresh cfg wall.now.1 last) events

structure Healthy (n : Member) (last : Int) : Prop where
  wf : n.mem.Wf n.Sum64
  listed : ∃ p, (n.cfg.ID, p) ∈ n.mem.peers
  seen : n.mem.seen n.cfg.ID = some last

theorem step_cfg (e : Event) : (n.step e).cfg = n.cfg := congrArg Prod.fst (step_constants e)

theorem step_wall (e : Event) :
    (n.step e).wall = { n.wall with ticks := n.wall.ticks + e.readings n.cfg } := by
  cases e with
  | hello h =>
    simp only [step, handleHello, Event.readings]
    split <;> rfl
  | seed id addr => rfl
  | gossip g => exact congrArg (fun t => t.2.2) (ingestGossip_core g)
  | tick pick => exact (weightTick_spec pick).2.1

theorem ensure_healthy (h : n.Healthy last) (id : NodeID) (addr : String) :
    (n.ensure id addr).Healthy (if id = n.cfg.ID then n.wall.now.1 else last) := by
  have hg := Membership.ensure_grows h.wf id addr n.wall.now.1
  obtain ⟨p, hp⟩ := h.listed
  refine ⟨hg.wf, ⟨p, hg.kept _ _ hp⟩, ?_⟩
  show (n.mem.ensure n.Sum64 id addr n.wall.now.1).seen n.cfg.ID = _
  rw [Membership.seen_ensure]
  split
  · rename_i hid
    rw [hid, update_self]
  · rename_i hid
    rw [update_of_ne (Ne.symm hid)]
    exact h.seen

/-- The freshest of the timestamps that are there. -/
theorem mergeSeen_of_some {old new : NodeID → Option Int} {id : NodeID} {base : Int}
    (h : old id = some base) : Membership.mergeSeen old new id = some (match new id with
      | none => base
      | some ts => if base < ts then ts else base) := by
  simp only [Membership.mergeSeen, h]
  cases new id with
  | none => rfl
  | some ts =>
    dsimp only
    split <;> rfl

section
variable (h : n.Healthy last)
include h

theorem gossip_healthy (g : MsgGossip) :
    (n.ingestGossip g).Healthy ((Event.gossip g).refresh n.cfg n.wall.now.1 last) := by
  have hcfg : (n.ingestGossip g).cfg = n.cfg := step_cfg (.gossip g)
  obtain ⟨mid, hgrow, -, hseen, hw⟩ := ingestGossip_spec h.wf g
  obtain ⟨p, hp⟩ := h.listed
  refine ⟨step_wf h.wf (.gossip g), ⟨p, ?_⟩, ?_⟩
  · rw [hcfg, hw.peers]
    exact hgrow.kept _ _ hp
  · rw [hcfg, hw.seen, hseen]
    refine mergeSeen_of_some ?_
    split
    · rename_i hid
      rw [← hid, update_self]
    · rename_i hid
      rw [update_of_ne (Ne.symm hid)]
      exact h.seen

theorem step_healthy (he : ∀ pick, e ≠ .tick pick) :
    (n.step e).Healthy (e.refresh n.cfg n.wall.now.1 last) := by
  cases e with
  | hello hl =>
    simp only [step, handleHello, Event.refresh]
    by_cases hauth : authOK n.cfg hl = true
    · simp only [hauth, if_true, true_and]
      exact ensure_healthy h hl.FromID hl.FromAddr
    · simp only [hauth, if_false, false_and, Bool.false_eq_true]
      exact h
  | seed id addr => exact ensure_healthy h id addr
  | gossip g => exact gossip_healthy h g
  | tick pick => exact absurd rfl (he pick)

variable (pick : Nat → Nat)

/-- The ring that a tick installs contains the node if its timestamp is recent. -/
theorem tick_hasID :
    (n.weightTick pick).ring.hasID n.cfg.ID = true ↔
      wrap64 (n.wall.now.1 - n.cfg.SuspicionAfter) ≤ last := by
  obtain ⟨hnodes, -, -, -, hmetas, -⟩ := weightTick_spec (n := n) pick
  obtain ⟨p, hp⟩ := h.listed
  simp only [Ring.hasID, ring, hnodes, hmetas, any_map, any_eq_true, comp, beq_iff_eq]
  constructor
  · rintro ⟨x, hx, hid⟩
    obtain ⟨id, hmem, hle⟩ := Membership.mem_alive.mp hx
    rw [(h.wf.named id x hmem).1] at hid
    rw [hid, h.seen] at hle
    exact hle
  · intro hle
    refine ⟨p, Membership.mem_alive.mpr ⟨n.cfg.ID, hp, ?_⟩, (h.wf.named _ p hp).1⟩
    rw [h.seen]
    exact hle

/-- A tick prunes the node itself if its timestamp is too old. -/
theorem tick_listed :
    (∃ p, (n.cfg.ID, p) ∈ (n.weightTick pick).mem.peers) ↔
      wrap64 (n.wall.now.1 - n.cfg.TombstoneAfter) ≤ last := by
  obtain ⟨-, -, hpeers, -, -, -⟩ := weightTick_spec (n := n) pick
  obtain ⟨p, hp⟩ := h.listed
  have hexp : n.mem.expired (wrap64 (n.wall.now.1 - n.cfg.TombstoneAfter)) n.cfg.ID = false ↔
      wrap64 (n.wall.now.1 - n.cfg.TombstoneAfter) ≤ last := by
    simp only [Membership.expired, h.seen, decide_eq_false_iff_not, Int.not_lt]
  rw [hpeers]
  constructor
  · rintro ⟨q, hq⟩
    exact hexp.mp (Membership.mem_prune.mp hq).2
  · exact fun hle => ⟨p, Membership.mem_prune.mpr ⟨hp, hexp.mpr hle⟩⟩

theorem tick_healthy (hle : wrap64 (n.wall.now.1 - n.cfg.TombstoneAfter) ≤ last) :
    (n.weightTick pick).Healthy last := by
  have hcfg : (n.weightTick pick).cfg = n.cfg := step_cfg (.tick pick)
  obtain ⟨-, -, -, hseen, -, -⟩ := weightTick_spec (n := n) pick
  refine ⟨step_wf h.wf (.tick pick), ?_, ?_⟩
  · rw [hcfg]
    exact (tick_listed h pick).mpr hle
  · have hexp : n.mem.expired (wrap64 (n.wall.now.1 - n.cfg.TombstoneAfter)) n.cfg.ID = false := by
      simp only [Membership.expired, h.seen, decide_eq_false_iff_not, Int.not_lt]
      exact hle
    rw [hcfg, hseen]
    simp only [Membership.pruneTombstones, hexp, Bool.and_false, Bool.false_eq_true, if_false]
    exact h.seen

end

section Runs
variable {events : List Event}

def InOwnRing (n : Member) : Prop :=
  n.ring.hasID n.cfg.ID = true ∧ ∃ p, (n.cfg.ID, p) ∈ n.mem.peers

/-- Every tick installs a ring with the node and leaves it in the membership. -/
def StaysInRing (n : Member) (events : List Event) : Prop :=
  ∀ before pick after, events = before ++ .tick pick :: after →
    (n.run (before ++ [.tick pick])).InOwnRing

theorem staysInRing_cons : n.StaysInRing (e :: events) ↔
    (∀ pick, e = .tick pick → (n.step e).InOwnRing) ∧ (n.step e).StaysInRing events := by
  constructor
  · intro h
    refine ⟨?_, fun before pick after heq => h (e :: before) pick after (by rw [heq]; rfl)⟩
    rintro pick rfl
    exact h [] pick events rfl
  · rintro ⟨hhead, htail⟩ before pick after heq
    cases before with
    | nil =>
      obtain ⟨rfl, -⟩ := List.cons.inj heq
      exact hhead pick rfl
    | cons e' before =>
      obtain ⟨rfl, hrest⟩ := List.cons.inj heq
      exact htail before pick after hrest

theorem staysInRing_iff (events : List Event) (h : n.Healthy last) :
    n.StaysInRing events ↔ Refreshed n.cfg n.wall last events := by
  induction events generalizing n last with
  | nil =>
    refine ⟨fun _ => trivial, fun _ before pick after heq => ?_⟩
    simp at heq
  | cons e events ih =>
    rw [staysInRing_cons, Refreshed, ← step_wall]
    by_cases htick : ∃ pick, e = .tick pick
    · obtain ⟨pick, rfl⟩ := htick
      have hcfg : (n.weightTick pick).cfg = n.cfg := step_cfg (.tick pick)
      have hown : (n.weightTick pick).InOwnRing ↔ Recent n.cfg n.wall.now.1 last := by
        rw [InOwnRing, hcfg]
        exact and_congr (tick_hasID h pick) (tick_listed h pick)
      have hhead : (∀ pick', Event.tick pick = .tick pick' → (n.step (.tick pick)).InOwnRing) ↔
          ∀ pick', Event.tick pick = .tick pick' → Recent n.cfg n.wall.now.1 last :=
        forall_congr' fun _ => imp_congr_right fun _ => hown
      rw [hhead]
      refine and_congr_right fun hrecent => ?_
      rw [← hcfg]
      exact ih (tick_healthy h pick (hrecent pick rfl).2)
    · have hother : ∀ pick, e ≠ .tick pick := fun pick heq => htick ⟨pick, heq⟩
      have hrest := ih (step_healthy h hother)
      rw [step_cfg] at hrest
      exact and_congr (iff_of_true (fun pick heq => absurd heq (hother pick))
        fun pick heq => absurd heq (hother pick)) hrest

theorem InOwnRing.nodes_ne_nil (h : n.InOwnRing) : n.nodes ≠ [] := by
  intro hnil
  have hid := h.1
  simp only [Ring.hasID, ring, hnil, map_nil, any_nil, Bool.false_eq_true] at hid

theorem StaysInRing.nodes_ne_nil (h : n.StaysInRing events) (hne : n.nodes ≠ [])
    {before after : List Event} (heq : events = before ++ after) : (n.run before).nodes ≠ [] := by
  induction before generalizing n events with
  | nil => exact hne
  | cons e before ih =>
    subst heq
    obtain ⟨hhead, htail⟩ := staysInRing_cons.mp h
    refine ih htail ?_ rfl
    by_cases htick : ∃ pick, e = .tick pick
    · obtain ⟨pick, rfl⟩ := htick
      exact (hhead pick rfl).nodes_ne_nil
    · rw [step_nodes fun pick heq => htick ⟨pick, heq⟩]
      exact hne

theorem started_healthy (cfg : MemberConfig) (Sum64 : Bytes → UInt64)
    (computeWeight : NodeLoad → UInt64) (wall : WallClock) (early : List Event) :
    (started cfg Sum64 computeWeight wall early).Healthy
      ((NewNode cfg Sum64 computeWeight wall).run early).wall.now.1 := by
  have hwf : ((NewNode cfg Sum64 computeWeight wall).run early).mem.Wf
      ((NewNode cfg Sum64 computeWeight wall).run early).Sum64 :=
    run_wf Membership.newMembership_wf early
  rw [started]
  generalize (NewNode cfg Sum64 computeWeight wall).run early = n at hwf
  have hens := Membership.ensure_grows hwf n.cfg.ID n.cfg.PublicURL n.wall.now.1
  obtain ⟨p, hp⟩ := Membership.mem_ensure n.mem n.Sum64 n.cfg.ID n.cfg.PublicURL n.wall.now.1
  have hprime := Membership.alloc_grows hens.wf
    (Membership.newMeta n.Sum64 n.cfg.ID n.cfg.PublicURL)
  refine ⟨hprime.wf, ⟨p, hprime.kept _ _ hp⟩, ?_⟩
  show (n.mem.ensure n.Sum64 n.cfg.ID n.cfg.PublicURL n.wall.now.1).seen n.cfg.ID = _
  rw [Membership.seen_ensure, update_self]

end Runs

end Member

namespace Ring

theorem owners_ne_nil {r : Ring} (hrf : 1 ≤ r.rf) (hne : r.nodes ≠ []) (h : UInt64) :
    r.ownersFromKeyHash h ≠ [] := by
  intro hnil
  have hlen : (r.ownersFromKeyHash h).length = min r.rf r.nodes.length := by
    rw [ownersFromKeyHash, length_take, ranked, length_insertionSort]
  have hpos := length_pos_iff.mpr hne
  rw [hnil, length_nil] at hlen
  omega

end Ring

namespace Member
variable {K : Type u} {V : Type v}

/-- A started node is in every ring that it installs and in its own membership, and its calls find
an owner for every key, if and only if at every tick its timestamp for itself is recent. -/
theorem stays_in_ring_iff (cfg : MemberConfig) (Sum64 : Bytes → UInt64)
    (computeWeight : NodeLoad → UInt64) (wall : WallClock) (early events : List Event) :
    ((started cfg Sum64 computeWeight wall early).StaysInRing events ∧
      (1 ≤ cfg.ReplicationFactor → ∀ before after, events = before ++ after →
        ∀ (node : Node K V) (key : K),
          node.ring = ((started cfg Sum64 computeWeight wall early).run before).ring →
          node.owners key ≠ [])) ↔
    Refreshed cfg (started cfg Sum64 computeWeight wall early).wall
      ((NewNode cfg Sum64 computeWeight wall).run early).wall.now.1 events := by
  have hcfg : ∀ before, ((started cfg Sum64 computeWeight wall early).run before).cfg = cfg :=
    fun before => congrArg Prod.fst (started_constants cfg Sum64 computeWeight wall early before)
  have hstays := staysInRing_iff events
    (started_healthy cfg Sum64 computeWeight wall early)
  rw [show (started cfg Sum64 computeWeight wall early).cfg = cfg from hcfg []] at hstays
  rw [← hstays]
  refine ⟨fun h => h.1, fun h => ⟨h, fun hrf before after heq node key hring => ?_⟩⟩
  rw [Node.owners, hring]
  refine Ring.owners_ne_nil ?_ ?_ _
  · show 1 ≤ ((started cfg Sum64 computeWeight wall early).run before).cfg.ReplicationFactor
    rw [hcfg before]
    exact hrf
  · have hnodes := h.nodes_ne_nil (cons_ne_nil _ _) heq
    simpa only [ring, ne_eq, map_eq_nil_iff] using hnodes

def lone : MemberConfig := ⟨[65], "a:7000", 1, 2000000000, 30000000000, 0, ""⟩

def echo : MsgGossip :=
  ⟨[66], "b:7000", fun id => if id = [65] then some 3000000000 else none, [], ⟨0, 0, 0, 0⟩, [], 0⟩

/-- With gossip that brings its timestamp back the node stays in its ring. -/
theorem stays_in_ring_echoed :
    (started lone (fun _ => 0) (fun _ => 500000) ⟨fun i => 1000000000 * i, 0⟩ []).StaysInRing
      [.tick id, .gossip echo, .tick id] ∧
    Refreshed lone ⟨fun i => 1000000000 * i, 1⟩ 0 [.tick id, .gossip echo, .tick id] := by
  have hfresh : Refreshed lone ⟨fun i => 1000000000 * i, 1⟩ 0
      [.tick id, .gossip echo, .tick id] := by
    refine ⟨fun pick _ => ?_, fun pick heq => ?_, fun pick _ => ?_, trivial⟩
    · unfold Recent
      decide
    · cases heq
    · unfold Recent
      decide
  exact ⟨((stays_in_ring_iff (K := Nat) (V := Nat) lone (fun _ => 0) (fun _ => 500000)
    ⟨fun i => 1000000000 * i, 0⟩ [] [.tick id, .gossip echo, .tick id]).mpr hfresh).1, hfresh⟩

/-- A node without peers: three seconds after its start it is not in its ring, so that no key has
an owner, and after thirty-three it is not in its membership. -/
theorem leaves_own_ring :
    let n := started lone (fun _ => 0) (fun _ => 500000)
      ⟨fun i => if i ≤ 1 then 3000000000 * i else 33000000000, 0⟩ []
    (n.run [.tick id]).ring.hasID [65] = false ∧
    (n.run [.tick id]).ring.ownersFromKeyHash 0 = [] ∧
    (n.run [.tick id, .tick id]).mem.peers = [] := by
  decide +kernel

end Member

end Kioshun
