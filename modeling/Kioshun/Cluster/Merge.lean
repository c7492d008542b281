import Kioshun.Cluster.MembershipSpec

/-!
# Merging gossip

The epoch and the timestamps of a gossip message are merged by maximum. Addresses are
not merged: a message replaces the address of every node that it mentions, and the
timestamp of its sender is set to the time of arrival even if another message has
brought a later one. Two messages commute up to these two assignments.
-/

namespace Kioshun
open Function List

/-- The last address that a list gives to a node. -/
def lastAddr : List PeerInfo → NodeID → Option String
  | [], _ => none
  | p :: l, id => (lastAddr l id).or (if p.ID = id then some p.Addr else none)

namespace MsgGossip

/-- The nodes that a message mentions, in the order in which `integrate` takes their addresses. -/
def mentions (g : MsgGossip) : List PeerInfo := ⟨g.FromID, g.FromAddr⟩ :: g.Peers

def addr (g : MsgGossip) (id : NodeID) : Option String := lastAddr g.mentions id

/-- The two messages give different addresses to a node. -/
def Disagrees (g₁ g₂ : MsgGossip) (id : NodeID) : Prop :=
  ∃ a₁ a₂, g₁.addr id = some a₁ ∧ g₂.addr id = some a₂ ∧ a₁ ≠ a₂

/-- A message has a timestamp for the sender of another message that is later than the arrival of
the other message and than the sender's own timestamp for itself. -/
def Overtakes (g other : MsgGossip) (now : Int) : Prop :=
  ∃ ts, g.Seen other.FromID = some ts ∧ max (some now) (other.Seen other.FromID) < some ts

end MsgGossip

namespace Membership
variable {Sum64 : Bytes → UInt64} {m : Membership} {id : NodeID} {g g₁ g₂ : MsgGossip} {now : Int}

def addr (m : Membership) (id : NodeID) : Option String :=
  (m.peers.lookup id).map fun p => (m.metas p).Addr

/-- `integrate` with the fields of a gossip message. -/
def receive (Sum64 : Bytes → UInt64) (m : Membership) (g : MsgGossip) (now : Int) : Membership :=
  m.integrate Sum64 g.FromID g.FromAddr g.Peers g.Seen g.Epoch now

theorem Wf.ne_of_ne (h : m.Wf Sum64) {id' : NodeID} {p p' : Nat} (hp : m.peers.lookup id = some p)
    (hp' : m.peers.lookup id' = some p') (hne : id ≠ id') : p ≠ p' := by
  rintro rfl
  have hid := (h.named id p (mem_of_lookup hp)).1
  exact hne (hid.symm.trans (h.named id' p (mem_of_lookup hp')).1)

theorem addr_add (h : m.Wf Sum64) (hnone : m.peers.lookup id = none) (a : String) :
    (m.add Sum64 id a).addr = update m.addr id (some a) := by
  funext x
  have hpeers : (m.add Sum64 id a).peers = m.peers ++ [(id, m.nextMeta)] := rfl
  have hmetas : (m.add Sum64 id a).metas = update m.metas m.nextMeta (newMeta Sum64 id a) := rfl
  simp only [addr, hpeers, hmetas, lookup_append]
  by_cases hx : x = id
  · subst hx
    simp [hnone, newMeta]
  · cases hlook : m.peers.lookup x with
    | none =>
      have hbeq : (x == id) = false := beq_false_of_ne hx
      rw [update_of_ne hx]
      simp [addr, hlook, lookup_cons, hbeq]
    | some p =>
      have hne : p ≠ m.nextMeta := Nat.ne_of_lt (h.bound x p (mem_of_lookup hlook))
      rw [update_of_ne hx]
      simp [addr, hlook, update_of_ne hne]

theorem addr_learn (h : m.Wf Sum64) (id : NodeID) (a : String) :
    (m.learn Sum64 id a).addr = update m.addr id (some a) := by
  unfold learn
  cases hlook : m.peers.lookup id with
  | none => exact addr_add h hlook a
  | some p =>
    funext x
    by_cases hx : x = id
    · subst hx
      simp [addr, hlook]
    · rw [update_of_ne hx]
      cases hx' : m.peers.lookup x with
      | none => simp [addr, hx']
      | some p' =>
        have hne : p' ≠ p := h.ne_of_ne hx' hlook hx
        simp [addr, hx', update_of_ne hne]

theorem addr_foldl_learn (h : m.Wf Sum64) (l : List PeerInfo) (id : NodeID) :
    (l.foldl (fun m p => m.learn Sum64 p.ID p.Addr) m).addr id =
      (lastAddr l id).or (m.addr id) := by
  induction l generalizing m with
  | nil => rfl
  | cons p l ih =>
    rw [foldl_cons, ih (learn_grows h p.ID p.Addr).wf, addr_learn h, lastAddr]
    by_cases hp : p.ID = id
    · subst hp
      cases lastAddr l p.ID <;> simp
    · rw [update_of_ne (Ne.symm hp), if_neg hp, Option.or_none]

theorem isSome_lastAddr {l : List PeerInfo} {x : PeerInfo} (h : x ∈ l) :
    (lastAddr l x.ID).isSome := by
  induction l with
  | nil => cases h
  | cons y l ih =>
    rw [lastAddr, Option.isSome_or]
    rcases mem_cons.mp h with rfl | h
    · simp
    · simp [ih h]

theorem foldl_learn_frame (Sum64 : Bytes → UInt64) (m : Membership) (l : List PeerInfo)
    (epoch : UInt64) (seen : NodeID → Option Int) :
    l.foldl (fun m p => m.learn Sum64 p.ID p.Addr) { m with epoch := epoch, seen := seen } =
      { l.foldl (fun m p => m.learn Sum64 p.ID p.Addr) m with epoch := epoch, seen := seen } := by
  induction l generalizing m with
  | nil => rfl
  | cons p l ih =>
    have hlearn : ({ m with epoch := epoch, seen := seen } : Membership).learn Sum64 p.ID p.Addr =
        { m.learn Sum64 p.ID p.Addr with epoch := epoch, seen := seen } := by
      simp only [learn]
      split <;> rfl
    rw [foldl_cons, foldl_cons, hlearn, ih]

/-- What a message changes: the peers that it mentions, the epoch and the timestamps. -/
theorem receive_eq (m : Membership) (g : MsgGossip) (now : Int) :
    m.receive Sum64 g now =
      { g.mentions.foldl (fun m p => m.learn Sum64 p.ID p.Addr) m with
        epoch := if m.epoch < g.Epoch then g.Epoch else m.epoch
        seen := mergeSeen (update m.seen g.FromID (some now)) g.Seen } := by
  have hraise : (if m.epoch < g.Epoch then { m with epoch := g.Epoch } else m) =
      { m with epoch := if m.epoch < g.Epoch then g.Epoch else m.epoch, seen := m.seen } := by
    split <;> rfl
  have hfirst := foldl_learn_frame Sum64 m [⟨g.FromID, g.FromAddr⟩]
    (if m.epoch < g.Epoch then g.Epoch else m.epoch) m.seen
  have hrest := foldl_learn_frame Sum64 (m.learn Sum64 g.FromID g.FromAddr) g.Peers
    (if m.epoch < g.Epoch then g.Epoch else m.epoch) (update m.seen g.FromID (some now))
  simp only [foldl_cons, foldl_nil] at hfirst
  simp only [receive, integrate, hraise, hfirst, see, MsgGossip.mentions, foldl_cons]
  rw [hrest]

theorem epoch_receive (m : Membership) (g : MsgGossip) (now : Int) :
    (m.receive Sum64 g now).epoch.toNat = max m.epoch.toNat g.Epoch.toNat := by
  rw [receive_eq]
  show (if m.epoch < g.Epoch then g.Epoch else m.epoch).toNat = _
  split
  · rename_i hlt
    exact (Nat.max_eq_right (Nat.le_of_lt (UInt64.lt_iff_toNat_lt.mp hlt))).symm
  · rename_i hge
    exact (Nat.max_eq_left (UInt64.le_iff_toNat_le.mp (UInt64.not_lt.mp hge))).symm

/-- A message replaces the addresses of the nodes that it mentions. -/
theorem addr_receive (h : m.Wf Sum64) (g : MsgGossip) (now : Int) (id : NodeID) :
    (m.receive Sum64 g now).addr id = (g.addr id).or (m.addr id) := by
  rw [receive_eq]
  exact addr_foldl_learn h g.mentions id

theorem receive_wf (h : m.Wf Sum64) (g : MsgGossip) (now : Int) :
    (m.receive Sum64 g now).Wf Sum64 :=
  (integrate_grows h g.FromID g.FromAddr g.Peers g.Seen g.Epoch now).wf

theorem mergeSeen_eq (old new : NodeID → Option Int) (id : NodeID) :
    mergeSeen old new id = max (old id) (new id) := by
  unfold mergeSeen
  cases new id with
  | none => simp
  | some ts =>
    cases old id with
    | none => simp
    | some ts' =>
      simp only [Option.max_some_some]
      split <;> congr 1 <;> omega

/-- An arrival replaces what was known of its sender; of the other nodes it is kept. The timestamp
that the message brings counts where it is later. -/
theorem seen_receive (m : Membership) (g : MsgGossip) (now : Int) (id : NodeID) :
    (m.receive Sum64 g now).seen id =
      max (if id = g.FromID then some now else m.seen id) (g.Seen id) := by
  rw [receive_eq]
  show mergeSeen _ _ id = _
  rw [mergeSeen_eq]
  by_cases hid : id = g.FromID
  · rw [hid, update_self, if_pos rfl]
  · rw [update_of_ne hid, if_neg hid]

/-- Two messages that do not disagree leave the same address in either order. -/
theorem addr_comm_iff (h : m.Wf Sum64) (g₁ g₂ : MsgGossip) (now : Int) (id : NodeID) :
    ((m.receive Sum64 g₁ now).receive Sum64 g₂ now).addr id =
      ((m.receive Sum64 g₂ now).receive Sum64 g₁ now).addr id ↔ ¬ g₁.Disagrees g₂ id := by
  rw [addr_receive (receive_wf h g₁ now), addr_receive (receive_wf h g₂ now), addr_receive h,
    addr_receive h, MsgGossip.Disagrees]
  cases g₁.addr id with
  | none => simp
  | some a₁ =>
    cases g₂.addr id with
    | none => simp
    | some a₂ => simp [eq_comm]

theorem option_max_right_comm (a b c : Option Int) : max (max a b) c = max (max a c) b := by
  cases a <;> cases b <;> cases c <;>
    simp only [Option.max_some_some, Option.max_none_left, Option.max_none_right, Option.some.injEq]
  · exact Int.max_comm _ _
  · omega

theorem max_eq_left_iff_not_lt (a : Int) (o o' : Option Int) :
    max (max (some a) o) o' = max (some a) o ↔
      ¬ ∃ ts, o' = some ts ∧ max (some a) o < some ts := by
  cases o' with
  | none => simp
  | some ts =>
    cases o with
    | none =>
      simp only [Option.max_none_right, Option.max_some_some, Option.some.injEq, exists_eq_left',
        Option.some_lt_some]
      omega
    | some b =>
      simp only [Option.max_some_some, Option.some.injEq, exists_eq_left', Option.some_lt_some]
      omega

theorem seen_sender_iff {id : NodeID} (hid : id = g₁.FromID) (hne : id ≠ g₂.FromID) :
    ((m.receive Sum64 g₁ now).receive Sum64 g₂ now).seen id =
      ((m.receive Sum64 g₂ now).receive Sum64 g₁ now).seen id ↔ ¬ g₂.Overtakes g₁ now := by
  subst hid
  simp only [seen_receive, if_neg hne, if_true]
  exact max_eq_left_iff_not_lt ..

/-- Two messages leave the same timestamp in either order, unless one of them overtakes the sender
of the other. -/
theorem seen_comm_iff (hne : g₁.FromID ≠ g₂.FromID) (id : NodeID) :
    ((m.receive Sum64 g₁ now).receive Sum64 g₂ now).seen id =
      ((m.receive Sum64 g₂ now).receive Sum64 g₁ now).seen id ↔
    ¬ (id = g₁.FromID ∧ g₂.Overtakes g₁ now ∨ id = g₂.FromID ∧ g₁.Overtakes g₂ now) := by
  by_cases h₁ : id = g₁.FromID
  · have h₂ : id ≠ g₂.FromID := h₁ ▸ hne
    rw [seen_sender_iff h₁ h₂]
    simp [h₁, hne]
  · by_cases h₂ : id = g₂.FromID
    · rw [eq_comm, seen_sender_iff h₂ h₁]
      simp [h₂, hne.symm]
    · simp only [seen_receive, h₁, h₂, if_false, false_and, or_self, not_false_eq_true, iff_true]
      exact option_max_right_comm ..

/-- The time at which a message from the node arrives, or else what was known before. -/
def direct (m : Membership) (g₁ g₂ : MsgGossip) (now : Int) (id : NodeID) : Option Int :=
  if id = g₁.FromID ∨ id = g₂.FromID then some now else m.seen id

theorem seen_of_comm (hne : g₁.FromID ≠ g₂.FromID)
    (h : ¬ (id = g₁.FromID ∧ g₂.Overtakes g₁ now ∨ id = g₂.FromID ∧ g₁.Overtakes g₂ now)) :
    ((m.receive Sum64 g₁ now).receive Sum64 g₂ now).seen id =
      max (max (m.direct g₁ g₂ now id) (g₁.Seen id)) (g₂.Seen id) := by
  by_cases h₂ : id = g₂.FromID
  · -- only in the other order does the time of arrival replace nothing
    rw [(seen_comm_iff hne id).mpr h, seen_receive, seen_receive, if_pos h₂,
      if_neg (h₂ ▸ hne.symm), direct, if_pos (.inr h₂)]
    exact option_max_right_comm ..
  · rw [seen_receive, seen_receive, if_neg h₂, direct]
    simp only [h₂, or_false]

theorem epoch_comm (m : Membership) (g₁ g₂ : MsgGossip) (now : Int) :
    ((m.receive Sum64 g₁ now).receive Sum64 g₂ now).epoch =
      ((m.receive Sum64 g₂ now).receive Sum64 g₁ now).epoch := by
  apply UInt64.toNat_inj.mp
  rw [epoch_receive, epoch_receive, epoch_receive, epoch_receive, Nat.max_right_comm]

/-- Nodes that are known only get addresses. -/
theorem foldl_learn_known (Sum64 : Bytes → UInt64) (m : Membership) (l : List PeerInfo)
    (h : ∀ x ∈ l, (m.addr x.ID).isSome) :
    ∃ metas, l.foldl (fun m p => m.learn Sum64 p.ID p.Addr) m = { m with metas := metas } ∧
      (∀ p, (metas p).toNodeMeta = (m.metas p).toNodeMeta) ∧
      ∀ p, (∀ id, m.peers.lookup id ≠ some p) → metas p = m.metas p := by
  induction l generalizing m with
  | nil => exact ⟨m.metas, rfl, fun _ => rfl, fun _ _ => rfl⟩
  | cons x l ih =>
    have hx := h x mem_cons_self
    rw [addr, Option.isSome_map, Option.isSome_iff_exists] at hx
    obtain ⟨p, hp⟩ := hx
    have hlearn : m.learn Sum64 x.ID x.Addr =
        { m with metas := update m.metas p { m.metas p with Addr := x.Addr } } := by
      simp only [learn, hp]
    obtain ⟨metas, heq, hmeta, hother⟩ := ih (m.learn Sum64 x.ID x.Addr) (by
      intro y hy
      have hknown := h y (mem_cons_of_mem _ hy)
      rw [addr, Option.isSome_map] at hknown ⊢
      rw [hlearn]
      exact hknown)
    rw [foldl_cons, heq, hlearn]
    rw [hlearn] at hmeta hother
    refine ⟨metas, rfl, fun p' => (hmeta p').trans ?_, fun p' hp' => (hother p' hp').trans ?_⟩
    · by_cases hpp : p' = p
      · subst hpp
        simp only [update_self]
      · simp only [update_of_ne hpp]
    · have hpp : p' ≠ p := fun heq => hp' x.ID (heq ▸ hp)
      exact update_of_ne hpp _ _

/-- Addresses that are known already change nothing. -/
theorem foldl_learn_same (hwf : m.Wf Sum64) (l : List PeerInfo)
    (h : ∀ id, (lastAddr l id).or (m.addr id) = m.addr id) :
    l.foldl (fun m p => m.learn Sum64 p.ID p.Addr) m = m := by
  obtain ⟨metas, heq, hmeta, hother⟩ := foldl_learn_known Sum64 m l (by
    intro x hx
    rw [← h x.ID, Option.isSome_or, isSome_lastAddr hx, Bool.true_or])
  have hsame : metas = m.metas := by
    funext p
    by_cases hp : ∃ id, m.peers.lookup id = some p
    · obtain ⟨id, hid⟩ := hp
      have haddr := addr_foldl_learn hwf l id
      rw [h id, heq] at haddr
      simp only [addr, hid, Option.map_some, Option.some.injEq] at haddr
      have hfields := hmeta p
      cases hm : metas p
      cases hm' : m.metas p
      simp only [hm, hm'] at haddr hfields
      rw [haddr, hfields]
    · exact hother p fun id hid => hp ⟨id, hid⟩
  rw [heq, hsame]

/-- A message that comes twice has the effect of one. -/
theorem receive_twice (h : m.Wf Sum64) (g : MsgGossip) (now : Int) :
    (m.receive Sum64 g now).receive Sum64 g now = m.receive Sum64 g now := by
  have hfold := foldl_learn_same (receive_wf h g now) g.mentions fun id => by
    rw [addr_receive h]
    show (g.addr id).or ((g.addr id).or (m.addr id)) = _
    cases g.addr id <;> rfl
  have hepoch : ((m.receive Sum64 g now).receive Sum64 g now).epoch =
      (m.receive Sum64 g now).epoch := by
    apply UInt64.toNat_inj.mp
    rw [epoch_receive, epoch_receive, Nat.max_assoc, Nat.max_self]
  have hseen : ((m.receive Sum64 g now).receive Sum64 g now).seen =
      (m.receive Sum64 g now).seen := by
    funext id
    rw [seen_receive, seen_receive]
    by_cases hid : id = g.FromID
    · rw [if_pos hid, if_pos hid]
    · rw [if_neg hid, if_neg hid]
      cases m.seen id <;> cases g.Seen id <;> simp
  rw [receive_eq] at hepoch hseen ⊢
  rw [hfold] at hepoch hseen ⊢
  dsimp only at hepoch hseen
  rw [hepoch, hseen]

/-- Two messages from different senders that arrive at one time leave the same peers and the same
epoch in either order, the same address for each node on which they do not disagree, and the same
timestamp for each node except a sender that the other message overtakes: the latest of the two
that they bring and, for a sender, the time of arrival, for another node what was known before. A
message that comes twice has the effect of one. -/
theorem receive_comm (h : m.Wf Sum64) (hne : g₁.FromID ≠ g₂.FromID) (now : Int) :
    let m₁₂ := (m.receive Sum64 g₁ now).receive Sum64 g₂ now
    let m₂₁ := (m.receive Sum64 g₂ now).receive Sum64 g₁ now
    (∀ id, (m₁₂.addr id).isSome = (m₂₁.addr id).isSome) ∧
    (∀ id, m₁₂.addr id = m₂₁.addr id ↔ ¬ g₁.Disagrees g₂ id) ∧
    (∀ id, m₁₂.seen id = m₂₁.seen id ↔
      ¬ (id = g₁.FromID ∧ g₂.Overtakes g₁ now ∨ id = g₂.FromID ∧ g₁.Overtakes g₂ now)) ∧
    (∀ id, m₁₂.seen id = m₂₁.seen id →
      m₁₂.seen id = max (max (m.direct g₁ g₂ now id) (g₁.Seen id)) (g₂.Seen id)) ∧
    m₁₂.epoch = m₂₁.epoch ∧
    (m.receive Sum64 g₁ now).receive Sum64 g₁ now = m.receive Sum64 g₁ now := by
  refine ⟨fun id => ?_, addr_comm_iff h g₁ g₂ now, seen_comm_iff hne, fun id heq =>
    seen_of_comm hne ((seen_comm_iff hne id).mp heq), epoch_comm m g₁ g₂ now,
    receive_twice h g₁ now⟩
  rw [addr_receive (receive_wf h g₁ now), addr_receive (receive_wf h g₂ now), addr_receive h,
    addr_receive h]
  simp only [Option.isSome_or]
  rw [Bool.or_left_comm]

def gossipFrom (id : NodeID) (addr : String) (seen : NodeID → Option Int) : MsgGossip :=
  ⟨id, "", seen, [⟨[67], addr⟩], ⟨0, 0, 0, 0⟩, [], 1⟩

/-- Messages that agree on the address, with timestamps before their arrival. -/
theorem receive_comm_agreeing :
    let g₁ := gossipFrom [65] "c:1" fun id => if id = [66] then some 3 else none
    let g₂ := gossipFrom [66] "c:1" fun id => if id = [65] then some 4 else none
    let m₁₂ := (newMembership.receive (fun _ => 0) g₁ 5).receive (fun _ => 0) g₂ 5
    let m₂₁ := (newMembership.receive (fun _ => 0) g₂ 5).receive (fun _ => 0) g₁ 5
    m₁₂.addr [67] = m₂₁.addr [67] ∧ m₁₂.epoch = m₂₁.epoch := by
  intro g₁ g₂ m₁₂ m₂₁
  have hne : g₁.FromID ≠ g₂.FromID := by decide
  have hwf : newMembership.Wf fun _ => 0 := newMembership_wf
  have hcomm := receive_comm hwf hne 5
  refine ⟨(hcomm.2.1 [67]).mpr ?_, hcomm.2.2.2.2.1⟩
  rintro ⟨a₁, a₂, h₁, h₂, hne⟩
  have h₁' : some "c:1" = some a₁ := h₁
  have h₂' : some "c:1" = some a₂ := h₂
  exact hne (Option.some.inj (h₁'.symm.trans h₂'))

/-- Two messages with different addresses for a third node, the first with a later timestamp for
the sender of the second: neither the address nor the timestamp is the same in both orders. -/
theorem receive_depends_on_order :
    let g₁ := gossipFrom [65] "c:1" fun id => if id = [66] then some 9 else none
    let g₂ := gossipFrom [66] "c:2" fun _ => none
    let m₁₂ := (newMembership.receive (fun _ => 0) g₁ 5).receive (fun _ => 0) g₂ 5
    let m₂₁ := (newMembership.receive (fun _ => 0) g₂ 5).receive (fun _ => 0) g₁ 5
    m₁₂.addr [67] = some "c:2" ∧ m₂₁.addr [67] = some "c:1" ∧
    m₁₂.seen [66] = some 5 ∧ m₂₁.seen [66] = some 9 := by
  decide +kernel

end Membership

end Kioshun
