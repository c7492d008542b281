import Kioshun.Cache.ShardRep
import Kioshun.Cluster.Wire
import Kioshun.Lib.Schedule

/-!
# The connections to the peers

`ensurePeer` looks a peer up, dials it without the lock and stores the connection;
`ensureSeed` takes whoever answers. Neither looks into the table again, so what
another call has stored in the meantime is replaced without being closed.
-/

namespace Kioshun
open List

/-- A call of `ensurePeer`, which expects a certain peer, or of `ensureSeed`. -/
inductive Dialer where
  | dialing (expected : Option NodeID)
  | dialed (id : NodeID) (pc : Nat)
  | returned (pc : Option Nat)

/-- A connection that is not stored yet. -/
def Dialer.conns : Dialer → List Nat
  | .dialed _ pc => [pc]
  | _ => []

/-- `n.peers` and the calls under way. Connections are numbered as they are opened. The ones that
have been replaced in the table are `lost`; no step reads that. -/
structure PeerTable where
  peers : AList fun _ : NodeID => Nat
  opened : Nat
  closed : List Nat
  dialers : List Dialer
  lost : List Nat

inductive PeerTable.Event where
  | ensurePeer (id : NodeID) (known : Bool)
  | ensureSeed
  | dial (i : Nat) (answer : Option NodeID)
  | store (i : Nat)
  | resetPeer (id : NodeID)
  | closePeers

namespace PeerTable

def start : PeerTable := ⟨∅, 0, [], [], []⟩

/-- `dialPeer` returns an error or the connection to the peer that has answered. -/
def dial (s : PeerTable) (i : Nat) (expected : Option NodeID) : Option NodeID → PeerTable
  | none => { s with dialers := s.dialers.set i (.returned none) }
  | some id =>
    if expected.all (· = id) then
      { s with opened := s.opened + 1, dialers := s.dialers.set i (.dialed id s.opened) }
    else
      { s with
        opened := s.opened + 1
        closed := s.closed ++ [s.opened]
        dialers := s.dialers.set i (.returned none) }

/-- A section under the lock, or the return of `dialPeer`. -/
def step (s : PeerTable) : Event → PeerTable
  | .ensurePeer id known =>
    let d := match s.peers.lookup id with
      | some pc => .returned (some pc)
      -- without an address in the membership there is nobody to dial
      | none => if known then .dialing (some id) else .returned none
    { s with dialers := s.dialers ++ [d] }
  | .ensureSeed => { s with dialers := s.dialers ++ [.dialing none] }
  | .dial i answer =>
    match s.dialers[i]? with
    | some (.dialing expected) => s.dial i expected answer
    | _ => s
  | .store i =>
    match s.dialers[i]? with
    | some (.dialed id pc) =>
      { s with
        peers := s.peers.insert id pc
        dialers := s.dialers.set i (.returned (some pc))
        lost := s.lost ++ (s.peers.lookup id).toList }
    | _ => s
  | .resetPeer id =>
    { s with peers := s.peers.erase id, closed := s.closed ++ (s.peers.lookup id).toList }
  | .closePeers => { s with peers := ∅, closed := s.closed ++ s.peers.entries.map Sigma.snd }

def exec (es : List Event) : PeerTable := Schedule.exec step start es

def astray (s : PeerTable) : List Nat := s.dialers.flatMap Dialer.conns ++ s.lost

/-- The connections in the table, those that have been closed, and the others. -/
def places (s : PeerTable) : List Nat := s.peers.entries.map Sigma.snd ++ s.closed ++ s.astray

variable {s : PeerTable} {i : Nat} {d : Dialer}

theorem count_erase (m : AList fun _ : NodeID => Nat) (id : NodeID) (pc : Nat) :
    (m.entries.map Sigma.snd).count pc =
      (m.lookup id).toList.count pc + ((m.erase id).entries.map Sigma.snd).count pc := by
  cases hold : m.lookup id with
  | none =>
    have hkeys : id ∉ m.entries.keys := fun h => AList.lookup_eq_none.mp hold h
    have hsame : (m.erase id).entries = m.entries := kerase_of_notMem_keys hkeys
    simp [hsame]
  | some old =>
    rw [(entries_erase_perm hold).count_eq, Option.toList_some, ← count_append]
    rfl

theorem count_set (h : s.dialers[i]? = some d) (d' : Dialer) (pc : Nat) :
    ((s.dialers.set i d').flatMap Dialer.conns).count pc + d.conns.count pc =
      (s.dialers.flatMap Dialer.conns).count pc + d'.conns.count pc := by
  obtain ⟨hlt, rfl⟩ := List.getElem?_eq_some_iff.mp h
  have hnew := ((set_perm_cons_eraseIdx hlt d').flatMap_right Dialer.conns).count_eq pc
  have hold := ((getElem_cons_eraseIdx_perm hlt).flatMap_right Dialer.conns).count_eq pc
  simp only [flatMap_cons, count_append] at hnew hold
  omega

/-- A step opens at most the next connection, and none changes its place unnoticed. -/
theorem count_step (s : PeerTable) (e : Event) (pc : Nat) :
    (s.step e).places.count pc + (range s.opened).count pc =
      s.places.count pc + (range (s.step e).opened).count pc := by
  simp only [places, astray, count_append]
  cases e with
  | ensurePeer id known =>
    simp only [step]
    split
    · simp [Dialer.conns]
    · cases known <;> simp [Dialer.conns]
  | ensureSeed => simp [step, Dialer.conns]
  | dial i answer =>
    simp only [step]
    split
    · next expected hd =>
      cases answer with
      | none =>
        have := count_set hd (.returned none) pc
        simp only [dial, Dialer.conns, count_nil] at this ⊢
        omega
      | some id =>
        have hclosed := count_set hd (.returned none) pc
        have hheld := count_set hd (.dialed id s.opened) pc
        simp only [dial, Dialer.conns, count_nil] at hclosed hheld ⊢
        split_ifs <;> simp only [range_succ, count_append] <;> omega
    · rfl
  | store i =>
    simp only [step]
    split
    · next id new hd =>
      have hheld := count_set hd (.returned (some new)) pc
      have hold := count_erase s.peers id pc
      have hnew : (s.peers.insert id new).entries = ⟨id, new⟩ :: (s.peers.erase id).entries := rfl
      simp only [hnew, map_cons, count_cons, count_append, Dialer.conns, count_nil] at hheld ⊢
      omega
    · rfl
  | resetPeer id =>
    have hold := count_erase s.peers id pc
    simp only [step, count_append]
    omega
  | closePeers =>
    simp only [step, count_append, AList.empty_entries, map_nil, count_nil]
    omega

/-- In every run each connection that has been opened is in one place and only there. -/
theorem places_perm (es : List Event) : (exec es).places.Perm (range (exec es).opened) := by
  refine Schedule.exec_invariant (I := fun s : PeerTable => s.places.Perm (range s.opened))
    (fun s e h => ?_) (.refl [])
  rw [perm_iff_count] at h ⊢
  intro pc
  have := count_step s e pc
  have := h pc
  omega

/-- No connection is closed twice, and those that are left when the table is closed are the ones
that a call has yet to store and the ones that have been replaced. -/
theorem closePeers_leaves_astray (es : List Event) :
    let s := exec (es ++ [.closePeers])
    s.closed.Nodup ∧ ∀ pc, (pc < s.opened ∧ pc ∉ s.closed) ↔ pc ∈ s.astray := by
  have hperm := places_perm (es ++ [.closePeers])
  have hnone : (exec (es ++ [.closePeers])).peers.entries = [] := by
    rw [exec, Schedule.exec_concat]
    rfl
  rw [places, hnone, map_nil, nil_append] at hperm
  obtain ⟨hclosed, -, hdisj⟩ := nodup_append.mp (hperm.nodup_iff.mpr nodup_range)
  refine ⟨hclosed, fun pc => ?_⟩
  rw [← mem_range, ← hperm.mem_iff, mem_append]
  constructor
  · exact fun h => h.1.resolve_left h.2
  · exact fun h => ⟨.inr h, fun hc => hdisj pc hc pc h rfl⟩

/-- Two calls for one peer. -/
example : (exec [.ensureSeed, .ensurePeer [1] true, .dial 0 (some [1]), .dial 1 (some [1]),
    .store 0, .store 1, .closePeers]).astray = [0] := by decide

end PeerTable

end Kioshun
