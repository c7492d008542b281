import Kioshun.Cluster.Backfill
import Kioshun.Cluster.HlcSpec
import Kioshun.Cluster.Load
import Kioshun.Cluster.Rebalance

/-!
# The clock of a node and the versions it records

A node takes the versions of its own writes from its clock and shows the clock the
versions it takes over from others, so that the next version it issues exceeds
everything it has recorded. The import of a page shows the clock only the version
of the last item, and an earlier item of the page may then be ahead of the clock.
-/

namespace Kioshun
open Function InMemoryCache List

universe u v
variable {K : Type u} {V : Type v}

def Hint.ver : Hint → UInt64
  | .set _ _ _ Ver _ => Ver
  | .del _ Ver => Ver

def Msg.vers : Msg → List UInt64
  | .set s => [s.Ver]
  | .setBulk sb => sb.Items.map KV.Ver
  | .del d => [d.Ver]

variable [DecidableEq K]

namespace Node

/-- The calls on a node that take a version from its clock; a push is one iteration of
`rebalanceOnce`. -/
inductive Request (K : Type u) (V : Type v) where
  | set (net : Network) (replies : NodeID → Except String Ack) (key : K) (val : V) (ttl : Int)
  | delete (net : Network) (replies : NodeID → Except String Ack) (key : K)
  | getOrLoad (net : Network) (replies : NodeID → Except String Ack) (lease : Lease)
      (reply : NodeID → MsgLeaseLoad → Except String MsgLeaseLoadResp)
      (loader : Except String (V × Int)) (key : K)
  | leaseLoad (net : Network) (replies : NodeID → Except String Ack) (allowed : Bool)
      (lease : Lease) (Loader : Option (K → Except String (V × Int))) (ll : MsgLeaseLoad)
  | push (up : NodeID → Bool) (reply : Except String Ack) (key : K)

structure Served (K : Type u) (V : Type v) where
  sent : List Msg
  hints : List Hint
  node : Node K V

variable [Inhabited V]

def serve (n : Node K V) : Request K V → Served K V
  | .set net replies key val ttl =>
    let w := n.Set net replies key val ttl
    ⟨w.sent.map Prod.snd, w.hints.map Prod.snd, w.node⟩
  | .delete net replies key =>
    let w := n.Delete net replies key
    ⟨w.sent.map Prod.snd, w.hints.map Prod.snd, w.node⟩
  | .getOrLoad net replies lease reply loader key =>
    let w := n.GetOrLoad net replies lease reply loader key
    ⟨w.sent.map Prod.snd, w.hints.map Prod.snd, w.node⟩
  | .leaseLoad net replies allowed lease Loader ll =>
    let w := n.rpcLeaseLoad net replies allowed lease Loader ll
    ⟨w.sent.map Prod.snd, w.hints.map Prod.snd, w.node⟩
  | .push up reply key =>
    let r := n.rebalanceKey up reply key
    ⟨r.1.toList.map fun p => .set p.msg, [], r.2⟩

/-- What may happen to a node: a call, a replicated write, or a page of backfill. -/
inductive Event (K : Type u) (V : Type v) where
  | request (r : Request K V)
  | handle (m : Msg)
  | importPage (kr : MsgBackfillKeysResp)

def happen (n : Node K V) : Event K V → Node K V
  | .request r => (n.serve r).node
  | .handle m => n.handle m
  | .importPage kr => n.importPage kr

def history (n : Node K V) (evs : List (Event K V)) : Node K V := evs.foldl happen n

/-- How often an event reads the clock of the node at most. -/
def Event.calls : Event K V → Nat
  | .request _ => 1
  | .handle m => m.vers.length
  | .importPage _ => 1

def Event.remote : Event K V → List UInt64
  | .request _ => []
  | .handle m => m.vers
  | .importPage kr => kr.Items.map KV.Ver

/-- Every item of a page is at most as new as the last one, or not ahead of the clock. -/
def Covers (n : Node K V) : Event K V → Prop
  | .importPage kr => ∀ last, (n.toImport kr).getLast? = some last →
      ∀ it ∈ n.toImport kr, it.Version ≤ last.Version ∨ stampOf it.Version ≤ n.clock.stamp
  | _ => True

def Covered (n : Node K V) : List (Event K V) → Prop
  | [] => True
  | e :: evs => n.Covers e ∧ (n.happen e).Covered evs

end Node

namespace Node
variable {n n' n'' : Node K V} {ver : UInt64} {B : Int} {k : K}

/-- A step that neither reads the clock nor records a version. -/
structure Untimed (n n' : Node K V) : Prop where
  advances : Advances n n'
  clock : n'.clock = n.clock
  version : n'.version = n.version

theorem Untimed.refl (h : n.Ready) : Untimed n n := ⟨Advances.refl h, rfl, rfl⟩

theorem Untimed.trans (h : Untimed n n') (h' : Untimed n' n'') : Untimed n n'' :=
  ⟨h.advances.trans h'.advances, h'.clock.trans h.clock, h'.version.trans h.version⟩

theorem Silent.untimed (h : Silent n n') (hclock : n'.clock = n.clock) : Untimed n n' :=
  ⟨h.advances, hclock, h.version⟩

theorem Ready.untimed {c : InMemoryCache K V} (h : n.Ready)
    (hout : Outcome n.localCache c) : Untimed n { n with localCache := c } :=
  ⟨h.advances hout, rfl, rfl⟩

/-- The clock takes a step of the kind `moves`, and what is recorded is as `records` says. -/
structure Timed (moves : Hlc → Int → Hlc → Prop) (records : Hlc → UInt64 → Prop)
    (n n' : Node K V) : Prop where
  advances : Advances n n'
  clock : ∃ j, moves n.clock (unixMilli (n.localCache.rt.wall.reading j)) n'.clock
  version : ∀ bk, n'.version bk = n.version bk ∨ records n.clock (n'.version bk)

/-- The clock issues `ver`, and nothing but `ver` is recorded. -/
abbrev Issues (n n' : Node K V) (ver : UInt64) : Prop :=
  Timed (fun clock now clock' => (ver, clock') = clock.Next now) (fun _ v => v = ver) n n'

/-- The clock sees `ver`, and nothing is recorded that is above both `ver` and the clock. -/
abbrev Observes (n n' : Node K V) (ver : UInt64) : Prop :=
  Timed (fun clock now clock' => clock' = clock.Observe ver now)
    (fun clock v => v ≤ ver ∨ stampOf v ≤ clock.stamp) n n'

section
variable {moves : Hlc → Int → Hlc → Prop} {records : Hlc → UInt64 → Prop}

theorem Untimed.timed (h : Untimed n n') (h' : Timed moves records n' n'') :
    Timed moves records n n'' := by
  obtain ⟨hadv, ⟨j, hj⟩, hver⟩ := h'
  rw [h.clock, h.advances.later.reading] at hj
  rw [h.version, h.clock] at hver
  exact ⟨h.advances.trans hadv, ⟨j, hj⟩, hver⟩

theorem Timed.untimed (h : Timed moves records n n') (h' : Untimed n' n'') :
    Timed moves records n n'' := by
  obtain ⟨hadv, hclock, hver⟩ := h
  rw [← h'.clock] at hclock
  rw [← h'.version] at hver
  exact ⟨hadv.trans h'.advances, hclock, hver⟩

end

theorem next_issues (h : n.Ready) : Issues n n.next.2 n.next.1 :=
  ⟨(next_silent h).advances, ⟨n.localCache.rt.wall.ticks, rfl⟩, fun _ => .inl rfl⟩

theorem recordOwn_issues (h : Issues n n' ver) (bk : Bytes) :
    Issues n (n'.recordOwn bk ver) ver := by
  obtain ⟨hadv, hclock, hver⟩ := h
  unfold Node.recordOwn
  split_ifs
  · refine ⟨hadv.trans (record_advances hadv.ready bk ver), hclock, fun bk' => ?_⟩
    by_cases hbk : bk' = bk
    · subst hbk
      exact .inr (update_self ..)
    · rcases hver bk' with hold | hnew
      · exact .inl ((update_of_ne hbk _ _).trans hold)
      · exact .inr ((update_of_ne hbk _ _).trans hnew)
  · exact ⟨hadv, hclock, hver⟩

theorem absExpiry_untimed (h : n.Ready) (ttl : Int) : Untimed n (n.absExpiry ttl).2 :=
  (absExpiry_silent h ttl).untimed (absExpiry_clock ttl)

theorem ownersFor_untimed (h : n.Ready) (k : K) : Untimed n (n.ownersFor k).2 :=
  (ownersFor_silent h k).untimed ownersFor_clock

omit [DecidableEq K] in
theorem sendAll_clock (hint : Hint) (ids : List NodeID) :
    (n.sendAll hint ids).2.clock = n.clock := by
  induction ids generalizing n with
  | nil => rfl
  | cons id ids ih => exact ih

/-- Replication reads no clock, and sends and leaves only its own version. -/
theorem replicate_untimed (h : n.Ready) (net : Network) (replies : NodeID → Except String Ack)
    (hint : Hint) (owners : List NodeMeta) :
    Untimed n (n.replicate net replies hint owners).node ∧
      (∀ m ∈ (n.replicate net replies hint owners).sent.map Prod.snd, m.vers = [hint.ver]) ∧
      ∀ x ∈ (n.replicate net replies hint owners).hints.map Prod.snd, x.ver = hint.ver := by
  obtain ⟨hsilent, hspreads⟩ := replicate_spec h net replies hint owners
  refine ⟨hsilent.untimed (sendAll_clock hint _), fun m hm => ?_, fun x hx => ?_⟩
  · obtain ⟨x, hx, rfl⟩ := mem_map.mp hm
    obtain ⟨-, -, reqID, hmsg⟩ := hspreads.sent x hx
    rw [hmsg]
    cases hint <;> rfl
  · obtain ⟨y, hy, rfl⟩ := mem_map.mp hx
    rw [(hspreads.hints y hy).2]

theorem get_untimed (h : n.Ready) (k : K) :
    Untimed n { n with localCache := (n.localCache.Get k).2 } :=
  h.untimed (get_spec h.valid h.isOpen k).1

variable [Inhabited V]

theorem set_untimed (h : n.Ready) (k : K) (v : V) (ttl : Int) :
    Untimed n { n with localCache := (n.localCache.Set k v ttl).2 } :=
  h.untimed (Set_spec h.valid h.isOpen k v ttl).1.outcome

omit [Inhabited V] in
theorem delete_untimed (h : n.Ready) (k : K) :
    Untimed n { n with localCache := (n.localCache.Delete k).2 } :=
  h.untimed (Delete_spec h.valid h.isOpen k).1

/-- What a call does with the clock: it leaves it alone and sends nothing, or takes one version
from it and sends only that. -/
def Clocked (n : Node K V) (s : Served K V) : Prop :=
  (Untimed n s.node ∧ s.sent = [] ∧ s.hints = []) ∨
    ∃ ver, Issues n s.node ver ∧ (∀ m ∈ s.sent, m.vers = [ver]) ∧ ∀ x ∈ s.hints, x.ver = ver

omit [Inhabited V] in
theorem Untimed.clocked {s : Served K V} (h : Untimed n n') (hs : Clocked n' s) : Clocked n s := by
  rcases hs with ⟨hidle, hnone⟩ | ⟨ver, hiss, hall⟩
  · exact .inl ⟨h.trans hidle, hnone⟩
  · exact .inr ⟨ver, h.timed hiss, hall⟩

omit [Inhabited V] in
/-- A write that is replicated after its version was issued. -/
theorem replicate_issues (h : Issues n n' ver) (net : Network)
    (replies : NodeID → Except String Ack) {hint : Hint} (hver : hint.ver = ver)
    (owners : List NodeMeta) :
    Issues n (n'.replicate net replies hint owners).node ver ∧
      (∀ m ∈ (n'.replicate net replies hint owners).sent.map Prod.snd, m.vers = [ver]) ∧
      ∀ x ∈ (n'.replicate net replies hint owners).hints.map Prod.snd, x.ver = ver := by
  subst hver
  obtain ⟨hunt, hsent, hhints⟩ := replicate_untimed h.advances.ready net replies hint owners
  exact ⟨h.untimed hunt, hsent, hhints⟩

theorem Set_clocked (h : n.Ready) (net : Network) (replies : NodeID → Except String Ack)
    (key : K) (val : V) (ttl : Int) : Clocked n (n.serve (.set net replies key val ttl)) := by
  have hrefused : ∀ err, Clocked n ⟨(n.refuse err).sent.map Prod.snd,
      (n.refuse err).hints.map Prod.snd, (n.refuse err).node⟩ :=
    fun _ => .inl ⟨Untimed.refl h, rfl, rfl⟩
  simp only [serve]
  rcases Set_cases n net replies key val ttl with ⟨err, hw⟩ | ⟨bv, -, hw⟩
  · rw [hw]
    exact hrefused err
  · have habs := absExpiry_untimed h ttl
    have hnext := habs.timed (next_issues habs.advances.ready)
    have hlocal : Issues n ((n.absExpiry ttl).2.next.2.setLocal (n.owners key) key val ttl
        (n.kc.EncodeKey key) (n.absExpiry ttl).2.next.1) (n.absExpiry ttl).2.next.1 := by
      unfold setLocal
      split_ifs
      · exact recordOwn_issues (hnext.untimed (set_untimed hnext.advances.ready key val ttl)) _
      · exact hnext
    rw [hw]
    exact .inr ⟨_, replicate_issues hlocal net replies rfl _⟩

theorem Delete_clocked (h : n.Ready) (net : Network) (replies : NodeID → Except String Ack)
    (key : K) : Clocked n (n.serve (.delete net replies key)) := by
  simp only [serve, Delete]
  split_ifs
  · exact .inl ⟨Untimed.refl h, rfl, rfl⟩
  · exact .inl ⟨Untimed.refl h, rfl, rfl⟩
  · have hnext := next_issues h
    have hlocal : Issues n (n.next.2.deleteLocal (n.owners key) key (n.kc.EncodeKey key) n.next.1)
        n.next.1 := by
      unfold deleteLocal
      split_ifs
      · exact recordOwn_issues (hnext.untimed (delete_untimed hnext.advances.ready key)) _
      · exact hnext
    exact .inr ⟨_, replicate_issues hlocal net replies rfl _⟩

def Called.served {α : Type*} (w : Called K V α) : Served K V :=
  ⟨w.sent.map Prod.snd, w.hints.map Prod.snd, w.node⟩

omit [Inhabited V] in
theorem answer_clocked {α : Type*} (h : Untimed n n') (result : α) :
    Clocked n (Called.served (n'.answer result)) := .inl ⟨h, rfl, rfl⟩

section
variable (h : n.Ready)
include h

variable (net : Network) (replies : NodeID → Except String Ack)

theorem loadOwned_clocked (loader : Except String (V × Int)) (owners : List NodeMeta) (key : K) :
    Clocked n (Called.served (n.loadOwned net replies loader owners key)) := by
  cases loader with
  | error err => exact answer_clocked (Untimed.refl h) _
  | ok loaded =>
    obtain ⟨v, ttl⟩ := loaded
    have hset := set_untimed h key v ttl
    simp only [loadOwned]
    cases n.codec.Encode v with
    | error err => exact answer_clocked hset _
    | ok bv =>
      simp only
      split_ifs
      · exact answer_clocked hset _
      · have hnext := hset.timed (next_issues hset.advances.ready)
        have habs := hnext.untimed (absExpiry_untimed hnext.advances.ready ttl)
        exact .inr ⟨_, (replicate_issues habs net replies rfl owners).imp_left
          (recordOwn_issues · _)⟩

theorem GetOrLoad_clocked (lease : Lease)
    (reply : NodeID → MsgLeaseLoad → Except String MsgLeaseLoadResp)
    (loader : Except String (V × Int)) (key : K) :
    Clocked n (n.serve (.getOrLoad net replies lease reply loader key)) := by
  have hgot := get_untimed h key
  have hagain := hgot.trans (get_untimed hgot.advances.ready key)
  have hreq := hgot.trans ((nextReqID_silent hgot.advances.ready).untimed rfl)
  show Clocked n (Called.served (n.GetOrLoad net replies lease reply loader key))
  unfold GetOrLoad
  simp only
  split
  · exact answer_clocked hgot _
  · exact answer_clocked hgot _
  · split_ifs
    · split
      · exact hgot.clocked (loadOwned_clocked hgot.advances.ready ..)
      · exact answer_clocked hgot _
      · split
        · exact answer_clocked hagain _
        · exact answer_clocked hagain _
    · split
      · exact answer_clocked hreq _
      · exact answer_clocked hreq _
    · exact answer_clocked hgot _

theorem leaseOwned_clocked (loader : K → Except String (V × Int)) (ll : MsgLeaseLoad) (k : K) :
    Clocked n (Called.served (n.leaseOwned net replies loader ll k)) := by
  unfold leaseOwned
  cases loader k with
  | error err => exact answer_clocked (Untimed.refl h) _
  | ok loaded =>
    obtain ⟨v, ttl⟩ := loaded
    have hset := set_untimed h k v ttl
    have howners := hset.trans (ownersFor_untimed hset.advances.ready k)
    have habs := howners.trans (absExpiry_untimed howners.advances.ready ttl)
    have hnext := habs.timed (next_issues habs.advances.ready)
    exact .inr ⟨_, (replicate_issues hnext net replies rfl _).imp_left (recordOwn_issues · _)⟩

theorem rpcLeaseLoad_clocked (allowed : Bool) (lease : Lease)
    (Loader : Option (K → Except String (V × Int))) (ll : MsgLeaseLoad) :
    Clocked n (n.serve (.leaseLoad net replies allowed lease Loader ll)) := by
  show Clocked n (Called.served (n.rpcLeaseLoad net replies allowed lease Loader ll))
  unfold rpcLeaseLoad
  split_ifs
  · cases n.kc.DecodeKey ll.Key with
    | error err => exact answer_clocked (Untimed.refl h) _
    | ok k =>
      have hgot := get_untimed h k
      have hagain := hgot.trans (get_untimed hgot.advances.ready k)
      simp only
      split
      · exact answer_clocked hgot _
      · exact answer_clocked hgot _
      · exact hgot.clocked (leaseOwned_clocked hgot.advances.ready ..)
      · exact answer_clocked hgot _
      · split
        · exact answer_clocked hagain _
        · exact answer_clocked hagain _
  · exact answer_clocked (Untimed.refl h) _

omit [Inhabited V] in
/-- An iteration of `rebalanceOnce` up to the request. -/
theorem pushOf_clocked (up : NodeID → Bool) (k : K) :
    ((n.pushOf up k).1 = none ∧ Untimed n (n.pushOf up k).2) ∨
      ∃ primary msg, (n.pushOf up k).1 = some (primary, msg) ∧
        Issues n (n.pushOf up k).2 msg.Ver := by
  have hown := ownersFor_untimed h k
  have hgot := hown.trans (hown.advances.ready.untimed
    (get_spec hown.advances.ready.valid hown.advances.ready.isOpen k).1)
  have habs := fun ttl => hgot.trans (absExpiry_untimed hgot.advances.ready ttl)
  have hreq := fun ttl =>
    (habs ttl).trans ((nextReqID_silent (habs ttl).advances.ready).untimed rfl)
  unfold pushOf
  simp only [GetWithTTL]
  split
  · exact .inl ⟨rfl, hown⟩
  · split
    · exact .inl ⟨rfl, hown⟩
    · split
      · exact .inl ⟨rfl, hgot⟩
      · split
        · exact .inl ⟨rfl, hgot⟩
        · split
          · exact .inr ⟨_, _, rfl, (hreq _).timed (next_issues (hreq _).advances.ready)⟩
          · exact .inl ⟨rfl, habs _⟩

theorem push_clocked (up : NodeID → Bool) (reply : Except String Ack) (k : K) :
    Clocked n (n.serve (.push up reply k)) := by
  have hpush := pushOf_clocked h up k
  simp only [serve, rebalanceKey]
  generalize n.pushOf up k = r at hpush
  obtain ⟨sent, n'⟩ := r
  rcases hpush with ⟨rfl, hunt⟩ | ⟨primary, msg, rfl, hiss⟩
  · exact .inl ⟨hunt, rfl, rfl⟩
  · refine .inr ⟨msg.Ver, ?_⟩
    simp only
    split_ifs
    · exact ⟨hiss.untimed (delete_untimed hiss.advances.ready k), by simp [Msg.vers], by simp⟩
    · exact ⟨hiss, by simp [Msg.vers], by simp⟩

/-- Every call takes at most one version from the clock, and all it sends has that version. -/
theorem serve_clocked (r : Request K V) : Clocked n (n.serve r) := by
  cases r with
  | set net replies key val ttl => exact Set_clocked h net replies key val ttl
  | delete net replies key => exact Delete_clocked h net replies key
  | getOrLoad net replies lease reply loader key =>
    exact GetOrLoad_clocked h net replies lease reply loader key
  | leaseLoad net replies allowed lease Loader ll =>
    exact rpcLeaseLoad_clocked h net replies allowed lease Loader ll
  | push up reply key => exact push_clocked h up reply key

end

def Handles (n : Node K V) : Msg → Prop
  | .set s => (n.rpcSet s).1.OK = true
  | .setBulk sb => (n.rpcSetBulk sb).1.OK = true
  | .del d => tooLarge n.cfg.Sec.MaxKeySize d.Key = false ∧ ∃ k, n.kc.DecodeKey d.Key = .ok k

omit [Inhabited V] in
theorem commit_observes (h : n.Ready) (hlww : n.cfg.LWWEnabled = true) (bk : Bytes)
    (ver : UInt64) : Observes n (n.commit bk ver) ver := by
  obtain ⟨hadv, -, -, hver⟩ := commit_spec h bk ver
  refine ⟨hadv, ⟨n.localCache.rt.wall.ticks, ?_⟩, fun bk' => ?_⟩
  · rw [commit, if_pos hlww]
    rfl
  · rw [hver hlww]
    by_cases hbk : bk' = bk
    · subst hbk
      rw [update_self]
      exact .inr (.inl (UInt64.le_refl ver))
    · exact .inl (update_of_ne hbk _ _)

theorem importItems_untimed (h : n.Ready) (items : List (Item K V)) :
    Untimed n (n.importItems items) := ⟨(importItems_spec h items).1, rfl, rfl⟩

/-- A set is shown to the clock, unless it is refused or older than what is recorded. -/
theorem rpcSet_observes (h : n.Ready) (hlww : n.cfg.LWWEnabled = true) (s : MsgSet) :
    (Untimed n (n.rpcSet s).2 ∧ (n.Handles (.set s) → s.Ver < n.version s.Key)) ∨
      Observes n (n.rpcSet s).2 s.Ver := by
  have hidle := Untimed.refl h
  simp only [Handles, rpcSet]
  cases n.checkSet s with
  | error err => exact .inl ⟨hidle, fun hok => absurd hok Bool.false_ne_true⟩
  | ok checked =>
    obtain ⟨k, vbytes⟩ := checked
    simp only
    split_ifs with hstale
    · exact .inl ⟨hidle, fun _ => (stale_iff hlww _ _).mp hstale⟩
    · cases n.codec.Decode vbytes with
      | error err => exact .inl ⟨hidle, fun hok => absurd hok Bool.false_ne_true⟩
      | ok val =>
        have himp := importItems_untimed h [⟨k, val, s.Exp, s.Ver⟩]
        exact .inr (himp.timed (commit_observes himp.advances.ready
          (himp.advances.cfg ▸ hlww) s.Key s.Ver))

/-- A delete is shown to the clock, unless it is refused or older than what is recorded. -/
theorem rpcDel_observes (h : n.Ready) (hlww : n.cfg.LWWEnabled = true) (d : MsgDel) :
    (Untimed n (n.rpcDel d).2 ∧ (n.Handles (.del d) → d.Ver < n.version d.Key)) ∨
      Observes n (n.rpcDel d).2 d.Ver := by
  have hidle := Untimed.refl h
  by_cases hlarge : tooLarge n.cfg.Sec.MaxKeySize d.Key = true
  · simp only [Handles, rpcDel, hlarge, if_true]
    exact .inl ⟨hidle, fun hok => absurd hok.1.symm Bool.false_ne_true⟩
  · simp only [Handles, rpcDel, hlarge, Bool.false_eq_true, if_false]
    cases n.kc.DecodeKey d.Key with
    | error err =>
      refine .inl ⟨hidle, ?_⟩
      rintro ⟨-, k, hk⟩
      cases hk
    | ok k =>
      simp only
      split_ifs with hstale
      · exact .inl ⟨hidle, fun _ => (stale_iff hlww _ _).mp hstale⟩
      · have hcommit := commit_observes h hlww d.Key d.Ver
        exact .inr (hcommit.untimed (delete_untimed hcommit.advances.ready k))

/-- The clock is at least at every version that the node has recorded, and together with the
wall below `B` milliseconds. -/
structure Dominates (B : Int) (n : Node K V) : Prop where
  ready : n.Ready
  lww : n.cfg.LWWEnabled = true
  wall : ∀ j, unixMilli (n.localCache.rt.wall.reading j) ≤ B
  sane : n.clock.Sane B
  recorded : ∀ bk, stampOf (n.version bk) ≤ n.clock.stamp

section
omit [Inhabited V]

theorem Dominates.mono {B' : Int} (h : n.Dominates B) (hB : B ≤ B') : n.Dominates B' :=
  ⟨h.ready, h.lww, fun j => (h.wall j).trans hB, h.sane.mono hB, h.recorded⟩

theorem Dominates.advance {B' : Int} (h : n.Dominates B) (hB : B ≤ B') (hadv : Advances n n')
    (hsane : n'.clock.Sane B') (hrec : ∀ bk, stampOf (n'.version bk) ≤ n'.clock.stamp) :
    n'.Dominates B' := by
  refine ⟨hadv.ready, hadv.cfg ▸ h.lww, fun j => ?_, hsane, hrec⟩
  rw [hadv.later.reading]
  exact (h.wall j).trans hB

theorem Untimed.dominates (h : Untimed n n') (hd : n.Dominates B) : n'.Dominates B := by
  refine hd.advance (le_refl B) h.advances (h.clock ▸ hd.sane) fun bk => ?_
  rw [h.version, h.clock]
  exact hd.recorded bk

/-- A version that is issued is above the clock, and the clock is at it afterwards. -/
theorem issues_dominates (h : Issues n n' ver) (hd : n.Dominates B) (hB : B < 2 ^ 62) :
    n'.Dominates (B + 1) ∧ n.clock.stamp < n'.clock.stamp ∧
      stampOf ver ≤ n'.clock.stamp ∧ (B + 1 < 2 ^ 48 → stampOf ver = n'.clock.stamp) := by
  obtain ⟨hadv, ⟨j, hj⟩, hver⟩ := h
  have hnow : unixMilli (n.localCache.rt.wall.reading j) ≤ B + 1 :=
    (hd.wall j).trans (by omega)
  obtain ⟨hsane, hlt, -⟩ := Hlc.Next_spec hd.sane hB hnow
  obtain ⟨hle, heq⟩ := Hlc.stampOf_Next hsane
  rw [← hj] at hsane hlt hle heq
  refine ⟨hd.advance (by omega) hadv hsane fun bk => ?_, hlt, hle, heq⟩
  rcases hver bk with hold | hnew
  · rw [hold]
    exact (hd.recorded bk).trans hlt.le
  · rw [hnew]
    exact hle

/-- A version that is observed is below the clock afterwards. -/
theorem observes_dominates (h : Observes n n' ver) (hd : n.Dominates B) (hB : B < 2 ^ 62)
    (hremote : ((stampOf ver / 256 : Nat) : Int) ≤ B) :
    n'.Dominates (B + 1) ∧ n.clock.stamp < n'.clock.stamp ∧ stampOf ver < n'.clock.stamp := by
  obtain ⟨hadv, ⟨j, hj⟩, hver⟩ := h
  have hnow : unixMilli (n.localCache.rt.wall.reading j) ≤ B + 1 :=
    (hd.wall j).trans (by omega)
  obtain ⟨hsane, hlt, hltr⟩ := Hlc.Observe_spec hd.sane hB hnow hremote
  rw [← hj] at hsane hlt hltr
  refine ⟨hd.advance (by omega) hadv hsane fun bk => ?_, hlt, hltr⟩
  rcases hver bk with hold | hnew | hbehind
  · rw [hold]
    exact (hd.recorded bk).trans hlt.le
  · exact (stampOf_le hnew).trans hltr.le
  · exact hbehind.trans hlt.le

end

theorem serve_dominates (hd : n.Dominates B) (hB : B < 2 ^ 62) (r : Request K V) :
    (n.serve r).node.Dominates (B + 1) ∧ n.clock.stamp ≤ (n.serve r).node.clock.stamp := by
  rcases serve_clocked hd.ready r with ⟨hunt, -⟩ | ⟨ver, hiss, -⟩
  · exact ⟨(hunt.dominates hd).mono (by omega), hunt.clock ▸ le_refl _⟩
  · obtain ⟨hdom, hlt, -⟩ := issues_dominates hiss hd hB
    exact ⟨hdom, hlt.le⟩

def Below (B : Int) (vers : List UInt64) : Prop :=
  ∀ ver ∈ vers, ((stampOf ver / 256 : Nat) : Int) ≤ B

omit [Inhabited V] in
theorem collect_dominates (hd : n.Dominates B) (items : List (Item K V)) (kvs : List KV)
    (hB : B + kvs.length < 2 ^ 62) (hbelow : Below B (kvs.map KV.Ver)) :
    (n.collect items kvs).2.Dominates (B + kvs.length) ∧
      n.clock.stamp ≤ (n.collect items kvs).2.clock.stamp ∧
      ((∃ all, (n.collect items kvs).1 = .ok all) →
        ∀ kv ∈ kvs, stampOf kv.Ver ≤ (n.collect items kvs).2.clock.stamp) := by
  induction kvs generalizing n items B with
  | nil => exact ⟨hd.mono (by simp), le_refl _, fun _ kv hkv => nomatch hkv⟩
  | cons kv kvs ih =>
    simp only [length_cons, Nat.cast_add, Nat.cast_one] at hB ⊢
    have hrest : Below B (kvs.map KV.Ver) := fun ver hver => hbelow ver (mem_cons_of_mem _ hver)
    unfold collect
    cases n.checkItem kv with
    | error err =>
      refine ⟨hd.mono (by omega), le_refl _, ?_⟩
      rintro ⟨all, hall⟩
      cases hall
    | ok checked =>
      simp only
      split_ifs with hstale
      · obtain ⟨hdom, hle, hreach⟩ := ih hd items (by omega) hrest
        refine ⟨hdom.mono (by omega), hle, fun hok => ?_⟩
        have hlt := (stale_iff hd.lww kv.K kv.Ver).mp hstale
        have hhead := (stampOf_le (UInt64.le_of_lt hlt)).trans (hd.recorded kv.K)
        exact forall_mem_cons.mpr ⟨hhead.trans hle, hreach hok⟩
      · obtain ⟨hdom, hlt, hltv⟩ := observes_dominates
          (commit_observes hd.ready hd.lww kv.K kv.Ver) hd (by omega) (hbelow _ mem_cons_self)
        obtain ⟨hdom', hle, hreach⟩ := ih hdom (items ++ [⟨checked.1, checked.2, kv.E, kv.Ver⟩])
          (by omega) fun ver hver => (hrest ver hver).trans (by omega)
        refine ⟨?_, hlt.le.trans hle, fun hok => ?_⟩
        · rw [add_comm (kvs.length : Int) 1, ← add_assoc]
          exact hdom'
        · exact forall_mem_cons.mpr ⟨hltv.le.trans hle, hreach hok⟩

omit [Inhabited V] in
/-- One version that was either shown to the clock or found stale. -/
theorem Dominates.shown (hd : n.Dominates B) (hB : B + 1 < 2 ^ 62) {bk : Bytes} {P : Prop}
    (hbelow : Below B [ver])
    (h : (Untimed n n' ∧ (P → ver < n.version bk)) ∨ Observes n n' ver) :
    n'.Dominates (B + 1) ∧ n.clock.stamp ≤ n'.clock.stamp ∧
      (P → ∀ ver' ∈ [ver], stampOf ver' ≤ n'.clock.stamp) := by
  simp only [forall_mem_singleton]
  rcases h with ⟨hunt, hstale⟩ | hobs
  · refine ⟨(hunt.dominates hd).mono (by omega), hunt.clock ▸ le_refl _, fun hp => ?_⟩
    rw [hunt.clock]
    exact (stampOf_le (UInt64.le_of_lt (hstale hp))).trans (hd.recorded bk)
  · obtain ⟨hdom, hlt, hltv⟩ := observes_dominates hobs hd (by omega) (hbelow _ mem_cons_self)
    exact ⟨hdom, hlt.le, fun _ => hltv.le⟩

/-- A message that is taken over or found stale leaves the clock at its versions or beyond. -/
theorem handle_dominates (hd : n.Dominates B) {m : Msg} (hB : B + m.vers.length < 2 ^ 62)
    (hbelow : Below B m.vers) :
    (n.handle m).Dominates (B + m.vers.length) ∧ n.clock.stamp ≤ (n.handle m).clock.stamp ∧
      (n.Handles m → ∀ ver ∈ m.vers, stampOf ver ≤ (n.handle m).clock.stamp) := by
  cases m with
  | set s => exact hd.shown hB hbelow (rpcSet_observes hd.ready hd.lww s)
  | del d => exact hd.shown hB hbelow (rpcDel_observes hd.ready hd.lww d)
  | setBulk sb =>
    simp only [Msg.vers, length_map] at hB ⊢
    obtain ⟨hdom, hle, hreach⟩ := collect_dominates hd [] sb.Items hB hbelow
    simp only [handle, Handles, rpcSetBulk, forall_mem_map]
    cases hres : (n.collect [] sb.Items).1 with
    | error err => exact ⟨hdom, hle, nofun⟩
    | ok items =>
      have himp := importItems_untimed hdom.ready items
      refine ⟨himp.dominates hdom, himp.clock.symm ▸ hle, fun _ kv hkv => ?_⟩
      rw [himp.clock]
      exact hreach ⟨items, hres⟩ kv hkv

section Pages

omit [DecidableEq K] [Inhabited V] in
theorem decodeItem_version {kv : KV} {it : Item K V} (h : n.decodeItem kv = some it) :
    it.Version = kv.Ver := by
  unfold decodeItem at h
  cases hk : n.kc.DecodeKey kv.K with
  | error err => simp [hk] at h
  | ok k =>
    cases hv : n.maybeDecompress kv.V kv.Cp with
    | error err => simp [hk, hv] at h
    | ok vb =>
      cases hd : n.codec.Decode vb with
      | error err => simp [hk, hv, hd] at h
      | ok v =>
        simp only [hk, hv, hd, Option.some.injEq] at h
        exact h ▸ rfl

variable {kr : MsgBackfillKeysResp}

omit [DecidableEq K] [Inhabited V] in
theorem version_of_toImport {it : Item K V} (h : it ∈ n.toImport kr) :
    it.Version ∈ kr.Items.map KV.Ver := by
  obtain ⟨kv, hkv, hdec⟩ := mem_filterMap.mp h
  exact mem_map.mpr ⟨kv, hkv, (decodeItem_version hdec).symm⟩

omit [Inhabited V] in
/-- What `recordAll` records comes from the items, and the clock is not asked. -/
theorem recordAll_clock (h : n.Ready) (items : List (Item K V)) :
    Advances n (n.recordAll items) ∧ (n.recordAll items).clock = n.clock ∧
      ∀ bk, (n.recordAll items).version bk = n.version bk ∨
        ∃ it ∈ items, (n.recordAll items).version bk = it.Version := by
  induction items generalizing n with
  | nil => exact ⟨Advances.refl h, rfl, fun _ => .inl rfl⟩
  | cons it items ih =>
    have hrec := record_advances h (n.kc.EncodeKey it.Key) it.Version
    obtain ⟨hadv, hclock, hver⟩ := ih hrec.ready
    refine ⟨hrec.trans hadv, hclock, fun bk => ?_⟩
    rcases hver bk with hold | ⟨it', hmem, hnew⟩
    · by_cases hbk : bk = n.kc.EncodeKey it.Key
      · subst hbk
        exact .inr ⟨it, mem_cons_self, hold.trans (update_self ..)⟩
      · exact .inl (hold.trans (update_of_ne hbk _ _))
    · exact .inr ⟨it', mem_cons_of_mem _ hmem, hnew⟩

/-- A page whose items are covered shows the clock enough. -/
theorem importPage_observes (h : n.Ready) (hlww : n.cfg.LWWEnabled = true)
    (hcov : n.Covers (.importPage kr)) :
    (Advances n (n.importPage kr) ∧ (n.importPage kr).clock = n.clock ∧
      ∀ bk, (n.importPage kr).version bk = n.version bk ∨
        stampOf ((n.importPage kr).version bk) ≤ n.clock.stamp) ∨
    ∃ ver ∈ kr.Items.map KV.Ver, Observes n (n.importPage kr) ver := by
  unfold importPage
  cases hlast : (n.toImport kr).getLast? with
  | none => exact .inl ⟨Advances.refl h, rfl, fun _ => .inl rfl⟩
  | some last =>
    have himp := importItems_untimed h (n.toImport kr)
    obtain ⟨hadv, hclock, hver⟩ := recordAll_clock himp.advances.ready (n.toImport kr)
    rw [himp.clock] at hclock
    rw [himp.version] at hver
    have hall := himp.advances.trans hadv
    simp only [hlww, if_true]
    generalize (n.importItems (n.toImport kr)).recordAll (n.toImport kr) = r at hall hclock hver ⊢
    split_ifs with hpos
    · refine .inr ⟨last.Version, version_of_toImport (mem_of_getLast? hlast),
        hall.trans (observe_silent hall.ready _).advances, ⟨r.localCache.rt.wall.ticks, ?_⟩,
        fun bk => ?_⟩
      · rw [← hclock, ← hall.later.reading]
        rfl
      · rcases hver bk with hold | ⟨it, hmem, hnew⟩
        · exact .inl hold
        · have hkept : (r.observe last.Version).version bk = it.Version := hnew
          rw [hkept]
          exact .inr (hcov last hlast it hmem)
    · -- the last item has version 0, and so has every item that it covers
      refine .inl ⟨hall, hclock, fun bk => ?_⟩
      rcases hver bk with hold | ⟨it, hmem, hnew⟩
      · exact .inl hold
      · rw [hnew]
        rcases hcov last hlast it hmem with hle | hle
        · have hzero : stampOf it.Version ≤ stampOf 0 :=
            stampOf_le (UInt64.le_trans hle (UInt64.not_lt.mp hpos))
          exact .inr (hzero.trans (Nat.zero_le _))
        · exact .inr hle

/-- A page keeps the clock ahead if its items are covered. -/
theorem importPage_dominates (hd : n.Dominates B) (hB : B < 2 ^ 62)
    (hbelow : Below B (kr.Items.map KV.Ver)) (hcov : n.Covers (.importPage kr)) :
    (n.importPage kr).Dominates (B + 1) := by
  rcases importPage_observes hd.ready hd.lww hcov with ⟨hadv, hclock, hver⟩ | ⟨ver, hmem, hobs⟩
  · refine hd.advance (by omega) hadv (hclock.symm ▸ hd.sane.mono (by omega)) fun bk => ?_
    rw [hclock]
    rcases hver bk with hold | hle
    · rw [hold]
      exact hd.recorded bk
    · exact hle
  · exact (observes_dominates hobs hd hB (hbelow ver hmem)).1

end Pages

theorem happen_dominates (hd : n.Dominates B) {e : Event K V} (hB : B + e.calls < 2 ^ 62)
    (hbelow : Below B e.remote) (hcov : n.Covers e) : (n.happen e).Dominates (B + e.calls) := by
  cases e with
  | request r => exact (serve_dominates hd (by simp only [Event.calls] at hB; omega) r).1
  | handle m => exact (handle_dominates hd hB hbelow).1
  | importPage kr =>
    exact importPage_dominates hd (by simp only [Event.calls] at hB; omega) hbelow hcov

theorem history_dominates (hd : n.Dominates B) {evs : List (Event K V)}
    (hB : B + (evs.map Event.calls).sum < 2 ^ 62) (hbelow : ∀ e ∈ evs, Below B e.remote)
    (hcov : n.Covered evs) : (n.history evs).Dominates (B + (evs.map Event.calls).sum) := by
  induction evs generalizing n B with
  | nil => exact hd.mono (by simp)
  | cons e evs ih =>
    simp only [map_cons, sum_cons, Nat.cast_add] at hB ⊢
    have hstep := happen_dominates hd (by omega) (hbelow e mem_cons_self) hcov.1
    have hrest : ∀ e' ∈ evs, Below (B + e.calls) e'.remote := fun e' he' ver hver =>
      (hbelow e' (mem_cons_of_mem _ he') ver hver).trans (by omega)
    have hrun := ih hstep (by omega) hrest hcov.2
    rw [add_assoc] at hrun
    exact hrun

/-- In every history in which the items of each page are covered when it arrives, with fewer than
`2 ^ 47` uses of the clock and a wall below `2 ^ 47` milliseconds, the next version exceeds all
versions that the node has recorded, and no replica that has recorded the same finds it stale. -/
theorem next_exceeds_recorded (h : n.Ready) (hlww : n.cfg.LWWEnabled = true) {nodeID : UInt16}
    (hclock : n.clock = Hlc.newHLC nodeID) (hempty : n.version = fun _ => 0)
    (hwall : ∀ j, unixMilli (n.localCache.rt.wall.reading j) < 2 ^ 47) (evs : List (Event K V))
    (hremote : ∀ e ∈ evs, ∀ ver ∈ e.remote, (unpackHLC ver).1 < 2 ^ 47)
    (hcalls : (evs.map Event.calls).sum < 2 ^ 47) (hcov : n.Covered evs) :
    ∀ bk, (n.history evs).version bk < (n.history evs).next.1 ∧
      ∀ q : Node K V, q.version bk = (n.history evs).version bk →
        q.stale bk (n.history evs).next.1 = false := by
  have hinit : n.Dominates (2 ^ 47 - 1) := by
    refine ⟨h, hlww, fun j => Int.le_sub_one_of_lt (hwall j), ?_, by simp [hempty, stampOf]⟩
    rw [hclock]
    exact Hlc.newHLC_sane nodeID (by norm_num)
  have hbelow : ∀ e ∈ evs, Below (2 ^ 47 - 1) e.remote := by
    intro e he ver hver
    rw [← unpackHLC_fst]
    exact Int.le_sub_one_of_lt (hremote e he ver hver)
  have hrun := history_dominates hinit (by omega) hbelow hcov
  obtain ⟨-, hlt, -, heq⟩ := issues_dominates (next_issues hrun.ready) hrun (by omega)
  intro bk
  have hnext : (n.history evs).version bk < (n.history evs).next.1 := by
    apply lt_of_stampOf_lt
    rw [heq (by omega)]
    exact (hrun.recorded bk).trans_lt hlt
  refine ⟨hnext, fun q hq => ?_⟩
  rw [stale, hq, decide_eq_false (UInt64.lt_asymm hnext), Bool.and_false]

def pageThenSet : List (Event UInt8 UInt8) :=
  [.importPage ⟨[⟨[8], [1], 0, 1, false⟩, ⟨[9], [1], 0, 65536000, false⟩]⟩,
    .request (.set ⟨fun _ => true, fun _ => false, true⟩ (fun _ => .error "") 7 1 0)]

theorem next_exceeds_recorded_page :
    let n := (plain [1] ⟨[], 1⟩ (freshCache fun _ => 0)).history pageThenSet
    ∀ bk, n.version bk < n.next.1 := by
  intro n bk
  have hcov : (plain [1] ⟨[], 1⟩ (freshCache fun _ => 0)).Covered pageThenSet := by
    refine ⟨fun last hlast it hit => .inl ?_, trivial, trivial⟩
    obtain rfl : ⟨9, 1, 0, 65536000⟩ = last := Option.some.inj hlast
    revert it
    exact (by decide : ∀ it ∈ [(⟨8, 1, 0, 1⟩ : Item UInt8 UInt8), ⟨9, 1, 0, 65536000⟩],
      it.Version ≤ 65536000)
  have hremote : ∀ e ∈ pageThenSet, ∀ ver ∈ e.remote, (unpackHLC ver).1 < 2 ^ 47 := by
    have hall : pageThenSet.all fun e => e.remote.all fun ver => (unpackHLC ver).1 < 2 ^ 47 := by
      decide
    simpa only [all_eq_true, decide_eq_true_eq] using hall
  refine (next_exceeds_recorded (plain_replica ..).ready rfl rfl rfl (fun j => ?_) pageThenSet
    hremote (by decide) hcov bk).1
  show unixMilli ((freshCache fun _ => 0).rt.wall.reading j) < 2 ^ 47
  rw [freshCache_reading]
  decide

/-- The first of two items is ahead of the second one, and so of the next version. -/
theorem next_behind_page :
    let n := (plain [1] ⟨[], 1⟩ (freshCache fun n => n)).history
      [.importPage ⟨[⟨[7], [1], 0, 65536000, false⟩, ⟨[8], [1], 0, 1, false⟩]⟩]
    n.version [7] = 65536000 ∧ n.next.1 = 513 := by
  decide +kernel

end Node

end Kioshun
