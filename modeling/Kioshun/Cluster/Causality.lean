import Kioshun.Cluster.ClockSpec
import Kioshun.Lib.Causality

/-!
# Versions follow the causal order

Any number of nodes serve calls and exchange the sets and deletes that result
from them. What a call has sent, or has left as a hint, may be delivered to any
node at any later time, several times or never. Versions that are issued then
respect the order of the events on each node and of the messages between them.
-/

namespace Kioshun
open Function Node

universe u v w
variable {ι : Type w} {K : Type u} {V : Type v} [DecidableEq ι] [DecidableEq K] [Inhabited V]

/-- The nodes and what has been sent so far, with the event that has sent it. -/
structure Exchange (ι : Type w) (K : Type u) (V : Type v) where
  nodes : ι → Node K V
  sent : List (Nat × Msg)
  hints : List (Nat × Hint)

/-- An event at a node: a call, or the arrival of a message that the event `origin` has sent. -/
inductive Move (ι : Type w) (K : Type u) (V : Type v) where
  | call (i : ι) (r : Request K V)
  | deliver (i : ι) (origin : Nat) (m : Msg)

def Move.at : Move ι K V → ι
  | .call i _ => i
  | .deliver i _ _ => i

namespace Exchange

def perform (s : Exchange ι K V) (t : Nat) : Move ι K V → Exchange ι K V
  | .call i r =>
    let served := (s.nodes i).serve r
    ⟨update s.nodes i served.node, s.sent ++ served.sent.map (t, ·),
      s.hints ++ served.hints.map (t, ·)⟩
  | .deliver i _ m => { s with nodes := update s.nodes i ((s.nodes i).handle m) }

/-- The message was sent by the event `origin`, or is made from a hint that it has left. -/
def Offers (s : Exchange ι K V) (origin : Nat) (m : Msg) : Prop :=
  (origin, m) ∈ s.sent ∨ ∃ x reqID, (origin, x) ∈ s.hints ∧ m = x.toMsg reqID

/-- New nodes, and nothing is on its way. The wall clocks may differ and step back. -/
structure Fresh (s : Exchange ι K V) : Prop where
  ready : ∀ i, (s.nodes i).Ready
  lww : ∀ i, (s.nodes i).cfg.LWWEnabled = true
  clock : ∀ i, ∃ nodeID, (s.nodes i).clock = Hlc.newHLC nodeID
  version : ∀ i bk, (s.nodes i).version bk = 0
  wall : ∀ i j, unixMilli ((s.nodes i).localCache.rt.wall.reading j) < 2 ^ 47
  sent : s.sent = []
  hints : s.hints = []

def after (s : Exchange ι K V) (label : Nat → Move ι K V) : Nat → Exchange ι K V
  | 0 => s
  | t + 1 => (after s label t).perform t (label t)

end Exchange

structure Run (ι : Type w) (K : Type u) (V : Type v) [DecidableEq ι] [DecidableEq K]
    [Inhabited V] where
  start : Exchange ι K V
  fresh : start.Fresh
  length : Nat
  label : Nat → Move ι K V
  offers : ∀ t < length, ∀ i origin m, label t = .deliver i origin m →
    (start.after label t).Offers origin m

namespace Run
variable (R : Run ι K V)

def state (t : Nat) : Exchange ι K V := R.start.after R.label t

/-- The node of an event, before it and after it. -/
def before (t : Nat) : Node K V := (R.state t).nodes (R.label t).at

def after (t : Nat) : Node K V := (R.state (t + 1)).nodes (R.label t).at

def Issued (t : Nat) (ver : UInt64) : Prop :=
  (∃ i r, R.label t = .call i r) ∧ ∃ j, (ver, (R.after t).clock) =
    (R.before t).clock.Next (unixMilli ((R.before t).localCache.rt.wall.reading j))

/-- The event takes over the message of version `ver`, or drops it as stale. -/
def Handled (t : Nat) (ver : UInt64) : Prop :=
  ∃ i origin m, R.label t = .deliver i origin m ∧ (R.before t).Handles m ∧ ver ∈ m.vers

def Program (s t : Fin R.length) : Prop := s < t ∧ (R.label s).at = (R.label t).at

def Message (s t : Fin R.length) : Prop :=
  ∃ i m, R.label t = .deliver i s m ∧ (R.before t).Handles m

def HappensBefore : Fin R.length → Fin R.length → Prop :=
  Causality.HappensBefore R.Program R.Message

end Run

namespace Run
variable {R : Run ι K V} {s t : Nat} {ver : UInt64}

theorem state_succ (t : Nat) : R.state (t + 1) = (R.state t).perform t (R.label t) := rfl

variable {i : ι}

/-- An event changes its own node only. -/
theorem nodes_of_ne (h : i ≠ (R.label t).at) : (R.state (t + 1)).nodes i = (R.state t).nodes i := by
  rw [state_succ]
  cases hl : R.label t with
  | call i' r =>
    rw [hl] at h
    exact update_of_ne h _ _
  | deliver i' origin m =>
    rw [hl] at h
    exact update_of_ne h _ _

variable {r : Request K V}

theorem after_call (h : R.label t = .call i r) : R.after t = ((R.before t).serve r).node := by
  simp only [after, before, state_succ, h, Exchange.perform, Move.at, update_self]

variable {origin : Nat} {m : Msg}

theorem after_deliver (h : R.label t = .deliver i origin m) :
    R.after t = (R.before t).handle m := by
  simp only [after, before, state_succ, h, Exchange.perform, Move.at, update_self]

/-- All nodes have clocks ahead of what they have recorded, and what is on its way has the version
that was issued by the event it comes from. -/
structure Consistent (R : Run ι K V) (t : Nat) : Prop where
  nodes : ∀ i, ((R.state t).nodes i).Dominates (2 ^ 47 - 1 + t)
  offers : ∀ origin m, (R.state t).Offers origin m →
    origin < t ∧ ∃ ver, m.vers = [ver] ∧ R.Issued origin ver

theorem consistent_zero (R : Run ι K V) : R.Consistent 0 := by
  obtain ⟨hready, hlww, hclock, hver, hwall, hsent, hhints⟩ := R.fresh
  constructor
  · intro i
    obtain ⟨nodeID, hid⟩ := hclock i
    refine ⟨hready i, hlww i, fun j => ?_, ?_, fun bk => ?_⟩
    · have := hwall i j
      simp only [Nat.cast_zero]
      exact Int.le_sub_one_of_lt this
    · show ((R.start.nodes i).clock).Sane _
      rw [hid]
      exact Hlc.newHLC_sane nodeID (by norm_num)
    · show stampOf ((R.start.nodes i).version bk) ≤ _
      rw [hver i bk]
      exact Nat.zero_le _
  · rintro origin m (hmem | ⟨x, reqID, hmem, -⟩)
    · have hmem' : (origin, m) ∈ R.start.sent := hmem
      rw [hsent] at hmem'
      cases hmem'
    · have hmem' : (origin, x) ∈ R.start.hints := hmem
      rw [hhints] at hmem'
      cases hmem'

/-- The clock stands at a version right after it was issued. -/
theorem Consistent.issued (h : R.Consistent t) (ht : t < 2 ^ 47) (hi : R.Issued t ver) :
    (R.before t).clock.stamp < stampOf ver ∧ stampOf ver = (R.after t).clock.stamp ∧
      ((stampOf ver / 256 : Nat) : Int) ≤ 2 ^ 47 + t := by
  obtain ⟨-, j, hj⟩ := hi
  have hd : (R.before t).Dominates (2 ^ 47 - 1 + t) := h.nodes (R.label t).at
  have hnow := (hd.wall j).trans (show 2 ^ 47 - 1 + (t : Int) ≤ 2 ^ 47 - 1 + t + 1 by omega)
  obtain ⟨hsane, hlt, -⟩ := Hlc.Next_spec hd.sane (by omega) hnow
  obtain ⟨-, heq⟩ := Hlc.stampOf_Next hsane
  have heq := heq (by omega)
  rw [← hj] at hsane hlt heq
  simp only at hsane hlt heq
  refine ⟨hlt.trans_eq heq.symm, heq, ?_⟩
  obtain ⟨h0, hle, hseq⟩ := hsane
  rw [heq, Hlc.stamp]
  omega

theorem vers_toMsg (x : Hint) (reqID : UInt64) : (x.toMsg reqID).vers = [x.ver] := by
  cases x <;> rfl

/-- What a call adds to the messages on their way. -/
theorem offers_call (hl : R.label t = .call i r) (h : (R.state (t + 1)).Offers origin m) :
    (R.state t).Offers origin m ∨ origin = t ∧
      (m ∈ ((R.before t).serve r).sent ∨
        ∃ x ∈ ((R.before t).serve r).hints, ∃ reqID, m = x.toMsg reqID) := by
  have hbefore : R.before t = (R.state t).nodes i := by rw [before, hl]; rfl
  rw [state_succ, hl] at h
  rw [hbefore]
  rcases h with hmem | ⟨x, reqID, hmem, rfl⟩
  · rcases List.mem_append.mp hmem with hold | hnew
    · exact .inl (.inl hold)
    · obtain ⟨m', hm', heq⟩ := List.mem_map.mp hnew
      cases heq
      exact .inr ⟨rfl, .inl hm'⟩
  · rcases List.mem_append.mp hmem with hold | hnew
    · exact .inl (.inr ⟨x, reqID, hold, rfl⟩)
    · obtain ⟨x', hx', heq⟩ := List.mem_map.mp hnew
      cases heq
      exact .inr ⟨rfl, .inr ⟨x, hx', reqID, rfl⟩⟩

theorem offers_deliver {o origin : Nat} {m' m : Msg} (hl : R.label t = .deliver i o m')
    (h : (R.state (t + 1)).Offers origin m) : (R.state t).Offers origin m := by
  rw [state_succ, hl] at h
  exact h

/-- What a call sends has the version that it issues. -/
theorem Consistent.sends (h : R.Consistent t) (hl : R.label t = .call i r)
    (hm : m ∈ ((R.before t).serve r).sent ∨
      ∃ x ∈ ((R.before t).serve r).hints, ∃ reqID, m = x.toMsg reqID) :
    ∃ ver, m.vers = [ver] ∧ R.Issued t ver := by
  have hready : (R.before t).Ready := (h.nodes _).ready
  rcases serve_clocked hready r with ⟨-, hsent, hhints⟩ | ⟨ver, hiss, hsent, hhints⟩
  · rw [hsent, hhints] at hm
    rcases hm with hnil | ⟨x, hnil, -⟩ <;> cases hnil
  · refine ⟨ver, ?_, ⟨i, r, hl⟩, ?_⟩
    · rcases hm with hm | ⟨x, hx, reqID, rfl⟩
      · exact hsent m hm
      · rw [vers_toMsg, hhints x hx]
    · rw [after_call hl]
      exact hiss.clock

theorem Consistent.below (h : R.Consistent t) (ht : t < 2 ^ 47) (hall : ∀ s < t, R.Consistent s)
    (hoff : (R.state t).Offers origin m) : Below (2 ^ 47 - 1 + t) m.vers := by
  obtain ⟨hlt, ver, hvers, hiss⟩ := h.offers origin m hoff
  have hle := ((hall origin hlt).issued (by omega) hiss).2.2
  rw [hvers]
  intro ver' hver'
  rw [List.mem_singleton.mp hver']
  omega

theorem consistent_succ (hlen : t < R.length) (ht : t < 2 ^ 47)
    (hall : ∀ s ≤ t, R.Consistent s) : R.Consistent (t + 1) := by
  have h := hall t (le_refl t)
  have hd : (R.before t).Dominates (2 ^ 47 - 1 + t) := h.nodes (R.label t).at
  have hcast : (2 ^ 47 - 1 + ((t + 1 : Nat) : Int)) = 2 ^ 47 - 1 + t + 1 := by push_cast; ring
  -- the node of the event; the others keep their clocks
  have hnode : (R.after t).Dominates (2 ^ 47 - 1 + t + 1) := by
    cases hl : R.label t with
    | call i r =>
      rw [after_call hl]
      exact (serve_dominates hd (by omega) r).1
    | deliver i origin m =>
      have hoff := R.offers t hlen i origin m hl
      obtain ⟨-, ver, hvers, -⟩ := h.offers origin m hoff
      have hbelow := h.below ht (fun s hs => hall s hs.le) hoff
      rw [after_deliver hl]
      have hstep := (handle_dominates hd (by rw [hvers]; simp; omega) hbelow).1
      rw [hvers] at hstep
      exact hstep
  constructor
  · intro i
    rw [hcast]
    by_cases hi : i = (R.label t).at
    · rw [hi]
      exact hnode
    · rw [nodes_of_ne hi]
      exact (h.nodes i).mono (by omega)
  · intro origin m hoff
    cases hl : R.label t with
    | call i r =>
      rcases offers_call hl hoff with hold | ⟨rfl, hnew⟩
      · obtain ⟨hlt, hver⟩ := h.offers origin m hold
        exact ⟨by omega, hver⟩
      · exact ⟨Nat.lt_succ_self _, h.sends hl hnew⟩
    | deliver i o m' =>
      obtain ⟨hlt, hver⟩ := h.offers origin m (offers_deliver hl hoff)
      exact ⟨by omega, hver⟩

theorem consistent (hlen : R.length < 2 ^ 47) (ht : t ≤ R.length) : R.Consistent t := by
  induction t using Nat.strongRecOn with
  | ind t ih =>
    cases t with
    | zero => exact consistent_zero R
    | succ t => exact consistent_succ ht (by omega) fun s hs => ih s (by omega) (by omega)

/-- An event does not turn back the clock of its node, and moves it to what it handles. -/
theorem Consistent.tick (h : R.Consistent t) (hlen : t < R.length) (ht : t < 2 ^ 47)
    (hall : ∀ s < t, R.Consistent s) :
    (R.before t).clock.stamp ≤ (R.after t).clock.stamp ∧
      ∀ ver, R.Handled t ver → stampOf ver ≤ (R.after t).clock.stamp := by
  have hd : (R.before t).Dominates (2 ^ 47 - 1 + t) := h.nodes (R.label t).at
  cases hl : R.label t with
  | call i r =>
    rw [after_call hl]
    refine ⟨(serve_dominates hd (by omega) r).2, ?_⟩
    rintro ver ⟨i', origin, m, hl', -⟩
    rw [hl] at hl'
    cases hl'
  | deliver i origin m =>
    have hoff := R.offers t hlen i origin m hl
    obtain ⟨-, ver', hvers, -⟩ := h.offers origin m hoff
    obtain ⟨-, hle, hreach⟩ := handle_dominates hd (by rw [hvers]; simp; omega)
      (h.below ht hall hoff)
    rw [after_deliver hl]
    refine ⟨hle, ?_⟩
    rintro ver ⟨i', origin', m', hl', hhandles, hmem⟩
    rw [hl] at hl'
    cases hl'
    exact hreach hhandles ver hmem

theorem stamp_mono (hlen : R.length < 2 ^ 47) (hst : s ≤ t) (ht : t ≤ R.length) (i : ι) :
    ((R.state s).nodes i).clock.stamp ≤ ((R.state t).nodes i).clock.stamp := by
  induction t, hst using Nat.le_induction with
  | base => exact le_refl _
  | succ t hst ih =>
    have hstep : ((R.state t).nodes i).clock.stamp ≤ ((R.state (t + 1)).nodes i).clock.stamp := by
      by_cases hi : i = (R.label t).at
      · rw [hi]
        exact ((consistent hlen (by omega)).tick ht (by omega)
          fun s hs => consistent hlen (by omega)).1
      · rw [nodes_of_ne hi]
    exact (ih (by omega)).trans hstep

/-- The stamps of the nodes' clocks follow the program order and the messages. -/
theorem stamps_clock (hlen : R.length < 2 ^ 47) :
    Causality.Clock R.Program R.Message (fun t => (R.before t).clock.stamp)
      (fun t => (R.after t).clock.stamp) := by
  have hcon : ∀ t ≤ R.length, R.Consistent t := fun t ht => consistent hlen ht
  have htick := fun t : Fin R.length => (hcon t t.2.le).tick t.2 (by omega)
    fun s hs => hcon s (by omega)
  constructor
  · exact fun t => (htick t).1
  · rintro s t ⟨hlt, hat⟩
    show ((R.state (s + 1)).nodes (R.label s).at).clock.stamp ≤ _
    rw [hat]
    exact stamp_mono hlen hlt t.2.le _
  · rintro s t ⟨i, m, hl, hhandles⟩
    obtain ⟨hlt, ver, hvers, hiss⟩ := (hcon t t.2.le).offers s m (R.offers t t.2 i s m hl)
    rw [← ((hcon s (by omega)).issued (by omega) hiss).2.1]
    exact (htick t).2 ver ⟨i, s, m, hl, hhandles, hvers ▸ List.mem_cons_self⟩

/-- In every run of fewer than `2 ^ 47` events, a version that an event has issued or handled is
less than every version issued by an event that it happens before. -/
theorem versions_respect_causality (R : Run ι K V) (hlen : R.length < 2 ^ 47)
    {s t : Fin R.length} (h : R.HappensBefore s t) {a b : UInt64}
    (ha : R.Issued s a ∨ R.Handled s a) (hb : R.Issued t b) : a < b := by
  have hcon : ∀ t ≤ R.length, R.Consistent t := fun t ht => consistent hlen ht
  obtain ⟨hmoves, hstamp, -⟩ := (hcon t t.2.le).issued (by omega) hb
  have hlocal : ∀ r, ¬ R.Message r t := by
    rintro r ⟨i, m, hl, -⟩
    obtain ⟨⟨i', r', hl'⟩, -⟩ := hb
    rw [hl] at hl'
    cases hl'
  have hlt := (stamps_clock hlen).lt h (hmoves.trans_eq hstamp) hlocal
  have hle : stampOf a ≤ (R.after s).clock.stamp := by
    rcases ha with hissued | hhandled
    · exact ((hcon s s.2.le).issued (by omega) hissued).2.1.le
    · exact ((hcon s s.2.le).tick s.2 (by omega) fun r hr => hcon r (by omega)).2 a hhandled
  apply lt_of_stampOf_lt
  rw [hstamp]
  exact hle.trans_lt hlt

def pairExchange : Exchange Bool UInt8 UInt8 :=
  ⟨fun i => plain (if i then [2] else [1]) pairRing (freshCache fun _ => 0), [], []⟩

def putSeven : Request UInt8 UInt8 := .set allConnected (fun _ => .error "") 7 20 0

def relay : Nat → Move Bool UInt8 UInt8
  | 0 => .call false putSeven
  | 1 => .deliver true 0 (.set ⟨1, [7], [20], 0, 257, false⟩)
  | _ => .call true putSeven

deriving instance DecidableEq for KV, MsgSet, MsgSetBulk, MsgDel, Msg

theorem pairExchange_fresh : pairExchange.Fresh where
  ready := fun _ => (plain_replica ..).ready
  lww := fun _ => rfl
  clock := fun _ => ⟨1, rfl⟩
  version := fun _ _ => rfl
  wall := by
    intro i j
    show unixMilli ((freshCache fun _ => 0).rt.wall.reading j) < 2 ^ 47
    rw [freshCache_reading]
    decide
  sent := rfl
  hints := rfl

theorem versions_respect_causality_relayed : ∃ (R : Run Bool UInt8 UInt8) (s t : Fin R.length),
    R.HappensBefore s t ∧ R.Issued s 257 ∧ R.Issued t 769 ∧ (257 : UInt64) < 769 := by
  have hrun : let s := pairExchange.after relay
      (0, Msg.set ⟨1, [7], [20], 0, 257, false⟩) ∈ (s 1).sent ∧
      (((s 1).nodes true).rpcSet ⟨1, [7], [20], 0, 257, false⟩).1.OK = true ∧
      ((257 : UInt64), ((s 1).nodes false).clock) = ((s 0).nodes false).clock.Next
        (unixMilli (((s 0).nodes false).localCache.rt.wall.reading 0)) ∧
      ((769 : UInt64), ((s 3).nodes true).clock) = ((s 2).nodes true).clock.Next
        (unixMilli (((s 2).nodes true).localCache.rt.wall.reading 0)) := by
    decide +kernel
  obtain ⟨hoffered, hok, hnext1, hnext2⟩ := hrun
  let R : Run Bool UInt8 UInt8 := ⟨pairExchange, pairExchange_fresh, 3, relay, by
    intro t ht i origin m hl
    match t, ht with
    | 0, _ => cases hl
    | 1, _ =>
      cases hl
      exact .inl hoffered
    | 2, _ => cases hl⟩
  let event : Fin 3 → Fin R.length := id
  have hmessage : R.Message (event 0) (event 1) := ⟨true, _, rfl, hok⟩
  have hprogram : R.Program (event 1) (event 2) := ⟨show (1 : Fin 3) < 2 by decide, rfl⟩
  have hbefore : R.HappensBefore (event 0) (event 2) :=
    .tail (.single (.message hmessage)) (.program hprogram)
  have hfirst : R.Issued (event 0) 257 := ⟨⟨false, putSeven, rfl⟩, 0, hnext1⟩
  have hsecond : R.Issued (event 2) 769 := ⟨⟨true, putSeven, rfl⟩, 0, hnext2⟩
  exact ⟨R, event 0, event 2, hbefore, hfirst, hsecond,
    versions_respect_causality R (show 3 < 2 ^ 47 by decide) hbefore (.inl hfirst) hsecond⟩

end Run

end Kioshun
