import Kioshun.Cluster.OwnRing
import Kioshun.Lib.Channel
import Kioshun.Lib.Schedule

/-!
# Inbound connections

`serveConn` reads one frame to decide whether it serves the connection at all, and for
whom. A Hello with the right token makes the other side a peer; a frame of the public
client API is let in without Hello only if no token is set and the configuration allows
it. After that frames go through a queue to a pool of workers, and each worker decides
by the type of the frame, and by whether the connection is a peer's, what it runs.
-/

namespace Kioshun

universe u

abbrev MsgType := UInt8

def MTHello : MsgType := 1
def MTGet : MsgType := 3
def MTGetBulk : MsgType := 5
def MTSet : MsgType := 7
def MTSetBulk : MsgType := 9
def MTDelete : MsgType := 11
def MTLeaseLoad : MsgType := 13
def MTGossip : MsgType := 16
def MTBackfillDigestReq : MsgType := 200
def MTBackfillKeysReq : MsgType := 202

def errUnauthorized : String := "unauthorized"

structure Base where
  T : MsgType
  ID : UInt64

structure MsgHelloResp where
  ID : UInt64
  OK : Bool
  PeerID : NodeID
  Err : String
  deriving DecidableEq

/-- The fields of `Config` that `serveConn` reads besides those of the membership. `TLSEnable` is
set if there is a TLS configuration, too. -/
structure ConnConfig where
  TLSEnable : Bool
  MaxFrameSize : Int
  AllowUnauthenticatedClients : Bool
  PerConnWorkers : Int
  PerConnQueue : Int

namespace ConnConfig

def workers (cfg : ConnConfig) : Nat :=
  if cfg.PerConnWorkers ≤ 0 then 64 else cfg.PerConnWorkers.toNat

def qlen (cfg : ConnConfig) : Nat :=
  if cfg.PerConnQueue ≤ 0 then cfg.workers * 2 else cfg.PerConnQueue.toNat

/-- A frame whose header announces more than the limit ends the connection. -/
def tooLarge (cfg : ConnConfig) (buf : Bytes) : Bool :=
  decide (0 < cfg.MaxFrameSize ∧ cfg.MaxFrameSize < buf.length)

end ConnConfig

structure Decoder where
  Base : Bytes → Option Base
  Hello : Bytes → Option MsgHello
  Gossip : Bytes → Option (UInt64 × MsgGossip)

/-- What a worker can run. -/
inductive Handler where
  | rpcGet
  | rpcGetBulk
  | rpcSet
  | rpcSetBulk
  | rpcDel
  | rpcLeaseLoad
  | ingestGossip
  | rpcBackfillDigest
  | rpcBackfillKeys
  deriving DecidableEq

/-- The handlers that are for peers only. -/
def Handler.peerOnly : Handler → Bool
  | .rpcLeaseLoad | .ingestGossip | .rpcBackfillDigest | .rpcBackfillKeys => true
  | _ => false

/-- The `switch` of a worker; a frame of another type is dropped. -/
def dispatch (authedPeer : Bool) (T : MsgType) : Option Handler :=
  if T = MTGet then some .rpcGet
  else if T = MTGetBulk then some .rpcGetBulk
  else if T = MTSet then some .rpcSet
  else if T = MTSetBulk then some .rpcSetBulk
  else if T = MTDelete then some .rpcDel
  else if T = MTLeaseLoad then if authedPeer then some .rpcLeaseLoad else none
  else if T = MTGossip then if authedPeer then some .ingestGossip else none
  else if T = MTBackfillDigestReq then if authedPeer then some .rpcBackfillDigest else none
  else if T = MTBackfillKeysReq then if authedPeer then some .rpcBackfillKeys else none
  else none

/-- The types that may come first without Hello. -/
def isPublic (T : MsgType) : Bool :=
  decide (T = MTGet ∨ T = MTGetBulk ∨ T = MTSet ∨ T = MTSetBulk ∨ T = MTDelete)

/-- Only a peer's frame reaches a handler for peers. -/
theorem authed_of_dispatch {authedPeer : Bool} {T : MsgType} {h : Handler}
    (hd : dispatch authedPeer T = some h) (hpeer : h.peerOnly = true) : authedPeer = true := by
  cases authedPeer with
  | true => rfl
  | false =>
    have hpublic : ∀ g, dispatch false T = some g → g.peerOnly = false := by
      intro g hg
      simp only [dispatch, Bool.false_eq_true, if_false, ite_self] at hg
      split_ifs at hg <;> cases hg <;> rfl
    rw [hpublic h hd] at hpeer
    cases hpeer

namespace ServeConn

inductive Reply where
  | hello (ack : MsgHelloResp)
  | gossip (ID : UInt64)
  | rpc (payload : Bytes)
  deriving DecidableEq

inductive Stage where
  | handshaking
  /-- The first frame is read next. -/
  | awaiting
  /-- The frame is sent to the workers next. -/
  | queuing (buf : Bytes)
  | reading
  | returned
  deriving DecidableEq

end ServeConn

/-- `serveConn` on one connection. The membership is the part of the node that a Hello and gossip
change, `node` is the rest of it. `jobQ` is made once the connection is let in; `workers` are the
frames that the workers have taken. `first` is the first frame, and `calls` are the handlers that
have run. -/
structure ServeConn (N : Type u) where
  cfg : ConnConfig
  member : Member
  node : N
  stage : ServeConn.Stage
  authedPeer : Bool
  jobQ : Option (Chan Bytes)
  workers : Nat → Option Bytes
  first : Option Bytes
  calls : List Handler
  replies : List ServeConn.Reply

namespace ServeConn

inductive Event where
  | handshake (ok : Bool)
  /-- The first frame, if it can be read, and whether an answer to it can be written. -/
  | first (buf : Option Bytes) (written : Bool)
  | frame (buf : Option Bytes)
  | enqueue
  | take (w : Nat)
  | work (w : Nat)
  deriving DecidableEq

section Model

variable {N : Type u}

def start (cfg : ConnConfig) (member : Member) (node : N) : ServeConn N :=
  { cfg := cfg
    member := member
    node := node
    stage := if cfg.TLSEnable then .handshaking else .awaiting
    authedPeer := false
    jobQ := none
    workers := fun _ => none
    first := none
    calls := []
    replies := [] }

def requireToken (s : ServeConn N) : Bool := decide (s.member.cfg.AuthToken ≠ "")

def allowNoHello (s : ServeConn N) : Bool := !s.requireToken && s.cfg.AllowUnauthenticatedClients

/-- The deferred `close(jobQ)`; the workers still drain the queue. -/
def ret (s : ServeConn N) : ServeConn N :=
  { s with
    stage := .returned
    jobQ := s.jobQ.map fun c =>
      match c.close with
      | .ok c' => c'
      | .blocks | .panics => c }

/-- The queue is made and the workers are started. -/
def serve (s : ServeConn N) (stage : Stage) : ServeConn N :=
  { s with jobQ := some (Chan.make s.cfg.qlen), stage := stage }

def admitHello (s : ServeConn N) (base : Base) (h : MsgHello) (written : Bool) : ServeConn N :=
  let authOK := Member.authOK s.member.cfg h
  let ack : MsgHelloResp :=
    ⟨base.ID, authOK, s.member.cfg.ID, if authOK then "" else errUnauthorized⟩
  let s := { s with
    authedPeer := authOK
    member := s.member.handleHello h
    replies := s.replies ++ [Reply.hello ack] }
  if written && authOK then s.serve .reading else s.ret

def admitOther (s : ServeConn N) (base : Base) (buf : Bytes) : ServeConn N :=
  if s.requireToken || !s.allowNoHello then s.ret
  else if isPublic base.T then s.serve (.queuing buf)
  else s.ret

variable (dec : Decoder) (rpc : Handler → Bytes → N → Option (Bytes × N))

/-- The first frame decides about the connection. -/
def admitFirst (s : ServeConn N) (buf : Bytes) (written : Bool) : ServeConn N :=
  let s := { s with first := some buf }
  match dec.Base buf with
  | none => s.ret
  | some base =>
    if base.T = MTHello then
      match dec.Hello buf with
      | none => s.ret
      | some h => s.admitHello base h written
    else s.admitOther base buf

def gossip (s : ServeConn N) (buf : Bytes) : ServeConn N :=
  match dec.Gossip buf with
  | none => s
  | some (ID, g) => { s with
      member := s.member.ingestGossip g
      calls := s.calls ++ [.ingestGossip]
      replies := s.replies ++ [.gossip ID] }

/-- The other cases. `rpc` gives the response and what becomes of the node, or nothing if the frame
cannot be decoded as the message of the handler. -/
def call (s : ServeConn N) (h : Handler) (buf : Bytes) : ServeConn N :=
  match rpc h buf s.node with
  | none => s
  | some (payload, node) => { s with
      node := node
      calls := s.calls ++ [h]
      replies := s.replies ++ [.rpc payload] }

def handle (s : ServeConn N) (buf : Bytes) : ServeConn N :=
  match (dec.Base buf).bind fun base => dispatch s.authedPeer base.T with
  | none => s
  | some .ingestGossip => s.gossip dec buf
  | some h => s.call rpc h buf

def enqueue (s : ServeConn N) (buf : Bytes) : ServeConn N :=
  match s.jobQ.map (Chan.send · buf) with
  | some (.ok c) => { s with jobQ := some c, stage := .reading }
  | some .blocks | some .panics | none => s

def take (s : ServeConn N) (w : Nat) : ServeConn N :=
  match s.jobQ.bind Chan.recv with
  | some (some buf, c) =>
    { s with jobQ := some c, workers := Function.update s.workers w (some buf) }
  | some (none, _) | none => s

def step (s : ServeConn N) : Event → ServeConn N
  | .handshake ok =>
    if s.stage = .handshaking then
      if ok then { s with stage := .awaiting } else s.ret
    else s
  | .first buf written =>
    if s.stage = .awaiting then
      match buf with
      | none => s.ret
      | some buf => if s.cfg.tooLarge buf then s.ret else s.admitFirst dec buf written
    else s
  | .frame buf =>
    if s.stage = .reading then
      match buf with
      | none => s.ret
      | some buf => if s.cfg.tooLarge buf then s.ret else { s with stage := .queuing buf }
    else s
  | .enqueue =>
    match s.stage with
    | .queuing buf => s.enqueue buf
    | _ => s
  | .take w => if w < s.cfg.workers ∧ s.workers w = none then s.take w else s
  | .work w =>
    match s.workers w with
    | none => s
    | some buf => { s.handle dec rpc buf with workers := Function.update s.workers w none }

def exec (cfg : ConnConfig) (member : Member) (node : N) (es : List Event) : ServeConn N :=
  Schedule.exec (step dec rpc) (start cfg member node) es

end Model

section Admission

variable (dec : Decoder)

def FirstHello (first : Option Bytes) (h : MsgHello) : Prop :=
  ∃ buf base, first = some buf ∧ dec.Base buf = some base ∧ base.T = MTHello ∧
    dec.Hello buf = some h

/-- The first frame is a Hello that the configuration accepts. -/
def Accepted (cfg : MemberConfig) (first : Option Bytes) : Prop :=
  ∃ h, FirstHello dec first h ∧ (cfg.AuthToken = "" ∨ h.Token = cfg.AuthToken)

variable {N : Type u} (cfg : ConnConfig) (m₀ : Member) (n₀ : N)

structure Guarded (s : ServeConn N) : Prop where
  conn : s.cfg = cfg
  memberCfg : s.member.cfg = m₀.cfg
  accepted : s.authedPeer = true → Accepted dec m₀.cfg s.first
  unchanged : s.authedPeer = false → s.member = m₀
  letIn : s.jobQ ≠ none → s.authedPeer = true ∨
    (m₀.cfg.AuthToken = "" ∧ cfg.AllowUnauthenticatedClients = true)
  idle : s.jobQ = none → s.calls = [] ∧ s.node = n₀ ∧ ∀ w, s.workers w = none
  calls : ∀ h ∈ s.calls, h.peerOnly = true → s.authedPeer = true

structure Sound (s : ServeConn N) : Prop extends s.Guarded dec cfg m₀ n₀ where
  early : s.stage = .handshaking ∨ s.stage = .awaiting →
    s.jobQ = none ∧ s.authedPeer = false ∧ s.first = none

variable {dec cfg m₀ n₀} {rpc : Handler → Bytes → N → Option (Bytes × N)} {s : ServeConn N}

theorem sound_start : (start cfg m₀ n₀).Sound dec cfg m₀ n₀ where
  conn := rfl
  memberCfg := rfl
  accepted h := nomatch h
  unchanged _ := rfl
  letIn h := absurd rfl h
  idle _ := ⟨rfl, rfl, fun _ => rfl⟩
  calls _ h := nomatch h
  early _ := ⟨rfl, rfl, rfl⟩

/-- Leaving changes neither what has happened nor whether there is a queue. -/
theorem Guarded.ret (h : s.Guarded dec cfg m₀ n₀) : s.ret.Sound dec cfg m₀ n₀ := by
  have hq : s.ret.jobQ = none ↔ s.jobQ = none := Option.map_eq_none_iff
  exact { h with
    letIn := fun hne => h.letIn fun hnone => hne (hq.mpr hnone)
    idle := fun hnone => h.idle (hq.mp hnone)
    early := fun hstage => by rcases hstage with hstage | hstage <;> cases hstage }

theorem Guarded.serve {stage : Stage} (h : s.Guarded dec cfg m₀ n₀)
    (hopen : s.authedPeer = true ∨ (m₀.cfg.AuthToken = "" ∧ cfg.AllowUnauthenticatedClients = true))
    (hstage : ¬(stage = .handshaking ∨ stage = .awaiting)) : (s.serve stage).Sound dec cfg m₀ n₀ :=
  { h with
    letIn := fun _ => hopen
    idle := nofun
    early := fun heq => absurd heq hstage }

theorem authOK_iff {mc : MemberConfig} {h : MsgHello} :
    Member.authOK mc h = true ↔ mc.AuthToken = "" ∨ h.Token = mc.AuthToken := by
  simp only [Member.authOK, Bool.not_eq_true', Bool.and_eq_false_iff, decide_eq_false_iff_not,
    not_not]

variable {buf : Bytes} {base : Base}

theorem Guarded.admitHello {m : MsgHello} (h : s.Guarded dec cfg m₀ n₀) (hq : s.jobQ = none)
    (hauth : s.authedPeer = false) (hfirst : FirstHello dec s.first m) (written : Bool) :
    (s.admitHello base m written).Sound dec cfg m₀ n₀ := by
  have hmember := h.unchanged hauth
  have hnext : ∀ replies, ({ s with
      authedPeer := Member.authOK s.member.cfg m
      member := s.member.handleHello m
      replies := replies } : ServeConn N).Guarded dec cfg m₀ n₀ := fun replies =>
    { conn := h.conn
      memberCfg := (Member.step_cfg (.hello m)).trans h.memberCfg
      accepted := fun hok => by
        rw [hmember] at hok
        exact ⟨m, hfirst, authOK_iff.mp hok⟩
      unchanged := fun hok => (if_neg (Bool.not_eq_true _ ▸ hok)).trans hmember
      letIn := fun hne => absurd hq hne
      idle := fun _ => h.idle hq
      calls := fun c hc => by rw [(h.idle hq).1] at hc; cases hc }
  unfold ServeConn.admitHello
  by_cases hok : written && Member.authOK s.member.cfg m
  · simp only [if_pos hok]
    exact (hnext _).serve (.inl (Bool.and_eq_true _ _ ▸ hok).2) (by simp)
  · simp only [if_neg hok]
    exact (hnext _).ret

theorem Guarded.admitOther (h : s.Guarded dec cfg m₀ n₀) :
    (s.admitOther base buf).Sound dec cfg m₀ n₀ := by
  unfold ServeConn.admitOther
  by_cases hrequired : s.requireToken || !s.allowNoHello
  · rw [if_pos hrequired]
    exact h.ret
  · rw [if_neg hrequired]
    have hopen : m₀.cfg.AuthToken = "" ∧ cfg.AllowUnauthenticatedClients = true := by
      rw [← h.memberCfg, ← h.conn]
      simpa [requireToken, allowNoHello] using hrequired
    by_cases hpublic : isPublic base.T
    · rw [if_pos hpublic]
      exact h.serve (.inr hopen) (by simp)
    · rw [if_neg hpublic]
      exact h.ret

theorem Sound.admitFirst (h : s.Sound dec cfg m₀ n₀) (hstage : s.stage = .awaiting)
    (written : Bool) : (s.admitFirst dec buf written).Sound dec cfg m₀ n₀ := by
  obtain ⟨hq, hauth, -⟩ := h.early (.inr hstage)
  have hread : ({ s with first := some buf } : ServeConn N).Guarded dec cfg m₀ n₀ :=
    { h.toGuarded with accepted := fun hok => by rw [hauth] at hok; cases hok }
  unfold ServeConn.admitFirst
  cases hbase : dec.Base buf with
  | none => exact hread.ret
  | some base =>
    by_cases hT : base.T = MTHello
    · simp only [if_pos hT]
      cases hhello : dec.Hello buf with
      | none => exact hread.ret
      | some m => exact hread.admitHello hq hauth ⟨buf, base, rfl, hbase, hT, hhello⟩ written
    · simp only [if_neg hT]
      exact hread.admitOther

theorem mem_concat_peer {c h : Handler} {auth : Bool} {calls : List Handler}
    (hold : ∀ h ∈ calls, h.peerOnly = true → auth = true) (hnew : c.peerOnly = true → auth = true)
    (hh : h ∈ calls ++ [c]) : h.peerOnly = true → auth = true := by
  obtain hh | hh := List.mem_append.mp hh
  · exact hold h hh
  · rw [List.mem_singleton.mp hh]
    exact hnew

theorem Sound.gossip (h : s.Sound dec cfg m₀ n₀) (hq : s.jobQ ≠ none)
    (hauth : s.authedPeer = true) : (s.gossip dec buf).Sound dec cfg m₀ n₀ := by
  unfold ServeConn.gossip
  cases dec.Gossip buf with
  | none => exact h
  | some g =>
    exact { h with
      memberCfg := (Member.step_cfg (.gossip g.2)).trans h.memberCfg
      unchanged := fun hno => by rw [hauth] at hno; cases hno
      idle := fun hnone => absurd hnone hq
      calls := fun _ hc => mem_concat_peer h.calls (fun _ => hauth) hc }

theorem Sound.call {c : Handler} (h : s.Sound dec cfg m₀ n₀) (hq : s.jobQ ≠ none)
    (hpeer : c.peerOnly = true → s.authedPeer = true) : (s.call rpc c buf).Sound dec cfg m₀ n₀ := by
  unfold ServeConn.call
  cases rpc c buf s.node with
  | none => exact h
  | some r =>
    exact { h with
      idle := fun hnone => absurd hnone hq
      calls := fun _ hc => mem_concat_peer h.calls hpeer hc }

/-- A worker with a frame runs what the connection may run. -/
theorem Sound.handle (h : s.Sound dec cfg m₀ n₀) (hq : s.jobQ ≠ none) :
    (s.handle dec rpc buf).Sound dec cfg m₀ n₀ := by
  unfold ServeConn.handle
  cases hd : (dec.Base buf).bind fun base => dispatch s.authedPeer base.T with
  | none => exact h
  | some c =>
    obtain ⟨base, -, hdispatch⟩ := Option.bind_eq_some_iff.mp hd
    have hpeer : c.peerOnly = true → s.authedPeer = true := authed_of_dispatch hdispatch
    cases c with
    | ingestGossip => exact h.gossip hq (hpeer rfl)
    | _ => exact h.call hq hpeer

theorem handle_jobQ (s : ServeConn N) : (s.handle dec rpc buf).jobQ = s.jobQ := by
  unfold ServeConn.handle
  split
  · rfl
  · unfold ServeConn.gossip
    split <;> rfl
  · unfold ServeConn.call
    split <;> rfl

section
variable (h : s.Sound dec cfg m₀ n₀)
include h

theorem Sound.work {w : Nat} (hw : s.workers w = some buf) :
    ({ s.handle dec rpc buf with workers := Function.update s.workers w none } : ServeConn N).Sound
      dec cfg m₀ n₀ := by
  have hq : s.jobQ ≠ none := fun hnone => by
    rw [(h.idle hnone).2.2 w] at hw
    cases hw
  have hnext : (s.handle dec rpc buf).Sound dec cfg m₀ n₀ := h.handle hq
  have hq' : (s.handle dec rpc buf).jobQ ≠ none := by rwa [handle_jobQ]
  exact { hnext with idle := fun hnone => absurd hnone hq' }

/-- A step that only moves frames between the connection, the queue and the workers. -/
theorem Sound.moved {stage : Stage} {jobQ : Option (Chan Bytes)} {workers : Nat → Option Bytes}
    (hq : s.jobQ ≠ none) (hq' : jobQ ≠ none)
    (hstage : stage = s.stage ∨ ¬(stage = .handshaking ∨ stage = .awaiting)) :
    ({ s with stage := stage, jobQ := jobQ, workers := workers } : ServeConn N).Sound
      dec cfg m₀ n₀ :=
  { h with
    letIn := fun _ => h.letIn hq
    idle := fun hnone => absurd hnone hq'
    early := fun hearly => by
      obtain heq | hno := hstage
      · exact absurd (h.early (heq ▸ hearly)).1 hq
      · exact absurd hearly hno }

theorem Sound.enqueue : (s.enqueue buf).Sound dec cfg m₀ n₀ := by
  unfold ServeConn.enqueue
  split
  next c hc =>
    have hq : s.jobQ ≠ none := fun hnone => by rw [hnone] at hc; cases hc
    exact h.moved hq (by simp) (.inr (by simp))
  all_goals exact h

theorem Sound.take {w : Nat} : (s.take w).Sound dec cfg m₀ n₀ := by
  unfold ServeConn.take
  split
  next c hc =>
    have hq : s.jobQ ≠ none := fun hnone => by rw [hnone] at hc; cases hc
    exact h.moved hq (by simp) (.inl rfl)
  all_goals exact h

theorem Sound.step (e : Event) : (s.step dec rpc e).Sound dec cfg m₀ n₀ := by
  cases e with
  | handshake ok =>
    by_cases hstage : s.stage = .handshaking
    · simp only [ServeConn.step, if_pos hstage]
      by_cases hok : ok
      · simp only [if_pos hok]
        exact { h with early := fun _ => h.early (.inl hstage) }
      · simp only [if_neg hok]
        exact h.ret
    · simpa only [ServeConn.step, if_neg hstage] using h
  | first buf written =>
    by_cases hstage : s.stage = .awaiting
    · simp only [ServeConn.step, if_pos hstage]
      cases buf with
      | none => exact h.ret
      | some buf =>
        by_cases hlarge : s.cfg.tooLarge buf
        · simpa only [if_pos hlarge] using h.ret
        · simpa only [if_neg hlarge] using h.admitFirst hstage written
    · simpa only [ServeConn.step, if_neg hstage] using h
  | frame buf =>
    by_cases hstage : s.stage = .reading
    · simp only [ServeConn.step, if_pos hstage]
      cases buf with
      | none => exact h.ret
      | some buf =>
        by_cases hlarge : s.cfg.tooLarge buf
        · simpa only [if_pos hlarge] using h.ret
        · simp only [if_neg hlarge]
          refine { h with early := fun hearly => ?_ }
          rcases hearly with hearly | hearly <;> cases hearly
    · simpa only [ServeConn.step, if_neg hstage] using h
  | enqueue =>
    simp only [ServeConn.step]
    split
    · exact h.enqueue
    · exact h
  | take w =>
    simp only [ServeConn.step]
    split
    · exact h.take
    · exact h
  | work w =>
    simp only [ServeConn.step]
    split
    · exact h
    · exact h.work ‹_›

end

theorem exec_sound (es : List Event) : (exec dec rpc cfg m₀ n₀ es).Sound dec cfg m₀ n₀ :=
  Schedule.exec_invariant (fun _ e h => h.step e) sound_start

end Admission

section Result

variable (dec : Decoder) {N : Type u} (cfg : ConnConfig) (m₀ : Member) (n₀ : N)

/-- Who may do what on a connection to the node `m₀`, `n₀`. -/
structure Admitted (s : ServeConn N) : Prop where
  /-- If there is a token nothing happens, to the membership and the rest of the node either, unless
  the first frame is a Hello that carries it. -/
  token : m₀.cfg.AuthToken ≠ "" → s.calls ≠ [] ∨ s.member ≠ m₀ ∨ s.node ≠ n₀ →
    ∃ h, FirstHello dec s.first h ∧ h.Token = m₀.cfg.AuthToken
  /-- The handlers for peers run only after an accepted Hello. -/
  peers : ∀ h ∈ s.calls, h.peerOnly = true → Accepted dec m₀.cfg s.first
  /-- Without it only the public handlers run, and those only if the configuration says so. -/
  clients : ¬Accepted dec m₀.cfg s.first → ∀ h ∈ s.calls,
    h ∈ [Handler.rpcGet, .rpcGetBulk, .rpcSet, .rpcSetBulk, .rpcDel] ∧
      m₀.cfg.AuthToken = "" ∧ cfg.AllowUnauthenticatedClients = true

variable {dec cfg m₀ n₀} {s : ServeConn N}

theorem Sound.letIn_of_calls (h : s.Sound dec cfg m₀ n₀) (hcalls : s.calls ≠ []) :
    s.authedPeer = true ∨ (m₀.cfg.AuthToken = "" ∧ cfg.AllowUnauthenticatedClients = true) :=
  h.letIn fun hnone => hcalls (h.idle hnone).1

theorem Sound.authed_of_changed (h : s.Sound dec cfg m₀ n₀) (htoken : m₀.cfg.AuthToken ≠ "")
    (hchanged : s.calls ≠ [] ∨ s.member ≠ m₀ ∨ s.node ≠ n₀) : s.authedPeer = true := by
  have hqueue : s.jobQ ≠ none → s.authedPeer = true := fun hq =>
    (h.letIn hq).resolve_right fun hopen => htoken hopen.1
  obtain hcalls | hmember | hnode := hchanged
  · exact hqueue fun hnone => hcalls (h.idle hnone).1
  · exact Bool.eq_true_of_not_eq_false fun hno => hmember (h.unchanged hno)
  · exact hqueue fun hnone => hnode (h.idle hnone).2.1

theorem public_of_not_peerOnly {h : Handler} (hpublic : h.peerOnly = false) :
    h ∈ [Handler.rpcGet, .rpcGetBulk, .rpcSet, .rpcSetBulk, .rpcDel] := by
  cases h <;> first | decide | cases hpublic

/-- Whatever frames arrive, and however the workers take them. -/
theorem exec_admitted (dec : Decoder) (rpc : Handler → Bytes → N → Option (Bytes × N))
    (cfg : ConnConfig) (m₀ : Member) (n₀ : N) (es : List Event) :
    (exec dec rpc cfg m₀ n₀ es).Admitted dec cfg m₀ n₀ := by
  have h : (exec dec rpc cfg m₀ n₀ es).Sound dec cfg m₀ n₀ := exec_sound es
  refine ⟨fun htoken hchanged => ?_, fun c hc hpeer => h.accepted (h.calls c hc hpeer), ?_⟩
  · obtain ⟨m, hfirst, hempty | hmatch⟩ := h.accepted (h.authed_of_changed htoken hchanged)
    · exact absurd hempty htoken
    · exact ⟨m, hfirst, hmatch⟩
  · intro hno c hc
    have hauth : ¬(exec dec rpc cfg m₀ n₀ es).authedPeer = true := fun hauth =>
      hno (h.accepted hauth)
    have hopen := (h.letIn_of_calls (List.ne_nil_of_mem hc)).resolve_left hauth
    have hpublic := Bool.eq_false_iff.mpr fun hpeer => hauth (h.calls c hc hpeer)
    exact ⟨public_of_not_peerOnly hpublic, hopen⟩

end Result

end ServeConn

end Kioshun
