import Kioshun.Cache.Config
import Kioshun.Cluster.Client
import Kioshun.Lib.Channel
import Kioshun.Lib.Schedule
import Mathlib.Data.List.Nodup
import Mathlib.Logic.Function.Basic

/-!
# Requests on one connection

Any number of `request` calls share a connection. Each registers a channel under its
ID in the table `pend`; the read loop looks the ID of a frame up there, takes the entry
out, sends the frame on the channel and closes it. A call whose timer fires takes its
own entry out. When the connection fails the read loop closes every channel that it
finds in the table, and ends. The table is shared without a lock: between any two of
these steps every other call may go on.
-/

namespace Kioshun
open Function

def ErrPeerClosed : String := "peer closed"

def penaltyBase : Int := 2000000000

def penaltyMax : Int := 8000000000

def backoffWindow : Int := 5000000000

/-- The fields of `peerConn` that `penalizeTimeout` keeps. -/
structure Penalty where
  penaltyUntil : Int
  lastTimeout : Int
  toStreak : UInt32
  deriving DecidableEq

namespace Penalty

/-- The streak of timeouts goes on if the last one is not long ago. -/
def streak (p : Penalty) (now : Int) : UInt32 :=
  if now - p.lastTimeout > backoffWindow then 1 else p.toStreak + 1

/-- `penaltyBase << shift`, capped; the shift is at most 3. -/
def length (streak : UInt32) : Int :=
  let shift := if streak - 1 > 3 then 3 else streak - 1
  let d := penaltyBase * 2 ^ shift.toNat
  if d > penaltyMax then penaltyMax else d

def penalizeTimeout (p : Penalty) (now : Int) : Penalty :=
  ⟨wrap64 (now + length (p.streak now)), now, p.streak now⟩

def penalized (p : Penalty) (now : Int) : Bool := decide (now < p.penaltyUntil)

end Penalty

namespace PeerConn

/-- A frame that `readFrame` has returned; `seq` is its place among them. -/
structure Frame where
  seq : Nat
  buf : Bytes
  deriving DecidableEq

/-- Why a call returns without a payload. -/
inductive Failure where
  | inflight
  | marshal (err : String)
  | write (err : String)
  | peerClosed
  | timeout
  deriving DecidableEq

def Failure.text : Failure → String
  | .inflight => "peer inflight limit"
  | .marshal err => err
  | .write err => err
  | .peerClosed => ErrPeerClosed
  | .timeout => ErrTimeout

/-- Where a call of `request` is. -/
inductive Stage where
  | idle
  | encoding
  | registering
  | writing
  | waiting
  /-- `writeFrame` has failed; the entry is taken out of the table next. -/
  | failing (err : String)
  /-- The timer has been chosen; the entry is taken out of the table next. -/
  | expiring
  | penalizing
  /-- The deferred receive from `inflightCh` is next. -/
  | leaving (r : Except Failure Frame)
  | returned (r : Except Failure Frame)
  deriving DecidableEq

/-- Where the read loop is. Channels are named by the call that has made them. -/
inductive Reader (R : Type) where
  | reading
  /-- The ID of the frame is looked up next. -/
  | loading (f : Frame) (id : UInt64)
  /-- The entry is taken out of the table next. -/
  | removing (f : Frame) (id : UInt64) (r : R)
  | sending (f : Frame) (r : R)
  | closing (r : R)
  /-- In `failAll`, inside `Range`: the keys visited so far. -/
  | ranging (visited : List UInt64)
  | shutting (visited : List UInt64) (r : R)
  | ended
  deriving DecidableEq

end PeerConn

/-- `peerConn` with the calls of `request` on it. `mapped` is what a `Range` in progress may
still report: the entries of `pend` when it started and those stored since. `frames`, `sends`
and `closes` record what has been read, sent on channels and closed. -/
structure PeerConn (R : Type) where
  inflightCh : Chan Unit
  pend : UInt64 → Option R
  chan : R → Option (Chan PeerConn.Frame)
  call : R → PeerConn.Stage
  reader : PeerConn.Reader R
  penalty : Penalty
  mapped : UInt64 → Option R
  frames : List Bytes
  sends : List (R × PeerConn.Frame)
  closes : List R
  crashed : Bool

namespace PeerConn

inductive Event (R : Type) where
  | call (r : R)
  | marshal (r : R) (err : Option String)
  | store (r : R)
  | write (r : R) (err : Option String)
  | receive (r : R)
  | timer (r : R)
  | delete (r : R)
  | penalize (r : R) (now : Int)
  | leave (r : R)
  | frame (buf : Bytes)
  | load
  | remove
  | send
  | close
  | readError
  | visit (id : UInt64)
  | rangeEnd
  deriving DecidableEq

section Model

variable {R : Type} [DecidableEq R]

def moveTo (s : PeerConn R) (r : R) (stage : Stage) : PeerConn R :=
  { s with call := update s.call r stage }

/-- Once `dialPeer` has returned; `inflight` is the capacity of `inflightCh`. -/
def start (inflight : Nat) : PeerConn R :=
  { inflightCh := Chan.make inflight
    pend := fun _ => none
    chan := fun _ => none
    call := fun _ => .idle
    reader := .reading
    penalty := ⟨0, 0, 0⟩
    mapped := fun _ => none
    frames := []
    sends := []
    closes := []
    crashed := false }

variable (id : R → UInt64)

/-- A call that finds `inflightCh` full returns at once. -/
def enter (s : PeerConn R) (r : R) : PeerConn R :=
  match s.inflightCh.send () with
  | .ok c => { s with inflightCh := c }.moveTo r .encoding
  | .blocks | .panics => s.moveTo r (.returned (.error .inflight))

def store (s : PeerConn R) (r : R) : PeerConn R :=
  { s with
    chan := update s.chan r (some (Chan.make 1))
    pend := update s.pend (id r) (some r)
    mapped := update s.mapped (id r) (some r) }.moveTo r .writing

def receive (s : PeerConn R) (r : R) : PeerConn R :=
  match (s.chan r).bind Chan.recv with
  | some (some f, c) =>
    { s with chan := update s.chan r (some c) }.moveTo r (.leaving (.ok f))
  | some (none, _) => s.moveTo r (.leaving (.error .peerClosed))
  | none => s

def delete (s : PeerConn R) (r : R) (stage : Stage) : PeerConn R :=
  { s with pend := update s.pend (id r) none }.moveTo r stage

def leave (s : PeerConn R) (r : R) (result : Except Failure Frame) : PeerConn R :=
  match s.inflightCh.recv with
  | some (_, c) => { s with inflightCh := c }.moveTo r (.returned result)
  | none => s

/-- The lookup of the read loop. -/
def load (s : PeerConn R) (f : Frame) (x : UInt64) : PeerConn R :=
  match s.pend x with
  | some r => { s with reader := .removing f x r }
  | none => { s with reader := .reading }

def remove (s : PeerConn R) (f : Frame) (x : UInt64) (r : R) : PeerConn R :=
  { s with pend := update s.pend x none, reader := .sending f r }

def send (s : PeerConn R) (f : Frame) (r : R) : PeerConn R :=
  match (s.chan r).map (Chan.send · f) with
  | some (.ok c) => { s with
      chan := update s.chan r (some c)
      sends := s.sends ++ [(r, f)]
      reader := .closing r }
  | some .panics => { s with crashed := true }
  | some .blocks | none => s

/-- The channel is closed and the read loop goes on at `next`. -/
def close (s : PeerConn R) (r : R) (next : Reader R) : PeerConn R :=
  match (s.chan r).map Chan.close with
  | some (.ok c) => { s with
      chan := update s.chan r (some c)
      closes := s.closes ++ [r]
      reader := next }
  | some .panics => { s with crashed := true }
  | some .blocks | none => s

/-- `Range` reports each key at most once. -/
def visit (s : PeerConn R) (visited : List UInt64) (x : UInt64) : PeerConn R :=
  match s.mapped x with
  | some r => if x ∈ visited then s else { s with reader := .shutting (x :: visited) r }
  | none => s

/-- A frame that `readFrame` returns. `base` is the ID of its `Base`, if that can be decoded. -/
def readFrame (s : PeerConn R) (buf : Bytes) (base : Option UInt64) : PeerConn R :=
  { s with
    frames := s.frames ++ [buf]
    reader := match base with
      | some x => .loading ⟨s.frames.length, buf⟩ x
      | none => .reading }

def stepCall (s : PeerConn R) : Event R → PeerConn R
  | .call r => if s.call r = .idle then s.enter r else s
  | .marshal r err =>
    if s.call r = .encoding then
      s.moveTo r (match err with
        | none => .registering
        | some e => .leaving (.error (.marshal e)))
    else s
  | .store r => if s.call r = .registering then s.store id r else s
  | .write r err =>
    if s.call r = .writing then
      s.moveTo r (match err with
        | none => .waiting
        | some e => .failing e)
    else s
  | .receive r => if s.call r = .waiting then s.receive r else s
  | .timer r => if s.call r = .waiting then s.moveTo r .expiring else s
  | .delete r =>
    match s.call r with
    | .failing e => s.delete id r (.leaving (.error (.write e)))
    | .expiring => s.delete id r .penalizing
    | _ => s
  | .penalize r now =>
    if s.call r = .penalizing then
      { s with penalty := s.penalty.penalizeTimeout now }.moveTo r (.leaving (.error .timeout))
    else s
  | .leave r =>
    match s.call r with
    | .leaving result => s.leave r result
    | _ => s
  | _ => s

variable (decode : Bytes → Option UInt64)

def stepReader (s : PeerConn R) : Event R → PeerConn R
  | .frame buf => if s.reader = .reading then s.readFrame buf (decode buf) else s
  | .load =>
    match s.reader with
    | .loading f x => s.load f x
    | _ => s
  | .remove =>
    match s.reader with
    | .removing f x r => s.remove f x r
    | _ => s
  | .send =>
    match s.reader with
    | .sending f r => s.send f r
    | _ => s
  | .close =>
    match s.reader with
    | .closing r => s.close r .reading
    | .shutting visited r => s.close r (.ranging visited)
    | _ => s
  | .readError =>
    if s.reader = .reading then { s with mapped := s.pend, reader := .ranging [] } else s
  | .visit x =>
    match s.reader with
    | .ranging visited => s.visit visited x
    | _ => s
  | .rangeEnd =>
    match s.reader with
    | .ranging _ => { s with reader := .ended }
    | _ => s
  | _ => s

/-- Each event is a step of a call or of the read loop; one that is not due changes nothing, and
nothing happens any more once the program has crashed. -/
def step (s : PeerConn R) (e : Event R) : PeerConn R :=
  if s.crashed then s else (s.stepCall id e).stepReader decode e

def exec (inflight : Nat) (es : List (Event R)) : PeerConn R :=
  Schedule.exec (step id decode) (start inflight) es

end Model

/-- The payload that the call returns, or has returned. -/
def Stage.payload : Stage → Option Frame
  | .leaving (.ok f) | .returned (.ok f) => some f
  | _ => none

/-- The call has not made its channel yet. -/
def Stage.early : Stage → Bool
  | .idle | .encoding | .registering => true
  | _ => false

def Stage.timedOut : Stage → Bool
  | .expiring | .penalizing => true
  | .leaving (.error .timeout) | .returned (.error .timeout) => true
  | _ => false

/-- The timer has fired first and the call has taken its entry out of the table. -/
def Stage.withdrawn : Stage → Bool
  | .penalizing | .leaving (.error .timeout) | .returned (.error .timeout) => true
  | _ => false

/-- What a call does next. -/
inductive Stage.Next : Stage → Stage → Prop
  | entered : Next .idle .encoding
  | refused : Next .idle (.returned (.error .inflight))
  | encoded : Next .encoding .registering
  | unencoded (e : String) : Next .encoding (.leaving (.error (.marshal e)))
  | stored : Next .registering .writing
  | written : Next .writing .waiting
  | unwritten (e : String) : Next .writing (.failing e)
  | received (f : Frame) : Next .waiting (.leaving (.ok f))
  | shut : Next .waiting (.leaving (.error .peerClosed))
  | fired : Next .waiting .expiring
  | failed (e : String) : Next (.failing e) (.leaving (.error (.write e)))
  | deleted : Next .expiring .penalizing
  | penalized : Next .penalizing (.leaving (.error .timeout))
  | left (r : Except Failure Frame) : Next (.leaving r) (.returned r)

namespace Stage.Next

variable {a b : Stage}

theorem early (h : Next a b) (hb : b.early = true) : a.early = true := by
  cases h <;> first | rfl | cases hb

theorem timedOut (h : Next a b) (ha : a.timedOut = true) : b.timedOut = true := by
  cases h with
  | left r => cases r with
    | ok f => cases ha
    | error e => cases e <;> first | rfl | cases ha
  | deleted | penalized => rfl
  | _ => cases ha

theorem withdrawn (h : Next a b) (ha : a.withdrawn = true) : b.withdrawn = true := by
  cases h with
  | left r => cases r with
    | ok f => cases ha
    | error e => cases e <;> first | rfl | cases ha
  | penalized => rfl
  | _ => cases ha

theorem payload {f : Frame} (h : Next a b) (hb : b.payload = some f) :
    a.payload = some f ∨ b = .leaving (.ok f) := by
  cases h with
  | left r => cases r with
    | ok g => exact .inl hb
    | error e => cases hb
  | received g => cases hb; exact .inr rfl
  | _ => cases hb

end Stage.Next

theorem Stage.payload_of_timedOut {a : Stage} (h : a.timedOut = true) : a.payload = none := by
  unfold timedOut at h
  split at h <;> first | rfl | cases h

end PeerConn

end Kioshun
