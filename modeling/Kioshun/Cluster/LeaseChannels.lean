import Kioshun.Cluster.Lease
import Kioshun.Lib.Channel

/-!
# The channels of the lease table

`release` and the sweeper take a lease out of the table, store its error and close its
channel, one statement after the other under the lock of the table. A waiter needs no
lock to receive from the channel and to read the error, so it can run between any two of
these statements.
-/

namespace Kioshun
open List

/-- `inflight`, with its channel. -/
structure Flight where
  ch : Chan Unit
  err : Option String
  exp : Int
  done : Bool
  deriving DecidableEq

def Flight.due (f : Flight) (now : Int) : Bool := decide (0 < f.exp ∧ f.exp ≤ now)

/-- `leaseTable`; closing a channel that is closed panics. -/
structure FlightTable where
  heap : Nat → Flight
  next : Nat
  m : List (Bytes × Nat)
  ttl : Int
  panicked : Bool

namespace FlightTable

def newLeaseTable (ttl : Int) : FlightTable :=
  ⟨fun _ => ⟨Chan.make 0, none, 0, false⟩, 0, [], ttl, false⟩

def assign (t : FlightTable) (f : Nat) (g : Flight → Flight) : FlightTable :=
  { t with heap := Function.update t.heap f (g (t.heap f)) }

def acquire (t : FlightTable) (key : Bytes) (now : Int) : (Nat × Bool) × FlightTable :=
  match t.m.lookup key with
  | some f => ((f, false), t)
  | none =>
    let f : Flight := ⟨Chan.make 0, none, if 0 < t.ttl then wrap64 (now + t.ttl) else 0, false⟩
    ((t.next, true), { t with
      heap := Function.update t.heap t.next f
      next := t.next + 1
      m := (key, t.next) :: t.m })

def delete (t : FlightTable) (key : Bytes) : FlightTable :=
  { t with m := t.m.filter fun e => e.1 ≠ key }

def close (t : FlightTable) (f : Nat) : FlightTable :=
  match (t.heap f).ch.close with
  | .ok c => t.assign f fun x => { x with ch := c }
  | .panics => { t with panicked := true }
  | .blocks => t

def Listed (t : FlightTable) (f : Nat) : Prop := f ∈ t.m.map Prod.snd

def shut (t : FlightTable) (f : Nat) : Bool := (t.heap f).ch.closed

end FlightTable

/-- The next statement for a lease that has been deleted from the map. -/
inductive FlightStage where
  | setErr (err : Option String)
  | setDone
  | close
  deriving DecidableEq

/-- What the holder of the lock does with a key: `release`, or one round of the sweeper's loop. -/
inductive FlightVisit where
  | release (key : Bytes) (err : Option String)
  | expire (key : Bytes) (now : Int)
  deriving DecidableEq

/-- A waiter blocks on a channel, or has received from it and goes on to read the error. -/
inductive FlightWaiter where
  | blocked (f : Nat)
  | received (f : Nat)
  deriving DecidableEq

/-- The table, what the holder of its lock has left to do, and the waiters. Recorded beside them
are the leases that left the table and the errors they left with, the channels closed, and what
waiters have returned. -/
structure FlightRun where
  table : FlightTable
  closing : Option (Nat × FlightStage)
  rest : List FlightVisit
  waits : Nat → Option FlightWaiter
  left : List (Nat × Option String)
  closes : List Nat
  returned : List (Nat × Nat × Option String)

inductive FlightEvent where
  | acquire (key : Bytes) (now : Int)
  | release (key : Bytes) (err : Option String)
  | tick (now : Int) (order : List Bytes)
  | proceed
  | wait (c : Nat) (key : Bytes)
  | receive (c : Nat)
  | finish (c : Nat)
  | cancel (c : Nat)

namespace FlightRun

def start (ttl : Int) : FlightRun :=
  ⟨FlightTable.newLeaseTable ttl, none, [], fun _ => none, [], [], []⟩

def free (s : FlightRun) : Bool := s.closing.isNone && s.rest.isEmpty

def remove (s : FlightRun) (key : Bytes) (f : Nat) (err : Option String) : FlightRun :=
  { s with
    table := s.table.delete key
    closing := if (s.table.heap f).done then none else some (f, .setErr err)
    left := s.left ++ [(f, err)] }

def visit (s : FlightRun) : FlightVisit → FlightRun
  | .release key err =>
    match s.table.m.lookup key with
    | some f => s.remove key f err
    | none => s
  | .expire key now =>
    match s.table.m.lookup key with
    | some f =>
      if (s.table.heap f).due now then s.remove key f (some ErrLeaseTimeout) else s
    | none => s

def proceed (s : FlightRun) : FlightRun :=
  match s.closing with
  | some (f, .setErr err) => { s with
      table := s.table.assign f fun x => { x with err := err }
      closing := some (f, .setDone) }
  | some (f, .setDone) => { s with
      table := s.table.assign f fun x => { x with done := true }
      closing := some (f, .close) }
  | some (f, .close) => { s with
      table := s.table.close f
      closing := none
      closes := s.closes ++ [f] }
  | none =>
    match s.rest with
    | v :: rest => { s with rest := rest }.visit v
    | [] => s

/-- One event. A tick visits the entries of the map in some order; a waiter waits for its context
as well, which may end at any time. -/
def step (s : FlightRun) : FlightEvent → FlightRun
  | .acquire key now =>
    if s.free then { s with table := (s.table.acquire key now).2 } else s
  | .release key err => if s.free then { s with rest := [.release key err] } else s
  | .tick now order =>
    if s.free ∧ order.Perm (s.table.m.map Prod.fst) then
      { s with rest := order.map (.expire · now) } else s
  | .proceed => s.proceed
  | .wait c key =>
    if s.free ∧ s.waits c = none then
      { s with waits := Function.update s.waits c ((s.table.m.lookup key).map .blocked) } else s
  | .receive c =>
    match s.waits c with
    | some (.blocked f) =>
      if (s.table.heap f).ch.recv.isSome then
        { s with waits := Function.update s.waits c (some (.received f)) } else s
    | _ => s
  | .finish c =>
    match s.waits c with
    | some (.received f) => { s with
        waits := Function.update s.waits c none
        returned := s.returned ++ [(c, f, (s.table.heap f).err)] }
    | _ => s
  | .cancel c => { s with waits := Function.update s.waits c none }

def exec (ttl : Int) (es : List FlightEvent) : FlightRun := Schedule.exec step (start ttl) es

/-- No wake-up is lost: while nobody holds the lock, a lease is in the table as long as its channel
is open and its flag is not set. Each lease leaves the table once, its channel is closed once and
not before its error is set, and a waiter for a lease that has left the table can go on as soon as
the holder of the lock is done. -/
structure Notified (s : FlightRun) : Prop where
  oneLease : (s.table.m.map Prod.fst).Nodup
  oneKey : (s.table.m.map Prod.snd).Nodup
  allocated : ∀ f, s.table.Listed f → f < s.table.next
  listed : ∀ f, s.table.Listed f → s.table.shut f = false ∧ (s.table.heap f).done = false
  listed_iff : s.free = true → ∀ f < s.table.next,
    (s.table.Listed f ↔ s.table.shut f = false) ∧
      (s.table.Listed f ↔ (s.table.heap f).done = false)
  left_iff : ∀ f < s.table.next, ¬ s.table.Listed f ↔ ∃ err, (f, err) ∈ s.left
  leftOnce : (s.left.map Prod.fst).Nodup
  unpanicked : s.table.panicked = false
  closedOnce : ∀ f < s.table.next, s.closes.count f = if s.table.shut f then 1 else 0
  error : ∀ f < s.table.next, s.table.shut f = true → (f, (s.table.heap f).err) ∈ s.left
  wakes : ∀ c f, s.waits c = some (.blocked f) → ¬ s.table.Listed f →
    ∃ n, ((Schedule.exec step s (List.replicate n .proceed)).step (.receive c)).waits c
      = some (.received f)
  returned : ∀ c f err, (c, f, err) ∈ s.returned → (f, err) ∈ s.left

end FlightRun

section Invariant

/-- How far the holder of the lock has come with a lease that left with the error `err`. -/
def FlightStage.Holds (f : Flight) (err : Option String) : FlightStage → Prop
  | .setErr e => e = err ∧ f.done = false
  | .setDone => f.err = err ∧ f.done = false
  | .close => f.err = err ∧ f.done = true

def Flight.Ended (f : Flight) (err : Option String) : Prop :=
  f.ch.closed = true ∧ f.done = true ∧ f.err = err

variable {u : Flight → Flight}

namespace FlightTable
variable {t : FlightTable} {closing : Option (Nat × FlightStage)}
  {left : List (Nat × Option String)} {key : Bytes} {f g : Nat} {err : Option String}
  {st : FlightStage}

/-- A lease is in the table with its channel open, or it has left with an error and is finished or
in the hands of the holder of the lock. -/
structure Tracked (t : FlightTable) (closing : Option (Nat × FlightStage))
    (left : List (Nat × Option String)) : Prop where
  keys : (t.m.map Prod.fst).Nodup
  leases : (t.m.map Prod.snd).Nodup
  inTable : ∀ f, t.Listed f → f < t.next ∧ t.shut f = false ∧ (t.heap f).done = false
  leftOnce : (left.map Prod.fst).Nodup
  left_iff : ∀ f, f ∈ left.map Prod.fst ↔ f < t.next ∧ ¬ t.Listed f
  finished : ∀ f err, (f, err) ∈ left → (∀ st, closing ≠ some (f, st)) → (t.heap f).Ended err
  inHand : ∀ f st, closing = some (f, st) → t.shut f = false ∧
    ∃ err, (f, err) ∈ left ∧ st.Holds (t.heap f) err
  fresh : ∀ f, t.next ≤ f → t.shut f = false

theorem tracked_newLeaseTable (ttl : Int) : Tracked (newLeaseTable ttl) none [] where
  keys := nodup_nil
  leases := nodup_nil
  inTable := fun _ h => by cases h
  leftOnce := nodup_nil
  left_iff := fun f => iff_of_false not_mem_nil fun h => Nat.not_lt_zero f h.1
  finished := fun _ _ h => by cases h
  inHand := fun _ _ h => by cases h
  fresh := fun _ _ => rfl

theorem listed_of_lookup (h : t.m.lookup key = some f) : t.Listed f :=
  mem_map.mpr ⟨(key, f), LeaseRun.mem_of_lookup h, rfl⟩

/-- What is in the table once the lease of a key is deleted. -/
theorem Tracked.listed_delete (h : t.Tracked closing left) (hlook : t.m.lookup key = some f) :
    (t.delete key).Listed g ↔ t.Listed g ∧ g ≠ f := by
  have hmem := LeaseRun.mem_of_lookup hlook
  simp only [Listed, delete, mem_map, mem_filter, decide_eq_true_eq]
  constructor
  · rintro ⟨e, ⟨he, hkey⟩, rfl⟩
    refine ⟨⟨e, he, rfl⟩, fun hf => hkey ?_⟩
    exact LeaseRun.eq_of_lease h.leases he (hf ▸ hmem)
  · rintro ⟨⟨e, he, rfl⟩, hne⟩
    refine ⟨e, ⟨he, fun hkey => hne ?_⟩, rfl⟩
    exact LeaseRun.eq_of_key h.keys (hkey ▸ he) hmem

/-- A lease leaves the table and comes into the hands of the holder of the lock. -/
theorem Tracked.delete (h : t.Tracked none left) (hlook : t.m.lookup key = some f) :
    (t.delete key).Tracked (some (f, .setErr err)) (left ++ [(f, err)]) where
  keys := h.keys.sublist (filter_sublist.map _)
  leases := h.leases.sublist (filter_sublist.map _)
  inTable := fun g hg => h.inTable g ((h.listed_delete hlook).mp hg).1
  leftOnce := by
    rw [map_append, nodup_append]
    refine ⟨h.leftOnce, nodup_singleton f, fun g hg g' hg' => ?_⟩
    rw [mem_singleton.mp hg']
    rintro rfl
    exact ((h.left_iff g).mp hg).2 (listed_of_lookup hlook)
  left_iff := by
    intro g
    rw [map_append, mem_append, h.left_iff, h.listed_delete hlook, map_singleton, mem_singleton]
    constructor
    · rintro (⟨hlt, hout⟩ | rfl)
      · exact ⟨hlt, fun hin => hout hin.1⟩
      · exact ⟨(h.inTable g (listed_of_lookup hlook)).1, fun hin => hin.2 rfl⟩
    · rintro ⟨hlt, hout⟩
      by_cases hgf : g = f
      · exact .inr hgf
      · exact .inl ⟨hlt, fun hin => hout ⟨hin, hgf⟩⟩
  finished := by
    intro g err' hg hst
    rcases mem_append.mp hg with hg | hg
    · exact h.finished g err' hg fun st hc => by cases hc
    · cases mem_singleton.mp hg
      exact absurd rfl (hst (.setErr err))
  inHand := by
    intro g st hst
    cases hst
    obtain ⟨-, hopen, hdone⟩ := h.inTable f (listed_of_lookup hlook)
    exact ⟨hopen, err, mem_append_right _ mem_cons_self, rfl, hdone⟩
  fresh := h.fresh

theorem heap_assign_of_ne (hne : g ≠ f) :
    (t.assign f u).heap g = t.heap g := Function.update_of_ne hne ..

theorem heap_assign_self : (t.assign f u).heap f = u (t.heap f) :=
  Function.update_self ..

/-- The error of a lease that has left the table. -/
theorem Tracked.err_unique (h : t.Tracked closing left) {err' : Option String}
    (herr : (f, err) ∈ left) (herr' : (f, err') ∈ left) : err = err' :=
  congrArg Prod.snd (inj_on_of_nodup_map h.leftOnce herr herr' rfl)

/-- A statement about the lease in hand leaves the other leases alone. -/
theorem Tracked.update (h : t.Tracked (some (f, st)) left) {closing : Option (Nat × FlightStage)}
    (hdone : (∀ st, closing ≠ some (f, st)) → ∀ err, (f, err) ∈ left → (u (t.heap f)).Ended err)
    (hhand : ∀ g st', closing = some (g, st') → g = f ∧ (u (t.heap f)).ch.closed = false ∧
      ∃ err, (f, err) ∈ left ∧ st'.Holds (u (t.heap f)) err) :
    (t.assign f u).Tracked closing left := by
  obtain ⟨-, err₀, hleft₀, -⟩ := h.inHand f st rfl
  obtain ⟨hlt, hout⟩ := (h.left_iff f).mp (mem_map.mpr ⟨(f, err₀), hleft₀, rfl⟩)
  constructor
  case keys => exact h.keys
  case leases => exact h.leases
  case inTable =>
    intro g hg
    have hgf : g ≠ f := fun heq => hout (heq ▸ hg)
    rw [shut, heap_assign_of_ne hgf]
    exact h.inTable g hg
  case leftOnce => exact h.leftOnce
  case left_iff => exact h.left_iff
  case finished =>
    intro g err hg hst
    by_cases hgf : g = f
    · subst hgf
      rw [heap_assign_self]
      exact hdone hst err hg
    · rw [heap_assign_of_ne hgf]
      exact h.finished g err hg fun st' hc => hgf (by cases hc; rfl)
  case inHand =>
    intro g st' hst
    obtain ⟨rfl, hrest⟩ := hhand g st' hst
    rw [shut, heap_assign_self]
    exact hrest
  case fresh =>
    intro g hg
    have hgf : g ≠ f := fun heq => Nat.not_lt.mpr hg (heq ▸ hlt)
    rw [shut, heap_assign_of_ne hgf]
    exact h.fresh g hg

/-- A statement about the lease in hand which is not the last one. -/
theorem Tracked.assign (h : t.Tracked (some (f, st)) left) {st' : FlightStage}
    (hch : ∀ x, (u x).ch = x.ch)
    (hstage : ∀ err, st.Holds (t.heap f) err → st'.Holds (u (t.heap f)) err) :
    (t.assign f u).Tracked (some (f, st')) left := by
  obtain ⟨hopen, err, hleft, hholds⟩ := h.inHand f st rfl
  refine h.update (fun hst => absurd rfl (hst st')) fun g st'' hst => ?_
  cases hst
  rw [hch]
  exact ⟨rfl, hopen, err, hleft, hstage err hholds⟩

theorem close_eq (hopen : t.shut f = false) :
    t.close f = t.assign f fun x => { x with ch := { x.ch with closed := true } } := by
  have hch : (t.heap f).ch.close = .ok { (t.heap f).ch with closed := true } :=
    Chan.close_of_open hopen
  simp only [close, hch]
  rfl

theorem Tracked.close (h : t.Tracked (some (f, .close)) left) : (t.close f).Tracked none left := by
  obtain ⟨hopen, err, hleft, herr, hdone⟩ := h.inHand f .close rfl
  rw [close_eq hopen]
  refine h.update (fun _ err' hleft' => ?_) fun _ _ hst => by cases hst
  exact ⟨rfl, hdone, herr.trans (h.err_unique hleft hleft')⟩

theorem Tracked.insert (h : t.Tracked none left) (hlook : t.m.lookup key = none) {x : Flight}
    (hopen : x.ch.closed = false) (hdone : x.done = false) :
    Tracked { t with
      heap := Function.update t.heap t.next x
      next := t.next + 1
      m := (key, t.next) :: t.m } none left := by
  have hnew : ¬ t.Listed t.next := fun hin => Nat.lt_irrefl _ (h.inTable _ hin).1
  have hheap : ∀ g, g ≠ t.next → Function.update t.heap t.next x g = t.heap g :=
    fun g hg => Function.update_of_ne hg x t.heap
  constructor
  case keys => exact nodup_cons.mpr ⟨LeaseRun.not_mem_of_lookup hlook, h.keys⟩
  case leases => exact nodup_cons.mpr ⟨hnew, h.leases⟩
  case inTable =>
    intro g hg
    rcases mem_cons.mp hg with rfl | hg
    · simp only [shut, Function.update_self]
      exact ⟨Nat.lt_succ_self _, hopen, hdone⟩
    · obtain ⟨hlt, hrest⟩ := h.inTable g hg
      simp only [shut, hheap g (Nat.ne_of_lt hlt)]
      exact ⟨Nat.lt_succ_of_lt hlt, hrest⟩
  case leftOnce => exact h.leftOnce
  case left_iff =>
    intro g
    rw [h.left_iff]
    simp only [Listed, map_cons, mem_cons, not_or]
    constructor
    · rintro ⟨hlt, hout⟩
      exact ⟨Nat.lt_succ_of_lt hlt, Nat.ne_of_lt hlt, hout⟩
    · rintro ⟨hlt, hne, hout⟩
      exact ⟨Nat.lt_of_le_of_ne (Nat.lt_succ_iff.mp hlt) hne, hout⟩
  case finished =>
    intro g err hg hst
    have hlt := ((h.left_iff g).mp (mem_map.mpr ⟨(g, err), hg, rfl⟩)).1
    simp only [hheap g (Nat.ne_of_lt hlt)]
    exact h.finished g err hg hst
  case inHand => exact fun g st hst => by cases hst
  case fresh =>
    intro g hg
    simp only [shut, hheap g (Nat.ne_of_gt hg)]
    exact h.fresh g (Nat.le_of_succ_le hg)

theorem Tracked.acquire (h : t.Tracked none left) (key : Bytes) (now : Int) :
    (t.acquire key now).2.Tracked none left := by
  unfold FlightTable.acquire
  cases hlook : t.m.lookup key with
  | some f => exact h
  | none => exact h.insert hlook rfl rfl

end FlightTable

namespace FlightRun
variable {s s' : FlightRun} {f : Nat} {st : FlightStage}

/-- A waiter blocks on the channel of a lease that exists, and has received once it is closed. -/
def Fits (t : FlightTable) : FlightWaiter → Prop
  | .blocked f => f < t.next
  | .received f => t.shut f = true

structure Sound (s : FlightRun) : Prop where
  tracked : s.table.Tracked s.closing s.left
  unbuffered : ∀ f, (s.table.heap f).ch.buf = []
  unpanicked : s.table.panicked = false
  counts : ∀ f, s.closes.count f = if s.table.shut f then 1 else 0
  waiting : ∀ c, ∀ w ∈ s.waits c, Fits s.table w
  returned : ∀ c f err, (c, f, err) ∈ s.returned → (f, err) ∈ s.left

theorem sound_start (ttl : Int) : Sound (start ttl) where
  tracked := FlightTable.tracked_newLeaseTable ttl
  unbuffered := fun _ => rfl
  unpanicked := rfl
  counts := fun _ => rfl
  waiting := fun _ _ h => by cases h
  returned := fun _ _ _ h => by cases h

structure Extends (s s' : FlightRun) : Prop where
  waits : s'.waits = s.waits
  returned : s'.returned = s.returned
  next : s.table.next ≤ s'.table.next
  shut : ∀ f, s.table.shut f = true → s'.table.shut f = true
  left : s.left ⊆ s'.left

section
variable (hs : Sound s)
include hs

theorem Sound.extends (h : Extends s s') (tracked : s'.table.Tracked s'.closing s'.left)
    (unbuffered : ∀ f, (s'.table.heap f).ch.buf = []) (unpanicked : s'.table.panicked = false)
    (counts : ∀ f, s'.closes.count f = if s'.table.shut f then 1 else 0) : Sound s' where
  tracked := tracked
  unbuffered := unbuffered
  unpanicked := unpanicked
  counts := counts
  waiting := by
    intro c w hw
    have hfits := hs.waiting c w (h.waits ▸ hw)
    cases w with
    | blocked f => exact Nat.lt_of_lt_of_le hfits h.next
    | received f => exact h.shut f hfits
  returned := fun c f err hr => h.left (hs.returned c f err (h.returned ▸ hr))

theorem Sound.acquire (hfree : s.closing = none) (key : Bytes) (now : Int) :
    Sound { s with table := (s.table.acquire key now).2 } := by
  have htracked := hs.tracked
  rw [hfree] at htracked
  have hacquired := htracked.acquire key now
  unfold FlightTable.acquire at hacquired ⊢
  cases hlook : s.table.m.lookup key with
  | some f =>
    exact hs.extends ⟨rfl, rfl, Nat.le_refl _, fun _ h => h, fun _ h => h⟩ hs.tracked hs.unbuffered
      hs.unpanicked hs.counts
  | none =>
    rw [hlook] at hacquired
    have hshut : ∀ (x : Flight) f, x.ch.closed = false →
        (Function.update s.table.heap s.table.next x f).ch.closed = s.table.shut f := by
      intro x f hx
      by_cases hf : f = s.table.next
      · rw [hf, Function.update_self, hx, hs.tracked.fresh _ (Nat.le_refl _)]
      · rw [Function.update_of_ne hf, FlightTable.shut]
    refine hs.extends ⟨rfl, rfl, Nat.le_succ _, fun f hf => ?_, fun _ h => h⟩ ?_ (fun f => ?_)
      hs.unpanicked fun f => ?_
    · exact (hshut _ f rfl).trans hf
    · rw [hfree]
      exact hacquired
    · by_cases hf : f = s.table.next
      · rw [hf]
        simp only [Function.update_self]
        rfl
      · simp only [Function.update_of_ne hf]
        exact hs.unbuffered f
    · rw [FlightTable.shut, hshut _ f rfl]
      exact hs.counts f

theorem Sound.remove (hfree : s.closing = none) {key : Bytes}
    (hlook : s.table.m.lookup key = some f) (err : Option String) : Sound (s.remove key f err) := by
  have htracked := hs.tracked
  rw [hfree] at htracked
  have hdone := (htracked.inTable f (FlightTable.listed_of_lookup hlook)).2.2
  refine hs.extends ⟨rfl, rfl, Nat.le_refl _, fun _ h => h, subset_append_left _ _⟩ ?_
    hs.unbuffered hs.unpanicked hs.counts
  simp only [FlightRun.remove, hdone, Bool.false_eq_true, if_false]
  exact htracked.delete hlook

theorem Sound.visit (hfree : s.closing = none) (v : FlightVisit) : Sound (s.visit v) := by
  cases v with
  | release key err =>
    simp only [FlightRun.visit]
    split
    · exact hs.remove hfree ‹_› err
    · exact hs
  | expire key now =>
    simp only [FlightRun.visit]
    split
    · split
      · exact hs.remove hfree ‹_› _
      · exact hs
    · exact hs

/-- A statement about the lease in hand that leaves its channel alone. -/
theorem Sound.assign (hst : s.closing = some (f, st)) {st' : FlightStage}
    (hch : ∀ x, (u x).ch = x.ch)
    (hstage : ∀ err, st.Holds (s.table.heap f) err → st'.Holds (u (s.table.heap f)) err) :
    Sound { s with table := s.table.assign f u, closing := some (f, st') } := by
  have htracked := hs.tracked
  rw [hst] at htracked
  have hsame : ∀ g, ((s.table.assign f u).heap g).ch = (s.table.heap g).ch := by
    intro g
    by_cases hgf : g = f
    · rw [hgf, FlightTable.heap_assign_self, hch]
    · rw [FlightTable.heap_assign_of_ne hgf]
  refine hs.extends ⟨rfl, rfl, Nat.le_refl _, fun g hg => ?_, fun _ h => h⟩
    (htracked.assign hch hstage) (fun g => ?_) hs.unpanicked fun g => ?_
  · rw [FlightTable.shut, hsame]
    exact hg
  · rw [hsame]
    exact hs.unbuffered g
  · rw [FlightTable.shut, hsame]
    exact hs.counts g

theorem Sound.close (hst : s.closing = some (f, .close)) :
    Sound { s with table := s.table.close f, closing := none, closes := s.closes ++ [f] } := by
  have htracked := hs.tracked
  rw [hst] at htracked
  have hopen := (htracked.inHand f .close rfl).1
  have hshut : ∀ g, (s.table.close f).shut g = if g = f then true else s.table.shut g := by
    intro g
    rw [FlightTable.close_eq hopen, FlightTable.shut]
    split_ifs with hgf
    · rw [hgf, FlightTable.heap_assign_self]
    · rw [FlightTable.heap_assign_of_ne hgf, FlightTable.shut]
  refine hs.extends ⟨rfl, rfl, ?_, fun g hg => ?_, fun _ h => h⟩ htracked.close (fun g => ?_) ?_
    fun g => ?_
  · rw [FlightTable.close_eq hopen]
    exact Nat.le_refl _
  · rw [hshut, hg, ite_self]
  · rw [FlightTable.close_eq hopen]
    by_cases hgf : g = f
    · rw [hgf, FlightTable.heap_assign_self]
      exact hs.unbuffered f
    · rw [FlightTable.heap_assign_of_ne hgf]
      exact hs.unbuffered g
  · rw [FlightTable.close_eq hopen]
    exact hs.unpanicked
  · rw [hshut, count_append, hs.counts, count_singleton]
    by_cases hgf : g = f
    · rw [hgf, hopen]
      simp
    · simp [hgf, Ne.symm hgf]

/-- The invariant does not depend on what the holder of the lock has not begun. -/
theorem Sound.schedule (rest : List FlightVisit) : Sound { s with rest := rest } :=
  ⟨hs.tracked, hs.unbuffered, hs.unpanicked, hs.counts, hs.waiting, hs.returned⟩

theorem Sound.proceed : Sound s.proceed := by
  unfold FlightRun.proceed
  split
  case h_1 f err hst =>
    exact hs.assign hst (fun _ => rfl) fun _ h => h
  case h_2 f hst =>
    exact hs.assign hst (fun _ => rfl) fun _ h => ⟨h.1, rfl⟩
  case h_3 f hst => exact hs.close hst
  case h_4 hst =>
    split
    · rename_i v rest _
      exact Sound.visit (hs.schedule rest) hst v
    · exact hs

end

theorem closing_of_free (h : s.free = true) : s.closing = none ∧ s.rest = [] := by
  simpa [free] using h

/-- A waiter comes, goes on or gives up. -/
theorem Sound.waits (hs : Sound s) (c : Nat) {w : Option FlightWaiter}
    (hw : ∀ x ∈ w, Fits s.table x) : Sound { s with waits := Function.update s.waits c w } :=
  { hs with
    waiting := (Function.forall_update_iff s.waits (p := fun _ w => ∀ x ∈ w, Fits s.table x)).mpr
      ⟨hw, fun c' _ => hs.waiting c'⟩ }

/-- Nothing is ever sent, so that a receive goes on once the channel is closed. -/
theorem Sound.recv_iff (hs : Sound s) (f : Nat) :
    (s.table.heap f).ch.recv.isSome = true ↔ s.table.shut f = true := by
  rw [Chan.recv, hs.unbuffered f, FlightTable.shut]
  cases (s.table.heap f).ch.closed <;> simp

/-- The error of a lease whose channel is closed. -/
theorem Sound.error (hs : Sound s) (h : s.table.shut f = true) :
    (f, (s.table.heap f).err) ∈ s.left := by
  have hlt : f < s.table.next := by
    by_contra hge
    rw [hs.tracked.fresh f (Nat.not_lt.mp hge)] at h
    cases h
  have hout : ¬ s.table.Listed f := by
    intro hin
    rw [(hs.tracked.inTable f hin).2.1] at h
    cases h
  obtain ⟨⟨g, err⟩, hleft, rfl⟩ := mem_map.mp ((hs.tracked.left_iff f).mpr ⟨hlt, hout⟩)
  have hst : ∀ st, s.closing ≠ some (g, st) := by
    intro st hst
    rw [(hs.tracked.inHand g st hst).1] at h
    cases h
  rw [(hs.tracked.finished g err hleft hst).2.2]
  exact hleft

theorem Sound.step (hs : Sound s) (e : FlightEvent) : Sound (s.step e) := by
  cases e with
  | acquire key now =>
    simp only [FlightRun.step]
    split
    · exact hs.acquire (closing_of_free ‹_›).1 key now
    · exact hs
  | release key err =>
    simp only [FlightRun.step]
    split
    · exact hs.schedule _
    · exact hs
  | tick now order =>
    simp only [FlightRun.step]
    split
    · exact hs.schedule _
    · exact hs
  | proceed => exact hs.proceed
  | wait c key =>
    simp only [FlightRun.step]
    split
    · refine hs.waits c fun x hx => ?_
      obtain ⟨f, hlook, rfl⟩ := Option.map_eq_some_iff.mp hx
      exact (hs.tracked.inTable f (FlightTable.listed_of_lookup hlook)).1
    · exact hs
  | receive c =>
    simp only [FlightRun.step]
    split
    · split
      · rename_i f hc hrecv
        refine hs.waits c fun x hx => ?_
        cases hx
        exact (hs.recv_iff f).mp hrecv
      · exact hs
    · exact hs
  | finish c =>
    simp only [FlightRun.step]
    split
    · rename_i f hc
      refine { hs.waits c (w := none) nofun with returned := fun c' g err hr => ?_ }
      rcases mem_append.mp hr with hr | hr
      · exact hs.returned c' g err hr
      · cases mem_singleton.mp hr
        exact hs.error (hs.waiting c _ hc)
    · exact hs
  | cancel c => exact hs.waits c nofun

end FlightRun

end Invariant

namespace FlightRun
variable {s : FlightRun} {f : Nat}

/-- The holder of the lock comes to the end of what it does to a lease. -/
theorem exists_proceed (s : FlightRun) : ∃ n,
    let s' := Schedule.exec step s (List.replicate n .proceed)
    s'.closing = none ∧ s'.waits = s.waits ∧ s'.table.m = s.table.m ∧
      s'.table.next = s.table.next := by
  have hclose : ∀ (t : FlightTable) g, (t.close g).m = t.m ∧ (t.close g).next = t.next := by
    intro t g
    unfold FlightTable.close
    split <;> exact ⟨rfl, rfl⟩
  match hst : s.closing with
  | none => exact ⟨0, hst, rfl, rfl, rfl⟩
  | some (g, .close) =>
    refine ⟨1, ?_⟩
    simp only [List.replicate, Schedule.exec_cons, Schedule.exec_nil, step, proceed, hst]
    exact ⟨trivial, trivial, hclose _ g⟩
  | some (g, .setDone) =>
    refine ⟨2, ?_⟩
    simp only [List.replicate, Schedule.exec_cons, Schedule.exec_nil, step, proceed, hst]
    exact ⟨trivial, trivial, hclose _ g⟩
  | some (g, .setErr err) =>
    refine ⟨3, ?_⟩
    simp only [List.replicate, Schedule.exec_cons, Schedule.exec_nil, step, proceed, hst]
    exact ⟨trivial, trivial, hclose _ g⟩

/-- A lease that has left the table is finished unless it is in the hands of the lock's holder. -/
theorem Sound.shut_of_left (hs : Sound s) (hst : ∀ st, s.closing ≠ some (f, st))
    (hlt : f < s.table.next) (hout : ¬ s.table.Listed f) :
    s.table.shut f = true ∧ (s.table.heap f).done = true := by
  obtain ⟨⟨g, err⟩, hleft, rfl⟩ := mem_map.mp ((hs.tracked.left_iff f).mpr ⟨hlt, hout⟩)
  obtain ⟨hshut, hdone, -⟩ := hs.tracked.finished g err hleft hst
  exact ⟨hshut, hdone⟩

theorem Sound.wakes (hs : Sound s) {c : Nat} (hc : s.waits c = some (.blocked f))
    (hout : ¬ s.table.Listed f) :
    ∃ n, ((Schedule.exec FlightRun.step s (List.replicate n .proceed)).step (.receive c)).waits c
      = some (.received f) := by
  obtain ⟨n, hst, hwaits, hm, hnext⟩ := exists_proceed s
  refine ⟨n, ?_⟩
  have hs' : Sound (Schedule.exec FlightRun.step s (List.replicate n .proceed)) :=
    Schedule.exec_invariant (fun _ e h => h.step e) hs
  generalize Schedule.exec FlightRun.step s (List.replicate n .proceed) = s'
    at hs' hst hwaits hm hnext ⊢
  have hlt : f < s'.table.next := hnext ▸ hs.waiting c _ hc
  have hout' : ¬ s'.table.Listed f := by
    rw [FlightTable.Listed, hm]
    exact hout
  have hshut := (hs'.shut_of_left (fun st h => by rw [hst] at h; cases h) hlt hout').1
  simp only [FlightRun.step, hwaits, hc, (hs'.recv_iff f).mpr hshut, if_true, Function.update_self]

theorem Sound.notified (hs : Sound s) : Notified s where
  oneLease := hs.tracked.keys
  oneKey := hs.tracked.leases
  allocated := fun f h => (hs.tracked.inTable f h).1
  listed := fun f h => (hs.tracked.inTable f h).2
  listed_iff := by
    intro hfree f hlt
    have hst : ∀ st, s.closing ≠ some (f, st) := by
      intro st h
      rw [(closing_of_free hfree).1] at h
      cases h
    by_cases hin : s.table.Listed f
    · obtain ⟨-, hopen, hdone⟩ := hs.tracked.inTable f hin
      exact ⟨iff_of_true hin hopen, iff_of_true hin hdone⟩
    · obtain ⟨hshut, hdone⟩ := hs.shut_of_left hst hlt hin
      rw [hshut, hdone]
      exact ⟨iff_of_false hin Bool.noConfusion, iff_of_false hin Bool.noConfusion⟩
  left_iff := by
    intro f hlt
    have hiff := hs.tracked.left_iff f
    simp only [mem_map, Prod.exists, exists_and_right, exists_eq_right] at hiff
    rw [hiff]
    exact ⟨fun h => ⟨hlt, h⟩, fun h => h.2⟩
  leftOnce := hs.tracked.leftOnce
  unpanicked := hs.unpanicked
  closedOnce := fun f _ => hs.counts f
  error := fun _ _ h => hs.error h
  wakes := fun _ _ hc hout => hs.wakes hc hout
  returned := hs.returned

/-- No wake-up is lost, however acquires, releases, waits and ticks of the sweeper interleave. -/
theorem exec_notified (ttl : Int) (es : List FlightEvent) : Notified (exec ttl es) :=
  Sound.notified (Schedule.exec_invariant (fun _ e h => h.step e) (sound_start ttl))

-- the waiter goes on while the releaser still holds the lock
example : (exec 10 [.acquire [7] 0, .wait 3 [7], .release [7] (some "failed"), .proceed, .proceed,
    .proceed, .receive 3, .proceed, .receive 3, .finish 3]).returned = [(3, 0, some "failed")] := by
  decide

end FlightRun
end Kioshun
