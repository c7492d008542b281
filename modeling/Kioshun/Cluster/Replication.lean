import Kioshun.Cluster.Client
import Kioshun.Lib.Schedule

/-!
# Replication to the other owners

A write goes to the other owners with one goroutine for each, while the caller
waits for the acknowledgements that the write concern asks for; with the write
concern met from the start nobody waits. The steps of the goroutines and of the
caller interleave. Whatever the order in which the answers come, an owner that
does not acknowledge gets one hint.
-/

namespace Kioshun
open Function Node List

universe u v
variable {K : Type u} {V : Type v}

/-- How a request to an owner ends. -/
inductive Answer where
  | failed (err : String)
  | undecodable
  | reply (resp : Ack)

/-- The text for an answer that says neither OK nor why not. -/
def Hint.notOK : Hint → String
  | .set .. => "set not ok"
  | .del .. => "delete not ok"

/-- The error that a goroutine makes of an answer; without one the owner has acknowledged. -/
def Answer.err (hint : Hint) : Answer → Option String
  | .failed err => some err
  | .undecodable => some hint.notOK
  | .reply resp => if resp.OK then none else some (if resp.Err ≠ "" then resp.Err else hint.notOK)

/-- Where the goroutine for an owner stands. -/
inductive Sender where
  | idle
  | requesting
  | missing
  | reporting (err : Option String)
  | ended
  deriving DecidableEq

def Sender.settled : Sender → Bool
  | .reporting _ => true
  | .ended => true
  | _ => false

/-- Where `replicateSet` or `replicateDelete` itself stands. -/
inductive Caller where
  | launching (next : Nat)
  | waiting
  | returned (result : Except String Unit)

/-- One call. Owners are named by their position; `acks` are those whose OK has arrived, `handed`
those for which a hint has reached the queue. -/
structure Replication where
  caller : Caller
  sender : Nat → Sender
  remaining : Int
  errCh : List (Option String)
  acks : List Nat
  handed : List Nat
  paused : Bool

inductive Replication.Event where
  | launch (connected : Bool)
  | answer (i : Nat) (a : Answer)
  | proceed (i : Nat)
  | receive
  | timeout
  | cancel (err : String)
  | pause (paused : Bool)

namespace Replication
variable (n : Node K V) (hint : Hint) (owners : List NodeMeta) (handoff : Bool)

def ownAcks : Int := if n.isPrimary owners then 1 else 0

/-- The acknowledgements that are still wanted at the start. -/
def want : Int := n.required - ownAcks n owners

def start : Replication where
  caller := .launching 0
  sender := fun _ => .idle
  remaining := wrap32 (want n owners)
  errCh := []
  acks := []
  handed := []
  paused := false

def moveTo (s : Replication) (i : Nat) (t : Sender) : Replication :=
  { s with sender := update s.sender i t }

def enqueue (s : Replication) (i : Nat) : Replication :=
  if handoff && !s.paused then { s with handed := s.handed ++ [i] } else s

def launch (s : Replication) (i : Nat) (connected : Bool) : Replication :=
  match owners[i]? with
  | none => { s with caller := if want n owners ≤ 0 then .returned (.ok ()) else .waiting }
  | some own =>
    let s := { s with caller := .launching (i + 1) }
    if own.ID = n.cfg.ID then s
    else if connected then s.moveTo i .requesting
    else if want n owners ≤ 0 then s.moveTo i .missing
    else (s.enqueue handoff i).moveTo i .ended

/-- The request of a goroutine returns. Without anybody waiting nothing is counted or reported. -/
def answer (s : Replication) (i : Nat) (a : Answer) : Replication :=
  match a.err hint with
  | none =>
    let s := { s with acks := s.acks ++ [i] }
    if want n owners ≤ 0 then s.moveTo i .ended
    else
      let remaining := wrap32 (s.remaining - 1)
      { s with remaining := remaining }.moveTo i (if remaining ≤ 0 then .reporting none else .ended)
  | some err =>
    (s.enqueue handoff i).moveTo i (if want n owners ≤ 0 then .ended else .reporting (some err))

/-- The next step of a goroutine that is not waiting for its peer. -/
def proceed (s : Replication) (i : Nat) : Replication :=
  match s.sender i with
  | .missing => (s.enqueue handoff i).moveTo i .ended
  | .reporting err =>
    if s.errCh.length < owners.length then { s with errCh := s.errCh ++ [err] }.moveTo i .ended
    else s
  | _ => s

def receive (s : Replication) : Replication :=
  match s.errCh with
  | [] => s
  | none :: errs => { s with errCh := errs, caller := .returned (.ok ()) }
  | some _ :: errs => { s with errCh := errs }

def step (s : Replication) : Event → Replication
  | .launch connected =>
    match s.caller with
    | .launching i => s.launch n owners handoff i connected
    | _ => s
  | .answer i a => if s.sender i = .requesting then s.answer n hint owners handoff i a else s
  | .proceed i => s.proceed owners handoff i
  | .receive =>
    match s.caller with
    | .waiting => s.receive
    | _ => s
  | .timeout =>
    match s.caller with
    | .waiting => { s with caller := .returned (.error ErrTimeout) }
    | _ => s
  | .cancel err =>
    match s.caller with
    | .waiting => { s with caller := .returned (.error err) }
    | _ => s
  | .pause b => { s with paused := b }

def others : List Nat :=
  (List.range owners.length).filter fun i => owners[i]?.any fun own => decide (own.ID ≠ n.cfg.ID)

def exec (es : List Event) : Replication :=
  Schedule.exec (step n hint owners handoff) (start n owners) es

end Replication

namespace Node

theorem wrap32_pred (x : Int) : wrap32 (wrap32 x - 1) = wrap32 (x - 1) := by
  unfold wrap32
  omega

theorem metConcern_iff {want : Int} {oks : Nat} :
    metConcern want oks = true ↔ ∃ j : Nat, 0 < j ∧ j ≤ oks ∧ wrap32 (want - j) ≤ 0 := by
  simp only [metConcern, any_eq_true, List.mem_range, decide_eq_true_eq]
  constructor
  · rintro ⟨j, hj, hle⟩
    exact ⟨j + 1, Nat.succ_pos j, hj, by exact_mod_cast hle⟩
  · rintro ⟨j, hpos, hj, hle⟩
    obtain ⟨j, rfl⟩ := Nat.exists_eq_succ_of_ne_zero (Nat.pos_iff_ne_zero.mp hpos)
    exact ⟨j, hj, by exact_mod_cast hle⟩

theorem metConcern_mono {want : Int} {oks oks' : Nat} (hle : oks ≤ oks')
    (h : metConcern want oks = true) : metConcern want oks' = true := by
  obtain ⟨j, hpos, hj, hneg⟩ := metConcern_iff.mp h
  exact metConcern_iff.mpr ⟨j, hpos, Nat.le_trans hj hle, hneg⟩

/-- An acknowledgement that does not bring the counter down leaves it to an earlier one. -/
theorem metConcern_of_succ {want : Int} {oks : Nat} (h : metConcern want (oks + 1) = true)
    (hlast : ¬ wrap32 (want - (oks + 1 : Nat)) ≤ 0) : metConcern want oks = true := by
  obtain ⟨j, hpos, hj, hneg⟩ := metConcern_iff.mp h
  rcases Nat.le_succ_iff.mp hj with hj | rfl
  · exact metConcern_iff.mpr ⟨j, hpos, hj, hneg⟩
  · exact absurd hneg hlast

end Node

theorem countP_update {α : Type*} {p : α → Bool} {f : Nat → α} {i : Nat} {x : α} {l : List Nat}
    (hl : l.Nodup) (hi : i ∈ l) (hf : p (f i) = false) (hx : p x = true) :
    l.countP (fun j => p (update f i x j)) = l.countP (fun j => p (f j)) + 1 := by
  induction l with
  | nil => cases hi
  | cons j l ih =>
    obtain ⟨hj, hl⟩ := nodup_cons.mp hl
    by_cases hij : j = i
    · subst hij
      have hrest : l.countP (fun k => p (update f j x k)) = l.countP fun k => p (f k) := by
        refine countP_congr fun k hk => ?_
        rw [update_of_ne (fun h : k = j => hj (h ▸ hk))]
      simp [hrest, hf, hx]
    · have hi : i ∈ l := (mem_cons.mp hi).resolve_left (Ne.symm hij)
      simp only [countP_cons, update_of_ne hij, ih hl hi]
      omega

namespace Replication
variable {n : Node K V} {hint : Hint} {owners : List NodeMeta} {handoff : Bool} {s : Replication}
  {i : Nat} {t : Sender}

theorem mem_others : i ∈ others n owners ↔ ∃ own, owners[i]? = some own ∧ own.ID ≠ n.cfg.ID := by
  constructor
  · intro h
    cases hown : owners[i]? with
    | none => simp [others, hown] at h
    | some own => exact ⟨own, rfl, by simpa [others, hown] using (List.mem_filter.mp h).2⟩
  · rintro ⟨own, hown, hne⟩
    refine List.mem_filter.mpr ⟨List.mem_range.mpr (List.getElem?_eq_some_iff.mp hown).1, ?_⟩
    simp [hown, hne]

theorem nodup_others : (others n owners).Nodup := nodup_range.filter _

theorem lt_of_mem_others (h : i ∈ others n owners) : i < owners.length :=
  List.mem_range.mp (List.mem_filter.mp h).1

/-- How far the loop over the owners has come. -/
def front (owners : List NodeMeta) (s : Replication) : Nat :=
  match s.caller with
  | .launching i => i
  | _ => owners.length

/-- The caller has returned `nil`, or has it in its channel, or will have. -/
def Succeeds (s : Replication) : Prop :=
  s.caller = .returned (.ok ()) ∨ none ∈ s.errCh ∨ ∃ i, s.sender i = .reporting none

/-- The goroutine of the owner at `i` waits for its peer, or the loop is about to start it. -/
def Opens (n : Node K V) (owners : List NodeMeta) (s : Replication) (i : Nat) (c : Caller) : Prop :=
  s.caller = .launching i ∧ i ∈ others n owners ∧ c = .launching (i + 1) ∨
    (s.sender i = .requesting ∨ s.sender i = .missing) ∧ c = s.caller

/-- What an event does: the caller moves on, or the goroutine of one owner does. -/
inductive Stepped (n : Node K V) (owners : List NodeMeta) (handoff : Bool) (s : Replication) :
    Event → Replication → Prop
  | caller {e : Event} {c : Caller} {errCh : List (Option String)}
      (hfront : ∀ j ∈ others n owners, j < front owners { s with caller := c } ↔ j < s.front owners)
      (hok : c = .returned (.ok ()) → want n owners ≤ 0 ∨ s.Succeeds) (hch : errCh <:+ s.errCh) :
      Stepped n owners handoff s e { s with caller := c, errCh := errCh }
  | pause (b : Bool) : Stepped n owners handoff s (.pause b) { s with paused := b }
  | start {e : Event} {i : Nat} {c : Caller} {t : Sender} (ho : Opens n owners s i c)
      (ht : t = .requesting ∨ t = .missing) :
      Stepped n owners handoff s e ({ s with caller := c }.moveTo i t)
  | hand {e : Event} {i : Nat} {c : Caller} {t : Sender} (ho : Opens n owners s i c)
      (ht : t = .ended ∨ (∃ err, t = .reporting (some err)) ∧ 0 < want n owners) :
      Stepped n owners handoff s e (({ s with caller := c }.enqueue handoff i).moveTo i t)
  | ack {e : Event} {i : Nat} {t : Sender} {remaining : Int} (ho : Opens n owners s i s.caller)
      (hr : 0 < want n owners → remaining = wrap32 (s.remaining - 1))
      (ht : t = .ended ∨ t = .reporting none ∧ 0 < want n owners ∧ remaining ≤ 0) :
      Stepped n owners handoff s e
        ({ s with acks := s.acks ++ [i], remaining := remaining }.moveTo i t)
  | report {e : Event} {i : Nat} {err : Option String} (hi : s.sender i = .reporting err) :
      Stepped n owners handoff s e ({ s with errCh := s.errCh ++ [err] }.moveTo i .ended)

variable {c : Caller} {e : Event} {hinting : Prop}

theorem Stepped.idle : Stepped n owners handoff s e s :=
  .caller (fun _ _ => Iff.rfl) (fun hc => .inr (.inl hc)) (suffix_refl _)

theorem launch_stepped (hs : s.caller = .launching i) (connected : Bool) :
    Stepped n owners handoff s e (s.launch n owners handoff i connected) := by
  have hfront : s.front owners = i := by simp [front, hs]
  unfold launch
  cases hown : owners[i]? with
  | none =>
    have hend (j) (hj : j ∈ others n owners) : j < owners.length ↔ j < s.front owners := by
      have hlt := lt_of_mem_others hj
      have hle := getElem?_eq_none_iff.mp hown
      omega
    by_cases hwant : want n owners ≤ 0
    · simp only [hwant, if_true]
      exact .caller hend (fun _ => .inl hwant) (suffix_refl _)
    · simp only [hwant, if_false]
      exact .caller hend nofun (suffix_refl _)
  | some own =>
    by_cases hself : own.ID = n.cfg.ID
    · simp only [hself, if_true]
      refine .caller (fun j hj => ?_) nofun (suffix_refl _)
      have hne : j ≠ i := by
        rintro rfl
        obtain ⟨own', hown', hne⟩ := mem_others.mp hj
        cases hown.symm.trans hown'
        exact hne hself
      show j < i + 1 ↔ _
      omega
    · have ho : Opens n owners s i (.launching (i + 1)) :=
        .inl ⟨hs, mem_others.mpr ⟨own, hown, hself⟩, rfl⟩
      simp only [hself, if_false]
      split_ifs
      · exact .start ho (.inl rfl)
      · exact .start ho (.inr rfl)
      · exact .hand ho (.inl rfl)

theorem answer_stepped (hi : s.sender i = .requesting) (a : Answer) :
    Stepped n owners handoff s e (s.answer n hint owners handoff i a) := by
  have ho : Opens n owners s i s.caller := .inr ⟨.inl hi, rfl⟩
  unfold answer
  cases a.err hint with
  | none =>
    by_cases hwant : want n owners ≤ 0
    · simp only [hwant, if_true]
      exact .ack ho (fun hpos => absurd hpos (Int.not_lt.mpr hwant)) (.inl rfl)
    · simp only [hwant, if_false]
      refine .ack ho (fun _ => rfl) ?_
      split_ifs with hle
      · exact .inr ⟨rfl, Int.not_le.mp hwant, hle⟩
      · exact .inl rfl
  | some err =>
    refine .hand ho ?_
    split_ifs with hwant
    · exact .inl rfl
    · exact .inr ⟨⟨err, rfl⟩, Int.not_le.mp hwant⟩

theorem step_stepped (n : Node K V) (hint : Hint) (owners : List NodeMeta) (handoff : Bool)
    (s : Replication) (e : Event) :
    Stepped n owners handoff s e (s.step n hint owners handoff e) := by
  cases e with
  | launch connected =>
    cases hs : s.caller with
    | launching i => simpa only [step, hs] using launch_stepped hs connected
    | _ => simpa only [step, hs] using .idle
  | answer i a =>
    by_cases hi : s.sender i = .requesting
    · simpa only [step, hi, if_true] using answer_stepped hi a
    · simpa only [step, hi, if_false] using .idle
  | proceed i =>
    cases hi : s.sender i with
    | missing =>
      simp only [step, proceed, hi]
      exact .hand (.inr ⟨.inr hi, rfl⟩) (.inl rfl)
    | reporting err =>
      simp only [step, proceed, hi]
      split_ifs
      · exact .report hi
      · exact .idle
    | _ => simpa only [step, proceed, hi] using .idle
  | receive =>
    cases hs : s.caller with
    | waiting =>
      simp only [step, hs, receive]
      cases hch : s.errCh with
      | nil => exact .idle
      | cons err errs =>
        have hsuffix : errs <:+ s.errCh := hch ▸ suffix_cons err errs
        cases err with
        | none =>
          exact .caller (fun j _ => by simp [front, hs])
            (fun _ => .inr (.inr (.inl (by simp [hch]))))
            hsuffix
        | some _ => exact .caller (fun j _ => by simp [front, hs]) nofun hsuffix
    | _ => simpa only [step, hs] using .idle
  | timeout =>
    cases hs : s.caller with
    | waiting =>
      simp only [step, hs]
      exact .caller (fun j _ => by simp [front, hs]) nofun (suffix_refl _)
    | _ => simpa only [step, hs] using .idle
  | cancel err =>
    cases hs : s.caller with
    | waiting =>
      simp only [step, hs]
      exact .caller (fun j _ => by simp [front, hs]) nofun (suffix_refl _)
    | _ => simpa only [step, hs] using .idle
  | pause b => exact .pause b

/-- What holds of the owner at `i` while its goroutine stands at `t`. With `hinting`, an owner that
has not acknowledged has got its hint. -/
structure Fits (n : Node K V) (owners : List NodeMeta) (hinting : Prop) (front : Nat)
    (acks handed : List Nat) (i : Nat) (t : Sender) : Prop where
  launched : t ≠ .idle ↔ i ∈ others n owners ∧ i < front
  once : acks.count i + handed.count i ≤ if t.settled then 1 else 0
  covered : hinting → t.settled = true → 0 < acks.count i + handed.count i
  slow : ∀ err, t = .reporting err → 0 < want n owners

structure Sound (n : Node K V) (owners : List NodeMeta) (handoff : Bool) (hinting : Prop)
    (s : Replication) : Prop where
  active : hinting → handoff = true ∧ s.paused = false
  fits : ∀ i, Fits n owners hinting (s.front owners) s.acks s.handed i (s.sender i)
  remaining : 0 < want n owners → s.remaining = wrap32 (want n owners - s.acks.length)
  met : s.Succeeds → want n owners ≤ 0 ∨ metConcern (want n owners) s.acks.length = true
  room : s.errCh.length ≤ (others n owners).countP fun i => s.sender i == .ended

theorem sound_start (h : hinting → handoff = true) :
    Sound n owners handoff hinting (start n owners) where
  active := fun hh => ⟨h hh, rfl⟩
  fits := fun i =>
    { launched := ⟨fun h => absurd rfl h, fun h => absurd h.2 (Nat.not_lt_zero i)⟩
      once := Nat.le_refl 0
      covered := nofun
      slow := nofun }
  remaining := fun _ => by simp [start]
  met := by
    rintro (h | h | ⟨i, h⟩)
    · cases h
    · cases h
    · cases h
  room := Nat.zero_le _

@[simp] theorem sender_moveTo_self (s : Replication) (i : Nat) (t : Sender) :
    (s.moveTo i t).sender i = t :=
  update_self ..

theorem sender_moveTo_of_ne {j : Nat} (hj : j ≠ i) (s : Replication) (t : Sender) :
    (s.moveTo i t).sender j = s.sender j :=
  update_of_ne hj ..

theorem succeeds_moveTo (h : (s.moveTo i t).Succeeds) : s.Succeeds ∨ t = .reporting none := by
  rcases h with h | h | ⟨j, h⟩
  · exact .inl (.inl h)
  · exact .inl (.inr (.inl h))
  · by_cases hj : j = i
    · subst hj
      rw [sender_moveTo_self] at h
      exact .inr h
    · rw [sender_moveTo_of_ne hj] at h
      exact .inl (.inr (.inr ⟨j, h⟩))

/-- No goroutine goes back from its end. -/
theorem room_update {f : Nat → Sender} (l : List Nat) (hi : f i ≠ .ended) :
    l.countP (fun j => f j == .ended) ≤ l.countP fun j => update f i t j == .ended := by
  refine countP_mono_left fun j _ hj => ?_
  have hne : j ≠ i := fun h => hi (h ▸ eq_of_beq hj)
  rwa [update_of_ne hne]

/-- The hint goes to the end of the queue, or gets lost there. -/
theorem enqueue_eq (s : Replication) (handoff : Bool) (i : Nat) :
    ∃ handed, s.enqueue handoff i = { s with handed := handed } ∧
      (∀ j, j ≠ i → handed.count j = s.handed.count j) ∧ handed.count i ≤ s.handed.count i + 1 ∧
      (handoff = true → s.paused = false → 0 < handed.count i) := by
  unfold enqueue
  split_ifs with hqueue
  · refine ⟨_, rfl, fun j hj => ?_, ?_, fun _ _ => ?_⟩
    · simp [count_append, Ne.symm hj]
    · simp
    · simp
  · refine ⟨_, rfl, fun _ _ => rfl, Nat.le_succ _, fun hon hrun => ?_⟩
    simp [hon, hrun] at hqueue

theorem sender_enqueue (s : Replication) (handoff : Bool) (i : Nat) :
    (s.enqueue handoff i).sender = s.sender := by
  obtain ⟨l, hl, -⟩ := enqueue_eq s handoff i
  rw [hl]

section
variable (h : Sound n owners handoff hinting s)
include h

theorem Sound.counts_zero (hi : (s.sender i).settled = false) :
    s.acks.count i = 0 ∧ s.handed.count i = 0 := by
  have honce := (h.fits i).once
  rw [if_neg (by simp [hi])] at honce
  omega

theorem Sound.unsettled (ho : Opens n owners s i c) : (s.sender i).settled = false := by
  obtain ⟨hs, -⟩ | ⟨hi | hi, -⟩ := ho
  · have hidle : s.sender i = .idle := by
      by_contra hne
      have hlt := ((h.fits i).launched.mp hne).2
      simp [front, hs] at hlt
    rw [hidle]
    rfl
  · rw [hi]
    rfl
  · rw [hi]
    rfl

theorem Sound.not_ended (ho : Opens n owners s i c) : s.sender i ≠ .ended := fun hended => by
  have hsettled := h.unsettled ho
  rw [hended] at hsettled
  cases hsettled

/-- A goroutine moves on, and the others are where they were. -/
theorem Sound.move {remaining : Int} {acks handed : List Nat} (ho : Opens n owners s i c)
    (ht : t ≠ .idle) (hslow : ∀ err, t = .reporting err → 0 < want n owners)
    (hcount : ∀ j, j ≠ i → acks.count j = s.acks.count j ∧ handed.count j = s.handed.count j)
    (honce : acks.count i + handed.count i ≤ if t.settled then 1 else 0)
    (hcovered : hinting → t.settled = true → 0 < acks.count i + handed.count i)
    (hremaining : 0 < want n owners → remaining = wrap32 (want n owners - acks.length))
    (hlen : s.acks.length ≤ acks.length)
    (hmet : t = .reporting none → metConcern (want n owners) acks.length = true) :
    Sound n owners handoff hinting
      ({ s with caller := c, remaining := remaining, acks := acks, handed := handed }.moveTo i t)
    where
  active := h.active
  fits := by
    have hfront : (i ∈ others n owners ∧ i < front owners { s with caller := c }) ∧
        ∀ j ≠ i, (j < front owners { s with caller := c } ↔ j < s.front owners) := by
      obtain ⟨hs, hi, rfl⟩ | ⟨hi, rfl⟩ := ho
      · simp only [front, hs]
        exact ⟨⟨hi, Nat.lt_succ_self i⟩, by omega⟩
      · exact ⟨(h.fits i).launched.mp (by rcases hi with hi | hi <;> simp [hi]), fun _ _ => Iff.rfl⟩
    intro j
    by_cases hj : j = i
    · subst hj
      rw [sender_moveTo_self]
      exact ⟨⟨fun _ => hfront.1, fun _ => ht⟩, honce, hcovered, hslow⟩
    · obtain ⟨hacks, hhanded⟩ := hcount j hj
      rw [sender_moveTo_of_ne hj]
      refine ⟨(h.fits j).launched.trans (and_congr_right fun _ => (hfront.2 j hj).symm), ?_, ?_,
        (h.fits j).slow⟩
      · show acks.count j + handed.count j ≤ _
        rw [hacks, hhanded]
        exact (h.fits j).once
      · show _ → _ → 0 < acks.count j + handed.count j
        rw [hacks, hhanded]
        exact (h.fits j).covered
  remaining := hremaining
  met := fun hs => by
    rcases succeeds_moveTo hs with (hs | hs) | hs
    · obtain ⟨-, -, rfl⟩ | ⟨-, rfl⟩ := ho
      · cases hs
      · exact (h.met (.inl hs)).imp_right (metConcern_mono hlen)
    · exact (h.met (.inr hs)).imp_right (metConcern_mono hlen)
    · exact .inr (hmet hs)
  room := h.room.trans (room_update _ (h.not_ended ho))

theorem Sound.start (ho : Opens n owners s i c) (ht : t = .requesting ∨ t = .missing) :
    Sound n owners handoff hinting ({ s with caller := c }.moveTo i t) := by
  have hsettled : t.settled = false := by rcases ht with rfl | rfl <;> rfl
  have hzero := h.counts_zero (h.unsettled ho)
  refine h.move ho ?_ ?_ (fun _ _ => ⟨rfl, rfl⟩) (by omega) (by simp [hsettled]) h.remaining
    (Nat.le_refl _) ?_
  · rcases ht with rfl | rfl <;> simp
  · rcases ht with rfl | rfl <;> simp
  · rcases ht with rfl | rfl <;> simp

theorem Sound.hand (ho : Opens n owners s i c)
    (ht : t = .ended ∨ (∃ err, t = .reporting (some err)) ∧ 0 < want n owners) :
    Sound n owners handoff hinting (({ s with caller := c }.enqueue handoff i).moveTo i t) := by
  obtain ⟨handed, heq, hother, hle, hpos⟩ := enqueue_eq { s with caller := c } handoff i
  have hsettled : t.settled = true := by
    rcases ht with rfl | ⟨⟨err, rfl⟩, -⟩ <;> rfl
  have hzero := h.counts_zero (h.unsettled ho)
  rw [heq]
  refine h.move ho ?_ ?_ (fun j hj => ⟨rfl, hother j hj⟩) ?_ (fun hh _ => ?_) h.remaining
    (Nat.le_refl _) ?_
  · rintro rfl
    cases hsettled
  · rcases ht with rfl | ⟨-, hwant⟩
    · simp
    · exact fun _ _ => hwant
  · rw [if_pos hsettled, hzero.1, Nat.zero_add]
    exact hle.trans (Nat.succ_le_succ (Nat.le_of_eq hzero.2))
  · exact Nat.add_pos_right _ (hpos (h.active hh).1 (h.active hh).2)
  · rcases ht with rfl | ⟨⟨err, rfl⟩, -⟩ <;> simp

theorem Sound.ack {remaining : Int} (ho : Opens n owners s i s.caller)
    (hr : 0 < want n owners → remaining = wrap32 (s.remaining - 1))
    (ht : t = .ended ∨ t = .reporting none ∧ 0 < want n owners ∧ remaining ≤ 0) :
    Sound n owners handoff hinting
      ({ s with acks := s.acks ++ [i], remaining := remaining }.moveTo i t) := by
  have hsettled : t.settled = true := by rcases ht with rfl | ⟨rfl, -⟩ <;> rfl
  have hzero := h.counts_zero (h.unsettled ho)
  have hcount : (s.acks ++ [i]).count i = 1 := by simp [hzero.1]
  have hremaining (hwant : 0 < want n owners) :
      remaining = wrap32 (want n owners - (s.acks ++ [i]).length) := by
    rw [hr hwant, h.remaining hwant, wrap32_pred, length_append, length_singleton]
    congr 1
    omega
  refine h.move ho ?_ ?_ (fun j hj => ⟨?_, rfl⟩) ?_ (fun _ _ => by omega) hremaining (by simp) ?_
  · rintro rfl
    cases hsettled
  · rcases ht with rfl | ⟨-, hwant, -⟩
    · simp
    · exact fun _ _ => hwant
  · simp [count_append, Ne.symm hj]
  · rw [if_pos hsettled]
    omega
  · rintro rfl
    obtain ⟨-, hwant, hle⟩ := ht.resolve_left (by simp)
    refine metConcern_iff.mpr ⟨(s.acks ++ [i]).length, by simp, Nat.le_refl _, ?_⟩
    rwa [← hremaining hwant]

theorem Sound.report {err : Option String} (hi : s.sender i = .reporting err) :
    Sound n owners handoff hinting ({ s with errCh := s.errCh ++ [err] }.moveTo i .ended) where
  active := h.active
  fits := by
    intro j
    by_cases hj : j = i
    · subst hj
      obtain ⟨hlaunched, honce, hcovered, -⟩ := h.fits j
      rw [hi] at hlaunched honce hcovered
      rw [sender_moveTo_self]
      exact ⟨⟨fun _ => hlaunched.mp (by simp), by simp⟩, honce, hcovered, nofun⟩
    · rw [sender_moveTo_of_ne hj]
      exact h.fits j
  remaining := h.remaining
  met := fun hs => by
    rcases succeeds_moveTo hs with (hs | hs | hs) | hs
    · exact h.met (.inl hs)
    · rcases mem_append.mp hs with hs | hs
      · exact h.met (.inr (.inl hs))
      · exact h.met (.inr (.inr ⟨i, by rw [hi, mem_singleton.mp hs]⟩))
    · exact h.met (.inr (.inr hs))
    · cases hs
  room := by
    have hcount := countP_update (p := fun t => t == Sender.ended) (f := s.sender) (x := .ended)
      nodup_others ((h.fits i).launched.mp (by simp [hi])).1 (by simp [hi]) (by simp)
    show (s.errCh ++ [err]).length ≤ (others n owners).countP
      fun j => update s.sender i .ended j == .ended
    rw [hcount, length_append]
    exact Nat.succ_le_succ h.room

theorem Sound.step (e : Event) (he : hinting → e ≠ .pause true) :
    Sound n owners handoff hinting (s.step n hint owners handoff e) := by
  have hstep := step_stepped n hint owners handoff s e
  generalize s.step n hint owners handoff e = s' at hstep
  cases hstep with
  | caller hfront hok hch =>
    refine ⟨h.active, fun j => ?_, h.remaining, ?_, hch.length_le.trans h.room⟩
    · exact { h.fits j with
        launched := (h.fits j).launched.trans (and_congr_right fun hj => (hfront j hj).symm) }
    · rintro (hs | hs | hs)
      · exact (hok hs).elim .inl h.met
      · exact h.met (.inr (.inl (hch.mem hs)))
      · exact h.met (.inr (.inr hs))
  | pause b =>
    refine ⟨fun hh => ⟨(h.active hh).1, ?_⟩, h.fits, h.remaining, h.met, h.room⟩
    cases b with
    | false => rfl
    | true => exact absurd rfl (he hh)
  | start ho ht => exact h.start ho ht
  | hand ho ht => exact h.hand ho ht
  | ack ho hr ht => exact h.ack ho hr ht
  | report hi => exact h.report hi

end

theorem sound_exec {es : List Event}
    (hes : hinting → handoff = true ∧ ∀ e ∈ es, e ≠ .pause true) :
    Sound n owners handoff hinting (exec n hint owners handoff es) := by
  have hkeep : ∀ s e, Sound n owners handoff hinting s → (hinting → e ≠ .pause true) →
      Sound n owners handoff hinting (step n hint owners handoff s e) :=
    fun _ e h he => h.step e he
  refine Schedule.exec_keeps hkeep (sound_start fun hh => (hes hh).1) ?_
  exact Schedule.along_of_forall fun e he hh => (hes hh).2 e he

end Replication

end Kioshun
