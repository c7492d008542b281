import Kioshun.Cache.Config
import Kioshun.Cluster.Wire
import Kioshun.Lib.Schedule
import Mathlib.Data.List.Nodup

/-!
# The lease table

One caller at a time holds the lease of a key and the others wait until it ends. A
sweeper ends leases whose time is up, and the key is then free for the next caller.
A caller releases by key: the lease that it finds under the key need not be the one
that it has acquired.
-/

namespace Kioshun
open Function List

def ErrLeaseTimeout : String := "lease timeout"

structure Inflight where
  err : Option String
  exp : Int
  done : Bool
  deriving DecidableEq

namespace Inflight

def close (f : Inflight) (err : Option String) : Inflight :=
  if f.done then f else { f with err := err, done := true }

def due (f : Inflight) (now : Int) : Bool := decide (0 < f.exp ∧ f.exp ≤ now)

end Inflight

/-- `leaseTable`, with the objects that its map points to. -/
structure LeaseTable where
  heap : Nat → Inflight
  next : Nat
  m : List (Bytes × Nat)
  ttl : Int

namespace LeaseTable

def newLeaseTable (ttl : Int) : LeaseTable := ⟨fun _ => ⟨none, 0, false⟩, 0, [], ttl⟩

def acquire (t : LeaseTable) (key : Bytes) (now : Int) : (Nat × Bool) × LeaseTable :=
  match t.m.lookup key with
  | some f => ((f, false), t)
  | none =>
    let f : Inflight := ⟨none, if 0 < t.ttl then wrap64 (now + t.ttl) else 0, false⟩
    ((t.next, true), { t with
      heap := update t.heap t.next f
      next := t.next + 1
      m := (key, t.next) :: t.m })

def release (t : LeaseTable) (key : Bytes) (err : Option String) : LeaseTable :=
  match t.m.lookup key with
  | some f => { t with
      m := t.m.filter fun e => e.1 ≠ key
      heap := update t.heap f ((t.heap f).close err) }
  | none => t

def due (t : LeaseTable) (now : Int) : List Nat :=
  (t.m.map Prod.snd).filter fun f => (t.heap f).due now

/-- A tick of the sweeper. -/
def sweep (t : LeaseTable) (now : Int) : LeaseTable :=
  { t with
    m := t.m.filter fun e => !(t.heap e.2).due now
    heap := fun f => if f ∈ t.due now then (t.heap f).close (some ErrLeaseTimeout) else t.heap f }

end LeaseTable

/-- How a lease came to its end: with the release of a caller, who had acquired the lease `held`,
or with a tick of the sweeper. -/
inductive Ending where
  | released (held lease : Nat) (err : Option String)
  | swept (lease : Nat) (now : Int)
  deriving DecidableEq

def Ending.lease : Ending → Nat
  | .released _ lease _ => lease
  | .swept lease _ => lease

/-- Callers on a lease table: the leases that they hold or wait for, how leases have ended, and
which callers have been woken by which lease with which error. -/
structure LeaseRun where
  table : LeaseTable
  holds : Nat → Option (Bytes × Nat)
  waits : Nat → Option Nat
  endings : List Ending
  woken : List (Nat × Nat × Option String)

inductive LeaseEvent where
  | acquire (c : Nat) (key : Bytes) (now : Int)
  | release (c : Nat) (err : Option String)
  | wait (c : Nat) (key : Bytes)
  | wake (c : Nat)
  | cancel (c : Nat)
  | sweep (now : Int)

namespace LeaseRun

def start (ttl : Int) : LeaseRun :=
  ⟨LeaseTable.newLeaseTable ttl, fun _ => none, fun _ => none, [], []⟩

def idle (s : LeaseRun) (c : Nat) : Bool := (s.holds c).isNone && (s.waits c).isNone

def acquire (s : LeaseRun) (c : Nat) (key : Bytes) (now : Int) : LeaseRun :=
  let r := s.table.acquire key now
  if r.1.2 then { s with table := r.2, holds := update s.holds c (some (key, r.1.1)) }
  else { s with table := r.2 }

def release (s : LeaseRun) (c : Nat) (key : Bytes) (f : Nat) (err : Option String) : LeaseRun :=
  { s with
    table := s.table.release key err
    holds := update s.holds c none
    endings := match s.table.m.lookup key with
      | some g => s.endings ++ [.released f g err]
      | none => s.endings }

def step (s : LeaseRun) : LeaseEvent → LeaseRun
  | .acquire c key now => if s.idle c then s.acquire c key now else s
  | .release c err =>
    match s.holds c with
    | some (key, f) => s.release c key f err
    | none => s
  | .wait c key =>
    if s.idle c then { s with waits := update s.waits c (s.table.m.lookup key) } else s
  | .wake c =>
    match s.waits c with
    | some f =>
      if (s.table.heap f).done then { s with
          waits := update s.waits c none
          woken := s.woken ++ [(c, f, (s.table.heap f).err)] }
      else s
    | none => s
  | .cancel c => { s with waits := update s.waits c none }
  | .sweep now => { s with
      table := s.table.sweep now
      endings := s.endings ++ (s.table.due now).map (.swept · now) }

def exec (ttl : Int) (es : List LeaseEvent) : LeaseRun := Schedule.exec step (start ttl) es

/-- A release ends the caller's own lease, and waiters are woken by the release of the caller that
holds their lease, or when its time is up. -/
structure Owned (s : LeaseRun) : Prop where
  released : ∀ held lease err, .released held lease err ∈ s.endings → lease = held
  woken : ∀ c f err, (c, f, err) ∈ s.woken → .released f f err ∈ s.endings ∨
    err = some ErrLeaseTimeout ∧ ∃ now, .swept f now ∈ s.endings ∧ (s.table.heap f).due now = true

/-- A caller whose lease has been swept releases only while the key is free. -/
def Prompt (s : LeaseRun) : LeaseEvent → Prop
  | .release c _ => ∀ key f, s.holds c = some (key, f) →
      (∃ now, .swept f now ∈ s.endings) → s.table.m.lookup key = none
  | _ => True

end LeaseRun

namespace LeaseRun
variable {s s' : LeaseRun} {key : Bytes} {f g : Nat}

section Invariant

def Logged (endings : List Ending) (f : Nat) (err : Option String) : Prop :=
  (∃ held, .released held f err ∈ endings) ∨
    err = some ErrLeaseTimeout ∧ ∃ now, .swept f now ∈ endings

/-- A lease is in the table under one key until it ends, and a caller that has not released holds
a lease that is in the table or has ended. -/
structure Sound (s : LeaseRun) : Prop where
  keys : (s.table.m.map Prod.fst).Nodup
  leases : (s.table.m.map Prod.snd).Nodup
  live : ∀ e ∈ s.table.m, e.2 < s.table.next ∧ (s.table.heap e.2).done = false
  held : ∀ c key f, s.holds c = some (key, f) →
    f < s.table.next ∧ ((key, f) ∈ s.table.m ∨ (s.table.heap f).done = true)
  alone : ∀ c c' key key' f, s.holds c = some (key, f) → s.holds c' = some (key', f) → c = c'
  logged : ∀ f, f < s.table.next → (s.table.heap f).done = true →
    Logged s.endings f (s.table.heap f).err
  ended : ∀ e ∈ s.endings, e.lease < s.table.next ∧ (s.table.heap e.lease).done = true
  swept : ∀ f now, .swept f now ∈ s.endings → (s.table.heap f).due now = true
  given : ∀ held lease err, .released held lease err ∈ s.endings →
    held < s.table.next ∧ ∀ c key, s.holds c ≠ some (key, held)
  waiting : ∀ c f, s.waits c = some f → f < s.table.next
  woken : ∀ c f err, (c, f, err) ∈ s.woken →
    f < s.table.next ∧ (s.table.heap f).done = true ∧ (s.table.heap f).err = err

theorem sound_start (ttl : Int) : Sound (start ttl) where
  keys := nodup_nil
  leases := nodup_nil
  live := fun _ h => by cases h
  held := fun _ _ _ h => by cases h
  alone := fun _ _ _ _ _ h => by cases h
  logged := fun _ h => by cases h
  ended := fun _ h => by cases h
  swept := fun _ _ h => by cases h
  given := fun _ _ _ h => by cases h
  waiting := fun _ _ h => by cases h
  woken := fun _ _ _ h => by cases h

variable {m : List (Bytes × Nat)}

theorem mem_of_lookup (h : m.lookup key = some f) : (key, f) ∈ m := by
  obtain ⟨before, after, hsplit, -⟩ := lookup_eq_some_iff.mp h
  rw [hsplit]
  exact mem_append_right before mem_cons_self

theorem not_mem_of_lookup (h : m.lookup key = none) : key ∉ m.map Prod.fst := by
  rw [lookup_eq_none_iff] at h
  intro hmem
  obtain ⟨e, he, rfl⟩ := mem_map.mp hmem
  simpa using h e he

theorem eq_of_key (hkeys : (m.map Prod.fst).Nodup) (hf : (key, f) ∈ m) (hg : (key, g) ∈ m) :
    f = g :=
  congrArg Prod.snd (inj_on_of_nodup_map hkeys hf hg rfl)

theorem eq_of_lease (hleases : (m.map Prod.snd).Nodup) {key' : Bytes} (hf : (key, f) ∈ m)
    (hg : (key', f) ∈ m) : key = key' :=
  congrArg Prod.fst (inj_on_of_nodup_map hleases hf hg rfl)

end Invariant

section Step

/-- The leases of `gone` end with the error `err`, and `log` says how. -/
structure Finishes (gone : List Nat) (err : Option String) (log : List Ending) (s s' : LeaseRun) :
    Prop where
  next : s'.table.next = s.table.next
  sublist : s'.table.m.Sublist s.table.m
  mem : ∀ e, e ∈ s'.table.m ↔ e ∈ s.table.m ∧ e.2 ∉ gone
  heap : ∀ f, s'.table.heap f
    = if f ∈ gone then { s.table.heap f with err := err, done := true } else s.table.heap f
  present : ∀ f ∈ gone, ∃ key, (key, f) ∈ s.table.m
  holds : ∀ c e, s'.holds c = some e → s.holds c = some e
  endings : s'.endings = s.endings ++ log
  waits : s'.waits = s.waits
  woken : s'.woken = s.woken
  lease : ∀ e ∈ log, e.lease ∈ gone
  logged : ∀ f ∈ gone, Logged log f err
  swept : ∀ f now, .swept f now ∈ log → (s.table.heap f).due now = true
  given : ∀ held lease err, .released held lease err ∈ log →
    held < s.table.next ∧ ∀ c key, s'.holds c ≠ some (key, held)

variable {gone : List Nat} {err : Option String} {log : List Ending}

/-- The leases that had ended before are as they were. -/
theorem Finishes.heap_of_done (h : Finishes gone err log s s') (hs : Sound s)
    (hdone : (s.table.heap f).done = true) : s'.table.heap f = s.table.heap f := by
  rw [h.heap, if_neg]
  intro hf
  obtain ⟨key, hmem⟩ := h.present f hf
  have hlive := (hs.live _ hmem).2
  rw [hdone] at hlive
  cases hlive

theorem Logged.mono {endings more : List Ending} (h : Logged endings f err) :
    Logged (endings ++ more) f err := by
  rcases h with ⟨held, hheld⟩ | ⟨herr, now, hnow⟩
  · exact .inl ⟨held, mem_append_left _ hheld⟩
  · exact .inr ⟨herr, now, mem_append_left _ hnow⟩

theorem Finishes.sound (h : Finishes gone err log s s') (hs : Sound s) : Sound s' where
  keys := hs.keys.sublist (h.sublist.map _)
  leases := hs.leases.sublist (h.sublist.map _)
  live := by
    intro e he
    obtain ⟨hmem, hne⟩ := (h.mem e).mp he
    rw [h.next, h.heap, if_neg hne]
    exact hs.live e hmem
  held := by
    intro c key f hc
    obtain ⟨hlt, hcase⟩ := hs.held c key f (h.holds c _ hc)
    rw [h.next]
    refine ⟨hlt, ?_⟩
    rcases hcase with hmem | hdone
    · by_cases hf : f ∈ gone
      · exact .inr (by rw [h.heap, if_pos hf])
      · exact .inl ((h.mem _).mpr ⟨hmem, hf⟩)
    · exact .inr (by rw [h.heap_of_done hs hdone]; exact hdone)
  alone := fun c c' key key' f hc hc' =>
    hs.alone c c' key key' f (h.holds c _ hc) (h.holds c' _ hc')
  logged := by
    intro f hlt hdone
    rw [h.endings]
    by_cases hf : f ∈ gone
    · rw [h.heap, if_pos hf]
      rcases h.logged f hf with ⟨held, hheld⟩ | ⟨herr, now, hnow⟩
      · exact .inl ⟨held, mem_append_right _ hheld⟩
      · exact .inr ⟨herr, now, mem_append_right _ hnow⟩
    · rw [h.heap, if_neg hf] at hdone ⊢
      exact (hs.logged f (h.next ▸ hlt) hdone).mono
  ended := by
    intro e he
    rw [h.endings] at he
    rw [h.next]
    rcases mem_append.mp he with he | he
    · obtain ⟨hlt, hdone⟩ := hs.ended e he
      exact ⟨hlt, by rw [h.heap_of_done hs hdone]; exact hdone⟩
    · have hgone := h.lease e he
      obtain ⟨key, hmem⟩ := h.present _ hgone
      exact ⟨(hs.live _ hmem).1, by rw [h.heap, if_pos hgone]⟩
  swept := by
    intro f now hswept
    have hdue : (s.table.heap f).due now = true := by
      rw [h.endings] at hswept
      rcases mem_append.mp hswept with hold | hnew
      · exact hs.swept f now hold
      · exact h.swept f now hnew
    rw [h.heap]
    split
    · exact hdue
    · exact hdue
  given := by
    intro held lease err' hrel
    rw [h.next]
    rw [h.endings] at hrel
    rcases mem_append.mp hrel with hold | hnew
    · obtain ⟨hlt, hfree⟩ := hs.given held lease err' hold
      exact ⟨hlt, fun c key hc => hfree c key (h.holds c _ hc)⟩
    · exact h.given held lease err' hnew
  waiting := by
    rw [h.waits, h.next]
    exact hs.waiting
  woken := by
    intro c f err' hw
    rw [h.woken] at hw
    obtain ⟨hlt, hdone, herr⟩ := hs.woken c f err' hw
    rw [h.next, h.heap_of_done hs hdone]
    exact ⟨hlt, hdone, herr⟩

theorem Inflight.close_of_live {f : Inflight} (h : f.done = false) (err : Option String) :
    f.close err = { f with err := err, done := true } := by
  simp only [Inflight.close, h, Bool.false_eq_true, if_false]

/-- Who holds a lease after a release held it before. -/
theorem holds_release {c c' : Nat} {err : Option String} {e : Bytes × Nat}
    (h : (s.release c key f err).holds c' = some e) : c' ≠ c ∧ s.holds c' = some e := by
  simp only [release] at h
  by_cases hcc : c' = c
  · subst hcc
    rw [update_self] at h
    cases h
  · rw [update_of_ne hcc] at h
    exact ⟨hcc, h⟩

theorem release_finishes (hs : Sound s) {c : Nat} (hc : s.holds c = some (key, f))
    (hlook : s.table.m.lookup key = some g) (err : Option String) :
    Finishes [g] err [.released f g err] s (s.release c key f err) := by
  have hmem := mem_of_lookup hlook
  have hlive := (hs.live _ hmem).2
  have htable : s.table.release key err = { s.table with
      m := s.table.m.filter fun e => e.1 ≠ key
      heap := update s.table.heap g ((s.table.heap g).close err) } := by
    simp only [LeaseTable.release, hlook]
  constructor
  case next => simp only [release, htable]
  case sublist =>
    simp only [release, htable]
    exact filter_sublist
  case mem =>
    rintro ⟨key', f'⟩
    simp only [release, htable, mem_filter, mem_singleton, decide_eq_true_eq]
    refine and_congr_right fun hmem' => not_congr ⟨?_, ?_⟩
    · rintro rfl
      exact eq_of_key hs.keys hmem' hmem
    · rintro rfl
      exact eq_of_lease hs.leases hmem' hmem
  case heap =>
    intro f'
    simp only [release, htable, mem_singleton]
    by_cases hf : f' = g
    · subst hf
      rw [update_self, if_pos rfl, Inflight.close_of_live hlive]
    · rw [update_of_ne hf, if_neg hf]
  case present =>
    intro f' hf
    rw [mem_singleton.mp hf]
    exact ⟨key, hmem⟩
  case holds => exact fun c' e he => (holds_release he).2
  case endings => simp only [release, hlook]
  case waits => rfl
  case woken => rfl
  case lease =>
    intro e he
    rw [mem_singleton.mp he]
    exact mem_singleton.mpr rfl
  case logged =>
    intro f' hf
    rw [mem_singleton.mp hf]
    exact .inl ⟨f, mem_singleton.mpr rfl⟩
  case swept =>
    intro f' now hswept
    cases mem_singleton.mp hswept
  case given =>
    intro held lease err' hrel
    cases mem_singleton.mp hrel
    refine ⟨(hs.held c key f hc).1, fun c' key' hc' => ?_⟩
    obtain ⟨hcc, hc'⟩ := holds_release hc'
    exact hcc (hs.alone c' c key' key f hc' hc)

theorem mem_due {t : LeaseTable} {now : Int} :
    f ∈ t.due now ↔ (∃ key, (key, f) ∈ t.m) ∧ (t.heap f).due now = true := by
  simp only [LeaseTable.due, mem_filter, mem_map, Prod.exists, exists_eq_right]

theorem sweep_finishes (hs : Sound s) (now : Int) :
    Finishes (s.table.due now) (some ErrLeaseTimeout) ((s.table.due now).map (.swept · now)) s
      (s.step (.sweep now)) := by
  constructor
  case next => rfl
  case sublist => exact filter_sublist
  case mem =>
    rintro ⟨key', f'⟩
    simp only [step, LeaseTable.sweep, mem_filter, Bool.not_eq_true', mem_due, not_and,
      Bool.not_eq_true]
    exact and_congr_right fun hmem => ⟨fun h _ => h, fun h => h ⟨key', hmem⟩⟩
  case heap =>
    intro f'
    simp only [step, LeaseTable.sweep]
    by_cases hf : f' ∈ s.table.due now
    · obtain ⟨⟨key', hmem⟩, -⟩ := mem_due.mp hf
      rw [if_pos hf, if_pos hf, Inflight.close_of_live (hs.live _ hmem).2]
    · rw [if_neg hf, if_neg hf]
  case present => exact fun f' hf => (mem_due.mp hf).1
  case holds => exact fun _ _ h => h
  case endings => rfl
  case waits => rfl
  case woken => rfl
  case lease =>
    intro e he
    obtain ⟨f', hf, rfl⟩ := mem_map.mp he
    exact hf
  case logged => exact fun f' hf => .inr ⟨rfl, now, mem_map.mpr ⟨f', hf, rfl⟩⟩
  case swept =>
    intro f' now' hswept
    obtain ⟨f'', hf, heq⟩ := mem_map.mp hswept
    cases heq
    exact (mem_due.mp hf).2
  case given =>
    intro held lease err' hrel
    obtain ⟨f', -, heq⟩ := mem_map.mp hrel
    cases heq

/-- A caller gives up a lease that is not in the table any more. -/
theorem Sound.drop (hs : Sound s) {holds : Nat → Option (Bytes × Nat)}
    (hholds : ∀ c e, holds c = some e → s.holds c = some e) : Sound { s with holds := holds } :=
  { hs with
    held := fun c key f hc => hs.held c key f (hholds c _ hc)
    alone := fun c c' key key' f hc hc' =>
      hs.alone c c' key key' f (hholds c _ hc) (hholds c' _ hc')
    given := fun held lease err hrel => ⟨(hs.given held lease err hrel).1, fun c key hc =>
      (hs.given held lease err hrel).2 c key (hholds c _ hc)⟩ }

/-- The caller `c` gets a new lease for a key without one. -/
structure Acquires (c : Nat) (key : Bytes) (new : Inflight) (s s' : LeaseRun) : Prop where
  free : s.table.m.lookup key = none
  live : new.done = false
  next : s'.table.next = s.table.next + 1
  m : s'.table.m = (key, s.table.next) :: s.table.m
  heap : s'.table.heap = update s.table.heap s.table.next new
  holds : s'.holds = update s.holds c (some (key, s.table.next))
  endings : s'.endings = s.endings
  waits : s'.waits = s.waits
  woken : s'.woken = s.woken

variable {new : Inflight}

theorem Acquires.old {c : Nat} (h : Acquires c key new s s') (hf : f < s.table.next) :
    f < s'.table.next ∧ s'.table.heap f = s.table.heap f := by
  rw [h.next, h.heap]
  exact ⟨Nat.lt_succ_of_lt hf, update_of_ne (Nat.ne_of_lt hf) ..⟩

theorem Acquires.holder {c c' : Nat} {key' : Bytes} (h : Acquires c key new s s') (hs : Sound s)
    (hc : s'.holds c' = some (key', f)) :
    (c' = c ∧ key' = key ∧ f = s.table.next) ∨
      (s.holds c' = some (key', f) ∧ f < s.table.next) := by
  rw [h.holds] at hc
  by_cases hcc : c' = c
  · subst hcc
    rw [update_self] at hc
    cases hc
    exact .inl ⟨rfl, rfl, rfl⟩
  · rw [update_of_ne hcc] at hc
    exact .inr ⟨hc, (hs.held c' key' f hc).1⟩

theorem Acquires.sound {c : Nat} (h : Acquires c key new s s') (hs : Sound s) : Sound s' where
  keys := by
    rw [h.m]
    exact nodup_cons.mpr ⟨not_mem_of_lookup h.free, hs.keys⟩
  leases := by
    rw [h.m]
    refine nodup_cons.mpr ⟨fun hmem => ?_, hs.leases⟩
    obtain ⟨e, he, heq⟩ := mem_map.mp hmem
    exact absurd (hs.live e he).1 (by rw [heq]; exact Nat.lt_irrefl _)
  live := by
    intro e he
    rw [h.m] at he
    rcases mem_cons.mp he with rfl | he
    · rw [h.next, h.heap, update_self]
      exact ⟨Nat.lt_succ_self _, h.live⟩
    · obtain ⟨hlt, hlive⟩ := hs.live e he
      obtain ⟨hlt', heq⟩ := h.old hlt
      exact ⟨hlt', heq ▸ hlive⟩
  held := by
    intro c' key' f hc
    rcases h.holder hs hc with ⟨-, rfl, rfl⟩ | ⟨hc, hlt⟩
    · rw [h.next, h.m]
      exact ⟨Nat.lt_succ_self _, .inl mem_cons_self⟩
    · obtain ⟨hlt', heq⟩ := h.old hlt
      rw [h.m, heq]
      exact ⟨hlt', (hs.held c' key' f hc).2.imp_left (mem_cons_of_mem _)⟩
  alone := by
    intro c' c'' key' key'' f hc hc'
    rcases h.holder hs hc with ⟨rfl, -, rfl⟩ | ⟨hc, hlt⟩
    · rcases h.holder hs hc' with ⟨rfl, -, -⟩ | ⟨-, hlt⟩
      · rfl
      · exact absurd hlt (Nat.lt_irrefl _)
    · rcases h.holder hs hc' with ⟨-, -, rfl⟩ | ⟨hc', -⟩
      · exact absurd hlt (Nat.lt_irrefl _)
      · exact hs.alone c' c'' key' key'' f hc hc'
  logged := by
    intro f hlt hdone
    rw [h.next] at hlt
    rw [h.endings]
    rcases Nat.lt_succ_iff_lt_or_eq.mp hlt with hlt | rfl
    · rw [(h.old hlt).2] at hdone ⊢
      exact hs.logged f hlt hdone
    · rw [h.heap, update_self, h.live] at hdone
      cases hdone
  ended := by
    intro e he
    rw [h.endings] at he
    obtain ⟨hlt, hdone⟩ := hs.ended e he
    obtain ⟨hlt', heq⟩ := h.old hlt
    exact ⟨hlt', heq ▸ hdone⟩
  swept := by
    intro f now hswept
    rw [h.endings] at hswept
    have hlt : f < s.table.next := (hs.ended _ hswept).1
    rw [(h.old hlt).2]
    exact hs.swept f now hswept
  given := by
    intro held lease err' hrel
    rw [h.endings] at hrel
    obtain ⟨hlt, hfree⟩ := hs.given held lease err' hrel
    refine ⟨(h.old hlt).1, fun c' key' hc => ?_⟩
    rcases h.holder hs hc with ⟨-, -, rfl⟩ | ⟨hc, -⟩
    · exact absurd hlt (Nat.lt_irrefl _)
    · exact hfree c' key' hc
  waiting := by
    intro c' f hw
    rw [h.waits] at hw
    exact (h.old (hs.waiting c' f hw)).1
  woken := by
    intro c' f err' hw
    rw [h.woken] at hw
    obtain ⟨hlt, hdone, herr⟩ := hs.woken c' f err' hw
    obtain ⟨hlt', heq⟩ := h.old hlt
    rw [heq]
    exact ⟨hlt', hdone, herr⟩

/-- A caller begins or ends to wait. -/
theorem Sound.waits (hs : Sound s) {waits : Nat → Option Nat}
    (hwaits : ∀ c f, waits c = some f → f < s.table.next) : Sound { s with waits := waits } :=
  { hs with waiting := hwaits }

theorem Sound.step (hs : Sound s) (e : LeaseEvent) : Sound (s.step e) := by
  have hwaits (c o) (ho : ∀ f, o = some f → f < s.table.next) :
      ∀ c' f, update s.waits c o c' = some f → f < s.table.next :=
    (forall_update_iff s.waits (p := fun _ o => ∀ f, o = some f → f < s.table.next)).mpr
      ⟨ho, fun c' _ => hs.waiting c'⟩
  cases e with
  | acquire c key now =>
    by_cases hidle : s.idle c = true
    · simp only [LeaseRun.step, hidle, if_true]
      cases hlook : s.table.m.lookup key with
      | some f => simpa [acquire, LeaseTable.acquire, hlook] using hs
      | none =>
        simp only [acquire, LeaseTable.acquire, hlook, if_true]
        exact Acquires.sound ⟨hlook, rfl, rfl, rfl, rfl, rfl, rfl, rfl, rfl⟩ hs
    · simpa [LeaseRun.step, hidle] using hs
  | release c err =>
    cases hc : s.holds c with
    | none => simpa only [LeaseRun.step, hc] using hs
    | some e =>
      simp only [LeaseRun.step, hc]
      cases hlook : s.table.m.lookup e.1 with
      | none =>
        have hdrop : Sound { s with holds := update s.holds c none } := by
          refine hs.drop fun c' e' he => ?_
          have hheld : (s.release c e.1 e.2 err).holds c' = some e' := he
          exact (holds_release hheld).2
        simpa [release, LeaseTable.release, hlook] using hdrop
      | some g => exact (release_finishes hs hc hlook err).sound hs
  | wait c key =>
    by_cases hidle : s.idle c = true
    · simp only [LeaseRun.step, hidle, if_true]
      refine hs.waits (hwaits c _ fun f hlook => ?_)
      exact (hs.live _ (mem_of_lookup hlook)).1
    · simpa [LeaseRun.step, hidle] using hs
  | wake c =>
    cases hc : s.waits c with
    | none => simpa only [LeaseRun.step, hc] using hs
    | some f =>
      by_cases hdone : (s.table.heap f).done = true
      · simp only [LeaseRun.step, hc, hdone, if_true]
        refine { hs.waits (hwaits c none fun _ h => by cases h) with
          woken := fun c' f' err' hw => ?_ }
        rcases mem_append.mp hw with hw | hw
        · exact hs.woken c' f' err' hw
        · cases mem_singleton.mp hw
          exact ⟨hs.waiting c f hc, hdone, rfl⟩
      · simpa [LeaseRun.step, hc, hdone] using hs
  | cancel c => exact hs.waits (hwaits c none fun _ h => by cases h)
  | sweep now => exact (sweep_finishes hs now).sound hs

end Step

/-- Every release so far has ended the lease that its caller held. -/
def OwnOnly (s : LeaseRun) : Prop :=
  ∀ held lease err, .released held lease err ∈ s.endings → lease = held

theorem Sound.owned (hs : Sound s) (hown : OwnOnly s) : Owned s := by
  refine ⟨hown, fun c f err hw => ?_⟩
  obtain ⟨hlt, hdone, herr⟩ := hs.woken c f err hw
  rcases hs.logged f hlt hdone with ⟨held, hrel⟩ | ⟨htime, now, hswept⟩
  · rw [herr] at hrel
    have hself := hown held f err hrel
    rw [← hself] at hrel
    exact .inl hrel
  · rw [herr] at htime
    exact .inr ⟨htime, now, hswept, hs.swept f now hswept⟩

def recorded (s : LeaseRun) : LeaseEvent → List Ending
  | .release c err => (s.holds c).elim [] fun e =>
      (s.table.m.lookup e.1).toList.map (.released e.2 · err)
  | .sweep now => (s.table.due now).map (.swept · now)
  | _ => []

theorem endings_step (s : LeaseRun) (e : LeaseEvent) :
    (s.step e).endings = s.endings ++ s.recorded e := by
  cases e with
  | acquire c key now =>
    simp only [step, acquire, recorded, append_nil]
    split_ifs <;> rfl
  | release c err =>
    cases hc : s.holds c with
    | none => simp [step, recorded, hc]
    | some e => cases hlook : s.table.m.lookup e.1 <;> simp [step, recorded, hc, release, hlook]
  | wait c key =>
    simp only [step, recorded, append_nil]
    split_ifs <;> rfl
  | wake c =>
    simp only [step, recorded, append_nil]
    split
    · split_ifs <;> rfl
    · rfl
  | cancel c => exact (append_nil _).symm
  | sweep now => rfl

theorem released_recorded {e : LeaseEvent} {held lease : Nat} {err : Option String}
    (h : .released held lease err ∈ s.recorded e) : ∃ c key, e = .release c err ∧
      s.holds c = some (key, held) ∧ s.table.m.lookup key = some lease := by
  cases e with
  | release c err' =>
    cases hc : s.holds c with
    | none => simp [recorded, hc] at h
    | some e =>
      simp only [recorded, hc, Option.elim_some, mem_map, Option.mem_toList] at h
      obtain ⟨g, hlook, heq⟩ := h
      cases heq
      exact ⟨c, e.1, rfl, hc, hlook⟩
  | sweep now =>
    obtain ⟨f, -, heq⟩ := mem_map.mp h
    cases heq
  | _ => cases h

/-- A prompt release ends the caller's own lease. -/
theorem OwnOnly.step (hs : Sound s) (hown : OwnOnly s) {e : LeaseEvent} (hprompt : s.Prompt e) :
    OwnOnly (s.step e) := by
  intro held lease err hrel
  rw [endings_step] at hrel
  rcases mem_append.mp hrel with hold | hnew
  · exact hown held lease err hold
  · obtain ⟨c, key, rfl, hc, hlook⟩ := released_recorded hnew
    rcases (hs.held c key held hc).2 with hmem | hdone
    · exact eq_of_key hs.keys (mem_of_lookup hlook) hmem
    · -- the lease has ended before: swept, as nobody but its holder has released it
      rcases hs.logged held (hs.held c key held hc).1 hdone with ⟨held', hrel'⟩ | ⟨-, hswept⟩
      · have hself := hown held' held _ hrel'
        rw [← hself] at hrel'
        exact absurd hc ((hs.given held held _ hrel').2 c key)
      · have hnone := hprompt key held hc hswept
        rw [hlook] at hnone
        cases hnone

/-- Leases are ended only by their holders and by their expiry exactly in the runs in which no
caller, after its lease was swept, releases while another one holds the lease of the key. -/
theorem owned_iff_prompt (ttl : Int) (es : List LeaseEvent) :
    Owned (exec ttl es) ↔ Schedule.Along step Prompt (start ttl) es := by
  constructor
  · intro howned
    have hQ : OwnOnly (exec ttl es) := howned.released
    have hback (s : LeaseRun) (e : LeaseEvent) (_ : Sound s) (hown : OwnOnly (s.step e)) :
        OwnOnly s := fun held lease err hrel =>
      hown held lease err (by rw [endings_step]; exact mem_append_left _ hrel)
    refine (Schedule.along_of_final (fun _ e hs => hs.step e) hback ?_ (sound_start ttl) hQ).2
    intro s e hs hown
    cases e with
    | release c err =>
      rintro key f hc ⟨now, hswept⟩
      cases hlook : s.table.m.lookup key with
      | none => rfl
      | some g =>
        have hrel : .released f g err ∈ (s.step (.release c err)).endings := by
          rw [endings_step]
          exact mem_append_right _ (by simp [recorded, hc, hlook])
        have hgf := hown f g err hrel
        have hlive : (s.table.heap g).done = false := (hs.live _ (mem_of_lookup hlook)).2
        have hdone : (s.table.heap f).done = true := (hs.ended _ hswept).2
        rw [hgf, hdone] at hlive
        cases hlive
    | acquire c key now => trivial
    | wait c key => trivial
    | wake c => trivial
    | cancel c => trivial
    | sweep now => trivial
  · intro hprompt
    obtain ⟨hs, hown⟩ : Sound (exec ttl es) ∧ OwnOnly (exec ttl es) :=
      Schedule.exec_keeps (I := fun s => Sound s ∧ OwnOnly s)
        (fun _ e h hp => ⟨h.1.step e, h.2.step h.1 hp⟩)
        ⟨sound_start ttl, fun _ _ _ h => by cases h⟩ hprompt
    exact hs.owned hown

/-- Caller 1 acquires with a TTL of 10 and is swept, caller 2 acquires, and caller 3 waits for
it. The late release of caller 1 ends the lease of caller 2 and wakes caller 3. -/
theorem late_release :
    let s := exec 10 [.acquire 1 [7] 0, .sweep 10, .acquire 2 [7] 10, .wait 3 [7], .release 1 none,
      .wake 3]
    s.endings = [.swept 0 10, .released 0 1 none] ∧ s.woken = [(3, 1, none)] ∧
      s.holds 2 = some ([7], 1) ∧ s.table.m = [] := by decide

end LeaseRun

end Kioshun
