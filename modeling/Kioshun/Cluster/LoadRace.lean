import Kioshun.Cluster.ClockSpec
import Kioshun.Cluster.Handlers
import Kioshun.Lib.Schedule

/-!
# Loads and writes that run concurrently

On the first owner of a key a load runs its loader, stores the value and records a
version after the value has been replicated. Meanwhile writes of the same key may be
applied and record their versions. A lease keeps only other loads away, and not even
those once it has lapsed, so any number of loads and writes may be on their way. A
load that stores after a write was applied since its loader started puts the older
value back.
-/

namespace Kioshun
open Function Node

universe u v
variable {K : Type u} {V : Type v}

/-- What runs on the first owner of a key: a load, `leased` if it is that of `rpcLeaseLoad`, with
what the loader returns, or a write. -/
inductive Work (V : Type v) where
  | load (leased : Bool) (loader : Except String (V × Int))
  | set (val : V) (ttl : Int)
  | delete
  | handle (job : Job V)

/-- What a worker does next. -/
inductive Phase where
  | lookup
  | acquire
  | begin
  | await
  | store
  | issue
  | replicate
  | record
  | handler (stage : Stage)
  | done
  deriving DecidableEq

structure Worker where
  phase : Phase
  owners : List NodeMeta
  exp : Int
  ver : UInt64

namespace Work

def isLoad : Work V → Bool
  | .load _ _ => true
  | _ => false

/-- The version comes with a message. -/
def remote : Work V → Bool
  | .handle _ => true
  | _ => false

/-- The next step changes the entry of the key in the local cache. -/
def stores : Work V → Phase → Bool
  | .handle _, p => p == .handler .store
  | _, p => p == .store

def issues : Work V → Phase → Bool
  | .load _ loader, p => p == .issue && loader.toBool
  | .handle _, _ => false
  | _, p => p == .issue

def records : Work V → Phase → Bool
  | .handle _, p => p == .handler .tag
  | _, p => p == .record

def version : Work V → Worker → UInt64
  | .handle job, _ => job.ver
  | _, t => t.ver

/-- The worker has a version that it has yet to record. -/
def armed : Work V → Phase → Bool
  | .handle _, p => p == .handler .store || p == .handler .tag
  | .load _ _, p => p == .replicate || p == .record
  | _, p => p == .store || p == .record

def start : Work V → Worker
  | .load _ _ => ⟨.lookup, [], 0, 0⟩
  | .set _ _ => ⟨.issue, [], 0, 0⟩
  | .delete => ⟨.issue, [], 0, 0⟩
  | .handle _ => ⟨.handler .check, [], 0, 0⟩

end Work

variable [DecidableEq K]

namespace Node
variable (n : Node K V) (net : Network) (replies : NodeID → Except String Ack) (bk : Bytes) (k : K)

/-- `GetOrLoad` goes on after `local.Set` only with a value that can be sent. -/
def sendable (v : V) : Bool :=
  match n.codec.Encode v with
  | .error _ => false
  | .ok bv => !tooLarge n.cfg.Sec.MaxValueSize bv

variable [Inhabited V]

/-- The steps that the two loads have in common; a failed acquisition ends in a wait, which
writes nothing. -/
def runLoad (leased : Bool) (loader : Except String (V × Int)) (t : Worker) : Worker × Node K V :=
  match t.phase, loader with
  | .lookup, _ =>
    let got := n.localCache.Get k
    ({ t with phase := if got.1.isSome then .done else .acquire }, { n with localCache := got.2 })
  | .acquire, _ => ({ t with phase := .begin }, n)
  | .begin, _ => ({ t with phase := .await }, n)
  | .await, .error _ => ({ t with phase := .done }, n)
  | .await, .ok _ => ({ t with phase := .store }, n)
  | .store, .ok (v, ttl) =>
    ({ t with phase := if leased || n.sendable v then .issue else .done },
      { n with localCache := (n.localCache.Set k v ttl).2 })
  | .issue, .ok (_, ttl) =>
    if leased then
      let owners := n.ownersFor k
      let exp := owners.2.absExpiry ttl
      let ver := exp.2.next
      (⟨.replicate, owners.1.getD [], exp.1, ver.1⟩, ver.2)
    else
      let ver := n.next
      let exp := ver.2.absExpiry ttl
      (⟨.replicate, n.owners k, exp.1, ver.1⟩, exp.2)
  | .replicate, .ok (v, _) =>
    ({ t with phase := .record },
      (n.replicateSet net replies bk (n.encodeAnyway v) t.exp t.ver t.owners).node)
  | .record, _ => ({ t with phase := .done }, n.recordOwn bk t.ver)
  | _, _ => (t, n)

/-- `Set` on the first owner, once its checks have passed. -/
def runSet (val : V) (ttl : Int) (t : Worker) : Worker × Node K V :=
  match t.phase with
  | .issue =>
    let exp := n.absExpiry ttl
    let ver := exp.2.next
    (⟨.store, n.owners k, exp.1, ver.1⟩, ver.2)
  | .store => ({ t with phase := .record }, { n with localCache := (n.localCache.Set k val ttl).2 })
  | .record => ({ t with phase := .replicate }, n.recordOwn bk t.ver)
  | .replicate =>
    ({ t with phase := .done },
      (n.replicateSet net replies bk (n.encodeAnyway val) t.exp t.ver t.owners).node)
  | _ => (t, n)

/-- `Delete` on the first owner, once its checks have passed. -/
def runDelete (t : Worker) : Worker × Node K V :=
  match t.phase with
  | .issue => (⟨.store, n.owners k, 0, n.next.1⟩, n.next.2)
  | .store => ({ t with phase := .record }, { n with localCache := (n.localCache.Delete k).2 })
  | .record => ({ t with phase := .replicate }, n.recordOwn bk t.ver)
  | .replicate =>
    ({ t with phase := .done }, (n.replicateDelete net replies bk t.owners t.ver).node)
  | _ => (t, n)

def runHandler (job : Job V) (t : Worker) : Worker × Node K V :=
  match t.phase with
  | .handler stage =>
    let r := n.runSection bk k job stage
    ({ t with phase := .handler r.1 }, r.2)
  | _ => (t, n)

def runWork (w : Work V) (t : Worker) : Worker × Node K V :=
  match w with
  | .load leased loader => n.runLoad net replies bk k leased loader t
  | .set val ttl => n.runSet net replies bk k val ttl t
  | .delete => n.runDelete net replies bk k t
  | .handle job => n.runHandler bk k job t

end Node

namespace Node
variable {n : Node K V} {net : Network} {replies : NodeID → Except String Ack} {bk : Bytes} {k : K}

section Effects

structure Effect (n : Node K V) (bk : Bytes) (k : K) (w : Work V) (t : Worker)
    (r : Worker × Node K V) : Prop where
  advances : Advances n r.2
  entry : w.stores t.phase = false →
    r.2.localCache.view k = n.localCache.view k ∨ r.2.localCache.view k = none
  version : r.2.version bk =
    if (n.cfg.LWWEnabled && w.records t.phase) = true then w.version t else n.version bk
  issued : w.issues t.phase = true → Issues n r.2 r.1.ver
  clock : w.issues t.phase = false → Untimed n r.2 ∨ w.records t.phase = true ∧
    r.2 = if w.remote then n.commit bk (w.version t) else n.recordOwn bk (w.version t)

variable {w : Work V} {t t' : Worker} {n' : Node K V}

theorem Untimed.effect (h : Untimed n n') (hissues : w.issues t.phase = false)
    (hrecords : w.records t.phase = false)
    (hentry : w.stores t.phase = false →
      n'.localCache.view k = n.localCache.view k ∨ n'.localCache.view k = none) :
    Effect n bk k w t (t', n') where
  advances := h.advances
  entry := hentry
  version := by
    rw [h.version, hrecords, Bool.and_false]
    rfl
  issued := fun hyes => by cases hissues.symm.trans hyes
  clock := fun _ => .inl h

theorem issues_effect {ver : UInt64} (h : Issues n n' ver) (hs : Silent n n')
    (hissues : w.issues t.phase = true) (hrecords : w.records t.phase = false)
    (hver : t'.ver = ver) : Effect n bk k w t (t', n') where
  advances := h.advances
  entry := fun _ => .inl (congrFun hs.view k)
  version := by
    rw [hs.version, hrecords, Bool.and_false]
    rfl
  issued := fun _ => hver ▸ h
  clock := fun hno => by cases hissues.symm.trans hno

section
variable (h : n.Ready)
include h

theorem idle_effect (hissues : w.issues t.phase = false) (hrecords : w.records t.phase = false) :
    Effect n bk k w t (t', n) :=
  (Untimed.refl h).effect hissues hrecords fun _ => .inl rfl

theorem replicate_effect (net : Network) (replies : NodeID → Except String Ack) (hint : Hint)
    (owners : List NodeMeta) (hissues : w.issues t.phase = false)
    (hrecords : w.records t.phase = false) :
    Effect n bk k w t (t', (n.replicate net replies hint owners).node) :=
  (replicate_untimed h net replies hint owners).1.effect hissues hrecords fun _ =>
    .inl (congrFun (replicate_spec h net replies hint owners).1.view k)

theorem record_effect (hissues : w.issues t.phase = false) (hrecords : w.records t.phase = true) :
    Effect n bk k w t
      (t', if w.remote then n.commit bk (w.version t) else n.recordOwn bk (w.version t)) := by
  obtain ⟨hadv, hview, -, hver⟩ := commit_spec h bk (w.version t)
  refine ⟨?_, fun _ => .inl ?_, ?_, fun hyes => ?_, fun _ => .inr ⟨hrecords, rfl⟩⟩
  · split_ifs
    · exact hadv
    · rw [recordOwn]
      split_ifs
      · exact record_advances h bk _
      · exact Advances.refl h
  · split_ifs
    · exact congrFun hview k
    · rw [recordOwn]
      split_ifs <;> rfl
  · rw [hrecords, Bool.and_true]
    by_cases hlww : n.cfg.LWWEnabled = true
    · rw [if_pos hlww]
      split_ifs
      · rw [hver hlww, update_self]
      · rw [recordOwn, if_pos hlww]
        exact update_self ..
    · rw [if_neg hlww, commit, recordOwn, if_neg hlww, if_neg hlww, ite_self]
  · cases hissues.symm.trans hyes

theorem lookup_effect (hissues : w.issues t.phase = false) (hrecords : w.records t.phase = false) :
    Effect n bk k w t (t', { n with localCache := (n.localCache.Get k).2 }) := by
  refine (get_untimed h k).effect hissues hrecords fun _ => ?_
  have hlooked := (InMemoryCache.get_spec h.valid h.isOpen k).2
  show (n.localCache.get k).2.view k = _ ∨ (n.localCache.get k).2.view k = none
  generalize n.localCache.get k = got at hlooked
  cases hlooked with
  | hit entry live reads first view => exact .inl (congrFun view k)
  | absent entry view => exact .inl (congrFun view k)
  | expired entry stale reads view =>
    refine .inr ?_
    rw [view, update_self]

variable [Inhabited V]

theorem runLoad_effect (leased : Bool) (loader : Except String (V × Int)) (t : Worker) :
    Effect n bk k (.load leased loader) t (n.runLoad net replies bk k leased loader t) := by
  obtain ⟨phase, owners, exp, ver⟩ := t
  cases phase with
  | lookup => exact lookup_effect h rfl rfl
  | record => exact record_effect h rfl rfl
  | await => cases loader <;> exact idle_effect h rfl rfl
  | store =>
    cases loader with
    | error err => exact idle_effect h rfl rfl
    | ok loaded => exact (set_untimed h k loaded.1 loaded.2).effect rfl rfl fun hno => by cases hno
  | issue =>
    cases loader with
    | error err => exact idle_effect h rfl rfl
    | ok loaded =>
      obtain ⟨v, ttl⟩ := loaded
      cases leased with
      | true =>
        have howners := ownersFor_untimed h k
        have habs := howners.trans (absExpiry_untimed howners.advances.ready ttl)
        have hsilent := (ownersFor_silent h k).trans (absExpiry_silent howners.advances.ready ttl)
        exact issues_effect (habs.timed (next_issues habs.advances.ready))
          (hsilent.trans (next_silent habs.advances.ready)) rfl rfl rfl
      | false =>
        have hnext := next_silent h
        exact issues_effect ((next_issues h).untimed (absExpiry_untimed hnext.advances.ready ttl))
          (hnext.trans (absExpiry_silent hnext.advances.ready ttl)) rfl rfl rfl
  | replicate =>
    cases loader with
    | error err => exact idle_effect h rfl rfl
    | ok loaded => exact replicate_effect h net replies _ _ rfl rfl
  | _ => exact idle_effect h rfl rfl

theorem runSet_effect (val : V) (ttl : Int) (t : Worker) :
    Effect n bk k (.set val ttl) t (n.runSet net replies bk k val ttl t) := by
  obtain ⟨phase, owners, exp, ver⟩ := t
  cases phase with
  | issue =>
    have habs := absExpiry_untimed h ttl
    exact issues_effect (habs.timed (next_issues habs.advances.ready))
      ((absExpiry_silent h ttl).trans (next_silent habs.advances.ready)) rfl rfl rfl
  | store => exact (set_untimed h k val ttl).effect rfl rfl fun hno => by cases hno
  | record => exact record_effect h rfl rfl
  | replicate => exact replicate_effect h net replies _ _ rfl rfl
  | _ => exact idle_effect h rfl rfl

omit [Inhabited V] in
theorem runDelete_effect (t : Worker) :
    Effect n bk k .delete t (n.runDelete net replies bk k t) := by
  obtain ⟨phase, owners, exp, ver⟩ := t
  cases phase with
  | issue => exact issues_effect (next_issues h) (next_silent h) rfl rfl rfl
  | store => exact (delete_untimed h k).effect rfl rfl fun hno => by cases hno
  | record => exact record_effect h rfl rfl
  | replicate => exact replicate_effect h net replies _ _ rfl rfl
  | _ => exact idle_effect h rfl rfl

theorem runHandler_effect (job : Job V) (t : Worker) :
    Effect n bk k (.handle job) t (n.runHandler bk k job t) := by
  obtain ⟨phase, owners, exp, ver⟩ := t
  cases phase with
  | handler stage =>
    cases stage with
    | check =>
      simp only [runHandler, runSection]
      split <;> exact idle_effect h rfl rfl
    | store =>
      simp only [runHandler, runSection]
      split
      · exact (importItems_untimed h _).effect rfl rfl fun hno => by cases hno
      · exact (delete_untimed h k).effect rfl rfl fun hno => by cases hno
    | tag => exact record_effect h rfl rfl
    | done => exact idle_effect h rfl rfl
    | dropped => exact idle_effect h rfl rfl
  | _ => exact idle_effect h rfl rfl

theorem runWork_effect (w : Work V) (t : Worker) :
    Effect n bk k w t (n.runWork net replies bk k w t) := by
  cases w with
  | load leased loader => exact runLoad_effect h leased loader t
  | set val ttl => exact runSet_effect h val ttl t
  | delete => exact runDelete_effect h t
  | handle job => exact runHandler_effect h job t

end

/-- A step leaves the clock at the recorded versions or beyond, if this holds of the version that
is recorded. -/
theorem Effect.dominates {r : Worker × Node K V} {B : Int} (h : Effect n bk k w t r)
    (hd : n.Dominates B) (hB : B < 2 ^ 62)
    (hremote : w.remote = true → ((stampOf (w.version t) / 256 : Nat) : Int) ≤ B)
    (hown : w.records t.phase = true → w.remote = false → stampOf (w.version t) ≤ n.clock.stamp) :
    r.2.Dominates (B + 1) ∧ n.clock.stamp ≤ r.2.clock.stamp := by
  cases hissues : w.issues t.phase with
  | true =>
    obtain ⟨hdom, hlt, -⟩ := issues_dominates (h.issued hissues) hd hB
    exact ⟨hdom, hlt.le⟩
  | false =>
    rcases h.clock hissues with hidle | ⟨hrec, hr⟩
    · exact ⟨(hidle.dominates hd).mono (by omega), hidle.clock ▸ le_refl _⟩
    · have hadv := h.advances
      rw [hr] at hadv ⊢
      cases hw : w.remote with
      | true =>
        obtain ⟨hdom, hlt, -⟩ :=
          observes_dominates (commit_observes hd.ready hd.lww bk (w.version t))
          hd hB (hremote hw)
        exact ⟨hdom, hlt.le⟩
      | false =>
        simp only [hw, Bool.false_eq_true, if_false] at hadv ⊢
        have hclock : (n.recordOwn bk (w.version t)).clock = n.clock := by
          rw [recordOwn]
          split_ifs <;> rfl
        refine ⟨hd.advance (by omega) hadv (hclock ▸ hd.sane.mono (by omega)) fun bk' => ?_,
          hclock ▸ le_refl _⟩
        rw [hclock, recordOwn, if_pos hd.lww]
        by_cases hbk : bk' = bk
        · rw [hbk]
          exact (congrArg stampOf (update_self ..)).trans_le (hown hrec hw)
        · exact (congrArg stampOf (update_of_ne hbk _ _)).trans_le (hd.recorded bk')

end Effects

end Node

/-- Workers on one node, and what they have done so far: what each applied write left under the
key, how many writes had been applied when a loader started, what the value of a loader left under
the key, the versions that have been recorded, and how many of them there were when a worker came
by its version. -/
structure LoadRace (K : Type u) (V : Type v) (m : Nat) where
  node : Node K V
  worker : Fin m → Worker
  writes : List (Option (V × Int))
  seen : Fin m → Nat
  loaded : Fin m → Option (V × Int)
  tags : List UInt64
  mark : Fin m → Nat

namespace LoadRace
variable {m : Nat} [Inhabited V]

section Model
variable (net : Network) (replies : NodeID → Except String Ack) (bk : Bytes) (k : K)
  (works : Fin m → Work V)

def begin (n : Node K V) : LoadRace K V m where
  node := n
  worker := fun i => (works i).start
  writes := []
  seen := fun _ => 0
  loaded := fun _ => none
  tags := []
  mark := fun _ => 0

def step (s : LoadRace K V m) (i : Fin m) : LoadRace K V m :=
  let w := works i
  let t := s.worker i
  let r := s.node.runWork net replies bk k w t
  let entry := r.2.localCache.view k
  { node := r.2
    worker := update s.worker i r.1
    writes := if w.stores t.phase && !w.isLoad then s.writes ++ [entry] else s.writes
    seen := if t.phase = .begin then update s.seen i s.writes.length else s.seen
    loaded := if w.stores t.phase && w.isLoad then update s.loaded i entry else s.loaded
    tags := if s.node.cfg.LWWEnabled && w.records t.phase then s.tags ++ [w.version t] else s.tags
    mark := if t.phase = .issue ∨ t.phase = .handler .check then update s.mark i s.tags.length
      else s.mark }

def exec (n : Node K V) (sched : List (Fin m)) : LoadRace K V m :=
  Schedule.exec (step net replies bk k works) (begin works n) sched

/-- When the value of a loader is stored, no write has been applied since the loader started. When a
version is recorded, no greater one has been since the worker came by it. -/
def Timely (s : LoadRace K V m) (i : Fin m) : Prop :=
  ((works i).isLoad = true → (s.worker i).phase = .store → s.seen i = s.writes.length) ∧
  ((works i).records (s.worker i).phase = true →
    ∀ ver ∈ s.tags.drop (s.mark i), ver ≤ (works i).version (s.worker i))

instance (s : LoadRace K V m) (i : Fin m) : Decidable (Timely works s i) :=
  -- the versions in the list are compared, not all versions that there are
  have : Decidable (∀ ver ∈ s.tags.drop (s.mark i), ver ≤ (works i).version (s.worker i)) :=
    List.decidableBAll _ _
  inferInstanceAs (Decidable (_ ∧ _))

/-- Under the key is what the last write left, or the value of a loader that started after that
write, or nothing any more. -/
def Fresh (n₀ : Node K V) (s : LoadRace K V m) : Prop :=
  s.node.localCache.view k = s.writes.getLast?.getD (n₀.localCache.view k) ∨
  (∃ i, (works i).isLoad = true ∧ s.seen i = s.writes.length ∧
    s.node.localCache.view k = s.loaded i) ∨
  s.node.localCache.view k = none

end Model

variable {net : Network} {replies : NodeID → Except String Ack} {bk : Bytes} {k : K}
  {works : Fin m → Work V} {n n₀ : Node K V} {s : LoadRace K V m} {i : Fin m}

/-- A load takes its version from the clock. -/
theorem runLoad_armed (leased : Bool) (loader : Except String (V × Int)) (t : Worker)
    (h : ((n.runLoad net replies bk k leased loader t).1.phase == .replicate ||
      (n.runLoad net replies bk k leased loader t).1.phase == .record) = true) :
    (t.phase == .issue && loader.toBool) = true ∨
      ((t.phase == .replicate || t.phase == .record) = true ∧
        (n.runLoad net replies bk k leased loader t).1.ver = t.ver) := by
  obtain ⟨phase, owners, exp, ver⟩ := t
  cases phase with
  | lookup =>
    simp only [runLoad] at h
    split at h <;> cases h
  | store =>
    cases loader with
    | error err => cases h
    | ok loaded =>
      simp only [runLoad] at h
      split at h <;> cases h
  | issue =>
    cases loader with
    | error err => cases h
    | ok loaded => exact .inl rfl
  | replicate => cases loader <;> exact .inr ⟨rfl, rfl⟩
  | await => cases loader <;> cases h
  | _ => cases h

/-- Where a version comes from: from the clock, or from a message that has passed its check. -/
theorem armed_step (w : Work V) (t : Worker)
    (h : w.armed (n.runWork net replies bk k w t).1.phase = true) :
    (w.issues t.phase = true ∧ w.version (n.runWork net replies bk k w t).1
        = (n.runWork net replies bk k w t).1.ver) ∨
      (w.version (n.runWork net replies bk k w t).1 = w.version t ∧
        (w.armed t.phase = true ∨ w.remote = true ∧ t.phase = .handler .check ∧
          n.stale bk (w.version t) = false)) := by
  cases w with
  | load leased loader =>
    rcases runLoad_armed leased loader t h with hissue | ⟨harmed, hver⟩
    · exact .inl ⟨hissue, rfl⟩
    · exact .inr ⟨hver, .inl harmed⟩
  | set val ttl =>
    obtain ⟨phase, owners, exp, ver⟩ := t
    cases phase with
    | issue => exact .inl ⟨rfl, rfl⟩
    | store => exact .inr ⟨rfl, .inl rfl⟩
    | _ => cases h
  | delete =>
    obtain ⟨phase, owners, exp, ver⟩ := t
    cases phase with
    | issue => exact .inl ⟨rfl, rfl⟩
    | store => exact .inr ⟨rfl, .inl rfl⟩
    | _ => cases h
  | handle job =>
    refine .inr ⟨rfl, ?_⟩
    obtain ⟨phase, owners, exp, ver⟩ := t
    cases phase with
    | handler stage =>
      cases stage with
      | check =>
        refine .inr ⟨rfl, rfl, ?_⟩
        by_contra hstale
        have hstale : n.stale bk job.ver = true := Bool.not_eq_false _ ▸ hstale
        simp [runWork, runHandler, runSection, hstale, Work.armed] at h
      | store => exact .inl rfl
      | tag => exact .inl rfl
      | done => cases h
      | dropped => cases h
    | _ => cases h

section
omit [Inhabited V]

theorem armed_of_records {w : Work V} {p : Phase} (h : w.records p = true) : w.armed p = true := by
  cases w <;> exact Bool.or_eq_true_iff.mpr (.inr h)

/-- A worker that has its version is past the steps at which it comes by one. -/
theorem not_marked_of_armed {w : Work V} {p : Phase} (h : w.armed p = true) :
    ¬ (p = .issue ∨ p = .handler .check) := by
  rintro (rfl | rfl) <;> cases w <;> cases h

theorem phase_of_issues {w : Work V} {p : Phase} (h : w.issues p = true) : p = .issue := by
  cases w with
  | load leased loader => exact eq_of_beq (Bool.and_eq_true_iff.mp h).1
  | set val ttl => exact eq_of_beq h
  | delete => exact eq_of_beq h
  | handle job => cases h

theorem phase_of_load {w : Work V} {p : Phase} (hload : w.isLoad = true) (h : w.stores p = true) :
    p = .store := by
  cases w with
  | load leased loader => exact eq_of_beq h
  | set val ttl => cases hload
  | delete => cases hload
  | handle job => cases hload

end

/-- The last of the recorded versions, or the one before the run. -/
def lastTag (bk : Bytes) (n₀ : Node K V) (tags : List UInt64) : UInt64 :=
  tags.getLast?.getD (n₀.version bk)

/-- A version that is yet to be recorded is not below what was recorded when its worker came by it,
and the clock has reached it if the worker has taken it from the clock. -/
def Founded (bk : Bytes) (works : Fin m → Work V) (n₀ : Node K V) (s : LoadRace K V m)
    (i : Fin m) : Prop :=
  ((works i).remote = false → stampOf ((works i).version (s.worker i)) ≤ s.node.clock.stamp) ∧
    lastTag bk n₀ (s.tags.take (s.mark i)) ≤ (works i).version (s.worker i)

structure Sound (bk : Bytes) (k : K) (works : Fin m → Work V) (n₀ : Node K V) (B : Int) (c : Nat)
    (s : LoadRace K V m) : Prop where
  advances : Advances n₀ s.node
  fresh : Fresh k works n₀ s
  version : s.node.version bk = lastTag bk n₀ s.tags
  marked : ∀ i, s.mark i ≤ s.tags.length
  clock : n₀.cfg.LWWEnabled = true → s.node.Dominates (B + c)
  armed : n₀.cfg.LWWEnabled = true → ∀ i, (works i).armed (s.worker i).phase = true →
    Founded bk works n₀ s i

/-- What the run starts from: the clock is not behind the recorded versions, and the wall, the clock
and the versions of the messages are below `B` milliseconds. -/
structure Starts (works : Fin m → Work V) (n₀ : Node K V) (B : Int) : Prop where
  ready : n₀.Ready
  clock : n₀.cfg.LWWEnabled = true → n₀.Dominates B
  remote : ∀ i job, works i = .handle job → Below B [job.ver]

variable {B : Int} {c : Nat}

omit [Inhabited V] in
theorem sound_begin (h : Starts works n₀ B) : Sound bk k works n₀ B 0 (begin works n₀) := by
  have hstart : ∀ i, (works i).armed (works i).start.phase = false := fun i => by
    cases works i <;> rfl
  refine ⟨Advances.refl h.ready, .inl rfl, rfl, fun _ => Nat.le_refl 0, fun hlww => ?_,
    fun _ i hi => ?_⟩
  · exact (Int.add_zero B).symm ▸ h.clock hlww
  · cases (hstart i).symm.trans hi

section
variable {s' : LoadRace K V m} (hstep : step net replies bk k works s i = s')
include hstep

theorem step_effect (h : s.node.Ready) :
    Effect s.node bk k (works i) (s.worker i) (s'.worker i, s'.node) := by
  subst hstep
  show Effect s.node bk k _ _ (update s.worker i _ i, _)
  rw [update_self]
  exact runWork_effect h (works i) (s.worker i)

theorem step_tags : ∃ later, s'.tags = s.tags ++ later := by
  subst hstep
  simp only [step]
  split
  · exact ⟨_, rfl⟩
  · exact ⟨[], (List.append_nil _).symm⟩

theorem step_other {j : Fin m} (hji : j ≠ i) :
    s'.worker j = s.worker j ∧ s'.seen j = s.seen j ∧ s'.mark j = s.mark j := by
  subst hstep
  refine ⟨update_of_ne hji _ _, ?_, ?_⟩ <;>
  · simp only [step]
    split
    · rw [update_of_ne hji]
    · rfl

variable (h : Sound bk k works n₀ B c s)
include h

/-- The entry after a step that is in time. -/
theorem Sound.fresh_step (htimely : Timely works s i) : Fresh k works n₀ s' := by
  have heff := step_effect hstep h.advances.ready
  cases hstores : (works i).stores (s.worker i).phase with
  | true =>
    cases hload : (works i).isLoad with
    | true =>
      -- the loader started after the last write, and what it returned replaces the entry
      have hphase := phase_of_load hload hstores
      have hseen := htimely.1 hload hphase
      refine .inr (.inl ⟨i, hload, ?_, ?_⟩)
      · simpa [← hstep, step, hload, hphase] using hseen
      · simp [← hstep, step, hload, hstores]
    | false =>
      refine .inl ?_
      simp [← hstep, step, hload, hstores]
  | false =>
    have hwrites : s'.writes = s.writes := by simp [← hstep, step, hstores]
    have hloaded : s'.loaded = s.loaded := by simp [← hstep, step, hstores]
    rcases heff.entry hstores with hview | hnone
    · simp only [Fresh, hwrites, hloaded, hview]
      rcases h.fresh with hlast | ⟨j, hload, hseen, hentry⟩ | hnone
      · exact .inl hlast
      · refine .inr (.inl ⟨j, hload, ?_, hentry⟩)
        by_cases hji : j = i
        · by_cases hbegin : (s.worker i).phase = .begin
          · simp [← hstep, step, hbegin, hji]
          · simpa [← hstep, step, hbegin] using hseen
        · exact (step_other hstep hji).2.1.trans hseen
      · exact .inr (.inr hnone)
    · exact .inr (.inr hnone)

omit [Inhabited V] in
omit hstep in
/-- What is recorded in time is not below what was recorded before. -/
theorem Sound.version_le (hlww : n₀.cfg.LWWEnabled = true) (htimely : Timely works s i)
    (hrec : (works i).records (s.worker i).phase = true) :
    s.node.version bk ≤ (works i).version (s.worker i) := by
  rw [h.version, ← List.take_append_drop (s.mark i) s.tags, lastTag, List.getLast?_append]
  cases hlast : (s.tags.drop (s.mark i)).getLast? with
  | none => exact (h.armed hlww i (armed_of_records hrec)).2
  | some ver => exact htimely.2 hrec ver (List.mem_of_getLast? hlast)

theorem Sound.version_step (htimely : Timely works s i) :
    s.node.version bk ≤ s'.node.version bk ∧ s'.node.version bk = lastTag bk n₀ s'.tags := by
  rw [(step_effect hstep h.advances.ready).version]
  by_cases hrec : (s.node.cfg.LWWEnabled && (works i).records (s.worker i).phase) = true
  · have htags : s'.tags = s.tags ++ [(works i).version (s.worker i)] := by
      simp [← hstep, step, hrec]
    rw [if_pos hrec, htags, lastTag, List.getLast?_concat]
    rw [Bool.and_eq_true] at hrec
    exact ⟨h.version_le (h.advances.cfg ▸ hrec.1) htimely hrec.2, rfl⟩
  · have htags : s'.tags = s.tags := by simp [← hstep, step, hrec]
    rw [if_neg hrec, htags]
    exact ⟨UInt64.le_refl _, h.version⟩

theorem Sound.marked_step (j : Fin m) : s'.mark j ≤ s'.tags.length := by
  obtain ⟨later, htags⟩ := step_tags hstep
  rw [htags, List.length_append]
  refine Nat.le_add_right_of_le ?_
  by_cases hji : j = i
  · subst hji
    simp only [← hstep, step]
    split
    · rw [update_self]
    · exact h.marked j
  · exact (step_other hstep hji).2.2 ▸ h.marked j

variable (hs : Starts works n₀ B) (hB : B + c + 1 < 2 ^ 48) (hlww : n₀.cfg.LWWEnabled = true)
include hB hlww

/-- A version from the clock is above everything that has been recorded. -/
theorem Sound.issued_step (hissues : (works i).issues (s.worker i).phase = true) :
    s.node.version bk ≤ (s'.worker i).ver ∧ stampOf (s'.worker i).ver ≤ s'.node.clock.stamp := by
  obtain ⟨-, hlt, hle, heq⟩ := issues_dominates
    ((step_effect hstep h.advances.ready).issued hissues) (h.clock hlww) (by omega)
  refine ⟨UInt64.le_of_lt (lt_of_stampOf_lt ?_), hle⟩
  rw [heq (by omega)]
  exact ((h.clock hlww).recorded bk).trans_lt hlt

include hs

theorem Sound.clock_step :
    s'.node.Dominates (B + (c + 1 : Nat)) ∧ s.node.clock.stamp ≤ s'.node.clock.stamp := by
  rw [Nat.cast_add, ← Int.add_assoc]
  refine (step_effect hstep h.advances.ready).dominates (h.clock hlww) (by omega)
    (fun hremote => ?_) fun hrec => (h.armed hlww i (armed_of_records hrec)).1
  cases hw : works i with
  | handle job =>
    have hbelow := hs.remote i job hw job.ver (List.mem_singleton_self _)
    simp only [Work.version]
    omega
  | _ => rw [hw] at hremote; cases hremote

theorem Sound.armed_step (j : Fin m) (hj : (works j).armed (s'.worker j).phase = true) :
    Founded bk works n₀ s' j := by
  obtain ⟨later, htags⟩ := step_tags hstep
  -- a worker that keeps its version and its mark
  have hkept : ∀ x, (works x).armed (s.worker x).phase = true → s'.mark x = s.mark x →
      (works x).version (s'.worker x) = (works x).version (s.worker x) →
      Founded bk works n₀ s' x := by
    intro x hx hmark hver
    obtain ⟨hown, hfloor⟩ := h.armed hlww x hx
    rw [Founded, hver, hmark, htags, List.take_append_of_le_length (h.marked x)]
    exact ⟨fun hx => (hown hx).trans (h.clock_step hstep hs hB hlww).2, hfloor⟩
  by_cases hji : j = i
  · subst hji
    have hworker : s'.worker j = (s.node.runWork net replies bk k (works j) (s.worker j)).1 := by
      simp [← hstep, step]
    have hall : s'.tags.take s.tags.length = s.tags := by rw [htags, List.take_left]
    rcases LoadRace.armed_step (works j) (s.worker j) (hworker ▸ hj) with
      ⟨hissues, hver⟩ | ⟨hver, harmed | ⟨hremote, hphase, hfresh⟩⟩ <;> rw [← hworker] at hver
    · have hmark : s'.mark j = s.tags.length := by simp [← hstep, step, phase_of_issues hissues]
      obtain ⟨hle, hstamp⟩ := h.issued_step hstep hB hlww hissues
      rw [Founded, hver, hmark, hall, ← h.version]
      exact ⟨fun _ => hstamp, hle⟩
    · exact hkept j harmed (by simp [← hstep, step, not_marked_of_armed harmed]) hver
    · have hmark : s'.mark j = s.tags.length := by simp [← hstep, step, hphase]
      have hlww' : s.node.cfg.LWWEnabled = true := h.advances.cfg ▸ hlww
      rw [Founded, hver, hmark, hall, ← h.version]
      refine ⟨fun hown => ?_, le_of_not_stale hlww' (by simp [hfresh])⟩
      cases hremote.symm.trans hown
  · obtain ⟨hworker, -, hmark⟩ := step_other hstep hji
    exact hkept j (hworker ▸ hj) hmark (by rw [hworker])

end

theorem Sound.step (h : Sound bk k works n₀ B c s) (hs : Starts works n₀ B)
    (hB : B + c + 1 < 2 ^ 48) (htimely : Timely works s i) :
    Sound bk k works n₀ B (c + 1) (LoadRace.step net replies bk k works s i) where
  advances := h.advances.trans (step_effect rfl h.advances.ready).advances
  fresh := h.fresh_step rfl htimely
  version := (h.version_step rfl htimely).2
  marked := h.marked_step rfl
  clock := fun hlww => (h.clock_step rfl hs hB hlww).1
  armed := fun hlww => h.armed_step rfl hs hB hlww

/-- In a run whose workers are all in time, no value of a loader that started before a write was
applied replaces its result, and the recorded version never decreases. -/
theorem exec_timely (works : Fin m → Work V) (h : Starts works n₀ B) (sched later : List (Fin m))
    (hB : B + (sched ++ later).length < 2 ^ 48)
    (htimely : Schedule.Along (LoadRace.step net replies bk k works) (Timely works)
      (begin works n₀) (sched ++ later)) :
    Fresh k works n₀ (exec net replies bk k works n₀ sched) ∧
      (exec net replies bk k works n₀ sched).node.version bk ≤
        (exec net replies bk k works n₀ (sched ++ later)).node.version bk := by
  rw [List.length_append] at hB
  obtain ⟨hfirst, hrest⟩ := Schedule.along_append.mp htimely
  have hsound : Sound bk k works n₀ B (0 + sched.length) (exec net replies bk k works n₀ sched) :=
    Schedule.exec_counted (N := sched.length) (fun c s i hc hs ht => hs.step h (by omega) ht)
      (sound_begin h) (by omega) hfirst
  refine ⟨hsound.fresh, ?_⟩
  have hrun := Schedule.exec_counted (N := sched.length + later.length)
    (I := fun c s => Sound bk k works n₀ B c s ∧
      (exec net replies bk k works n₀ sched).node.version bk ≤ s.node.version bk)
    (fun c s i hc hs ht =>
      ⟨hs.1.step h (by omega) ht, UInt64.le_trans hs.2 (hs.1.version_step rfl ht).1⟩)
    ⟨hsound, UInt64.le_refl _⟩ (by omega) hrest
  have happend : exec net replies bk k works n₀ (sched ++ later) = Schedule.exec _ _ later :=
    Schedule.exec_append
  exact happend ▸ hrun.2

def loadAndSet : Fin 2 → Work UInt8
  | 0 => .load false (.ok (10, 0))
  | 1 => .set 20 0

def alone : Network := ⟨fun _ => false, fun _ => false, false⟩

def silent : NodeID → Except String Ack := fun _ => .error ErrTimeout

def owner (reading : Nat → Int) : Node UInt8 UInt8 :=
  plain [1] ⟨[⟨[1], 1, 1⟩], 1⟩ (freshCache reading)

/-- The loader starts between the steps of the write. -/
theorem exec_timely_later :
    let n := owner fun _ => 0
    let s := exec alone silent [7] 7 loadAndSet n [1, 0, 0, 1, 0, 1, 0, 0]
    Fresh 7 loadAndSet n s ∧ s.node.version [7] ≤ (exec alone silent [7] 7 loadAndSet n
      ([1, 0, 0, 1, 0, 1, 0, 0] ++ [0, 1, 0, 0])).node.version [7] := by
  intro n s
  have hclock : n.Dominates 0 := by
    refine ⟨(plain_replica ..).ready, rfl, fun j => ?_, Hlc.newHLC_sane 1 (by decide), fun bk => ?_⟩
    · show unixMilli ((freshCache fun _ => 0).rt.wall.reading j) ≤ 0
      rw [freshCache_reading]
      decide
    · show stampOf 0 ≤ _
      exact Nat.zero_le _
  have hlocal : ∀ i, (loadAndSet i).remote = false := by decide
  have hstarts : Starts loadAndSet n 0 := by
    refine ⟨hclock.ready, fun _ => hclock, fun i job hjob => ?_⟩
    have hno := hlocal i
    rw [hjob] at hno
    cases hno
  exact exec_timely loadAndSet hstarts _ _ (by decide) (by decide +kernel)

/-- The write is applied after the loader has started, and the older value replaces it. In the
second run the load has its version before the write, and records it after the write has. -/
theorem overtaken_load :
    let n := owner fun n => n
    let s := exec alone silent [7] 7 loadAndSet n [0, 0, 0, 1, 1, 1, 1, 0, 0]
    let t := exec alone silent [7] 7 loadAndSet n [0, 0, 0, 0, 0, 0, 1, 1, 1]
    let t' := exec alone silent [7] 7 loadAndSet n [0, 0, 0, 0, 0, 0, 1, 1, 1, 0, 0]
    s.writes = [some (20, 0)] ∧ s.seen 0 = 0 ∧ s.node.localCache.view 7 = some (10, 0) ∧
      t'.node.version [7] < t.node.version [7] := by decide +kernel

end LoadRace

end Kioshun
