import Kioshun.Cluster.Handlers
import Kioshun.Cluster.Rebalance
import Kioshun.Lib.Schedule

/-!
# Rebalancing while writes arrive

`rebalanceOnce` reads the value of a key, sends it to the first owner and deletes the
local entry when the owner has acknowledged it. Between the read and the delete lies a
round trip over the network, in which handlers of `rpcSet` may write the key anew. The
delete does not look at what it deletes.
-/

namespace Kioshun
open InMemoryCache Node

universe u v
variable {K : Type u} {V : Type v}

/-- Where the iteration of `rebalanceOnce` for the key stands. -/
inductive Pusher where
  | idle
  | sending (msg : MsgSet)
  | waiting (msg : MsgSet)
  | deleting (msg : MsgSet)
  | ended

structure Deletion (V : Type v) where
  msg : MsgSet
  written : List (V × Int)
  before : Option (V × Int)
  after : Option (V × Int)

structure PushRace (K : Type u) (V : Type v) (m : Nat) where
  node : Node K V
  pusher : Pusher
  stage : Fin m → Stage
  written : List (V × Int)
  deletion : Option (Deletion V)

inductive PushEvent (m : Nat) where
  | push
  | reply (r : Except String Ack)
  | handle (i : Fin m)

/-- The message whose value has been read. -/
def Pusher.msg : Pusher → Option MsgSet
  | .sending msg => some msg
  | .waiting msg => some msg
  | .deleting msg => some msg
  | _ => none

variable [DecidableEq K] [Inhabited V]

namespace PushRace
variable {m : Nat} (up : NodeID → Bool) (bk : Bytes) (k : K) (jobs : Fin m → UInt64 × (V × Int))

def begin (n : Node K V) : PushRace K V m := ⟨n, .idle, fun _ => .check, [], none⟩

def job (i : Fin m) : Job V := ⟨(jobs i).1, some (jobs i).2⟩

/-- The next step of the iteration, other than to receive the reply. -/
def push (s : PushRace K V m) : PushRace K V m :=
  match s.pusher with
  | .idle =>
    let r := s.node.pushOf up k
    match r.1 with
    | none => { s with node := r.2, pusher := .ended }
    | some (_, msg) => { s with node := r.2, pusher := .sending msg, written := [] }
  | .sending msg => { s with pusher := .waiting msg }
  | .deleting msg =>
    let n := { s.node with localCache := (s.node.localCache.Delete k).2 }
    { s with
      node := n
      pusher := .ended
      deletion := some ⟨msg, s.written, s.node.localCache.view k, n.localCache.view k⟩ }
  | _ => s

def reply (s : PushRace K V m) (r : Except String Ack) : PushRace K V m :=
  match s.pusher with
  | .waiting msg =>
    let p : Push K := ⟨k, [], msg, r⟩
    { s with pusher := if p.acknowledged then .deleting msg else .ended }
  | _ => s

def handle (s : PushRace K V m) (i : Fin m) : PushRace K V m :=
  let r := s.node.runSection bk k (job jobs i) (s.stage i)
  { s with
    node := r.2
    stage := Function.update s.stage i r.1
    written := if s.stage i = .store then s.written ++ [(jobs i).2] else s.written }

def step (s : PushRace K V m) : PushEvent m → PushRace K V m
  | .push => s.push up k
  | .reply r => s.reply k r
  | .handle i => s.handle bk k jobs i

def exec (n : Node K V) (es : List (PushEvent m)) : PushRace K V m :=
  Schedule.exec (step up bk k jobs) (begin n) es

/-- The deleted entry has the value that the first owner has acknowledged, and what has been
written since it was read is still there. -/
def Lossless (n₀ : Node K V) (s : PushRace K V m) : Prop :=
  ∀ d, s.deletion = some d →
    (∀ e, d.before = some e → Carries n₀ k e.1 d.msg) ∧
    ∀ e, d.written.getLast? = some e → d.after = some e

/-- No handler has written since the value was read, when the entry is deleted. -/
def Undisturbed (s : PushRace K V m) : PushEvent m → Prop
  | .push =>
    match s.pusher with
    | .deleting _ => s.written = []
    | _ => True
  | _ => True

instance (s : PushRace K V m) (e : PushEvent m) : Decidable (s.Undisturbed e) := by
  unfold Undisturbed
  split
  · split <;> infer_instance
  · infer_instance

end PushRace

namespace PushRace
variable {m : Nat} {up : NodeID → Bool} {bk : Bytes} {k : K} {jobs : Fin m → UInt64 × (V × Int)}
  {n n₀ : Node K V} {s : PushRace K V m}

/-- One iteration consists of these steps. -/
theorem rebalanceKey_eq_exec (n : Node K V) (r : Except String Ack) :
    (n.rebalanceKey up r k).2 = (exec up bk k jobs n [.push, .push, .reply r, .push]).node := by
  simp only [exec, Schedule.exec_cons, Schedule.exec_nil, step, rebalanceKey]
  cases hpush : (n.pushOf up k).1 with
  | none => simp only [begin, push, reply, hpush]
  | some sent =>
    obtain ⟨primary, msg⟩ := sent
    have hsame : (⟨k, [], msg, r⟩ : Push K).acknowledged
        = (⟨k, primary, msg, r⟩ : Push K).acknowledged := rfl
    cases hack : (⟨k, primary, msg, r⟩ : Push K).acknowledged with
    | true => simp [begin, push, reply, hpush, hsame, hack]
    | false => simp [begin, push, reply, hpush, hsame, hack]

structure Sound (k : K) (n₀ : Node K V) (s : PushRace K V m) : Prop where
  advances : Advances n₀ s.node
  entry : ∀ msg, s.pusher.msg = some msg → s.written = [] →
    ∀ e, s.node.localCache.view k = some e → Carries n₀ k e.1 msg
  ended : ∀ d, s.deletion = some d → s.pusher.msg = none ∧ s.pusher ≠ .idle

section
omit [Inhabited V]

theorem sound_begin (h : n₀.Ready) : Sound k n₀ (begin n₀ : PushRace K V m) where
  advances := Advances.refl h
  entry := fun _ h => by cases h
  ended := fun _ h => by cases h

theorem Sound.push (h : Sound k n₀ s) : Sound k n₀ (s.push up k) := by
  have hready := h.advances.ready
  cases hp : s.pusher with
  | idle =>
    have hdel : ∀ d, s.deletion ≠ some d := fun d hd => (h.ended d hd).2 hp
    have hprep := pushOf_prepares hready up k
    simp only [PushRace.push, hp]
    generalize s.node.pushOf up k = r at hprep
    cases hprep with
    | skip silent _ =>
      exact ⟨h.advances.trans silent.advances, fun _ hm => (by cases hm),
        fun d hd => absurd hd (hdel d)⟩
    | expired advances foreign entry reads stale view =>
      exact ⟨h.advances.trans advances, fun _ hm => (by cases hm), fun d hd => absurd hd (hdel d)⟩
    | @sent n' primary msg e silent foreign entry carries stamps =>
      refine ⟨h.advances.trans silent.advances, fun msg' hm _ e' he => ?_,
        fun d hd => absurd hd (hdel d)⟩
      cases hm
      rw [silent.view, entry] at he
      cases he
      exact carries.of_advances h.advances
  | sending msg =>
    simp only [PushRace.push, hp]
    refine ⟨h.advances, fun msg' hm => h.entry msg' (by rw [hp]; exact hm), fun d hd => ?_⟩
    have hnone := (h.ended d hd).1
    rw [hp] at hnone
    cases hnone
  | deleting msg =>
    simp only [PushRace.push, hp]
    have hout := (Delete_spec hready.valid hready.isOpen k).1
    exact ⟨h.advances.trans (hready.advances hout), fun _ hm => (by cases hm),
      fun _ _ => ⟨rfl, by simp⟩⟩
  | waiting msg => simpa only [PushRace.push, hp] using h
  | ended => simpa only [PushRace.push, hp] using h

theorem Sound.reply (h : Sound k n₀ s) (r : Except String Ack) : Sound k n₀ (s.reply k r) := by
  cases hp : s.pusher with
  | waiting msg =>
    have hdel : ∀ d, s.deletion ≠ some d := fun d hd => by
      have hnone := (h.ended d hd).1
      rw [hp] at hnone
      cases hnone
    simp only [PushRace.reply, hp]
    refine ⟨h.advances, fun msg' hm => h.entry msg' ?_, fun d hd => absurd hd (hdel d)⟩
    rw [hp]
    split at hm
    · exact hm
    · cases hm
  | idle => simpa only [PushRace.reply, hp] using h
  | sending msg => simpa only [PushRace.reply, hp] using h
  | deleting msg => simpa only [PushRace.reply, hp] using h
  | ended => simpa only [PushRace.reply, hp] using h

end

theorem Sound.handle (h : Sound k n₀ s) (i : Fin m) : Sound k n₀ (s.handle bk k jobs i) := by
  obtain ⟨hadv, hview⟩ := runSection_spec h.advances.ready bk k (job jobs i) (s.stage i)
  refine ⟨h.advances.trans hadv, fun msg hm hw e he => ?_, h.ended⟩
  simp only [PushRace.handle] at hw he
  by_cases hstore : s.stage i = .store
  · simp [hstore] at hw
  · rw [if_neg hstore] at hw
    rw [hview hstore] at he
    exact h.entry msg hm hw e he

theorem Sound.step (h : Sound k n₀ s) (e : PushEvent m) : Sound k n₀ (s.step up bk k jobs e) := by
  cases e with
  | push => exact h.push
  | reply r => exact h.reply r
  | handle i => exact h.handle i

/-- The delete is the last step of the iteration. -/
theorem deletion_step (h : Sound k n₀ s) (e : PushEvent m) {d : Deletion V}
    (hd : s.deletion = some d) : (s.step up bk k jobs e).deletion = some d := by
  obtain ⟨hmsg, hidle⟩ := h.ended d hd
  have hended : s.pusher = .ended := by
    cases hp : s.pusher with
    | idle => exact absurd hp hidle
    | sending msg => rw [hp] at hmsg; cases hmsg
    | waiting msg => rw [hp] at hmsg; cases hmsg
    | deleting msg => rw [hp] at hmsg; cases hmsg
    | ended => rfl
  cases e with
  | push => simpa only [step, push, hended] using hd
  | reply r => simpa only [step, reply, hended] using hd
  | handle i => exact hd

omit [Inhabited V] in
/-- What the step that deletes logs. -/
theorem deletion_push {msg : MsgSet} (hp : s.pusher = .deleting msg) :
    (s.push up k).deletion = some ⟨msg, s.written, s.node.localCache.view k,
      (s.node.localCache.Delete k).2.view k⟩ := by
  simp only [push, hp]

theorem Lossless.step (h : Sound k n₀ s) (hloss : Lossless k n₀ s) {e : PushEvent m}
    (hguard : s.Undisturbed e) : Lossless k n₀ (s.step up bk k jobs e) := by
  cases e with
  | push =>
    cases hp : s.pusher with
    | deleting msg =>
      have hwritten : s.written = [] := by simpa only [Undisturbed, hp] using hguard
      intro d hd
      rw [PushRace.step, deletion_push hp] at hd
      cases hd
      refine ⟨fun e he => h.entry msg (by rw [hp]; rfl) hwritten e he, fun e he => ?_⟩
      rw [hwritten] at he
      cases he
    | idle =>
      intro d hd
      refine hloss d ?_
      simp only [PushRace.step, push, hp] at hd
      split at hd <;> exact hd
    | sending msg =>
      simp only [PushRace.step, push, hp]
      exact hloss
    | waiting msg => simpa only [PushRace.step, push, hp] using hloss
    | ended => simpa only [PushRace.step, push, hp] using hloss
  | reply r =>
    intro d hd
    refine hloss d ?_
    simp only [PushRace.step, reply] at hd
    split at hd <;> exact hd
  | handle i => exact hloss

/-- The writes that arrive while an entry is moved to the first owner survive exactly in the runs
in which no handler writes between the read and the delete. -/
theorem lossless_iff (h : n₀.Ready) (up : NodeID → Bool) (bk : Bytes) (k : K)
    (jobs : Fin m → UInt64 × (V × Int)) (es : List (PushEvent m)) :
    Lossless k n₀ (exec up bk k jobs n₀ es) ↔
      Schedule.Along (PushRace.step up bk k jobs) Undisturbed (begin n₀) es := by
  constructor
  · intro hloss
    refine (Schedule.along_of_final (I := Sound k n₀) (fun _ e hs => hs.step e)
      (fun s e hs hloss d hd => hloss d (deletion_step hs e hd)) ?_ (sound_begin h) hloss).2
    intro s e hs hloss
    cases e with
    | push =>
      cases hp : s.pusher with
      | deleting msg =>
        obtain ⟨-, hview, -⟩ := Delete_spec hs.advances.ready.valid
          hs.advances.ready.isOpen k
        have hkept := (hloss _ (deletion_push hp)).2
        rw [hview, Function.update_self] at hkept
        simp only [Undisturbed, hp]
        cases hlast : s.written.getLast? with
        | none => exact List.getLast?_eq_none_iff.mp hlast
        | some e => cases hkept e hlast
      | idle => simp only [Undisturbed, hp]
      | sending msg => simp only [Undisturbed, hp]
      | waiting msg => simp only [Undisturbed, hp]
      | ended => simp only [Undisturbed, hp]
    | reply r => trivial
    | handle i => trivial
  · intro hguard
    exact (Schedule.exec_keeps (I := fun s => Sound k n₀ s ∧ Lossless k n₀ s)
      (fun _ e hs hg => ⟨hs.1.step e, hs.2.step hs.1 hg⟩)
      ⟨sound_begin h, fun _ hd => by cases hd⟩ hguard).2

def oneWrite : Fin 1 → UInt64 × (UInt8 × Int) := fun _ => (9, (20, 0))

/-- The write comes before the value is read. -/
theorem lossless_iff_earlier :
    let n := heldByBoth (freshCache fun n => n) [1]
    Lossless 7 n (exec (fun _ => true) [7] 7 oneWrite n
      [.handle 0, .handle 0, .push, .push, .handle 0, .reply (.ok ⟨0, true, ""⟩), .push]) :=
  (lossless_iff (heldByBoth_advances _ [1]).ready ..).mpr (by decide +kernel)

/-- The write comes between the read and the delete, and is lost: the first owner has acknowledged
the value 10, the entry that is deleted has the value 20. -/
theorem deletes_newer :
    let s := exec (fun _ => true) [7] 7 oneWrite (heldByBoth (freshCache fun n => n) [1])
      [.push, .push, .handle 0, .handle 0, .handle 0, .reply (.ok ⟨0, true, ""⟩), .push]
    s.deletion.map (fun d => d.msg.Val) = some [10] ∧
      s.deletion.bind Deletion.before = some (20, 0) ∧ s.node.localCache.view 7 = none := by
  decide +kernel

end PushRace

end Kioshun
