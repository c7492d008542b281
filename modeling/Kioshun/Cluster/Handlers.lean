import Kioshun.Cluster.Convergence

/-!
# Handlers that run concurrently

Each connection serves its requests with many workers, so handlers of the same
key interleave. A handler reads the recorded version in one section and writes in
two later ones: `rpcSet` imports and then records its version, `rpcDel` records
and then deletes. Between the check and the writes a handler with a greater
version may have finished. When no handler overwrites what one with a greater
version has written, versions only grow and the greatest version wins.
-/

namespace Kioshun

open Lww Function InMemoryCache List

universe u v
variable {K : Type u} {V : Type v}

/-- What a handler has to write; a `rpcDel` writes no content. -/
structure Job (V : Type v) where
  ver : UInt64
  content : Option (V × Int)

/-- The section a handler comes to next. -/
inductive Stage where
  | check
  | store
  | tag
  | done
  | dropped
  deriving DecidableEq

variable [DecidableEq K]

section Model

variable [Inhabited V]

/-- One section of a handler of the key `k` with the bytes `bk`. -/
def Node.runSection (n : Node K V) (bk : Bytes) (k : K) (job : Job V) : Stage → Stage × Node K V
  | .check =>
    if n.stale bk job.ver then (.dropped, n)
    else (if job.content.isSome then .store else .tag, n)
  | .store =>
    match job.content with
    | some e => (.tag, n.importItems [⟨k, e.1, e.2, job.ver⟩])
    | none => (.done, { n with localCache := (n.localCache.Delete k).2 })
  | .tag => (if job.content.isSome then .done else .store, n.commit bk job.ver)
  | .done => (.done, n)
  | .dropped => (.dropped, n)

def Node.runAlone (n : Node K V) (bk : Bytes) (k : K) (job : Job V) : Node K V :=
  let checked := n.runSection bk k job .check
  let written := checked.2.runSection bk k job checked.1
  (written.2.runSection bk k job written.1).2

variable {n : Node K V}

theorem Node.rpcSet_eq_runAlone {s : MsgSet} {k : K} {vbytes : Bytes} {v : V}
    (hcheck : n.checkSet s = .ok (k, vbytes)) (hdec : n.codec.Decode vbytes = .ok v) :
    (n.rpcSet s).2 = n.runAlone s.Key k ⟨s.Ver, some (v, s.Exp)⟩ := by
  simp only [rpcSet, hcheck, hdec, runAlone, runSection]
  by_cases hstale : n.stale s.Key s.Ver = true
  · simp only [hstale, if_true]
  · simp [hstale]

theorem Node.rpcDel_eq_runAlone {d : MsgDel} {k : K}
    (hsize : tooLarge n.cfg.Sec.MaxKeySize d.Key = false) (hk : n.kc.DecodeKey d.Key = .ok k) :
    (n.rpcDel d).2 = n.runAlone d.Key k ⟨d.Ver, none⟩ := by
  simp only [rpcDel, hsize, hk, runAlone, runSection]
  by_cases hstale : n.stale d.Key d.Ver = true
  · simp [hstale]
  · simp [hstale]

/-- Only the import and the delete touch the entries. -/
theorem Node.runSection_spec (h : n.Ready) (bk : Bytes) (k : K) (job : Job V) (stage : Stage) :
    Node.Advances n (n.runSection bk k job stage).2 ∧
      (stage ≠ .store →
        (n.runSection bk k job stage).2.localCache.view = n.localCache.view) := by
  cases stage with
  | check =>
    simp only [runSection]
    split <;> exact ⟨Advances.refl h, fun _ => rfl⟩
  | store =>
    refine ⟨?_, fun hne => absurd rfl hne⟩
    simp only [runSection]
    split
    · exact (importItems_spec h _).1
    · exact h.advances (Delete_spec h.valid h.isOpen k).1
  | tag =>
    obtain ⟨hadv, hview, -⟩ := commit_spec h bk job.ver
    exact ⟨hadv, fun _ => hview⟩
  | done => exact ⟨Advances.refl h, fun _ => rfl⟩
  | dropped => exact ⟨Advances.refl h, fun _ => rfl⟩

def Job.stored (job : Job V) : Stage → Bool
  | .tag => job.content.isSome
  | .done => true
  | _ => false

def Job.tagged (job : Job V) : Stage → Bool
  | .store => !job.content.isSome
  | .done => true
  | _ => false

structure Race (K : Type u) (V : Type v) (m : Nat) where
  node : Node K V
  stage : Fin m → Stage

namespace Race
variable {m : Nat}

def step (bk : Bytes) (k : K) (jobs : Fin m → Job V) (s : Race K V m) (i : Fin m) : Race K V m :=
  let r := s.node.runSection bk k (jobs i) (s.stage i)
  ⟨r.2, update s.stage i r.1⟩

def exec (bk : Bytes) (k : K) (jobs : Fin m → Job V) (s : Race K V m) (sched : List (Fin m)) :
    Race K V m := sched.foldl (step bk k jobs) s

def begin (n : Node K V) : Race K V m := ⟨n, fun _ => .check⟩

/-- The handler is about to overwrite what one with a greater version has written. -/
def late (jobs : Fin m → Job V) (s : Race K V m) (i : Fin m) : Bool :=
  (List.finRange m).any fun j => decide ((jobs i).ver < (jobs j).ver) &&
    (s.stage i == .store && (jobs j).stored (s.stage j) ||
      s.stage i == .tag && (jobs j).tagged (s.stage j))

def inOrder (bk : Bytes) (k : K) (jobs : Fin m → Job V) : Race K V m → List (Fin m) → Bool
  | _, [] => true
  | s, i :: sched => !late jobs s i && inOrder bk k jobs (step bk k jobs s i) sched

def finished (s : Race K V m) : Prop := ∀ i, s.stage i = .done ∨ s.stage i = .dropped

end Race

end Model

section Last
variable {m : Nat} {α : Type*} {ver : Fin m → UInt64} {f : Fin m → α} {x₀ x : α}
  {P Q : Fin m → Prop}

/-- `x` was written by the handler with the greatest version among `P`, or nobody wrote. -/
def Last (ver : Fin m → UInt64) (f : Fin m → α) (x₀ : α) (P : Fin m → Prop) (x : α) : Prop :=
  (x = x₀ ∧ ∀ i, ¬ P i) ∨ ∃ i, P i ∧ x = f i ∧ ∀ j, P j → ver j ≤ ver i

theorem Last.congr (h : Last ver f x₀ P x) (hP : ∀ i, Q i ↔ P i) : Last ver f x₀ Q x := by
  rcases h with ⟨hx, hnone⟩ | ⟨i, hi, hx, hmax⟩
  · exact .inl ⟨hx, fun i hi => hnone i ((hP i).mp hi)⟩
  · exact .inr ⟨i, (hP i).mpr hi, hx, fun j hj => hmax j ((hP j).mp hj)⟩

/-- The next handler writes, and its version is not smaller. -/
theorem last_write {i : Fin m} (hmax : ∀ j, P j → ver j ≤ ver i) (hQ : ∀ j, Q j ↔ P j ∨ j = i) :
    Last ver f x₀ Q (f i) := by
  refine .inr ⟨i, (hQ i).mpr (.inr rfl), rfl, fun j hj => ?_⟩
  rcases (hQ j).mp hj with hj | rfl
  · exact hmax j hj
  · exact UInt64.le_refl _

end Last

namespace Race
variable {m : Nat} {bk : Bytes} {k : K} {jobs : Fin m → Job V} {n₀ : Node K V} {s : Race K V m}
  {i : Fin m}

structure Sound (bk : Bytes) (k : K) (jobs : Fin m → Job V) (n₀ : Node K V) (s : Race K V m) :
    Prop where
  advances : Node.Advances n₀ s.node
  passed : ∀ i, s.stage i ≠ .check → s.stage i ≠ .dropped → n₀.version bk ≤ (jobs i).ver
  dropped : ∀ i, s.stage i = .dropped → (jobs i).ver < s.node.version bk
  entry : Last (fun i => (jobs i).ver) (fun i => (jobs i).content) (n₀.localCache.view k)
    (fun i => (jobs i).stored (s.stage i) = true) (s.node.localCache.view k)
  version : Last (fun i => (jobs i).ver) (fun i => (jobs i).ver) (n₀.version bk)
    (fun i => (jobs i).tagged (s.stage i) = true) (s.node.version bk)

theorem sound_begin (h : n₀.Ready) : Sound bk k jobs n₀ (begin n₀) where
  advances := Node.Advances.refl h
  passed := fun _ hc _ => absurd rfl hc
  dropped := fun _ hd => by cases hd
  entry := .inl ⟨rfl, fun _ hs => by cases hs⟩
  version := .inl ⟨rfl, fun _ ht => by cases ht⟩

/-- Recorded versions do not fall below the first one. -/
theorem Sound.version_le (h : Sound bk k jobs n₀ s) : n₀.version bk ≤ s.node.version bk := by
  rcases h.version with ⟨heq, -⟩ | ⟨i, ht, heq, -⟩
  · rw [heq]
    exact UInt64.le_refl _
  · rw [heq]
    refine h.passed i ?_ ?_
    · intro hs
      simp [hs, Job.tagged] at ht
    · intro hs
      simp [hs, Job.tagged] at ht

omit [DecidableEq K] in
/-- A handler that is not late has a version as great as that of any whose write it replaces. -/
theorem le_of_not_late (hlate : late jobs s i = false) {j : Fin m}
    (hj : s.stage i = .store ∧ (jobs j).stored (s.stage j) = true ∨
      s.stage i = .tag ∧ (jobs j).tagged (s.stage j) = true) : (jobs j).ver ≤ (jobs i).ver := by
  refine UInt64.not_lt.mp fun hlt => ?_
  have hany : late jobs s i = true := by
    refine any_eq_true.mpr ⟨j, mem_finRange j, ?_⟩
    rw [Bool.and_eq_true, Bool.or_eq_true, Bool.and_eq_true, Bool.and_eq_true, beq_iff_eq,
      beq_iff_eq]
    exact ⟨decide_eq_true hlt, hj⟩
  rw [hany] at hlate
  cases hlate

variable {p : Fin m → Stage → Bool}

/-- A predicate that the section of `i` does not decide anew. -/
theorem stage_same {stage : Fin m → Stage} {t : Stage} (h : p i t = p i (stage i)) (j : Fin m) :
    p j (update stage i t j) = true ↔ p j (stage j) = true := by
  by_cases hj : j = i
  · subst hj
    simp [h]
  · simp [hj]

/-- A predicate that the section of `i` makes true. -/
theorem stage_true {stage : Fin m → Stage} {t : Stage} (h : p i t = true) (j : Fin m) :
    p j (update stage i t j) = true ↔ p j (stage j) = true ∨ j = i := by
  by_cases hj : j = i
  · subst hj
    simp [h]
  · simp [hj]

section Step
variable {n' : Node K V} {t : Stage}

section
variable (h : Sound bk k jobs n₀ s)
include h

/-- The handlers that passed their check, after `i` has moved on to `t`. -/
theorem Sound.passed_update (hi : t ≠ .dropped → n₀.version bk ≤ (jobs i).ver) (j : Fin m)
    (hc : update s.stage i t j ≠ .check) (hd : update s.stage i t j ≠ .dropped) :
    n₀.version bk ≤ (jobs j).ver := by
  by_cases hj : j = i
  · subst hj
    rw [update_self] at hd
    exact hi hd
  · rw [update_of_ne hj] at hc hd
    exact h.passed j hc hd

/-- The handlers that were dropped, after `i` has moved on to `t`. -/
theorem Sound.dropped_update (ht : t = .dropped → (jobs i).ver < n'.version bk)
    (hle : s.node.version bk ≤ n'.version bk) (j : Fin m) (hd : update s.stage i t j = .dropped) :
    (jobs j).ver < n'.version bk := by
  by_cases hj : j = i
  · subst hj
    rw [update_self] at hd
    exact ht hd
  · rw [update_of_ne hj] at hd
    exact UInt64.lt_of_lt_of_le (h.dropped j hd) hle

theorem Sound.store (hlate : late jobs s i = false) (hi : s.stage i = .store)
    (hadv : Node.Advances s.node n') (hver : n'.version = s.node.version)
    (hview : n'.localCache.view k = (jobs i).content) (ht : t ≠ .dropped)
    (hstored : (jobs i).stored t = true) (htagged : (jobs i).tagged t = (jobs i).tagged .store) :
    Sound bk k jobs n₀ ⟨n', update s.stage i t⟩ where
  advances := h.advances.trans hadv
  passed := h.passed_update fun _ => h.passed i (by rw [hi]; decide) (by rw [hi]; decide)
  dropped := h.dropped_update (fun hd => absurd hd ht) (by rw [hver]; exact UInt64.le_refl _)
  entry := by
    show Last _ _ _ _ (n'.localCache.view k)
    rw [hview]
    exact last_write (P := fun j => (jobs j).stored (s.stage j) = true)
      (fun j hj => le_of_not_late hlate (.inl ⟨hi, hj⟩))
      (stage_true (p := fun j => (jobs j).stored) hstored)
  version := by
    show Last _ _ _ _ (n'.version bk)
    rw [hver]
    exact h.version.congr (stage_same (p := fun j => (jobs j).tagged) (by rw [hi]; exact htagged))

theorem Sound.tag (hlate : late jobs s i = false) (hi : s.stage i = .tag)
    (hadv : Node.Advances s.node n') (hver : n'.version bk = (jobs i).ver)
    (hview : n'.localCache.view = s.node.localCache.view) (ht : t ≠ .dropped)
    (htagged : (jobs i).tagged t = true) (hstored : (jobs i).stored t = (jobs i).stored .tag) :
    Sound bk k jobs n₀ ⟨n', update s.stage i t⟩ ∧
      s.node.version bk ≤ n'.version bk := by
  have hpassed := h.passed i (by rw [hi]; decide) (by rw [hi]; decide)
  have hmax : ∀ j, (jobs j).tagged (s.stage j) = true → (jobs j).ver ≤ (jobs i).ver :=
    fun j hj => le_of_not_late hlate (.inr ⟨hi, hj⟩)
  have hle : s.node.version bk ≤ n'.version bk := by
    rw [hver]
    rcases h.version with ⟨heq, -⟩ | ⟨j, hj, heq, -⟩
    · rw [heq]
      exact hpassed
    · rw [heq]
      exact hmax j hj
  refine ⟨⟨h.advances.trans hadv, h.passed_update fun _ => hpassed,
    h.dropped_update (fun hd => absurd hd ht) hle, ?_, ?_⟩, hle⟩
  · show Last _ _ _ _ (n'.localCache.view k)
    rw [hview]
    exact h.entry.congr (stage_same (p := fun j => (jobs j).stored) (by rw [hi]; exact hstored))
  · show Last _ _ _ _ (n'.version bk)
    rw [hver]
    exact last_write (f := fun i => (jobs i).ver)
      (P := fun j => (jobs j).tagged (s.stage j) = true) hmax
      (stage_true (p := fun j => (jobs j).tagged) htagged)

theorem Sound.check (hi : s.stage i = .check) (hstored : (jobs i).stored t = false)
    (htagged : (jobs i).tagged t = false) (hdrop : t = .dropped → (jobs i).ver < s.node.version bk)
    (hpass : t ≠ .dropped → s.node.version bk ≤ (jobs i).ver) :
    Sound bk k jobs n₀ ⟨s.node, update s.stage i t⟩ where
  advances := h.advances
  passed := h.passed_update fun hne => UInt64.le_trans h.version_le (hpass hne)
  dropped := h.dropped_update hdrop (UInt64.le_refl _)
  entry := h.entry.congr (stage_same (p := fun j => (jobs j).stored) (by rw [hi, hstored]; rfl))
  version := h.version.congr (stage_same (p := fun j => (jobs j).tagged) (by rw [hi, htagged]; rfl))

end

variable [Inhabited V]

theorem step_idle (hi : s.node.runSection bk k (jobs i) (s.stage i) = (s.stage i, s.node)) :
    step bk k jobs s i = s := by
  simp only [step, hi, update_eq_self]

/-- Every section of a handler that is not late keeps the invariant and lowers no version. -/
theorem step_sound (hlww : n₀.cfg.LWWEnabled = true) (h : Sound bk k jobs n₀ s)
    (hlate : late jobs s i = false) :
    Sound bk k jobs n₀ (step bk k jobs s i) ∧
      s.node.version bk ≤ (step bk k jobs s i).node.version bk := by
  have hready := h.advances.ready
  have hlww' : s.node.cfg.LWWEnabled = true := h.advances.cfg ▸ hlww
  cases hi : s.stage i with
  | check =>
    simp only [step, hi, Node.runSection]
    by_cases hstale : s.node.stale bk (jobs i).ver = true
    · have hlt := (Node.stale_iff hlww' _ _).mp hstale
      simp only [hstale, if_true]
      exact ⟨h.check hi rfl rfl (fun _ => hlt) (fun hne => absurd rfl hne), UInt64.le_refl _⟩
    · have hle := Node.le_of_not_stale hlww' hstale
      simp only [hstale]
      refine ⟨h.check hi ?_ ?_ ?_ (fun _ => hle), UInt64.le_refl _⟩
      all_goals cases hc : (jobs i).content with
        | some e => simp [Job.stored, Job.tagged, hc]
        | none => simp [Job.stored, Job.tagged, hc]
  | store =>
    cases hc : (jobs i).content with
    | some e =>
      simp only [step, hi, Node.runSection, hc]
      refine ⟨h.store hlate hi (Node.importItems_spec hready _).1 rfl ?_ (by decide) ?_ ?_,
        UInt64.le_refl _⟩
      · rw [hc]
        exact Import_single hready.valid _
      · simp [Job.stored, hc]
      · simp [Job.tagged, hc]
    | none =>
      obtain ⟨hout, hview, -⟩ := Delete_spec hready.valid hready.isOpen k
      simp only [step, hi, Node.runSection, hc]
      refine ⟨h.store hlate hi (hready.advances hout) rfl ?_ (by decide) rfl ?_, UInt64.le_refl _⟩
      · show (s.node.localCache.Delete k).2.view k = _
        rw [hview, update_self, hc]
      · simp [Job.tagged, hc]
  | tag =>
    obtain ⟨hadv, hview, -, hver⟩ := Node.commit_spec hready bk (jobs i).ver
    have hver' : (s.node.commit bk (jobs i).ver).version bk = (jobs i).ver := by
      rw [hver hlww', update_self]
    simp only [step, hi, Node.runSection]
    cases hc : (jobs i).content with
    | some e => exact h.tag hlate hi hadv hver' hview (by simp) rfl (by simp [Job.stored, hc])
    | none =>
      exact h.tag hlate hi hadv hver' hview (by simp) (by simp [Job.tagged, hc])
        (by simp [Job.stored, hc])
  | done =>
    rw [step_idle (by rw [hi]; rfl)]
    exact ⟨h, UInt64.le_refl _⟩
  | dropped =>
    rw [step_idle (by rw [hi]; rfl)]
    exact ⟨h, UInt64.le_refl _⟩

end Step

section Run
variable {sched : List (Fin m)} [Inhabited V]

theorem inOrder_append {p q : List (Fin m)} (h : inOrder bk k jobs s (p ++ q) = true) :
    inOrder bk k jobs s p = true ∧ inOrder bk k jobs (exec bk k jobs s p) q = true := by
  induction p generalizing s with
  | nil => exact ⟨rfl, h⟩
  | cons i p ih =>
    rw [cons_append, inOrder, Bool.and_eq_true] at h
    obtain ⟨hp, hq⟩ := ih h.2
    rw [inOrder, Bool.and_eq_true]
    exact ⟨⟨h.1, hp⟩, hq⟩

/-- A whole schedule keeps the invariant and lowers no version. -/
theorem run_sound (hlww : n₀.cfg.LWWEnabled = true) (h : Sound bk k jobs n₀ s)
    (horder : inOrder bk k jobs s sched = true) :
    Sound bk k jobs n₀ (exec bk k jobs s sched) ∧
      s.node.version bk ≤ (exec bk k jobs s sched).node.version bk := by
  induction sched generalizing s with
  | nil => exact ⟨h, UInt64.le_refl _⟩
  | cons i sched ih =>
    rw [inOrder, Bool.and_eq_true, Bool.not_eq_true'] at horder
    obtain ⟨hstep, hle⟩ := step_sound hlww h horder.1
    obtain ⟨hrest, hle'⟩ := ih hstep horder.2
    exact ⟨hrest, UInt64.le_trans hle hle'⟩

omit [DecidableEq K] [Inhabited V] in
/-- Once all handlers have returned, those that were not dropped have written both. -/
theorem finished_iff (hfin : s.finished) (i : Fin m) :
    ((jobs i).stored (s.stage i) = true ↔ s.stage i = .done) ∧
      ((jobs i).tagged (s.stage i) = true ↔ s.stage i = .done) := by
  rcases hfin i with hi | hi
  · rw [hi]
    exact ⟨⟨fun _ => rfl, fun _ => rfl⟩, ⟨fun _ => rfl, fun _ => rfl⟩⟩
  · rw [hi]
    simp [Job.stored, Job.tagged]

omit [Inhabited V] in
/-- When all handlers have returned, the greatest version has won. -/
theorem Sound.wins (h : Sound bk k jobs n₀ s) (hk : n₀.kc.DecodeKey bk = .ok k)
    (hfin : s.finished) :
    Wins n₀.register (List.ofFn fun i => ⟨bk, (jobs i).ver.toNat, (jobs i).content⟩) bk
      ⟨(s.node.version bk).toNat, s.node.localCache.view k⟩ := by
  have hreg : n₀.register bk = ⟨(n₀.version bk).toNat, n₀.localCache.view k⟩ :=
    Node.registers_of_decode hk
  rcases h.version.congr fun i => (finished_iff hfin i).2.symm with ⟨hver, hnone⟩ |
    ⟨i, hi, hver, hmax⟩
  · rcases h.entry.congr fun i => (finished_iff hfin i).1.symm with ⟨hview, -⟩ | ⟨j, hj, -⟩
    · refine .inl ⟨by rw [hreg, hver, hview], fun x hx _ => ?_⟩
      obtain ⟨j, rfl⟩ := mem_ofFn.mp hx
      have hlt := h.dropped j ((hfin j).resolve_left (hnone j))
      rw [hver] at hlt
      rw [hreg]
      exact UInt64.lt_iff_toNat_lt.mp hlt
    · exact absurd hj (hnone j)
  · rcases h.entry.congr fun i => (finished_iff hfin i).1.symm with ⟨-, hnone⟩ |
      ⟨j, hj, hview, hmax'⟩
    · exact absurd hi (hnone i)
    · -- both writes that are left have the greatest version of all
      have hij : (jobs j).ver = (jobs i).ver :=
        UInt64.le_antisymm (hmax j hj) (hmax' i hi)
      have hver' : s.node.version bk = (jobs j).ver := hver.trans hij.symm
      refine .inr ⟨_, mem_ofFn.mpr ⟨j, rfl⟩, rfl, ?_, ?_, fun y hy _ => ?_⟩
      · rw [hver', hview]
        rfl
      · have hle := h.passed j (by rw [hj]; decide) (by rw [hj]; decide)
        rw [hreg]
        exact UInt64.le_iff_toNat_le.mp hle
      · obtain ⟨l, rfl⟩ := mem_ofFn.mp hy
        rcases hfin l with hl | hl
        · exact UInt64.le_iff_toNat_le.mp (hmax' l hl)
        · have hlt := h.dropped l hl
          rw [hver'] at hlt
          exact UInt64.le_iff_toNat_le.mp (UInt64.le_of_lt hlt)

/-- Handlers of one key, any number of them and in any interleaving in which none overwrites what
one with a greater version has written: the recorded version never decreases, and in the end the
greatest version has won. -/
theorem exec_lww (h : n₀.Ready) (hlww : n₀.cfg.LWWEnabled = true)
    (hk : n₀.kc.DecodeKey bk = .ok k) (jobs : Fin m → Job V)
    (horder : inOrder bk k jobs (begin n₀) sched = true) :
    (∀ p q r, p ++ (q ++ r) = sched →
      (exec bk k jobs (begin n₀) p).node.version bk ≤
        (exec bk k jobs (begin n₀) (p ++ q)).node.version bk) ∧
      ((exec bk k jobs (begin n₀) sched).finished →
        Wins n₀.register (List.ofFn fun i => ⟨bk, (jobs i).ver.toNat, (jobs i).content⟩) bk
          ⟨((exec bk k jobs (begin n₀) sched).node.version bk).toNat,
            (exec bk k jobs (begin n₀) sched).node.localCache.view k⟩) := by
  refine ⟨fun p q r hsched => ?_, (run_sound hlww (sound_begin h) horder).1.wins hk⟩
  rw [← hsched] at horder
  obtain ⟨hp, hqr⟩ := inOrder_append horder
  have hsound := (run_sound hlww (sound_begin h) hp).1
  have hle := (run_sound hlww hsound (inOrder_append hqr).1).2
  rw [exec, exec, ← foldl_append] at hle
  exact hle

def twoWrites : Fin 2 → Job UInt8
  | 0 => ⟨1, some (10, 0)⟩
  | 1 => ⟨2, some (20, 0)⟩

theorem exec_lww_successive :
    let n := Node.plain [1] ⟨[], 1⟩ (Node.freshCache fun n => n)
    let s := exec [7] 7 twoWrites (begin n) [0, 1, 0, 0, 1, 1]
    Wins n.register (List.ofFn fun i => ⟨[7], (twoWrites i).ver.toNat, (twoWrites i).content⟩) [7]
      ⟨(s.node.version [7]).toNat, s.node.localCache.view 7⟩ := by
  intro n s
  have hrun : inOrder [7] 7 twoWrites (begin n) [0, 1, 0, 0, 1, 1] = true ∧
      ∀ i, s.stage i = .done := by
    decide +kernel
  exact (exec_lww (Node.plain_replica ..).ready rfl rfl twoWrites hrun.1).2 fun i => .inl (hrun.2 i)

/-- The first handler checks, the second one runs to its end, and the first one goes on: its
older value stays, and the version falls back from 2 to 1. -/
theorem overtaken_older :
    let s := exec [7] 7 twoWrites (begin (Node.plain [1] ⟨[], 1⟩ (Node.freshCache fun n => n)))
      [0, 1, 1, 1]
    let s' := exec [7] 7 twoWrites s [0, 0]
    (s.node.version [7], s'.node.version [7], s'.node.localCache.view 7, List.ofFn s'.stage) =
      (2, 1, some (10, 0), [.done, .done]) := by decide +kernel

end Run

end Race

end Kioshun
