import Kioshun.Cluster.HintPositions

/-!
# What `enqueue` costs

The callers of `enqueue` are told by how much the counters have changed, a rejected hint
should cost nothing, and under `DropOldest` the newest hint for a key should be kept. Under
this policy `enqueue` drops other hints before it knows whether the new one will fit, and it
does not look past the new hint.
-/

namespace Kioshun

namespace HintQueue
variable {q q₁ q₂ q' : HintQueue} {p a : Nat} {now : Int}

theorem after_ready (cfg : HandoffConfig) (calls : List Call)
    (p : Option (Fin (after cfg calls).nextItem)) (it : SizedItem) :
    Ready ((after cfg calls).offer p it).1 ((after cfg calls).offer p it).2 := by
  obtain ⟨hsound, hwithin⟩ := after_sound cfg calls
  exact offer_ready hsound hwithin p it

theorem Ready.not_queued (h : Ready q a) (hfresh : q.Fresh a now) : ¬ q.Queued a := fun hin =>
  not_fresh_of_queued h.sound.rep hin now hfresh

/-- The deltas that `enqueue` returns are the change of the counters, except when a replacement is
taken back after other hints have been dropped: the dropped bytes are then reported as gained. -/
theorem deltas_net_iff (cfg : HandoffConfig) (calls : List Call)
    (p : Option (Fin (after cfg calls).nextItem)) (it : SizedItem) (now : Int) :
    let q := ((after cfg calls).offer p it).1
    let a := ((after cfg calls).offer p it).2
    (q.enqueue a now).1.2.1 = (q.enqueue a now).2.bytes - q.bytes ∧
        (q.enqueue a now).1.2.2 = (q.enqueue a now).2.items - q.items ↔
      (q.Fresh a now → q.drop = .DropOldest → q.index (q.item a).key ≠ none →
        q.Fits a now ∨ ((q.inFront a now).map fun p => (q.item p).size).sum = 0) := by
  intro q a
  have h : Ready q a := after_ready cfg calls p it
  clear_value q a
  have hcases := enqueue_enqueues h.sound h.allocated h.sized now
  have hnot : q.Fresh a now → ¬ q.Queued a := h.not_queued
  generalize q.enqueue a now = r at hcases
  cases hcases with
  | away hstale =>
    refine iff_of_true ?_ fun hfresh => absurd hfresh hstale
    simp only [Int.sub_self, and_self]
  | taken hfresh hfits hent _ _ =>
    exact iff_of_true ⟨rfl, rfl⟩ fun _ hdrop _ =>
      .inl ((cleared_within_iff h (hnot hfresh) now hent).mp (hfits hdrop))
  | @refused q' _ hdrop _ hback =>
    have hitems : q'.items - q.items = 0 := hback.items.trans (Int.sub_self _)
    have hbytes : q'.bytes - q.bytes = 0 := hback.bytes.trans (Int.sub_self _)
    exact iff_of_true ⟨hbytes.symm, hitems.symm⟩ fun _ hold => absurd hold hdrop
  | @givenUp q' hfresh hdrop hfits hent _ hback =>
    have hbytes := hback.bytes
    have hlost := cleared_bytes h (hnot hfresh) now hent
    rw [cleared_within_iff h (hnot hfresh) now hent] at hfits
    simp only [hfresh, hdrop, hfits, false_or, true_imp_iff, and_true]
    cases hkey : q.index (q.item a).key with
    | none => simp
    | some old =>
      simp only [Option.isSome_some, if_true, ne_eq, reduceCtorEq, not_false_eq_true, true_imp_iff]
      omega

def setHint (key : UInt8) (ver : UInt64) (size : Nat) : SizedItem :=
  ⟨⟨[key], [], 0, ver, false, false, 0, 0, 0, size, none, -1⟩, Int.natCast_nonneg size⟩

def hundred (drop : DropPolicy) : HandoffConfig := ⟨none, 0, 100, 0, drop, 0, 0⟩

def threeHints : HintQueue :=
  after (hundred .DropOldest)
    [.enqueue (setHint 1 1 20) 0, .enqueue (setHint 2 1 40) 0, .enqueue (setHint 3 1 40) 0]

/-- A newer second hint of 70 bytes does not fit even without the first one, which is gone. -/
theorem deltas_wrong :
    let q := (threeHints.offer none (setHint 2 2 70)).1
    let a := (threeHints.offer none (setHint 2 2 70)).2
    q.bytes = 100 ∧ q.items = 3 ∧ (q.enqueue a 0).1 = (false, 20, -1) ∧
      (q.enqueue a 0).2.bytes = 80 ∧ (q.enqueue a 0).2.items = 2 := by
  decide +kernel

/-- All hints that were queued still are, with the same content. -/
def Keeps (q q' : HintQueue) : Prop :=
  ∀ x, q.Queued x → q'.Queued x ∧ (q'.item x).content = (q.item x).content

theorem Keeps.refl (q : HintQueue) : Keeps q q := fun _ hx => ⟨hx, rfl⟩

/-- What is queued when the hint has been taken out again: all that has not been dropped. -/
theorem Back.keeps_iff (hback : Back q a q₁ q₂ q') (hent : Enters q a q₁) (hsheds : Sheds q₁ a q₂)
    (ha : ¬ q.Queued a) : Keeps q q' ↔ ∀ x, q₁.Queued x → q₂.Queued x := by
  constructor
  · intro hkeeps x hx
    rcases (hent.queued x).mp hx with ⟨hqx, hother⟩ | rfl
    · rcases (hback.queued x).mp (hkeeps x hqx).1 with ⟨hx₂, -⟩ | hold
      · exact hx₂
      · exact absurd hold hother
    · exact hsheds.avoids
  · intro hall x hqx
    have hne : x ≠ a := fun heq => ha (heq ▸ hqx)
    refine ⟨(hback.queued x).mpr ?_, hback.content x hne⟩
    by_cases hold : q.index (q.item a).key = some x
    · exact .inr hold
    · exact .inl ⟨hall x ((hent.queued x).mpr (.inl ⟨hqx, hold⟩)), hne⟩

/-- A rejected hint costs nothing, except under `DropOldest` if it does not fit and there is
something in front of it: that is dropped before `enqueue` finds that this does not help. -/
theorem rejected_keeps_iff (cfg : HandoffConfig) (calls : List Call)
    (p : Option (Fin (after cfg calls).nextItem)) (it : SizedItem) (now : Int) :
    let q := ((after cfg calls).offer p it).1
    let a := ((after cfg calls).offer p it).2
    ((q.enqueue a now).1.1 = false → Keeps q (q.enqueue a now).2) ↔
      (q.Fresh a now → q.drop = .DropOldest → q.Fits a now ∨ q.inFront a now = []) := by
  intro q a
  have h : Ready q a := after_ready cfg calls p it
  clear_value q a
  have hcases := enqueue_enqueues h.sound h.allocated h.sized now
  have hnot : q.Fresh a now → ¬ q.Queued a := h.not_queued
  generalize q.enqueue a now = r at hcases
  cases hcases with
  | away hstale => exact iff_of_true (fun _ => Keeps.refl q) fun hfresh => absurd hfresh hstale
  | taken hfresh hfits hent _ _ =>
    exact iff_of_true (fun hno => absurd hno.symm Bool.false_ne_true) fun _ hdrop =>
      .inl ((cleared_within_iff h (hnot hfresh) now hent).mp (hfits hdrop))
  | refused hfresh hdrop hent hback =>
    have hself := Sheds.refl hent.sound hent.new
    have hkeeps := (hback.keeps_iff hent hself (hnot hfresh)).mpr fun _ hx => hx
    exact iff_of_true (fun _ => hkeeps) fun _ hold => absurd hold hdrop
  | givenUp hfresh hdrop hfits hent hsheds hback =>
    have hkeeps := hback.keeps_iff hent hsheds (hnot hfresh)
    rw [dropped_iff h (hnot hfresh) now hent] at hkeeps
    rw [cleared_within_iff h (hnot hfresh) now hent] at hfits
    simp only [hfresh, hdrop, hfits, false_or, true_imp_iff, hkeeps]

/-- A single hint of 120 bytes is rejected, after the three hints have been dropped for it. -/
theorem rejected_loses :
    let q := (threeHints.offer none (setHint 4 1 120)).1
    let a := (threeHints.offer none (setHint 4 1 120)).2
    q.hints = [0, 1, 2] ∧ (q.enqueue a 0).1.1 = false ∧ (q.enqueue a 0).2.hints = [] := by
  decide +kernel

/-- Under `DropOldest` a newer hint is kept if and only if it fits together with those behind it. -/
theorem newest_kept_iff (cfg : HandoffConfig) (calls : List Call)
    (p : Option (Fin (after cfg calls).nextItem)) (it : SizedItem) (now : Int) :
    let q := ((after cfg calls).offer p it).1
    let a := ((after cfg calls).offer p it).2
    q.drop = .DropOldest → q.Fresh a now →
      ((q.enqueue a now).1.1 = true ∧ (q.enqueue a now).2.index (q.item a).key = some a ↔
        q.Fits a now) := by
  intro q a hdrop hfresh
  have h : Ready q a := after_ready cfg calls p it
  clear_value q a
  have hcases := enqueue_enqueues h.sound h.allocated h.sized now
  have hnot := h.not_queued hfresh
  generalize q.enqueue a now = r at hcases
  cases hcases with
  | away hstale => exact absurd hfresh hstale
  | taken _ hfits hent hsheds _ =>
    refine iff_of_true ⟨rfl, ?_⟩ ((cleared_within_iff h hnot now hent).mp (hfits hdrop))
    have hkey :=
      (HintItem.eq_of_content HintItem.key (fun _ => rfl) (hsheds.content a)).trans hent.key
    exact (hsheds.sound.rep.indexed _ a).mpr ⟨hkey, hsheds.avoids⟩
  | refused _ hother _ _ => exact absurd hdrop hother
  | givenUp _ _ hfits hent _ _ =>
    rw [cleared_within_iff h hnot now hent] at hfits
    exact iff_of_false (fun hacc => Bool.false_ne_true hacc.1) hfits

/-- A newer version of the last hint replaces it; the first one makes room. -/
theorem newest_kept_iff_last :
    let calls : List Call := [.enqueue (setHint 1 1 20) 0, .enqueue (setHint 2 1 80) 0]
    let q := ((after (hundred .DropOldest) calls).offer none (setHint 2 2 100)).1
    q.Fits 2 0 ∧ (q.enqueue 2 0).1.1 = true ∧ (q.enqueue 2 0).2.index [2] = some 2 := by
  intro calls q
  have hold : q.index [2] = some 1 := by decide +kernel
  have hfresh : q.Fresh 2 0 := by
    refine ⟨by decide +kernel, fun old hkey => ?_⟩
    cases hold.symm.trans hkey
    decide +kernel
  have hfits : q.Fits 2 0 := by
    rw [Fits]
    decide +kernel
  exact ⟨hfits,
    (newest_kept_iff (hundred .DropOldest) calls none (setHint 2 2 100) 0 rfl hfresh).mpr
    hfits⟩

/-- A newer version of the first hint is in front of the second one, and both have 110 bytes. -/
theorem newest_not_kept :
    let calls : List Call := [.enqueue (setHint 1 1 40) 0, .enqueue (setHint 2 1 40) 0]
    let q := ((after (hundred .DropOldest) calls).offer none (setHint 1 2 70)).1
    let a := ((after (hundred .DropOldest) calls).offer none (setHint 1 2 70)).2
    q.drop = .DropOldest ∧ (q.item a).expired q.ttl 0 = false ∧ (q.item a).size ≤ q.maxBytes ∧
      q.index [1] = some 0 ∧ (q.item 0).ver < (q.item a).ver ∧ (q.enqueue a 0).1.1 = false ∧
      (q.enqueue a 0).2.index [1] = some 0 := by
  decide +kernel

end HintQueue

end Kioshun
