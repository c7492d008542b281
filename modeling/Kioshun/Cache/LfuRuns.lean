import Kioshun.Cache.Lfu
import Kioshun.Lib.Schedule

/-!
# Runs of the frequency index

Every sequence of operations on an `lfuList`, together with the `frequency` fields that
`add` and `increment` write into the items.
-/

namespace Kioshun

open LinkedList CellStore CellStore.Store Function

structure LfuItems where
  index : LfuList
  frequency : Addr → Int

namespace LfuItems

inductive Op where
  | add (item : Addr)
  | increment (item : Addr)
  | remove (item : Addr)
  | removeLFU (pick : Nat → Nat)

def step (s : LfuItems) : Op → LfuItems
  | .add item => ⟨s.index.add item, update s.frequency item 1⟩
  | .increment item =>
    ⟨(s.index.increment item).1, update s.frequency item (s.index.increment item).2⟩
  | .remove item => ⟨s.index.remove item, s.frequency⟩
  | .removeLFU pick => ⟨(s.index.removeLFU pick).1, s.frequency⟩

/-- The items may have any frequency before they are added. -/
def start (frequency : Addr → Int) : LfuItems := ⟨LfuList.newLFUList, frequency⟩

def exec (s : LfuItems) (ops : List Op) : LfuItems := Schedule.exec step s ops

def Untracked (s : LfuItems) : Op → Prop
  | .add item => s.index.itemFreq.lookup item = none
  | _ => True

instance (s : LfuItems) : (op : Op) → Decidable (s.Untracked op)
  | .add item => inferInstanceAs (Decidable (s.index.itemFreq.lookup item = none))
  | .increment _ | .remove _ | .removeLFU _ => inferInstanceAs (Decidable True)

/-- The index after `n` operations. A frequency has been counted up one by one, so an `int64`
holds it as long as there have been fewer than `2 ^ 63` operations. -/
structure Sound (n : Nat) (s : LfuItems) : Prop where
  rep : ∃ bs, s.index.Rep bs
  frequency : ∀ a g, s.index.freqOf a = some g → s.frequency a = g
  counted : ∀ a g, s.index.freqOf a = some g → g ≤ n

section Steps
variable {s : LfuItems} {n : Nat}

theorem Sound.tracks (h : s.Sound n) : s.index.Tracks s.index.freqOf := ⟨h.rep, rfl⟩

theorem start_sound (frequency : Addr → Int) : (start frequency).Sound 0 := by
  have hnone : ∀ a g, (start frequency).index.freqOf a ≠ some g := by
    intro a g
    rw [start, LfuList.newLFUList_tracks.2]
    exact nofun
  exact ⟨⟨[], LfuList.newLFUList_rep⟩, fun a g ha => absurd ha (hnone a g),
    fun a g ha => absurd ha (hnone a g)⟩

variable {l : LfuList}

/-- One item gets a frequency, in the index and in its field. -/
theorem Sound.set (h : s.Sound n) {item : Addr} {f : Int} (hf : f ≤ n + 1)
    (hl : l.Tracks (update s.index.freqOf item (some f))) :
    (LfuItems.mk l (update s.frequency item f)).Sound (n + 1) := by
  have hfreq : ∀ a g, l.freqOf a = some g →
      a = item ∧ f = g ∨ a ≠ item ∧ s.index.freqOf a = some g := by
    intro a g ha
    rw [hl.2] at ha
    by_cases hai : a = item
    · subst hai
      rw [update_self] at ha
      exact .inl ⟨rfl, Option.some.inj ha⟩
    · rw [update_of_ne hai] at ha
      exact .inr ⟨hai, ha⟩
  refine ⟨hl.1, fun a g ha => ?_, fun a g ha => ?_⟩
  · rcases hfreq a g ha with ⟨rfl, rfl⟩ | ⟨hai, ha⟩
    · exact update_self ..
    · exact (update_of_ne hai ..).trans (h.frequency a g ha)
  · rcases hfreq a g ha with ⟨rfl, rfl⟩ | ⟨hai, ha⟩
    · exact_mod_cast hf
    · exact (h.counted a g ha).trans (by omega)

theorem Sound.forget (h : s.Sound n) {item : Addr}
    (hl : l.Tracks (update s.index.freqOf item none)) :
    (LfuItems.mk l s.frequency).Sound (n + 1) := by
  have hfreq : ∀ a g, l.freqOf a = some g → s.index.freqOf a = some g := by
    intro a g ha
    rw [hl.2] at ha
    by_cases hai : a = item
    · subst hai
      rw [update_self] at ha
      cases ha
    · rwa [update_of_ne hai] at ha
  refine ⟨hl.1, fun a g ha => h.frequency a g (hfreq a g ha), fun a g ha => ?_⟩
  exact (h.counted a g (hfreq a g ha)).trans (by omega)

theorem freqOf_eq_none {a : Addr} : l.freqOf a = none ↔ l.itemFreq.lookup a = none :=
  Option.map_eq_none_iff

theorem step_sound (h : s.Sound n) (op : Op) (hop : s.Untracked op) :
    (s.step op).Sound (n + 1) := by
  have hadd : ∀ item, s.index.itemFreq.lookup item = none →
      (s.step (.add item)).Sound (n + 1) := fun item hitem =>
    h.set (by omega) (LfuList.add_tracks h.tracks (freqOf_eq_none.mpr hitem))
  cases op with
  | add item => exact hadd item hop
  | increment item =>
    cases hlk : s.index.freqOf item with
    | none =>
      -- the defensive branch adds the item
      have hitem := freqOf_eq_none.mp hlk
      have heq : s.step (.increment item) = s.step (.add item) := by
        simp only [step, LfuList.increment, hitem]
      rw [heq]
      exact hadd item hitem
    | some g =>
      obtain ⟨htracks, hnew⟩ := LfuList.increment_tracks h.tracks hlk
      have hg := h.counted item g hlk
      have hset := h.set (by omega) htracks
      rwa [← hnew] at hset
  | remove item => exact h.forget (LfuList.remove_tracks h.tracks item)
  | removeLFU pick =>
    have hlfu := LfuList.removeLFU_tracks h.tracks pick
    cases hv : (s.index.removeLFU pick).2 with
    | none =>
      simp only [hv] at hlfu
      have hsame : s.step (.removeLFU pick) = s := by rw [step, hlfu.2]
      rw [hsame]
      exact ⟨h.rep, h.frequency, fun a g ha => (h.counted a g ha).trans (by omega)⟩
    | some victim =>
      simp only [hv] at hlfu
      exact h.forget hlfu.2

theorem exec_sound (h : s.Sound n) (ops : List Op)
    (hops : Schedule.Along step Untracked s ops) : (s.exec ops).Sound (n + ops.length) := by
  induction ops generalizing s n with
  | nil => exact h
  | cons op ops ih =>
    have hstep := ih (step_sound h op hops.1) hops.2
    rwa [Nat.add_assoc, Nat.add_comm 1] at hstep

end Steps

/-- After every run the buckets are a circular list of ascending frequencies, none is empty, both
maps are exact and agree with the items, and `removeLFU` takes an item of least frequency. -/
theorem exec_index (frequency : Addr → Int) (ops : List Op)
    (hops : Schedule.Along step Untracked (start frequency) ops) :
    let s := (start frequency).exec ops
    (∃ bs, s.index.Rep bs) ∧
      (∀ a b, s.index.itemFreq.lookup a = some b → s.frequency a = s.index.freq b) ∧
      (∀ a b, s.index.itemFreq.lookup a = some b → s.index.freq b ≤ ops.length) ∧
      ∀ pick, match (s.index.removeLFU pick).2 with
        | none => ∀ a, s.index.itemFreq.lookup a = none
        | some victim =>
          (∃ b, s.index.itemFreq.lookup victim = some b ∧
            ∀ a c, s.index.itemFreq.lookup a = some c → s.index.freq b ≤ s.index.freq c) ∧
          (s.index.removeLFU pick).1.freqOf = update s.index.freqOf victim none := by
  have hsound := exec_sound (start_sound frequency) ops hops
  have hmap : ∀ a b, ((start frequency).exec ops).index.itemFreq.lookup a = some b →
      ((start frequency).exec ops).index.freqOf a =
        some (((start frequency).exec ops).index.freq b) :=
    fun a b hb => Option.map_eq_some_iff.mpr ⟨b, hb, rfl⟩
  refine ⟨hsound.rep, fun a b hb => hsound.frequency a _ (hmap a b hb), fun a b hb => ?_,
    fun pick => ?_⟩
  · have hle := hsound.counted a _ (hmap a b hb)
    rwa [Nat.zero_add] at hle
  · have hlfu := LfuList.removeLFU_tracks hsound.tracks pick
    cases hv : (((start frequency).exec ops).index.removeLFU pick).2 with
    | none =>
      simp only [hv] at hlfu
      exact fun a => freqOf_eq_none.mp (hlfu.1 a)
    | some victim =>
      simp only [hv] at hlfu
      obtain ⟨⟨g, hg, hmin⟩, htracks⟩ := hlfu
      obtain ⟨b, hb, rfl⟩ := Option.map_eq_some_iff.mp hg
      exact ⟨⟨b, hb, fun a c hc => hmin a _ (hmap a c hc)⟩, htracks.2⟩

/-- Of two items one is read, and the other goes. -/
theorem exec_index_two :
    let s := (start fun _ => 0).exec [.add 7, .add 8, .increment 7]
    ((s.index.removeLFU fun n => n).2 = some 8 ∧ s.frequency 7 = 2) ∧
      (∃ bs, s.index.Rep bs) ∧
      ∀ a b, s.index.itemFreq.lookup a = some b → s.frequency a = s.index.freq b :=
  have hrun := exec_index (fun _ => 0) [.add 7, .add 8, .increment 7] (by decide)
  ⟨by decide, hrun.1, hrun.2.1⟩

end LfuItems

end Kioshun
