import Kioshun.Cluster.Gossip

/-!
# Stale gossip about a pruned member

`pruneTombstones` forgets a silent member together with the time it was last seen, and
`integrate` takes every peer of a message without asking how old the news is. So what keeps
a pruned member out is not that the news is stale, but that nobody lists it any more.
-/

namespace Kioshun
open Schedule

namespace Membership
variable {m : Membership} {id : NodeID} {seen now after : Int}

/-- A listed member that was last seen before the threshold goes. -/
theorem not_listed_prune (hseen : m.seen id = some seen) (hold : seen < wrap64 (now - after)) :
    ¬(m.pruneTombstones now after).Listed id := by
  intro h
  have hexp := (listed_prune.mp h).2
  simp [expired, hseen, hold] at hexp

instance : Decidable (m.Listed id) := inferInstanceAs (Decidable (_ = true))

end Membership

namespace GossipNet
variable {ι : Type} (i : ι) (id : NodeID)

/-- The node `i` hears of `id` in the event only from others. -/
def Indirect (s : GossipNet ι) : Event ι → Prop
  | .ensure j x _ _ => j = i → x ≠ id
  | .deliver j k _ => j = i → ∀ g ∈ s.sent[k]?, g.FromID ≠ id
  | _ => True

/-- A message that `i` takes has no timestamp of `id` after `seen`. -/
def NotFresher (seen : Int) (s : GossipNet ι) : Event ι → Prop
  | .deliver j k _ => j = i → ∀ g ∈ s.sent[k]?, ∀ ts ∈ g.Seen id, ts ≤ seen
  | _ => True

/-- A message that `i` takes does not list `id` among its peers. -/
def Unlisted (s : GossipNet ι) : Event ι → Prop
  | .deliver j k _ => j = i → ∀ g ∈ s.sent[k]?, ∀ x ∈ g.Peers, x.ID ≠ id
  | _ => True

/-- The event is stale news about `id`, which `i` has last seen at `seen`. -/
def Stale (seen : Int) (s : GossipNet ι) (e : Event ι) : Prop :=
  Indirect i id s e ∧ NotFresher i id seen s e

section Steps
variable [DecidableEq ι] {Sum64 : Bytes → UInt64} {cfg : ι → MemberConfig} {s : GossipNet ι}
  {i : ι} {id : NodeID}

theorem listed_update {j : ι} {m : Membership} (h : ¬(s.mem i).Listed id) :
    ¬((s.update j m).mem i).Listed id ↔ (j = i → ¬m.Listed id) := by
  by_cases hj : j = i
  · subst hj
    simp [update]
  · simpa [update, Function.update_of_ne (Ne.symm hj), hj] using h

/-- An operation that lists nobody new. -/
theorem absent_quiet {j : ι} {m : Membership} (h : ¬(s.mem i).Listed id)
    (hm : m.Listed id → (s.mem j).Listed id) :
    ¬((s.update j m).mem i).Listed id ↔ True ∧ True := by
  refine (listed_update h).trans ⟨fun _ => ⟨trivial, trivial⟩, fun _ hj hid => ?_⟩
  exact h (hj ▸ hm hid)

/-- An absent member stays absent exactly if the event neither comes from it nor lists it. -/
theorem absent_step (h : ¬(s.mem i).Listed id) (e : Event ι) :
    ¬((s.step Sum64 cfg e).mem i).Listed id ↔ Indirect i id s e ∧ Unlisted i id s e := by
  cases e with
  | ensure j x addr now =>
    refine (listed_update h).trans ?_
    simp only [Indirect, Unlisted, and_true, Membership.listed_ensure]
    refine forall_congr' fun hj => ?_
    subst hj
    simp [h, eq_comm]
  | deliver j k now =>
    cases hk : s.sent[k]? with
    | none => simpa [step, Indirect, Unlisted, hk] using h
    | some g =>
      simp only [step, hk]
      refine (listed_update h).trans ?_
      simp only [Indirect, Unlisted, hk, Option.mem_some_iff, forall_eq',
        Membership.listed_integrate, ← forall_and]
      refine forall_congr' fun hj => ?_
      subst hj
      simp [h, eq_comm]
  | prime j => exact absent_quiet h fun hid => hid
  | setWeight j x weight =>
    have hpeers := (Membership.setWeight_reweighs (s.mem j) x weight).peers
    exact absent_quiet h fun hid => by rwa [Membership.Listed, ← hpeers]
  | prune j now after => exact absent_quiet h fun hid => (Membership.listed_prune.mp hid).1
  | bumpEpoch j => exact absent_quiet h fun hid => hid
  | send j addr Load TopK pick => exact ⟨fun _ => ⟨trivial, trivial⟩, fun _ => h⟩

/-- Once pruned, and with only stale news, a member stays out of the peers exactly if no message
lists it. -/
theorem pruned_absent_iff_unlisted (s : GossipNet ι) (seen now after : Int)
    (hseen : (s.mem i).seen id = some seen) (hold : seen < wrap64 (now - after))
    (es : List (Event ι))
    (hstale : Along (step Sum64 cfg) (Stale i id seen)
      (s.step Sum64 cfg (.prune i now after)) es) :
    (∀ fs, fs <+: es →
        ¬(((s.step Sum64 cfg (.prune i now after)).exec Sum64 cfg fs).mem i).Listed id) ↔
      Along (step Sum64 cfg) (Unlisted i id) (s.step Sum64 cfg (.prune i now after)) es := by
  have hpruned : ¬((s.step Sum64 cfg (.prune i now after)).mem i).Listed id := by
    simpa [step, update] using Membership.not_listed_prune hseen hold
  refine (prefixes_iff_along (I := fun _ => True)
    (Q := fun s : GossipNet ι => ¬(s.mem i).Listed id) (fun _ _ _ => trivial)
    (fun _ e _ h => absent_step h e) trivial hpruned).trans ?_
  exact along_and.trans (and_iff_right (along_and.mp hstale).1)

end Steps

/-- Two nodes know of a third. The first prunes it; the second has not yet, and gossips. -/
theorem pruned_listed_again :
    let es : List (Event Bool) :=
      [.ensure false [1] "a" 90, .ensure true [2] "b" 95, .ensure false [3] "c" 10,
        .ensure true [3] "c" 10, .send true (fun _ => "") ⟨0, 0, 0, 0⟩ [] fun n => n]
    let cfg : Bool → MemberConfig := fun i => ⟨if i then [2] else [1], "", 1, 0, 0, 0, ""⟩
    let s := start.exec (fun _ => 0) cfg es
    let pruned := s.step (fun _ => 0) cfg (.prune false 100 50)
    ((s.mem false).seen [3] = some 10 ∧ (10 : Int) < wrap64 (100 - 50) ∧
        ¬(pruned.mem false).Listed [3]) ∧
      Along (step (fun _ => 0) cfg) (Stale false [3] 10) pruned [.deliver false 0 100] ∧
      ((pruned.exec (fun _ => 0) cfg [.deliver false 0 100]).mem false).Listed [3] := by
  refine ⟨by decide, ⟨⟨?_, ?_⟩, trivial⟩, by decide⟩
  · intro _ g hg
    obtain rfl := Option.some.inj hg
    decide
  · intro _ g hg ts hts
    obtain rfl := Option.some.inj hg
    obtain rfl := Option.some.inj hts
    decide

/-- The same node takes a message that does not list the pruned member. -/
theorem pruned_absent_unlisted :
    let es : List (Event Bool) :=
      [.ensure false [1] "a" 90, .ensure true [2] "b" 95, .ensure false [3] "c" 10,
        .send true (fun _ => "") ⟨0, 0, 0, 0⟩ [] fun n => n]
    let cfg : Bool → MemberConfig := fun i => ⟨if i then [2] else [1], "", 1, 0, 0, 0, ""⟩
    let s := start.exec (fun _ => 0) cfg es
    let pruned := s.step (fun _ => 0) cfg (.prune false 100 50)
    (s.mem false).Listed [3] ∧ ∀ fs, fs <+: [.deliver false 0 100] →
      ¬((pruned.exec (fun _ => 0) cfg fs).mem false).Listed [3] := by
  refine ⟨by decide, (pruned_absent_iff_unlisted _ 10 100 50 rfl (by decide) _ ?_).mpr ?_⟩
  · refine ⟨⟨?_, ?_⟩, trivial⟩
    · intro _ g hg
      obtain rfl := Option.some.inj hg
      decide
    · intro _ g hg ts hts
      obtain rfl := Option.some.inj hg
      cases hts
  · refine ⟨?_, trivial⟩
    intro _ g hg
    obtain rfl := Option.some.inj hg
    decide

end GossipNet

end Kioshun
