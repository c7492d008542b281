import Kioshun.Cluster.HlcSpec
import Kioshun.Cluster.Wire
import Kioshun.Lib.Schedule

/-!
# Hybrid logical clocks over whole runs

`Next` and `Observe` are called in any order, with any readings of the wall clock and any
remote versions. The versions ascend as long as the milliseconds fit into their 48 bits;
a remote version can bring the clock to the end of them at once. The byte of the node is
all that separates the versions of two nodes.
-/

namespace Kioshun

namespace Hlc
open Schedule List

inductive Op where
  | next (now : Int)
  | observe (remote : UInt64) (now : Int)

def Op.now : Op → Int
  | .next now => now
  | .observe _ now => now

structure Watched where
  clock : Hlc
  issued : List UInt64
  observed : List UInt64

namespace Watched
variable {s : Watched} {h : Hlc} {op : Op} {ops : List Op} {B now : Int} {k : Nat}

def start (nodeID : UInt16) : Watched := ⟨newHLC nodeID, [], []⟩

def step (s : Watched) : Op → Watched
  | .next now => ⟨(s.clock.Next now).2, (s.clock.Next now).1 :: s.issued, s.observed⟩
  | .observe remote now => ⟨s.clock.Observe remote now, s.issued, remote :: s.observed⟩

def seen (s : Watched) : List UInt64 := s.issued ++ s.observed

/-- What `Next` returns is greater than all that was issued or observed before. -/
def Ascends (s : Watched) : Op → Prop
  | .next now => ∀ v ∈ s.seen, v < (s.clock.Next now).1
  | .observe _ _ => True

/-- The clock has a stamp left for `Next`. The milliseconds of the clock itself are an `int64`. -/
def Roomy (s : Watched) : Op → Prop
  | .next _ => s.clock.stamp + 1 < 2 ^ 56
  | .observe _ _ => s.clock.physMS < 2 ^ 62

instance (s : Watched) : (op : Op) → Decidable (s.Roomy op)
  | .next _ => inferInstanceAs (Decidable (_ < _))
  | .observe _ _ => inferInstanceAs (Decidable (_ < _))

variable (nodeID : UInt16)

theorem stamp_start : (start nodeID).clock.stamp = 0 := by
  simp [start, newHLC, stamp]

structure Ahead (s : Watched) : Prop where
  sane : s.clock.Sane (2 ^ 62)
  seen : ∀ v ∈ s.seen, stampOf v ≤ s.clock.stamp

theorem start_ahead : (start nodeID).Ahead :=
  ⟨newHLC_sane nodeID (by norm_num), fun _ hv => absurd hv not_mem_nil⟩

theorem stampOf_div_le (v : UInt64) : ((stampOf v / 256 : Nat) : Int) ≤ 2 ^ 48 - 1 := by
  have hlt := v.toNat_lt
  rw [stampOf]
  omega

theorem sane_of_stamp (hs : h.Sane B) (n : Nat) (hlt : h.stamp < n * 256) : h.Sane (n - 1) := by
  have h0 := hs.nonneg
  rw [stamp] at hlt
  exact ⟨h0, by omega, hs.seq⟩

/-- With a stamp left, the version that `Next` returns has the new stamp of the clock. -/
theorem Next_roomy (hs : h.Sane B) (hroom : h.stamp + 1 < 2 ^ 56) (hnow : now < 2 ^ 47) :
    (h.Next now).2.Sane (2 ^ 62) ∧ h.stamp < (h.Next now).2.stamp ∧
      stampOf (h.Next now).1 = (h.Next now).2.stamp := by
  have hs₀ := sane_of_stamp hs (2 ^ 48) (by omega)
  have hwall : now ≤ ((2 ^ 48 : Nat) : Int) - 1 + 1 := by
    push_cast
    omega
  obtain ⟨hs₁, hlt, -⟩ := Next_spec hs₀ (by norm_num) hwall
  have hstamp : (h.Next now).2.stamp < 2 ^ 48 * 256 := by
    rw [stamp_Next hs₀ (by norm_num)]
    split_ifs <;> omega
  exact ⟨hs₁.mono (by norm_num), hlt, (stampOf_Next (sane_of_stamp hs₁ _ hstamp)).2 (by norm_num)⟩

theorem mem_seen_next {v : UInt64} :
    v ∈ (s.step (.next now)).seen ↔ v = (s.clock.Next now).1 ∨ v ∈ s.seen := by
  simp only [step, seen, cons_append, mem_cons]

theorem mem_seen_observe {remote v : UInt64} :
    v ∈ (s.step (.observe remote now)).seen ↔ v = remote ∨ v ∈ s.seen := by
  simp only [step, seen, mem_append, mem_cons]
  tauto

theorem Ahead.step (h : s.Ahead) (hop : s.Roomy op ∧ op.now < 2 ^ 47) : (s.step op).Ahead := by
  obtain ⟨hroom, hnow⟩ := hop
  cases op with
  | next now =>
    obtain ⟨hsane, hlt, hver⟩ := Next_roomy h.sane hroom hnow
    refine ⟨hsane, fun v hv => ?_⟩
    rcases mem_seen_next.mp hv with rfl | hv
    · exact hver.le
    · exact (h.seen v hv).trans hlt.le
  | observe remote now =>
    have hphys : s.clock.physMS < 2 ^ 62 := hroom
    have hnow' : now < 2 ^ 47 := hnow
    have hremote := stampOf_div_le remote
    have hs : s.clock.Sane (2 ^ 62 - 1) := ⟨h.sane.nonneg, by omega, h.sane.seq⟩
    have hwall : now ≤ 2 ^ 62 - 1 + 1 := by omega
    obtain ⟨hsane, hself, hgreater⟩ := Observe_spec hs (by norm_num) hwall
      (hremote.trans (by norm_num))
    refine ⟨hsane, fun v hv => ?_⟩
    rcases mem_seen_observe.mp hv with rfl | hv
    · exact hgreater.le
    · exact (h.seen v hv).trans hself.le

theorem Ahead.ascends (h : s.Ahead) (hop : s.Roomy op ∧ op.now < 2 ^ 47) : s.Ascends op := by
  obtain ⟨hroom, hnow⟩ := hop
  cases op with
  | next now =>
    obtain ⟨-, hlt, hver⟩ := Next_roomy h.sane hroom hnow
    intro v hv
    apply lt_of_stampOf_lt
    exact ((h.seen v hv).trans_lt hlt).trans_eq hver.symm
  | observe _ _ => trivial

/-- The clock is at most `k` stamps past the wall or a version that it has seen. -/
def Near (k : Nat) (s : Watched) : Prop :=
  s.clock.stamp ≤ 2 ^ 55 + k ∨ ∃ v ∈ s.seen, s.clock.stamp ≤ stampOf v + k

theorem Near.stamp_lt (h : s.Near k) (hk : k ≤ 2 ^ 55) : s.clock.stamp < 2 ^ 49 * 256 := by
  rcases h with hwall | ⟨v, -, hv⟩
  · omega
  · have hlt := v.toNat_lt
    rw [stampOf] at hv
    omega

theorem Near.mono {s' : Watched} (h : s.Near k) (hseen : ∀ v ∈ s.seen, v ∈ s'.seen)
    (hstamp : s'.clock.stamp ≤ s.clock.stamp + 1) : s'.Near (k + 1) := by
  rcases h with hwall | ⟨v, hv, hle⟩
  · exact .inl (by omega)
  · exact .inr ⟨v, hseen v hv, by omega⟩

theorem Near.step (h : s.Near k) (hs : s.clock.Sane B) (hk : k ≤ 2 ^ 55) (hnow : op.now < 2 ^ 47) :
    (s.step op).Near (k + 1) ∧ (s.step op).clock.Sane (2 ^ 49) := by
  have hs' := sane_of_stamp hs _ (h.stamp_lt hk)
  have hlate : op.now ≤ ((2 ^ 49 : Nat) : Int) - 1 + 1 := by
    push_cast
    omega
  cases op with
  | next now =>
    have hnow' : now < 2 ^ 47 := hnow
    obtain ⟨hsane, -, -⟩ := Next_spec hs' (by norm_num) hlate
    have hstamp : (s.clock.Next now).2.stamp = _ := stamp_Next hs' (by norm_num)
    refine ⟨?_, hsane.mono (by norm_num)⟩
    by_cases hwall : s.clock.physMS < now
    · rw [if_pos hwall] at hstamp
      refine .inl (hstamp.trans_le ?_)
      omega
    · rw [if_neg hwall] at hstamp
      exact h.mono (fun v hv => mem_seen_next.mpr (.inr hv)) hstamp.le
  | observe remote now =>
    have hnow' : now < 2 ^ 47 := hnow
    have hremote := stampOf_div_le remote
    have hrem : ((stampOf remote / 256 : Nat) : Int) ≤ ((2 ^ 49 : Nat) : Int) - 1 := by
      push_cast
      omega
    obtain ⟨hsane, -, -⟩ := Observe_spec hs' (by norm_num) hlate hrem
    refine ⟨?_, hsane.mono (by norm_num)⟩
    rcases lt_or_ge (max s.clock.physMS (unpackHLC remote).1) now with hwall | hstamps
    · refine .inl ?_
      simp only [Watched.step, Observe_of_wall hwall, stamp, UInt16.toNat_zero]
      omega
    · have hstamp := (Observe_of_stamps hs' (by norm_num) hrem hstamps).2
      rcases le_total (stampOf remote) s.clock.stamp with hle | hge
      · rw [max_eq_left hle] at hstamp
        exact h.mono (fun v hv => mem_seen_observe.mpr (.inr hv)) hstamp.le
      · rw [max_eq_right hge] at hstamp
        exact .inr ⟨remote, mem_seen_observe.mpr (.inl rfl), by
          show (s.clock.Observe remote now).stamp ≤ _
          omega⟩

/-- Past the last stamp the milliseconds start again at zero, below what brought the clock there. -/
theorem Near.room (h : s.Near k) (hs : s.clock.Sane B) (hk : k + 1 < 2 ^ 55) (hnow : now < 2 ^ 47)
    (hasc : s.Ascends (.next now)) : s.clock.stamp + 1 < 2 ^ 56 := by
  by_contra hfull
  have hlast := h.stamp_lt (by omega)
  have hs' := sane_of_stamp hs _ hlast
  have hwall : ¬ s.clock.physMS < now := by
    have hseq := hs.seq
    have hstamp : s.clock.stamp = s.clock.physMS.toNat * 256 + s.clock.seq.toNat := rfl
    omega
  have hstamp : (s.clock.Next now).2.stamp = _ := stamp_Next hs' (by norm_num)
  rw [if_neg hwall] at hstamp
  have hlate : now ≤ ((2 ^ 49 : Nat) : Int) - 1 + 1 := by
    push_cast
    omega
  obtain ⟨hsane, -, -⟩ := Next_spec hs' (by norm_num) hlate
  have hver := stampOf_Next_mod hsane
  rw [hstamp] at hver
  rcases h with hle | ⟨v, hv, hle⟩
  · omega
  · have hstart := stampOf_le (UInt64.le_of_lt (hasc v hv))
    omega

theorem roomy_of_ascends (hs : s.clock.Sane B) (hnear : s.Near k) (hk : k + ops.length < 2 ^ 55)
    (hnow : ∀ op ∈ ops, op.now < 2 ^ 47) (hasc : Along step Ascends s ops) :
    Along step Roomy s ops := by
  induction ops generalizing s k B with
  | nil => trivial
  | cons op ops ih =>
    obtain ⟨hhead, htail⟩ := hasc
    rw [length_cons] at hk
    have hnow₀ := hnow op mem_cons_self
    obtain ⟨hnear', hs'⟩ := hnear.step hs (by omega) hnow₀
    refine ⟨?_, ih hs' hnear' (by omega) (fun o ho => hnow o (mem_cons_of_mem op ho)) htail⟩
    cases op with
    | next now => exact hnear.room hs (by omega) hnow₀ hhead
    | observe remote now =>
      have hlt := (sane_of_stamp hs _ (hnear.stamp_lt (by omega))).le
      show s.clock.physMS < 2 ^ 62
      push_cast at hlt
      omega

/-- The versions ascend in every run in which the clock has a stamp left at each `Next`. Within 2^55
calls they do not ascend otherwise. -/
theorem Next_ascends (nodeID : UInt16) (ops : List Op) (hnow : ∀ op ∈ ops, op.now < 2 ^ 47) :
    (Along step Roomy (start nodeID) ops → Along step Ascends (start nodeID) ops) ∧
      (ops.length < 2 ^ 55 → Along step Ascends (start nodeID) ops →
        Along step Roomy (start nodeID) ops) := by
  constructor
  · intro hroomy
    exact along_imp (fun _ _ => Ahead.step) (fun _ _ => Ahead.ascends) (start_ahead nodeID)
      (along_and.mpr ⟨hroomy, along_of_forall hnow⟩)
  · intro hlength
    have hnear : (start nodeID).Near 0 := .inl ((stamp_start nodeID).trans_le (Nat.zero_le _))
    exact roomy_of_ascends (start_ahead nodeID).sane hnear (by omega) hnow

/-- A clock that steps back, and a version from the future. -/
theorem Next_ascends_back :
    Along step Ascends (start 1) [.next 1000, .observe 0x7ffffffff00ff07 900, .next 800] :=
  (Next_ascends 1 [.next 1000, .observe 0x7ffffffff00ff07 900, .next 800] (by decide)).1
    (by decide +kernel)

/-- The greatest remote version: the next one starts again at zero. -/
theorem Next_descends :
    let s := exec step (start 1) [.next 1000, .observe 0xffffffffffffffff 1000]
    s.issued = [0x3e80001] ∧ (s.clock.Next 1000).1 = 0x101 := by
  decide +kernel

section Nodes
variable {id id' : NodeID}

def clockOf (Sum64String : NodeID → UInt64) (id : NodeID) : Watched :=
  start (Sum64String id).toUInt16

theorem nodeID_bump (h : Hlc) : h.bump.nodeID = h.nodeID := by
  unfold bump
  split_ifs <;> rfl

theorem nodeID_follow (h : Hlc) (phys : Int) (seq : UInt16) :
    (h.follow phys seq).nodeID = h.nodeID := by
  unfold follow
  simp only
  split_ifs <;> rfl

theorem nodeID_Next (h : Hlc) (now : Int) : (h.Next now).2.nodeID = h.nodeID := by
  unfold Next
  simp only
  split_ifs
  · rfl
  · exact nodeID_bump h

theorem nodeID_Observe (h : Hlc) (remote : UInt64) (now : Int) :
    (h.Observe remote now).nodeID = h.nodeID := by
  unfold Observe
  simp only
  split_ifs <;> first | exact nodeID_follow h _ _ | exact nodeID_bump h | rfl

/-- All versions that the clock has issued end in the byte of its node. -/
def Signed (b : Nat) (s : Watched) : Prop :=
  s.clock.nodeID.toNat % 256 = b ∧ ∀ v ∈ s.issued, v.toNat % 256 = b

theorem Signed.step {b : Nat} (h : s.Signed b) (op : Op) : (s.step op).Signed b := by
  cases op with
  | next now =>
    refine ⟨?_, fun v hv => ?_⟩
    · show (s.clock.Next now).2.nodeID.toNat % 256 = b
      rw [nodeID_Next, h.1]
    · rcases mem_cons.mp hv with rfl | hv
      · have hpack := toNat_packHLC (s.clock.Next now).2.physMS (s.clock.Next now).2.seq
          (s.clock.Next now).2.nodeID
        have hver : (s.clock.Next now).1 = packHLC (s.clock.Next now).2.physMS
          (s.clock.Next now).2.seq (s.clock.Next now).2.nodeID := rfl
        rw [hver, hpack, nodeID_Next, h.1]
        have hbyte := h.1
        omega
      · exact h.2 v hv
  | observe remote now =>
    refine ⟨?_, h.2⟩
    show (s.clock.Observe remote now).nodeID.toNat % 256 = b
    rw [nodeID_Observe, h.1]

theorem toNat_nodeID : (newHLC nodeID).nodeID.toNat = nodeID.toNat % 256 := by
  simp only [newHLC, hlcNodeMask, UInt16.toNat_and, UInt16.toNat_ofNat, Nat.reducePow,
    Nat.reduceMod]
  exact Nat.and_two_pow_sub_one_eq_mod nodeID.toNat 8

variable (Sum64String : NodeID → UInt64)

theorem toNat_clockOf (id : NodeID) :
    (clockOf Sum64String id).clock.nodeID.toNat = (Sum64String id).toNat % 256 := by
  rw [clockOf, start, toNat_nodeID, UInt64.toNat_toUInt16]
  omega

theorem clockOf_signed (id : NodeID) :
    (clockOf Sum64String id).Signed ((Sum64String id).toNat % 256) := by
  refine ⟨?_, fun v hv => absurd hv not_mem_nil⟩
  rw [toNat_clockOf, Nat.mod_mod]

/-- Two nodes never issue the same version if and only if the hashes of their IDs differ in the byte
that the clock keeps. -/
theorem issued_disjoint_iff (Sum64String : NodeID → UInt64) (id id' : NodeID) :
    (∀ ops ops', List.Disjoint (exec step (clockOf Sum64String id) ops).issued
        (exec step (clockOf Sum64String id') ops').issued) ↔
      (Sum64String id).toNat % 256 ≠ (Sum64String id').toNat % 256 := by
  constructor
  · intro hdisjoint heq
    -- with the same byte the two clocks are the same
    have hnode : (clockOf Sum64String id).clock.nodeID =
        (clockOf Sum64String id').clock.nodeID := by
      rw [← UInt16.toNat_inj, toNat_clockOf, toNat_clockOf, heq]
    have hclock : clockOf Sum64String id = clockOf Sum64String id' := by
      simp only [clockOf, start, newHLC] at hnode ⊢
      rw [hnode]
    have hfirst := hdisjoint [.next 1] [.next 1]
    rw [hclock] at hfirst
    exact hfirst mem_cons_self mem_cons_self
  · intro hne ops ops' v hv hv'
    have hsigned : (exec step (clockOf Sum64String id) ops).Signed _ :=
      exec_invariant (fun _ op h => h.step op) (clockOf_signed Sum64String id)
    have hsigned' : (exec step (clockOf Sum64String id') ops').Signed _ :=
      exec_invariant (fun _ op h => h.step op) (clockOf_signed Sum64String id')
    exact hne ((hsigned.2 v hv).symm.trans (hsigned'.2 v hv'))

/-- The hash of two IDs need not differ in that byte. -/
theorem issued_shared :
    let Sum64String : NodeID → UInt64 := fun id => 256 * (id.headD 0).toUInt64
    ([1] : NodeID) ≠ [2] ∧ (exec step (clockOf Sum64String [1]) [.next 1000]).issued =
      (exec step (clockOf Sum64String [2]) [.next 1000]).issued ∧
      (exec step (clockOf Sum64String [1]) [.next 1000]).issued ≠ [] := by
  decide +kernel

end Nodes

end Watched

end Hlc

end Kioshun
