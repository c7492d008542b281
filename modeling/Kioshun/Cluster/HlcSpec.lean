import Kioshun.Cluster.Hlc

/-!
# Hybrid logical clocks move forward

The milliseconds and the sequence number of a clock are read as one number, its
stamp. A version carries the stamp of the clock that issued it above the byte of
the node, so versions compare as stamps do. `Next` raises the stamp, and `Observe`
raises it above that of the remote version as well.
-/

namespace Kioshun

def stampOf (ver : UInt64) : Nat := ver.toNat / 256

theorem lt_of_stampOf_lt {a b : UInt64} (h : stampOf a < stampOf b) : a < b := by
  rw [UInt64.lt_iff_toNat_lt]
  unfold stampOf at h
  omega

theorem stampOf_le {a b : UInt64} (h : a ≤ b) : stampOf a ≤ stampOf b :=
  Nat.div_le_div_right (UInt64.le_iff_toNat_le.mp h)

variable (ver : UInt64)

theorem unpackHLC_fst : (unpackHLC ver).1 = ((stampOf ver / 256 : Nat) : Int) := by
  simp only [unpackHLC, stampOf, UInt64.toNat_shiftRight, Nat.shiftRight_eq_div_pow,
    UInt64.toNat_ofNat, Nat.reducePow, Nat.reduceMod, Nat.div_div_eq_div_mul, Nat.reduceMul]

theorem toNat_splitLogical_fst : (splitLogical (unpackHLC ver).2).1.toNat = stampOf ver % 256 := by
  have hlow : ver.toNat &&& 65535 = ver.toNat % 65536 := Nat.and_two_pow_sub_one_eq_mod _ 16
  have hseq : (ver.toNat % 65536 / 256) &&& 255 = (ver.toNat % 65536 / 256) % 256 :=
    Nat.and_two_pow_sub_one_eq_mod _ 8
  simp only [splitLogical, unpackHLC, stampOf, hlcSeqMask, UInt16.toNat_and,
    UInt16.toNat_shiftRight, Nat.shiftRight_eq_div_pow, UInt64.toNat_toUInt16, UInt64.toNat_and,
    UInt16.toNat_ofNat, UInt64.toNat_ofNat, Nat.reducePow, Nat.reduceMod, hlow, Nat.mod_mod, hseq]
  omega

theorem stampOf_eq : stampOf ver =
    (unpackHLC ver).1.toNat * 256 + (splitLogical (unpackHLC ver).2).1.toNat := by
  rw [unpackHLC_fst, toNat_splitLogical_fst, Int.toNat_natCast]
  omega

theorem maxOf_eq (a b c : Int) : maxOf a b c = max (max a b) c := by
  simp only [maxOf]
  split_ifs <;> omega

section Lexicographic
variable {a b : Int} {s : Nat}

/-! Stamps compare by the milliseconds first. -/

theorem stamp_lt_of_lt (t : Nat) (h0 : 0 ≤ a) (hab : a < b) (hs : s ≤ 255) :
    a.toNat * 256 + s < b.toNat * 256 + t := by
  omega

end Lexicographic

namespace Hlc
variable {h : Hlc} {B now : Int} {remote : UInt64}

/-- The milliseconds and the sequence number as one number. -/
def stamp (h : Hlc) : Nat := h.physMS.toNat * 256 + h.seq.toNat

structure Sane (B : Int) (h : Hlc) : Prop where
  nonneg : 0 ≤ h.physMS
  le : h.physMS ≤ B
  seq : h.seq.toNat ≤ 255

theorem Sane.mono {B' : Int} (hs : h.Sane B) (hB : B ≤ B') : h.Sane B' :=
  ⟨hs.nonneg, hs.le.trans hB, hs.seq⟩

theorem newHLC_sane (nodeID : UInt16) (hB : 0 ≤ B) : (newHLC nodeID).Sane B :=
  ⟨le_refl 0, hB, Nat.zero_le _⟩

theorem wrap64_succ {x : Int} (h0 : 0 ≤ x) (hx : x < 2 ^ 62) : wrap64 (x + 1) = x + 1 :=
  wrap64_of_mem (by omega) (by omega)

theorem toNat_seq_succ {seq : UInt16} (hseq : seq.toNat ≤ 255) :
    (seq + 1).toNat = seq.toNat + 1 := by
  rw [UInt16.toNat_add, UInt16.toNat_one]
  omega

/-- `follow` is one above the stamp of `seq` at `phys`. -/
theorem follow_spec {seq : UInt16} (h : Hlc) (phys : Int) (h0 : 0 ≤ phys) (hle : phys ≤ B)
    (hB : B < 2 ^ 62) (hseq : seq.toNat ≤ 255) :
    (h.follow phys seq).Sane (B + 1) ∧
      (h.follow phys seq).stamp = phys.toNat * 256 + seq.toNat + 1 := by
  have hsucc := toNat_seq_succ hseq
  have hmask : hlcSeqMask < seq + 1 ↔ 255 < seq.toNat + 1 := by
    rw [UInt16.lt_iff_toNat_lt, hsucc]
    rfl
  unfold follow
  by_cases hlt : 255 < seq.toNat + 1
  · rw [if_pos (hmask.mpr hlt), wrap64_succ h0 (by omega)]
    refine ⟨⟨by simp only; omega, by simp only; omega, Nat.zero_le _⟩, ?_⟩
    simp only [stamp, UInt16.toNat_zero]
    omega
  · rw [if_neg fun hyes => hlt (hmask.mp hyes)]
    refine ⟨⟨h0, by simp only; omega, by simp only [hsucc]; omega⟩, ?_⟩
    simp only [stamp, hsucc]
    omega

/-- `Next` writes out what `Observe` does after the sequence number of the clock itself. -/
theorem bump_eq_follow (hseq : h.seq.toNat ≤ 255) : h.bump = h.follow h.physMS h.seq := by
  have hmask : h.seq < hlcSeqMask ↔ ¬ hlcSeqMask < h.seq + 1 := by
    have h255 : hlcSeqMask.toNat = 255 := rfl
    rw [UInt16.lt_iff_toNat_lt, UInt16.lt_iff_toNat_lt, toNat_seq_succ hseq, h255]
    omega
  unfold bump follow
  by_cases hlt : h.seq < hlcSeqMask
  · rw [if_pos hlt, if_neg (hmask.mp hlt)]
  · rw [if_neg hlt, if_pos (not_not.mp fun hno => hlt (hmask.mpr hno))]

/-- A full sequence number moves on to the next millisecond. -/
theorem bump_spec (hs : h.Sane B) (hB : B < 2 ^ 62) :
    h.bump.Sane (B + 1) ∧ h.bump.stamp = h.stamp + 1 := by
  rw [bump_eq_follow hs.seq]
  exact follow_spec h h.physMS hs.nonneg hs.le hB hs.seq

/-- `Next` moves the clock forward by at most a millisecond beyond its old time and the wall. -/
theorem Next_spec (hs : h.Sane B) (hB : B < 2 ^ 62) (hnow : now ≤ B + 1) :
    (h.Next now).2.Sane (B + 1) ∧ h.stamp < (h.Next now).2.stamp ∧
      (h.Next now).2.nodeID = h.nodeID := by
  obtain ⟨h0, hle, hseq⟩ := hs
  unfold Next
  by_cases hlt : h.physMS < now
  · rw [if_pos hlt]
    exact ⟨⟨(h0.trans_lt hlt).le, hnow, Nat.zero_le _⟩, stamp_lt_of_lt _ h0 hlt hseq, rfl⟩
  · rw [if_neg hlt]
    obtain ⟨hsane, hstamp⟩ := bump_spec ⟨h0, hle, hseq⟩ hB
    refine ⟨hsane, Nat.lt_of_lt_of_eq (Nat.lt_succ_self _) hstamp.symm, ?_⟩
    unfold bump
    split_ifs <;> rfl

/-- The version that `Next` returns has the stamp of the clock after it, modulo the 48 bits. -/
theorem stampOf_Next_mod (hs : (h.Next now).2.Sane B) :
    stampOf (h.Next now).1 = (h.Next now).2.stamp % 2 ^ 56 := by
  obtain ⟨h0, -, hseq⟩ := hs
  have hnat := toNat_packHLC (h.Next now).2.physMS (h.Next now).2.seq (h.Next now).2.nodeID
  have hver : (h.Next now).1 =
      packHLC (h.Next now).2.physMS (h.Next now).2.seq (h.Next now).2.nodeID := rfl
  rw [stampOf, hver, hnat, stamp]
  omega

theorem stampOf_Next (hs : (h.Next now).2.Sane B) :
    stampOf (h.Next now).1 ≤ (h.Next now).2.stamp ∧
      (B < 2 ^ 48 → stampOf (h.Next now).1 = (h.Next now).2.stamp) := by
  rw [stampOf_Next_mod hs]
  refine ⟨Nat.mod_le _ _, fun hB => Nat.mod_eq_of_lt ?_⟩
  obtain ⟨h0, hle, hseq⟩ := hs
  rw [stamp]
  omega

/-- `Next` takes the wall clock if it is ahead, and the next stamp otherwise. -/
theorem stamp_Next (hs : h.Sane B) (hB : B < 2 ^ 62) :
    (h.Next now).2.stamp = if h.physMS < now then now.toNat * 256 else h.stamp + 1 := by
  unfold Next
  by_cases hlt : h.physMS < now
  · rw [if_pos hlt, if_pos hlt]
    simp only [stamp, UInt16.toNat_zero, Nat.add_zero]
  · rw [if_neg hlt, if_neg hlt]
    exact (bump_spec hs hB).2

/-- `Observe` takes the wall clock if it is ahead of the clock and of the remote version. -/
theorem Observe_of_wall (hnow : max h.physMS (unpackHLC remote).1 < now) :
    h.Observe remote now = { h with physMS := now, seq := 0 } := by
  obtain ⟨hloc, hrem⟩ := max_lt_iff.mp hnow
  have hphys : maxOf h.physMS now (unpackHLC remote).1 = now := by
    rw [maxOf_eq, max_eq_right hloc.le, max_eq_left hrem.le]
  simp only [Observe, hphys]
  rw [if_neg fun hc => hrem.ne' hc.1, if_neg fun hc => hrem.ne' hc.1,
    if_neg fun hc => hloc.ne' hc.1]

/-- Otherwise it takes the stamp after the greater one of the two. -/
theorem Observe_of_stamps (hs : h.Sane B) (hB : B < 2 ^ 62)
    (hremote : ((stampOf remote / 256 : Nat) : Int) ≤ B)
    (hnow : now ≤ max h.physMS (unpackHLC remote).1) :
    (h.Observe remote now).Sane (B + 1) ∧
      (h.Observe remote now).stamp = max h.stamp (stampOf remote) + 1 := by
  have hrp0 : 0 ≤ (unpackHLC remote).1 := unpackHLC_fst remote ▸ Int.natCast_nonneg _
  have hrp : (unpackHLC remote).1 ≤ B := unpackHLC_fst remote ▸ hremote
  have hrseq : (splitLogical (unpackHLC remote).2).1.toNat ≤ 255 := by
    rw [toNat_splitLogical_fst]
    exact Nat.le_of_lt_succ (Nat.mod_lt _ (by decide))
  have hphys : maxOf h.physMS now (unpackHLC remote).1 = max h.physMS (unpackHLC remote).1 := by
    rw [maxOf_eq, max_right_comm, max_eq_left hnow]
  have hself : h.stamp = h.physMS.toNat * 256 + h.seq.toNat := rfl
  rw [stampOf_eq remote]
  simp only [Observe, hphys]
  generalize (splitLogical (unpackHLC remote).2).1 = rseq at *
  generalize (unpackHLC remote).1 = rp at *
  have h0 := hs.nonneg
  have hseq := hs.seq
  -- the stamp follows the greater sequence number where the milliseconds agree
  rcases lt_trichotomy h.physMS rp with hlt | heq | hgt
  · rw [max_eq_right hlt.le, if_neg fun hc => hlt.ne' hc.2, if_pos ⟨rfl, hlt⟩]
    obtain ⟨hsane, hstamp⟩ := follow_spec h rp hrp0 hrp hB hrseq
    refine ⟨hsane, hstamp.trans ?_⟩
    omega
  · rw [heq, max_self, if_pos ⟨rfl, rfl⟩]
    split_ifs with hless
    · rw [UInt16.lt_iff_toNat_lt] at hless
      obtain ⟨hsane, hstamp⟩ := follow_spec h rp hrp0 hrp hB hrseq
      refine ⟨hsane, hstamp.trans ?_⟩
      omega
    · rw [UInt16.lt_iff_toNat_lt] at hless
      obtain ⟨hsane, hstamp⟩ := follow_spec h rp hrp0 hrp hB hseq
      refine ⟨hsane, hstamp.trans ?_⟩
      omega
  · rw [max_eq_left hgt.le, if_neg fun hc => hgt.ne' hc.1, if_neg fun hc => hgt.ne' hc.1,
      if_pos ⟨rfl, hgt⟩]
    obtain ⟨hsane, hstamp⟩ := bump_spec hs hB
    refine ⟨hsane, hstamp.trans ?_⟩
    omega

/-- `Observe` moves the clock beyond its old stamp and that of the remote version. -/
theorem Observe_spec (hs : h.Sane B) (hB : B < 2 ^ 62) (hnow : now ≤ B + 1)
    (hremote : ((stampOf remote / 256 : Nat) : Int) ≤ B) :
    (h.Observe remote now).Sane (B + 1) ∧ h.stamp < (h.Observe remote now).stamp ∧
      stampOf remote < (h.Observe remote now).stamp := by
  rcases lt_or_ge (max h.physMS (unpackHLC remote).1) now with hwall | hstamps
  · obtain ⟨hloc, hrem⟩ := max_lt_iff.mp hwall
    have hseq := hs.seq
    rw [unpackHLC_fst] at hrem
    rw [Observe_of_wall hwall]
    refine ⟨⟨(hs.nonneg.trans_lt hloc).le, hnow, Nat.zero_le _⟩, ?_, ?_⟩
    · exact stamp_lt_of_lt _ hs.nonneg hloc hseq
    · simp only [stamp]
      omega
  · obtain ⟨hsane, hstamp⟩ := Observe_of_stamps hs hB hremote hstamps
    rw [hstamp]
    exact ⟨hsane, Nat.lt_succ_of_le (le_max_left _ _), Nat.lt_succ_of_le (le_max_right _ _)⟩

end Hlc

end Kioshun
