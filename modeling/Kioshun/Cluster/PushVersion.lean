import Kioshun.Cluster.Rebalance

/-!
# The version of a push

`rebalanceOnce` sends an entry under a new version of the local clock, not under
the one that is recorded for it. Whether the first owner drops the push therefore
depends on the clock of the sender, and a newer value is overwritten by an older
one when that clock is ahead.
-/

namespace Kioshun

universe u v
variable {K : Type u} {V : Type v}

/-- At the reading `now` the clock issues a version below `b`: its physical part moves to `now`
if that is ahead, and otherwise the sequence number grows until it runs over. -/
def Hlc.Behind (h : Hlc) (now : Int) (b : UInt64) : Prop :=
  if h.physMS < now then
    (now % 2 ^ 48).toNat * 2 ^ 16 + h.nodeID.toNat % 256 < b.toNat
  else if h.seq.toNat < 255 then
    (h.physMS % 2 ^ 48).toNat * 2 ^ 16 + ((h.seq.toNat + 1) * 256 + h.nodeID.toNat % 256) < b.toNat
  else
    ((h.physMS + 1) % 2 ^ 48).toNat * 2 ^ 16 + h.nodeID.toNat % 256 < b.toNat

theorem Hlc.Next_lt_iff (h : Hlc) (now : Int) (b : UInt64) :
    (h.Next now).1 < b ↔ h.Behind now b := by
  have hmask : h.seq < hlcSeqMask ↔ h.seq.toNat < 255 := UInt16.lt_iff_toNat_lt
  rw [UInt64.lt_iff_toNat_lt, Behind]
  by_cases hnow : h.physMS < now
  · simp [Next, hnow, toNat_packHLC]
  · by_cases hseq : h.seq.toNat < 255
    · have hsucc : (h.seq + 1).toNat % 256 = h.seq.toNat + 1 := by
        rw [UInt16.toNat_add]
        simp only [UInt16.toNat_ofNat, Nat.reducePow, Nat.reduceMod]
        omega
      simp only [Next, hnow, if_false, bump, hmask.mpr hseq, if_true, toNat_packHLC, hsucc, hseq]
    · have hnot : ¬ h.seq < hlcSeqMask := fun hlt => hseq (hmask.mp hlt)
      have hwrap : wrap64 (h.physMS + 1) % 2 ^ 48 = (h.physMS + 1) % 2 ^ 48 := by
        rw [wrap64, Int.bmod_def]
        split_ifs <;> omega
      simp only [Next, hnow, if_false, bump, hnot, hseq, toNat_packHLC, hwrap, UInt16.toNat_ofNat,
        Nat.zero_mod, Nat.zero_mul, Nat.zero_add]

namespace Node
variable {p q : Node K V} {k : K} {v w : V} {vb : Bytes} {msg : MsgSet}

/-- The key or the value, compressed or not, is above a limit of the receiver. -/
def Exceeds (q p : Node K V) (k : K) (vb : Bytes) : Prop :=
  tooLarge q.cfg.Sec.MaxKeySize (p.kc.EncodeKey k) = true ∨
    tooLarge q.cfg.Sec.MaxValueSize (p.maybeCompress vb).1 = true ∨
    tooLarge q.cfg.Sec.MaxValueSize vb = true

variable [DecidableEq K]

/-- The receiver still has `w` under the key, and no smaller version. -/
def Retains (q q' : Node K V) (k : K) (w : V) : Prop :=
  (∃ exp, q'.localCache.view k = some (w, exp)) ∧
    q.version (q.kc.EncodeKey k) ≤ q'.version (q.kc.EncodeKey k)

omit [DecidableEq K] in
/-- Only the limits stop a push before its version is looked at. -/
theorem checkSet_push (hkc : q.kc = p.kc) (hext : q.ext = p.ext) (hkeys : p.kc.Lawful)
    (hgzip : p.ext.Lawful) (hkey : msg.Key = p.kc.EncodeKey k)
    (hval : msg.Val = (p.maybeCompress vb).1) (hcp : msg.Cp = (p.maybeCompress vb).2) :
    (Exceeds q p k vb → ∃ err, q.checkSet msg = .error err) ∧
      (¬ Exceeds q p k vb → q.checkSet msg = .ok (k, vb)) := by
  have hdec : q.maybeDecompress msg.Val msg.Cp = .ok vb := by
    rw [hval, hcp, maybeDecompress_congr hext]
    exact maybeDecompress_maybeCompress hgzip vb
  constructor
  · intro hexc
    cases hcheck : q.checkSet msg with
    | error err => exact ⟨err, rfl⟩
    | ok r =>
      obtain ⟨hk, hv, hinf, -⟩ := checkSet_eq_ok.mp hcheck
      obtain ⟨hdec', hvb⟩ := inflate_eq_ok.mp hinf
      obtain rfl := Except.ok.inj (hdec.symm.trans hdec')
      rw [hkey] at hk
      rw [hval] at hv
      rcases hexc with h | h | h
      · rw [h] at hk
        cases hk
      · rw [h] at hv
        cases hv
      · rw [h] at hvb
        cases hvb
  · intro hnot
    simp only [Exceeds, not_or, Bool.not_eq_true] at hnot
    obtain ⟨hk, hv, hvb⟩ := hnot
    refine checkSet_eq_ok.mpr ⟨?_, ?_, inflate_eq_ok.mpr ⟨hdec, hvb⟩, ?_⟩
    · rw [hkey]
      exact hk
    · rw [hval]
      exact hv
    · rw [hkey, hkc]
      exact hkeys.decode_encode k

variable [Inhabited V]

/-- What the receiver does with the message: `w` stays if the message is refused or older, and
is replaced by an equal value otherwise. -/
theorem rpcSet_retains_iff (hq : q.Ready) (hlww : q.cfg.LWWEnabled = true) (hkc : q.kc = p.kc)
    (hext : q.ext = p.ext) (hkeys : p.kc.Lawful) (hgzip : p.ext.Lawful)
    (hkey : msg.Key = p.kc.EncodeKey k) (hval : msg.Val = (p.maybeCompress vb).1)
    (hcp : msg.Cp = (p.maybeCompress vb).2) (hdec : q.codec.Decode vb = .ok v) {f : Int}
    (hw : q.localCache.view k = some (w, f)) :
    Retains q (q.rpcSet msg).2 k w ↔
      Exceeds q p k vb ∨ msg.Ver < q.version (q.kc.EncodeKey k) ∨ v = w := by
  have hqkey : msg.Key = q.kc.EncodeKey k := by rw [hkey, hkc]
  obtain ⟨hreject, haccept⟩ := checkSet_push hkc hext hkeys hgzip hkey hval hcp
  have hsame : (q.rpcSet msg).2 = q → Retains q (q.rpcSet msg).2 k w := by
    intro heq
    rw [heq]
    exact ⟨⟨f, hw⟩, UInt64.le_refl _⟩
  by_cases hexc : Exceeds q p k vb
  · obtain ⟨err, herr⟩ := hreject hexc
    exact ⟨fun _ => .inl hexc, fun _ => hsame (by simp only [rpcSet, herr])⟩
  · have hcheck := haccept hexc
    by_cases hlt : msg.Ver < q.version (q.kc.EncodeKey k)
    · have hstale : q.stale msg.Key msg.Ver = true :=
        (stale_iff hlww _ _).mpr (by rw [hqkey]; exact hlt)
      exact ⟨fun _ => .inr (.inl hlt),
        fun _ => hsame (by simp only [rpcSet, hcheck, hstale, if_true])⟩
    · have ha := rpcSet_applied hq hcheck hdec fun hs =>
        hlt (by rw [← hqkey]; exact (stale_iff hlww _ _).mp hs)
      have hversion : (q.rpcSet msg).2.version (q.kc.EncodeKey k) = msg.Ver := by
        rw [ha.version hlww, ← hqkey, Function.update_self]
      constructor
      · rintro ⟨⟨exp, hkept⟩, -⟩
        rw [ha.entry] at hkept
        exact .inr (.inr (congrArg Prod.fst (Option.some.inj hkept)))
      · rintro (hyes | hyes | rfl)
        · exact absurd hyes hexc
        · exact absurd hyes hlt
        · refine ⟨⟨msg.Exp, ha.entry⟩, ?_⟩
          rw [hversion]
          exact UInt64.not_lt.mp hlt

/-- The push of `v` to a node that has `w` under the same key leaves `w` there with no smaller
version if and only if the push is above a limit, the clock of the sender is behind the version
of `w`, or the two values are the same. Which version the sender has recorded for `v` does not
matter. -/
theorem push_retains_iff (hp : p.Ready) (hq : q.Ready) (hlww : q.cfg.LWWEnabled = true)
    (hkc : q.kc = p.kc) (hcodec : q.codec = p.codec) (hext : q.ext = p.ext) (hkeys : p.kc.Lawful)
    (hvalues : p.codec.Lawful) (hgzip : p.ext.Lawful) {up : NodeID → Bool} {primary : NodeID}
    {p' : Node K V} (hpush : p.pushOf up k = (some (primary, msg), p')) {e f : Int}
    (hv : p.localCache.view k = some (v, e)) (hw : q.localCache.view k = some (w, f))
    (hvb : p.codec.Encode v = .ok vb) :
    Retains q (q.rpcSet msg).2 k w ↔
      Exceeds q p k vb ∨
        p.clock.Behind (unixMilli (p.localCache.rt.wall.reading
          (p'.localCache.rt.wall.ticks - 1))) (q.version (q.kc.EncodeKey k)) ∨ v = w := by
  have hprep := pushOf_prepares hp up k
  rw [hpush] at hprep
  cases hprep with
  | @sent _ _ _ e' silent foreign entry carries stamps =>
    obtain ⟨hkey, vb', henc, hval, hcp⟩ := carries
    obtain rfl := Option.some.inj (hv.symm.trans entry)
    obtain rfl := Except.ok.inj (hvb.symm.trans henc)
    obtain ⟨j, hj, hver⟩ := stamps
    have hbehind := p.clock.Next_lt_iff
      (unixMilli (p.localCache.rt.wall.reading (p'.localCache.rt.wall.ticks - 1)))
      (q.version (q.kc.EncodeKey k))
    rw [hj, Nat.add_sub_cancel, ← hver] at hbehind
    rw [hj, Nat.add_sub_cancel, ← hbehind]
    have hdec : q.codec.Decode vb = .ok v := by
      rw [hcodec]
      exact hvalues v vb hvb
    exact rpcSet_retains_iff hq hlww hkc hext hkeys hgzip hkey hval hcp hdec hw

def newer (ver : UInt64) : Node UInt8 UInt8 :=
  (plain [2] pairRing (freshCache fun n => n)).deliver [.set ⟨1, [7], [20], 0, ver, false⟩]

/-- The clock of the sender issues 513, which is behind the version 1000 of the receiver. -/
theorem push_retains_behind : ∃ msg,
    ((heldByBoth (freshCache fun n => n) [1]).pushOf (fun _ => true) 7).1 = some ([2], msg) ∧
      Retains (newer 1000) ((newer 1000).rpcSet msg).2 7 20 := by
  have hp := heldByBoth_advances (fun n => n) [1]
  have hq : Advances (plain [2] pairRing (freshCache fun n => n)) (newer 1000) := by
    refine (deliver_performs (plain_replica ..) fun m hm => ?_).advances
    rw [List.mem_singleton.mp hm]
    exact ⟨7, [20], 20, rfl, rfl⟩
  have hrun : let p := heldByBoth (freshCache fun n => n) [1]
      (p.pushOf (fun _ => true) 7).1.map Prod.fst = some [2] ∧
      p.localCache.view 7 = some (10, 0) ∧ (newer 1000).localCache.view 7 = some (20, 0) ∧
      (p.clock.Next (unixMilli (p.localCache.rt.wall.reading
        ((p.pushOf (fun _ => true) 7).2.localCache.rt.wall.ticks - 1)))).1 <
          (newer 1000).version ((newer 1000).kc.EncodeKey 7) := by decide +kernel
  obtain ⟨hsent, hv, hw, hlt⟩ := hrun
  obtain ⟨⟨primary, msg⟩, hpush, rfl⟩ := Option.map_eq_some_iff.mp hsent
  exact ⟨msg, hpush, (push_retains_iff hp.ready hq.ready (by rw [hq.cfg]; rfl)
    (by rw [hq.kc, hp.kc]; rfl) (by rw [hq.codec, hp.codec]; rfl) (by rw [hq.ext, hp.ext]; rfl)
    (by rw [hp.kc]; exact byteKeys_lawful) (by rw [hp.codec]; exact fun v b hb => by cases hb; rfl)
    (by rw [hp.ext]; exact fun _ => rfl) (Prod.ext hpush rfl) hv hw
    (by rw [hp.codec]; rfl)).mpr (.inr (.inl ((Hlc.Next_lt_iff ..).mp hlt)))⟩

set_option synthInstance.maxSize 400 in
/-- The node [1] holds 10 with version 1. Its push goes out with version 513, and the newer value
of the node [2] is lost. -/
theorem push_overwrites :
    let p := heldByBoth (freshCache fun n => n) [1]
    let q := newer 5
    (p.pushOf (fun _ => true) 7).1.map (fun x =>
        (x.1, [p, q, (q.rpcSet x.2).2].map fun n => (n.version [7], n.localCache.view 7))) =
      some ([2], [(1, some (10, 0)), (5, some (20, 0)), (513, some (10, 0))]) := by
  decide +kernel

end Node

end Kioshun
