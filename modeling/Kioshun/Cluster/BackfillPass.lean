import Kioshun.Cluster.Digests

/-!
# A pass of backfill

`backfillOnce` asks every connected peer for its digest of what the joiner owns. The
buckets that differ from the joiner's own digest are paged through and imported, and
the digest is carried along. Where nothing differs, the pass asks for no keys.
-/

namespace Kioshun

open BigEndian Tally Function Node List

universe u v
variable {K : Type u} {V : Type v}

/-- What a pass meets: the keys of the map of peers, those with a connection at first and when
their turn comes, and the requests to which a readable answer comes. -/
structure Peering where
  peers : List NodeID
  connected : NodeID → Bool
  reachable : NodeID → Bool
  answered : Nat → Bool

/-- The state of a pass. A donor stands as it is when it is asked, `digest` is `local`, and
`asked` are the requests for keys. -/
structure Pass (K : Type u) (V : Type v) where
  joiner : Node K V
  donors : NodeID → Node K V
  digest : Digest
  requests : Nat
  asked : List MsgBackfillKeysReq

namespace Pass

variable [DecidableEq K] [Inhabited V]

section Model
variable (net : Peering) (depth page : Int)

/-- The loop over the pages of a bucket; `none` if it panics or the fuel is used up. -/
def pageLoop (d : NodeID) (Prefix : Bytes) : Nat → Bytes → Pass K V → Option (Pass K V)
  | 0, _, _ => none
  | fuel + 1, cursor, s =>
    let kReq := s.joiner.keysRequest Prefix page cursor
    let i := s.requests
    let s := { s with
      joiner := s.joiner.nextReqID.2, requests := i + 1, asked := s.asked ++ [kReq] }
    if net.answered i then
      let r := (s.donors d).rpcBackfillKeys kReq
      let s := { s with donors := update s.donors d r.2 }
      if r.1.NotInRing then some s
      else if r.1.Items.length = 0 then some s
      else
        let toImport := s.joiner.toImport r.1.toMsgBackfillKeysResp
        let joiner := s.joiner.importPage r.1.toMsgBackfillKeysResp
        match joiner.updateLocalDigestWithBatch s.digest depth toImport with
        | none => none
        | some digest =>
          let s := { s with joiner := joiner, digest := digest }
          if r.1.NextCursor.length = 8 then pageLoop d Prefix fuel r.1.NextCursor s else some s
    else some s

def bucketLoop (fuel : Nat) (d : NodeID) : List BucketDigest → Pass K V → Option (Pass K V)
  | [], s => some s
  | b :: bs, s =>
    let lp := read s.digest b.Prefix
    if lp.count = b.Count ∧ lp.hash = b.Hash64 then bucketLoop fuel d bs s
    else
      match pageLoop net depth page d b.Prefix fuel [] s with
      | none => none
      | some s => bucketLoop fuel d bs s

def donorLoop (fuel : Nat) : List NodeID → Pass K V → Option (Pass K V)
  | [], s => some s
  | d :: ds, s =>
    if net.reachable d then
      let req : MsgBackfillDigestReq :=
        ⟨s.joiner.nextReqID.1, s.joiner.cfg.ID, UInt8.ofInt depth⟩
      let i := s.requests
      let s := { s with joiner := s.joiner.nextReqID.2, requests := i + 1 }
      if net.answered i then
        let dr := (s.donors d).rpcBackfillDigest req
        let s := { s with donors := update s.donors d dr.2 }
        if dr.1.NotInRing then donorLoop fuel ds s
        else if dr.1.Buckets.length = 0 then donorLoop fuel ds s
        else
          match bucketLoop net depth page fuel d dr.1.Buckets s with
          | none => none
          | some s => donorLoop fuel ds s
      else donorLoop fuel ds s
    else donorLoop fuel ds s

def backfillOnce (fuel : Nat) (joiner : Node K V) (donors : NodeID → Node K V) :
    Option (Pass K V) :=
  let ids := net.peers.filter fun d => decide (d ≠ joiner.cfg.ID) && net.connected d
  if ids.length = 0 then some ⟨joiner, donors, ∅, 0, []⟩
  else
    let digest := joiner.computeLocalDigests depth
    donorLoop net depth page fuel (ids.insertionSort fun a b => a ≤ b)
      ⟨digest.2, donors, digest.1, 0, []⟩

end Model

variable {net : Peering} {depth page : Int} {fuel : Nat} {d : NodeID} {s s' s'' : Pass K V}

/-- As long as every request is answered, the joiner and the donor go through the pages of a
bucket as `pageBucket` says. -/
theorem pageLoop_eq_pageBucket (hdepth : 0 ≤ depth ∧ depth ≤ 8) (hnet : ∀ i, net.answered i = true)
    (Prefix cursor : Bytes) (fuel : Nat) (s : Pass K V) :
    (pageLoop net depth page d Prefix fuel cursor s).map (fun s' => (s'.joiner, s'.donors d)) =
      (pageBucket Prefix page fuel cursor s.joiner (s.donors d)).map
        fun r => (r.joiner, r.donor) := by
  induction fuel generalizing cursor s with
  | zero => rfl
  | succ fuel ih =>
    simp only [pageLoop, pageBucket, hnet, if_true]
    generalize (s.donors d).rpcBackfillKeys (s.joiner.keysRequest Prefix page cursor) = r
    split_ifs with hring hitems hnext
    · simp
    · simp
    · simp only [updateLocalDigestWithBatch_eq _ _ hdepth, ih, update_self,
        Option.map_map]
      rfl
    · simp [updateLocalDigestWithBatch_eq _ _ hdepth]

structure Idles (s s' : Pass K V) : Prop where
  joiner : s'.joiner = { s.joiner with reqID := s'.joiner.reqID }
  digest : s'.digest = s.digest
  asked : s'.asked = s.asked
  donors : ∀ d, (s.donors d).Ready → Silent (s.donors d) (s'.donors d)

omit [Inhabited V] in
theorem Idles.refl (s : Pass K V) : Idles s s := ⟨rfl, rfl, rfl, fun _ => Silent.refl⟩

omit [Inhabited V] in
theorem Idles.trans (h : Idles s s') (h' : Idles s' s'') : Idles s s'' where
  joiner := by rw [h'.joiner, h.joiner]
  digest := h'.digest.trans h.digest
  asked := h'.asked.trans h.asked
  donors d hd := (h.donors d hd).trans (h'.donors d (h.donors d hd).advances.ready)

/-- The digest of the donor has nothing that the joiner does not have. -/
def Synced (depth : Int) (s : Pass K V) (d : NodeID) : Prop :=
  ∀ id, ∀ b ∈ ((s.donors d).rpcBackfillDigest
    ⟨id, s.joiner.cfg.ID, UInt8.ofInt depth⟩).1.Buckets,
    read s.digest b.Prefix = ⟨b.Count, b.Hash64⟩

omit [Inhabited V] in
theorem Idles.synced (h : Idles s s') (hd : s'.donors d = s.donors d) (hs : Synced depth s d) :
    Synced depth s' d := by
  have hid : s'.joiner.cfg.ID = s.joiner.cfg.ID := by rw [h.joiner]
  intro id b hb
  rw [hd, hid] at hb
  rw [h.digest]
  exact hs id b hb

theorem bucketLoop_synced {bs : List BucketDigest}
    (h : ∀ b ∈ bs, read s.digest b.Prefix = ⟨b.Count, b.Hash64⟩) :
    bucketLoop net depth page fuel d bs s = some s := by
  induction bs with
  | nil => rfl
  | cons b bs ih =>
    have hb := h b mem_cons_self
    have hsame : (read s.digest b.Prefix).count = b.Count ∧
        (read s.digest b.Prefix).hash = b.Hash64 := by rw [hb]; exact ⟨rfl, rfl⟩
    rw [bucketLoop, if_pos hsame]
    exact ih fun b' hb' => h b' (mem_cons_of_mem b hb')

/-- One donor that is in sync: its digest is asked for at most, and the pass goes on. -/
theorem donorLoop_synced (net : Peering) (page : Int) (fuel : Nat) (hd : Synced depth s d)
    (ds : List NodeID) :
    ∃ s', donorLoop net depth page fuel (d :: ds) s = donorLoop net depth page fuel ds s' ∧
      Idles s s' ∧ ∀ d' ≠ d, s'.donors d' = s.donors d' := by
  by_cases hreach : net.reachable d = true
  · by_cases hanswer : net.answered s.requests = true
    · have hbuckets := hd s.joiner.nextReqID.1
      have hsilent := fun hr : (s.donors d).Ready => rpcBackfillDigest_silent hr
        ⟨s.joiner.nextReqID.1, s.joiner.cfg.ID, UInt8.ofInt depth⟩
      simp only [donorLoop, hreach, hanswer, if_true]
      generalize (s.donors d).rpcBackfillDigest
        ⟨s.joiner.nextReqID.1, s.joiner.cfg.ID, UInt8.ofInt depth⟩ = dr at hbuckets hsilent
      have hdonors : ∀ d', (s.donors d').Ready →
          Silent (s.donors d') (update s.donors d dr.2 d') := by
        intro d' hr
        by_cases heq : d' = d
        · subst heq
          rw [update_self]
          exact hsilent hr
        · rw [update_of_ne heq]
          exact Silent.refl hr
      refine ⟨{ s with
        joiner := s.joiner.nextReqID.2, requests := s.requests + 1,
        donors := update s.donors d dr.2 }, ?_, ⟨rfl, rfl, rfl, hdonors⟩, fun d' hd' =>
          update_of_ne hd' _ _⟩
      split_ifs
      · rfl
      · rfl
      · rw [bucketLoop_synced (s := ⟨s.joiner.nextReqID.2, update s.donors d dr.2, s.digest,
          s.requests + 1, s.asked⟩) hbuckets]
    · refine ⟨{ s with joiner := s.joiner.nextReqID.2, requests := s.requests + 1 }, ?_,
        ⟨rfl, rfl, rfl, fun _ => Silent.refl⟩, fun d' _ => rfl⟩
      simp only [donorLoop, hreach, if_true, if_neg hanswer]
  · refine ⟨s, ?_, Idles.refl s, fun _ _ => rfl⟩
    rw [donorLoop, if_neg hreach]

theorem donorLoop_idles (net : Peering) (page : Int) (fuel : Nat) {ds : List NodeID}
    (hnodup : ds.Nodup) (h : ∀ d ∈ ds, Synced depth s d) :
    ∃ s', donorLoop net depth page fuel ds s = some s' ∧ Idles s s' := by
  induction ds generalizing s with
  | nil => exact ⟨s, rfl, Idles.refl s⟩
  | cons d ds ih =>
    obtain ⟨hnot, hnodup⟩ := nodup_cons.mp hnodup
    obtain ⟨s₁, hstep, hidle, hothers⟩ := donorLoop_synced net page fuel (h d mem_cons_self) ds
    have hrest : ∀ d' ∈ ds, Synced depth s₁ d' := by
      intro d' hd'
      have hne : d' ≠ d := fun heq => hnot (heq ▸ hd')
      exact hidle.synced (hothers d' hne) (h d' (mem_cons_of_mem d hd'))
    obtain ⟨s', hrun, hidle'⟩ := ih hnodup hrest
    exact ⟨s', hstep.trans hrun, hidle.trans hidle'⟩

structure Untouched (n n' : Node K V) : Prop where
  silent : Silent n n'
  clock : n'.clock = n.clock
  hotSet : n'.hotSet = n.hotSet

omit [Inhabited V] in
theorem Idles.untouched {joiner : Node K V} (hj : joiner.Ready)
    (hstart : s.joiner = joiner.listed) (h : Idles s s') : Untouched joiner s'.joiner := by
  obtain ⟨⟨hr, hcfg, hkc, hcodec, hext, hring, hcap, hlater⟩, hver, hview⟩ :=
    listed_silent hj
  rw [h.joiner, hstart]
  exact ⟨⟨⟨⟨hr.valid, hr.isOpen⟩, hcfg, hkc, hcodec, hext, hring, hcap, hlater⟩, hver, hview⟩,
    rfl, rfl⟩

/-- For every joiner and donors that hold the same versions of the unexpired keys that the joiner
owns, every bucket of a donor's digest is as in the joiner's own, in whatever order both list
their keys. A pass then asks for no keys and leaves the joiner and the donors as they are, whichever
peers are connected and whichever requests fail. -/
theorem backfillOnce_converged (net : Peering) (depth page : Int) (fuel : Nat) {joiner : Node K V}
    {donors : NodeID → Node K V} (hj : joiner.Ready) (hpeers : net.peers.Nodup)
    (hdepth : clampDepth (UInt8.ofInt depth).toNat = clampDepth depth)
    (hdonors : ∀ d ∈ net.peers, d ≠ joiner.cfg.ID →
      (donors d).Ready ∧ (donors d).Converged joiner) :
    (∀ d ∈ net.peers, d ≠ joiner.cfg.ID → ∀ req : MsgBackfillDigestReq,
      req.TargetID = joiner.cfg.ID → clampDepth req.Depth.toNat = clampDepth depth →
      ∀ b ∈ ((donors d).rpcBackfillDigest req).1.Buckets,
        (read (joiner.computeLocalDigests depth).1 b.Prefix).count = b.Count ∧
          (read (joiner.computeLocalDigests depth).1 b.Prefix).hash = b.Hash64) ∧
      ∃ s, backfillOnce net depth page fuel joiner donors = some s ∧ s.asked = [] ∧
        Untouched joiner s.joiner ∧
        ∀ d, (donors d).Ready → Silent (donors d) (s.donors d) := by
  constructor
  · intro d hd hne req htarget hsame b hb
    obtain ⟨hready, hconv⟩ := hdonors d hd hne
    rw [hconv.read_eq hready hj htarget hsame hb]
    exact ⟨rfl, rfl⟩
  · simp only [backfillOnce]
    split_ifs
    · exact ⟨_, rfl, rfl, ⟨Silent.refl hj, rfl, rfl⟩, fun _ => Silent.refl⟩
    · generalize hids : (net.peers.filter fun d =>
        decide (d ≠ joiner.cfg.ID) && net.connected d) = ids
      have hperm : (ids.insertionSort fun a b => a ≤ b).Perm ids := perm_insertionSort _ _
      have hnodup : (ids.insertionSort fun a b => a ≤ b).Nodup := by
        rw [hperm.nodup_iff, ← hids]
        exact hpeers.filter _
      have hsynced : ∀ d ∈ ids.insertionSort fun a b => a ≤ b,
          Synced depth ⟨joiner.listed, donors, (joiner.computeLocalDigests depth).1, 0, []⟩ d := by
        intro d hd id b hb
        rw [hperm.mem_iff, ← hids, mem_filter, Bool.and_eq_true, decide_eq_true_eq] at hd
        obtain ⟨hready, hconv⟩ := hdonors d hd.1 hd.2.1
        have hself :
          (⟨id, joiner.listed.cfg.ID, UInt8.ofInt depth⟩ : MsgBackfillDigestReq).TargetID =
            joiner.cfg.ID := rfl
        exact hconv.read_eq hready hj hself hdepth hb
      obtain ⟨s, hrun, hidle⟩ := donorLoop_idles net page fuel hnodup hsynced
      exact ⟨s, hrun, hidle.asked, hidle.untouched hj rfl, hidle.donors⟩

theorem backfillOnce_converged_pair :
    let c := freshCache fun n => n
    ∃ s, backfillOnce ⟨[[2]], fun _ => true, fun _ => true, fun _ => true⟩ 2 512 0
        (holder c [1]) (holder c) = some s ∧ s.asked = [] ∧
      Untouched (holder c [1]) s.joiner ∧
      ∀ d, (holder c d).Ready → Silent (holder c d) (s.donors d) := by
  intro c
  have hready : ∀ id, (holder c id).Ready := fun id => (holder_spec (fun n => n) id).1.ready
  have hconv : (holder c [2]).Converged (holder c [1]) :=
    ⟨rfl, rfl, rfl, rfl, fun k ver => ⟨fun h => ⟨h.live, h.owned, h.version⟩,
      fun h => ⟨h.live, h.owned, h.version⟩⟩⟩
  refine (backfillOnce_converged _ 2 512 0 (hready [1]) (nodup_singleton _) (by decide)
    fun d hd _ => ?_).2
  rw [mem_singleton.mp hd]
  exact ⟨hready [2], hconv⟩

/-- The digest that the joiner gets there is not empty. -/
example : ((holder (freshCache fun n => n) [2]).rpcBackfillDigest ⟨1, [1], 2⟩).1.Buckets.map
    (fun b => (b.Prefix, b.Count, b.Hash64)) = [([0, 0], 1, 7 ^^^ 5)] := by
  decide +kernel

end Pass

end Kioshun
