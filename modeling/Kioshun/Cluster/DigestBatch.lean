import Kioshun.Cluster.Digests

/-!
# The digest after an import

Instead of listing its keys again, the joiner adds every imported batch to the digest
it has. A key that was counted before stays counted with its old version, so the sum
is the digest of the joiner if no key of the batch was there.
-/

namespace Kioshun

open BigEndian Tally List

universe u v
variable {K : Type u} {V : Type v}

def Digest.Same (m m' : Digest) : Prop := ∀ p, read m p = read m' p

/-- The counts of fewer than 2 ^ 32 keys are their number. -/
theorem BucketSig.count_total {α : Type*} {bucket : α → Bytes} {weight : α → BucketSig}
    (hone : ∀ x, (weight x).count = 1) (l : List α) (p : Bytes) :
    (total bucket weight l p).count =
      UInt32.ofNat (l.filter fun x => decide (bucket x = p)).length := by
  rw [total]
  induction l.filter fun x => decide (bucket x = p) with
  | nil => rfl
  | cons x l ih =>
    rw [map_cons, sum_cons, length_cons, Nat.add_comm, UInt32.ofNat_add, ← ih]
    exact congrArg (· + _) (hone x)

/-- Fewer than 2 ^ 32 keys weigh nothing in every bucket only if there are none. -/
theorem BucketSig.total_eq_zero_iff {α : Type*} {bucket : α → Bytes} {weight : α → BucketSig}
    (hone : ∀ x, (weight x).count = 1) {l : List α} (hfew : l.length < 2 ^ 32) :
    (∀ p, total bucket weight l p = 0) ↔ l = [] := by
  constructor
  · intro h
    refine eq_nil_iff_forall_not_mem.mpr fun x hx => ?_
    have hmem : x ∈ l.filter fun y => decide (bucket y = bucket x) :=
      mem_filter.mpr ⟨hx, decide_eq_true rfl⟩
    have hle := length_filter_le (fun y => decide (bucket y = bucket x)) l
    have hpos := length_pos_of_mem hmem
    have hcount : (total bucket weight l (bucket x)).count = _ :=
      BucketSig.count_total hone l (bucket x)
    rw [h] at hcount
    have hnat := congrArg UInt32.toNat hcount
    rw [UInt32.toNat_ofNat_of_lt' (Nat.lt_of_le_of_lt hle hfew)] at hnat
    have hzero : (0 : BucketSig).count.toNat = 0 := rfl
    omega
  · rintro rfl p
    rfl

namespace Node

variable {n j : Node K V} {depth : Int} {kr : MsgBackfillKeysResp} {items : List (Item K V)}
  {it : Item K V} {k : K} [DecidableEq K]

theorem lastOf_of_distinct (hdistinct : (items.map Item.Key).Nodup) (hit : it ∈ items) :
    lastOf items it.Key = some it := by
  induction items using List.reverseRecOn with
  | nil => cases hit
  | append_singleton items last ih =>
    rw [map_append, nodup_append] at hdistinct
    obtain ⟨hfront, -, hnew⟩ := hdistinct
    rw [lastOf_snoc]
    rcases mem_append.mp hit with hmem | hmem
    · have hne : ¬ last.Key = it.Key := fun heq =>
        hnew it.Key (mem_map_of_mem hmem) last.Key (by simp) heq.symm
      rw [if_neg hne]
      exact ih hfront hmem
    · rw [mem_singleton.mp hmem, if_pos rfl]

theorem lastOf_eq_none (hk : k ∉ items.map Item.Key) : lastOf items k = none := by
  rw [lastOf, getLast?_eq_none_iff, filter_eq_nil_iff]
  intro it hit
  rw [decide_eq_true_eq]
  exact fun heq => hk (heq ▸ mem_map_of_mem hit)

/-- The keys that the node counts for itself besides those of the batch. -/
def others (n : Node K V) (batch : List (Item K V)) : List K :=
  (n.counted n.cfg.ID).filter fun k => decide (k ∉ batch.map Item.Key)

def liveAt (n : Node K V) (now : Int) (k : K) : Bool :=
  (n.localCache.view k).any (Locked.live now)

/-- The keys in the digest of `n` that the batch brings again or that have expired at the time
`now`. -/
def outdated (n : Node K V) (batch : List (Item K V)) (now : Int) : List K :=
  (n.counted n.cfg.ID).filter fun k => decide (k ∈ batch.map Item.Key) || !n.liveAt now k

variable [Inhabited V]

/-- The joiner with its digest, and a page whose keys are distinct, its own, and unexpired when
the digest is computed again. Until the page comes, the joiner `j` has changed nothing. -/
structure Arrives (n j : Node K V) (kr : MsgBackfillKeysResp) : Prop where
  ready : n.Ready
  lawful : n.kc.Lawful
  unbounded : n.localCache.perShardCap ≤ 0
  silent : Silent n j
  distinct : ((j.toImport kr).map Item.Key).Nodup
  owned : ∀ it ∈ j.toImport kr, n.ring.ownsHash n.cfg.ID (n.hash64Of it.Key) = true
  live : ∀ it ∈ j.toImport kr,
    Locked.live (j.importPage kr).localCache.now.1 (it.Val, it.ExpireAbs) = true

namespace Arrives

section
variable (h : Arrives n j kr)
include h

theorem imports : Imports j (j.toImport kr) (j.importPage kr) :=
  importPage_imports h.silent.advances.ready (h.silent.advances.kc ▸ h.lawful) kr

theorem advances : Advances n (j.importPage kr) :=
  h.silent.advances.trans h.imports.advances

theorem view (k : K) : (j.importPage kr).localCache.view k =
    match lastOf (j.toImport kr) k with
    | some it => some (it.Val, it.ExpireAbs)
    | none => n.localCache.view k := by
  rw [h.imports.view (h.silent.advances.cap.trans_le h.unbounded), h.silent.view]
  exact imported_lastOf ..

theorem versionOf (k : K) : (j.importPage kr).versionOf k =
    match lastOf (j.toImport kr) k with
    | some it => if n.cfg.LWWEnabled then it.Version else 0
    | none => n.versionOf k := by
  have hversion := h.imports.version
  rw [h.silent.advances.cfg, h.silent.advances.kc, h.silent.version] at hversion
  rw [Node.versionOf, h.advances.cfg, h.advances.kc, Node.versionOf]
  by_cases hlww : n.cfg.LWWEnabled = true
  · rw [if_pos hlww, if_pos hlww, hversion hlww]
    cases lastOf (j.toImport kr) k with
    | none => rfl
    | some it => exact (if_pos hlww).symm
  · rw [if_neg hlww, if_neg hlww]
    cases lastOf (j.toImport kr) k with
    | none => rfl
    | some it => exact (if_neg hlww).symm

theorem hash64Of : (j.importPage kr).hash64Of = n.hash64Of := by
  funext k
  rw [Node.hash64Of, h.advances.kc, h.advances.ext, Node.hash64Of]

theorem bucketOf : (j.importPage kr).bucketOf = n.bucketOf := by
  funext d k
  rw [Node.bucketOf, h.hash64Of, Node.bucketOf]

theorem sig_of_item (hit : it ∈ j.toImport kr) :
    (j.importPage kr).sig it.Key = (j.importPage kr).itemSig it := by
  rw [sig, h.versionOf, lastOf_of_distinct h.distinct hit, itemSig, h.advances.cfg]

theorem sig_of_other (hk : k ∉ (j.toImport kr).map Item.Key) :
    (j.importPage kr).sig k = n.sig k := by
  rw [sig, h.versionOf, lastOf_eq_none hk, h.hash64Of, sig]

/-- Every key of the batch is counted afterwards. -/
theorem counted_of_item (hit : it ∈ j.toImport kr) :
    it.Key ∈ (j.importPage kr).counted n.cfg.ID := by
  refine (mem_counted h.advances.ready _ _).mpr ⟨⟨_, ?_, h.live it hit⟩, ?_⟩
  · rw [h.view, lastOf_of_distinct h.distinct hit]
  · rw [h.advances.ring, h.hash64Of]
    exact h.owned it hit

/-- The new digest is what the batch adds and what the others add. -/
theorem read_after (depth : Int) (p : Bytes) :
    read ((j.importPage kr).computeLocalDigests depth).1 p =
      total (fun it => n.bucketOf (clampDepth depth) it.Key) (j.importPage kr).itemSig
          (j.toImport kr) p +
        total (n.bucketOf (clampDepth depth)) n.sig
          ((j.importPage kr).others (j.toImport kr)) p := by
  have hbatch : ((j.importPage kr).counted n.cfg.ID |>.filter fun k =>
      decide (k ∈ (j.toImport kr).map Item.Key)).Perm ((j.toImport kr).map Item.Key) := by
    refine (perm_ext_iff_of_nodup ((counted_nodup h.advances.ready _).filter _)
      h.distinct).mpr fun k => ?_
    rw [mem_filter, decide_eq_true_eq]
    refine ⟨fun hk => hk.2, fun hk => ⟨?_, hk⟩⟩
    obtain ⟨it, hit, rfl⟩ := mem_map.mp hk
    exact h.counted_of_item hit
  have hitems : total (n.bucketOf (clampDepth depth)) (j.importPage kr).sig
      ((j.toImport kr).map Item.Key) p = total (fun it => n.bucketOf (clampDepth depth) it.Key)
        (j.importPage kr).itemSig (j.toImport kr) p := by
    rw [total_map]
    exact total_congr (fun it hit => h.sig_of_item hit) p
  have hothers : total (n.bucketOf (clampDepth depth)) (j.importPage kr).sig
      ((j.importPage kr).others (j.toImport kr)) p = total (n.bucketOf (clampDepth depth)) n.sig
        ((j.importPage kr).others (j.toImport kr)) p := by
    refine total_congr (fun k hk => h.sig_of_other ?_) p
    exact of_decide_eq_true (mem_filter.mp hk).2
  rw [read_computeLocalDigests, h.bucketOf, h.advances.cfg,
    total_split _ _ fun k => decide (k ∈ (j.toImport kr).map Item.Key), total_perm hbatch, hitems,
    ← hothers, others, h.advances.cfg]
  simp only [decide_not]

theorem mem_others (k : K) :
    k ∈ (j.importPage kr).others (j.toImport kr) ↔ k ∉ (j.toImport kr).map Item.Key ∧
      n.liveAt (j.importPage kr).localCache.now.1 k = true ∧
      n.ring.ownsHash n.cfg.ID (n.hash64Of k) = true := by
  rw [others, mem_filter, mem_counted h.advances.ready, decide_eq_true_eq, h.advances.ring,
    h.advances.cfg, h.hash64Of, and_comm]
  refine and_congr_right fun hk => and_congr_left fun _ => ?_
  rw [Live, h.view, lastOf_eq_none hk, liveAt, Option.any_eq_true]

/-- The keys that were counted and are not among the others any more. -/
theorem filter_outdated :
    ((n.counted n.cfg.ID).filter fun k =>
      decide (k ∉ (j.importPage kr).others (j.toImport kr))) =
      n.outdated (j.toImport kr) (j.importPage kr).localCache.now.1 := by
  refine filter_congr fun k hk => ?_
  have howned := ((mem_counted h.ready _ k).mp hk).2
  rw [Bool.eq_iff_iff, decide_eq_true_eq, h.mem_others, Bool.or_eq_true, decide_eq_true_eq,
    Bool.not_eq_true', howned]
  simp only [and_true, not_and_or, not_not, Bool.not_eq_true]

/-- While the clock goes forward no key comes back. -/
theorem others_subset (hmono : Monotone n.localCache.rt.wall.reading)
    (hk : k ∈ (j.importPage kr).others (j.toImport kr)) : k ∈ n.counted n.cfg.ID := by
  obtain ⟨-, hlive, howned⟩ := (h.mem_others k).mp hk
  obtain ⟨e, he, hlive⟩ := (Option.any_eq_true _ _).mp hlive
  refine (mem_counted h.ready _ _).mpr ⟨⟨e, he, ?_⟩, howned⟩
  have hle : n.localCache.now.1 ≤ (j.importPage kr).localCache.now.1 := by
    have hlater := h.advances.later
    show n.localCache.rt.wall.reading _ ≤ (j.importPage kr).localCache.rt.wall.reading _
    rw [hlater.reading]
    exact hmono hlater.ticks
  simp only [Locked.live, Bool.not_eq_true', decide_eq_false_iff_not] at hlive ⊢
  omega

/-- The batch adds the same to both, so what is left to compare are the keys besides it. -/
theorem same_iff (hdepth : 1 ≤ depth ∧ depth ≤ 8) :
    Digest.Same (tally (fun it => (j.importPage kr).bucketOf depth.toNat it.Key)
        (j.importPage kr).itemSig (n.computeLocalDigests depth).1 (j.toImport kr))
        ((j.importPage kr).computeLocalDigests depth).1 ↔
      ∀ p, total (n.bucketOf depth.toNat) n.sig
          (n.outdated (j.toImport kr) (j.importPage kr).localCache.now.1) p =
        total (n.bucketOf depth.toNat) n.sig
          (((j.importPage kr).others (j.toImport kr)).filter fun k =>
            decide (k ∉ n.counted n.cfg.ID)) p := by
  have hclamp : clampDepth depth = depth.toNat := by
    rw [clampDepth, if_neg (by omega)]
  refine forall_congr' fun p => ?_
  rw [read_tally, h.read_after, read_computeLocalDigests, h.bucketOf, hclamp, add_comm,
    add_right_inj, ← h.filter_outdated]
  exact total_eq_iff (counted_nodup h.ready _) ((counted_nodup h.advances.ready _).filter _) p

end

end Arrives

/-- For every joiner with an unbounded cache, every depth and every batch: the digest that the
batch has been added to is the digest of the joiner after the import if and only if, in every
bucket, the keys of the old digest that the batch brings again or that have expired since weigh as
much as the keys that a clock set back has brought back. With a clock that goes forward and fewer
than 2 ^ 32 keys this says that there are no such keys. -/
theorem updateLocalDigestWithBatch_iff (h : Arrives n j kr) (hdepth : 1 ≤ depth ∧ depth ≤ 8) :
    ∃ m, (j.importPage kr).updateLocalDigestWithBatch (n.computeLocalDigests depth).1 depth
        (j.toImport kr) = some m ∧
      (Digest.Same m ((j.importPage kr).computeLocalDigests depth).1 ↔
        ∀ p, total (n.bucketOf depth.toNat) n.sig
            (n.outdated (j.toImport kr) (j.importPage kr).localCache.now.1) p =
          total (n.bucketOf depth.toNat) n.sig
            (((j.importPage kr).others (j.toImport kr)).filter fun k =>
              decide (k ∉ n.counted n.cfg.ID)) p) ∧
      (Monotone n.localCache.rt.wall.reading → (n.counted n.cfg.ID).length < 2 ^ 32 →
        (Digest.Same m ((j.importPage kr).computeLocalDigests depth).1 ↔
          ∀ k ∈ n.counted n.cfg.ID, k ∉ (j.toImport kr).map Item.Key ∧
            n.liveAt (j.importPage kr).localCache.now.1 k = true)) := by
  have hiff := h.same_iff hdepth
  refine ⟨_, updateLocalDigestWithBatch_eq _ _ ⟨by omega, hdepth.2⟩ _, hiff, fun hmono hfew => ?_⟩
  have hback : (((j.importPage kr).others (j.toImport kr)).filter fun k =>
      decide (k ∉ n.counted n.cfg.ID)) = [] := by
    refine filter_eq_nil_iff.mpr fun k hk => ?_
    rw [decide_eq_true_eq, not_not]
    exact h.others_subset hmono hk
  have hshort : (n.outdated (j.toImport kr) (j.importPage kr).localCache.now.1).length < 2 ^ 32 :=
    Nat.lt_of_le_of_lt (length_filter_le _ _) hfew
  rw [hiff, hback]
  refine (BucketSig.total_eq_zero_iff (fun _ => rfl) hshort).trans ?_
  rw [outdated, filter_eq_nil_iff]
  simp

/-- A batch with the key 8, which the joiner does not have. -/
theorem updateLocalDigestWithBatch_new :
    let n := holder (freshCache fun n => n) [1]
    let after := n.listed.importPage ⟨[⟨[8], [30], 0, 9, false⟩]⟩
    ∃ m : Digest, after.updateLocalDigestWithBatch (n.computeLocalDigests 2).1 2 [⟨8, 30, 0, 9⟩] =
      some m ∧ Digest.Same m (after.computeLocalDigests 2).1 := by
  intro n after
  obtain ⟨hadv, -⟩ := holder_spec (fun n => n) [1]
  have hitem : ∀ it ∈ n.listed.toImport ⟨[⟨[8], [30], 0, 9, false⟩]⟩, it = ⟨8, 30, 0, 9⟩ :=
    fun it hit => mem_singleton.mp hit
  have howned : n.ring.ownsHash n.cfg.ID (n.hash64Of 8) = true := by decide +kernel
  have harrives : Arrives n n.listed ⟨[⟨[8], [30], 0, 9, false⟩]⟩ :=
    { ready := hadv.ready
      lawful := hadv.kc ▸ byteKeys_lawful
      unbounded := hadv.cap.trans_le (plain_replica ..).unbounded
      silent := listed_silent hadv.ready
      distinct := nodup_singleton 8
      owned := fun it hit => (hitem it hit).symm ▸ howned
      live := fun it hit => (hitem it hit).symm ▸ rfl }
  obtain ⟨m, hm, -, hiff⟩ := updateLocalDigestWithBatch_iff harrives
    (show 1 ≤ (2 : Int) ∧ (2 : Int) ≤ 8 by decide)
  have hcounted : n.counted n.cfg.ID = [7] := by decide +kernel
  have hmono : Monotone n.localCache.rt.wall.reading := by
    rw [hadv.later.reading.trans (freshCache_reading _)]
    exact fun a b hab => Int.ofNat_le.mpr hab
  refine ⟨m, hm, (hiff hmono (by rw [hcounted]; decide)).mpr fun k hk => ?_⟩
  obtain rfl := mem_singleton.mp (hcounted ▸ hk)
  exact ⟨by decide, by decide +kernel⟩

/-- The joiner has the key 7 with the version that the batch brings: it is counted twice, and the
hash is gone. -/
theorem updateLocalDigestWithBatch_again :
    let n := holder (freshCache fun n => n) [1]
    let kr : MsgBackfillKeysResp := ⟨[⟨[7], [20], 0, 5, false⟩]⟩
    let digest := n.computeLocalDigests 2
    let n' := digest.2.importPage kr
    ((n'.updateLocalDigestWithBatch digest.1 2 (digest.2.toImport kr)).map fun m =>
        read m [0, 0], read (n'.computeLocalDigests 2).1 [0, 0]) = (some ⟨2, 0⟩, ⟨1, 7 ^^^ 5⟩) := by
  decide +kernel

end Node

end Kioshun
