import Kioshun.Cache.Order
import Kioshun.Cache.OpSpec
import Kioshun.Cache.Runs
import Mathlib.Data.Int.ConditionallyCompleteOrder
import Mathlib.Data.List.MinMax
import Mathlib.Data.Prod.Lex

/-!
# Insertion into a full shard under AdmissionLFU

A new key in a full shard either changes nothing that can be seen, or it takes the place of
one entry. The entry that goes is the first least one of the sample by frequency and then by
access time; a shard of at most five entries is sampled as a whole.
-/

namespace Kioshun

open CellStore List

universe u v
variable {K : Type u} {V : Type v}

/-- What `pickVictim` compares: lower frequency first, then older access. -/
def ItemBody.rank (b : ItemBody K V) : ℤ ×ₗ ℤ := toLex (b.frequency, b.lastAccess)

namespace Locked
variable {c c' : Locked K V} {home : K → Prop} {k : K} {a : Addr}

/-- The entries that `pickVictim` looks at, in the order of the iteration. -/
def sampled (c : Locked K V) : List (Sigma fun _ : K => Addr) :=
  (c.rt.iterate c.sh.data.entries).1.take
    (sampleCount defaultAdmissionLFUSampleSize c.sh.data.entries.length)

theorem worse_eq_argAux (c : Locked K V) :
    c.worse = List.argAux fun a b => (c.body a).rank < (c.body b).rank := by
  funext victim it
  cases victim with
  | none => rfl
  | some v => simp only [worse, List.argAux, ItemBody.rank, Prod.Lex.toLex_lt_toLex]

/-- The scan of the sample takes the first least item. -/
theorem pickVictim_eq_argmin (hne : c.sh.data.entries.length ≠ 0) :
    (c.pickVictim defaultAdmissionLFUSampleSize).1 =
      (c.sampled.map Sigma.snd).argmin fun a => (c.body a).rank := by
  rw [pickVictim, if_neg hne, worse_eq_argAux, List.argmin, foldl_map]
  rfl

/-- The victim is one of the sample, and no entry of the sample is worse. -/
theorem pickVictim_least (hv : (c.pickVictim defaultAdmissionLFUSampleSize).1 = some a) :
    (∃ key, (⟨key, a⟩ : Sigma fun _ : K => Addr) ∈ c.sampled) ∧
      ∀ e ∈ c.sampled, (c.body a).rank ≤ (c.body e.2).rank := by
  have hne : c.sh.data.entries.length ≠ 0 := by
    intro hnil
    rw [pickVictim, if_pos hnil] at hv
    cases hv
  rw [pickVictim_eq_argmin hne] at hv
  refine ⟨?_, fun e he => ?_⟩
  · obtain ⟨⟨key, a'⟩, he, rfl⟩ := mem_map.mp (argmin_mem hv)
    exact ⟨key, he⟩
  · exact le_of_mem_argmin (f := fun a => (c.body a).rank) (mem_map_of_mem he) hv

theorem sampled_subset : c.sampled ⊆ c.sh.data.entries :=
  fun _ he => Iteration.mem_shuffle.mp (mem_of_mem_take he)

/-- A small shard is sampled as a whole. -/
theorem mem_sampled (hle : c.sh.data.entries.length ≤ defaultAdmissionLFUSampleSize)
    {e : Sigma fun _ : K => Addr} : e ∈ c.sampled ↔ e ∈ c.sh.data.entries := by
  have hcount : sampleCount defaultAdmissionLFUSampleSize c.sh.data.entries.length =
      c.sh.data.entries.length := by
    unfold sampleCount
    unfold defaultAdmissionLFUSampleSize maxAdmissionLFUSampleSize at *
    simp
    omega
  rw [sampled, hcount, take_of_length_le (by simp [Runtime.iterate])]
  exact Iteration.mem_shuffle

variable [DecidableEq K]

structure Spared (c c' : Locked K V) : Prop where
  entries : c'.entry = c.entry
  order : c'.order = c.order
  size : c'.sh.size = c.sh.size
  evictions : c'.sh.evictions = c.sh.evictions

structure Replaced (statsEnabled : Bool) (key : K) (b : ItemBody K V) (c c' : Locked K V)
    (victim : K) : Prop where
  stored : ∃ old, c.entry victim = some old ∧
    (∀ e ∈ c.sampled, old.rank ≤ (c.body e.2).rank) ∧
    (c.sh.data.entries.length ≤ 5 →
      ∀ k b, c.entry k = some b → old.rank ≤ b.rank)
  sampled : ∃ a, (⟨victim, a⟩ : Sigma fun _ : K => Addr) ∈ c.sampled
  entries : c'.entry = Function.update (Function.update c.entry victim none) key (some b)
  order : c'.order = key :: c.order.erase victim
  size : c'.sh.size = c.sh.size
  evictions : c'.sh.evictions = c.sh.evictions + statsEnabled.toNat

section Insert
variable {cfg : Config} {cap : Int}

/-- What a full shard does to make room. -/
theorem makeRoom_picks (h : Valid .AdmissionLFU home c)
    (hp : cfg.evictionPolicy = .AdmissionLFU) (hcap : 0 < cap) (hfull : cap ≤ c.sh.size)
    (keyHash : UInt64) :
    PickSpec .AdmissionLFU cfg.statsEnabled c (c.makeRoom cfg cap keyHash) := by
  unfold makeRoom
  rw [if_pos ⟨hcap, hfull⟩, hp]
  cases c.sh.admission with
  | some admission => exact evictWithAdmission_spec h cfg.statsEnabled admission keyHash
  | none =>
    obtain ⟨hspec, hempty⟩ := admissionEvict_picks h (by decide) cfg.statsEnabled
    obtain ⟨hno, -⟩ | hyes := hspec
    · have hsize := h.core.size
      rw [hempty hno] at hsize
      exact absurd hfull (by rw [hsize]; simp; omega)
    · exact .inr ⟨rfl, hyes.2⟩

variable [Inhabited V]

/-- A new key in a full shard replaces one entry or changes nothing. -/
theorem setSection_full (h : Valid .AdmissionLFU home c)
    (hp : cfg.evictionPolicy = .AdmissionLFU) (hcap : 0 < cap) (hfull : cap ≤ c.sh.size)
    (hk : c.sh.data.lookup k = none) (keyHash : UInt64) (value : V) (now expireTime : Int) :
    Spared c (c.setSection cfg cap k keyHash value now expireTime) ∨
      ∃ victim, Replaced cfg.statsEnabled k ⟨value, expireTime, now, 1, some k⟩ c
        (c.setSection cfg cap k keyHash value now expireTime) victim := by
  have hroom := makeRoom_picks h hp hcap hfull keyHash
  simp only [setSection, hk]
  generalize c.makeRoom cfg cap keyHash = r at hroom
  rcases hroom with ⟨hno, hq, he, -⟩ | ⟨hyes, victim, a, hv, hvictim, hd, he, hi⟩
  · rw [if_neg (by rw [hno]; nofun)]
    exact .inl ⟨hq.entry, hq.order, hq.size, he⟩
  · rw [if_pos hyes, hp, setFresh_eq, if_neg (by decide)]
    have hcore := (hd.evolves h.core hvictim).core
    have hk₁ : r.2.sh.data.lookup k = none := (hd.sheds h.core hvictim).lookup_none hk
    have hentry : c.entry victim = some (c.body a) := by rw [entry, hvictim]; rfl
    obtain ⟨⟨key, hin⟩, hleast⟩ := pickVictim_least hv
    refine .inr ⟨victim, ⟨⟨_, hentry, hleast, fun hle k' b hb => ?_⟩, ⟨a, ?_⟩, ?_, ?_, ?_, he⟩⟩
    · obtain ⟨a', ha', rfl⟩ := Option.map_eq_some_iff.mp hb
      exact hleast ⟨k', a'⟩ ((mem_sampled hle).mpr (AList.mem_lookup_iff.mp ha'))
    · have hkey : c.sh.data.lookup key = some a := AList.mem_lookup_iff.mpr (sampled_subset hin)
      rwa [h.core.lookup_inj hkey hvictim] at hin
    · rw [hcore.entry_insertItem hk₁, hd.entry h.core hvictim]
    · rw [hcore.order_insertItem hk₁ fun _ => rfl, hd.order h.core hvictim]
    · show r.2.sh.size + 1 = c.sh.size
      rw [hd.size]
      omega

end Insert

end Locked

namespace InMemoryCache
variable {c : InMemoryCache K V} {s : Shard K} {k : K} [DecidableEq K] [Inhabited V]

/-- Whatever the filter has seen, the clock shows and the map iteration visits first: a `Set` of a
new key in a full shard replaces one entry, a least one of the sample, or changes nothing. -/
theorem Set_all_or_nothing (h : Valid c) (hp : c.config.evictionPolicy = .AdmissionLFU)
    (hs : c.shards[c.home k]? = some s) (hcap : 0 < c.perShardCap)
    (hfull : c.perShardCap ≤ s.size) (hk : s.data.lookup k = none) (value : V) (ttl : Int) :
    ∃ s', (c.Set k value ttl).2.shards[c.home k]? = some s' ∧
      (Locked.Spared (c.locked s) ((c.Set k value ttl).2.locked s') ∨
        ∃ victim, Locked.Replaced c.config.statsEnabled k
          ⟨value, stamp c.config c.now.1 ttl, c.now.1, 1, some k⟩ (c.locked s)
          ((c.Set k value ttl).2.locked s') victim) := by
  cases hopen : c.closed with
  | true =>
    rw [Set, if_pos hopen]
    exact ⟨s, hs, .inl ⟨rfl, rfl, rfl, rfl⟩⟩
  | false =>
    have hvalid : Locked.Valid .AdmissionLFU (fun k' => c.home k' = c.home k)
        (c.now.2.locked s) := hp ▸ h.now.1.valid.shard _ s hs
    rw [Set_eq_put hopen hs]
    refine ⟨_, getElem?_put_self hs, ?_⟩
    -- reading the clock changes nothing that `Spared` and `Replaced` look at
    obtain hsame | ⟨victim, hnew⟩ := Locked.setSection_full hvalid hp hcap hfull hk (c.hasher k)
      value c.now.1 (stamp c.config c.now.1 ttl)
    · exact .inl ⟨hsame.entries, hsame.order, hsame.size, hsame.evictions⟩
    · exact .inr ⟨victim, hnew.stored, hnew.sampled, hnew.entries, hnew.order, hnew.size,
        hnew.evictions⟩

/-- A third key in a shard for two. -/
theorem Set_all_or_nothing_small : ∃ s s' : Shard Nat,
    let c := run [.set 1 10 0, .set 2 20 0] (small .AdmissionLFU fun n => n)
    (c.shards[c.home 3]? = some s ∧ 0 < c.perShardCap ∧ c.perShardCap ≤ s.size ∧
      s.data.lookup 3 = none) ∧
    (c.Set 3 30 0).2.shards[c.home 3]? = some s' ∧
      (Locked.Spared (c.locked s) ((c.Set 3 30 0).2.locked s') ∨
        ∃ victim, Locked.Replaced c.config.statsEnabled 3
          ⟨30, stamp c.config c.now.1 0, c.now.1, 1, some 3⟩ (c.locked s)
          ((c.Set 3 30 0).2.locked s') victim) := by
  let c := run [.set 1 10 0, .set 2 20 0] (small .AdmissionLFU fun n => n)
  have hcap : c.perShardCap = 2 := by decide +kernel
  have hshard : c.shards[c.home 3]?.map (fun s => (s.size, s.data.lookup 3)) = some (2, none) := by
    decide +kernel
  obtain ⟨s, hs, hat⟩ := Option.map_eq_some_iff.mp hshard
  obtain ⟨hsize, hk⟩ := Prod.mk.inj hat
  obtain ⟨hvalid, hopen, -⟩ := New_spec (New_small .AdmissionLFU fun n => n)
  have hout := run_outcome hvalid hopen [.set 1 10 0, .set 2 20 0]
  obtain ⟨s', hs', heffect⟩ := Set_all_or_nothing hout.valid (by decide +kernel) hs
    (by rw [hcap]; decide) (by rw [hcap, hsize]) hk 30 0
  exact ⟨s, s', ⟨hs, by rw [hcap]; decide, by rw [hcap, hsize], hk⟩, hs', heffect⟩

end InMemoryCache

end Kioshun
