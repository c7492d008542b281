import Kioshun.Cache.ShardRep

/-!
# Dropping entries

Evictions, expirations, deletions and reads only drop entries and put their items
into the pool: `Sheds`. Every evictor takes one entry out of a nonempty shard,
and the invariant holds again afterwards.
-/

namespace Kioshun

open CellStore Function List

universe u v
variable {K : Type u} {V : Type v}

namespace Locked

variable (policy : EvictionPolicy) (home : K → Prop) [DecidableEq K]

structure Valid (c : Locked K V) : Prop where
  core : Core home c
  indexed : c.Indexed policy

structure Step (c c' : Locked K V) : Prop where
  evolves : Evolves home c c'
  indexed : c'.Indexed policy

def view (c : Locked K V) (k : K) : Option (V × Int) :=
  (c.entry k).map fun b => (b.value, b.expireTime)

def live (now : Int) (e : V × Int) : Bool := !decide (0 < e.2 ∧ e.2 < now)

/-- Entries may be dropped into the pool; no value or expiry changes. -/
structure Sheds (c c' : Locked K V) : Prop where
  value : ∀ a, (c'.body a).value = (c.body a).value
  expireTime : ∀ a, (c'.body a).expireTime = (c.body a).expireTime
  sub : ∀ k a, c'.sh.data.lookup k = some a → c.sh.data.lookup k = some a
  dropped : ∀ k a, c.sh.data.lookup k = some a →
    c'.sh.data.lookup k = some a ∨ a ∈ c'.rt.pool
  pooled : ∀ a ∈ c.rt.pool, a ∈ c'.rt.pool

variable {policy home} {c c' c'' : Locked K V} {k : K} {a : Addr}

theorem Step.valid (h : Step policy home c c') : Valid policy home c' :=
  ⟨h.evolves.core, h.indexed⟩

theorem Step.refl (h : Valid policy home c) : Step policy home c c :=
  ⟨Evolves.refl h.core, h.indexed⟩

theorem Step.trans (h : Step policy home c c') (h' : Step policy home c' c'') :
    Step policy home c c'' :=
  ⟨h.evolves.trans h'.evolves, h'.indexed⟩

theorem Quiet.step (hq : Quiet c c') (hl : c'.sh.lfuList = c.sh.lfuList)
    (h : Valid policy home c) : Step policy home c c' :=
  ⟨hq.evolves h.core, hq.indexed hl h.indexed⟩

theorem view_of_entry_none (h : c'.entry = update c.entry k none) :
    c'.view = update c.view k none := by
  funext k'
  by_cases he : k' = k
  · subst he
    simp [view, h]
  · simp [view, h, he]

theorem view_of_entry (h : c'.entry = c.entry) : c'.view = c.view := by
  funext k'
  simp [view, h]

theorem view_eq_none : c.view k = none ↔ c.sh.data.lookup k = none := by
  simp [view, entry]

omit [DecidableEq K] in
theorem live_body (b : ItemBody K V) (now : Int) :
    live now (b.value, b.expireTime) = !b.expired now := rfl

theorem view_of_lookup (h : c.sh.data.lookup k = some a) :
    c.view k = some ((c.body a).value, (c.body a).expireTime) := by
  simp [view, entry, h]

theorem Core.home_of_view {e : V × Int} (h : Core home c) (he : c.view k = some e) : home k := by
  cases hk : c.sh.data.lookup k with
  | none =>
    rw [view_eq_none.mpr hk] at he
    cases he
  | some a => exact h.home k a hk

namespace Sheds

theorem refl (c : Locked K V) : Sheds c c :=
  ⟨fun _ => rfl, fun _ => rfl, fun _ _ h => h, fun _ _ h => .inl h, fun _ h => h⟩

theorem trans (h : Sheds c c') (h' : Sheds c' c'') : Sheds c c'' where
  value := fun a => (h'.value a).trans (h.value a)
  expireTime := fun a => (h'.expireTime a).trans (h.expireTime a)
  sub := fun k a hk => h.sub k a (h'.sub k a hk)
  dropped := by
    intro k a hk
    rcases h.dropped k a hk with hk' | hp
    · exact h'.dropped k a hk'
    · exact .inr (h'.pooled a hp)
  pooled := fun a ha => h'.pooled a (h.pooled a ha)

/-- An entry is kept as it is or gone. -/
theorem view (h : Sheds c c') (k : K) : c'.view k = c.view k ∨ c'.view k = none := by
  cases hk : c'.sh.data.lookup k with
  | none => exact .inr (view_eq_none.mpr hk)
  | some a =>
    left
    rw [view_of_lookup hk, view_of_lookup (h.sub k a hk), h.value, h.expireTime]

theorem items_subset (h : Sheds c c') : c'.sh.items ⊆ c.sh.items := by
  intro a ha
  obtain ⟨k, hk⟩ := Shard.mem_items.mp ha
  exact Shard.mem_items_of_lookup (h.sub k a hk)

theorem size_le (h : Sheds c c') (hc : Core home c) (hc' : Core home c') :
    c'.sh.size ≤ c.sh.size := by
  have hle := (subperm_of_subset hc'.items_nodup h.items_subset).length_le
  rw [hc.size, hc'.size]
  omega

end Sheds

theorem Sheds.view_eq (h : Sheds c c') (hd : c'.sh.data = c.sh.data) : c'.view = c.view := by
  funext k
  cases hk : c.sh.data.lookup k with
  | none => rw [view_eq_none.mpr hk, view_eq_none.mpr (by rw [hd]; exact hk)]
  | some a =>
    rw [view_of_lookup hk, view_of_lookup (by rw [hd]; exact hk), h.value, h.expireTime]

theorem Quiet.sheds (h : Quiet c c') : Sheds c c' where
  value := fun a => by rw [h.body]
  expireTime := fun a => by rw [h.body]
  sub := fun k a hk => by rwa [h.data] at hk
  dropped := fun k a hk => .inl (by rwa [h.data])
  pooled := fun a ha => by rwa [h.pool]

theorem Discards.sheds (h : Discards k a c c') (hc : Core home c)
    (hk : c.sh.data.lookup k = some a) : Sheds c c' where
  value := fun x => by rw [h.body hc hk]
  expireTime := fun x => by rw [h.body hc hk]
  sub := by
    intro k' x hx
    rw [h.data] at hx
    by_cases he : k' = k
    · subst he
      simp at hx
    · rwa [AList.lookup_erase_ne he] at hx
  dropped := by
    intro k' x hx
    by_cases he : k' = k
    · subst he
      rw [hk] at hx
      rw [h.pool, ← Option.some.inj hx]
      exact .inr mem_cons_self
    · rw [h.data, AList.lookup_erase_ne he]
      exact .inl hx
  pooled := fun x hx => by rw [h.pool]; exact mem_cons_of_mem _ hx

/-- Fields other than key, value and expiry are assigned. -/
theorem assign_sheds {f : ItemBody K V → ItemBody K V} (hv : ∀ b, (f b).value = b.value)
    (he : ∀ b, (f b).expireTime = b.expireTime) : Sheds c (c.assign a f) where
  value := by
    intro x
    rw [body_assign]
    by_cases hx : x = a
    · subst hx
      rw [update_self, hv]
    · rw [update_of_ne hx]
  expireTime := by
    intro x
    rw [body_assign]
    by_cases hx : x = a
    · subst hx
      rw [update_self, he]
    · rw [update_of_ne hx]
  sub := fun _ _ hk => hk
  dropped := fun _ _ hk => .inl hk
  pooled := fun _ hx => hx

theorem relink_sheds {g : Store (ItemBody K V) → Store (ItemBody K V)}
    (hb : (c.relink g).body = c.body) : Sheds c (c.relink g) where
  value := fun a => by rw [hb]
  expireTime := fun a => by rw [hb]
  sub := fun _ _ hk => hk
  dropped := fun _ _ hk => .inl hk
  pooled := fun _ hx => hx

section Index

omit [DecidableEq K] in
theorem Indexed.lfu (h : c.Indexed .LFU) : ∃ l, c.sh.lfuList = some l ∧ l.Tracks c.freqs := by
  simpa [Indexed] using h

omit [DecidableEq K] in
theorem Indexed.none (h : c.Indexed policy) (hp : policy ≠ .LFU) : c.sh.lfuList = none := by
  simpa [Indexed, hp] using h

variable {l : LfuList}

section
omit [DecidableEq K]

theorem indexed_of_tracks (hl : c.sh.lfuList = some l) (ht : l.Tracks c.freqs) :
    c.Indexed .LFU := by
  simp only [Indexed, if_true]
  exact ⟨l, hl, ht⟩

theorem indexed_of_none (hp : policy ≠ .LFU) (hl : c.sh.lfuList = Option.none) :
    c.Indexed policy := by
  simpa [Indexed, hp] using hl

theorem onLfuList_some (hl : c.sh.lfuList = some l) (f : LfuList → LfuList) :
    c.onLfuList f = { c with sh := { c.sh with lfuList := some (f l) } } := by
  simp [onLfuList, hl]

theorem onLfuList_quiet (hl : c.sh.lfuList = some l) (f : LfuList → LfuList) :
    Quiet c (c.onLfuList f) := by
  rw [onLfuList_some hl]
  exact ⟨rfl, rfl, rfl, rfl, rfl, rfl⟩

end

end Index

section Drop

theorem discard_lfuList (hp : policy ≠ .LFU) :
    (c.discard policy k a).sh.lfuList = c.sh.lfuList := by
  simp [discard, lfuRemove, hp, recycle, relink, deleteKey]

theorem discard_spec (h : Valid policy home c) (hk : c.sh.data.lookup k = some a) :
    Discards k a c (c.discard policy k a) ∧ (c.discard policy k a).Indexed policy := by
  by_cases hp : policy = .LFU
  · subst hp
    obtain ⟨l, hl, ht⟩ := h.indexed.lfu
    have hl' : ((c.deleteKey k).relink fun st => removeFromLRU st a).sh.lfuList = some l := hl
    have heq : c.discard .LFU k a =
        { ((c.deleteKey k).relink fun st => removeFromLRU st a).recycle a with
          sh := { (((c.deleteKey k).relink fun st => removeFromLRU st a).recycle a).sh with
            lfuList := some (l.remove a) } } := by
      simp only [discard, lfuRemove, if_true, onLfuList_some hl']
      rfl
    have hd : Discards k a c (c.discard .LFU k a) := by
      rw [heq]
      exact ⟨rfl, rfl, rfl, rfl, rfl, rfl⟩
    refine ⟨hd, indexed_of_tracks (l := l.remove a) (by rw [heq]) ?_⟩
    rw [hd.freqs h.core hk]
    exact LfuList.remove_tracks ht a
  · refine ⟨?_, indexed_of_none hp ((discard_lfuList hp).trans (h.indexed.none hp))⟩
    simp only [discard, lfuRemove, if_neg hp]
    exact ⟨rfl, rfl, rfl, rfl, rfl, rfl⟩

variable (stats : Bool)

section
omit [DecidableEq K]

theorem countMiss_quiet : Quiet c (c.countMiss stats) := by
  unfold countMiss
  split <;> exact ⟨rfl, rfl, rfl, rfl, rfl, rfl⟩

theorem countHit_quiet : Quiet c (c.countHit stats) := by
  unfold countHit
  split <;> exact ⟨rfl, rfl, rfl, rfl, rfl, rfl⟩

theorem countExpiration_quiet : Quiet c (c.countExpiration stats) := by
  unfold countExpiration
  split <;> exact ⟨rfl, rfl, rfl, rfl, rfl, rfl⟩

theorem countEviction_quiet : Quiet c (c.countEviction stats) := by
  unfold countEviction
  split <;> exact ⟨rfl, rfl, rfl, rfl, rfl, rfl⟩

@[simp] theorem lfuList_countMiss : (c.countMiss stats).sh.lfuList = c.sh.lfuList := by
  unfold countMiss
  split <;> rfl

@[simp] theorem lfuList_countHit : (c.countHit stats).sh.lfuList = c.sh.lfuList := by
  unfold countHit
  split <;> rfl

@[simp] theorem lfuList_countExpiration : (c.countExpiration stats).sh.lfuList = c.sh.lfuList := by
  unfold countExpiration
  split <;> rfl

@[simp] theorem lfuList_countEviction : (c.countEviction stats).sh.lfuList = c.sh.lfuList := by
  unfold countEviction
  split <;> rfl

end

end Drop

theorem oldest_spec (h : Core home c) :
    (c.sh.items = [] ∧ c.oldest = none) ∨
      ∃ k a, c.sh.data.lookup k = some a ∧ c.oldest = some (k, a) := by
  obtain ⟨xs, hxs, hp⟩ := h.chain
  rcases eq_nil_or_concat xs with rfl | ⟨l, a, rfl⟩
  · left
    have hprev : c.rt.mem.prev c.sh.tail = some c.sh.head :=
      (show LinkedList.Path c.rt.mem.next c.rt.mem.prev ([] ++ c.sh.head :: c.sh.tail :: []) from
        hxs.path).prev
    exact ⟨hp.symm.eq_nil, by simp [oldest, hprev]⟩
  · right
    have hprev : c.rt.mem.prev c.sh.tail = some a := by
      have hpath := hxs.path
      rw [show c.sh.head :: (l.concat a ++ [c.sh.tail]) =
        (c.sh.head :: l) ++ a :: c.sh.tail :: [] by simp] at hpath
      exact hpath.prev
    have ha : a ∈ c.sh.items := hp.mem_iff.mp (by simp)
    have hne : a ≠ c.sh.head := fun he => h.head_notMem (he ▸ ha)
    obtain ⟨k, hk, hkey⟩ := h.item_key ha
    exact ⟨k, a, hk, by simp [oldest, hprev, hne, hkey]⟩

/-- An eviction drops one entry; it fails on an empty shard only. -/
def EvictSpec (policy : EvictionPolicy) (c : Locked K V) (r : Bool × Locked K V) : Prop :=
  (r.1 = false ∧ c.sh.items = [] ∧ Quiet c r.2 ∧ r.2.Indexed policy) ∨
    (r.1 = true ∧ ∃ k a, c.sh.data.lookup k = some a ∧ Discards k a c r.2 ∧ r.2.Indexed policy)

/-- A victim is dropped, possibly after counters or the index have changed. -/
theorem evictItem_discards (hq : Quiet c c') (stats : Bool) :
    Discards k a c (c'.evictItem k a stats) := by
  have h : Discards k a c' (((c'.deleteKey k).relink fun st => removeFromLRU st a).recycle a) :=
    ⟨rfl, rfl, rfl, rfl, rfl, rfl⟩
  exact (h.quiet_left hq).quiet (countEviction_quiet stats)

theorem lfuList_evictItem (stats : Bool) : (c.evictItem k a stats).sh.lfuList = c.sh.lfuList :=
  lfuList_countEviction stats

theorem lruEvict_spec (h : Valid .LRU home c) (stats : Bool) :
    EvictSpec .LRU c (c.lruEvict stats) := by
  rcases oldest_spec h.core with ⟨hi, ho⟩ | ⟨k, a, hk, ho⟩
  · left
    rw [lruEvict, ho]
    exact ⟨rfl, hi, Quiet.refl c, h.indexed⟩
  · right
    rw [lruEvict, ho]
    refine ⟨rfl, k, a, hk, evictItem_discards (Quiet.refl c) stats, ?_⟩
    exact indexed_of_none (by decide) ((lfuList_evictItem stats).trans (h.indexed.none (by decide)))

/-- Without a frequency index the extra step of FIFO does nothing. -/
theorem fifoEvict_eq (hl : c.sh.lfuList = none) (stats : Bool) :
    c.fifoEvict stats = c.lruEvict stats := by
  unfold fifoEvict lruEvict
  cases c.oldest with
  | none => rfl
  | some victim =>
    have hl' : ((c.deleteKey victim.1).relink fun st => removeFromLRU st victim.2).sh.lfuList =
        none := hl
    simp only [hl', Option.isSome_none, Bool.false_eq_true, if_false]
    rfl

theorem fifoEvict_spec (h : Valid .FIFO home c) (stats : Bool) :
    EvictSpec .FIFO c (c.fifoEvict stats) := by
  have hl := h.indexed.none (by decide)
  have hi : ∀ {c : Locked K V}, c.Indexed .LRU → c.Indexed .FIFO := fun hc =>
    indexed_of_none (by decide) (hc.none (by decide))
  rw [fifoEvict_eq hl]
  rcases lruEvict_spec ⟨h.core, indexed_of_none (by decide) hl⟩ stats with
    ⟨hf, he, hq, hidx⟩ | ⟨ht, k, a, hk, hd, hidx⟩
  · exact .inl ⟨hf, he, hq, hi hidx⟩
  · exact .inr ⟨ht, k, a, hk, hd, hi hidx⟩

omit [DecidableEq K] in
theorem freqs_eq_some {g : Int} (h : c.freqs a = some g) : a ∈ c.sh.items := by
  by_contra hn
  simp [freqs, hn] at h

section
variable (h : Valid .LFU home c)
include h

theorem popLFU_spec :
    Quiet c c.popLFU.2 ∧ match c.popLFU.1 with
      | none => c.sh.items = [] ∧ c.popLFU.2.Indexed .LFU
      | some a => a ∈ c.sh.items ∧
          ∃ l, c.popLFU.2.sh.lfuList = some l ∧ l.Tracks (update c.freqs a none) := by
  obtain ⟨l, hl, ht⟩ := h.indexed.lfu
  have hspec := LfuList.removeLFU_tracks ht fun i => c.rt.choice (c.rt.draws + i)
  have hpop : c.popLFU = ((l.removeLFU fun i => c.rt.choice (c.rt.draws + i)).2,
      { rt := { c.rt with draws := c.rt.draws + c.sh.data.entries.length }
        sh := { c.sh with
          lfuList := some (l.removeLFU fun i => c.rt.choice (c.rt.draws + i)).1 } }) := by
    simp only [popLFU, hl]
  generalize l.removeLFU (fun i => c.rt.choice (c.rt.draws + i)) = r at hspec hpop
  have hq : Quiet c c.popLFU.2 := by
    rw [hpop]
    exact ⟨rfl, rfl, rfl, rfl, rfl, rfl⟩
  have hlist : c.popLFU.2.sh.lfuList = some r.1 := by rw [hpop]
  refine ⟨hq, ?_⟩
  rw [show c.popLFU.1 = r.2 by rw [hpop]]
  cases hv : r.2 with
  | none =>
    rw [hv] at hspec
    obtain ⟨hnone, hsame⟩ := hspec
    constructor
    · apply eq_nil_iff_forall_not_mem.mpr
      intro x hx
      have := hnone x
      simp [freqs, hx] at this
    · refine indexed_of_tracks hlist ?_
      rw [hq.freqs, hsame]
      exact ht
  | some victim =>
    rw [hv] at hspec
    obtain ⟨⟨g, hg, -⟩, htracks⟩ := hspec
    exact ⟨freqs_eq_some hg, r.1, hlist, htracks⟩

/-- The victim has the least frequency of the shard. -/
theorem popLFU_least (hv : c.popLFU.1 = some a) {x : Addr} (hx : x ∈ c.sh.items) :
    (c.body a).frequency ≤ (c.body x).frequency := by
  obtain ⟨l, hl, ht⟩ := h.indexed.lfu
  have hspec := LfuList.removeLFU_tracks ht fun i => c.rt.choice (c.rt.draws + i)
  simp only [popLFU, hl] at hv
  rw [hv] at hspec
  obtain ⟨⟨g, hg, hleast⟩, -⟩ := hspec
  have hfreq : g = (c.body a).frequency := by
    have ha := freqs_eq_some hg
    simp only [freqs, ha, if_true, Option.some.injEq] at hg
    exact hg.symm
  rw [← hfreq]
  exact hleast x _ (by simp [freqs, hx])

theorem lfuEvict_eq (hv : c.popLFU.1 = some a) (hk : c.sh.data.lookup k = some a) (stats : Bool) :
    c.lfuEvict stats = (true, c.popLFU.2.evictItem k a stats) := by
  have hkey : (c.popLFU.2.body a).key = some k := by
    rw [(popLFU_spec h).1.body]
    exact h.core.key k a hk
  simp only [lfuEvict, hv, hkey]

theorem lfuEvict_spec (stats : Bool) : EvictSpec .LFU c (c.lfuEvict stats) := by
  obtain ⟨hq, hspec⟩ := popLFU_spec h
  cases hv : c.popLFU.1 with
  | none =>
    rw [hv] at hspec
    have heq : c.lfuEvict stats = (false, c.popLFU.2) := by simp only [lfuEvict, hv]
    rw [heq]
    exact .inl ⟨rfl, hspec.1, hq, hspec.2⟩
  | some victim =>
    rw [hv] at hspec
    obtain ⟨hmem, l, hl, ht⟩ := hspec
    obtain ⟨k, hk, -⟩ := h.core.item_key hmem
    have hd : Discards k victim c (c.popLFU.2.evictItem k victim stats) :=
      evictItem_discards hq stats
    rw [lfuEvict_eq h hv hk]
    refine .inr ⟨rfl, k, victim, hk, hd, ?_⟩
    refine indexed_of_tracks ((lfuList_evictItem stats).trans hl) ?_
    rw [hd.freqs h.core hk]
    exact ht

end

omit [DecidableEq K] in
theorem worse_some (victim : Option Addr) (it : Addr) :
    c.worse victim it = some it ∨ (c.worse victim it = victim ∧ victim.isSome) := by
  cases victim with
  | none => exact .inl rfl
  | some v =>
    simp only [worse]
    split_ifs
    · exact .inl rfl
    · exact .inr ⟨rfl, rfl⟩

omit [DecidableEq K] in
/-- The victim of a sample is one of the sampled items. -/
theorem foldl_worse_mem (l : List (Sigma fun _ : K => Addr)) (start : Option Addr) :
    (l ≠ [] ∨ start.isSome) → ∃ a, l.foldl (fun v e => c.worse v e.2) start = some a ∧
      (start = some a ∨ a ∈ l.map Sigma.snd) := by
  induction l generalizing start with
  | nil =>
    intro h
    obtain ⟨a, ha⟩ := Option.isSome_iff_exists.mp (h.resolve_left fun hne => hne rfl)
    exact ⟨a, ha, .inl ha⟩
  | cons e l ih =>
    intro _
    rcases worse_some start e.2 (c := c) with hw | ⟨hw, hs⟩
    · obtain ⟨a, ha, hsrc⟩ := ih (c.worse start e.2) (.inr (by rw [hw]; rfl))
      refine ⟨a, ha, .inr ?_⟩
      rw [map_cons, mem_cons]
      rcases hsrc with he | hm
      · rw [hw] at he
        exact .inl (Option.some.inj he).symm
      · exact .inr hm
    · obtain ⟨a, ha, hsrc⟩ := ih (c.worse start e.2) (.inr (by rw [hw]; exact hs))
      refine ⟨a, ha, ?_⟩
      rcases hsrc with he | hm
      · exact .inl (hw ▸ he)
      · exact .inr (mem_cons_of_mem _ hm)

theorem sampleCount_pos (n : Nat) {len : Nat} (h : 0 < len) : 0 < sampleCount n len := by
  grind [sampleCount, defaultAdmissionLFUSampleSize, maxAdmissionLFUSampleSize]

omit [DecidableEq K] in
theorem pickVictim_spec (n : Nat) :
    Quiet c (c.pickVictim n).2 ∧ (c.pickVictim n).2.sh = c.sh ∧
      ((c.sh.items = [] ∧ (c.pickVictim n).1 = none) ∨
        ∃ a ∈ c.sh.items, (c.pickVictim n).1 = some a) := by
  unfold pickVictim
  split_ifs with hlen
  · refine ⟨Quiet.refl c, rfl, .inl ⟨?_, rfl⟩⟩
    rw [Shard.items, length_eq_zero_iff.mp hlen]
    rfl
  · refine ⟨⟨rfl, rfl, rfl, rfl, rfl, rfl⟩, rfl, .inr ?_⟩
    have hpos := sampleCount_pos n (Nat.pos_of_ne_zero hlen)
    generalize sampleCount n c.sh.data.entries.length = m at hpos
    have hne : (c.rt.iterate c.sh.data.entries).1.take m ≠ [] := by
      intro hnil
      have := congrArg List.length hnil
      rw [length_take, length_nil] at this
      simp only [Runtime.iterate, Iteration.length_shuffle] at this
      omega
    obtain ⟨a, ha, hsrc⟩ := foldl_worse_mem (c := c) _ none (.inl hne)
    refine ⟨a, ?_, ha⟩
    obtain ⟨e, he, rfl⟩ := mem_map.mp (hsrc.resolve_left fun h => by cases h)
    exact mem_map_of_mem (Iteration.mem_shuffle.mp (mem_of_mem_take he))

theorem removeVictim_eq (hkey : (c.body a).key = some k) (stats : Bool) :
    c.removeVictim a stats = c.evictItem k a stats := by
  simp only [removeVictim, hkey]
  rfl

/-- The sampled victim has been evicted and counted, or nothing has been taken out. -/
def PickSpec (policy : EvictionPolicy) (stats : Bool) (c : Locked K V) (r : Bool × Locked K V) :
    Prop :=
  (r.1 = false ∧ Quiet c r.2 ∧ r.2.sh.evictions = c.sh.evictions ∧ r.2.Indexed policy) ∨
    (r.1 = true ∧ ∃ k a, (c.pickVictim defaultAdmissionLFUSampleSize).1 = some a ∧
      c.sh.data.lookup k = some a ∧ Discards k a c r.2 ∧
      r.2.sh.evictions = c.sh.evictions + stats.toNat ∧ r.2.Indexed policy)

omit [DecidableEq K] in
theorem evictions_countEviction (stats : Bool) :
    (c.countEviction stats).sh.evictions = c.sh.evictions + stats.toNat := by
  cases stats with
  | true => rfl
  | false => rfl

/-- Removing a victim once the shard has been prepared for it. -/
theorem removeVictim_spec (h : Valid policy home c) (hp : policy ≠ .LFU) (ha : a ∈ c.sh.items)
    (hq : Quiet c c') (hl : c'.sh.lfuList = none) (he : c'.sh.evictions = c.sh.evictions)
    (stats : Bool) :
    ∃ k, c.sh.data.lookup k = some a ∧ Discards k a c (c'.removeVictim a stats) ∧
      (c'.removeVictim a stats).sh.evictions = c.sh.evictions + stats.toNat ∧
      (c'.removeVictim a stats).Indexed policy := by
  obtain ⟨k, hk, hkey⟩ := h.core.item_key ha
  rw [removeVictim_eq (k := k) (by rw [hq.body]; exact hkey)]
  refine ⟨k, hk, evictItem_discards hq stats, ?_, ?_⟩
  · rw [← he]
    exact evictions_countEviction stats
  · exact indexed_of_none hp ((lfuList_evictItem stats).trans hl)

theorem admissionEvict_picks (h : Valid policy home c) (hp : policy ≠ .LFU) (stats : Bool) :
    PickSpec policy stats c (c.admissionEvict stats) ∧
      ((c.admissionEvict stats).1 = false → c.sh.items = []) := by
  obtain ⟨hq, hsh, hcase⟩ := pickVictim_spec (c := c) defaultAdmissionLFUSampleSize
  have hl : (c.pickVictim defaultAdmissionLFUSampleSize).2.sh.lfuList = none := by
    rw [hsh]
    exact h.indexed.none hp
  rcases hcase with ⟨hi, hv⟩ | ⟨a, ha, hv⟩
  · simp only [admissionEvict, hv]
    exact ⟨.inl ⟨rfl, hq, by rw [hsh], indexed_of_none hp hl⟩, fun _ => hi⟩
  · simp only [admissionEvict, hv]
    generalize hnote : (if (c.pickVictim defaultAdmissionLFUSampleSize).2.sh.admission.isSome
      then _ else (c.pickVictim defaultAdmissionLFUSampleSize).2) = noted
    have hqn : Quiet c noted ∧ noted.sh.lfuList = none ∧ noted.sh.evictions = c.sh.evictions := by
      rw [← hnote]
      split_ifs
      · exact ⟨hq.trans ⟨rfl, rfl, rfl, rfl, rfl, rfl⟩, hl, by rw [hsh]⟩
      · exact ⟨hq, hl, by rw [hsh]⟩
    obtain ⟨k, hk, hremoved⟩ := removeVictim_spec h hp ha hqn.1 hqn.2.1 hqn.2.2 stats
    exact ⟨.inr ⟨rfl, k, a, hv, hk, hremoved⟩, nofun⟩

theorem admissionEvict_spec (h : Valid policy home c) (hp : policy ≠ .LFU) (stats : Bool) :
    EvictSpec policy c (c.admissionEvict stats) := by
  obtain ⟨⟨hno, hq, -, hi⟩ | ⟨hyes, k, a, -, hk, hd, -, hi⟩, hempty⟩ :=
    admissionEvict_picks h hp stats
  · exact .inl ⟨hno, hempty hno, hq, hi⟩
  · exact .inr ⟨hyes, k, a, hk, hd, hi⟩

/-- Every policy evicts one entry of a nonempty shard. -/
theorem evict_spec (h : Valid policy home c) (stats : Bool) :
    EvictSpec policy c (c.evict policy stats) := by
  cases policy with
  | LRU => exact lruEvict_spec h stats
  | LFU => exact lfuEvict_spec h stats
  | FIFO => exact fifoEvict_spec h stats
  | AdmissionLFU => exact admissionEvict_spec h (by decide) stats
  | other => exact admissionEvict_spec h (by decide) stats

/-- The outcome of an eviction as a step of the shard. -/
theorem EvictSpec.sheds {r : Bool × Locked K V} (hr : EvictSpec policy c r)
    (h : Valid policy home c) : Step policy home c r.2 ∧ Sheds c r.2 := by
  rcases hr with ⟨-, -, hq, hi⟩ | ⟨-, k, a, hk, hd, hi⟩
  · exact ⟨⟨hq.evolves h.core, hi⟩, hq.sheds⟩
  · exact ⟨⟨hd.evolves h.core hk, hi⟩, hd.sheds h.core hk⟩

theorem EvictSpec.size {r : Bool × Locked K V} (hr : EvictSpec policy c r)
    (hpos : 0 < c.sh.size) (hc : Core home c) : r.1 = true ∧ r.2.sh.size = c.sh.size - 1 := by
  rcases hr with ⟨-, hnil, -, -⟩ | ⟨ht, k, a, -, hd, -⟩
  · rw [hc.size, hnil] at hpos
    exact absurd hpos (by decide)
  · exact ⟨ht, hd.size⟩

/-- Admission refuses without a trace or evicts one entry. -/
theorem evictWithAdmission_spec (h : Valid .AdmissionLFU home c) (stats : Bool)
    (admission : AdaptiveAdmissionFilter) (keyHash : UInt64) :
    PickSpec .AdmissionLFU stats c (c.evictWithAdmission stats admission keyHash) := by
  obtain ⟨hq, hsh, hcase⟩ := pickVictim_spec (c := c) defaultAdmissionLFUSampleSize
  have hl : (c.pickVictim defaultAdmissionLFUSampleSize).2.sh.lfuList = none := by
    rw [hsh]
    exact h.indexed.none (by decide)
  rcases hcase with ⟨hi, hv⟩ | ⟨a, ha, hv⟩
  · simp only [evictWithAdmission, hv]
    exact .inl ⟨rfl, hq, by rw [hsh], indexed_of_none (by decide) hl⟩
  · simp only [evictWithAdmission, hv]
    generalize hgate : (c.pickVictim defaultAdmissionLFUSampleSize).2.consult admission keyHash a =
      gate
    have hqg : Quiet c gate.2 ∧ gate.2.sh.lfuList = none ∧
        gate.2.sh.evictions = c.sh.evictions := by
      rw [← hgate]
      exact ⟨hq.trans ⟨rfl, rfl, rfl, rfl, rfl, rfl⟩, hl, by rw [← hsh]; rfl⟩
    rcases hg : gate.1 with _ | _
    · exact .inl ⟨rfl, hqg.1, hqg.2.2, indexed_of_none (by decide) hqg.2.1⟩
    · obtain ⟨k, hk, hd, he, hi⟩ :=
        removeVictim_spec h (by decide) ha hqg.1 hqg.2.1 hqg.2.2 stats
      refine .inr ⟨rfl, k, a, hv, hk, hd.quiet ⟨rfl, rfl, rfl, rfl, rfl, rfl⟩, he, hi⟩

end Locked

end Kioshun
