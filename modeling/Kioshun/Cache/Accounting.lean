import Kioshun.Cache.Sections
import Kioshun.Lib.Schedule
import Mathlib.Algebra.Group.Prod

/-!
# The statistics of the cache add up

Entries come in by `Set` and `Import` and go by `Delete`, `Clear`, eviction and expiry. The
size of a shard together with what has been evicted from it and what has expired changes
exactly with insertions, deletions and `Clear`, and its hits together with its misses
change exactly with lookups. These two numbers are followed through every section.
-/

namespace Kioshun

open CellStore WallClock List
open Schedule (tally)

universe u v
variable {K : Type u} {V : Type v}

/-- The entries of the shard with those that have been evicted from it or have expired, and the
lookups that it has counted. -/
def Shard.books (s : Shard K) : Int × Nat :=
  (s.size + s.evictions + s.expirations, s.hits + s.misses)

namespace Locked
variable {c : Locked K V} {cfg : Config} [DecidableEq K]

section
variable (c)

section
omit [DecidableEq K]

theorem onLfuList_books (f : LfuList → LfuList) : (c.onLfuList f).sh.books = c.sh.books := by
  unfold onLfuList
  split <;> rfl

theorem lfuIncrement_books (a : Addr) : (c.lfuIncrement a).sh.books = c.sh.books := by
  unfold lfuIncrement
  split <;> rfl

theorem lfuRemove_books (policy : EvictionPolicy) (a : Addr) :
    (c.lfuRemove policy a).sh.books = c.sh.books := by
  unfold lfuRemove
  split
  · exact onLfuList_books c _
  · rfl

theorem recycle_books (a : Addr) : (c.recycle a).sh.books = c.sh.books + (-1, 0) := by
  refine Prod.ext ?_ rfl
  simp only [Shard.books, recycle, Prod.fst_add]
  omega

theorem countEviction_books : (c.countEviction true).sh.books = c.sh.books + (1, 0) := by
  refine Prod.ext ?_ rfl
  simp only [Shard.books, countEviction, if_true, Prod.fst_add]
  omega

theorem countExpiration_books : (c.countExpiration true).sh.books = c.sh.books + (1, 0) := by
  refine Prod.ext ?_ rfl
  simp only [Shard.books, countExpiration, if_true, Prod.fst_add]
  omega

theorem countMiss_books : (c.countMiss true).sh.books = c.sh.books + (0, 1) := by
  simp only [Shard.books, countMiss, if_true, Prod.mk_add_mk, Int.add_zero, Nat.add_assoc]

theorem countHit_books : (c.countHit true).sh.books = c.sh.books + (0, 1) := by
  simp only [Shard.books, countHit, if_true, Prod.mk_add_mk, Int.add_zero, Nat.add_right_comm]

end

/-- An entry is taken out. -/
theorem discard_books (policy : EvictionPolicy) (key : K) (a : Addr) :
    (c.discard policy key a).sh.books = c.sh.books + (-1, 0) :=
  (recycle_books _ a).trans (congrArg (· + _) (lfuRemove_books _ policy a))

theorem expire_books (policy : EvictionPolicy) (key : K) (a : Addr) :
    ((c.discard policy key a).countExpiration true).sh.books = c.sh.books := by
  rw [countExpiration_books, discard_books, add_assoc]
  exact add_zero _

omit [DecidableEq K] in
theorem evicted_books (a : Addr) : ((c.recycle a).countEviction true).sh.books = c.sh.books := by
  rw [countEviction_books, recycle_books, add_assoc]
  exact add_zero _

theorem evictItem_books (key : K) (a : Addr) : (c.evictItem key a true).sh.books = c.sh.books :=
  evicted_books _ a

theorem lruEvict_books : (c.lruEvict true).2.sh.books = c.sh.books := by
  unfold lruEvict
  split
  · rfl
  · exact evictItem_books c _ _

theorem fifoEvict_books : (c.fifoEvict true).2.sh.books = c.sh.books := by
  unfold fifoEvict
  split
  · rfl
  · simp only
    split
    · exact (evicted_books _ _).trans (onLfuList_books _ _)
    · exact evicted_books _ _

omit [DecidableEq K] in
theorem popLFU_books : c.popLFU.2.sh.books = c.sh.books := by
  unfold popLFU
  split <;> rfl

theorem lfuEvict_books : (c.lfuEvict true).2.sh.books = c.sh.books := by
  unfold lfuEvict
  simp only
  split
  · exact popLFU_books c
  · split
    · exact popLFU_books c
    · exact (evictItem_books ..).trans (popLFU_books c)

omit [DecidableEq K] in
theorem pickVictim_books (size : Nat) : (c.pickVictim size).2.sh.books = c.sh.books := by
  unfold pickVictim
  split <;> rfl

theorem removeVictim_books (victim : Addr) :
    (c.removeVictim victim true).sh.books = c.sh.books := by
  unfold removeVictim
  cases (c.body victim).key <;> exact evicted_books _ victim

theorem admissionEvict_books : (c.admissionEvict true).2.sh.books = c.sh.books := by
  unfold admissionEvict
  simp only
  split
  · exact pickVictim_books c _
  · refine ((removeVictim_books _ _).trans ?_).trans (pickVictim_books c
      defaultAdmissionLFUSampleSize)
    split <;> rfl

theorem evict_books (policy : EvictionPolicy) : (c.evict policy true).2.sh.books = c.sh.books := by
  cases policy with
  | LRU => exact lruEvict_books c
  | LFU => exact lfuEvict_books c
  | FIFO => exact fifoEvict_books c
  | AdmissionLFU => exact admissionEvict_books c
  | other => exact admissionEvict_books c

theorem evictWithAdmission_books (admission : AdaptiveAdmissionFilter) (keyHash : UInt64) :
    (c.evictWithAdmission true admission keyHash).2.sh.books = c.sh.books := by
  unfold evictWithAdmission
  simp only
  split
  · exact pickVictim_books c _
  · split
    · exact (removeVictim_books _ _).trans (pickVictim_books c _)
    · exact pickVictim_books c _

end

/-- The shard makes room, or the candidate is refused. -/
theorem makeRoom_books (hstats : cfg.statsEnabled = true) (c : Locked K V) (cap : Int)
    (keyHash : UInt64) : (c.makeRoom cfg cap keyHash).2.sh.books = c.sh.books := by
  unfold makeRoom
  rw [hstats]
  split
  · split
    · exact evictWithAdmission_books c _ keyHash
    · exact evict_books c cfg.evictionPolicy
  · rfl

theorem evictLoop_books (hstats : cfg.statsEnabled = true) (cap : Int) (rounds : Nat)
    (c : Locked K V) : (c.evictLoop cfg cap rounds).sh.books = c.sh.books := by
  induction rounds generalizing c with
  | zero => rfl
  | succ rounds ih =>
    have hevict := evict_books c cfg.evictionPolicy
    simp only [evictLoop, hstats]
    split
    · split
      · exact (ih _).trans hevict
      · exact hevict
    · rfl

omit [DecidableEq K] in
theorem touch_books (c : Locked K V) (policy : EvictionPolicy) (a : Addr) (now : Int) :
    (c.touch policy a now).sh.books = c.sh.books := by
  cases policy with
  | LFU => exact lfuIncrement_books _ a
  | _ => rfl

omit [DecidableEq K] in
theorem refresh_books (c : Locked K V) (policy : EvictionPolicy) (a : Addr) :
    (c.refresh policy a).sh.books = c.sh.books := by
  cases policy with
  | LFU => exact onLfuList_books ..
  | _ => rfl

def GetOutcome.ends : GetOutcome → Bool
  | .upgrade => false
  | _ => true

/-- A section of `get` is one lookup, unless the call goes on under the write lock. -/
theorem getSection_books (hstats : cfg.statsEnabled = true) (c : Locked K V) (lockedWrite : Bool)
    (key : K) : (c.getSection cfg lockedWrite key).2.sh.books =
      c.sh.books + (0, (c.getSection cfg lockedWrite key).1.ends.toNat) := by
  unfold getSection
  rw [hstats]
  split
  · exact countMiss_books c
  · simp only
    split
    · split
      · exact (countMiss_books _).trans (congrArg (· + _) (expire_books ..))
      · exact (add_zero _).symm
    · exact (countHit_books _).trans (congrArg (· + _) (touch_books ..))

theorem deleteSection_books (c : Locked K V) (policy : EvictionPolicy) (key : K) :
    (c.deleteSection policy key).2.sh.books =
      c.sh.books + (-((c.deleteSection policy key).1.toNat : Int), 0) := by
  unfold deleteSection
  split
  · exact (add_zero _).symm
  · exact discard_books c policy key _

theorem existsSection_books (hstats : cfg.statsEnabled = true) (c : Locked K V) (key : K)
    (now : Int) : (c.existsSection cfg key now).2.sh.books = c.sh.books := by
  unfold existsSection
  rw [hstats]
  split
  · rfl
  · split
    · exact expire_books c _ key _
    · rfl

omit [DecidableEq K] in
theorem cleanupScan_books (now : Int) (policy : EvictionPolicy)
    (l : List (Sigma fun _ : K => Addr)) (acc : List K × Locked K V) :
    (l.foldl (cleanupScan now policy) acc).2.sh.books = acc.2.sh.books := by
  induction l generalizing acc with
  | nil => rfl
  | cons e l ih =>
    refine (ih _).trans ?_
    unfold cleanupScan
    split
    · rfl
    · split <;> rfl

theorem cleanupDrop_books (policy : EvictionPolicy) (l : List K) (c : Locked K V) :
    (l.foldl (cleanupDrop policy true) c).sh.books = c.sh.books := by
  induction l generalizing c with
  | nil => rfl
  | cons key l ih =>
    refine (ih _).trans ?_
    unfold cleanupDrop
    split
    · rfl
    · exact expire_books c policy key _

theorem cleanup_books (c : Locked K V) (now : Int) (policy : EvictionPolicy) :
    (c.cleanup now policy true).sh.books = c.sh.books :=
  (cleanupDrop_books policy _ _).trans (cleanupScan_books now policy _ _)

section Fresh
omit [DecidableEq K] in
/-- An item is taken, filled in and linked, and the shard grows. -/
theorem grow_books (c : Locked K V) : c.grow.sh.books = c.sh.books + (1, 0) := by
  refine Prod.ext ?_ rfl
  simp only [Shard.books, grow, Prod.fst_add]
  omega

variable [Inhabited V]

theorem setFresh_books (c : Locked K V) (policy : EvictionPolicy) (key : K) (value : V)
    (now expireTime : Int) :
    (c.setFresh policy key value now expireTime).sh.books = c.sh.books + (1, 0) := by
  unfold setFresh
  simp only
  refine (grow_books _).trans (congrArg (· + _) ?_)
  split
  · exact onLfuList_books ..
  · rfl

/-- `Set` adds an entry if the key is absent and not refused. -/
theorem setSection_books (hstats : cfg.statsEnabled = true) (c : Locked K V) (cap : Int) (key : K)
    (keyHash : UInt64) (value : V) (now expireTime : Int) :
    (c.setSection cfg cap key keyHash value now expireTime).sh.books =
      c.sh.books + (((c.taken cfg cap key keyHash).isSome.toNat : Int), 0) := by
  unfold setSection taken
  cases c.sh.data.lookup key with
  | some a =>
    refine Eq.trans ?_ (add_zero _).symm
    exact (refresh_books ..).trans (lfuRemove_books ..)
  | none =>
    have hroom := makeRoom_books hstats c cap keyHash
    simp only
    split
    · exact (setFresh_books ..).trans (congrArg (· + _) hroom)
    · exact hroom.trans (add_zero _).symm

theorem importSection_books (hstats : cfg.statsEnabled = true) (c : Locked K V) (cap : Int)
    (key : K) (value : V) (now expireAbs : Int) :
    (c.importSection cfg cap key value now expireAbs).sh.books =
      c.sh.books + (((c.sh.data.lookup key).isNone.toNat : Int), 0) := by
  have hitem : (c.importItem cfg cap key).2.sh.books =
      c.sh.books + (((c.sh.data.lookup key).isNone.toNat : Int), 0) := by
    unfold importItem
    cases c.sh.data.lookup key with
    | some a => exact (lfuRemove_books c _ a).trans (add_zero _).symm
    | none =>
      refine (grow_books _).trans (congrArg (· + _) ?_)
      by_cases hcap : 0 < cap
      · rw [if_pos hcap]
        exact evictLoop_books hstats cap _ c
      · rw [if_neg hcap]
        rfl
  unfold importSection
  exact (refresh_books ..).trans hitem

omit [DecidableEq K] in
theorem clearSection_books (c : Locked K V) (policy : EvictionPolicy) :
    (c.clearSection policy).sh.books = c.sh.books + (-c.sh.size, 0) := by
  refine Prod.ext ?_ rfl
  simp only [Shard.books, clearSection, Prod.fst_add]
  omega

end Fresh

end Locked

/-- `Stats`, but for the hit ratio. -/
structure CacheStats where
  Hits : Nat
  Misses : Nat
  Evictions : Nat
  Expirations : Nat
  Size : Int
  Capacity : Int
  Shards : Nat

namespace InMemoryCache
variable {c : InMemoryCache K V} {i : Nat} {s : Shard K} {t : Locked K V}

def Stats (c : InMemoryCache K V) : CacheStats where
  Hits := if c.config.statsEnabled then (c.shards.map Shard.hits).sum else 0
  Misses := if c.config.statsEnabled then (c.shards.map Shard.misses).sum else 0
  Evictions := if c.config.statsEnabled then (c.shards.map Shard.evictions).sum else 0
  Expirations := if c.config.statsEnabled then (c.shards.map Shard.expirations).sum else 0
  Size := c.Size
  Capacity := c.config.maxSize.toInt
  Shards := c.shards.length

def books (c : InMemoryCache K V) : Int × Nat := (c.shards.map Shard.books).sum

theorem books_eq (hstats : c.config.statsEnabled = true) :
    c.books = (c.Size + c.Stats.Evictions + c.Stats.Expirations,
      c.Stats.Hits + c.Stats.Misses) := by
  simp only [books, Size, Stats, hstats, if_true]
  induction c.shards with
  | nil => rfl
  | cons s l ih =>
    simp only [map_cons, sum_cons, ih, Shard.books, Prod.mk_add_mk, Nat.cast_add, Prod.mk.injEq]
    omega

theorem sum_map_set {α M : Type*} [AddCommMonoid M] (f : α → M) {l : List α} {i : Nat} {a b : α}
    (h : l[i]? = some a) : ((l.set i b).map f).sum + f a = (l.map f).sum + f b := by
  induction l generalizing i with
  | nil => cases h
  | cons x l ih =>
    cases i with
    | zero =>
      obtain rfl := Option.some.inj h
      simp only [set_cons_zero, map_cons, sum_cons]
      ac_rfl
    | succ i =>
      simp only [set_cons_succ, map_cons, sum_cons, add_assoc, ih h]

theorem put_books {d : Int × Nat} (hs : c.shards[i]? = some s) (h : t.sh.books = s.books + d) :
    (c.put i t).books = c.books + d := by
  have hsum := sum_map_set Shard.books (b := t.sh) hs
  rw [h, ← add_assoc, add_right_comm] at hsum
  exact add_right_cancel hsum

variable [Inhabited V]

section Ledger
variable [DecidableEq K]

def added (key : K) (c c' : InMemoryCache K V) : Nat :=
  ((c.view key).isNone && (c'.view key).isSome).toNat

def entries (c : InMemoryCache K V) : Nat := (c.shards.map fun s => s.data.entries.length).sum

def importAdds (now : Int) : InMemoryCache K V → List (Item K V) → Nat
  | _, [] => 0
  | c, it :: items =>
    added it.Key c (c.importOne now it) + importAdds now (c.importOne now it) items

def inserts (c : InMemoryCache K V) : Op K V → Nat
  | .set key value ttl => added key c (c.Set key value ttl).2
  | .import_ items => importAdds c.now.1 c.now.2 items
  | _ => 0

def deletes (c : InMemoryCache K V) : Op K V → Nat
  | .delete key => (c.Delete key).1.toNat
  | _ => 0

def clears (c : InMemoryCache K V) : Op K V → Nat
  | .clear => c.entries
  | _ => 0

def gets (_ : InMemoryCache K V) : Op K V → Nat
  | .get _ | .getWithTTL _ => 1
  | _ => 0

end Ledger

section Writing
variable {key : K} [DecidableEq K]

omit [Inhabited V] in
theorem view_put_home (hs : c.shards[c.home key]? = some s) :
    (c.put (c.home key) t).view key = t.view key :=
  view_of_shard (getElem?_put_self hs)

/-- `Set` adds the key exactly if it takes an item for it. -/
theorem Valid.added_set (h : Valid c) (hs : c.shards[c.home key]? = some s) (value : V)
    (now expireTime : Int) :
    added key c (c.put (c.home key) ((c.locked s).setSection c.config c.perShardCap key
      (c.hasher key) value now expireTime)) =
      ((c.locked s).taken c.config c.perShardCap key (c.hasher key)).isSome.toNat := by
  have hval := h.shard _ s hs
  rw [added, view_put_home hs, view_of_shard hs]
  cases hk : (c.locked s).sh.data.lookup key with
  | some a =>
    rw [Locked.view_of_lookup hk]
    simp only [Locked.taken, hk]
    rfl
  | none =>
    obtain ⟨hstep, hsheds, -⟩ := Locked.makeRoom_spec hval c.perShardCap (c.hasher key)
    rw [Locked.view_eq_none.mpr hk]
    simp only [Locked.setSection, Locked.taken, hk]
    split
    · have hw := (Locked.setFresh_spec hstep.valid (hsheds.lookup_none hk) rfl value now
        expireTime).1
      have hlook := hw.lookup key
      rw [if_pos rfl] at hlook
      rw [Locked.view_of_lookup hlook]
      rfl
    · rw [Locked.view_eq_none.mpr (hsheds.lookup_none hk)]
      rfl

variable (h : Valid c) (hstats : c.config.statsEnabled = true)
include h hstats

variable (key : K)

theorem Valid.set_books (value : V) (now expireTime : Int) :
    (c.perform (.set key value now expireTime)).books =
      c.books + ((added key c (c.perform (.set key value now expireTime)) : Int), 0) := by
  obtain ⟨s, hs⟩ := h.home_shard key
  simp only [perform, updateShard_eq hs]
  rw [h.added_set hs]
  exact put_books hs (Locked.setSection_books hstats ..)

theorem Valid.import_books (now : Int) (it : Item K V) :
    (c.importOne now it).books = c.books + ((added it.Key c (c.importOne now it) : Int), 0) := by
  obtain ⟨s, hs⟩ := h.home_shard it.Key
  have hadded : added it.Key c (c.importOne now it) =
      ((c.locked s).sh.data.lookup it.Key).isNone.toNat := by
    rw [added, (importOne_spec h now it).2.2, view_of_shard hs]
    cases hk : (c.locked s).sh.data.lookup it.Key with
    | none => simp [Locked.view_eq_none.mpr hk]
    | some a => simp [Locked.view_of_lookup hk]
  rw [hadded, importOne, updateShard_eq hs]
  exact put_books hs (Locked.importSection_books hstats ..)

section
omit [Inhabited V]

theorem Valid.get_books (lockedWrite : Bool) :
    let r := c.onShard (c.home key) .miss (Locked.getSection c.config lockedWrite key)
    r.2.books = c.books + (0, r.1.ends.toNat) := by
  obtain ⟨s, hs⟩ := h.home_shard key
  rw [onShard_eq hs]
  exact put_books hs (Locked.getSection_books hstats ..)

omit hstats in
theorem Valid.delete_books :
    let r := c.onShard (c.home key) false (Locked.deleteSection c.config.evictionPolicy key)
    r.2.books = c.books + (-(r.1.toNat : Int), 0) := by
  obtain ⟨s, hs⟩ := h.home_shard key
  rw [onShard_eq hs]
  exact put_books hs (Locked.deleteSection_books ..)

theorem Valid.exists_books (now : Int) :
    (c.onShard (c.home key) false (Locked.existsSection c.config key now)).2.books = c.books := by
  obtain ⟨s, hs⟩ := h.home_shard key
  rw [onShard_eq hs]
  exact (put_books hs ((Locked.existsSection_books hstats ..).trans (add_zero _).symm)).trans
    (add_zero _)

end

end Writing

section Loops
omit [Inhabited V] in
/-- A loop over the shards none of whose rounds counts anything. -/
theorem foldl_books {f : Locked K V → Locked K V} (hf : ∀ s, (f s).sh.books = s.sh.books)
    (l : List Nat) (c : InMemoryCache K V) (hl : ∀ i ∈ l, i < c.shards.length) :
    (l.foldl (fun acc i => acc.updateShard i f) c).books = c.books := by
  induction l generalizing c with
  | nil => rfl
  | cons i l ih =>
    obtain ⟨s, hs⟩ : ∃ s, c.shards[i]? = some s :=
      ⟨_, getElem?_eq_getElem (hl i mem_cons_self)⟩
    have hround := put_books hs ((hf (c.locked s)).trans (add_zero _).symm)
    rw [foldl_cons, updateShard_eq hs, ih _ fun j hj => ?_, hround, add_zero]
    rw [put_sameShape.length]
    exact hl j (mem_cons_of_mem i hj)

/-- The loop of `Clear` after `n` shards. -/
theorem foldl_clear_books (policy : EvictionPolicy) (c : InMemoryCache K V) (n : Nat)
    (hn : n ≤ c.shards.length) :
    let c' := (List.range n).foldl (fun acc i => acc.updateShard i (Locked.clearSection policy)) c
    c'.books = c.books + (-((c.shards.take n).map Shard.size).sum, 0) ∧
      ∀ i, n ≤ i → c'.shards[i]? = c.shards[i]? := by
  induction n with
  | zero => exact ⟨(add_zero _).symm, fun _ _ => rfl⟩
  | succ n ih =>
    obtain ⟨hbooks, hrest⟩ := ih (by omega)
    rw [range_succ, foldl_append, foldl_cons, foldl_nil]
    generalize (List.range n).foldl
      (fun acc i => acc.updateShard i (Locked.clearSection policy)) c =
      c₁ at hbooks hrest
    have hs : c.shards[n]? = some c.shards[n] := getElem?_eq_getElem (by omega)
    have hs₁ : c₁.shards[n]? = some c.shards[n] := (hrest n (Nat.le_refl n)).trans hs
    rw [updateShard_eq hs₁]
    refine ⟨?_, fun i hi => ?_⟩
    · rw [put_books hs₁ (Locked.clearSection_books _ policy), hbooks, add_assoc, take_add_one, hs,
        Option.toList_some, map_append, sum_append, map_singleton, sum_singleton, neg_add]
      rfl
    · rw [getElem?_put_ne (by omega)]
      exact hrest i (by omega)

variable [DecidableEq K]

omit [Inhabited V] in
theorem Valid.size_eq_entries (h : Valid c) : c.Size = c.entries := by
  have hsizes : c.shards.map Shard.size = c.shards.map fun s => (s.data.entries.length : Int) := by
    refine map_congr_left fun s hs => ?_
    obtain ⟨i, hi⟩ := mem_iff_getElem?.mp hs
    exact (h.shardSound hi).size
  rw [Size, hsizes, entries]
  induction c.shards with
  | nil => rfl
  | cons s l ih => simp only [map_cons, sum_cons, ih, Nat.cast_add]

theorem Valid.Clear_books (h : Valid c) (hopen : c.closed = false) :
    c.Clear.books = c.books + (-(c.entries : Int), 0) := by
  have hall := (foldl_clear_books c.config.evictionPolicy c c.shards.length (Nat.le_refl _)).1
  rw [take_length] at hall
  rw [Clear, hopen, if_neg Bool.false_ne_true, ← h.size_eq_entries]
  exact hall

section
omit [DecidableEq K] [Inhabited V]

theorem Peeks.shards {α : Type*} {f : Locked K V → α × Locked K V} (hf : Peeks f)
    (c : InMemoryCache K V) (i : Nat) (d : α) : (c.onShard i d f).2.shards = c.shards := by
  cases hs : c.shards[i]? with
  | none => simp only [onShard, hs]
  | some s => rw [(hf.idle hs d).shards]

theorem shards_foldl {ι β : Type*} (cache : β → InMemoryCache K V) {round : β → ι → β}
    (hround : ∀ b i, (cache (round b i)).shards = (cache b).shards) (l : List ι) (b : β) :
    (cache (l.foldl round b)).shards = (cache b).shards := by
  induction l generalizing b with
  | nil => rfl
  | cons i l ih => exact (ih (round b i)).trans (hround b i)

theorem shards_Keys (c : InMemoryCache K V) : c.Keys.2.shards = c.shards := by
  unfold Keys
  split
  · rfl
  · refine shards_foldl Prod.snd (fun acc i => ?_) (List.range c.shards.length) ([], c.now.2)
    exact (keysSection_peeks c.now.1).shards acc.2 i []

theorem shards_Export (c : InMemoryCache K V) (selectFn : K → Bool) (max : Nat) :
    (c.Export selectFn max).2.shards = c.shards := by
  refine shards_foldl Prod.snd (fun acc i => ?_) (List.range c.shards.length) (([], false), c)
  split
  · rfl
  · exact (exportSection_peeks selectFn max acc.1.1).shards acc.2 i acc.1

end

end Loops

section Calls
omit [Inhabited V] in
theorem books_of_shards {c' : InMemoryCache K V} (h : c'.shards = c.shards) :
    c'.books = c.books + (0, 0) := by
  rw [books, h]
  exact (add_zero _).symm

variable [DecidableEq K] (h : Valid c) (hopen : c.closed = false)
  (hstats : c.config.statsEnabled = true)
include h hopen hstats

/-- A call of `get` is one lookup, also if it takes two sections. -/
theorem Valid.lookup_books (key : K) : (c.get key).2.books = c.books + (0, 1) := by
  have hfirst := h.get_books hstats key
    (decide (c.config.evictionPolicy = .LRU ∨ c.config.evictionPolicy = .LFU))
  have hacts := (h.get_acts key
    (decide (c.config.evictionPolicy = .LRU ∨ c.config.evictionPolicy = .LFU))).1
  rw [perform] at hacts
  simp only [get, hopen, Bool.false_eq_true, if_false]
  generalize c.onShard (c.home key) .miss (Locked.getSection c.config _ key) = r at hfirst hacts
  obtain ⟨o, c₁⟩ := r
  cases o with
  | miss => exact hfirst
  | hit item now => exact hfirst
  | upgrade =>
    have hhome : c₁.home key = c.home key := hacts.shape.home key
    have hconfig : c₁.config = c.config := hacts.shape.config
    have hagain := hacts.valid.get_books (hconfig.symm ▸ hstats) key true
    have hne := onShard_write_ne_upgrade c₁ (c.home key) c.config key
    have hsame : c₁.books = c.books := hfirst.trans (add_zero _)
    simp only [hhome, hconfig, hsame] at hagain ⊢
    generalize c₁.onShard (c.home key) .miss (Locked.getSection c.config true key) = r'
      at hagain hne
    obtain ⟨o, c₂⟩ := r'
    cases o with
    | miss => exact hagain
    | hit item now => exact hagain
    | upgrade => exact absurd rfl hne

theorem Valid.set_call_books (key : K) (value : V) (ttl : Int) :
    (c.Set key value ttl).2.books = c.books + ((added key c (c.Set key value ttl).2 : Int), 0) := by
  have hset := h.now.1.valid.set_books hstats key value c.now.1 (stamp c.config c.now.1 ttl)
  have hview : added key c.now.2 = added key c := by
    funext c'
    rw [added, added, h.now.2]
  rw [hview] at hset
  rw [Set, hopen, if_neg Bool.false_ne_true]
  exact hset

omit hopen in
theorem Valid.foldl_import_books (now : Int) (items : List (Item K V)) :
    (items.foldl (importOne now) c).books = c.books + ((importAdds now c items : Int), 0) := by
  induction items generalizing c with
  | nil => exact (add_zero _).symm
  | cons it items ih =>
    have hout := (importOne_spec h now it).1.outcome
    rw [foldl_cons, ih hout.valid (by rw [hout.shape.config]; exact hstats),
      h.import_books hstats now it, add_assoc, importAdds, Nat.cast_add]
    rfl

theorem Valid.step_books (op : Op K V) : (c.step op).books =
    c.books + ((c.inserts op - c.deletes op - c.clears op : Int), c.gets op) := by
  have hnow := h.now.1.valid
  cases op with
  | set key value ttl =>
    simp only [inserts, deletes, clears, Nat.cast_zero, sub_zero]
    exact h.set_call_books hopen hstats key value ttl
  | get key => exact h.lookup_books hopen hstats key
  | getWithTTL key => exact h.lookup_books hopen hstats key
  | exists_ key =>
    rw [step, Exists, hopen, if_neg Bool.false_ne_true]
    exact (hnow.exists_books hstats key c.now.1).trans (add_zero _).symm
  | delete key =>
    rw [step, deletes, Delete, hopen, if_neg Bool.false_ne_true]
    simp only [inserts, clears, Nat.cast_zero, sub_zero, zero_sub]
    exact h.delete_books key
  | clear =>
    simp only [inserts, deletes, clears, Nat.cast_zero, sub_zero, zero_sub]
    exact h.Clear_books hopen
  | import_ items =>
    simp only [inserts, deletes, clears, Nat.cast_zero, sub_zero]
    exact hnow.foldl_import_books hstats c.now.1 items
  | export_ selectFn max => exact books_of_shards (shards_Export c selectFn max)
  | keys => exact books_of_shards (shards_Keys c)
  | cleanup =>
    rw [step, cleanup, hopen, if_neg Bool.false_ne_true]
    refine (foldl_books (fun s => ?_) _ _ fun i hi => mem_range.mp hi).trans (add_zero _).symm
    rw [hstats]
    exact Locked.cleanup_books s c.now.1 c.config.evictionPolicy

theorem Valid.run_books (ops : List (Op K V)) : (run ops c).books = c.books +
    ((tally step inserts c ops - tally step deletes c ops - tally step clears c ops : Int),
      tally step gets c ops) := by
  induction ops generalizing c with
  | nil => exact (add_zero _).symm
  | cons op ops ih =>
    have hout := step_outcome h hopen op
    have hrest := ih hout.valid (hout.shape.closed.trans hopen)
      (by rw [hout.shape.config]; exact hstats)
    refine hrest.trans ?_
    rw [h.step_books hopen hstats op, add_assoc]
    simp only [Schedule.tally_cons, Nat.cast_add, Prod.mk_add_mk]
    congr 2
    omega

end Calls

section New
variable {config : Config} {numCPU : Int} {hasher : K → UInt64} {wall : WallClock}
  {choice : Nat → Nat}

theorem newShards_books (cap : Int) (n : Nat) (rt : Runtime K V) :
    ∀ s ∈ (newShards config cap n rt).1, s.books = 0 := by
  induction n with
  | zero => exact fun s hs => absurd hs not_mem_nil
  | succ n ih =>
    intro s hs
    rcases mem_append.mp hs with hold | hnew
    · exact ih s hold
    · obtain rfl := mem_singleton.mp hnew
      rfl

/-- A new cache has counted nothing. -/
theorem New_books {c : InMemoryCache K V}
    (hnew : New config numCPU hasher wall choice = some c) : c.books = 0 := by
  unfold New at hnew
  simp only at hnew
  split_ifs at hnew
  obtain rfl := Option.some.inj hnew
  exact sum_eq_zero (forall_mem_map.mpr (newShards_books _ _ _))

variable [DecidableEq K]

/-- After every run the size of the cache is the number of keys added less what was deleted,
cleared, evicted and expired, and every lookup has been counted as a hit or a miss. -/
theorem run_accounts {new : InMemoryCache K V}
    (hnew : New config numCPU hasher wall choice = some new) (hstats : config.statsEnabled = true)
    (ops : List (Op K V)) :
    let c := run ops new
    c.Size = tally step inserts new ops - tally step deletes new ops - tally step clears new ops -
        c.Stats.Evictions - c.Stats.Expirations ∧
      c.Stats.Hits + c.Stats.Misses = tally step gets new ops := by
  obtain ⟨hv, hopen, hconfig, -⟩ := New_spec hnew
  have hstats₀ : new.config.statsEnabled = true := by rw [hconfig]; exact hstats
  have hstats₁ : (run ops new).config.statsEnabled = true := by
    rw [(run_outcome hv hopen ops).shape.config]
    exact hstats₀
  have hbooks := hv.run_books hopen hstats₀ ops
  rw [New_books hnew, zero_add, books_eq hstats₁, Prod.mk.injEq] at hbooks
  exact ⟨by omega, hbooks.2⟩

/-- Three keys in a cache for two, one of which is evicted and one deleted. -/
def busy : List (Op Nat Nat) :=
  [.set 1 10 0, .set 2 20 0, .set 3 30 0, .get 3, .getWithTTL 9, .delete 2]

theorem run_accounts_busy :
    let new := small .FIFO fun n => n
    let c := run busy new
    (tally step inserts new busy = 3 ∧ tally step deletes new busy = 1 ∧
      tally step gets new busy = 2 ∧ c.Stats.Evictions = 1) ∧
    c.Size = tally step inserts new busy - tally step deletes new busy -
        tally step clears new busy - c.Stats.Evictions - c.Stats.Expirations ∧
      c.Stats.Hits + c.Stats.Misses = tally step gets new busy :=
  ⟨by decide +kernel, run_accounts (New_small ..) rfl busy⟩

end New

end InMemoryCache

end Kioshun
