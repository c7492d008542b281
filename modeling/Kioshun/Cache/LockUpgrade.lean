import Kioshun.Cache.Sections
import Kioshun.Lib.Schedule

/-!
# The lock upgrade of `get`

Under FIFO and AdmissionLFU `get` starts under the read lock. If the entry is expired it
gives up that lock, takes the write lock and looks the key up again. Any number of such
calls are under way here, and between any two of their sections any other sections run.
-/

namespace Kioshun

open CellStore WallClock Function Locked

universe u v

/-- Where a call of `get` is. A hit is an item with the reading it was compared with. -/
inductive Getter (K : Type u) where
  | idle
  | locking (key : K) (lockedWrite : Bool)
  | returned (key : K) (found : Option (Addr × Int))
  deriving DecidableEq

structure Getters (K : Type u) (V : Type v) where
  cache : InMemoryCache K V
  at_ : Nat → Getter K

variable {K : Type u} {V : Type v} [DecidableEq K]

namespace Getters

inductive Event (K : Type u) (V : Type v) where
  | call (client : Nat) (key : K)
  | lock (client : Nat)
  | other (e : Section K V)

def start (c : InMemoryCache K V) : Getters K V := ⟨c, fun _ => .idle⟩

def next (key : K) : GetOutcome → Getter K
  | .miss => .returned key none
  | .hit item now => .returned key (some (item, now))
  | .upgrade => .locking key true

variable [Inhabited V]

/-- A client that is in a call makes no other. -/
def step (s : Getters K V) : Event K V → Getters K V
  | .call client key =>
    match s.at_ client with
    | .locking _ _ => s
    | _ =>
      if s.cache.closed then { s with at_ := update s.at_ client (.returned key none) }
      else
        let nw := decide (s.cache.config.evictionPolicy = .LRU ∨
          s.cache.config.evictionPolicy = .LFU)
        { s with at_ := update s.at_ client (.locking key nw) }
  | .lock client =>
    match s.at_ client with
    | .locking key lockedWrite =>
      let r := s.cache.onShard (s.cache.home key) .miss
        (getSection s.cache.config lockedWrite key)
      ⟨r.2, update s.at_ client (next key r.1)⟩
    | _ => s
  | .other e => { s with cache := s.cache.perform e }

def exec (s : Getters K V) (es : List (Event K V)) : Getters K V := Schedule.exec step s es

end Getters

namespace InMemoryCache
variable {c : InMemoryCache K V} {i : Nat} {s : Shard K} {t : Locked K V}

def sizeAt (c : InMemoryCache K V) (i : Nat) : Option Int := (c.shards[i]?).map Shard.size

omit [DecidableEq K] in
theorem sizeAt_put (hi : c.shards[i]? = some s) (j : Nat) :
    (c.put i t).sizeAt j = if j = i then some t.sh.size else c.sizeAt j := by
  split_ifs with hj
  · subst hj
    simp only [sizeAt, getElem?_put_self hi, Option.map_some]
  · simp only [sizeAt, getElem?_put_ne fun he => hj he.symm]

end InMemoryCache

/-- What a section of `get` does to the entries: nothing, or under the write lock it takes out the
one under its key, which the reading of this very section finds expired. -/
inductive GetEffect (key : K) (lockedWrite : Bool) (c c' : InMemoryCache K V) : Prop where
  | kept (items : c'.itemOf = c.itemOf) (sizes : c'.sizeAt = c.sizeAt)
      (pool : c'.rt.pool = c.rt.pool)
  | removed (a : Addr) (write : lockedWrite = true) (current : c.itemOf key = some a)
      (expired : (c.body a).expired c.now.1 = true)
      (items : c'.itemOf = update c.itemOf key none)
      (sizes : c'.sizeAt =
        update c.sizeAt (c.home key) ((c.sizeAt (c.home key)).map (· - 1)))
      (pool : c'.rt.pool = a :: c.rt.pool)

namespace InMemoryCache
variable {c : InMemoryCache K V} {key : K}

theorem kept_put {s : Shard K} {t : Locked K V} (hs : c.shards[c.home key]? = some s)
    (hcore : Core (fun k => c.home k = c.home key) (c.locked s))
    (hkeep : Keeps (fun k => c.home k = c.home key) (c.locked s) t) (lockedWrite : Bool) :
    GetEffect key lockedWrite c (c.put (c.home key) t) := by
  have hsize : t.sh.size = s.size := by
    have hold : s.size = s.items.length := hcore.size
    rw [hkeep.evolves.core.size, hold, Shard.items, hkeep.data]
    rfl
  refine .kept (funext fun k => ?_) (funext fun j => ?_) hkeep.pool
  · rw [itemOf_put hs]
    split_ifs with hk
    · rw [hkeep.data, itemOf_of_shard (by rw [hk]; exact hs)]
      rfl
    · rfl
  · rw [sizeAt_put hs]
    split_ifs with hj
    · rw [hj, hsize, sizeAt, hs, Option.map_some]
    · rfl

theorem removed_put {s : Shard K} {t : Locked K V} {a : Addr}
    (hs : c.shards[c.home key]? = some s) (hk : s.data.lookup key = some a)
    (hstale : (c.body a).expired c.now.1 = true)
    (hd : Discards key a (c.locked s) t) :
    GetEffect key true c (c.put (c.home key) t) := by
  refine .removed a rfl ((itemOf_of_shard hs).trans hk) hstale (funext fun k => ?_)
    (funext fun j => ?_) hd.pool
  · rw [itemOf_put hs, hd.data]
    by_cases hkey : k = key
    · subst hkey
      simp
    · rw [update_of_ne hkey]
      split_ifs with hhome
      · rw [AList.lookup_erase_ne hkey, itemOf_of_shard (by rw [hhome]; exact hs)]
        rfl
      · rfl
  · rw [sizeAt_put hs]
    by_cases hj : j = c.home key
    · rw [if_pos hj, hj, update_self, sizeAt, hs, hd.size]
      rfl
    · rw [if_neg hj, update_of_ne hj]

/-- One section of `get`, under either lock. -/
theorem Valid.get_effect (h : Valid c) (key : K) (lockedWrite : Bool) :
    let r := c.onShard (c.home key) .miss (getSection c.config lockedWrite key)
    GetEffect key lockedWrite c r.2 ∧
      ∀ a now, r.1 = .hit a now → now = c.now.1 ∧ c.itemOf key = some a ∧
        r.2.itemOf key = some a ∧ (c.body a).expired now = false := by
  obtain ⟨s, hs⟩ := h.home_shard key
  have hval := h.shard _ s hs
  have hspec := getSection_spec hval lockedWrite key
  simp only [onShard_eq hs]
  generalize (c.locked s).getSection c.config lockedWrite key = r at hspec
  cases hspec with
  | absent _ hkeep _ =>
    exact ⟨kept_put hs hval.core hkeep lockedWrite, fun a now hr => by cases hr⟩
  | hit hk hlive hkeep _ =>
    refine ⟨kept_put hs hval.core hkeep lockedWrite, fun a now hr => ?_⟩
    cases hr
    refine ⟨rfl, (itemOf_of_shard hs).trans hk, ?_, hlive⟩
    rw [itemOf_put hs, if_pos rfl]
    exact hkeep.lookup hk
  | expired hk hstale hwrite hd _ =>
    subst hwrite
    exact ⟨removed_put hs hk hstale hd, fun a now hr => by cases hr⟩
  | upgrade _ _ _ hkeep _ =>
    exact ⟨kept_put hs hval.core hkeep lockedWrite, fun a now hr => by cases hr⟩

end InMemoryCache

namespace Getters
variable {s : Getters K V} [Inhabited V]

/-- Sections of `get` and all others keep the cache valid. -/
theorem step_sound (h : s.cache.Valid ∧ s.cache.Bounded) (e : Event K V) :
    (s.step e).cache.Valid ∧ (s.step e).cache.Bounded := by
  have hperform : ∀ e' : Section K V,
      (s.cache.perform e').Valid ∧ (s.cache.perform e').Bounded := by
    intro e'
    have hout := (InMemoryCache.perform_acts h.1 h.2 e').1
    exact ⟨hout.valid, hout.bounded h.2⟩
  cases e with
  | call client key =>
    have hcache : (s.step (.call client key)).cache = s.cache := by
      simp only [step]
      split
      · rfl
      · split <;> rfl
    rwa [hcache]
  | lock client =>
    cases hat : s.at_ client with
    | locking key lockedWrite =>
      simp only [step, hat]
      exact hperform (.get key lockedWrite)
    | idle => simpa only [step, hat] using h
    | returned key found => simpa only [step, hat] using h
  | other e => exact hperform e

theorem exec_sound (h : s.cache.Valid ∧ s.cache.Bounded) (es : List (Event K V)) :
    (s.exec es).cache.Valid ∧ (s.exec es).cache.Bounded :=
  Schedule.exec_invariant (I := fun s : Getters K V => s.cache.Valid ∧ s.cache.Bounded)
    (fun _ e hs => step_sound hs e) h

variable {client : Nat}

theorem step_lock {key : K} {lockedWrite : Bool} (hat : s.at_ client = .locking key lockedWrite) :
    s.step (.lock client) =
      ⟨(s.cache.onShard (s.cache.home key) .miss
          (getSection s.cache.config lockedWrite key)).2,
        update s.at_ client (next key (s.cache.onShard (s.cache.home key) .miss
          (getSection s.cache.config lockedWrite key)).1)⟩ := by
  simp only [step, hat]

theorem step_lock_returned {key : K} {found : Option (Addr × Int)}
    (hat : s.at_ client = .returned key found) : s.step (.lock client) = s := by
  simp only [step, hat]

omit [DecidableEq K] in
theorem next_returned {key : K} {o : GetOutcome} {a : Addr} {now : Int}
    (h : next key o = .returned key (some (a, now))) : o = .hit a now := by
  cases o with
  | miss => cases h
  | hit a' now' =>
    cases h
    rfl
  | upgrade => cases h

/-- Whatever the calls have done before and whatever else runs between their sections: a section of
`get` takes an entry out only under the write lock, if it is the one under the key and expired at
the reading of this section, and counts it off once; and a hit is not expired at its reading. -/
theorem exec_lock {config : Config} {numCPU : Int} {hasher : K → UInt64} {wall : WallClock}
    {choice : Nat → Nat} {c : InMemoryCache K V}
    (hnew : InMemoryCache.New config numCPU hasher wall choice = some c) (es : List (Event K V))
    (client : Nat) (key : K) (lockedWrite : Bool)
    (hat : ((start c).exec es).at_ client = .locking key lockedWrite) :
    let s := (start c).exec es
    let s' := s.step (.lock client)
    GetEffect key lockedWrite s.cache s'.cache ∧
      (∀ a now, s'.at_ client = .returned key (some (a, now)) →
        now = s.cache.now.1 ∧ s.cache.itemOf key = some a ∧ s'.cache.itemOf key = some a ∧
          (s.cache.body a).expired now = false) ∧
      ∀ (i : Nat) (sh : Shard K), s'.cache.shards[i]? = some sh →
        sh.size = sh.data.entries.length := by
  intro s s'
  have hsound := exec_sound (s := start c)
    ⟨(InMemoryCache.New_spec hnew).1, InMemoryCache.New_bounded hnew⟩ es
  obtain ⟨heffect, hhit⟩ := hsound.1.get_effect key lockedWrite
  have hnext := (step_sound hsound (.lock client)).1
  have hstep : s' = _ := step_lock hat
  refine ⟨by rw [hstep]; exact heffect, fun a now hret => ?_, fun i sh hsh => ?_⟩
  · rw [hstep] at hret ⊢
    simp only [update_self] at hret
    exact hhit a now (next_returned hret)
  · exact (hnext.shardSound hsh).size

/-- A call between whose sections nothing else runs is `get`. -/
theorem exec_alone (hidle : s.at_ client = .idle) (hopen : s.cache.closed = false) (key : K) :
    let s' := s.exec [.call client key, .lock client, .lock client]
    s'.cache = (s.cache.get key).2 ∧ s'.at_ client = .returned key (s.cache.get key).1 := by
  have hlocking : (s.step (.call client key)).at_ client = .locking key (decide
      (s.cache.config.evictionPolicy = .LRU ∨ s.cache.config.evictionPolicy = .LFU)) := by
    simp [step, hidle, hopen]
  have hcache : (s.step (.call client key)).cache = s.cache := by
    simp [step, hidle, hopen]
  simp only [exec, Schedule.exec_cons, Schedule.exec_nil]
  rw [step_lock hlocking, hcache]
  simp only [InMemoryCache.get, hopen, Bool.false_eq_true, if_false]
  have hshape := InMemoryCache.onShard_sameShape s.cache (s.cache.home key) .miss
    (getSection s.cache.config (decide (s.cache.config.evictionPolicy = .LRU ∨
      s.cache.config.evictionPolicy = .LFU)) key)
  generalize s.cache.onShard (s.cache.home key) .miss (getSection s.cache.config _ key) = r
    at hshape
  obtain ⟨o, c⟩ := r
  cases o with
  | miss =>
    rw [step_lock_returned (update_self ..)]
    exact ⟨rfl, update_self ..⟩
  | hit item now =>
    rw [step_lock_returned (update_self ..)]
    exact ⟨rfl, update_self ..⟩
  | upgrade =>
    rw [step_lock (update_self ..)]
    have hne := InMemoryCache.onShard_write_ne_upgrade c (s.cache.home key) s.cache.config key
    have hhome : c.home key = s.cache.home key := hshape.home key
    have hconfig : c.config = s.cache.config := hshape.config
    simp only [hhome, hconfig]
    generalize c.onShard (s.cache.home key) .miss (getSection s.cache.config true key) = r'
      at hne
    obtain ⟨o, c'⟩ := r'
    cases o with
    | miss => exact ⟨rfl, update_self ..⟩
    | hit item now => exact ⟨rfl, update_self ..⟩
    | upgrade => exact absurd rfl hne

def refreshed : List (Event Nat Nat) :=
  [.other (.set 1 10 0 5), .other .clock, .call 0 1, .lock 0, .other (.set 1 20 15 100)]

theorem exec_lock_refreshed :
    let s := (start (InMemoryCache.small .FIFO fun n => 10 * n)).exec refreshed
    (s.at_ 0 = .locking 1 true ∧ (s.step (.lock 0)).at_ 0 = .returned 1 (some (2, 20))) ∧
      GetEffect 1 true s.cache (s.step (.lock 0)).cache := by
  intro s
  have hlocking : s.at_ 0 = .locking 1 true := by decide +kernel
  exact ⟨⟨hlocking, by decide +kernel⟩,
    (exec_lock (InMemoryCache.New_small ..) refreshed 0 1 true hlocking).1⟩

end Getters

end Kioshun
