import Kioshun.Cache.Runs

/-!
# Concurrent clients

Any number of clients call `Get`, `GetWithTTL`, `Set`, `Delete` and `cleanup`. A
section under a shard lock is one step. A hit leaves the lock with a pointer to
its item, and the fields are read in a further step. In between the item may be
deleted, put into the pool and filled in again for another key; unless that
happens, what is read was stored under the key of the call while the call ran.
-/

namespace Kioshun

open CellStore WallClock List

universe u v
variable {K : Type u} {V : Type v}

inductive Call (K : Type u) (V : Type v) where
  | set (key : K) (value : V) (ttl : Int)
  | get (withTTL : Bool) (key : K)
  | delete (key : K)
  | cleanup

/-- Where a client is in its call. `start` and `stop` count the steps before the call began and
before it returned. -/
inductive Thread (K : Type u) (V : Type v) where
  | idle
  | set (key : K) (value : V) (now expireTime : Int)
  | get (withTTL : Bool) (key : K) (lockedWrite : Bool) (start : Nat)
  | read (withTTL : Bool) (key : K) (item : Addr) (now : Int) (start : Nat)
  | returned (key : K) (value : V) (ttl : Option Int) (now : Int) (start stop : Nat)
  | delete (key : K)
  | cleanup (now : Int) (shard : Nat)
  deriving DecidableEq

/-- The cache, the clients, and what the map held after each step so far. -/
structure System (K : Type u) (V : Type v) where
  cache : InMemoryCache K V
  threads : Nat → Thread K V
  history : List (K → Option (V × Int))

inductive Action (K : Type u) (V : Type v) where
  | call (client : Nat) (call : Call K V)
  | lock (client : Nat)
  | read (client : Nat)

variable [DecidableEq K] [Inhabited V]

namespace InMemoryCache

def begin (c : InMemoryCache K V) (start : Nat) : Call K V → Thread K V × InMemoryCache K V
  | .set key value ttl => (.set key value c.now.1 (stamp c.config c.now.1 ttl), c.now.2)
  | .get withTTL key =>
    (.get withTTL key (decide (c.config.evictionPolicy = .LRU ∨ c.config.evictionPolicy = .LFU))
      start, c)
  | .delete key => (.delete key, c)
  | .cleanup => (.cleanup c.now.1 0, c.now.2)

def enter (c : InMemoryCache K V) : Thread K V → Thread K V × InMemoryCache K V
  | .set key value now expireTime =>
    (.idle, c.updateShard (c.home key)
      (Locked.setSection c.config c.perShardCap key (c.hasher key) value now expireTime))
  | .get withTTL key lockedWrite start =>
    let r := c.onShard (c.home key) .miss (Locked.getSection c.config lockedWrite key)
    match r.1 with
    | .miss => (.idle, r.2)
    | .hit item now => (.read withTTL key item now start, r.2)
    | .upgrade => (.get withTTL key true start, r.2)
  | .delete key =>
    (.idle, (c.onShard (c.home key) false (Locked.deleteSection c.config.evictionPolicy key)).2)
  | .cleanup now shard =>
    if shard < c.shards.length then
      (.cleanup now (shard + 1), c.updateShard shard
        (Locked.cleanup now c.config.evictionPolicy c.config.statsEnabled))
    else (.idle, c)
  | thread => (thread, c)

/-- The reads of `Get` and `GetWithTTL` after the lock is released. -/
def readItem (c : InMemoryCache K V) (stop : Nat) : Thread K V → Thread K V
  | .read withTTL key item now start =>
    .returned key (c.body item).value
      (if withTTL then some (remaining (c.body item).expireTime now) else none) now start stop
  | thread => thread

end InMemoryCache

namespace System

def start (c : InMemoryCache K V) : System K V := ⟨c, fun _ => .idle, [c.view]⟩

def free (s : System K V) (client : Nat) : Bool :=
  match s.threads client with
  | .idle | .returned _ _ _ _ _ _ => true
  | _ => false

/-- Thread and cache after an action of a client; calls are refused once the cache is closed. -/
def act (s : System K V) : Action K V → Thread K V × InMemoryCache K V
  | .call client call =>
    if s.free client && !s.cache.closed then s.cache.begin s.history.length call
    else (s.threads client, s.cache)
  | .lock client => s.cache.enter (s.threads client)
  | .read client => (s.cache.readItem s.history.length (s.threads client), s.cache)

def Action.client : Action K V → Nat
  | .call client _ | .lock client | .read client => client

def step (s : System K V) (a : Action K V) : System K V where
  cache := (s.act a).2
  threads := Function.update s.threads (Action.client a) (s.act a).1
  history := s.history ++ [(s.act a).2.view]

def exec (s : System K V) (as : List (Action K V)) : System K V := as.foldl step s

end System

variable {e : V × Int}

def Locked.taken (cfg : Config) (perShardCap : Int) (key : K) (keyHash : UInt64)
    (c : Locked K V) : Option Addr :=
  match c.sh.data.lookup key with
  | some _ => none
  | none =>
    let room := c.makeRoom cfg perShardCap keyHash
    if room.1 then some room.2.takeItem.1 else none

/-- The section of `Set` writes to the item of its key or to the one it takes. -/
theorem Locked.setSection_writes {cfg : Config} {home : K → Prop} {c : Locked K V} {k : K}
    (h : Valid cfg.evictionPolicy home c) (hhome : home k) (cap : Int) (keyHash : UInt64)
    (value : V) (now expireTime : Int) :
    ∃ c₁, Step cfg.evictionPolicy home c c₁ ∧ Sheds c c₁ ∧
      (c.setSection cfg cap k keyHash value now expireTime = c₁ ∨
        ∃ a, Writes home k (value, expireTime) a c₁
            (c.setSection cfg cap k keyHash value now expireTime) ∧
          (c.sh.data.lookup k = some a ∨ c.taken cfg cap k keyHash = some a)) := by
  cases hk : c.sh.data.lookup k with
  | some a =>
    have hw := (setExisting_spec h hk value now expireTime).1
    refine ⟨c, Step.refl h, Sheds.refl c, .inr ⟨a, ?_, .inl rfl⟩⟩
    simpa only [setSection, hk] using hw
  | none =>
    obtain ⟨hstep, hsheds, -⟩ := makeRoom_spec h cap keyHash
    refine ⟨_, hstep, hsheds, ?_⟩
    simp only [setSection, taken, hk]
    by_cases hroom : (c.makeRoom cfg cap keyHash).1 = true
    · have hw := (setFresh_spec hstep.valid (hsheds.lookup_none hk) hhome value now expireTime).1
      simp only [hroom, if_true]
      exact .inr ⟨_, hw, .inr rfl⟩
    · simp only [hroom]
      exact .inl rfl

namespace InMemoryCache

def itemOf (c : InMemoryCache K V) (k : K) : Option Addr :=
  (c.shards[c.home k]?).bind fun s => s.data.lookup k

def content (c : InMemoryCache K V) (a : Addr) : V × Int :=
  ((c.body a).value, (c.body a).expireTime)

/-- Nothing but the call's own key can claim the item, unless the pool hands it out. -/
def Held (c : InMemoryCache K V) (k : K) (a : Addr) : Prop := c.itemOf k = some a ∨ a ∈ c.rt.pool

/-- What a step leaves of the items that clients hold: they stay held, and a new content is one
that is now stored under the key. An item that is `lost` is excepted. -/
def Carries (lost : K → Addr → Prop) (c c' : InMemoryCache K V) : Prop :=
  ∀ k a, Held c k a → ¬ lost k a →
    Held c' k a ∧ (c'.content a = c.content a ∨ c'.view k = some (c'.content a))

variable {c c' : InMemoryCache K V} {i : Nat} {s : Shard K} {t : Locked K V} {k : K} {a : Addr}

section
omit [Inhabited V]

theorem itemOf_of_shard (h : c.shards[c.home k]? = some s) : c.itemOf k = s.data.lookup k := by
  simp only [itemOf, h, Option.bind_some]

theorem view_of_itemOf (h : c.itemOf k = some a) : c.view k = some (c.content a) := by
  obtain ⟨s, hs, hk⟩ := Option.bind_eq_some_iff.mp h
  rw [view_of_shard hs]
  exact Locked.view_of_lookup hk

theorem itemOf_put (hi : c.shards[i]? = some s) (k : K) :
    (c.put i t).itemOf k = if c.home k = i then t.sh.data.lookup k else c.itemOf k := by
  have hhome : (c.put i t).home k = c.home k := rfl
  split_ifs with hk
  · subst hk
    exact itemOf_of_shard (getElem?_put_self hi)
  · simp only [itemOf, hhome, getElem?_put_ne fun he => hk he.symm]

/-- Keys are told apart by their items, also in different shards. -/
theorem Valid.itemOf_inj (h : Valid c) {k' : K} (hk : c.itemOf k = some a)
    (hk' : c.itemOf k' = some a) : k = k' := by
  obtain ⟨s, hs, hk⟩ := Option.bind_eq_some_iff.mp hk
  obtain ⟨s', hs', hk'⟩ := Option.bind_eq_some_iff.mp hk'
  have hcell : ∀ {k : K} {s : Shard K}, s.data.lookup k = some a → a ∈ s.cells :=
    fun hk => Shard.mem_cells_of_mem_items (Shard.mem_items_of_lookup hk)
  by_cases hij : c.home k = c.home k'
  · rw [hij, hs'] at hs
    obtain rfl := Option.some.inj hs
    exact (h.shard _ s' hs').core.lookup_inj hk hk'
  · exact absurd (hcell hk') (h.disjoint _ _ s s' hij hs hs' a (hcell hk))

theorem Valid.unpooled (h : Valid c) (hk : c.itemOf k = some a) : a ∉ c.rt.pool := by
  obtain ⟨s, hs, hk⟩ := Option.bind_eq_some_iff.mp hk
  exact (h.shard _ s hs).core.unpooled a
    (Shard.mem_cells_of_mem_items (Shard.mem_items_of_lookup hk))

/-- Dropping entries into the pool touches no content. -/
theorem held_sheds (hi : c.shards[i]? = some s) (hsheds : Locked.Sheds (c.locked s) t)
    (hheld : Held c k a) :
    Held (c.put i t) k a ∧ (c.put i t).content a = c.content a := by
  refine ⟨?_, Prod.ext (hsheds.value a) (hsheds.expireTime a)⟩
  rcases hheld with hk | hp
  · by_cases hhome : c.home k = i
    · subst hhome
      rw [itemOf_of_shard hi] at hk
      refine (hsheds.dropped k a hk).imp (fun hk' => ?_) id
      rw [itemOf_put hi, if_pos rfl]
      exact hk'
    · exact .inl (by rw [itemOf_put hi, if_neg hhome]; exact hk)
  · exact .inr (hsheds.pooled a hp)

theorem carries_sheds (hi : c.shards[i]? = some s) (hsheds : Locked.Sheds (c.locked s) t)
    (lost : K → Addr → Prop) : Carries lost c (c.put i t) :=
  fun _ _ hheld _ => (held_sheds hi hsheds hheld).imp id .inl

end

variable (lost : K → Addr → Prop)

omit [Inhabited V] in
theorem carries_now : Carries lost c c.now.2 :=
  fun _ _ hheld _ => ⟨hheld, .inl rfl⟩

omit [Inhabited V] in
/-- Writing to one item leaves the others as they are. -/
theorem held_writes {home : K → Prop} {key : K} {x : Addr} {c₁ : Locked K V}
    (hi : c.shards[i]? = some s) (hw : Locked.Writes home key e x c₁ t)
    (hheld : Held (c.put i c₁) k a) (hne : a ≠ x) :
    Held (c.put i t) k a ∧ (c.put i t).content a = (c.put i c₁).content a := by
  refine ⟨?_, Prod.ext (hw.others a hne).1 (hw.others a hne).2⟩
  rcases hheld with hk | hp
  · rw [itemOf_put hi] at hk
    refine .inl ?_
    rw [itemOf_put hi]
    split_ifs at hk ⊢ with hhome
    · rw [hw.lookup]
      split_ifs with hkey
      · subst hkey
        rcases hw.source with hx | ⟨hx, -⟩
        · exact hx.symm.trans hk
        · rw [hk] at hx
          cases hx
      · exact hk
    · exact hk
  · exact .inr ((hw.pool a).mpr ⟨hp, hne⟩)

/-- A `Set` of another key disturbs a client only by taking the client's item from the pool. -/
theorem Valid.carries_set (h : Valid c) {key : K} (hs : c.shards[c.home key]? = some s)
    (value : V) (now expireTime : Int) :
    Carries (fun k a => k ≠ key ∧
        (c.locked s).taken c.config c.perShardCap key (c.hasher key) = some a) c
      (c.put (c.home key) ((c.locked s).setSection c.config c.perShardCap key (c.hasher key) value
        now expireTime)) := by
  intro k a hheld hlost
  obtain ⟨c₁, -, hsheds, heq | ⟨x, hw, hsource⟩⟩ :=
    Locked.setSection_writes (h.shard _ s hs) rfl c.perShardCap (c.hasher key) value now expireTime
  · have heq' : (c.locked s).setSection c.config c.perShardCap key (c.hasher key) value now
        expireTime = c₁ := heq
    rw [heq']
    exact (held_sheds hs hsheds hheld).imp id .inl
  · by_cases hax : a = x
    · subst hax
      have hkey : k = key := by
        by_contra hne
        rcases hsource with hmine | htaken
        · have hitem : c.itemOf key = some a := (itemOf_of_shard hs).trans hmine
          rcases hheld with hk | hp
          · exact hne (h.itemOf_inj hk hitem)
          · exact h.unpooled hitem hp
        · exact hlost ⟨hne, htaken⟩
      subst hkey
      have hitem : (c.put (c.home k) ((c.locked s).setSection c.config c.perShardCap k (c.hasher k)
          value now expireTime)).itemOf k = some a := by
        rw [itemOf_put hs, if_pos rfl, hw.lookup, if_pos rfl]
      exact ⟨.inl hitem, .inr (view_of_itemOf hitem)⟩
    · obtain ⟨hheld₁, hcontent₁⟩ := held_sheds hs hsheds hheld
      obtain ⟨hheld₂, hcontent₂⟩ := held_writes hs hw hheld₁ hax
      exact ⟨hheld₂, .inl (hcontent₂.trans hcontent₁)⟩

/-- The section a thread is about to enter hands out the item `a` for another key than `k`. -/
def Steals (c : InMemoryCache K V) (thread : Thread K V) (k : K) (a : Addr) : Prop :=
  match thread with
  | .set key _ _ _ => k ≠ key ∧ ∃ s, c.shards[c.home key]? = some s ∧
      (c.locked s).taken c.config c.perShardCap key (c.hasher key) = some a
  | _ => False

omit [Inhabited V] in
/-- What a section of `get` does to the items that clients hold. -/
theorem getSection_carries (h : Valid c) (hs : c.shards[c.home k]? = some s) (lockedWrite : Bool)
    (lost : K → Addr → Prop) :
    Carries lost c (c.put (c.home k) ((c.locked s).getSection c.config lockedWrite k).2) ∧
      ∀ a now, ((c.locked s).getSection c.config lockedWrite k).1 = .hit a now →
        (c.put (c.home k) ((c.locked s).getSection c.config lockedWrite k).2).itemOf k =
          some a := by
  have hval := h.shard _ s hs
  have hspec := Locked.getSection_spec hval lockedWrite k
  generalize (c.locked s).getSection c.config lockedWrite k = r at hspec
  cases hspec with
  | absent _ hkeep _ =>
    exact ⟨carries_sheds hs hkeep.sheds lost, fun a now hr => by cases hr⟩
  | hit hk _ hkeep _ =>
    refine ⟨carries_sheds hs hkeep.sheds lost, fun a now hr => ?_⟩
    cases hr
    rw [itemOf_put hs, if_pos rfl]
    exact hkeep.lookup hk
  | expired hk _ _ hd _ =>
    exact ⟨carries_sheds hs (hd.sheds hval.core hk) lost, fun a now hr => by cases hr⟩
  | upgrade _ _ _ hkeep _ =>
    exact ⟨carries_sheds hs hkeep.sheds lost, fun a now hr => by cases hr⟩

omit [Inhabited V] in
theorem Carries.refl (c : InMemoryCache K V) : Carries lost c c :=
  fun _ _ hheld _ => ⟨hheld, .inl rfl⟩

/-- Every section keeps the cache valid and the items of the clients held, save for those it
hands out for another key. -/
theorem enter_spec (h : Valid c) (thread : Thread K V) :
    Outcome c (c.enter thread).2 ∧ Carries (Steals c thread) c (c.enter thread).2 := by
  cases thread with
  | set key value now expireTime =>
    obtain ⟨s, hs⟩ := h.home_shard key
    have hst : Locked.Stores c.config.evictionPolicy (fun k => c.home k = c.home key)
        c.perShardCap key (value, expireTime) (c.locked s)
        ((c.locked s).setSection c.config c.perShardCap key (c.hasher key) value now expireTime) :=
      Locked.setSection_spec (h.shard _ s hs) rfl ..
    simp only [enter, updateShard_eq hs]
    refine ⟨(h.wrote_put hs hst (Locked.later_setSection (c.locked s) _ ..)).outcome, ?_⟩
    intro k a hheld hkeep
    exact h.carries_set hs value now expireTime k a hheld fun hlost =>
      hkeep ⟨hlost.1, s, hs, hlost.2⟩
  | get withTTL key lockedWrite start =>
    obtain ⟨s, hs⟩ := h.home_shard key
    obtain ⟨o, t, hr, hout, -⟩ := getSection_put h hs lockedWrite
    have hcar :=
      (getSection_carries h hs lockedWrite (Steals c (.get withTTL key lockedWrite start))).1
    rw [hr] at hcar
    simp only [enter, onShard_eq hs, hr]
    cases o <;> exact ⟨hout, hcar⟩
  | delete key =>
    obtain ⟨s, hs⟩ := h.home_shard key
    have hval := h.shard _ s hs
    simp only [enter, onShard_eq hs]
    rcases Locked.deleteSection_spec hval key with ⟨-, hr⟩ | ⟨a, hk, -, hd, hidx⟩
    · rw [hr]
      exact ⟨h.outcome_sheds hs (Locked.Step.refl hval) (Locked.Sheds.refl _) (Later.refl _),
        carries_sheds hs (Locked.Sheds.refl _) _⟩
    · have hsheds := hd.sheds hval.core hk
      exact ⟨h.outcome_sheds hs ⟨hd.evolves hval.core hk, hidx⟩ hsheds
        (Later.of_eq (Locked.wall_deleteSection ..)), carries_sheds hs hsheds _⟩
  | cleanup now shard =>
    simp only [enter]
    split_ifs with hlt
    · obtain ⟨s, hs⟩ : ∃ s, c.shards[shard]? = some s := ⟨_, getElem?_eq_getElem hlt⟩
      obtain ⟨hstep, hsheds, -⟩ :=
        Locked.cleanup_spec (h.shard _ s hs) now c.config.statsEnabled
      rw [updateShard_eq hs]
      exact ⟨h.outcome_sheds hs hstep hsheds (Later.of_eq (Locked.wall_cleanup ..)),
        carries_sheds hs hsheds _⟩
    · exact ⟨Outcome.refl h, Carries.refl _ c⟩
  | _ => exact ⟨Outcome.refl h, Carries.refl _ c⟩

omit [Inhabited V] in
theorem begin_spec (h : Valid c) (start : Nat) (call : Call K V) (lost : K → Addr → Prop) :
    Outcome c (c.begin start call).2 ∧ Carries lost c (c.begin start call).2 := by
  cases call with
  | set key value ttl => exact ⟨h.now.1, carries_now lost⟩
  | cleanup => exact ⟨h.now.1, carries_now lost⟩
  | _ => exact ⟨Outcome.refl h, Carries.refl lost c⟩

end InMemoryCache

section Interleaving

/-- The entry was stored under `k` after one of the steps from `lo` to `hi`. -/
def Stored (history : List (K → Option (V × Int))) (k : K) (e : V × Int) (lo hi : Nat) : Prop :=
  ∃ j view, lo ≤ j ∧ j ≤ hi ∧ history[j]? = some view ∧ view k = some e

omit [DecidableEq K] [Inhabited V] in
theorem Stored.snoc {history : List (K → Option (V × Int))} {k : K} {lo hi hi' : Nat}
    (h : Stored history k e lo hi) (hle : hi ≤ hi') (view : K → Option (V × Int)) :
    Stored (history ++ [view]) k e lo hi' := by
  obtain ⟨j, w, hlo, hhi, hj, hw⟩ := h
  have hlt : j < history.length := (List.getElem?_eq_some_iff.mp hj).1
  exact ⟨j, w, hlo, by omega, by rw [getElem?_append_left hlt]; exact hj, hw⟩

omit [DecidableEq K] [Inhabited V] in
theorem stored_last (history : List (K → Option (V × Int))) {k : K} {lo hi : Nat}
    (hlo : lo ≤ history.length) (hhi : history.length ≤ hi) {view : K → Option (V × Int)}
    (hv : view k = some e) : Stored (history ++ [view]) k e lo hi :=
  ⟨history.length, view, hlo, hhi, getElem?_concat_length, hv⟩

/-- What a client may rely on: the item it has still to read is held and has a content that was
stored under the key since the call began, and what it returned is such a content. -/
def Thread.Sound (c : InMemoryCache K V) (history : List (K → Option (V × Int))) :
    Thread K V → Prop
  | .get _ _ _ start => start < history.length
  | .read _ key item _ start => c.Held key item ∧
      Stored history key (c.content item) start history.length
  | .returned key value ttl now start stop => ∃ e, Stored history key (value, e) start stop ∧
      (ttl = none ∨ ttl = some (InMemoryCache.remaining e now))
  | _ => True

structure System.Sound (s : System K V) : Prop where
  valid : s.cache.Valid
  threads : ∀ client, (s.threads client).Sound s.cache s.history

variable {c c' : InMemoryCache K V} {history : List (K → Option (V × Int))} {thread : Thread K V}

omit [Inhabited V] in
/-- A client that does not act keeps what it relies on, unless its item is lost. -/
theorem Thread.Sound.carries {lost : K → Addr → Prop} (h : thread.Sound c history)
    (hcar : c.Carries lost c')
    (hlost : ∀ w k a now start, thread = .read w k a now start → ¬ lost k a) :
    thread.Sound c' (history ++ [c'.view]) := by
  have hlen : (history ++ [c'.view]).length = history.length + 1 := length_append
  cases thread with
  | get w k lw start =>
    have hlt : start < history.length := h
    show start < (history ++ [c'.view]).length
    omega
  | read w k a now start =>
    obtain ⟨hheld, hst⟩ := h
    obtain ⟨hheld', hcontent⟩ := hcar k a hheld (hlost w k a now start rfl)
    refine ⟨hheld', ?_⟩
    rcases hcontent with hsame | hnew
    · rw [hsame]
      exact hst.snoc (by omega) _
    · obtain ⟨j, _, hlo, hhi, -⟩ := hst
      exact stored_last history (by omega) (by omega) hnew
  | returned k v ttl now start stop =>
    obtain ⟨e, hst, httl⟩ := h
    exact ⟨e, hst.snoc (Nat.le_refl _) _, httl⟩
  | _ => trivial

omit [Inhabited V] in
theorem begin_sound (c : InMemoryCache K V) (history : List (K → Option (V × Int)))
    (call : Call K V) : (c.begin history.length call).1.Sound (c.begin history.length call).2
      (history ++ [(c.begin history.length call).2.view]) := by
  cases call with
  | get w k =>
    show history.length < (history ++ [_]).length
    rw [length_append]
    exact Nat.lt_succ_self _
  | _ => trivial

/-- The thread after a section of its own. -/
theorem enter_sound (h : c.Valid) (ht : thread.Sound c history) :
    (c.enter thread).1.Sound (c.enter thread).2 (history ++ [(c.enter thread).2.view]) := by
  cases thread with
  | get w k lw start =>
    have hstart : start < history.length := ht
    obtain ⟨s, hs⟩ := h.home_shard k
    have hhit := (InMemoryCache.getSection_carries h hs lw (InMemoryCache.Steals c .idle)).2
    simp only [InMemoryCache.enter, InMemoryCache.onShard_eq hs]
    cases hr : ((c.locked s).getSection c.config lw k).1 with
    | miss => trivial
    | hit a now =>
      have hitem := hhit a now hr
      exact ⟨.inl hitem, stored_last history (by omega) (by rw [length_append]; omega)
        (InMemoryCache.view_of_itemOf hitem)⟩
    | upgrade =>
      show start < (history ++ [_]).length
      rw [length_append]
      omega
  | cleanup now shard =>
    simp only [InMemoryCache.enter]
    split_ifs <;> trivial
  | read w k a now start =>
    exact ht.carries (InMemoryCache.Carries.refl (fun _ _ => False) c) fun _ _ _ _ _ _ => id
  | returned k v ttl now start stop =>
    exact ht.carries (InMemoryCache.Carries.refl (fun _ _ => False) c) fun _ _ _ _ _ _ => id
  | _ => trivial

omit [Inhabited V] in
theorem readItem_sound (ht : thread.Sound c history) :
    (c.readItem history.length thread).Sound c (history ++ [c.view]) := by
  cases thread with
  | read w k a now start =>
    refine ⟨(c.body a).expireTime, ht.2.snoc (Nat.le_refl _) _, ?_⟩
    cases w with
    | true => exact .inr rfl
    | false => exact .inl rfl
  | _ => exact ht.carries (InMemoryCache.Carries.refl (fun _ _ => False) c) fun _ _ _ _ _ _ => id

namespace System
variable {s : System K V}

/-- The action takes from the pool, for another key, an item that a client has still to read. -/
def Disturbs (s : System K V) : Action K V → Prop
  | .lock client => ∃ other w k a now start, s.threads other = .read w k a now start ∧
      s.cache.Steals (s.threads client) k a
  | _ => False

def Undisturbed : System K V → List (Action K V) → Prop
  | _, [] => True
  | s, a :: as => ¬ s.Disturbs a ∧ Undisturbed (s.step a) as

theorem step_sound (h : s.Sound) {a : Action K V} (ha : ¬ s.Disturbs a) : (s.step a).Sound := by
  -- the acting client changes its thread, the others see a new cache
  have hstep : ∀ {thread : Thread K V} {c' : InMemoryCache K V} {lost : K → Addr → Prop},
      s.act a = (thread, c') → c'.Valid → thread.Sound c' (s.history ++ [c'.view]) →
      s.cache.Carries lost c' →
      (∀ other w k x now start, s.threads other = .read w k x now start → ¬ lost k x) →
      (s.step a).Sound := by
    intro thread c' lost hact hvalid hthread hcar hlost
    refine ⟨by simpa only [step, hact] using hvalid, fun client => ?_⟩
    simp only [step, hact]
    by_cases hc : client = Action.client a
    · subst hc
      rw [Function.update_self]
      exact hthread
    · rw [Function.update_of_ne hc]
      exact (h.threads client).carries hcar (hlost client)
  cases a with
  | call client call =>
    by_cases hfree : (s.free client && !s.cache.closed) = true
    · obtain ⟨hout, hcar⟩ := InMemoryCache.begin_spec h.valid s.history.length call
        fun _ _ => False
      exact hstep (if_pos hfree) hout.valid (begin_sound s.cache s.history call) hcar
        fun _ _ _ _ _ _ _ => id
    · have hcar := InMemoryCache.Carries.refl (fun _ _ => False) s.cache
      exact hstep (if_neg hfree) h.valid ((h.threads client).carries hcar fun _ _ _ _ _ _ => id)
        hcar fun _ _ _ _ _ _ _ => id
  | lock client =>
    obtain ⟨hout, hcar⟩ := InMemoryCache.enter_spec h.valid (s.threads client)
    exact hstep rfl hout.valid (enter_sound h.valid (h.threads client)) hcar
      fun other w k x now start hread hsteal => ha ⟨other, w, k, x, now, start, hread, hsteal⟩
  | read client =>
    exact hstep rfl h.valid (readItem_sound (h.threads client))
      (InMemoryCache.Carries.refl (fun _ _ => False) s.cache) fun _ _ _ _ _ _ _ => id

theorem exec_sound (h : s.Sound) {as : List (Action K V)} (has : s.Undisturbed as) :
    (s.exec as).Sound := by
  induction as generalizing s with
  | nil => exact h
  | cons a as ih => exact ih (step_sound h has.1) has.2

/-- In a run that never takes an item a client has still to read from the pool for another key,
what `Get` and `GetWithTTL` return was stored under their key while the call ran. -/
theorem exec_returned {config : Config} {numCPU : Int} {hasher : K → UInt64} {wall : WallClock}
    {choice : Nat → Nat} {c : InMemoryCache K V}
    (hnew : InMemoryCache.New config numCPU hasher wall choice = some c)
    {as : List (Action K V)} (has : (start c).Undisturbed as) {client : Nat} {key : K} {value : V}
    {ttl : Option Int} {now : Int} {begun stop : Nat}
    (hret : ((start c).exec as).threads client = .returned key value ttl now begun stop) :
    ∃ e, Stored ((start c).exec as).history key (value, e) begun stop ∧
      (ttl = none ∨ ttl = some (InMemoryCache.remaining e now)) := by
  have hstart : (start c).Sound := ⟨(InMemoryCache.New_spec hnew).1, fun _ => trivial⟩
  have hsound := (exec_sound hstart has).threads client
  rw [hret] at hsound
  exact hsound

def deleted : List (Action Nat Nat) :=
  [.call 0 (.set 1 10 0), .lock 0, .call 1 (.get false 1), .lock 1, .call 0 (.delete 1), .lock 0,
    .read 1]

theorem exec_returned_deleted :
    let s := start (InMemoryCache.small .FIFO fun n => n)
    s.Undisturbed deleted ∧ (s.exec deleted).threads 1 = .returned 1 10 none 1 3 7 ∧
      ∃ e, Stored (s.exec deleted).history 1 (10, e) 3 7 ∧
        ((none : Option Int) = none ∨ none = some (InMemoryCache.remaining e 1)) := by
  intro s
  have hnew := InMemoryCache.New_small .FIFO fun n => n
  have hopen := (InMemoryCache.New_spec hnew).2.1
  have hret : (s.exec deleted).threads 1 = .returned 1 10 none 1 3 7 := by decide +kernel
  have hget : (s.exec (deleted.take 3)).threads 1 = .get false 1 false 3 := by decide +kernel
  have hdelete : (s.exec (deleted.take 5)).threads 0 = .delete 1 := by decide +kernel
  simp only [deleted, take_succ_cons, take_zero, exec, foldl_cons, foldl_nil] at hget hdelete
  have has : s.Undisturbed deleted := by
    refine ⟨id, ?_, id, ?_, id, ?_, id, trivial⟩
    · rintro ⟨other, w, k, a, now, begun, hread, -⟩
      by_cases hother : other = 0
      · subst hother
        simp [s, step, act, start, free, hopen, Action.client, InMemoryCache.begin] at hread
      · simp [s, step, act, start, Action.client, hother] at hread
    · rintro ⟨other, w, k, a, now, begun, -, hsteal⟩
      rw [hget] at hsteal
      exact hsteal
    · rintro ⟨other, w, k, a, now, begun, -, hsteal⟩
      rw [hdelete] at hsteal
      exact hsteal
  exact ⟨has, hret, exec_returned hnew has hret⟩

/-- Client 1 hits key 1 and is overtaken by a `Delete` of key 1 and a `Set` of key 2. -/
def overtaken : List (Action Nat Nat) :=
  [.call 0 (.set 1 10 0), .lock 0, .call 1 (.get false 1), .lock 1, .call 0 (.delete 1), .lock 0,
    .call 0 (.set 2 20 0), .lock 0, .read 1]

/-- The `Get` of key 1 returns the value of key 2, which was never stored under key 1. -/
theorem overtaken_foreign :
    let s := (start (InMemoryCache.small .FIFO fun n => n)).exec overtaken
    s.threads 1 = .returned 1 20 none 1 3 9 ∧
      s.history.map (fun view => (view 1).map Prod.fst) =
        [none, none, some 10, some 10, some 10, some 10, none, none, none, none] := by
  decide +kernel

end System

end Interleaving

end Kioshun
