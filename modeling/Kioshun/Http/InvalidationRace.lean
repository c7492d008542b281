import Kioshun.Http.Invalidation
import Kioshun.Lib.Schedule

/-!
# Pattern invalidation while requests are served

The cache and the index are locked apart, and no operation holds both locks. A miss is
stored in the cache and then added to the index. `Invalidate` reads the index and then,
key by key, deletes from the cache and removes from the index. `Clear` empties the cache
and then the index. Other operations may come in between any two of these steps.
-/

namespace Kioshun

/-- What an operation does next. An idle goroutine has the number that its last `Invalidate`
returned. -/
inductive InvalidationRace.Stage where
  | idle (removed : Option Int)
  | storing (key : Bytes) (cached : CachedResponse) (ttl : Int)
  | adding (key : Bytes)
  | matching (urlPattern : Bytes)
  | deleting (keys : List Bytes) (removed : Int)
  | removing (key : Bytes) (keys : List Bytes) (removed : Int)
  | clearing
  | resetting

structure InvalidationRace (n : Nat) where
  m : HTTPCacheMiddleware
  stage : Fin n → InvalidationRace.Stage

namespace InvalidationRace

open HTTPCacheMiddleware Function

section Model

def Stage.Idle : Stage → Prop
  | .idle _ => True
  | _ => False

instance : DecidablePred Stage.Idle
  | .idle _ => isTrue trivial
  | .storing .. | .adding _ | .matching _ | .deleting .. | .removing .. | .clearing | .resetting =>
    isFalse id

/-- The key is in the cache and has still to be put into the index. -/
def Stage.Adds : Stage → Bytes → Prop
  | .adding key, k => k = key
  | _, _ => False

/-- The keys that the next step takes out of the index. -/
def Stage.Takes : Stage → Bytes → Prop
  | .removing key _ _, k => k = key
  | .resetting, _ => True
  | _, _ => False

/-- One step of an operation under one lock, and what it does after that. -/
def Stage.next (m : HTTPCacheMiddleware) (pick : Nat → Nat) : Stage → HTTPCacheMiddleware × Stage
  | .idle removed => (m, .idle removed)
  | .storing key cached ttl => ({ m with cache := (m.cache.Set key cached ttl).2 }, .adding key)
  | .adding key => (m.addKey key, .idle none)
  | .matching urlPattern => (m, .deleting (m.patternIdx.GetMatchingKeys urlPattern pick) 0)
  | .deleting [] removed => (m, .idle (some removed))
  | .deleting (key :: keys) removed =>
    let deleted := m.cache.Delete key
    ({ m with cache := deleted.2 },
      if deleted.1 then .removing key keys removed else .deleting keys removed)
  | .removing key keys removed => (m.removeKey key, .deleting keys (removed + 1))
  | .clearing => ({ m with cache := m.cache.Clear }, .resetting)
  | .resetting => ({ m with patternIdx := m.patternIdx.Clear }, .idle none)

/-- An idle goroutine begins to store a response, to invalidate or to clear, or the operation of a
goroutine takes its next step. The cache is also used by lookups, by the readings of the clock, by
the background cleanup and by `InvalidateByFunc`. -/
inductive Event (n : Nat) where
  | serve (t : Fin n) (key : Bytes) (cached : CachedResponse) (ttl : Int)
  | invalidate (t : Fin n) (urlPattern : Bytes)
  | clear (t : Fin n)
  | advance (t : Fin n) (pick : Nat → Nat)
  | lookup (key : Bytes)
  | now
  | cleanup
  | delete (key : Bytes)

variable {n : Nat}

def start (m : HTTPCacheMiddleware) : InvalidationRace n := ⟨m, fun _ => .idle none⟩

def begin (s : InvalidationRace n) (t : Fin n) (stage : Stage) : InvalidationRace n :=
  if (s.stage t).Idle then { s with stage := update s.stage t stage } else s

def advance (s : InvalidationRace n) (t : Fin n) (pick : Nat → Nat) : InvalidationRace n :=
  let r := (s.stage t).next s.m pick
  ⟨r.1, update s.stage t r.2⟩

def step (s : InvalidationRace n) : Event n → InvalidationRace n
  | .serve t key cached ttl => s.begin t (.storing key cached ttl)
  | .invalidate t urlPattern => s.begin t (.matching urlPattern)
  | .clear t => s.begin t .clearing
  | .advance t pick => s.advance t pick
  | .lookup key => { s with m := { s.m with cache := (s.m.cache.Get key).2 } }
  | .now => { s with m := { s.m with cache := s.m.cache.now.2 } }
  | .cleanup => { s with m := { s.m with cache := s.m.cache.cleanup } }
  | .delete key => { s with m := { s.m with cache := (s.m.cache.Delete key).2 } }

def exec (s : InvalidationRace n) (es : List (Event n)) : InvalidationRace n :=
  Schedule.exec step s es

def Quiet (s : InvalidationRace n) : Prop := ∀ t, (s.stage t).Idle

def Adding (s : InvalidationRace n) (k : Bytes) : Prop := ∃ t, (s.stage t).Adds k

/-- The index may lose the key: it is not cached, or it is about to be added again. -/
def Dispensable (s : InvalidationRace n) (k : Bytes) : Prop :=
  s.m.Cached k → s.m.pathExtract k ≠ [] → s.Adding k

def Spares (s : InvalidationRace n) : Event n → Prop
  | .advance t _ => ∀ k, (s.stage t).Takes k → s.Dispensable k
  | _ => True

end Model

variable {k : Bytes}

section Decidable

instance (stage : Stage) (k : Bytes) : Decidable (stage.Adds k) :=
  match stage with
  | .adding key => inferInstanceAs (Decidable (k = key))
  | .idle _ | .storing .. | .matching _ | .deleting .. | .removing .. | .clearing | .resetting =>
    isFalse id

instance (stage : Stage) (k : Bytes) : Decidable (stage.Takes k) :=
  match stage with
  | .removing key _ _ => inferInstanceAs (Decidable (k = key))
  | .resetting => isTrue trivial
  | .idle _ | .storing .. | .adding _ | .matching _ | .deleting .. | .clearing => isFalse id

variable {n : Nat}

instance (s : InvalidationRace n) : Decidable s.Quiet := inferInstanceAs (Decidable (∀ _, _))

instance (s : InvalidationRace n) (k : Bytes) : Decidable (s.Dispensable k) :=
  inferInstanceAs (Decidable (_ → _ → ∃ t, (s.stage t).Adds k))

/-- Only finitely many keys are cached. -/
theorem mem_keys_of_cached {m : HTTPCacheMiddleware} (h : m.Cached k) :
    k ∈ m.cache.shards.flatMap fun shard => shard.data.keys := by
  obtain ⟨e, he⟩ := Option.ne_none_iff_exists'.mp h
  obtain ⟨shard, hshard, hview⟩ := Option.bind_eq_some_iff.mp he
  obtain ⟨body, hbody, -⟩ := Option.map_eq_some_iff.mp hview
  obtain ⟨a, ha, -⟩ := Option.map_eq_some_iff.mp hbody
  have hmem : k ∈ shard.data := AList.lookup_isSome.mp (Option.isSome_of_eq_some ha)
  exact List.mem_flatMap.mpr ⟨shard, List.mem_of_getElem? hshard, AList.mem_keys.mp hmem⟩

instance (s : InvalidationRace n) (e : Event n) : Decidable (s.Spares e) :=
  match e with
  | .advance t _ =>
    decidable_of_iff (∀ k ∈ s.m.cache.shards.flatMap fun (shard : Shard Bytes) => shard.data.keys,
      (s.stage t).Takes k → s.Dispensable k)
      ⟨fun h k htakes hcached => h k (mem_keys_of_cached hcached) htakes hcached, fun h k _ => h k⟩
  | .serve .. | .invalidate .. | .clear _ | .lookup _ | .now | .cleanup | .delete _ =>
    isTrue trivial

end Decidable

section Step

variable {n : Nat} {m : HTTPCacheMiddleware} {s : InvalidationRace n} {t : Fin n}
  {others : Bytes → Prop}

variable {stage : Stage}

/-- The step of one operation while others add the keys in `others`. -/
theorem Stage.next_awaits (pick : Nat → Nat) (h : m.Awaits fun k => others k ∨ stage.Adds k)
    (hspares : ∀ k, stage.Takes k → m.Cached k → m.pathExtract k ≠ [] → others k ∨ stage.Adds k) :
    (stage.next m pick).1.Awaits fun k => others k ∨ (stage.next m pick).2.Adds k := by
  cases stage with
  | idle removed => exact h
  | storing key cached ttl =>
    refine (h.set key cached ttl).mono fun k hk => ?_
    exact hk.imp_left fun hk => hk.resolve_right id
  | adding key => exact h.addKey.mono fun k => .inl
  | matching urlPattern => exact h
  | deleting keys removed =>
    cases keys with
    | nil => exact h
    | cons key keys => exact (h.delete key).mono fun k hk => .inl (hk.resolve_right id)
  | removing key keys removed => exact h.removeKey (hspares key rfl)
  | clearing => exact h.clearCache
  | resetting => exact h.clearIndex fun k => hspares k trivial

/-- A key is being added by one goroutine or by another. -/
theorem adding_iff (t : Fin n) :
    s.Adding k ↔ (∃ t' ≠ t, (s.stage t').Adds k) ∨ (s.stage t).Adds k := by
  constructor
  · rintro ⟨t', h⟩
    by_cases ht : t' = t
    · exact .inr (ht ▸ h)
    · exact .inl ⟨t', ht, h⟩
  · rintro (⟨t', -, h⟩ | h)
    · exact ⟨t', h⟩
    · exact ⟨t, h⟩

theorem adding_update :
    (⟨m, update s.stage t stage⟩ : InvalidationRace n).Adding k ↔
      (∃ t' ≠ t, (s.stage t').Adds k) ∨ stage.Adds k := by
  rw [adding_iff t]
  simp only [update_self]
  refine or_congr_left (exists_congr fun t' => and_congr_right fun ht => ?_)
  rw [update_of_ne ht]

theorem Stage.Idle.not_adds (h : stage.Idle) : ¬stage.Adds k := by
  cases stage with
  | idle removed => exact id
  | _ => exact absurd h id

/-- What is not yet in the index is being added. -/
def Sound (s : InvalidationRace n) : Prop := s.m.Awaits s.Adding

theorem Sound.begin (h : s.Sound) (t : Fin n) (stage : Stage) : (s.begin t stage).Sound := by
  unfold InvalidationRace.begin
  split_ifs with hidle
  · refine Awaits.mono h fun k hk => adding_update.mpr (.inl ?_)
    exact ((adding_iff t).mp hk).resolve_right hidle.not_adds
  · exact h

theorem Sound.advance (h : s.Sound) (t : Fin n) (pick : Nat → Nat)
    (hspares : ∀ k, (s.stage t).Takes k → s.Dispensable k) : (s.advance t pick).Sound := by
  have hstage : s.m.Awaits fun k => (∃ t' ≠ t, (s.stage t').Adds k) ∨ (s.stage t).Adds k :=
    h.mono fun k => (adding_iff t).mp
  have hnext := Stage.next_awaits pick hstage fun k htakes hcached hpath =>
    (adding_iff t).mp (hspares k htakes hcached hpath)
  exact hnext.mono fun k => adding_update.mpr

theorem Sound.step (h : s.Sound) (e : Event n) (hspares : s.Spares e) : (s.step e).Sound := by
  cases e with
  | serve t key cached ttl => exact h.begin t _
  | invalidate t urlPattern => exact h.begin t _
  | clear t => exact h.begin t _
  | advance t pick => exact h.advance t pick hspares
  | lookup key => exact Awaits.get h key
  | now => exact Awaits.now h
  | cleanup => exact Awaits.cleanup h
  | delete key => exact Awaits.delete h key

theorem Sound.indexed (h : s.Sound) (hquiet : s.Quiet) : s.m.Indexed := by
  refine Awaits.indexed h ?_
  rintro k ⟨t, hadds⟩
  exact (hquiet t).not_adds hadds

end Step

section Runs
variable {n : Nat} {s : InvalidationRace n}

theorem Stage.next_path (stage : Stage) (m : HTTPCacheMiddleware) (pick : Nat → Nat) :
    (stage.next m pick).1.pathExtract = m.pathExtract := by
  cases stage with
  | adding key => exact (addKey_frame m key).2
  | removing key keys removed => exact (removeKey_frame m key).2
  | deleting keys removed => cases keys <;> rfl
  | _ => rfl

theorem step_path (e : Event n) : (s.step e).m.pathExtract = s.m.pathExtract := by
  have hbegin : ∀ t stage, (s.begin t stage).m.pathExtract = s.m.pathExtract := by
    intro t stage
    unfold InvalidationRace.begin
    split_ifs <;> rfl
  cases e with
  | serve t key cached ttl => exact hbegin t _
  | invalidate t urlPattern => exact hbegin t _
  | clear t => exact hbegin t _
  | advance t pick => exact Stage.next_path _ _ pick
  | _ => rfl

theorem exec_path (es : List (Event n)) : (s.exec es).m.pathExtract = s.m.pathExtract := by
  induction es generalizing s with
  | nil => rfl
  | cons e es ih => exact (ih (s := s.step e)).trans (step_path e)

/-- The cached keys with a path are in the index at it, and `Invalidate` of a pattern that matches
the path removes them. -/
structure Invalidatable (extractor : Bytes → Bytes) (m : HTTPCacheMiddleware) : Prop where
  indexed : ∀ k, m.Cached k → extractor k ≠ [] → m.patternIdx.Has (segments (extractor k)) k
  removed : ∀ k urlPattern pick, m.Cached k → Asked extractor urlPattern k →
    ¬(m.Invalidate urlPattern pick).2.Cached k

theorem invalidatable_of_indexed {m : HTTPCacheMiddleware} (h : m.Indexed) :
    Invalidatable m.pathExtract m where
  indexed := h.covers
  removed k urlPattern pick hk hasked := by
    have hremoves := h.invalidate urlPattern pick
    rw [Cached, hremoves.view, if_pos ((h.mem_GetMatchingKeys hk).mpr hasked)]
    exact fun hne => hne rfl

variable {lib : HttpLib} {config : MiddlewareConfig} {numCPU : Int} {hasher : Bytes → UInt64}
  {wall : WallClock} {choice : Nat → Nat} {m₀ : HTTPCacheMiddleware}

/-- Operations interleave in any way, as long as nothing is taken out of the index that is cached
and has been added already. -/
theorem exec_invalidatable
    (hnew : NewHTTPCacheMiddleware lib config numCPU hasher wall choice = some m₀)
    (keyGen : KeyGenerator) (extractor : Bytes → Bytes) (policy : CachePolicy) (es : List (Event n))
    (hspares : Schedule.Along step Spares (start (m₀.configure keyGen extractor policy)) es)
    (hquiet : (exec (start (m₀.configure keyGen extractor policy)) es).Quiet) :
    Invalidatable extractor (exec (start (m₀.configure keyGen extractor policy)) es).m := by
  have hstart : Sound (start (n := n) (m₀.configure keyGen extractor policy)) :=
    (indexed_configure hnew keyGen extractor policy).awaits.mono fun _ => False.elim
  have hsound : Sound (exec (start (m₀.configure keyGen extractor policy)) es) :=
    Schedule.exec_keeps (fun s e h => h.step e) hstart hspares
  have hdone := invalidatable_of_indexed (hsound.indexed hquiet)
  rwa [exec_path] at hdone

def invalidating : List (Event 2) :=
  [.serve 0 (ascii "GET:/api/a") ⟨200, .empty, [1], 0⟩ 0, .advance 0 id, .advance 0 id,
    .invalidate 1 (ascii "/api/*"), .advance 1 id, .advance 1 id]

def indexedLast : List (Event 2) :=
  invalidating ++ [.serve 0 (ascii "GET:/api/a") ⟨200, .empty, [2], 0⟩ 0, .advance 0 id,
    .advance 1 id, .advance 0 id, .advance 1 id]

def indexedFirst : List (Event 2) :=
  invalidating ++ [.serve 0 (ascii "GET:/api/a") ⟨200, .empty, [2], 0⟩ 0, .advance 0 id,
    .advance 0 id, .advance 1 id, .advance 1 id]

theorem exec_invalidatable_indexedLast :
    let s := exec (start small.cachesAll) indexedLast
    s.m.Cached (ascii "GET:/api/a") ∧ Invalidatable PathExtractorFromKey s.m :=
  ⟨by decide +kernel, exec_invalidatable new_small _ _ _ indexedLast (by decide +kernel)
    (by decide +kernel)⟩

/-- The key is cached and no longer in the index, and `Invalidate` does not find it. -/
theorem not_invalidatable_indexedFirst :
    let s := exec (start small.cachesAll) indexedFirst
    s.Quiet ∧ ¬Invalidatable PathExtractorFromKey s.m := by
  intro s
  have hcached : s.m.Cached (ascii "GET:/api/a") := by decide +kernel
  have hleft : (s.m.Invalidate (ascii "/api/*") id).2.Cached (ascii "GET:/api/a") := by
    decide +kernel
  refine ⟨by decide +kernel, fun hinv => ?_⟩
  exact hinv.removed _ (ascii "/api/*") id hcached ⟨by decide, by decide⟩ hleft

end Runs

end InvalidationRace

end Kioshun
