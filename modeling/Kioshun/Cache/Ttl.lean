import Kioshun.Cache.Runs

/-!
# The arithmetic of expiry

`Set` stamps an entry with the sum of the clock and the time to live, which may wrap around,
and zero and negative stamps mean that the entry does not expire. The readers compare the
stamp with the clock and take the difference. Over the whole range of `int64` this comes
out as if the sum were taken over the integers.
-/

namespace Kioshun

open CellStore WallClock Locked

universe u v
variable {K : Type u} {V : Type v}

/-- All readings are those of an `int64`. -/
def WallClock.Fits (w : WallClock) : Prop := ∀ n, -(2 ^ 63) ≤ w.reading n ∧ w.reading n < 2 ^ 63

namespace InMemoryCache

def effective (config : Config) (ttl : Int) : Int :=
  if ttl = 0 then config.defaultTTL.toInt else ttl

section Arithmetic
variable {config : Config} {now ttl t : Int}

theorem stamp_eq : stamp config now ttl =
    if 0 < effective config ttl then wrap64 (now + effective config ttl) else 0 := rfl

theorem effective_lt (config : Config) (httl : ttl < 2 ^ 63) : effective config ttl < 2 ^ 63 := by
  unfold effective
  split_ifs
  · exact Int64.toInt_lt config.defaultTTL
  · exact httl

/-- The stamp is the sum, or it has wrapped around and is negative. -/
theorem stamp_cases (hnow : 0 ≤ now) (hnow' : now < 2 ^ 63) (httl : ttl < 2 ^ 63)
    (hpos : 0 < effective config ttl) :
    stamp config now ttl = now + effective config ttl ∨
      (2 ^ 63 ≤ now + effective config ttl ∧ stamp config now ttl < 0 ∧
        stamp config now ttl = now + effective config ttl - 2 ^ 64) := by
  have heff := effective_lt config httl
  rw [stamp_eq, if_pos hpos]
  by_cases hfits : now + effective config ttl < 2 ^ 63
  · exact .inl (wrap64_of_mem (by omega) hfits)
  · have hwrap := wrap64_of_ge (Int.not_lt.mp hfits) (by omega)
    refine .inr ⟨Int.not_lt.mp hfits, ?_, hwrap⟩
    rw [hwrap]
    omega

/-- An entry whose stamp has wrapped around outlives the clock. -/
theorem live_stamp (hnow : 0 ≤ now) (hnow' : now < 2 ^ 63) (httl : ttl < 2 ^ 63) (ht : t < 2 ^ 63)
    (v : V) : live t (v, stamp config now ttl) = true ↔
      effective config ttl ≤ 0 ∨ t ≤ now + effective config ttl := by
  simp only [live, Bool.not_eq_true', decide_eq_false_iff_not]
  by_cases hpos : 0 < effective config ttl
  · rcases stamp_cases hnow hnow' httl hpos with hsum | ⟨hge, hneg, -⟩
    · rw [hsum]
      omega
    · omega
  · rw [stamp_eq, if_neg hpos]
    omega

/-- The difference that wraps back is the time that is left. -/
theorem remaining_stamp (hnow : 0 ≤ now) (hnow' : now < 2 ^ 63) (httl : ttl < 2 ^ 63)
    (hpos : 0 < effective config ttl) (hle : now ≤ t) (ht : t ≤ now + effective config ttl) :
    remaining (stamp config now ttl) t = now + effective config ttl - t := by
  have heff := effective_lt config httl
  rcases stamp_cases hnow hnow' httl hpos with hsum | ⟨-, hneg, hwrap⟩
  · have hne : stamp config now ttl ≠ 0 := by omega
    rw [remaining, if_neg hne, hsum]
    exact wrap64_of_mem (by omega) (by omega)
  · have hne : stamp config now ttl ≠ 0 := by omega
    rw [remaining, if_neg hne, hwrap, wrap64, Int.bmod_def]
    split <;> omega

theorem remaining_stamp_forever (h : effective config ttl ≤ 0) (t : Int) :
    remaining (stamp config now ttl) t = -1 := by
  rw [stamp_eq, if_neg (by omega), remaining, if_pos rfl]

end Arithmetic

section Reading
variable {c c' : InMemoryCache K V} {k : K} {e : V × Int}

def lastReading (c : InMemoryCache K V) : Int := c.rt.wall.reading (c.rt.wall.ticks - 1)

theorem lastReading_now (h : c'.rt.wall = c.rt.wall.now.2) : c'.lastReading = c.now.1 := by
  rw [lastReading, h]
  rfl

/-- A section that read the clock once took the reading that was due. -/
theorem Reads.eq_now {now : Int} (h : Reads c c' now) (hwall : c'.rt.wall = c.rt.wall.now.2) :
    now = c.now.1 := by
  obtain ⟨j, hlo, hhi, rfl⟩ := h
  rw [hwall] at hhi
  have hj : j = c.rt.wall.ticks := Nat.le_antisymm (Nat.lt_succ_iff.mp hhi) hlo
  rw [hj]
  rfl

variable [DecidableEq K]

/-- One section of `get` on a key that is stored, with the one reading it takes. -/
theorem Valid.get_at (h : Valid c) (he : c.view k = some e) (lockedWrite : Bool) :
    let r := c.onShard (c.home k) .miss (getSection c.config lockedWrite k)
    Outcome c r.2 ∧ r.2.lastReading = c.now.1 ∧
      match r.1 with
      | .hit a now => now = c.now.1 ∧ live now e = true ∧
          ((r.2.body a).value, (r.2.body a).expireTime) = e
      | .miss => live c.now.1 e = false
      | .upgrade => lockedWrite = false ∧ r.2.view k = some e := by
  obtain ⟨s, hs⟩ := h.home_shard k
  have hstored : (c.locked s).sh.data.lookup k ≠ none := by
    intro hk
    rw [view_of_shard hs, view_eq_none.mpr hk] at he
    cases he
  have hwall := wall_getSection (c.locked s) c.config lockedWrite k
  rw [if_neg hstored] at hwall
  obtain ⟨o, t, hr, hout, hcase⟩ := getSection_put h hs lockedWrite
  rw [hr] at hwall
  simp only [onShard_eq hs, hr]
  refine ⟨hout, lastReading_now hwall, ?_⟩
  cases o with
  | miss =>
    cases hcase with
    | absent entry _ =>
      rw [he] at entry
      cases entry
    | expired entry stale _ _ =>
      rw [he] at entry
      obtain rfl := Option.some.inj entry
      exact stale
  | hit a now =>
    cases hcase with
    | hit entry live reads _ _ =>
      rw [he] at entry
      obtain rfl := Option.some.inj entry
      exact ⟨reads.eq_now hwall, live, rfl⟩
  | upgrade =>
    obtain ⟨hread, hview, -⟩ := hcase
    exact ⟨hread, by rw [hview]; exact he⟩

/-- The result of a lookup of a stored entry goes by the latest reading of the clock. -/
def Decided (e : V × Int) (r : Option (Addr × Int) × InMemoryCache K V) : Prop :=
  if live r.2.lastReading e then
    ∃ a, r.1 = some (a, r.2.lastReading) ∧ ((r.2.body a).value, (r.2.body a).expireTime) = e
  else r.1 = none

omit [DecidableEq K] in
theorem decided_miss (hlast : c'.lastReading = c.now.1) (h : live c.now.1 e = false) :
    Decided e (none, c') := by
  simp only [Decided, hlast, h, Bool.false_eq_true, if_false]

omit [DecidableEq K] in
theorem decided_hit {a : Addr} {now : Int} (hlast : c'.lastReading = c.now.1)
    (h : now = c.now.1 ∧ live now e = true ∧
      ((c'.body a).value, (c'.body a).expireTime) = e) : Decided e (some (a, now), c') := by
  obtain ⟨rfl, hlive, hbody⟩ := h
  simp only [Decided, hlast, hlive, if_true]
  exact ⟨a, rfl, hbody⟩

theorem Valid.get_decided (h : Valid c) (hopen : c.closed = false) (he : c.view k = some e) :
    Decided e (c.get k) := by
  obtain ⟨hout, hlast, hcase⟩ := h.get_at he
    (decide (c.config.evictionPolicy = .LRU ∨ c.config.evictionPolicy = .LFU))
  simp only [get, hopen, Bool.false_eq_true, if_false]
  generalize c.onShard (c.home k) .miss (getSection c.config _ k) = r at hout hlast hcase
  obtain ⟨o, c₁⟩ := r
  cases o with
  | miss => exact decided_miss hlast hcase
  | hit a now => exact decided_hit hlast hcase
  | upgrade =>
    -- the second section reads the clock again
    obtain ⟨-, hview⟩ := hcase
    obtain ⟨-, hlast', hcase'⟩ := hout.valid.get_at hview true
    have hhome : c₁.home k = c.home k := hout.shape.home k
    have hconfig : c₁.config = c.config := hout.shape.config
    simp only [hhome, hconfig] at hlast' hcase' ⊢
    generalize c₁.onShard (c.home k) .miss (getSection c.config true k) = r at hlast' hcase'
    obtain ⟨o, c₂⟩ := r
    cases o with
    | miss => exact decided_miss hlast' hcase'
    | hit a now => exact decided_hit hlast' hcase'
    | upgrade => cases hcase'.1

theorem Valid.exists_decided (h : Valid c) (hopen : c.closed = false) (he : c.view k = some e) :
    (c.Exists k).2.lastReading = c.now.1 ∧ (c.Exists k).1 = live c.now.1 e := by
  obtain ⟨-, -, hfound, -⟩ := Exists_spec h hopen k
  rw [he, Option.any_some] at hfound
  refine ⟨lastReading_now ?_, hfound⟩
  obtain ⟨s, hs⟩ := h.home_shard k
  have hs' : c.now.2.shards[c.home k]? = some s := hs
  simp only [Exists, hopen, Bool.false_eq_true, if_false, onShard_eq hs']
  exact wall_existsSection ..

end Reading

theorem fits_of_later {w w' : WallClock} (h : Later w w') (hw : w.Fits) : w'.Fits := by
  intro n
  rw [h.reading]
  exact hw n

variable [DecidableEq K]

section Stamped
variable {c : InMemoryCache K V} {config : Config} {k : K} {v : V} {now ttl : Int} (h : Valid c)
  (hopen : c.closed = false) (hclock : c.rt.wall.Fits)
  (hentry : c.view k = some (v, stamp config now ttl)) (hnow : 0 ≤ now) (hnow' : now < 2 ^ 63)
  (httl : ttl < 2 ^ 63)
include h hopen hclock hentry hnow hnow' httl

variable {t : Int}

/-- A lookup of a stamped entry, at its latest reading. -/
theorem get_stamped (ht : (c.get k).2.lastReading = t) :
    if effective config ttl ≤ 0 ∨ t ≤ now + effective config ttl then
      ∃ a, (c.get k).1 = some (a, t) ∧ ((c.get k).2.body a).value = v ∧
        ((c.get k).2.body a).expireTime = stamp config now ttl
    else (c.get k).1 = none := by
  have hlater := (get_spec h hopen k).1.later
  have hlast : t < 2 ^ 63 := ht ▸ (fits_of_later hlater hclock _).2
  have hdecided := h.get_decided hopen hentry
  simp only [Decided, ht, live_stamp hnow hnow' httl hlast, Prod.mk.injEq] at hdecided
  exact hdecided

theorem Get_stamped (ht : (c.Get k).2.lastReading = t) : (c.Get k).1 =
    if effective config ttl ≤ 0 ∨ t ≤ now + effective config ttl then some v else none := by
  have hget := get_stamped h hopen hclock hentry hnow hnow' httl ht
  split_ifs at hget ⊢ with hlive
  · obtain ⟨a, hhit, hvalue, -⟩ := hget
    rw [Get, hhit, Option.map_some, hvalue]
  · rw [Get, hget, Option.map_none]

theorem GetWithTTL_stamped (ht : (c.GetWithTTL k).2.lastReading = t) (hle : now ≤ t) :
    (c.GetWithTTL k).1 = if effective config ttl ≤ 0 then some (v, -1)
      else if t ≤ now + effective config ttl then some (v, now + effective config ttl - t)
      else none := by
  have hget := get_stamped h hopen hclock hentry hnow hnow' httl ht
  by_cases hforever : effective config ttl ≤ 0
  · rw [if_pos (.inl hforever)] at hget
    obtain ⟨a, hhit, hvalue, hstamp⟩ := hget
    rw [if_pos hforever, GetWithTTL, hhit, Option.map_some, hvalue, hstamp,
      remaining_stamp_forever hforever]
  · rw [if_neg hforever]
    by_cases hlive : t ≤ now + effective config ttl
    · rw [if_pos (.inr hlive)] at hget
      obtain ⟨a, hhit, hvalue, hstamp⟩ := hget
      rw [if_pos hlive, GetWithTTL, hhit, Option.map_some, hvalue, hstamp,
        remaining_stamp hnow hnow' httl (Int.not_le.mp hforever) hle hlive]
    · rw [if_neg (not_or.mpr ⟨hforever, hlive⟩)] at hget
      rw [if_neg hlive, GetWithTTL, hget, Option.map_none]

theorem Exists_stamped (ht : (c.Exists k).2.lastReading = t) :
    (c.Exists k).1 = decide (effective config ttl ≤ 0 ∨ t ≤ now + effective config ttl) := by
  obtain ⟨hlast, hfound⟩ := h.exists_decided hopen hentry
  have hreading : t < 2 ^ 63 := ht ▸ hlast ▸ (hclock _).2
  rw [hfound, ← hlast, ht, Bool.eq_iff_iff, live_stamp hnow hnow' httl hreading,
    decide_eq_true_iff]

end Stamped

variable [Inhabited V]

/-- What `Set` has stamped is read back as if the sum of the clock and the time to live had been
taken over the integers: the entry is found up to that time, also if the stamp has wrapped around,
and `GetWithTTL` returns exactly the time that is left. -/
theorem read_after_set {config : Config} {numCPU : Int} {hasher : K → UInt64} {wall : WallClock}
    {choice : Nat → Nat} {new : InMemoryCache K V}
    (hnew : New config numCPU hasher wall choice = some new) (hclock : wall.Fits)
    (ops ops' : List (Op K V)) (k : K) (v : V) (ttl : Int) (httl : ttl < 2 ^ 63) :
    let c := run ops new
    let c' := run ops' (c.Set k v ttl).2
    let now := c.now.1
    let eff := effective config ttl
    0 ≤ now → ((c.Set k v ttl).2.view k).isSome → c'.view k = (c.Set k v ttl).2.view k →
      (∀ t, (c'.Get k).2.lastReading = t →
        (c'.Get k).1 = if eff ≤ 0 ∨ t ≤ now + eff then some v else none) ∧
      (∀ t, (c'.GetWithTTL k).2.lastReading = t → now ≤ t →
        (c'.GetWithTTL k).1 = if eff ≤ 0 then some (v, -1)
          else if t ≤ now + eff then some (v, now + eff - t) else none) ∧
      ∀ t, (c'.Exists k).2.lastReading = t →
        (c'.Exists k).1 = decide (eff ≤ 0 ∨ t ≤ now + eff) := by
  intro c c' now eff hnow hstored huntouched
  obtain ⟨hv, hopen, hconfig, -⟩ := New_spec hnew
  have hrun := run_outcome hv hopen ops
  have hopen₁ : c.closed = false := hrun.shape.closed.trans hopen
  have hset := (Set_spec hrun.valid hopen₁ k v ttl).1
  have hopen₂ : (c.Set k v ttl).2.closed = false := hset.outcome.shape.closed.trans hopen₁
  have hrun' := run_outcome hset.outcome.valid hopen₂ ops'
  have hopen₃ : c'.closed = false := hrun'.shape.closed.trans hopen₂
  have hfits : c.rt.wall.Fits := fits_of_later ((New_later hnew).trans hrun.later) hclock
  have hfits' : c'.rt.wall.Fits := fits_of_later (hset.outcome.later.trans hrun'.later) hfits
  have hentry : c'.view k = some (v, stamp config now ttl) := by
    have hcfg : c.config = config := hrun.shape.config.trans hconfig
    rcases hset.view k with hsome | hnone
    · rw [huntouched, hsome, Function.update_self, ← hcfg]
    · rw [hnone] at hstored
      cases hstored
  exact ⟨fun t ht => Get_stamped hrun'.valid hopen₃ hfits' hentry hnow (hfits _).2 httl ht,
    fun t ht => GetWithTTL_stamped hrun'.valid hopen₃ hfits' hentry hnow (hfits _).2 httl ht,
    fun t ht => Exists_stamped hrun'.valid hopen₃ hfits' hentry hnow (hfits _).2 httl ht⟩

def twoReadings (n : Nat) : Int := if n = 0 then 2 ^ 62 else 2 ^ 62 + 7

theorem twoReadings_fits : WallClock.Fits ⟨twoReadings, 0⟩ := by
  intro n
  simp only [twoReadings]
  split <;> decide

/-- The stamp has wrapped around, and seven nanoseconds later the rest is exact. -/
theorem read_after_set_wrapped :
    let new := small .FIFO twoReadings
    stamp (smallConfig .FIFO) new.now.1 (2 ^ 63 - 1) < 0 ∧
      ((new.Set 1 10 (2 ^ 63 - 1)).2.GetWithTTL 1).1 = some (10, 2 ^ 63 - 1 - 7) := by
  intro new
  have hnow : new.now.1 = 2 ^ 62 := by decide +kernel
  have hnow' : (run [] new).now.1 = 2 ^ 62 := hnow
  have hread := (read_after_set (New_small ..) twoReadings_fits [] [] 1 10 (2 ^ 63 - 1) (by decide)
    (by rw [hnow']; decide) (by decide +kernel) rfl).2.1 (2 ^ 62 + 7) (by decide +kernel)
    (by rw [hnow']; decide)
  refine ⟨by rw [hnow]; decide, hread.trans ?_⟩
  rw [hnow']
  decide

end InMemoryCache

end Kioshun
