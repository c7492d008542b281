import Kioshun.Cache.Lifetime
import Kioshun.Cache.Sections

/-!
# Expiry callbacks

`SetWithCallback` stores an entry and starts a goroutine that waits for a timer. When the
timer has elapsed the goroutine looks the key up under the read lock, and if the entry that
it finds is expired it calls the callback. It does not ask whether this entry is the one that
its own call has stored. Any number of such calls and goroutines are under way here, and
between any two of their sections any other sections run.
-/

namespace Kioshun

open CellStore WallClock List

universe u v

/-- How far a call of `SetWithCallback` has come, and after it the goroutine that it started. -/
inductive Registration.Stage where
  | called
  | stamped (now : Int)
  | spawned
  | armed (due : Int)
  | ended
  deriving DecidableEq

/-- A call of `SetWithCallback`; the flag says whether its callback is not nil. -/
structure Registration (K : Type u) (V : Type v) where
  key : K
  value : V
  ttl : Int
  callback : Bool
  stage : Registration.Stage

/-- A callback that was called: by which call it was registered, its arguments, the entry that the
timer found with the reading of the clock, and the call whose entry that was. -/
structure Invocation (K : Type u) (V : Type v) where
  caller : Nat
  key : K
  value : V
  entry : V × Int
  now : Int
  author : Option Nat
  deriving DecidableEq

/-- The cache with the calls of `SetWithCallback` on it. `closeCh` is closed by `Close`. Two history
variables: `author` tells the call of `SetWithCallback` that wrote the entry under a key, and
`invoked` the callbacks that have been called. -/
structure Callbacks (K : Type u) (V : Type v) where
  cache : InMemoryCache K V
  closeCh : Bool
  calls : List (Registration K V)
  author : K → Option Nat
  invoked : List (Invocation K V)

variable {K : Type u} {V : Type v} [DecidableEq K]

/-- The section of a goroutine whose timer has elapsed: an expired entry and the reading of the
clock. -/
def Locked.timerSection (key : K) (c : Locked K V) : Option ((V × Int) × Int) × Locked K V :=
  match c.sh.data.lookup key with
  | none => (none, c)
  | some item =>
    let b := c.body item
    if 0 < b.expireTime then
      let now := c.rt.now
      (if b.expireTime < now.1 then some ((b.value, b.expireTime), now.1) else none,
        { c with rt := now.2 })
    else (none, c)

namespace Callbacks

inductive Event (K : Type u) (V : Type v) where
  | call (key : K) (value : V) (ttl : Int) (callback : Bool)
  | advance (caller : Nat)
  | stop (caller : Nat)
  | closeChannel
  | setClosed
  | other (e : Section K V)

def start (c : InMemoryCache K V) : Callbacks K V := ⟨c, false, [], fun _ => none, []⟩

variable [Inhabited V]

/-- The authors after a section that writes for the given call. An entry that is gone has none. -/
def authorAfter (s : Callbacks K V) (e : Section K V) (writer : Option Nat) (k : K) : Option Nat :=
  if ((s.cache.perform e).view k).isNone then none
  else if e.written = some k then writer
  else s.author k

def perform (s : Callbacks K V) (e : Section K V) (writer : Option Nat) : Callbacks K V :=
  { s with cache := s.cache.perform e, author := s.authorAfter e writer }

def moveTo (s : Callbacks K V) (i : Nat) (reg : Registration K V) (stage : Registration.Stage) :
    Callbacks K V :=
  { s with calls := s.calls.set i { reg with stage := stage } }

def check (s : Callbacks K V) (key : K) : Option ((V × Int) × Int) × InMemoryCache K V :=
  s.cache.onShard (s.cache.home key) none (Locked.timerSection key)

def advance (s : Callbacks K V) (i : Nat) (reg : Registration K V) : Callbacks K V :=
  match reg.stage with
  | .called =>
    if s.cache.closed then s.moveTo i reg .ended
    else
      let now := s.cache.now
      { s.moveTo i reg (.stamped now.1) with cache := now.2 }
  | .stamped now =>
    (s.perform (.set reg.key reg.value now (InMemoryCache.stamp s.cache.config now reg.ttl))
      (some i)).moveTo i reg (if reg.callback ∧ 0 < reg.ttl then .spawned else .ended)
  | .spawned =>
    let now := s.cache.now
    { s.moveTo i reg (.armed (now.1 + reg.ttl)) with cache := now.2 }
  | .armed due =>
    -- The timer never fires early. The callback is called as soon as the lock is released, and
    -- what counts is the entry found under the lock.
    if due ≤ s.cache.now.1 then
      let r := s.check reg.key
      let called := r.1.map fun found =>
        (⟨i, reg.key, reg.value, found.1, found.2, s.author reg.key⟩ : Invocation K V)
      { s.moveTo i reg .ended with cache := r.2, invoked := s.invoked ++ called.toList }
    else s
  | .ended => s

def step (s : Callbacks K V) : Event K V → Callbacks K V
  | .call key value ttl callback =>
    { s with calls := s.calls ++ [⟨key, value, ttl, callback, .called⟩] }
  | .advance i =>
    match s.calls[i]? with
    | none => s
    | some reg => s.advance i reg
  | .stop i =>
    match s.calls[i]? with
    | none => s
    | some reg =>
      match reg.stage with
      | .armed _ => if s.closeCh then s.moveTo i reg .ended else s
      | _ => s
  | .closeChannel => { s with closeCh := true }
  | .setClosed => { s with cache := { s.cache with closed := true } }
  | .other e => s.perform e none

def exec (s : Callbacks K V) (es : List (Event K V)) : Callbacks K V := Schedule.exec step s es

/-- Every callback is called at most once, and only for the entry of its own call, which has
expired and has been neither overwritten nor removed. -/
def Belong (s : Callbacks K V) : Prop :=
  (s.invoked.map Invocation.caller).Nodup ∧
    ∀ f ∈ s.invoked, f.author = some f.caller ∧ 0 < f.entry.2 ∧ f.entry.2 < f.now

structure Fires (s : Callbacks K V) (i : Nat) (reg : Registration K V) (entry : V × Int) :
    Prop where
  call : s.calls[i]? = some reg
  elapsed : ∃ due, reg.stage = .armed due ∧ due ≤ s.cache.now.1
  found : s.cache.view reg.key = some entry
  expired : 0 < entry.2 ∧ entry.2 < s.cache.now.1

/-- A timer that fires finds no expired entry but that of its own call. -/
def FindsOwn (s : Callbacks K V) (e : Event K V) : Prop :=
  ∀ (i : Nat) (reg : Registration K V) (entry : V × Int), e = .advance i →
    s.Fires i reg entry → s.author reg.key = some i

section Check

omit [Inhabited V] in
theorem timerSection_peeks (key : K) : InMemoryCache.Peeks (Locked.timerSection (V := V) key) := by
  have hcases : ∀ c : Locked K V, (c.timerSection key).2 = c ∨
      (c.timerSection key).2 = { c with rt := c.rt.now.2 } := by
    intro c
    unfold Locked.timerSection
    cases c.sh.data.lookup key with
    | none => exact .inl rfl
    | some item =>
      dsimp only
      split_ifs
      · exact .inr rfl
      · exact .inr rfl
      · exact .inl rfl
  refine ⟨fun c => ?_, fun c => ?_, fun c => ?_, fun c => ?_⟩ <;>
    rcases hcases c with h | h <;> rw [h]
  · rfl
  · rfl
  · exact Later.refl _
  · exact Later.now _

omit [Inhabited V] in
theorem timerSection_eq (key : K) (c : Locked K V) :
    (c.timerSection key).1 = (c.view key).bind fun e =>
      if 0 < e.2 ∧ e.2 < c.rt.now.1 then some (e, c.rt.now.1) else none := by
  unfold Locked.timerSection
  cases hk : c.sh.data.lookup key with
  | none => rw [Locked.view_eq_none.mpr hk]; rfl
  | some item =>
    rw [Locked.view_of_lookup hk]
    dsimp only [Option.bind_some]
    split_ifs with hpos hlt hboth hboth hboth
    · rfl
    · exact absurd ⟨hpos, hlt⟩ hboth
    · exact absurd hboth.2 hlt
    · rfl
    · exact absurd hboth.1 hpos
    · rfl

variable {s : Callbacks K V}

omit [Inhabited V] in
/-- The check reads the entry under the key and changes nothing. -/
theorem check_spec (h : s.cache.Valid) (key : K) :
    (s.check key).1 = (s.cache.view key).bind (fun e =>
        if 0 < e.2 ∧ e.2 < s.cache.now.1 then some (e, s.cache.now.1) else none) ∧
      InMemoryCache.Idle s.cache (s.check key).2 := by
  obtain ⟨sh, hs⟩ := h.home_shard key
  refine ⟨?_, (timerSection_peeks key).idle hs none⟩
  rw [check, InMemoryCache.onShard_eq hs, timerSection_eq, InMemoryCache.view_of_shard hs]
  rfl

end Check

section Steps
variable {s : Callbacks K V} {i : Nat} {reg : Registration K V}

def invocation (s : Callbacks K V) (i : Nat) (reg : Registration K V) (entry : V × Int) :
    Invocation K V :=
  ⟨i, reg.key, reg.value, entry, s.cache.now.1, s.author reg.key⟩

def written (s : Callbacks K V) : Event K V → Option K
  | .other e => e.written
  | .advance i =>
    match s.calls[i]? with
    | none => none
    | some reg =>
      match reg.stage with
      | .stamped _ => some reg.key
      | _ => none
  | _ => none

/-- What a step can do. A call or goroutine that moves on may have looked at the cache; one that
has ended does not move. -/
inductive Does (s : Callbacks K V) : Event K V → Callbacks K V → Prop
  | skip (e : Event K V) (hnone : s.written e = none) : Does s e s
  | call (key : K) (value : V) (ttl : Int) (callback : Bool) :
    Does s (.call key value ttl callback) (s.step (.call key value ttl callback))
  | move {i : Nat} {reg : Registration K V} {c : InMemoryCache K V} (e : Event K V)
    (stage : Registration.Stage) (hnone : s.written e = none) (hi : s.calls[i]? = some reg)
    (hstage : reg.stage = .ended → stage = .ended) (hidle : InMemoryCache.Idle s.cache c) :
    Does s e { s.moveTo i reg stage with cache := c }
  | write {i : Nat} {reg : Registration K V} {now : Int} (stage : Registration.Stage)
    (hi : s.calls[i]? = some reg) (hstage : reg.stage = .stamped now) :
    Does s (.advance i) ((s.perform (.set reg.key reg.value now
      (InMemoryCache.stamp s.cache.config now reg.ttl)) (some i)).moveTo i reg stage)
  | fire {i : Nat} {reg : Registration K V} {entry : V × Int} (hfires : s.Fires i reg entry)
    (hidle : InMemoryCache.Idle s.cache (s.check reg.key).2) :
    Does s (.advance i) { s.moveTo i reg .ended with
      cache := (s.check reg.key).2
      invoked := s.invoked ++ [s.invocation i reg entry] }
  | closeChannel : Does s .closeChannel { s with closeCh := true }
  | setClosed : Does s .setClosed { s with cache := { s.cache with closed := true } }
  | other (e : Section K V) : Does s (.other e) (s.perform e none)

theorem advance_does (h : s.cache.Valid) (hi : s.calls[i]? = some reg) :
    Does s (.advance i) (s.advance i reg) := by
  have hnone : (∀ now, reg.stage ≠ .stamped now) → s.written (.advance i) = none := by
    intro hne
    simp only [written, hi]
  have hclock : InMemoryCache.Idle s.cache s.cache.now.2 := ⟨rfl, rfl, rfl, Later.now _⟩
  unfold advance
  cases hstage : reg.stage with
  | called =>
    have hn := hnone (by simp [hstage])
    dsimp only
    split
    · exact .move _ .ended hn hi (fun _ => rfl) (InMemoryCache.Idle.refl _)
    · exact .move _ _ hn hi (by simp [hstage]) hclock
  | stamped now => exact .write _ hi hstage
  | spawned => exact .move _ _ (hnone (by simp [hstage])) hi (by simp [hstage]) hclock
  | armed due =>
    have hn := hnone (by simp [hstage])
    obtain ⟨hcheck, hidle⟩ := check_spec h reg.key
    dsimp only
    split
    · next hdue =>
      cases hview : s.cache.view reg.key with
      | none =>
        rw [hview, Option.bind_none] at hcheck
        simpa [hcheck, moveTo] using Does.move _ .ended hn hi (fun _ => rfl) hidle
      | some entry =>
        rw [hview, Option.bind_some] at hcheck
        by_cases hexp : 0 < entry.2 ∧ entry.2 < s.cache.now.1
        · rw [if_pos hexp] at hcheck
          rw [hcheck]
          exact .fire ⟨hi, ⟨due, hstage, hdue⟩, hview, hexp⟩ hidle
        · rw [if_neg hexp] at hcheck
          simpa [hcheck, moveTo] using Does.move _ .ended hn hi (fun _ => rfl) hidle
    · exact .skip _ hn
  | ended => exact .skip _ (hnone (by simp [hstage]))

theorem step_does (h : s.cache.Valid) (e : Event K V) : Does s e (s.step e) := by
  cases e with
  | call key value ttl callback => exact .call key value ttl callback
  | advance i =>
    cases hi : s.calls[i]? with
    | none => simpa only [step, hi] using Does.skip _ (by simp [written, hi])
    | some reg => simpa only [step, hi] using advance_does h hi
  | stop i =>
    simp only [step]
    split
    · exact .skip _ rfl
    · split
      · split
        · exact .move _ .ended rfl ‹_› (fun _ => rfl) (InMemoryCache.Idle.refl _)
        · exact .skip _ rfl
      · exact .skip _ rfl
  | closeChannel => exact .closeChannel
  | setClosed => exact .setClosed
  | other e => exact .other e

def Sound (s : Callbacks K V) : Prop := s.cache.Valid ∧ s.cache.Bounded

theorem step_sound (h : s.Sound) (e : Event K V) :
    (s.step e).Sound ∧ (s.step e).cache.config = s.cache.config := by
  have hidles : ∀ c, InMemoryCache.Idle s.cache c →
      (c.Valid ∧ c.Bounded) ∧ c.config = s.cache.config := by
    intro c hidle
    have hout := (hidle.outcome h.1).1
    exact ⟨⟨hout.valid, hout.bounded h.2⟩, hout.shape.config⟩
  have hperforms : ∀ e : Section K V, ((s.cache.perform e).Valid ∧ (s.cache.perform e).Bounded) ∧
      (s.cache.perform e).config = s.cache.config := by
    intro e
    have hout := (InMemoryCache.perform_acts h.1 h.2 e).1
    exact ⟨⟨hout.valid, hout.bounded h.2⟩, hout.shape.config⟩
  have hdoes := step_does h.1 e
  generalize s.step e = s' at hdoes ⊢
  cases hdoes with
  | move _ _ _ _ _ hidle => exact hidles _ hidle
  | write => exact hperforms (.set ..)
  | fire _ hidle => exact hidles _ hidle
  | setClosed => exact ⟨⟨h.1.setClosed true, h.2⟩, rfl⟩
  | other e => exact hperforms e
  | skip | call | closeChannel => exact ⟨h, rfl⟩

/-- A call keeps its arguments, and what has ended stays so. -/
theorem calls_step (hs : s.Sound) (e : Event K V) (h : s.calls[i]? = some reg) :
    ∃ stage, (s.step e).calls[i]? = some { reg with stage := stage } ∧
      (reg.stage = .ended → stage = .ended) := by
  obtain ⟨hlt, -⟩ := List.getElem?_eq_some_iff.mp h
  have hset : ∀ (j : Nat) (reg' : Registration K V) (stage : Registration.Stage),
      s.calls[j]? = some reg' → (reg'.stage = .ended → stage = .ended) →
      ∃ stage', (s.calls.set j { reg' with stage := stage })[i]? =
        some { reg with stage := stage' } ∧ (reg.stage = .ended → stage' = .ended) := by
    intro j reg' stage hj hended
    by_cases hij : j = i
    · subst hij
      obtain rfl := Option.some.inj (hj.symm.trans h)
      exact ⟨stage, getElem?_set_self hlt, hended⟩
    · exact ⟨reg.stage, (getElem?_set_ne hij).trans h, id⟩
  have hdoes := step_does hs.1 e
  generalize s.step e = s' at hdoes ⊢
  cases hdoes with
  | call => exact ⟨reg.stage, (getElem?_append_left hlt).trans h, id⟩
  | move _ stage _ hj hended _ => exact hset _ _ stage hj hended
  | write stage hj hstage =>
    refine hset _ _ stage hj fun hended => ?_
    rw [hstage] at hended
    cases hended
  | fire hfires _ => exact hset _ _ .ended hfires.call fun _ => rfl
  | skip | closeChannel | setClosed | other => exact ⟨reg.stage, h, id⟩

theorem step_fires {entry : V × Int} (h : s.Sound) (hfires : s.Fires i reg entry) :
    (s.step (.advance i)).invoked = s.invoked ++ [s.invocation i reg entry] ∧
      (s.step (.advance i)).calls[i]? = some { reg with stage := .ended } := by
  obtain ⟨due, hstage, hdue⟩ := hfires.elapsed
  have hcheck : (s.check reg.key).1 = some (entry, s.cache.now.1) := by
    rw [(check_spec h.1 reg.key).1, hfires.found, Option.bind_some, if_pos hfires.expired]
  obtain ⟨hlt, -⟩ := List.getElem?_eq_some_iff.mp hfires.call
  simp only [step, hfires.call, advance, hstage, if_pos hdue, hcheck]
  exact ⟨rfl, getElem?_set_self hlt⟩

/-- A callback is called when its timer fires and finds an expired entry, and never else. -/
theorem step_invoked (h : s.Sound) (e : Event K V) :
    (s.step e).invoked = s.invoked ∨
      ∃ i reg entry, e = .advance i ∧ s.Fires i reg entry := by
  have hdoes := step_does h.1 e
  generalize s.step e = s' at hdoes ⊢
  cases hdoes with
  | fire hfires _ => exact .inr ⟨_, _, _, rfl, hfires⟩
  | _ => exact .inl rfl

end Steps

section Runs
variable {s : Callbacks K V}

structure Once (s : Callbacks K V) : Prop where
  sound : s.Sound
  nodup : (s.invoked.map Invocation.caller).Nodup
  ended : ∀ f ∈ s.invoked, ∃ reg, s.calls[f.caller]? = some reg ∧ reg.stage = .ended
  expired : ∀ f ∈ s.invoked, 0 < f.entry.2 ∧ f.entry.2 < f.now

theorem step_once (h : s.Once) (e : Event K V) : (s.step e).Once := by
  have hended : ∀ f ∈ s.invoked, ∃ reg, (s.step e).calls[f.caller]? = some reg ∧
      reg.stage = .ended := by
    intro f hf
    obtain ⟨reg, hcall, hstage⟩ := h.ended f hf
    obtain ⟨stage, hnext, hkeep⟩ := calls_step h.sound e hcall
    exact ⟨_, hnext, hkeep hstage⟩
  rcases step_invoked h.sound e with hsame | ⟨i, reg, entry, rfl, hfires⟩
  · refine ⟨(step_sound h.sound e).1, ?_, ?_, ?_⟩ <;> rw [hsame]
    · exact h.nodup
    · exact hended
    · exact h.expired
  · obtain ⟨hinvoked, hcall⟩ := step_fires h.sound hfires
    refine ⟨(step_sound h.sound _).1, ?_, ?_, ?_⟩ <;> rw [hinvoked]
    · rw [map_append, nodup_append]
      refine ⟨h.nodup, nodup_singleton _, ?_⟩
      intro a ha b hb hab
      obtain ⟨f, hf, rfl⟩ := mem_map.mp ha
      obtain rfl := mem_singleton.mp hb
      obtain ⟨reg', hcall', hstage'⟩ := h.ended f hf
      have hreg : reg' = reg := Option.some.inj (hcall'.symm.trans (hab ▸ hfires.call))
      obtain ⟨due, hstage, -⟩ := hfires.elapsed
      rw [hreg, hstage] at hstage'
      cases hstage'
    · intro f hf
      rcases mem_append.mp hf with hold | hnew
      · exact hended f hold
      · obtain rfl := mem_singleton.mp hnew
        exact ⟨_, hcall, rfl⟩
    · intro f hf
      rcases mem_append.mp hf with hold | hnew
      · exact h.expired f hold
      · obtain rfl := mem_singleton.mp hnew
        exact hfires.expired

def Own (s : Callbacks K V) : Prop := ∀ f ∈ s.invoked, f.author = some f.caller

omit [Inhabited V] in
theorem Once.belong_iff (h : s.Once) : s.Belong ↔ s.Own :=
  ⟨fun hb f hf => (hb.2 f hf).1, fun ho => ⟨h.nodup, fun f hf => ⟨ho f hf, h.expired f hf⟩⟩⟩

theorem own_step_iff (h : s.Sound) (e : Event K V) : (s.step e).Own ↔ s.Own ∧ s.FindsOwn e := by
  rcases step_invoked h e with hsame | ⟨i, reg, entry, rfl, hfires⟩
  · have hnone : s.FindsOwn e := by
      rintro i reg entry rfl hfires
      rw [(step_fires h hfires).1] at hsame
      exact absurd hsame (by simp)
    simp only [Own, hsame, hnone, and_true]
  · have hown : s.FindsOwn (.advance i) ↔ s.author reg.key = some i := by
      constructor
      · intro hfinds
        exact hfinds i reg entry rfl hfires
      · rintro hauthor j reg' entry' he hfires'
        cases he
        obtain rfl := Option.some.inj (hfires'.call.symm.trans hfires.call)
        exact hauthor
    rw [hown]
    simp only [Own, (step_fires h hfires).1, mem_append, mem_singleton, or_imp,
      forall_and, forall_eq, invocation]

variable {config : Config} {numCPU : Int} {hasher : K → UInt64} {wall : WallClock}
  {choice : Nat → Nat} {c : InMemoryCache K V}

theorem start_once (hnew : InMemoryCache.New config numCPU hasher wall choice = some c) :
    (start c).Once where
  sound := ⟨(InMemoryCache.New_spec hnew).1, InMemoryCache.New_bounded hnew⟩
  nodup := nodup_nil
  ended := fun _ hf => absurd hf not_mem_nil
  expired := fun _ hf => absurd hf not_mem_nil

/-- The callbacks belong to their entries exactly as long as no timer finds an expired entry that
another call has written. -/
theorem exec_belong_iff (hnew : InMemoryCache.New config numCPU hasher wall choice = some c)
    (es : List (Event K V)) :
    ((start c).exec es).Belong ↔ Schedule.Along step FindsOwn (start c) es := by
  have honce : ((start c).exec es).Once :=
    Schedule.exec_invariant (fun _ e hs => step_once hs e) (start_once hnew)
  have hstart : (start c).Own := fun f hf => absurd hf not_mem_nil
  rw [honce.belong_iff]
  constructor
  · intro hown
    exact (Schedule.along_of_final (I := Once) (Q := Own) (fun _ e hs => step_once hs e)
      (fun _ e hs hown => ((own_step_iff hs.sound e).mp hown).1)
      (fun _ e hs hown => ((own_step_iff hs.sound e).mp hown).2) (start_once hnew) hown).2
  · intro halong
    exact (Schedule.exec_keeps (I := fun s : Callbacks K V => s.Once ∧ s.Own)
      (fun _ e hs hfinds => ⟨step_once hs.1 e, (own_step_iff hs.1.sound e).mpr ⟨hs.2, hfinds⟩⟩)
      ⟨start_once hnew, hstart⟩ halong).2

def expiring : List (Event Nat Nat) :=
  [.call 1 10 10 true, .advance 0, .advance 0, .advance 0, .other .clock, .other (.set 2 20 10 13),
    .advance 0]

theorem exec_belong_expiring :
    let s := start (InMemoryCache.small .FIFO fun n => 5 * n)
    (s.exec expiring).invoked = [⟨0, 1, 10, (10, 10), 15, some 0⟩] ∧ (s.exec expiring).Belong ∧
      Schedule.Along step FindsOwn s expiring := by
  intro s
  have hinvoked : (s.exec expiring).invoked = [⟨0, 1, 10, (10, 10), 15, some 0⟩] := by
    decide +kernel
  have hbelong : (s.exec expiring).Belong := by simp [Belong, hinvoked]
  exact ⟨hinvoked, hbelong, (exec_belong_iff (InMemoryCache.New_small ..) expiring).mp hbelong⟩

/-- The key is overwritten by an entry that has expired when the timer fires. -/
def overwritten : List (Event Nat Nat) :=
  [.call 1 10 10 true, .advance 0, .advance 0, .advance 0, .other .clock, .other (.set 1 20 10 13),
    .advance 0]

/-- The callback is called although its entry is gone. -/
theorem overwritten_invoked :
    let s := (start (InMemoryCache.small .FIFO fun n => 5 * n)).exec overwritten
    s.invoked = [⟨0, 1, 10, (20, 13), 15, none⟩] ∧ ¬ s.Belong := by
  intro s
  have hinvoked : s.invoked = [⟨0, 1, 10, (20, 13), 15, none⟩] := by decide +kernel
  exact ⟨hinvoked, by simp [Belong, hinvoked]⟩

end Runs

/-- A call between whose steps nothing else runs is `SetWithCallback`. -/
theorem exec_alone (s : Callbacks K V) (key : K) (value : V) (ttl : Int) (callback : Bool) :
    let i := s.calls.length
    (s.exec [.call key value ttl callback, .advance i, .advance i]).cache =
      (s.cache.SetWithCallback key value ttl).2 := by
  simp only [exec, Schedule.exec_cons, Schedule.exec_nil]
  cases hclosed : s.cache.closed with
  | true =>
    simp [step, advance, hclosed, moveTo, InMemoryCache.SetWithCallback]
  | false =>
    simp [step, advance, hclosed, moveTo, InMemoryCache.SetWithCallback, InMemoryCache.Set,
      perform, InMemoryCache.perform, InMemoryCache.now, InMemoryCache.home,
      InMemoryCache.shardIndex]

end Callbacks

end Kioshun
