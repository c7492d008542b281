import Mathlib.Data.Int.ConditionallyCompleteOrder
import Kioshun.Cache.Runs

/-!
# The cache as a map

The reference is the map of the latest writes: `Set` and `Import` put an entry,
`Delete` and `Clear` take entries away, nothing else changes it. The entries of a
cache trail behind this map. What is missing was evicted or refused, or, when the
capacity is unlimited, had expired at an earlier reading of the clock. With
readings that do not decrease an expired entry stays expired, and every answer is
the one the map gives at the reading of the call.
-/

namespace Kioshun

open CellStore WallClock Function

universe u v
variable {K : Type u} {V : Type v} [DecidableEq K]

namespace InMemoryCache

/-- The map of the latest writes after one more call. `Set` takes one reading for its stamp. -/
def latest (c : InMemoryCache K V) (m : K → Option (V × Int)) : Op K V → K → Option (V × Int)
  | .set key value ttl => update m key (some (value, stamp c.config c.now.1 ttl))
  | .import_ items => imported items m
  | .delete key => update m key none
  | .clear => fun _ => none
  | .get _ | .getWithTTL _ | .exists_ _ | .export_ _ _ | .keys | .cleanup => m

def runLatest [Inhabited V] :
    List (Op K V) → InMemoryCache K V → (K → Option (V × Int)) → K → Option (V × Int)
  | [], _, m => m
  | op :: ops, c, m => runLatest ops (c.step op) (latest c m op)

def Op.observes : Op K V → Bool
  | .get _ | .getWithTTL _ | .exists_ _ | .export_ _ _ | .keys | .cleanup => true
  | .set _ _ _ | .import_ _ | .delete _ | .clear => false

theorem latest_of_observes {op : Op K V} (h : Op.observes op = true) (c : InMemoryCache K V)
    (m : K → Option (V × Int)) : latest c m op = m := by
  cases op <;> first | rfl | cases h

section Trails

/-- An entry is the same as the one it trails, or it is missing for a reason `P`. -/
def Trails (P : V × Int → Prop) (x y : Option (V × Int)) : Prop :=
  x = y ∨ (x = none ∧ ∀ e, y = some e → P e)

variable {P Q : V × Int → Prop} {x y z : Option (V × Int)}

section

theorem Trails.refl (x : Option (V × Int)) : Trails P x x := .inl rfl

theorem Trails.mono (h : Trails P x y) (himp : ∀ e, P e → Q e) : Trails Q x y :=
  h.imp id fun hn => ⟨hn.1, fun e he => himp e (hn.2 e he)⟩

theorem Trails.trans (h : Trails P x y) (h' : Trails P y z) : Trails P x z := by
  rcases h with rfl | ⟨hx, hP⟩
  · exact h'
  · rcases h' with rfl | ⟨-, hP'⟩
    · exact .inr ⟨hx, hP⟩
    · exact .inr ⟨hx, hP'⟩

/-- What is missing because it has expired is no answer anyway. -/
theorem Trails.filter_live {now : Int} (h : Trails (fun e => Locked.live now e = false) x y) :
    x.filter (Locked.live now) = y.filter (Locked.live now) := by
  rcases h with rfl | ⟨rfl, hP⟩
  · rfl
  · cases y with
    | none => rfl
    | some e =>
      have hstale : Locked.live now e = false := hP e rfl
      rw [Option.filter_some, hstale]
      rfl

end

variable {v m : K → Option (V × Int)}

theorem trails_update (h : ∀ k, Trails P (v k) (m k)) (key : K) (x : Option (V × Int)) (k : K) :
    Trails P (update v key x k) (update m key x k) := by
  by_cases hk : k = key
  · subst hk
    simpa using Trails.refl x
  · simpa [hk] using h k

theorem latest_trails (c : InMemoryCache K V) (h : ∀ k, Trails P (v k) (m k)) (op : Op K V)
    (k : K) : Trails P (latest c v op k) (latest c m op k) := by
  cases op with
  | set key value ttl => exact trails_update h key _ k
  | import_ items => exact imported_rel Trails.refl items h k
  | delete key => exact trails_update h key none k
  | clear => exact Trails.refl none
  | _ => exact h k

end Trails

def Lapsed (c : InMemoryCache K V) (e : V × Int) : Prop :=
  ∃ j < c.rt.wall.ticks, Locked.live (c.rt.wall.reading j) e = false

variable {c c' : InMemoryCache K V} {e : V × Int}

section
omit [DecidableEq K]

theorem Lapsed.later (h : Lapsed c e) (hl : Later c.rt.wall c'.rt.wall) : Lapsed c' e := by
  obtain ⟨j, hj, hstale⟩ := h
  refine ⟨j, Nat.lt_of_lt_of_le hj hl.ticks, ?_⟩
  rw [hl.reading]
  exact hstale

theorem Reads.lapsed {now : Int} (h : Reads c c' now) (hl : Later c.rt.wall c'.rt.wall)
    (hstale : Locked.live now e = false) : Lapsed c' e := by
  obtain ⟨j, -, hj, rfl⟩ := h
  refine ⟨j, hj, ?_⟩
  rw [hl.reading]
  exact hstale

/-- Expired entries stay expired while the readings do not decrease. -/
theorem Lapsed.stale (h : Lapsed c e) (hmono : Monotone c.rt.wall.reading) :
    Locked.live c.now.1 e = false := by
  obtain ⟨j, hj, hstale⟩ := h
  have hle : c.rt.wall.reading j ≤ c.now.1 := hmono (Nat.le_of_lt hj)
  simp only [Locked.live, Bool.not_eq_false', decide_eq_true_eq] at hstale ⊢
  omega

end

/-- What a call that writes nothing may do to the entries: the ones it drops have expired at its
own reading. -/
def Fades (c c' : InMemoryCache K V) : Prop :=
  ∀ k, Trails (fun e => Reads c c' c.now.1 ∧ Locked.live c.now.1 e = false) (c'.view k) (c.view k)

section

theorem fades_of_eq (h : c'.view = c.view) : Fades c c' := fun k => by
  rw [h]
  exact Trails.refl _

theorem trails_filter {now : Int} {P : V × Int → Prop} (x : Option (V × Int))
    (h : ∀ e, Locked.live now e = false → P e) : Trails P (x.filter (Locked.live now)) x := by
  cases x with
  | none => exact .inl rfl
  | some e =>
    cases hl : Locked.live now e with
    | true => exact .inl (by simp [hl])
    | false => exact .inr ⟨by simp [hl], fun e' he => Option.some.inj he ▸ h e hl⟩

theorem Looked.fades {k : K} {r : Option (Addr × Int) × InMemoryCache K V} (h : Looked k c r) :
    Fades c r.2 := by
  cases h with
  | hit _ _ _ _ view => exact fades_of_eq view
  | absent _ view => exact fades_of_eq view
  | expired entry stale reads view =>
    intro k'
    rw [view]
    by_cases hk : k' = k
    · subst hk
      rw [update_self, entry]
      exact .inr ⟨rfl, fun e he => Option.some.inj he ▸ ⟨reads, stale⟩⟩
    · rw [update_of_ne hk]
      exact Trails.refl _

end

theorem fades_of_observes [Inhabited V] (h : Valid c) (hopen : c.closed = false) {op : Op K V}
    (hop : Op.observes op = true) : Fades c (c.step op) := by
  cases op with
  | get key => exact (get_spec h hopen key).2.fades
  | getWithTTL key => exact (get_spec h hopen key).2.fades
  | exists_ key =>
    obtain ⟨-, hreads, -, hview⟩ := Exists_spec h hopen key
    intro k
    simp only [step, hview]
    by_cases hk : k = key
    · subst hk
      rw [update_self]
      exact trails_filter _ fun e he => ⟨hreads, he⟩
    · rw [update_of_ne hk]
      exact Trails.refl _
  | export_ selectFn max => exact fades_of_eq (Export_spec h selectFn max).2
  | keys => exact fades_of_eq (Keys_spec h hopen).2.1
  | cleanup =>
    obtain ⟨-, hwall, hview⟩ := cleanup_spec h hopen
    intro k
    simp only [step, hview]
    refine trails_filter _ fun e he => ⟨⟨c.rt.wall.ticks, Nat.le_refl _, ?_, rfl⟩, he⟩
    rw [hwall]
    exact Nat.lt_succ_self _
  | _ => cases hop

section Step

def Missing (c : InMemoryCache K V) (e : V × Int) : Prop := c.perShardCap ≤ 0 → Lapsed c e

theorem Missing.outcome (h : Missing c e) (hout : Outcome c c') : Missing c' e := by
  intro hcap
  rw [hout.shape.cap] at hcap
  exact (h hcap).later hout.later

variable {m : K → Option (V × Int)}

/-- What a write leaves behind the updated map is missing for want of capacity. -/
theorem trails_of_write (hcap : c'.perShardCap = c.perShardCap)
    (hle : ∀ k, c'.view k = m k ∨ c'.view k = none) (hexact : c.perShardCap ≤ 0 → c'.view = m)
    (k : K) : Trails (Missing c') (c'.view k) (m k) := by
  by_cases hfree : c.perShardCap ≤ 0
  · rw [hexact hfree]
    exact Trails.refl _
  · rcases hle k with hk | hk
    · exact .inl hk
    · exact .inr ⟨hk, fun e _ hcap' => absurd (hcap ▸ hcap') hfree⟩

theorem step_trails [Inhabited V] (h : Valid c) (hopen : c.closed = false) (op : Op K V) (k : K) :
    Trails (Missing (c.step op)) ((c.step op).view k) (latest c c.view op k) := by
  have hout := step_outcome h hopen op
  by_cases hobs : Op.observes op = true
  · rw [latest_of_observes hobs]
    exact (fades_of_observes h hopen hobs k).mono fun e he _ => he.1.lapsed hout.later he.2
  · cases op with
    | set key value ttl =>
      have hw := (Set_spec h hopen key value ttl).1
      exact trails_of_write hout.shape.cap hw.view (fun hcap => hw.exact (.inl hcap)) k
    | import_ items =>
      obtain ⟨-, -, hle, hexact⟩ := Import_spec h items
      exact trails_of_write hout.shape.cap hle hexact k
    | delete key =>
      exact .inl (congrFun (Delete_spec h hopen key).2.1 k)
    | clear => exact .inl ((Clear_spec h hopen).2.2 k)
    | _ => exact absurd rfl hobs

theorem run_trails [Inhabited V] (h : Valid c) (hopen : c.closed = false) (ops : List (Op K V))
    (hm : ∀ k, Trails (Missing c) (c.view k) (m k)) (k : K) :
    Trails (Missing (run ops c)) ((run ops c).view k) (runLatest ops c m k) := by
  induction ops generalizing c m with
  | nil => exact hm k
  | cons op ops ih =>
    have hout := step_outcome h hopen op
    refine ih hout.valid (hout.shape.closed.trans hopen) fun k' => ?_
    have hkeep : ∀ k, Trails (Missing (c.step op)) (c.view k) (m k) :=
      fun k => (hm k).mono fun e he => he.outcome hout
    exact (step_trails h hopen op k').trans (latest_trails c hkeep op k')

end Step

section Answers

/-- What the cache holds under `k` that is unexpired at its next reading. -/
def answer (c : InMemoryCache K V) (k : K) : Option (V × Int) :=
  (c.view k).filter (Locked.live c.now.1)

variable (h : Valid c) (hopen : c.closed = false) (hmono : Monotone c.rt.wall.reading) (k : K)
include h hopen

theorem Exists_answer : (c.Exists k).1 = (c.answer k).isSome := by
  rw [(Exists_spec h hopen k).2.2.1, answer, Option.isSome_filter]

theorem mem_Keys_answer [Inhabited V] : k ∈ c.Keys.1 ↔ (c.answer k).isSome = true := by
  rw [(Keys_spec h hopen).2.2 k, answer, Option.isSome_filter]
  cases c.view k <;> simp

include hmono

section

/-- When the readings do not decrease, a second look at an expired entry does not revive it. -/
theorem get_answer : (c.get k).1.map (fun hit =>
    (((c.get k).2.body hit.1).value, ((c.get k).2.body hit.1).expireTime, hit.2)) =
      (c.answer k).map fun e => (e.1, e.2, c.now.1) := by
  obtain ⟨-, hlook⟩ := get_spec h hopen k
  generalize c.get k = r at hlook
  cases hlook with
  | hit entry live reads first view =>
    rcases first with rfl | hstale
    · simp [answer, entry, live]
    · obtain ⟨j, hlo, -, rfl⟩ := reads
      have hle : c.now.1 ≤ c.rt.wall.reading j := hmono hlo
      simp only [Locked.live, Bool.not_eq_false', decide_eq_true_eq, Bool.not_eq_true',
        decide_eq_false_iff_not] at live hstale
      omega
  | absent entry view => simp [answer, entry]
  | expired entry stale reads view => simp [answer, entry, stale]

theorem Get_answer : (c.Get k).1 = (c.answer k).map Prod.fst := by
  have hget := congrArg (Option.map Prod.fst) (get_answer h hopen hmono k)
  simp only [Option.map_map, comp_def] at hget
  exact hget

theorem GetWithTTL_answer :
    (c.GetWithTTL k).1 = (c.answer k).map fun e => (e.1, remaining e.2 c.now.1) := by
  have hget := congrArg (Option.map fun r => (r.1, remaining r.2.1 r.2.2))
    (get_answer h hopen hmono k)
  simp only [Option.map_map, comp_def] at hget
  exact hget

end

end Answers

omit [DecidableEq K] in
theorem now_le_of_later (h : Later c.rt.wall c'.rt.wall) (hmono : Monotone c.rt.wall.reading) :
    c.now.1 ≤ c'.now.1 := by
  show c.rt.wall.reading c.rt.wall.ticks ≤ c'.rt.wall.reading c'.rt.wall.ticks
  rw [h.reading]
  exact hmono h.ticks

theorem Fades.answer (h : Fades c c') (hnow : c'.now.1 = c.now.1) (k : K) :
    c'.answer k = c.answer k := by
  rw [InMemoryCache.answer, hnow]
  exact ((h k).mono fun e he => he.2).filter_live

/-- Calls that write nothing change no answer that is given at the same reading. -/
theorem run_answer [Inhabited V] (h : Valid c) (hopen : c.closed = false)
    (hmono : Monotone c.rt.wall.reading)
    {probes : List (Op K V)} (hprobe : ∀ op ∈ probes, Op.observes op = true)
    (hnow : (run probes c).now.1 = c.now.1) (k : K) :
    (run probes c).answer k = c.answer k := by
  induction probes generalizing c with
  | nil => rfl
  | cons op probes ih =>
    have hout := step_outcome h hopen op
    have hopen' : (c.step op).closed = false := hout.shape.closed.trans hopen
    have hmono' : Monotone (c.step op).rt.wall.reading := by
      rw [hout.later.reading]
      exact hmono
    have hlast : (run probes (c.step op)).now.1 = c.now.1 := hnow
    -- the reading of the first call lies between two equal ones
    have hstep : (c.step op).now.1 = c.now.1 := by
      have hlo := now_le_of_later hout.later hmono
      have hhi := now_le_of_later (run_outcome hout.valid hopen' probes).later hmono'
      omega
    have hfade := fades_of_observes h hopen (hprobe op List.mem_cons_self)
    rw [← hfade.answer hstep k]
    exact ih hout.valid hopen' hmono' (fun op' hop => hprobe op' (List.mem_cons_of_mem _ hop))
      (hlast.trans hstep.symm)

theorem answer_eq_some {P : V × Int → Prop} {k : K} {y : Option (V × Int)}
    (h : Trails P (c.view k) y) (ha : c.answer k = some e) :
    y = some e ∧ Locked.live c.now.1 e = true := by
  obtain ⟨hk, hlive⟩ := Option.filter_eq_some_iff.mp ha
  rcases h with hxy | ⟨hnone, -⟩
  · exact ⟨hxy ▸ hk, hlive⟩
  · rw [hnone] at hk
    cases hk

/-- A hit returns the latest write of its key, unexpired at the reading of the call; without a
capacity every unexpired latest write is hit; and calls at one reading agree. -/
theorem run_refines [Inhabited V] {config : Config} {numCPU : Int} {hasher : K → UInt64}
    {wall : WallClock}
    {choice : Nat → Nat} {c : InMemoryCache K V} (hmono : Monotone wall.reading)
    (hnew : New config numCPU hasher wall choice = some c) (ops : List (Op K V)) (k : K) :
    (∀ v, ((run ops c).Get k).1 = some v →
      ∃ e, runLatest ops c (fun _ => none) k = some (v, e) ∧
        Locked.live (run ops c).now.1 (v, e) = true) ∧
    (∀ v ttl, ((run ops c).GetWithTTL k).1 = some (v, ttl) →
      ∃ e, runLatest ops c (fun _ => none) k = some (v, e) ∧
        Locked.live (run ops c).now.1 (v, e) = true ∧ ttl = remaining e (run ops c).now.1) ∧
    (config.maxSize.toInt ≤ 0 →
      ((run ops c).Get k).1 = ((runLatest ops c (fun _ => none) k).filter
        (Locked.live (run ops c).now.1)).map Prod.fst ∧
      ((run ops c).GetWithTTL k).1 = ((runLatest ops c (fun _ => none) k).filter
        (Locked.live (run ops c).now.1)).map fun e => (e.1, remaining e.2 (run ops c).now.1)) ∧
    (∀ probes, (∀ op ∈ probes, Op.observes op = true) →
      (run probes (run ops c)).now.1 = (run ops c).now.1 →
      ((run probes (run ops c)).Get k).1 = ((run ops c).Get k).1 ∧
      ((run probes (run ops c)).Exists k).1 = ((run ops c).Get k).1.isSome ∧
      (k ∈ (run probes (run ops c)).Keys.1 ↔ ((run ops c).Get k).1.isSome = true)) := by
  obtain ⟨hv, hopen, -, -, hcap, -⟩ := New_spec hnew
  have hlater := New_later hnew
  have hout := run_outcome hv hopen ops
  have hstart : ∀ k, Trails (Missing c) (c.view k) none := fun k => .inl (New_view hnew k)
  have htrail := run_trails hv hopen ops hstart k
  generalize run ops c = c' at hout htrail
  generalize runLatest ops c (fun _ => none) k = y at htrail
  have hopen' : c'.closed = false := hout.shape.closed.trans hopen
  have hmono' : Monotone c'.rt.wall.reading := by
    rw [(hlater.trans hout.later).reading]
    exact hmono
  have hGet := Get_answer hout.valid hopen' hmono' k
  have hTTL := GetWithTTL_answer hout.valid hopen' hmono' k
  refine ⟨fun v hhit => ?_, fun v ttl hhit => ?_, fun hmax => ?_, fun probes hprobe hnow => ?_⟩
  · rw [hGet] at hhit
    obtain ⟨⟨v', e⟩, ha, rfl⟩ := Option.map_eq_some_iff.mp hhit
    exact ⟨e, answer_eq_some htrail ha⟩
  · rw [hTTL] at hhit
    obtain ⟨⟨v', e⟩, ha, heq⟩ := Option.map_eq_some_iff.mp hhit
    obtain ⟨rfl, rfl⟩ := Prod.mk.inj heq
    obtain ⟨hy, hlive⟩ := answer_eq_some htrail ha
    exact ⟨e, hy, hlive, rfl⟩
  · have hfree : c'.perShardCap ≤ 0 := by
      rw [hout.shape.cap, hcap, Config.perShardCap, if_neg (by omega)]
    have hsame := (htrail.mono fun e he => (he hfree).stale hmono').filter_live
    rw [hGet, hTTL, ← hsame]
    exact ⟨rfl, rfl⟩
  · have hrun := run_outcome hout.valid hopen' probes
    have hopen'' : (run probes c').closed = false := hrun.shape.closed.trans hopen'
    have hmono'' : Monotone (run probes c').rt.wall.reading := by
      rw [hrun.later.reading]
      exact hmono'
    have hans := run_answer hout.valid hopen' hmono' hprobe hnow k
    rw [Get_answer hrun.valid hopen'' hmono'' k, Exists_answer hrun.valid hopen'' k,
      mem_Keys_answer hrun.valid hopen'' k, hGet, hans, Option.isSome_map]
    exact ⟨rfl, rfl, Iff.rfl⟩

theorem run_refines_small :
    let c := small .AdmissionLFU fun n => n
    let ops : List (Op Nat Nat) := [.set 1 10 0, .set 2 20 5, .delete 1, .set 1 11 9]
    ∀ v, ((run ops c).Get 1).1 = some v → ∃ e, runLatest ops c (fun _ => none) 1 = some (v, e) ∧
      Locked.live (run ops c).now.1 (v, e) = true :=
  (run_refines (fun _ _ h => Int.ofNat_le.mpr h) (New_small ..) _ 1).1

end InMemoryCache

end Kioshun
