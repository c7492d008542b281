import Kioshun.Http.Invalidation

/-!
# The freshness that a response declares

`DefaultCachePolicy` takes the first positive `max-age` of the first `Cache-Control` line, and if
there is none the date of `Expires`, if it is to come. A response that declares itself stale gets
the default time to live instead.
-/

namespace Kioshun

/-- The directives of all `Cache-Control` lines, without the spaces around them. -/
def directives (headers : Header) : List Bytes :=
  ((headers.values (CanonicalHeaderKey (ascii "Cache-Control"))).flatMap (·.splitOn 44)).map
    TrimSpace

/-- A directive is `max-age=N` with a number. -/
def DeclaresAge (headers : Header) (N : Int) : Prop :=
  0 ≤ N ∧ ∃ d ∈ directives headers,
    (ascii "max-age=").isPrefixOf d = true ∧ Atoi (d.drop 8) = some N

def expiry (lib : HttpLib) (headers : Header) : Option Int :=
  let expires := headers.Get (ascii "Expires")
  if expires = [] then none else lib.ParseRFC1123 expires

/-- There is no `max-age`, and `Expires` is a date. -/
def DeclaresDate (lib : HttpLib) (headers : Header) (t : Int) : Prop :=
  (∀ d ∈ directives headers, (ascii "max-age=").isPrefixOf d = false) ∧ expiry lib headers = some t

/-- The time to live is positive and no longer than what the response declares. -/
def Respects (lib : HttpLib) (headers : Header) (now ttl : Int) : Prop :=
  (∀ N, DeclaresAge headers N → 0 < ttl ∧ ttl ≤ N * 1000000000) ∧
    ∀ t, DeclaresDate lib headers t → 0 < ttl ∧ ttl ≤ t - now

def positiveAge (d : Bytes) : Option Int :=
  if (ascii "max-age=").isPrefixOf d then (Atoi (d.drop 8)).filter (0 < ·) else none

/-- The first positive age of the first `Cache-Control` line, in seconds. -/
def firstAge (headers : Header) : Option Int :=
  ((headers.Get (ascii "Cache-Control")).splitOn 44).findSome? fun part =>
    positiveAge (TrimSpace part)

/-- There is no positive age, or in nanoseconds it is not positive as an `int64`. -/
def Unaged (headers : Header) : Prop :=
  ∀ F, firstAge headers = some F → wrap64 (F * 1000000000) ≤ 0

/-- The first positive age, which is used, is the least one; if it is too large for an `int64` in
nanoseconds, what it wraps around to is not above the ages that are declared. Where no age is used,
the time until `Expires` is not above them, or `DefaultTTL` if that date is not to come. A date
that counts is to come. -/
structure Declared (lib : HttpLib) (config : MiddlewareConfig) (headers : Header) (now : Int) :
    Prop where
  least : ∀ F, firstAge headers = some F → F * 1000000000 < 2 ^ 63 →
    ∀ N, DeclaresAge headers N → F ≤ N
  wrapped : ∀ F, firstAge headers = some F → 2 ^ 63 ≤ F * 1000000000 →
    0 < wrap64 (F * 1000000000) →
    ∀ N, DeclaresAge headers N → wrap64 (F * 1000000000) ≤ N * 1000000000
  expires : Unaged headers → ∀ t, expiry lib headers = some t → now < t →
    ∀ N, DeclaresAge headers N → min (2 ^ 63 - 1) (t - now) ≤ N * 1000000000
  default : Unaged headers → (∀ t, expiry lib headers = some t → t ≤ now) →
    ∀ N, DeclaresAge headers N →
      0 < config.DefaultTTL.toInt ∧ config.DefaultTTL.toInt ≤ N * 1000000000
  date : ∀ t, DeclaresDate lib headers t → now < t

/-- Where the time to live comes from. -/
inductive Chosen (lib : HttpLib) (config : MiddlewareConfig) (headers : Header) (now : Int) :
    Int → Prop
  | age {F : Int} : firstAge headers = some F → F * 1000000000 < 2 ^ 63 →
      Chosen lib config headers now (F * 1000000000)
  | wrapped {F : Int} : firstAge headers = some F → 2 ^ 63 ≤ F * 1000000000 →
      0 < wrap64 (F * 1000000000) → Chosen lib config headers now (wrap64 (F * 1000000000))
  | expires {t : Int} : Unaged headers → expiry lib headers = some t → now < t →
      Chosen lib config headers now (min (2 ^ 63 - 1) (t - now))
  | default : Unaged headers → (∀ t, expiry lib headers = some t → t ≤ now) →
      Chosen lib config headers now config.DefaultTTL.toInt

variable {lib : HttpLib} {config : MiddlewareConfig} {headers : Header} {now ttl : Int}

theorem maxAgeOf_eq (part : Bytes) :
    maxAgeOf part = (positiveAge (TrimSpace part)).map fun seconds =>
      wrap64 (seconds * 1000000000) := by
  simp only [maxAgeOf, positiveAge]
  split_ifs
  · cases Atoi ((TrimSpace part).drop 8) with
    | none => rfl
    | some seconds => by_cases hpos : 0 < seconds <;> simp [Option.filter, hpos]
  · rfl

theorem extractMaxAge_eq : extractMaxAge (headers.Get (ascii "Cache-Control")) =
    ((firstAge headers).map fun F => wrap64 (F * 1000000000)).getD 0 := by
  rw [extractMaxAge, firstAge]
  split_ifs with hempty
  · rw [hempty]
    rfl
  · rw [List.map_findSome?]
    congr 2
    funext part
    exact maxAgeOf_eq part

theorem firstAge_pos {F : Int} (h : firstAge headers = some F) : 0 < F := by
  obtain ⟨part, -, hpart⟩ := List.exists_of_findSome?_eq_some h
  rw [positiveAge] at hpart
  split_ifs at hpart
  simpa using (Option.filter_eq_some_iff.mp hpart).2

theorem firstAge_of_none
    (h : ∀ d ∈ directives headers, (ascii "max-age=").isPrefixOf d = false) :
    firstAge headers = none := by
  refine List.findSome?_eq_none_iff.mpr fun part hpart => ?_
  have hpre : (ascii "max-age=").isPrefixOf (TrimSpace part) = false := by
    cases hvalues : headers.values (CanonicalHeaderKey (ascii "Cache-Control")) with
    | nil =>
      have hempty : headers.Get (ascii "Cache-Control") = [] := by rw [Header.Get, hvalues]; rfl
      rw [hempty] at hpart
      obtain rfl : part = [] := by simpa using hpart
      rfl
    | cons v vs =>
      have hget : headers.Get (ascii "Cache-Control") = v := by rw [Header.Get, hvalues]; rfl
      rw [hget] at hpart
      exact h _ (List.mem_map_of_mem (List.mem_flatMap.mpr ⟨v, hvalues ▸ .head _, hpart⟩))
  simp [positiveAge, hpre]

theorem firstAge_wraps {F : Int} (h : firstAge headers = some F) (hfits : F * 1000000000 < 2 ^ 63) :
    wrap64 (F * 1000000000) = F * 1000000000 := by
  have := firstAge_pos h
  exact wrap64_of_mem (by omega) hfits

theorem Unaged.not_fits {F : Int} (hun : Unaged headers) (h : firstAge headers = some F) :
    ¬F * 1000000000 < 2 ^ 63 := fun hfits => by
  have hle := hun F h
  rw [firstAge_wraps h hfits] at hle
  have := firstAge_pos h
  omega

theorem Unaged.chosen (hun : Unaged headers) :
    Chosen lib config headers now (ttlOf lib config headers now) := by
  have hage : ¬0 < extractMaxAge (headers.Get (ascii "Cache-Control")) := by
    rw [extractMaxAge_eq]
    cases hfirst : firstAge headers with
    | none => simp
    | some F => exact not_lt.mpr (hun F hfirst)
  rw [ttlOf, if_neg hage]
  cases hexp : expiry lib headers with
  | none =>
    rw [expiry] at hexp
    simp only [hexp]
    exact .default hun fun t ht => by cases hexp.symm.trans ht
  | some t =>
    have huntil : 0 < until_ t now ↔ now < t := by
      simp only [until_]
      omega
    rw [expiry] at hexp
    simp only [hexp]
    split_ifs with hpos
    · have heq : until_ t now = min (2 ^ 63 - 1) (t - now) := max_eq_right (by omega)
      rw [heq]
      exact .expires hun hexp (huntil.mp hpos)
    · exact .default hun fun t' ht' => by
        cases hexp.symm.trans ht'
        exact not_lt.mp (hpos ∘ huntil.mpr)

theorem ttlOf_chosen : Chosen lib config headers now (ttlOf lib config headers now) := by
  by_cases hun : Unaged headers
  · exact hun.chosen
  · simp only [Unaged, not_forall, not_le] at hun
    obtain ⟨F, hfirst, hpos⟩ := hun
    rw [ttlOf, extractMaxAge_eq, hfirst]
    simp only [Option.map_some, Option.getD_some]
    rw [if_pos hpos]
    by_cases hfits : F * 1000000000 < 2 ^ 63
    · rw [firstAge_wraps hfirst hfits]
      exact .age hfirst hfits
    · exact .wrapped hfirst (not_lt.mp hfits) hpos

theorem ttl_of_cached {r : Request} {statusCode : Int} {body : Bytes}
    (h : DefaultCachePolicy lib config r statusCode headers body now = (true, ttl)) :
    ttl = ttlOf lib config headers now := by
  simp only [DefaultCachePolicy] at h
  split_ifs at h <;> cases h
  rfl

/-- The ages that are declared bound the time to live under these conditions only: one field is
about where it comes from, and the others are about something else. -/
theorem Chosen.ages_iff (h : Chosen lib config headers now ttl)
    (hdate : ∀ t, DeclaresDate lib headers t → now < t) :
    (∀ N, DeclaresAge headers N → 0 < ttl ∧ ttl ≤ N * 1000000000) ↔
      Declared lib config headers now := by
  cases h with
  | @age F hfirst hfits =>
    constructor
    · intro h
      refine ⟨fun F' hF' _ N hN => ?_, fun F' hF' hle => ?_, fun hun => ?_, fun hun => ?_, hdate⟩
      · cases hfirst.symm.trans hF'
        have := (h N hN).2
        omega
      · cases hfirst.symm.trans hF'
        exact absurd hfits (not_lt.mpr hle)
      all_goals exact absurd hfits (hun.not_fits hfirst)
    · intro h N hN
      have := firstAge_pos hfirst
      have := h.least F hfirst hfits N hN
      omega
  | @wrapped F hfirst hle hpos =>
    constructor
    · intro h
      refine ⟨fun F' hF' hlt => ?_, fun F' hF' _ _ N hN => ?_, fun hun => ?_, fun hun => ?_, hdate⟩
      · cases hfirst.symm.trans hF'
        exact absurd hlt (not_lt.mpr hle)
      · cases hfirst.symm.trans hF'
        exact (h N hN).2
      all_goals exact absurd hpos (not_lt.mpr (hun F hfirst))
    · exact fun h N hN => ⟨hpos, h.wrapped F hfirst hle hpos N hN⟩
  | @expires t hun hexp hlt =>
    constructor
    · intro h
      refine ⟨fun F hF hfits => ?_, fun F hF _ hpos => ?_, fun _ t' ht' _ N hN => ?_,
        fun _ hpast => ?_, hdate⟩
      · exact absurd hfits (hun.not_fits hF)
      · exact absurd hpos (not_lt.mpr (hun F hF))
      · cases hexp.symm.trans ht'
        exact (h N hN).2
      · exact absurd hlt (not_lt.mpr (hpast t hexp))
    · exact fun h N hN => ⟨by omega, h.expires hun t hexp hlt N hN⟩
  | default hun hpast =>
    constructor
    · intro h
      refine ⟨fun F hF hfits => ?_, fun F hF _ hpos => ?_, fun _ t' ht' hlt => ?_, fun _ _ => h,
        hdate⟩
      · exact absurd hfits (hun.not_fits hF)
      · exact absurd hpos (not_lt.mpr (hun F hF))
      · exact absurd hlt (not_lt.mpr (hpast t' ht'))
    · exact fun h => h.default hun hpast

/-- A date that is to come is respected, and one that has passed is not. -/
theorem Chosen.date_iff (h : Chosen lib config headers now ttl) {t : Int}
    (ht : DeclaresDate lib headers t) : (0 < ttl ∧ ttl ≤ t - now) ↔ now < t := by
  have hnone := firstAge_of_none ht.1
  cases h with
  | age hfirst => cases hnone.symm.trans hfirst
  | wrapped hfirst => cases hnone.symm.trans hfirst
  | expires _ hexp hlt =>
    cases hexp.symm.trans ht.2
    omega
  | default _ hpast =>
    have := hpast t ht.2
    omega

/-- What a response that is cached declares is respected under these conditions only. -/
theorem respects_iff_declared {r : Request} {statusCode : Int} {body : Bytes}
    (hcached : DefaultCachePolicy lib config r statusCode headers body now = (true, ttl)) :
    Respects lib headers now ttl ↔ Declared lib config headers now := by
  have hchosen : Chosen lib config headers now ttl := ttl_of_cached hcached ▸ ttlOf_chosen
  have hdate : (∀ t, DeclaresDate lib headers t → 0 < ttl ∧ ttl ≤ t - now) ↔
      ∀ t, DeclaresDate lib headers t → now < t :=
    forall_congr' fun t => imp_congr_right hchosen.date_iff
  rw [Respects, hdate]
  exact ⟨fun h => (hchosen.ages_iff h.2).mp h.1,
    fun h => ⟨(hchosen.ages_iff h.date).mpr h, h.date⟩⟩

open HTTPCacheMiddleware in
/-- A response that may be used for no time at all is cached for five minutes. -/
theorem respects_not_stale :
    let headers := Header.empty.Set (ascii "Cache-Control") (ascii "max-age=0")
    DefaultCachePolicy plainLib DefaultMiddlewareConfig (getRequest "/") 200 headers [] 0 =
        (true, 300000000000) ∧
      DeclaresAge headers 0 ∧ ¬Respects plainLib headers 0 300000000000 := by
  intro headers
  have hage : DeclaresAge headers 0 :=
    ⟨le_rfl, ascii "max-age=0", by decide +kernel, by decide +kernel, by decide +kernel⟩
  refine ⟨by decide +kernel, hage, fun h => ?_⟩
  have := h.1 0 hage
  omega

open HTTPCacheMiddleware in
theorem respects_iff_declared_minute :
    let headers := Header.empty.Set (ascii "Cache-Control") (ascii "max-age=60")
    DefaultCachePolicy plainLib DefaultMiddlewareConfig (getRequest "/") 200 headers [] 0 =
        (true, 60000000000) ∧
      (Respects plainLib headers 0 60000000000 ↔
        Declared plainLib DefaultMiddlewareConfig headers 0) :=
  have h : DefaultCachePolicy plainLib DefaultMiddlewareConfig (getRequest "/") 200
      (Header.empty.Set (ascii "Cache-Control") (ascii "max-age=60")) [] 0 =
        (true, 60000000000) := by
    decide +kernel
  ⟨h, respects_iff_declared h⟩

end Kioshun
