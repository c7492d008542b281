import Kioshun.Http.Invalidation

/-!
# Replaying a recorded response

The wrapped writer copies the header map when `WriteHeader` is called on it, and at no
other time. A response that begins with `Write`, or that the server begins when the
handler has returned, goes out with header fields that have not been copied. A second
`WriteHeader` has no effect on what is sent, but it is recorded. What is sent and what is
recorded are two functions of the calls that the handler makes.
-/

namespace Kioshun
open List

def cacheControl : Bytes := ascii "Cache-Control"

/-- Some value of `Cache-Control` forbids to cache the response. -/
def Header.Forbids (h : Header) : Prop := ∃ v ∈ h.values cacheControl, forbids v = true

instance (h : Header) : Decidable h.Forbids :=
  inferInstanceAs (Decidable (∃ v ∈ h.values cacheControl, forbids v = true))

namespace ResponseAction

/-- The status and the header fields that are sent, by the first call of `WriteHeader` or `Write`
or, if there is none, by the server after the middleware has marked the miss. -/
def opening (missHeader : Bytes) : Header → List ResponseAction → Int × Header
  | h, [] => (200, h.Set missHeader (ascii "MISS"))
  | h, .header name values :: actions => opening missHeader (h.assign name values) actions
  | h, .WriteHeader code :: _ => (code, h)
  | h, .Write _ :: _ => (200, h)

/-- The codes of the calls of `WriteHeader`, each with the header map as it was then. -/
def commits : Header → List ResponseAction → List (Int × Header)
  | _, [] => []
  | h, .header name values :: actions => commits (h.assign name values) actions
  | h, .WriteHeader code :: actions => (code, h) :: commits h actions
  | h, .Write _ :: actions => commits h actions

def written : List ResponseAction → Bytes
  | [] => []
  | .Write data :: actions => data ++ written actions
  | .header .. :: actions | .WriteHeader _ :: actions => written actions

def lastCode (code : Int) : List (Int × Header) → Int
  | [] => code
  | c :: cs => lastCode c.1 cs

/-- The values that the field had at the last of the calls that found it set. -/
def lastSeen (name : Bytes) : List (Int × Header) → Option (List Bytes)
  | [] => none
  | c :: cs => (lastSeen name cs).or (c.2.fields name)

/-- The calls of `WriteHeader` agree in the end with the way in which the response began. -/
structure Consistent (missHeader : Bytes) (actions : List ResponseAction) : Prop where
  status : lastCode 200 (commits .empty actions) = (opening missHeader .empty actions).1
  fields : ∀ name, name ≠ CanonicalHeaderKey missHeader →
    lastSeen name (commits .empty actions) = (opening missHeader .empty actions).2.fields name

/-- If a value of `Cache-Control` that is sent forbids to cache the response, then the first one
does that the last call of `WriteHeader` with the field set has found. -/
def Explicit (missHeader : Bytes) (actions : List ResponseAction) : Prop :=
  (opening missHeader .empty actions).2.Forbids →
    forbids (((lastSeen cacheControl (commits .empty actions)).getD []).headD []) = true

/-- `DefaultCachePolicy` would cache the response without `Cache-Control`. -/
def Storable (config : MiddlewareConfig) (missHeader : Bytes) (r : Request)
    (actions : List ResponseAction) : Prop :=
  r.Method ∈ config.CacheableMethods ∧
    (opening missHeader .empty actions).1 ∈ config.CacheableStatus ∧
    (written actions).length ≤ config.MaxBodySize

end ResponseAction

open ResponseAction

section Writers

theorem Header.fields_copyFrom (h src : Header) (name : Bytes) :
    (h.copyFrom src).fields name = (src.fields name).or (h.fields name) := by
  unfold Header.copyFrom
  cases hsrc : src.fields name with
  | none => simp only [hsrc, Option.none_or]
  | some v => simp only [hsrc, Option.some_or]

theorem Header.fields_Set_of_ne {h : Header} {name key value : Bytes}
    (hne : name ≠ CanonicalHeaderKey key) : (h.Set key value).fields name = h.fields name :=
  Function.update_of_ne hne _ _

variable {w : Writer} {x : Int × Header}

theorem Writer.sent_run (h : w.sent = some x) (action : ResponseAction) :
    (w.run action).sent = some x := by
  cases action with
  | header name values => exact h
  | WriteHeader code => simp only [Writer.run, Writer.WriteHeader, h]
  | Write data => simp only [Writer.run, Writer.Write, Writer.WriteHeader, h]

/-- What has been sent stays as it is. -/
theorem Writer.sent_foldl (h : w.sent = some x) (actions : List ResponseAction) :
    (actions.foldl Writer.run w).sent = some x := by
  induction actions generalizing w with
  | nil => exact h
  | cons action actions ih => exact ih (w.sent_run h action)

theorem Writer.sent_finish (h : w.sent = some x) : w.finish.sent = some x :=
  Writer.sent_run h (.WriteHeader 200)

/-- The middleware marks the miss when the handler has returned, and then the server finishes. -/
theorem Writer.sent_opening (missHeader : Bytes) (h : w.sent = none)
    (actions : List ResponseAction) :
    (({ actions.foldl Writer.run w with header :=
      (actions.foldl Writer.run w).header.Set missHeader (ascii "MISS") }) : Writer).finish.sent =
      some (opening missHeader w.header actions) := by
  induction actions generalizing w with
  | nil => simp only [foldl_nil, Writer.finish, Writer.WriteHeader, h, opening]
  | cons action actions ih =>
    cases action with
    | header name values => exact ih (w := { w with header := w.header.assign name values }) h
    | WriteHeader code =>
      have hsent : (w.run (.WriteHeader code)).sent = some (code, w.header) := by
        simp only [Writer.run, Writer.WriteHeader, h]
      exact Writer.sent_finish (Writer.sent_foldl hsent actions)
    | Write data =>
      have hsent : (w.run (.Write data)).sent = some (200, w.header) := by
        simp only [Writer.run, Writer.Write, Writer.WriteHeader, h]
      exact Writer.sent_finish (Writer.sent_foldl hsent actions)

theorem Writer.frame_WriteHeader (code : Int) :
    (w.WriteHeader code).header = w.header ∧ (w.WriteHeader code).body = w.body := by
  unfold Writer.WriteHeader
  split <;> exact ⟨rfl, rfl⟩

theorem Writer.body_foldl (actions : List ResponseAction) :
    (actions.foldl Writer.run w).body = w.body ++ written actions := by
  induction actions generalizing w with
  | nil => exact (append_nil _).symm
  | cons action actions ih =>
    rw [foldl_cons, ih]
    cases action with
    | header name values => rfl
    | WriteHeader code => exact congrArg (· ++ written actions) (Writer.frame_WriteHeader code).2
    | Write data =>
      have hbody : (w.run (.Write data)).body = w.body ++ data :=
        congrArg (· ++ data) (Writer.frame_WriteHeader 200).2
      rw [hbody, append_assoc]
      rfl

namespace ResponseWriter

section
variable (rw' : ResponseWriter)

section
variable (actions : List ResponseAction)

/-- The handler's calls go through to the writer of the server. -/
theorem w_serve : (rw'.serve actions).w = actions.foldl Writer.run rw'.w := by
  induction actions generalizing rw' with
  | nil => rfl
  | cons action actions ih =>
    refine (ih _).trans ?_
    cases action <;> rfl

theorem buf_serve : (rw'.serve actions).buf = rw'.buf ++ written actions := by
  induction actions generalizing rw' with
  | nil => exact (append_nil _).symm
  | cons action actions ih =>
    refine (ih _).trans ?_
    cases action with
    | header name values => rfl
    | WriteHeader code => rfl
    | Write data => exact append_assoc rw'.buf data _

theorem statusCode_serve :
    (rw'.serve actions).statusCode = lastCode rw'.statusCode (commits rw'.w.header actions) := by
  induction actions generalizing rw' with
  | nil => rfl
  | cons action actions ih =>
    refine (ih _).trans ?_
    cases action with
    | header name values => rfl
    | WriteHeader code =>
      exact congrArg (fun h => lastCode code (commits h actions)) (Writer.frame_WriteHeader code).1
    | Write data =>
      exact congrArg (fun h => lastCode rw'.statusCode (commits h actions))
        (Writer.frame_WriteHeader 200).1

end

theorem fields_serve (name : Bytes) (actions : List ResponseAction) :
    (rw'.serve actions).headers.fields name =
      (lastSeen name (commits rw'.w.header actions)).or (rw'.headers.fields name) := by
  induction actions generalizing rw' with
  | nil => rfl
  | cons action actions ih =>
    refine (ih _).trans ?_
    cases action with
    | header name values => rfl
    | WriteHeader code =>
      have hcopied : (rw'.run (.WriteHeader code)).headers.fields name =
          (rw'.w.header.fields name).or (rw'.headers.fields name) := Header.fields_copyFrom _ _ name
      have hsame : (rw'.run (.WriteHeader code)).w.header = rw'.w.header :=
        (Writer.frame_WriteHeader code).1
      rw [hcopied, hsame, ← Option.or_assoc]
      rfl
    | Write data =>
      exact congrArg (fun h => (lastSeen name (commits h actions)).or (rw'.headers.fields name))
        (Writer.frame_WriteHeader 200).1

end

end ResponseWriter

end Writers

/-- The client got the status, the body and, but for some fields, the header. -/
def Writer.Delivered (w : Writer) (exempt : Bytes → Prop) (status : Int) (headers : Header)
    (body : Bytes) : Prop :=
  ∃ sent, w.sent = some (status, sent) ∧
    (∀ name, ¬exempt name → headers.fields name = sent.fields name) ∧ body = w.body

namespace HTTPCacheMiddleware

def reply (m : HTTPCacheMiddleware) (next : Request → List ResponseAction) (r : Request) : Writer :=
  (m.Middleware next .fresh r).1.finish

/-- The writer with the recorded response, of which `Middleware` passes the parts to the policy. -/
def captured (next : Request → List ResponseAction) (r : Request) : ResponseWriter :=
  (ResponseWriter.newResponseWriter .fresh).serve (next r)

/-- The fields that `serveCached` sets. -/
def hitFields (hitHeader : Bytes) : List Bytes :=
  [hitHeader, ascii "X-Cache-Date", ascii "X-Cache-Age"].map CanonicalHeaderKey

def XCache (m : HTTPCacheMiddleware) (name : Bytes) : Prop :=
  name = CanonicalHeaderKey m.missHeader ∨ name ∈ hitFields m.hitHeader

/-- The response that goes to the policy, that is stored and that a later hit brings is the one that
the client of the miss gets. -/
structure Replays (m : HTTPCacheMiddleware) (next : Request → List ResponseAction) (r : Request) :
    Prop where
  recorded : (m.reply next r).Delivered (· = CanonicalHeaderKey m.missHeader)
    (captured next r).statusCode (captured next r).headers (captured next r).buf
  stored : ∀ cached expireTime,
    (m.Middleware next .fresh r).2.cache.view (m.keyGen r) = some (cached, expireTime) →
    (m.reply next r).Delivered (· = CanonicalHeaderKey m.missHeader)
      cached.StatusCode cached.Headers cached.Body
  replayed : ∀ cached expireTime,
    (m.Middleware next .fresh r).2.cache.view (m.keyGen r) = some (cached, expireTime) →
    ∀ (later : HTTPCacheMiddleware) (next' : Request → List ResponseAction) (r' : Request),
      later.hitHeader = m.hitHeader → (later.cache.Get (later.keyGen r')).1 = some cached →
      ∃ status headers, (later.reply next' r').sent = some (status, headers) ∧
        (m.reply next r).Delivered m.XCache status headers (later.reply next' r').body

/-- A response that is sent with a `Cache-Control` that forbids it is not cached under
`DefaultCachePolicy`. -/
def Withheld (lib : HttpLib) (config : MiddlewareConfig) (m : HTTPCacheMiddleware)
    (next : Request → List ResponseAction) (r : Request) : Prop :=
  ∀ sent, (m.reply next r).sent = some sent → sent.2.Forbids →
    (∀ now, (DefaultCachePolicy lib config r (captured next r).statusCode (captured next r).headers
      (captured next r).buf now).1 = false) ∧
    ¬({ m with policy := DefaultCachePolicy lib config }.Middleware next .fresh r).2.Cached
      (m.keyGen r)

variable {m : HTTPCacheMiddleware} {next : Request → List ResponseAction} {r : Request}

section Parts

theorem reply_of_miss (next : Request → List ResponseAction)
    (hmiss : (m.cache.Get (m.keyGen r)).1 = none) :
    (m.reply next r).sent = some (opening m.missHeader .empty (next r)) ∧
      (m.reply next r).body = written (next r) := by
  have hw := ResponseWriter.w_serve (.newResponseWriter .fresh) (next r)
  simp only [reply, Middleware_of_miss hmiss, hw]
  refine ⟨Writer.sent_opening m.missHeader rfl (next r), ?_⟩
  exact (Writer.frame_WriteHeader 200).2.trans (Writer.body_foldl (next r))

theorem statusCode_captured :
    (captured next r).statusCode = lastCode 200 (commits .empty (next r)) :=
  ResponseWriter.statusCode_serve _ (next r)

theorem fields_captured (name : Bytes) :
    (captured next r).headers.fields name = lastSeen name (commits .empty (next r)) :=
  (ResponseWriter.fields_serve _ name (next r)).trans (Option.or_none)

theorem buf_captured :
    (captured next r).buf = written (next r) := ResponseWriter.buf_serve _ (next r)

variable {cached : CachedResponse}

/-- A hit brings what is stored. -/
theorem reply_of_hit (next : Request → List ResponseAction)
    (hhit : (m.cache.Get (m.keyGen r)).1 = some cached) :
    ∃ headers, (m.reply next r).sent = some (cached.StatusCode, headers) ∧
      (∀ name, name ∉ hitFields m.hitHeader → headers.fields name = cached.Headers.fields name) ∧
      (m.reply next r).body = cached.Body := by
  simp only [reply, Middleware_of_hit hhit]
  refine ⟨_, rfl, fun name hname => ?_, rfl⟩
  simp only [hitFields, map_cons, map_nil, mem_cons, not_mem_nil, or_false, not_or] at hname
  obtain ⟨hhitHeader, hdate, hage⟩ := hname
  calc _ = (Header.empty.copyFrom cached.Headers).fields name := by
        rw [Header.fields_Set_of_ne hage, Header.fields_Set_of_ne hdate,
          Header.fields_Set_of_ne hhitHeader]
        rfl
    _ = cached.Headers.fields name := (Header.fields_copyFrom _ _ name).trans Option.or_none

/-- A response is stored if the policy says so, and as it was recorded. -/
theorem Indexed.stored (h : m.Indexed) (hnone : m.cache.view (m.keyGen r) = none)
    {rw' : ResponseWriter} {expireTime : Int}
    (hview : (m.record r rw').cache.view (m.keyGen r) = some (cached, expireTime)) :
    (∃ now, (m.policy r rw'.statusCode rw'.headers rw'.buf now).1 = true) ∧
      ∃ cachedAt, cached = ⟨rw'.statusCode, rw'.headers, rw'.buf, cachedAt⟩ := by
  have hsame : m.cache.now.2.view = m.cache.view := h.valid.now.2
  simp only [HTTPCacheMiddleware.record] at hview
  split_ifs at hview with hverdict
  · refine ⟨⟨_, hverdict⟩, ?_⟩
    rw [HTTPCacheMiddleware.store, (addKey_frame _ _).1] at hview
    have hlater := h.now.now
    obtain ⟨hwrote, -⟩ := InMemoryCache.Set_spec hlater.valid hlater.unclosed (m.keyGen r)
      ⟨rw'.statusCode, rw'.headers, rw'.buf, m.cache.now.2.now.1⟩
      (m.policy r rw'.statusCode rw'.headers rw'.buf m.cache.now.1).2
    obtain heq | hgone := hwrote.view (m.keyGen r)
    · rw [Function.update_self] at heq
      have hboth := Option.some.inj (hview.symm.trans heq)
      exact ⟨_, congrArg Prod.fst hboth⟩
    · cases hview.symm.trans hgone
  · rw [hsame, hnone] at hview
    cases hview

theorem DefaultCachePolicy_iff {lib : HttpLib} {config : MiddlewareConfig} {statusCode : Int}
    {headers : Header} {body : Bytes} {now : Int} :
    (DefaultCachePolicy lib config r statusCode headers body now).1 = true ↔
      r.Method ∈ config.CacheableMethods ∧ statusCode ∈ config.CacheableStatus ∧
        body.length ≤ config.MaxBodySize ∧ forbids (headers.Get cacheControl) = false := by
  unfold DefaultCachePolicy
  split_ifs with hmethod hstatus hsize hforbids
  all_goals simp_all [cacheControl]

theorem Indexed.stored_of_miss (h : m.Indexed) (hmiss : (m.cache.Get (m.keyGen r)).1 = none)
    {expireTime : Int}
    (hview : (m.Middleware next .fresh r).2.cache.view (m.keyGen r) = some (cached, expireTime)) :
    (∃ now, (m.policy r (captured next r).statusCode (captured next r).headers
        (captured next r).buf now).1 = true) ∧
      ∃ cachedAt, cached =
        ⟨(captured next r).statusCode, (captured next r).headers, (captured next r).buf,
          cachedAt⟩ := by
  rw [Middleware_of_miss hmiss] at hview
  exact h.get.stored (InMemoryCache.view_of_miss h.valid h.unclosed hmiss) hview

end Parts

section Iff

variable {lib : HttpLib} {config : MiddlewareConfig}

theorem recorded_iff (hmiss : (m.cache.Get (m.keyGen r)).1 = none) :
    (m.reply next r).Delivered (· = CanonicalHeaderKey m.missHeader) (captured next r).statusCode
        (captured next r).headers (captured next r).buf ↔ Consistent m.missHeader (next r) := by
  obtain ⟨hsent, hbody⟩ := reply_of_miss next hmiss
  constructor
  · rintro ⟨headers, heq, hfields, -⟩
    have hopening := Option.some.inj (hsent.symm.trans heq)
    refine ⟨?_, fun name hname => ?_⟩
    · rw [hopening, ← statusCode_captured]
    · rw [hopening, ← fields_captured]
      exact hfields name hname
  · intro h
    refine ⟨(opening m.missHeader .empty (next r)).2, ?_, fun name hname => ?_, ?_⟩
    · rw [hsent, statusCode_captured, h.status]
    · rw [fields_captured, h.fields name hname]
    · rw [buf_captured, hbody]

theorem Indexed.replays_iff_consistent (h : m.Indexed)
    (hmiss : (m.cache.Get (m.keyGen r)).1 = none) :
    m.Replays next r ↔ Consistent m.missHeader (next r) := by
  refine ⟨fun hreplays => (recorded_iff hmiss).mp hreplays.recorded, fun hconsistent => ?_⟩
  have hrecorded := (recorded_iff hmiss).mpr hconsistent
  refine ⟨hrecorded, fun cached expireTime hview => ?_, fun cached expireTime hview => ?_⟩
  · obtain ⟨-, cachedAt, rfl⟩ := h.stored_of_miss hmiss hview
    exact hrecorded
  · obtain ⟨-, cachedAt, rfl⟩ := h.stored_of_miss hmiss hview
    intro later next' r' hheader hhit
    obtain ⟨headers, hsent, hfields, hbody⟩ := reply_of_hit next' hhit
    obtain ⟨original, horiginal, hsame, hbuf⟩ := hrecorded
    refine ⟨_, headers, hsent, original, horiginal, fun name hname => ?_, hbody.trans hbuf⟩
    obtain ⟨hmissHeader, hhitFields⟩ := not_or.mp hname
    rw [hfields name (hheader ▸ hhitFields)]
    exact hsame name hmissHeader

theorem get_captured :
    (captured next r).headers.Get cacheControl =
      ((lastSeen cacheControl (commits .empty (next r))).getD []).headD [] := by
  have hcanonical : CanonicalHeaderKey cacheControl = cacheControl := by decide
  rw [Header.Get, hcanonical, Header.values, fields_captured]

theorem Indexed.withheld_iff (h : m.Indexed) (hmiss : (m.cache.Get (m.keyGen r)).1 = none)
    (hconsistent : Consistent m.missHeader (next r)) :
    Withheld lib config m next r ↔
      (Storable config m.missHeader r (next r) → Explicit m.missHeader (next r)) := by
  obtain ⟨hsent, -⟩ := reply_of_miss next hmiss
  have hverdict : ∀ now, (DefaultCachePolicy lib config r (captured next r).statusCode
      (captured next r).headers (captured next r).buf now).1 = true ↔
      Storable config m.missHeader r (next r) ∧
        forbids (((lastSeen cacheControl (commits .empty (next r))).getD []).headD []) = false := by
    intro now
    rw [DefaultCachePolicy_iff, statusCode_captured, hconsistent.status, buf_captured, get_captured]
    simp only [Storable, and_assoc]
  constructor
  · intro hwithheld hstorable hforbids
    by_contra hfirst
    have hcached := (hverdict 0).mpr ⟨hstorable, Bool.eq_false_iff.mpr hfirst⟩
    rw [(hwithheld _ hsent hforbids).1 0] at hcached
    cases hcached
  · rintro hexplicit sent hsame hforbids
    obtain rfl := Option.some.inj (hsent.symm.trans hsame)
    have hfalse : ∀ now, (DefaultCachePolicy lib config r (captured next r).statusCode
        (captured next r).headers (captured next r).buf now).1 = false := by
      intro now
      refine Bool.eq_false_iff.mpr fun htrue => ?_
      obtain ⟨hstorable, hfirst⟩ := (hverdict now).mp htrue
      rw [hexplicit hstorable hforbids] at hfirst
      cases hfirst
    refine ⟨hfalse, fun hcached => ?_⟩
    -- a response that is cached was approved by the policy
    obtain ⟨⟨cached, expireTime⟩, hview⟩ := Option.ne_none_iff_exists'.mp hcached
    have hdefault : ({ m with policy := DefaultCachePolicy lib config }).Indexed :=
      ⟨h.valid, h.unclosed, h.covers, h.own⟩
    obtain ⟨⟨now, htrue⟩, -⟩ := hdefault.stored_of_miss hmiss hview
    rw [hfalse now] at htrue
    cases htrue

end Iff

section Runs

variable {lib : HttpLib} {config policyConfig : MiddlewareConfig} {numCPU : Int}
  {hasher : Bytes → UInt64} {wall : WallClock} {choice : Nat → Nat} {m₀ : HTTPCacheMiddleware}

/-- Every handler, at a miss in any state of the middleware. -/
theorem run_replays_iff
    (hnew : NewHTTPCacheMiddleware lib config numCPU hasher wall choice = some m₀)
    {keyGen : KeyGenerator} {extractor : Bytes → Bytes} {policy : CachePolicy} {ops : List Op}
    (hrun : (m₀.configure keyGen extractor policy).run ops = m)
    (hmiss : (m.cache.Get (m.keyGen r)).1 = none) :
    m.Replays next r ∧ Withheld lib policyConfig m next r ↔
      Consistent m.missHeader (next r) ∧
        (Storable policyConfig m.missHeader r (next r) → Explicit m.missHeader (next r)) := by
  have hindexed : m.Indexed := hrun ▸ (indexed_configure hnew keyGen extractor policy).run ops
  rw [hindexed.replays_iff_consistent hmiss]
  exact and_congr_right fun hconsistent => hindexed.withheld_iff hmiss hconsistent

def browsed : HTTPCacheMiddleware :=
  (small.configure KeyWithoutQuery PathExtractorFromKey
    (DefaultCachePolicy plainLib smallMiddleware)).run pages

theorem browsed_miss : (browsed.cache.Get (browsed.keyGen (getRequest "/p"))).1 = none :=
  Option.isNone_iff_eq_none.mp (by decide +kernel)

def page : List ResponseAction :=
  [.header cacheControl (some [ascii "max-age=60"]), .WriteHeader 404, .Write [1],
    .header (ascii "Late") (some [[1]]), .Write [2]]

/-- The page is replayed: the second request is a hit. -/
theorem run_replays_iff_page :
    (browsed.Replays (fun _ => page) (getRequest "/p") ∧
      Withheld plainLib smallMiddleware browsed (fun _ => page) (getRequest "/p")) ∧
    ((browsed.Middleware (fun _ => page) .fresh (getRequest "/p")).2.reply (fun _ => [])
      (getRequest "/p")).body = [1, 2] := by
  have hforbids : ¬(opening [] .empty page).2.Forbids := by decide
  refine ⟨(run_replays_iff new_small rfl browsed_miss).mpr ?_, by decide +kernel⟩
  exact ⟨⟨rfl, fun _ _ => rfl⟩, fun _ h => absurd h hforbids⟩

def privatePage : List ResponseAction := [.header cacheControl (some [ascii "private"]), .Write [1]]

/-- It is cached. -/
theorem caches_privatePage :
    (browsed.cache.Get (browsed.keyGen (getRequest "/p"))).1 = none ∧
    ¬(browsed.Replays (fun _ => privatePage) (getRequest "/p") ∧
      Withheld plainLib smallMiddleware browsed (fun _ => privatePage) (getRequest "/p")) := by
  have hcached : ({ browsed with policy := DefaultCachePolicy plainLib smallMiddleware }.Middleware
      (fun _ => privatePage) .fresh (getRequest "/p")).2.Cached
        (browsed.keyGen (getRequest "/p")) := by decide +kernel
  have hforbids : (opening [] .empty privatePage).2.Forbids := by decide
  refine ⟨browsed_miss, fun hboth => ?_⟩
  exact (hboth.2 _ (reply_of_miss _ browsed_miss).1 hforbids).2 hcached

end Runs

end HTTPCacheMiddleware

end Kioshun
