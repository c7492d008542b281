import Kioshun.Cache.Runs
import Kioshun.Http.Message

/-!
# The HTTP cache middleware

A response is served from the cache if there is one under the key of the request. Else
the handler runs behind a writer that records what it does; if the policy allows it the
recorded response is stored, and its key is put into the pattern index.
-/

namespace Kioshun

/-- Functions of the libraries: parsing RFC 1123 dates, formatting times and durations, and the
hexadecimal MD5 sum. -/
structure HttpLib where
  ParseRFC1123 : Bytes → Option Int
  FormatRFC3339 : Int → Bytes
  DurationString : Int → Bytes
  MD5Hex : Bytes → Bytes

structure CachedResponse where
  StatusCode : Int
  Headers : Header
  Body : Bytes
  CachedAt : Int

instance : Inhabited CachedResponse := ⟨⟨0, .empty, [], 0⟩⟩

abbrev KeyGenerator := Request → Bytes

/-- A policy decides on the request, status, header fields, body and the time. -/
abbrev CachePolicy := Request → Int → Header → Bytes → Int → Bool × Int

/-- `MiddlewareConfig` without the interval of the background cleanup and the list of ignored
headers, which nothing reads. -/
structure MiddlewareConfig where
  MaxSize : Int64
  ShardCount : Int64
  DefaultTTL : Int64
  EvictionPolicy : EvictionPolicy
  AdmissionResetInterval : Int64
  StatsEnabled : Bool
  CacheableMethods : List Bytes
  CacheableStatus : List Int
  MaxBodySize : Int
  HitHeader : Bytes
  MissHeader : Bytes

def DefaultMiddlewareConfig : MiddlewareConfig where
  MaxSize := 100000
  ShardCount := 16
  DefaultTTL := 300000000000
  EvictionPolicy := .FIFO
  AdmissionResetInterval := 0
  StatsEnabled := true
  CacheableMethods := [ascii "GET", ascii "HEAD"]
  CacheableStatus := [200, 201, 300, 301, 302, 304, 404, 410]
  MaxBodySize := 10 * 1024 * 1024
  HitHeader := ascii "X-Cache"
  MissHeader := ascii "X-Cache"

/-- The configuration of the cache; the other fields have their zero values. -/
def MiddlewareConfig.cacheConfig (config : MiddlewareConfig) : Config where
  maxSize := config.MaxSize
  shardCount := config.ShardCount
  defaultTTL := config.DefaultTTL
  evictionPolicy := config.EvictionPolicy
  statsEnabled := config.StatsEnabled
  admissionResetInterval := config.AdmissionResetInterval
  admissionScanRateThreshold := 0
  admissionScanMissThreshold := 0
  admissionScanRecencyThreshold := 0
  admissionRecencyTieBreak := 0

def contains (s sub : Bytes) : Bool := decide (sub <:+: s)

/-- The encodings of the characters that `strings.TrimSpace` removes. -/
def spaces : List Bytes :=
  [[9], [10], [11], [12], [13], [32], [0xC2, 0x85], [0xC2, 0xA0], [0xE1, 0x9A, 0x80],
    [0xE2, 0x80, 0x80], [0xE2, 0x80, 0x81], [0xE2, 0x80, 0x82], [0xE2, 0x80, 0x83],
    [0xE2, 0x80, 0x84], [0xE2, 0x80, 0x85], [0xE2, 0x80, 0x86], [0xE2, 0x80, 0x87],
    [0xE2, 0x80, 0x88], [0xE2, 0x80, 0x89], [0xE2, 0x80, 0x8A], [0xE2, 0x80, 0xA8],
    [0xE2, 0x80, 0xA9], [0xE2, 0x80, 0xAF], [0xE2, 0x81, 0x9F], [0xE3, 0x80, 0x80]]

/-- Spaces at the beginning are dropped, of which there are at most `fuel`. -/
def trimLeft (spaces : List Bytes) : Nat → Bytes → Bytes
  | 0, s => s
  | fuel + 1, s =>
    match spaces.find? (·.isPrefixOf s) with
    | some space => trimLeft spaces fuel (s.drop space.length)
    | none => s

def TrimSpace (s : Bytes) : Bytes :=
  let left := trimLeft spaces s.length s
  (trimLeft (spaces.map List.reverse) left.length left.reverse).reverse

def Atoi (s : Bytes) : Option Int :=
  let neg := s.head? = some 45
  let digits := if s.head? = some 45 ∨ s.head? = some 43 then s.tail else s
  if digits = [] ∨ ¬digits.all fun c => decide (48 ≤ c ∧ c ≤ 57) then none
  else
    let n : Int := digits.foldl (fun n c => n * 10 + ((c.toNat - 48 : Nat) : Int)) 0
    let n := if neg then -n else n
    if -2 ^ 63 ≤ n ∧ n < 2 ^ 63 then some n else none

/-- The age of one directive, if it is `max-age` with a positive number. -/
def maxAgeOf (part : Bytes) : Option Int :=
  let part := TrimSpace part
  if (ascii "max-age=").isPrefixOf part then
    match Atoi (part.drop 8) with
    | some seconds => if 0 < seconds then some (wrap64 (seconds * 1000000000)) else none
    | none => none
  else none

def extractMaxAge (cacheControl : Bytes) : Int :=
  if cacheControl = [] then 0
  else ((cacheControl.splitOn 44).findSome? maxAgeOf).getD 0

/-- The directives with which `DefaultCachePolicy` does not cache a response. -/
def forbids (cacheControl : Bytes) : Bool :=
  contains cacheControl (ascii "no-cache") || contains cacheControl (ascii "no-store") ||
    contains cacheControl (ascii "private")

def until_ (t now : Int) : Int := max (-2 ^ 63) (min (2 ^ 63 - 1) (t - now))

/-- The time to live that the header fields give, or the default. -/
def ttlOf (lib : HttpLib) (config : MiddlewareConfig) (headers : Header) (now : Int) : Int :=
  let maxAge := extractMaxAge (headers.Get (ascii "Cache-Control"))
  if 0 < maxAge then maxAge
  else
    let expires := headers.Get (ascii "Expires")
    match if expires = [] then none else lib.ParseRFC1123 expires with
    | some t => if 0 < until_ t now then until_ t now else config.DefaultTTL.toInt
    | none => config.DefaultTTL.toInt

def DefaultCachePolicy (lib : HttpLib) (config : MiddlewareConfig) : CachePolicy :=
  fun r statusCode headers body now =>
    if r.Method ∉ config.CacheableMethods then (false, 0)
    else if statusCode ∉ config.CacheableStatus then (false, 0)
    else if config.MaxBodySize < body.length then (false, 0)
    else if forbids (headers.Get (ascii "Cache-Control")) then (false, 0)
    else (true, ttlOf lib config headers now)

/-- `HTTPCacheMiddleware`; the callbacks of the user are left out. -/
structure HTTPCacheMiddleware where
  cache : InMemoryCache Bytes CachedResponse
  keyGen : KeyGenerator
  policy : CachePolicy
  hitHeader : Bytes
  missHeader : Bytes
  patternIdx : PatternIndex
  pathExtract : Bytes → Bytes
  lib : HttpLib

namespace HTTPCacheMiddleware

/-- A key without path is not in the index. -/
def addKey (m : HTTPCacheMiddleware) (key : Bytes) : HTTPCacheMiddleware :=
  if m.pathExtract key ≠ [] then
    { m with patternIdx := m.patternIdx.AddKey (m.pathExtract key) key }
  else m

def removeKey (m : HTTPCacheMiddleware) (key : Bytes) : HTTPCacheMiddleware :=
  if m.pathExtract key ≠ [] then
    { m with patternIdx := m.patternIdx.RemoveKey (m.pathExtract key) key }
  else m

/-- `cache.Set` of `Middleware`, and then the entry in the index. -/
def store (m : HTTPCacheMiddleware) (key : Bytes) (cached : CachedResponse) (ttl : Int) :
    HTTPCacheMiddleware :=
  { m with cache := (m.cache.Set key cached ttl).2 }.addKey key

/-- The time is read once for the policy and once for the stored response. -/
def record (m : HTTPCacheMiddleware) (r : Request) (rw : ResponseWriter) : HTTPCacheMiddleware :=
  let now := m.cache.now
  let m := { m with cache := now.2 }
  let verdict := m.policy r rw.statusCode rw.headers rw.buf now.1
  if verdict.1 then
    let cachedAt := m.cache.now
    { m with cache := cachedAt.2 }.store (m.keyGen r)
      ⟨rw.statusCode, rw.headers, rw.buf, cachedAt.1⟩ verdict.2
  else m

def serveCached (m : HTTPCacheMiddleware) (w : Writer) (cached : CachedResponse) :
    Writer × HTTPCacheMiddleware :=
  let now := m.cache.now
  let header := ((w.header.copyFrom cached.Headers).Set m.hitHeader (ascii "HIT")).Set
    (ascii "X-Cache-Date") (m.lib.FormatRFC3339 cached.CachedAt)
  let header := header.Set (ascii "X-Cache-Age") (m.lib.DurationString (now.1 - cached.CachedAt))
  (({ w with header := header }.WriteHeader cached.StatusCode).Write cached.Body,
    { m with cache := now.2 })

/-- The handler that `Middleware` makes of `next`. -/
def Middleware (m : HTTPCacheMiddleware) (next : Request → List ResponseAction) (w : Writer)
    (r : Request) : Writer × HTTPCacheMiddleware :=
  let found := m.cache.Get (m.keyGen r)
  let m := { m with cache := found.2 }
  match found.1 with
  | some cached => m.serveCached w cached
  | none =>
    let rw := (ResponseWriter.newResponseWriter w).serve (next r)
    ({ rw.w with header := rw.w.header.Set m.missHeader (ascii "MISS") }, m.record r rw)

/-- `SetKeyGenerator`, `SetPathExtractor` and `SetCachePolicy`. -/
def configure (m : HTTPCacheMiddleware) (keyGen : KeyGenerator) (extractor : Bytes → Bytes)
    (policy : CachePolicy) : HTTPCacheMiddleware :=
  { m with keyGen := keyGen, pathExtract := extractor, policy := policy }

section Middleware

variable {m : HTTPCacheMiddleware} {next : Request → List ResponseAction} {w : Writer} {r : Request}

theorem Middleware_of_hit {cached : CachedResponse}
    (h : (m.cache.Get (m.keyGen r)).1 = some cached) :
    m.Middleware next w r =
      serveCached { m with cache := (m.cache.Get (m.keyGen r)).2 } w cached := by
  simp only [Middleware, h]

theorem Middleware_of_miss (h : (m.cache.Get (m.keyGen r)).1 = none) :
    m.Middleware next w r =
      (let rw := (ResponseWriter.newResponseWriter w).serve (next r)
      ({ rw.w with header := rw.w.header.Set m.missHeader (ascii "MISS") },
        record { m with cache := (m.cache.Get (m.keyGen r)).2 } r rw)) := by
  simp only [Middleware, h]

end Middleware

def Clear (m : HTTPCacheMiddleware) : HTTPCacheMiddleware :=
  { m with cache := m.cache.Clear, patternIdx := m.patternIdx.Clear }

/-- One key of `Invalidate`. -/
def invalidateKey (acc : Int × HTTPCacheMiddleware) (key : Bytes) : Int × HTTPCacheMiddleware :=
  let deleted := acc.2.cache.Delete key
  let m := { acc.2 with cache := deleted.2 }
  if deleted.1 then (acc.1 + 1, m.removeKey key) else (acc.1, m)

def Invalidate (m : HTTPCacheMiddleware) (urlPattern : Bytes) (pick : Nat → Nat) :
    Int × HTTPCacheMiddleware :=
  (m.patternIdx.GetMatchingKeys urlPattern pick).foldl invalidateKey (0, m)

/-- One key of `InvalidateByFunc`. -/
def invalidateKeyByFunc (fn : Bytes → Bool) (acc : Int × HTTPCacheMiddleware) (key : Bytes) :
    Int × HTTPCacheMiddleware :=
  if fn key then
    let deleted := acc.2.cache.Delete key
    (if deleted.1 then acc.1 + 1 else acc.1, { acc.2 with cache := deleted.2 })
  else acc

def InvalidateByFunc (m : HTTPCacheMiddleware) (fn : Bytes → Bool) : Int × HTTPCacheMiddleware :=
  let keys := m.cache.Keys
  keys.1.foldl (invalidateKeyByFunc fn) (0, { m with cache := keys.2 })

end HTTPCacheMiddleware

/-- `:`. -/
def colon : UInt8 := 58

/-- What a vary header contributes to a key: its name and value, or nothing if it has none. -/
def headerPart (r : Request) (tag header : Bytes) : Bytes :=
  let value := r.Header.Get header
  if value ≠ [] then tag ++ value else []

/-- The bytes that are fed to MD5: the method, the URL or the path, and the header fields. -/
def varyText (headers : List Bytes) (r : Request) (url : Bytes) : Bytes :=
  r.Method ++ url ++ (headers.map fun header => headerPart r (header ++ [colon]) header).flatten

def DefaultKeyGenerator (lib : HttpLib) : KeyGenerator := fun r =>
  lib.MD5Hex (varyText
    [ascii "Accept", ascii "Accept-Encoding", ascii "Authorization", ascii "Accept-Language"]
    r r.URL.String)

def KeyWithVaryHeaders (lib : HttpLib) (varyHeaders : List Bytes) : KeyGenerator := fun r =>
  lib.MD5Hex (varyText varyHeaders r r.URL.String)

def KeyWithoutQuery : KeyGenerator := fun r => r.Method ++ colon :: r.URL.Path

def KeyWithoutQueryHashed (lib : HttpLib) : KeyGenerator := fun r =>
  lib.MD5Hex
    (varyText [ascii "Accept", ascii "Accept-Encoding", ascii "Authorization"] r r.URL.Path)

def KeyWithUserID (lib : HttpLib) (userIDHeader : Bytes) : KeyGenerator := fun r =>
  lib.MD5Hex (r.Method ++ r.URL.String ++ headerPart r (ascii "user:") userIDHeader)

/-- `PathExtractorFromKey`: what follows the first colon, or the key if it has none. -/
def PathExtractorFromKey (key : Bytes) : Bytes :=
  if colon ∈ key then (key.dropWhile (· != colon)).tail else key

def NewHTTPCacheMiddleware (lib : HttpLib) (config : MiddlewareConfig) (numCPU : Int)
    (hasher : Bytes → UInt64) (wall : WallClock) (choice : Nat → Nat) :
    Option HTTPCacheMiddleware :=
  let config := if config.MaxSize = 0 then DefaultMiddlewareConfig else config
  (InMemoryCache.New config.cacheConfig numCPU hasher wall choice).map fun cache =>
    { cache := cache
      keyGen := DefaultKeyGenerator lib
      policy := DefaultCachePolicy lib config
      hitHeader := if config.HitHeader = [] then ascii "X-Cache" else config.HitHeader
      missHeader := if config.MissHeader = [] then ascii "X-Cache" else config.MissHeader
      patternIdx := .NewPatternIndex
      pathExtract := fun _ => []
      lib := lib }

end Kioshun
