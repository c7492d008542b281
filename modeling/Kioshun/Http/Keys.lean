import Kioshun.Http.Invalidation

/-!
# What the hashed keys tell apart

The generators write the method, the URL and the header fields into MD5 one after the
other, with no lengths and no separators, and a field that is absent writes nothing. The
bytes do not say where the URL ends: it may as well have ended later, and the fields have
been part of it.
-/

namespace Kioshun
open Function List

/-- The key generators that hash. -/
inductive HashedKey where
  | default
  | varyHeaders (headers : List Bytes)
  | withoutQuery
  | userID (header : Bytes)

namespace HashedKey

def generator (lib : HttpLib) : HashedKey → KeyGenerator
  | .default => DefaultKeyGenerator lib
  | .varyHeaders headers => KeyWithVaryHeaders lib headers
  | .withoutQuery => KeyWithoutQueryHashed lib
  | .userID header => KeyWithUserID lib header

def url : HashedKey → URL → Bytes
  | .withoutQuery, u => u.Path
  | .default, u | .varyHeaders _, u | .userID _, u => u.String

/-- The header fields that are written, each after what stands before its value. -/
def included : HashedKey → List (Bytes × Bytes)
  | .default =>
    [ascii "Accept", ascii "Accept-Encoding", ascii "Authorization", ascii "Accept-Language"].map
      fun header => (header ++ [colon], header)
  | .varyHeaders headers => headers.map fun header => (header ++ [colon], header)
  | .withoutQuery =>
    [ascii "Accept", ascii "Accept-Encoding", ascii "Authorization"].map
      fun header => (header ++ [colon], header)
  | .userID header => [(ascii "user:", header)]

def fieldText (g : HashedKey) (r : Request) : Bytes :=
  (g.included.map fun field => headerPart r field.1 field.2).flatten

def text (g : HashedKey) (r : Request) : Bytes := r.Method ++ g.url r.URL ++ g.fieldText r

structure Agree (g : HashedKey) (r r' : Request) : Prop where
  method : r.Method = r'.Method
  url : g.url r.URL = g.url r'.URL
  fields : ∀ field ∈ g.included, r.Header.Get field.2 = r'.Header.Get field.2

/-- The request shares its key with no other request but such as agree with it. -/
def Separates (g : HashedKey) (lib : HttpLib) (among : Request → Prop) (r : Request) : Prop :=
  ∀ r', among r' → g.generator lib r = g.generator lib r' → g.Agree r r'

/-- A request as servers get them from clients: the URL begins with a slash, and the method has
none. -/
structure OriginForm (r : Request) : Prop where
  method : pathSeparator ∉ r.Method
  url : r.URL.String.head? = some pathSeparator
  path : r.URL.Path.head? = some pathSeparator

/-- The request has none of the included header fields, and its URL is not a shorter URL that is
followed by what some header would write. -/
structure Bare (g : HashedKey) (r : Request) : Prop where
  fields : ∀ field ∈ g.included, r.Header.Get field.2 = []
  url : ∀ shorter r', shorter ≠ [] → g.url r.URL = shorter ++ g.fieldText r' → g.fieldText r' = []

section Text

variable {g : HashedKey} {lib : HttpLib} {r r' : Request}

theorem fieldText_userID (header : Bytes) :
    (userID header).fieldText r = headerPart r (ascii "user:") header := append_nil _

theorem generator_eq : g.generator lib r = lib.MD5Hex (g.text r) := by
  cases g with
  | default => rfl
  | varyHeaders headers =>
    simp only [generator, KeyWithVaryHeaders, varyText, text, url, fieldText, included, map_map]
    rfl
  | withoutQuery => rfl
  | userID header => rw [text, fieldText_userID, generator, KeyWithUserID, url]

theorem headerPart_eq_nil {tag header : Bytes} :
    headerPart r tag header = [] ↔ r.Header.Get header = [] := by
  simp only [headerPart]
  split_ifs with h
  · exact ⟨fun hnil => absurd (append_eq_nil_iff.mp hnil).2 h, fun hnil => absurd hnil h⟩
  · exact ⟨fun _ => not_not.mp h, fun _ => rfl⟩

theorem fieldText_eq_nil :
    g.fieldText r = [] ↔ ∀ field ∈ g.included, r.Header.Get field.2 = [] := by
  simp only [fieldText, flatten_eq_nil_iff, forall_mem_map, headerPart_eq_nil]

def plain (method url : Bytes) : Request := ⟨method, ⟨url, url⟩, .empty⟩

theorem url_same (u : Bytes) : g.url ⟨u, u⟩ = u := by
  cases g <;> rfl

theorem fieldText_plain (method url : Bytes) : g.fieldText (plain method url) = [] :=
  fieldText_eq_nil.mpr fun _ _ => rfl

theorem text_plain (method url : Bytes) : g.text (plain method url) = method ++ url := by
  rw [text, fieldText_plain, append_nil]
  exact congrArg (method ++ ·) (url_same url)

theorem OriginForm.head (h : OriginForm r) : (g.url r.URL).head? = some pathSeparator := by
  cases g with
  | withoutQuery => exact h.path
  | _ => exact h.url

/-- The first slash is where the method ends. -/
theorem method_of_text (h : OriginForm r) (h' : OriginForm r') (heq : g.text r = g.text r') :
    r.Method = r'.Method ∧ g.url r.URL ++ g.fieldText r = g.url r'.URL ++ g.fieldText r' := by
  have hmethod : ∀ {r : Request}, OriginForm r →
      (g.text r).takeWhile (· != pathSeparator) = r.Method := by
    intro r h
    obtain ⟨rest, hrest⟩ := head?_eq_some_iff.mp (h.head (g := g))
    have hfree : ∀ c ∈ r.Method, (c != pathSeparator) = true := fun c hc =>
      bne_iff_ne.mpr fun hsep => h.method (hsep ▸ hc)
    rw [text, hrest, append_assoc, takeWhile_append_of_pos hfree, cons_append,
      takeWhile_cons_of_neg (by simp), append_nil]
  have hsame : r.Method = r'.Method := by rw [← hmethod h, ← hmethod h', heq]
  refine ⟨hsame, ?_⟩
  rw [text, text, hsame, append_assoc, append_assoc] at heq
  exact append_cancel_left heq

end Text

section Separation

variable {g : HashedKey} {lib : HttpLib} {r r' : Request}

theorem text_of_generator (hmd5 : Injective lib.MD5Hex)
    (heq : g.generator lib r = g.generator lib r') : g.text r = g.text r' := by
  rw [generator_eq, generator_eq] at heq
  exact hmd5 heq

theorem generator_of_text (heq : g.text r = g.text r') :
    g.generator lib r = g.generator lib r' := by
  rw [generator_eq, generator_eq, heq]

theorem agree_of_text_nil (h : g.text r = []) (h' : g.text r' = []) : g.Agree r r' := by
  obtain ⟨hleft, hfields⟩ := append_eq_nil_iff.mp h
  obtain ⟨hmethod, hurl⟩ := append_eq_nil_iff.mp hleft
  obtain ⟨hleft', hfields'⟩ := append_eq_nil_iff.mp h'
  obtain ⟨hmethod', hurl'⟩ := append_eq_nil_iff.mp hleft'
  refine ⟨hmethod.trans hmethod'.symm, hurl.trans hurl'.symm, fun field hfield => ?_⟩
  rw [fieldText_eq_nil.mp hfields field hfield, fieldText_eq_nil.mp hfields' field hfield]

/-- If the method may be any text, then all that is written may have been the method, or none of
it. -/
theorem separates_all_iff (hmd5 : Injective lib.MD5Hex) :
    g.Separates lib (fun _ => True) r ↔ g.text r = [] := by
  constructor
  · intro hsep
    by_contra hne
    by_cases hmethod : r.Method = []
    · have hagree := hsep (plain (g.text r) []) trivial
        (generator_of_text (by rw [text_plain, append_nil]))
      exact hne (hagree.method.symm.trans hmethod)
    · have hagree := hsep (plain [] (g.text r)) trivial
        (generator_of_text (by rw [text_plain, nil_append]))
      exact hmethod hagree.method
  · intro hnil r' _ heq
    exact agree_of_text_nil hnil ((text_of_generator hmd5 heq).symm.trans hnil)

/-- The URL may have been followed by the fields, or have ended in them. -/
theorem Separates.bare (hsep : g.Separates lib OriginForm r) (h : OriginForm r) : g.Bare r := by
  have hfields : ∀ field ∈ g.included, r.Header.Get field.2 = [] := by
    have hhead : (g.url r.URL ++ g.fieldText r).head? = some pathSeparator := by
      rw [head?_append, h.head, Option.some_or]
    have hagree := hsep (plain r.Method (g.url r.URL ++ g.fieldText r)) ⟨h.method, hhead, hhead⟩
      (generator_of_text (by rw [text_plain, text, append_assoc]))
    exact hagree.fields
  refine ⟨hfields, fun shorter r' hne heq => ?_⟩
  have hhead : shorter.head? = some pathSeparator := by
    rw [← h.head (g := g), heq, head?_append_of_ne_nil _ hne]
  have hagree := hsep ⟨r.Method, ⟨shorter, shorter⟩, r'.Header⟩ ⟨h.method, hhead, hhead⟩
    (generator_of_text (by
      rw [text, fieldText_eq_nil.mpr hfields, append_nil, heq, text, url_same, append_assoc]
      rfl))
  have hurl : shorter = shorter ++ g.fieldText r' := by
    rw [← heq, hagree.url, url_same]
  exact self_eq_append_right.mp hurl

theorem Bare.separates (hmd5 : Injective lib.MD5Hex) (hbare : g.Bare r) (h : OriginForm r) :
    g.Separates lib OriginForm r := by
  intro r' h' heq
  obtain ⟨hmethod, hrest⟩ := method_of_text h h' (text_of_generator hmd5 heq)
  rw [fieldText_eq_nil.mpr hbare.fields, append_nil] at hrest
  have hne : g.url r'.URL ≠ [] := by
    intro hnil
    have hhead := h'.head (g := g)
    rw [hnil] at hhead
    cases hhead
  have hnil := hbare.url _ r' hne hrest
  rw [hnil, append_nil] at hrest
  refine ⟨hmethod, hrest, fun field hfield => ?_⟩
  rw [hbare.fields field hfield, fieldText_eq_nil.mp hnil field hfield]

/-- All generators and all requests: in general, and among the requests that servers get. -/
theorem separates_iff (hmd5 : Injective lib.MD5Hex) (g : HashedKey) (r : Request) :
    (g.Separates lib (fun _ => True) r ↔ g.text r = []) ∧
      (OriginForm r → (g.Separates lib OriginForm r ↔ g.Bare r)) :=
  ⟨separates_all_iff hmd5, fun h => ⟨fun hsep => hsep.bare h, fun hbare => hbare.separates hmd5 h⟩⟩

/-- No user is named, and `/a` is too short to end in a user. -/
theorem separates_iff_short :
    (userID (ascii "X-User-ID")).Separates HTTPCacheMiddleware.plainLib OriginForm
      (HTTPCacheMiddleware.getRequest "/a") := by
  have horigin : OriginForm (HTTPCacheMiddleware.getRequest "/a") :=
    ⟨by decide, by decide, by decide⟩
  have hmd5 : Injective HTTPCacheMiddleware.plainLib.MD5Hex := injective_id
  refine ((separates_iff hmd5 (userID (ascii "X-User-ID")) _).2 horigin).mpr
    ⟨fun _ _ => rfl, fun shorter r' hne heq => ?_⟩
  by_contra hfields
  have htext : (userID (ascii "X-User-ID")).fieldText r' =
      ascii "user:" ++ r'.Header.Get (ascii "X-User-ID") := by
    rw [fieldText_userID] at hfields ⊢
    exact if_pos fun hnil => hfields (headerPart_eq_nil.mpr hnil)
  have hlength := congrArg List.length heq
  rw [htext, length_append, length_append] at hlength
  have htag : (ascii "user:").length = 5 := rfl
  have hshort : ((userID (ascii "X-User-ID")).url
      (HTTPCacheMiddleware.getRequest "/a").URL).length = 2 := rfl
  omega

def userRequest (url user : String) : Request :=
  ⟨ascii "GET", ⟨ascii url, ascii url⟩, Header.empty.Set (ascii "X-User-ID") (ascii user)⟩

/-- Different users share a key, whatever the hash. -/
theorem users_share_key :
    OriginForm (userRequest "/a" "1user:2") ∧ OriginForm (userRequest "/auser:1" "2") ∧
    (∀ lib, KeyWithUserID lib (ascii "X-User-ID") (userRequest "/a" "1user:2") =
      KeyWithUserID lib (ascii "X-User-ID") (userRequest "/auser:1" "2")) ∧
    (userRequest "/a" "1user:2").Header.Get (ascii "X-User-ID") ≠
      (userRequest "/auser:1" "2").Header.Get (ascii "X-User-ID") := by
  have htext : (userID (ascii "X-User-ID")).text (userRequest "/a" "1user:2") =
      (userID (ascii "X-User-ID")).text (userRequest "/auser:1" "2") := by decide +kernel
  refine ⟨⟨?_, ?_, ?_⟩, ⟨?_, ?_, ?_⟩, fun lib => ?_, by decide +kernel⟩
  all_goals first | exact generator_of_text htext | decide +kernel

end Separation

end HashedKey

end Kioshun
