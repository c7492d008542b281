import Kioshun.Http.PatternIndex
import Mathlib.Logic.Function.Basic

/-!
# Requests and responses

What the middleware uses of `net/http`: header maps, requests, the writer that the
server passes to a handler, and the writer that the middleware wraps around it. A
handler is seen as the calls that it makes on its writer.
-/

namespace Kioshun

/-- The bytes that a header field name may have. -/
def validHeaderFieldByte (c : UInt8) : Bool :=
  decide ((48 ≤ c ∧ c ≤ 57) ∨ (65 ≤ c ∧ c ≤ 90) ∨ (97 ≤ c ∧ c ≤ 122) ∨ c ∈ ascii "!#$%&'*+-.^_`|~")

/-- A letter is put into upper case at the beginning and after a hyphen, and else into lower. -/
def canonicalize : Bool → Bytes → Bytes
  | _, [] => []
  | upper, c :: cs =>
    let c' :=
      if upper && decide (97 ≤ c ∧ c ≤ 122) then c - 32
      else if !upper && decide (65 ≤ c ∧ c ≤ 90) then c + 32
      else c
    c' :: canonicalize (c' == 45) cs

/-- `http.CanonicalHeaderKey`; a text that is not a field name is left alone. -/
def CanonicalHeaderKey (s : Bytes) : Bytes :=
  if s.all validHeaderFieldByte then canonicalize true s else s

@[ext]
structure Header where
  fields : Bytes → Option (List Bytes)

namespace Header

def empty : Header := ⟨fun _ => none⟩

def assign (h : Header) (name : Bytes) (values : Option (List Bytes)) : Header :=
  ⟨Function.update h.fields name values⟩

/-- The values of a field; one that is absent has none. -/
def values (h : Header) (name : Bytes) : List Bytes := (h.fields name).getD []

def Get (h : Header) (name : Bytes) : Bytes := (h.values (CanonicalHeaderKey name)).headD []

def Set (h : Header) (name value : Bytes) : Header :=
  h.assign (CanonicalHeaderKey name) (some [value])

/-- `for k, v := range src { h[k] = v }`. -/
def copyFrom (h src : Header) : Header :=
  ⟨fun k => match src.fields k with
    | some v => some v
    | none => h.fields k⟩

end Header

structure URL where
  String : Bytes
  Path : Bytes
  deriving DecidableEq

structure Request where
  Method : Bytes
  URL : URL
  Header : Header

/-- The writer of the server: the header map, the status and the header fields that have been sent,
and the body. -/
structure Writer where
  header : Header
  sent : Option (Int × Header)
  body : Bytes

namespace Writer

def fresh : Writer := ⟨.empty, none, []⟩

/-- The first call decides. -/
def WriteHeader (w : Writer) (code : Int) : Writer :=
  match w.sent with
  | none => { w with sent := some (code, w.header) }
  | some _ => w

def Write (w : Writer) (data : Bytes) : Writer :=
  let w := w.WriteHeader 200
  { w with body := w.body ++ data }

/-- What the server does when the handler has returned. -/
def finish (w : Writer) : Writer := w.WriteHeader 200

end Writer

inductive ResponseAction where
  | header (name : Bytes) (values : Option (List Bytes))
  | WriteHeader (code : Int)
  | Write (data : Bytes)

namespace Writer

def run (w : Writer) : ResponseAction → Writer
  | .header name values => { w with header := w.header.assign name values }
  | .WriteHeader code => w.WriteHeader code
  | .Write data => w.Write data

end Writer

structure ResponseWriter where
  w : Writer
  statusCode : Int
  buf : Bytes
  headers : Header

namespace ResponseWriter

def newResponseWriter (w : Writer) : ResponseWriter := ⟨w, 200, [], .empty⟩

def WriteHeader (rw : ResponseWriter) (code : Int) : ResponseWriter :=
  { rw with
    statusCode := code
    headers := rw.headers.copyFrom rw.w.header
    w := rw.w.WriteHeader code }

def Write (rw : ResponseWriter) (data : Bytes) : ResponseWriter :=
  { rw with buf := rw.buf ++ data, w := rw.w.Write data }

def run (rw : ResponseWriter) : ResponseAction → ResponseWriter
  | .header name values => { rw with w := rw.w.run (.header name values) }
  | .WriteHeader code => rw.WriteHeader code
  | .Write data => rw.Write data

/-- A handler runs on the wrapped writer. -/
def serve (rw : ResponseWriter) (actions : List ResponseAction) : ResponseWriter :=
  actions.foldl run rw

end ResponseWriter

end Kioshun
