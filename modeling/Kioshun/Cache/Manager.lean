import Kioshun.Cache.Config
import Kioshun.Lib.SyncMap

/-!
# The manager of named caches

`manager.go`: a registry of cache instances by name, in a concurrent map, and the
configurations registered for the names. `GetCache` looks a name up, and if there is no
instance creates one and tries to store it; who comes second closes its own instance.
`CloseAll` closes in one traversal of the registry and deletes in another one.

A call consists of steps, each of which is one operation on the map, one `Close` or one
access to the configurations under their lock.
-/

namespace Kioshun

universe u

/-- The causes that the manager wraps. -/
inductive ManagerCause where
  | ErrCacheExists
  | ErrTypeMismatch
  deriving DecidableEq, Repr

/-- `CacheError`, as `newCacheError` makes it. -/
structure ManagerError where
  Op : String
  Name : String
  Cause : ManagerCause
  deriving DecidableEq, Repr

/-- What the manager sees of a cache: its type parameters, its configuration, and whether `Close`
has run. -/
structure CacheInstance (τ : Type u) where
  type : τ
  config : Config
  closed : Bool

/-- `Manager`, with the instances that it and its callers point to. -/
structure Manager (τ : Type u) where
  caches : SyncMap String Nat
  configs : SyncMap String Config
  instances : List (CacheInstance τ)

inductive ManagerRequest (τ : Type u) where
  | RegisterCache (name : String) (config : Config)
  | GetCache (t : τ) (name : String)
  | RemoveCache (name : String)
  | CloseAll

abbrev ManagerReply := Except ManagerError (Option Nat)

/-- Where a call stands: the operation that it does next. -/
inductive ManagerCall (τ : Type u) where
  | pending (r : ManagerRequest τ)
  | readConfig (t : τ) (name : String)
  | create (t : τ) (name : String) (config : Config)
  | loadOrStore (t : τ) (name : String) (cache : Nat)
  | closeOwn (t : τ) (name : String) (cache actual : Nat)
  | close (cached : Nat)
  | deleteConfig (name : String)
  | closing (r : SyncMap.Traversal String Nat)
  | closed
  | clearing (r : SyncMap.Traversal String Nat)
  | returned (r : ManagerReply)

namespace Manager
variable {τ : Type u} [DecidableEq τ]

def NewManager : Manager τ := ⟨SyncMap.empty, SyncMap.empty, []⟩

/-- `RegisterCache`, which holds its lock to the end. -/
def RegisterCache (m : Manager τ) (name : String) (config : Config) : ManagerReply × Manager τ :=
  match m.configs.Load name with
  | some _ => (.error ⟨"register", name, .ErrCacheExists⟩, m)
  | none => (.ok none, { m with configs := m.configs.Store name config })

def config (m : Manager τ) (name : String) : Config :=
  (m.configs.Load name).getD DefaultConfig

def New (m : Manager τ) (t : τ) (config : Config) : Nat × Manager τ :=
  (m.instances.length, { m with instances := m.instances ++ [⟨t, config, false⟩] })

def Close (m : Manager τ) (i : Nat) : Manager τ :=
  { m with instances := m.instances.modify i fun c => { c with closed := true } }

def isClosed (m : Manager τ) (i : Nat) : Bool := m.instances[i]?.any CacheInstance.closed

/-- The type assertion on what the registry has for the name. -/
def assertType (m : Manager τ) (t : τ) (name : String) (i : Nat) : ManagerReply :=
  if (m.instances[i]?.map CacheInstance.type) = some t then .ok (some i)
  else .error ⟨"get", name, .ErrTypeMismatch⟩

/-- The next step of a call, other than those inside a traversal. -/
def next (m : Manager τ) : ManagerCall τ → ManagerCall τ × Manager τ
  | .pending (.RegisterCache name config) =>
    let r := m.RegisterCache name config
    (.returned r.1, r.2)
  | .pending (.GetCache t name) =>
    match m.caches.Load name with
    | some cached => (.returned (m.assertType t name cached), m)
    | none => (.readConfig t name, m)
  | .readConfig t name => (.create t name (m.config name), m)
  | .create t name config =>
    let cache := m.New t config
    (.loadOrStore t name cache.1, cache.2)
  | .loadOrStore t name cache =>
    match m.caches.Load name with
    | some actual => (.closeOwn t name cache actual, m)
    | none => (.returned (.ok (some cache)), { m with caches := m.caches.Store name cache })
  | .closeOwn t name cache actual =>
    (.returned (m.assertType t name actual), m.Close cache)
  | .pending (.RemoveCache name) =>
    match m.caches.Load name with
    | some cached => (.close cached, { m with caches := m.caches.Delete name })
    | none => (.deleteConfig name, m)
  | .close cached => (.returned (.ok none), m.Close cached)
  | .deleteConfig name => (.returned (.ok none), { m with configs := m.configs.Delete name })
  | .pending .CloseAll => (.closing (.begin m.caches), m)
  | .closing r => (if r.done m.caches then .closed else .closing r, m)
  | .closed => (.clearing (.begin m.caches), m)
  | .clearing r => (if r.done m.caches then .returned (.ok none) else .clearing r, m)
  | .returned r => (.returned r, m)

def look (m : Manager τ) (name : String) : ManagerCall τ → ManagerCall τ
  | .closing r => .closing (r.look m.caches name)
  | .clearing r => .clearing (r.look m.caches name)
  | call => call

/-- A traversal calls its function with what it has found: the first one closes the instance, the
second one deletes the name, whatever it is mapped to by then. -/
def visit (m : Manager τ) (k : Nat) : ManagerCall τ → ManagerCall τ × Manager τ
  | .closing r =>
    match r.found[k]? with
    | some (_, value) => (.closing (r.hand k), m.Close value)
    | none => (.closing r, m)
  | .clearing r =>
    match r.found[k]? with
    | some (key, _) => (.clearing (r.hand k), { m with caches := m.caches.Delete key })
    | none => (.clearing r, m)
  | call => (call, m)

end Manager

end Kioshun
