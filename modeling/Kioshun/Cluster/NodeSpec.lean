import Kioshun.Cache.Refinement
import Kioshun.Cluster.Node
import Kioshun.Lib.Lww

/-!
# What the steps of a node do

A node is read as a map of registers: under the bytes of a key stand the recorded
version and the entry of the local cache. The pieces that the handlers are made
of change one register or none.
-/

namespace Kioshun

universe u v
variable {K : Type u} {V : Type v} [DecidableEq K]

namespace Node

structure Ready (n : Node K V) : Prop where
  valid : n.localCache.Valid
  isOpen : n.localCache.closed = false

/-- A new cache is ready, and so it is after every run. -/
theorem ready_of_run [Inhabited V] {n : Node K V} {config : Config} {numCPU : Int}
    {hasher : K → UInt64}
    {wall : WallClock} {choice : Nat → Nat} {c : InMemoryCache K V}
    (hnew : InMemoryCache.New config numCPU hasher wall choice = some c)
    (ops : List (Op K V)) (h : n.localCache = InMemoryCache.run ops c) : n.Ready := by
  obtain ⟨hv, hopen, -⟩ := InMemoryCache.New_spec hnew
  have hout := InMemoryCache.run_outcome hv hopen ops
  rw [← h] at hout
  exact ⟨hout.valid, hout.shape.closed.trans hopen⟩

/-- What no step of a node changes, and that it leaves the node ready. -/
structure Advances (n n' : Node K V) : Prop where
  ready : n'.Ready
  cfg : n'.cfg = n.cfg
  kc : n'.kc = n.kc
  codec : n'.codec = n.codec
  ext : n'.ext = n.ext
  ring : n'.ring = n.ring
  cap : n'.localCache.perShardCap = n.localCache.perShardCap
  later : WallClock.Later n.localCache.rt.wall n'.localCache.rt.wall

variable {n n' n'' : Node K V}

section

theorem Advances.refl (h : n.Ready) : Advances n n :=
  ⟨h, rfl, rfl, rfl, rfl, rfl, rfl, WallClock.Later.refl _⟩

theorem Advances.trans (h : Advances n n') (h' : Advances n' n'') : Advances n n'' :=
  ⟨h'.ready, h'.cfg.trans h.cfg, h'.kc.trans h.kc, h'.codec.trans h.codec, h'.ext.trans h.ext,
    h'.ring.trans h.ring, h'.cap.trans h.cap, h.later.trans h'.later⟩

theorem Ready.advances {c : InMemoryCache K V} (h : n.Ready)
    (hout : InMemoryCache.Outcome n.localCache c) : Advances n { n with localCache := c } :=
  ⟨⟨hout.valid, hout.shape.closed.trans h.isOpen⟩, rfl, rfl, rfl, rfl, rfl, hout.shape.cap,
    hout.later⟩

end

/-- A step that leaves the versions and the entries alone. -/
structure Silent (n n' : Node K V) : Prop where
  advances : Advances n n'
  version : n'.version = n.version
  view : n'.localCache.view = n.localCache.view

theorem Silent.refl (h : n.Ready) : Silent n n := ⟨Advances.refl h, rfl, rfl⟩

theorem Silent.trans (h : Silent n n') (h' : Silent n' n'') : Silent n n'' :=
  ⟨h.advances.trans h'.advances, h'.version.trans h.version, h'.view.trans h.view⟩

section
variable (h : n.Ready)
include h

section

theorem now_silent : Silent n n.now.2 :=
  ⟨h.advances h.valid.now.1, rfl, h.valid.now.2⟩

theorem next_silent : Silent n n.next.2 := by
  obtain ⟨⟨hr, hcfg, hkc, hcodec, hext, hring, hcap, hlater⟩, hver, hview⟩ := now_silent h
  exact ⟨⟨⟨hr.valid, hr.isOpen⟩, hcfg, hkc, hcodec, hext, hring, hcap, hlater⟩, hver, hview⟩

theorem observe_silent (ver : UInt64) : Silent n (n.observe ver) := by
  obtain ⟨⟨hr, hcfg, hkc, hcodec, hext, hring, hcap, hlater⟩, hver, hview⟩ := now_silent h
  exact ⟨⟨⟨hr.valid, hr.isOpen⟩, hcfg, hkc, hcodec, hext, hring, hcap, hlater⟩, hver, hview⟩

theorem nextReqID_silent : Silent n n.nextReqID.2 :=
  ⟨⟨⟨h.valid, h.isOpen⟩, rfl, rfl, rfl, rfl, rfl, rfl, WallClock.Later.refl _⟩, rfl, rfl⟩

theorem absExpiry_silent (ttl : Int) : Silent n (n.absExpiry ttl).2 := by
  unfold absExpiry
  split_ifs
  · exact Silent.refl h
  · exact now_silent h

theorem ownersFor_silent (k : K) : Silent n (n.ownersFor k).2 := by
  unfold ownersFor
  cases n.hotSet (n.kc.EncodeKey k) with
  | none => exact Silent.refl h
  | some expAt =>
    simp only
    split_ifs
    · exact now_silent h
    · exact now_silent h

theorem record_advances (bk : Bytes) (ver : UInt64) : Advances n (n.record bk ver) :=
  ⟨⟨h.valid, h.isOpen⟩, rfl, rfl, rfl, rfl, rfl, rfl, WallClock.Later.refl _⟩

end

end

omit [DecidableEq K] in
theorem stale_iff (h : n.cfg.LWWEnabled = true) (bk : Bytes) (ver : UInt64) :
    n.stale bk ver = true ↔ ver < n.version bk := by
  simp [stale, h]

variable {bk : Bytes} {ver : UInt64}

omit [DecidableEq K] in
theorem le_of_not_stale (h : n.cfg.LWWEnabled = true) (hs : ¬ n.stale bk ver = true) :
    n.version bk ≤ ver :=
  UInt64.not_lt.mp fun hlt => hs ((stale_iff h bk ver).mpr hlt)

/-- `commit` touches no entry and records the version, so that it is not stale afterwards. -/
theorem commit_spec (h : n.Ready) (bk : Bytes) (ver : UInt64) :
    Advances n (n.commit bk ver) ∧ (n.commit bk ver).localCache.view = n.localCache.view ∧
      (n.commit bk ver).stale bk ver = false ∧
      (n.cfg.LWWEnabled = true →
        (n.commit bk ver).version = Function.update n.version bk ver) := by
  by_cases hlww : n.cfg.LWWEnabled = true
  · have hrec := record_advances h bk ver
    have hobs := observe_silent hrec.ready ver
    have hver : (n.commit bk ver).version = Function.update n.version bk ver := by
      rw [commit, if_pos hlww]
      exact hobs.version
    refine ⟨?_, ?_, ?_, fun _ => hver⟩
    · rw [commit, if_pos hlww]
      exact hrec.trans hobs.advances
    · rw [commit, if_pos hlww]
      exact hobs.view
    · rw [stale, hver, Function.update_self, decide_eq_false (UInt64.lt_irrefl ver), Bool.and_false]
  · rw [commit, if_neg hlww]
    refine ⟨Advances.refl h, rfl, ?_, fun hyes => absurd hyes hlww⟩
    rw [stale, Bool.eq_false_of_not_eq_true hlww, Bool.false_and]

theorem importItems_spec [Inhabited V] (h : n.Ready) (items : List (Item K V)) :
    Advances n (n.importItems items) ∧
      (∀ k, (n.importItems items).localCache.view k =
          InMemoryCache.imported items n.localCache.view k ∨
        (n.importItems items).localCache.view k = none) ∧
      (n.localCache.perShardCap ≤ 0 → (n.importItems items).localCache.view =
        InMemoryCache.imported items n.localCache.view) := by
  obtain ⟨hout, -, hle, hexact⟩ := InMemoryCache.Import_spec h.valid items
  exact ⟨h.advances hout, hle, hexact⟩

section Registers
open Lww

def registers (kc : KeyCodec K) (version : Bytes → UInt64) (view : K → Option (V × Int))
    (bk : Bytes) : Stamped Nat (Option (V × Int)) :=
  ⟨(version bk).toNat, match kc.DecodeKey bk with
    | .ok k => view k
    | .error _ => none⟩

def register (n : Node K V) : Bytes → Stamped Nat (Option (V × Int)) :=
  registers n.kc n.version n.localCache.view

variable {view : K → Option (V × Int)} {version : Bytes → UInt64} {kc : KeyCodec K}

omit [DecidableEq K] in
theorem registers_of_decode {k : K} (h : kc.DecodeKey bk = .ok k) :
    registers kc version view bk = ⟨(version bk).toNat, view k⟩ := by
  simp only [registers, h]

theorem register_key (h : n.kc.Lawful) (k : K) :
    n.register (n.kc.EncodeKey k) = ⟨(n.version (n.kc.EncodeKey k)).toNat, n.localCache.view k⟩ :=
  registers_of_decode (h.decode_encode k)

/-- A write that is not older than the register is a write of the register map. -/
theorem registers_update (hkc : kc.Lawful) {k : K} (hk : kc.DecodeKey bk = .ok k)
    (hver : version bk ≤ ver) (e : Option (V × Int)) :
    registers kc (Function.update version bk ver) (Function.update view k e) =
      apply (registers kc version view) ⟨bk, ver.toNat, e⟩ := by
  funext b
  by_cases hb : bk = b
  · subst hb
    rw [apply_of_le rfl, registers_of_decode hk, Function.update_self, Function.update_self]
    · rfl
    · exact UInt64.le_iff_toNat_le.mp hver
  · rw [apply_of_ne hb]
    have hne : b ≠ bk := fun he => hb he.symm
    cases hd : kc.DecodeKey b with
    | error err => simp only [registers, hd, Function.update_of_ne hne]
    | ok k' =>
      have hkk : k' ≠ k := by
        rintro rfl
        exact hne ((hkc.encode_decode b k' hd).symm.trans (hkc.encode_decode bk k' hk))
      rw [registers_of_decode hd, registers_of_decode hd, Function.update_of_ne hne,
        Function.update_of_ne hkk]

omit [DecidableEq K] in
/-- A write older than the register is dropped. -/
theorem registers_stale (hver : ver < version bk) (e : Option (V × Int)) :
    apply (registers kc version view) ⟨bk, ver.toNat, e⟩ = registers kc version view := by
  funext b
  by_cases hb : bk = b
  · exact apply_of_lt hb (by rw [← hb]; exact UInt64.lt_iff_toNat_lt.mp hver)
  · exact apply_of_ne hb

end Registers

end Node

end Kioshun
