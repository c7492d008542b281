import Kioshun.Cluster.Client

/-!
# Hedged reads

`Get` asks the other owners of a key in turn. A leg is started when the answer of an
earlier one has come, and further legs when the hedge timer has fired. The loop is run
for every order in which the answers arrive and every moment at which the timer fires.
A leg is started in the loop itself and its answer waits in the channel, so the loop
never blocks, and it ends when no answer is outstanding.
-/

namespace Kioshun
open Node List

universe u v
variable {K : Type u} {V : Type v}

/-- What the loop of `Get` does not change: the connections and the answers of the peers, the
bytes of the key, the candidates and the number of legs that may be under way. -/
structure Query where
  net : Network
  reply : NodeID → MsgGet → Except String MsgGetResp
  bk : Bytes
  cands : List NodeID
  maxFanout : Int

/-- What happens in an iteration: whether the timer comes first, if it has not fired yet, and
otherwise which of the answers in the channel arrives. -/
structure Choice where
  timer : Bool
  arrival : Nat

/-- The variables of the loop. `asked` are the candidates whose legs have been started, and
`fired` says that the timer `initial` has fired. -/
structure Reading (K : Type u) (V : Type v) where
  node : Node K V
  resCh : List Leg
  asked : List NodeID
  nextIdx : Nat
  inflight : Int
  lastErr : Option String
  clean : Bool
  hadErr : Bool
  fired : Bool

def Reading.fresh (n : Node K V) : Reading K V := ⟨n, [], [], 0, 0, none, false, false, false⟩

/-- The answer at the place `i` is taken out of the channel. -/
def Reading.takeOut (s : Reading K V) (i : Nat) : Reading K V :=
  { s with resCh := s.resCh.eraseIdx i }

def Reading.note (s : Reading K V) : Leg → Reading K V
  | .failed err => { s with inflight := s.inflight - 1, lastErr := some err, hadErr := true }
  | .miss | .hit _ _ => { s with inflight := s.inflight - 1, clean := true }

/-- An iteration goes on or returns. -/
inductive Turn (K : Type u) (V : Type v) where
  | on (s : Reading K V)
  | returned (result : Except String (Option V)) (s : Reading K V)

namespace Query

/-- `startLeg(nextIdx)`, with the counters. -/
def launch (q : Query) (s : Reading K V) : Reading K V :=
  match q.cands[s.nextIdx]? with
  | none => s
  | some id =>
    let leg := s.node.startLeg q.net q.reply q.bk id
    { s with
      node := leg.2, resCh := s.resCh ++ [leg.1], asked := s.asked ++ [id]
      nextIdx := s.nextIdx + 1, inflight := s.inflight + 1 }

/-- The loop that the timer starts; a tick comes between two legs, and no answer is taken. -/
def hedge (q : Query) : Nat → Reading K V → Reading K V
  | 0, s => s
  | fuel + 1, s =>
    if s.inflight < q.maxFanout ∧ s.nextIdx < q.cands.length then q.hedge fuel (q.launch s) else s

def refill (q : Query) (s : Reading K V) : Turn K V :=
  if s.nextIdx < q.cands.length ∧ s.inflight < q.maxFanout then .on (q.launch s)
  else if s.inflight = 0 ∧ q.cands.length ≤ s.nextIdx then
    if !s.clean && s.hadErr then
      match s.lastErr with
      | some err => .returned (.error err) s
      | none => .returned (.ok none) s
    else .returned (.ok none) s
  else .on s

def receive (q : Query) (s : Reading K V) (rans : Leg) : Turn K V :=
  let s := s.note rans
  match rans with
  | .hit val cp => .returned (s.node.readHit val cp) s
  | .failed _ | .miss => q.refill s

/-- One iteration. With an empty channel only the timer is left to wait for, and `none` means
that it has fired before, so that the loop hangs. -/
def turn (q : Query) (c : Choice) (s : Reading K V) : Option (Turn K V) :=
  if (c.timer || s.resCh.isEmpty) && !s.fired then
    some (.on (q.hedge (q.cands.length - s.nextIdx) { s with fired := true }))
  else
    let i := c.arrival % s.resCh.length
    match s.resCh[i]? with
    | none => none
    | some rans => some (q.receive (s.takeOut i) rans)

/-- The loop; `none` if it hangs or the fuel is used up. -/
def loop (q : Query) (choices : Nat → Choice) :
    Nat → Nat → Reading K V → Option (Except String (Option V) × Reading K V)
  | 0, _, _ => none
  | fuel + 1, i, s =>
    match q.turn (choices i) s with
    | none => none
    | some (.returned result s) => some (result, s)
    | some (.on s) => q.loop choices fuel (i + 1) s

end Query

namespace Node

variable [DecidableEq K]

def readLocal (n : Node K V) (owners : List NodeMeta) (key : K) : Option V × Node K V :=
  if owners.any fun own => own.ID == n.cfg.ID then
    ((n.localCache.Get key).1, { n with localCache := (n.localCache.Get key).2 })
  else (none, n)

/-- What `Get` asks the other owners; a fan-out that is not positive is 2. The candidates are
ordered by the connections `net`, and the legs are started with the connections `dial`. -/
def query (n : Node K V) (net dial : Network)
    (reply : NodeID → MsgGet → Except String MsgGetResp) (ReadMaxFanout : Int) (key : K) : Query :=
  let cands := n.candidates net (n.owners key)
  let fanout := if ReadMaxFanout ≤ 0 then 2 else ReadMaxFanout
  { net := dial
    reply := reply
    bk := n.kc.EncodeKey key
    cands := cands
    maxFanout := if (cands.length : Int) < fanout then cands.length else fanout }

def getHedged (n : Node K V) (net dial : Network)
    (reply : NodeID → MsgGet → Except String MsgGetResp) (ReadMaxFanout : Int)
    (choices : Nat → Choice) (fuel : Nat) (key : K) :
    Option (Except String (Option V) × Reading K V) :=
  let owners := n.owners key
  if owners.isEmpty then some (.error ErrNoOwner, .fresh n)
  else
    let looked := n.readLocal owners key
    match looked.1 with
    | some v => some (.ok (some v), .fresh looked.2)
    | none =>
      let q := n.query net dial reply ReadMaxFanout key
      if q.cands.length = 0 then some (.ok none, .fresh looked.2)
      else q.loop choices fuel 0 (q.launch (.fresh looked.2))

def Leg.isHit : Leg → Bool
  | .hit _ _ => true
  | .failed _ | .miss => false

variable (n : Node K V)

section
omit [DecidableEq K]

theorem readHit_ne_none (val : Bytes) (cp : Bool) : n.readHit val cp ≠ .ok none := by
  unfold readHit
  cases n.maybeDecompress val cp with
  | error err => exact nofun
  | ok vb =>
    simp only
    cases n.codec.Decode vb with
    | error err => exact nofun
    | ok v => exact nofun

/-- A leg takes a request number if there is a connection, and leaves the node alone otherwise. -/
theorem startLeg_node (net : Network) (reply : NodeID → MsgGet → Except String MsgGetResp)
    (bk : Bytes) (id : NodeID) :
    (n.startLeg net reply bk id).2 = if net.connected id then n.nextReqID.2 else n := by
  unfold startLeg
  split_ifs
  · simp only
    cases reply id ⟨n.nextReqID.1, bk⟩ with
    | error err => rfl
    | ok rmsg =>
      simp only
      split_ifs <;> rfl
  · rfl

theorem startLeg_readHit (net : Network) (reply : NodeID → MsgGet → Except String MsgGetResp)
    (bk : Bytes) (id : NodeID) : (n.startLeg net reply bk id).2.readHit = n.readHit := by
  rw [startLeg_node]
  split_ifs
  · rfl
  · rfl

end

end Node

namespace Query

variable {q : Query} {s s' s'' : Reading K V} {all taken : List Leg} {rans : Leg}
  {n : Node K V}

def legs (q : Query) : Node K V → List NodeID → List Leg
  | _, [] => []
  | n, id :: ids =>
    let leg := n.startLeg q.net q.reply q.bk id
    leg.1 :: q.legs leg.2 ids

def outstanding (q : Query) (s : Reading K V) : List Leg :=
  s.resCh ++ q.legs s.node (q.cands.drop s.nextIdx)

structure Launches (q : Query) (s s' : Reading K V) : Prop where
  outstanding : q.outstanding s' = q.outstanding s
  length : s.resCh.length ≤ s'.resCh.length
  inflight : s.inflight = s.resCh.length → s'.inflight = s'.resCh.length
  asked : s.asked = q.cands.take s.nextIdx → s'.asked = q.cands.take s'.nextIdx
  readHit : s'.node.readHit = s.node.readHit
  lastErr : s'.lastErr = s.lastErr
  clean : s'.clean = s.clean
  hadErr : s'.hadErr = s.hadErr
  fired : s'.fired = s.fired

theorem Launches.refl (s : Reading K V) : Launches q s s :=
  ⟨rfl, Nat.le_refl _, id, id, rfl, rfl, rfl, rfl, rfl⟩

theorem Launches.trans (h : Launches q s s') (h' : Launches q s' s'') : Launches q s s'' :=
  ⟨h'.outstanding.trans h.outstanding, h.length.trans h'.length, h'.inflight ∘ h.inflight,
    h'.asked ∘ h.asked, h'.readHit.trans h.readHit, h'.lastErr.trans h.lastErr,
    h'.clean.trans h.clean, h'.hadErr.trans h.hadErr, h'.fired.trans h.fired⟩

theorem launch_spec (h : s.nextIdx < q.cands.length) :
    Launches q s (q.launch s) ∧ (q.launch s).resCh ≠ [] ∧
      (q.launch s).nextIdx = s.nextIdx + 1 := by
  have hget : q.cands[s.nextIdx]? = some q.cands[s.nextIdx] := getElem?_eq_getElem h
  simp only [launch, hget]
  refine ⟨⟨?_, ?_, ?_, ?_, startLeg_readHit .., rfl, rfl, rfl, rfl⟩, by simp, trivial⟩
  · simp only [outstanding, drop_eq_getElem_cons h, legs, append_assoc, cons_append, nil_append]
  · simp
  · intro hcount
    simp [hcount]
  · intro hasked
    rw [take_add_one, hget, hasked]
    rfl

theorem hedge_launches (fuel : Nat) (s : Reading K V) : Launches q s (q.hedge fuel s) := by
  induction fuel generalizing s with
  | zero => exact Launches.refl s
  | succ fuel ih =>
    rw [hedge]
    split_ifs with hmore
    · exact (launch_spec hmore.2).1.trans (ih _)
    · exact Launches.refl s

/-- What the loop of `Get` for the node `n` has when it comes to `select`: `taken` are the answers
it has had, and `all` the answers of all candidates. -/
structure Waits (q : Query) (n : Node K V) (all taken : List Leg) (s : Reading K V) : Prop where
  inflight : s.inflight = s.resCh.length
  asked : s.asked = q.cands.take s.nextIdx
  perm : (taken ++ q.outstanding s).Perm all
  noHit : ∀ leg ∈ taken, leg.isHit = false
  clean : s.clean = true ↔ .miss ∈ taken
  hadErr : s.hadErr = s.lastErr.isSome
  failed : ∀ err, s.lastErr = some err → .failed err ∈ taken
  spared : s.lastErr = none → ∀ err, .failed err ∉ taken
  readHit : s.node.readHit = n.readHit

theorem Waits.launches (h : Waits q n all taken s) (hl : Launches q s s') :
    Waits q n all taken s' where
  inflight := hl.inflight h.inflight
  asked := hl.asked h.asked
  perm := hl.outstanding.symm ▸ h.perm
  noHit := h.noHit
  clean := hl.clean.symm ▸ h.clean
  hadErr := by rw [hl.hadErr, hl.lastErr, h.hadErr]
  failed := hl.lastErr.symm ▸ h.failed
  spared := hl.lastErr.symm ▸ h.spared
  readHit := hl.readHit.trans h.readHit

theorem outstanding_takeOut {i : Nat} (hi : s.resCh[i]? = some rans) :
    (rans :: q.outstanding ((s.takeOut i).note rans)).Perm (q.outstanding s) := by
  obtain ⟨hlt, rfl⟩ := List.getElem?_eq_some_iff.mp hi
  have hsame : q.outstanding ((s.takeOut i).note s.resCh[i]) =
      s.resCh.eraseIdx i ++ q.legs s.node (q.cands.drop s.nextIdx) := by
    cases s.resCh[i] <;> rfl
  rw [hsame, ← cons_append]
  exact (getElem_cons_eraseIdx_perm hlt).append_right _

/-- An answer that is no hit has been taken. -/
theorem Waits.note {i : Nat} (h : Waits q n all taken s) (hi : s.resCh[i]? = some rans)
    (hrans : rans.isHit = false) : Waits q n all (rans :: taken) ((s.takeOut i).note rans) := by
  obtain ⟨hlt, -⟩ := List.getElem?_eq_some_iff.mp hi
  have hcount : s.inflight - 1 = ((s.resCh.eraseIdx i).length : Int) := by
    rw [h.inflight, length_eraseIdx_of_lt hlt]
    omega
  have hperm : (rans :: taken ++ q.outstanding ((s.takeOut i).note rans)).Perm all := by
    rw [cons_append]
    exact (perm_middle.symm.trans ((outstanding_takeOut hi).append_left taken)).trans h.perm
  have hnoHit : ∀ leg ∈ rans :: taken, leg.isHit = false := by
    intro leg hleg
    rcases mem_cons.mp hleg with rfl | hleg
    · exact hrans
    · exact h.noHit leg hleg
  cases rans with
  | failed err =>
    exact
      { inflight := hcount
        asked := h.asked
        perm := hperm
        noHit := hnoHit
        clean := h.clean.trans (by simp)
        hadErr := rfl
        failed := fun e he => by
          cases he
          exact mem_cons_self
        spared := nofun
        readHit := h.readHit }
  | miss =>
    exact
      { inflight := hcount
        asked := h.asked
        perm := hperm
        noHit := hnoHit
        clean := by simp [Reading.note]
        hadErr := h.hadErr
        failed := fun e he => mem_cons_of_mem _ (h.failed e he)
        spared := fun hnone e he => by
          rcases mem_cons.mp he with heq | he
          · cases heq
          · exact h.spared hnone e he
        readHit := h.readHit }
  | hit val cp => cases hrans

/-- What is returned when all answers are in and none is a hit. -/
def conclude (clean : Bool) (lastErr : Option String) : Except String (Option V) :=
  match clean, lastErr with
  | false, some err => .error err
  | _, _ => .ok none

/-- How an iteration ends that has taken an answer other than a hit. -/
inductive Refills (q : Query) (s : Reading K V) : Turn K V → Prop where
  | on {s' : Reading K V} (launches : Launches q s s') (pending : s'.resCh ≠ []) :
      Refills q s (.on s')
  | returned (asked : q.cands.length ≤ s.nextIdx) (channel : s.resCh = []) :
      Refills q s (.returned (conclude s.clean s.lastErr) s)

/-- There is always an answer to wait for, since a leg is started if none is under way. -/
theorem refill_refills (hfan : 1 ≤ q.maxFanout) (hcount : s.inflight = s.resCh.length)
    (herr : s.hadErr = s.lastErr.isSome) : Refills q s (q.refill s) := by
  unfold refill
  split_ifs with hmore hend hall
  · obtain ⟨hl, hne, -⟩ := launch_spec hmore.1
    exact .on hl hne
  · have hempty : s.resCh = [] := length_eq_zero_iff.mp (by omega)
    have hclean : s.clean = false := by simpa using (Bool.and_eq_true_iff.mp hall).1
    have hsome := (Bool.and_eq_true_iff.mp hall).2
    rw [herr, Option.isSome_iff_exists] at hsome
    obtain ⟨err, hlast⟩ := hsome
    have hresult : (conclude s.clean s.lastErr : Except String (Option V)) = .error err := by
      rw [hclean, hlast]
      rfl
    rw [hlast]
    show Refills q s (.returned (.error err) s)
    rw [← hresult]
    exact .returned hend.2 hempty
  · have hempty : s.resCh = [] := length_eq_zero_iff.mp (by omega)
    have hresult : (conclude s.clean s.lastErr : Except String (Option V)) = .ok none := by
      rw [herr] at hall
      cases hc : s.clean <;> cases hl : s.lastErr <;> simp_all [conclude]
    exact hresult ▸ .returned hend.2 hempty
  · refine .on (Launches.refl s) fun hempty => ?_
    rw [hempty, length_nil] at hcount
    omega

/-- What an iteration does: the timer fires, a hit is returned, or another answer is taken. -/
inductive Iterates (q : Query) (c : Choice) (s : Reading K V) : Turn K V → Prop where
  | fired {s' : Reading K V} (unfired : s.fired = false)
      (launches : Launches q { s with fired := true } s') : Iterates q c s (.on s')
  | hit {i : Nat} {val : Bytes} {cp : Bool} (answer : s.resCh[i]? = some (.hit val cp))
      (first : c.arrival = 0 → i = 0) :
      Iterates q c s (.returned (s.node.readHit val cp) ((s.takeOut i).note (.hit val cp)))
  | other {i : Nat} {rans : Leg} {t : Turn K V} (answer : s.resCh[i]? = some rans)
      (first : c.arrival = 0 → i = 0) (noHit : rans.isHit = false)
      (refills : Refills q ((s.takeOut i).note rans) t) : Iterates q c s t

theorem turn_iterates (hfan : 1 ≤ q.maxFanout) (h : Waits q n all taken s) (hne : s.resCh ≠ [])
    (c : Choice) : ∃ t, q.turn c s = some t ∧ Iterates q c s t := by
  unfold turn
  split_ifs with htimer
  · have hunfired : s.fired = false := by simpa using (Bool.and_eq_true_iff.mp htimer).2
    exact ⟨_, rfl, .fired hunfired (hedge_launches _ _)⟩
  · have hpos : 0 < s.resCh.length := length_pos_iff.mpr hne
    have hlt : c.arrival % s.resCh.length < s.resCh.length := Nat.mod_lt _ hpos
    have hfirst : c.arrival = 0 → c.arrival % s.resCh.length = 0 := fun h0 => by
      rw [h0, Nat.zero_mod]
    generalize c.arrival % s.resCh.length = i at hlt hfirst
    have hi : s.resCh[i]? = some s.resCh[i] := getElem?_eq_getElem hlt
    simp only [hi]
    refine ⟨_, rfl, ?_⟩
    cases hrans : s.resCh[i] with
    | hit val cp => exact .hit (hrans ▸ hi) hfirst
    | failed err =>
      have hw := h.note (hrans ▸ hi) rfl
      exact .other (hrans ▸ hi) hfirst rfl (refill_refills hfan hw.inflight hw.hadErr)
    | miss =>
      have hw := h.note (hrans ▸ hi) rfl
      exact .other (hrans ▸ hi) hfirst rfl (refill_refills hfan hw.inflight hw.hadErr)

structure Answers (q : Query) (n : Node K V) (all : List Leg)
    (result : Except String (Option V)) (s : Reading K V) : Prop where
  asked : s.asked <+: q.cands
  miss : result = .ok none → s.asked = q.cands ∧ s.resCh = [] ∧
    (∀ leg ∈ all, leg.isHit = false) ∧ .miss ∈ all
  error : ∀ err, result = .error err →
    (∃ val cp, .hit val cp ∈ all ∧ n.readHit val cp = .error err) ∨
      .failed err ∈ all ∧ ∀ leg ∈ all, ∃ e, leg = .failed e

/-- The first hit counts, and without one the last error unless there was a miss. -/
def verdict (read : Bytes → Bool → Except String (Option V)) :
    Bool → Option String → List Leg → Except String (Option V)
  | clean, lastErr, [] => conclude clean lastErr
  | clean, _, .failed err :: rest => verdict read clean (some err) rest
  | _, lastErr, .miss :: rest => verdict read true lastErr rest
  | _, _, .hit val cp :: _ => read val cp

theorem outstanding_eq_nil (hasked : q.cands.length ≤ s.nextIdx) (hchannel : s.resCh = []) :
    q.outstanding s = [] := by
  rw [outstanding, hchannel, drop_eq_nil_of_le hasked]
  rfl

theorem Waits.answers_hit {i : Nat} {val : Bytes} {cp : Bool} (h : Waits q n all taken s)
    (hi : s.resCh[i]? = some (.hit val cp)) :
    Answers q n all (s.node.readHit val cp) ((s.takeOut i).note (.hit val cp)) where
  asked := by
    show s.asked <+: q.cands
    rw [h.asked]
    exact take_prefix _ _
  miss hnone := absurd hnone (readHit_ne_none _ _ _)
  error err herr := by
    have hmem : .hit val cp ∈ taken ++ q.outstanding s :=
      mem_append_right _ (mem_append_left _ (mem_of_getElem? hi))
    rw [h.readHit] at herr
    exact .inl ⟨val, cp, h.perm.mem_iff.mp hmem, herr⟩

/-- All answers are in, the last one of them `rans`, and none is a hit. -/
theorem Waits.answers_end (h : Waits q n all (rans :: taken) s)
    (hasked : q.cands.length ≤ s.nextIdx) (hchannel : s.resCh = []) :
    Answers q n all (conclude s.clean s.lastErr) s := by
  have hperm := h.perm
  rw [outstanding_eq_nil hasked hchannel, append_nil] at hperm
  have hwhole : s.asked = q.cands := h.asked.trans (take_of_length_le hasked)
  have hnoHit : ∀ leg ∈ all, leg.isHit = false := fun leg hleg =>
    h.noHit leg (hperm.mem_iff.mpr hleg)
  refine ⟨hwhole ▸ prefix_refl _, fun hnone => ⟨hwhole, hchannel, hnoHit, ?_⟩, fun err herr => ?_⟩
  · refine hperm.mem_iff.mp ?_
    cases hclean : s.clean with
    | true => exact h.clean.mp hclean
    | false =>
      -- without an error either, the last answer can only have been a miss
      cases hlast : s.lastErr with
      | some err =>
        rw [hclean, hlast] at hnone
        cases hnone
      | none =>
        cases rans with
        | failed err => exact absurd mem_cons_self (h.spared hlast err)
        | miss => exact mem_cons_self
        | hit val cp => cases h.noHit _ mem_cons_self
  · cases hclean : s.clean with
    | true =>
      rw [hclean] at herr
      cases herr
    | false =>
      cases hlast : s.lastErr with
      | none =>
        rw [hclean, hlast] at herr
        cases herr
      | some err' =>
        rw [hclean, hlast] at herr
        cases herr
        refine .inr ⟨hperm.mem_iff.mp (h.failed err hlast), fun leg hleg => ?_⟩
        cases leg with
        | failed e => exact ⟨e, rfl⟩
        | miss =>
          have hmiss := h.clean.mpr (hperm.mem_iff.mpr hleg)
          rw [hclean] at hmiss
          cases hmiss
        | hit val cp => cases hnoHit _ hleg

theorem outstanding_first (hi : s.resCh[0]? = some rans) :
    q.outstanding s = rans :: q.outstanding ((s.takeOut 0).note rans) := by
  have hsame : q.outstanding ((s.takeOut 0).note rans) =
      s.resCh.eraseIdx 0 ++ q.legs s.node (q.cands.drop s.nextIdx) := by
    cases rans <;> rfl
  rw [hsame, outstanding]
  cases hch : s.resCh with
  | nil =>
    rw [hch] at hi
    cases hi
  | cons leg rest =>
    rw [hch] at hi
    cases hi
    rfl

theorem verdict_note (read : Bytes → Bool → Except String (Option V)) (hrans : rans.isHit = false)
    (s : Reading K V) (i : Nat) (rest : List Leg) :
    verdict read s.clean s.lastErr (rans :: rest) =
      verdict read ((s.takeOut i).note rans).clean ((s.takeOut i).note rans).lastErr rest := by
  cases rans with
  | failed err => rfl
  | miss => rfl
  | hit val cp => cases hrans

def left (q : Query) (s : Reading K V) : Nat :=
  (q.outstanding s).length + if s.fired then 0 else 1

theorem outstanding_ne_nil (hne : s.resCh ≠ []) : 0 < (q.outstanding s).length := by
  rw [outstanding, length_append]
  have := length_pos_iff.mpr hne
  omega

def due (q : Query) (n : Node K V) (s : Reading K V) : Except String (Option V) :=
  verdict n.readHit s.clean s.lastErr (q.outstanding s)

theorem Launches.due (h : Launches q s s') (n : Node K V) : q.due n s' = q.due n s := by
  rw [Query.due, h.clean, h.lastErr, h.outstanding, Query.due]

theorem due_note (n : Node K V) (hi : s.resCh[0]? = some rans) (hrans : rans.isHit = false) :
    q.due n ((s.takeOut 0).note rans) = q.due n s := by
  rw [due, due, outstanding_first hi, verdict_note n.readHit hrans s 0]

/-- An iteration that goes on has brought the loop closer to its end. -/
theorem Iterates.on {c : Choice} (h : Waits q n all taken s) (hne : s.resCh ≠ [])
    (hiter : Iterates q c s (.on s')) :
    (∃ taken', Waits q n all taken' s') ∧ s'.resCh ≠ [] ∧ q.left s' < q.left s ∧
      (c.arrival = 0 → q.due n s' = q.due n s) := by
  cases hiter with
  | fired unfired launches =>
    have hfired : Waits q n all taken { s with fired := true } :=
      ⟨h.inflight, h.asked, h.perm, h.noHit, h.clean, h.hadErr, h.failed, h.spared, h.readHit⟩
    refine ⟨⟨taken, hfired.launches launches⟩, fun hnil => ?_, ?_, fun _ => launches.due n⟩
    · have hle := launches.length
      rw [hnil] at hle
      exact hne (length_eq_zero_iff.mp (Nat.le_zero.mp hle))
    · have hsame : q.outstanding s' = q.outstanding s := launches.outstanding
      have hyes : s'.fired = true := launches.fired
      rw [left, left, hsame, hyes, unfired]
      exact Nat.lt_succ_self _
  | @other i rans t answer first noHit refills =>
    cases refills with
    | on launches pending =>
      refine ⟨⟨_, (h.note answer noHit).launches launches⟩, pending, ?_, fun hzero => ?_⟩
      · have hlength := (outstanding_takeOut (q := q) answer).length_eq
        have hsame : ((s.takeOut i).note rans).fired = s.fired := by cases rans <;> rfl
        rw [length_cons] at hlength
        rw [left, left, launches.outstanding, launches.fired, hsame]
        omega
      · rw [first hzero] at answer launches
        rw [launches.due n, due_note n answer noHit]

theorem Iterates.returned {c : Choice} {result : Except String (Option V)}
    (h : Waits q n all taken s) (hiter : Iterates q c s (.returned result s')) :
    Answers q n all result s' ∧ (c.arrival = 0 → result = q.due n s) := by
  cases hiter with
  | hit answer first =>
    refine ⟨h.answers_hit answer, fun hzero => ?_⟩
    rw [first hzero] at answer
    rw [due, outstanding_first answer, h.readHit]
    rfl
  | other answer first noHit refills =>
    cases refills with
    | returned asked channel =>
      refine ⟨(h.note answer noHit).answers_end asked channel, fun hzero => ?_⟩
      rw [first hzero] at answer asked channel
      rw [← due_note n answer noHit, due, outstanding_eq_nil asked channel, first hzero]
      rfl

/-- The loop returns, whatever happens in its iterations. -/
theorem loop_spec (hfan : 1 ≤ q.maxFanout) (choices : Nat → Choice) {fuel i : Nat}
    (h : Waits q n all taken s) (hne : s.resCh ≠ []) (hfuel : q.left s ≤ fuel) :
    ∃ result s', q.loop choices fuel i s = some (result, s') ∧ Answers q n all result s' ∧
      ((∀ i, (choices i).arrival = 0) → result = q.due n s) := by
  induction fuel generalizing i s taken with
  | zero =>
    have hpos := outstanding_ne_nil (q := q) hne
    rw [left] at hfuel
    omega
  | succ fuel ih =>
    obtain ⟨t, ht, hiter⟩ := turn_iterates hfan h hne (choices i)
    simp only [loop, ht]
    cases t with
    | on s' =>
      obtain ⟨⟨taken', hwaits⟩, hpending, hless, hdue⟩ := hiter.on h hne
      obtain ⟨result, s₁, hrun, hans, hfifo⟩ := ih (i := i + 1) hwaits hpending (by omega)
      exact ⟨result, s₁, hrun, hans, fun hall => (hfifo hall).trans (hdue (hall i))⟩
    | returned result s' =>
      obtain ⟨hans, hdue⟩ := hiter.returned h
      exact ⟨result, s', rfl, hans, fun hall => hdue (hall i)⟩

/-- A leg depends on the number of requests so far and on nothing else of the node. -/
theorem startLeg_congr {m : Node K V} (h : m.reqID = n.reqID) (id : NodeID) :
    (m.startLeg q.net q.reply q.bk id).1 = (n.startLeg q.net q.reply q.bk id).1 ∧
      (m.startLeg q.net q.reply q.bk id).2.reqID = (n.startLeg q.net q.reply q.bk id).2.reqID := by
  constructor
  · simp only [startLeg, nextReqID, h]
    split_ifs
    · cases q.reply id ⟨n.reqID + 1, q.bk⟩ with
      | error err => rfl
      | ok rmsg =>
        simp only
        split_ifs <;> rfl
    · rfl
  · rw [startLeg_node, startLeg_node]
    split_ifs
    · exact congrArg (· + 1) h
    · exact h

theorem legs_congr {m : Node K V} (h : m.reqID = n.reqID) (ids : List NodeID) :
    q.legs m ids = q.legs n ids := by
  induction ids generalizing m n with
  | nil => rfl
  | cons id ids ih =>
    obtain ⟨hleg, hreq⟩ := startLeg_congr (q := q) h id
    simp only [legs]
    rw [hleg, ih hreq]

theorem length_legs (n : Node K V) (ids : List NodeID) : (q.legs n ids).length = ids.length := by
  induction ids generalizing n with
  | nil => rfl
  | cons id ids ih => simp only [legs, length_cons, ih]

/-- The first leg has been started. -/
theorem launch_fresh_waits (hcands : q.cands.length ≠ 0) (n : Node K V) :
    Waits q n (q.legs n q.cands) [] (q.launch (.fresh n)) ∧
      (q.launch (.fresh n)).resCh ≠ [] ∧ q.left (q.launch (.fresh n)) = q.cands.length + 1 := by
  obtain ⟨hl, hne, -⟩ := launch_spec (q := q) (s := Reading.fresh n) (Nat.pos_of_ne_zero hcands)
  have hfresh : Waits q n (q.legs n q.cands) [] (.fresh n) :=
    ⟨rfl, rfl, .refl _, nofun, ⟨nofun, nofun⟩, rfl, nofun, nofun, rfl⟩
  have hall : (q.outstanding (.fresh n)).length = q.cands.length := length_legs n q.cands
  refine ⟨hfresh.launches hl, hne, ?_⟩
  rw [left, hl.outstanding, hl.fired, hall]
  rfl

/-- Taking the answers in the order of the candidates gives the verdict on all of them. -/
theorem awaitLegs_eq_verdict (n : Node K V) (clean : Bool) (lastErr : Option String)
    (ids : List NodeID) : (n.awaitLegs q.net q.reply q.bk clean lastErr ids).1 =
      verdict n.readHit clean lastErr (q.legs n ids) := by
  induction ids generalizing n clean lastErr with
  | nil => cases clean <;> cases lastErr <;> rfl
  | cons id ids ih =>
    have hread := startLeg_readHit n q.net q.reply q.bk id
    simp only [awaitLegs, legs]
    cases (n.startLeg q.net q.reply q.bk id).1 with
    | failed err => rw [verdict, ih, hread]
    | miss => rw [verdict, ih, hread]
    | hit val cp => rw [verdict, hread]

end Query

namespace Node

section Hedged
variable (n : Node K V) (net dial : Network)
  (reply : NodeID → MsgGet → Except String MsgGetResp) (ReadMaxFanout : Int) (key : K)

def candidateLegs : List Leg :=
  (n.query net dial reply ReadMaxFanout key).legs n (n.candidates net (n.owners key))

theorem one_le_maxFanout (h : (n.query net dial reply ReadMaxFanout key).cands.length ≠ 0) :
    1 ≤ (n.query net dial reply ReadMaxFanout key).maxFanout := by
  have hpos : 0 < (n.candidates net (n.owners key)).length := Nat.pos_of_ne_zero h
  simp only [query]
  split_ifs <;> omega

variable [DecidableEq K]

theorem readLocal_same (owners : List NodeMeta) :
    (n.readLocal owners key).2.reqID = n.reqID ∧
      (n.readLocal owners key).2.readHit = n.readHit := by
  unfold readLocal
  split_ifs
  · exact ⟨rfl, rfl⟩
  · exact ⟨rfl, rfl⟩

/-- How a read ends: without an owner, with the local copy, without candidates, or with what the
loop answers. -/
inductive Reads : Except String (Option V) → Reading K V → Prop where
  | noOwner (owners : n.owners key = []) : Reads (.error ErrNoOwner) (.fresh n)
  | copied {v : V} (copy : (n.readLocal (n.owners key) key).1 = some v) :
      Reads (.ok (some v)) (.fresh (n.readLocal (n.owners key) key).2)
  | alone (cands : n.candidates net (n.owners key) = []) :
      Reads (.ok none) (.fresh (n.readLocal (n.owners key) key).2)
  | answered {result : Except String (Option V)} {s : Reading K V}
      (answers : (n.query net dial reply ReadMaxFanout key).Answers n
        (n.candidateLegs net dial reply ReadMaxFanout key) result s) : Reads result s

/-- A read returns. If the answers are taken in the order in which they were put into the channel,
it returns what `Get` without timers returns. -/
theorem getHedged_reads (choices : Nat → Choice) (extra : Nat) :
    ∃ result s, n.getHedged net dial reply ReadMaxFanout choices
        ((n.candidates net (n.owners key)).length + 1 + extra) key = some (result, s) ∧
      n.Reads net dial reply ReadMaxFanout key result s ∧
      (dial = net → (∀ i, (choices i).arrival = 0) → result = (n.Get net reply key).1) := by
  have hget : n.Get net reply key = if (n.owners key).isEmpty then (.error ErrNoOwner, n) else
      match (n.readLocal (n.owners key) key).1 with
      | some v => (.ok (some v), (n.readLocal (n.owners key) key).2)
      | none =>
        (n.readLocal (n.owners key) key).2.awaitLegs net reply (n.kc.EncodeKey key) false none
        (n.candidates net (n.owners key)) := rfl
  obtain ⟨hreq, hread⟩ := n.readLocal_same key (n.owners key)
  rw [hget]
  simp only [getHedged]
  split_ifs with hnone hcands
  · exact ⟨_, _, rfl, .noOwner (isEmpty_iff.mp hnone), fun _ _ => rfl⟩
  · cases hcopy : (n.readLocal (n.owners key) key).1 with
    | some v => exact ⟨_, _, rfl, .copied hcopy, fun _ _ => rfl⟩
    | none =>
      have hnil : n.candidates net (n.owners key) = [] := length_eq_zero_iff.mp hcands
      refine ⟨_, _, rfl, .alone hnil, fun _ _ => ?_⟩
      rw [hnil]
      rfl
  · cases hcopy : (n.readLocal (n.owners key) key).1 with
    | some v => exact ⟨_, _, rfl, .copied hcopy, fun _ _ => rfl⟩
    | none =>
      have hlegs : (n.query net dial reply ReadMaxFanout key).legs
          (n.readLocal (n.owners key) key).2 (n.query net dial reply ReadMaxFanout key).cands =
            n.candidateLegs net dial reply ReadMaxFanout key := Query.legs_congr hreq _
      obtain ⟨hwaits, hne, hleft⟩ :=
        Query.launch_fresh_waits hcands (n.readLocal (n.owners key) key).2
      obtain ⟨result, s, hrun, hans, hfifo⟩ := Query.loop_spec (i := 0)
        (n.one_le_maxFanout net dial reply ReadMaxFanout key hcands) choices hwaits hne
        (hleft.trans_le (Nat.le_add_right _ extra))
      rw [hlegs] at hans
      refine ⟨result, s, hrun, .answered ⟨hans.asked, hans.miss, ?_⟩, fun hdial hall => ?_⟩
      · rw [← hread]
        exact hans.error
      · subst hdial
        obtain ⟨hl, -, -⟩ := Query.launch_spec (q := n.query dial dial reply ReadMaxFanout key)
          (s := .fresh (n.readLocal (n.owners key) key).2) (Nat.pos_of_ne_zero hcands)
        rw [hfifo hall, hl.due]
        exact (Query.awaitLegs_eq_verdict (q := n.query dial dial reply ReadMaxFanout key) _ false
          none (n.candidates dial (n.owners key))).symm

/-- For every list of owners, local copy, fan-out, answers of the legs, order in which they arrive
and moment at which the timer fires, a read ends after it has started the legs of some first
candidates, each once. It returns a miss only if every leg has been answered, none with a hit and
one of them with a clean miss, or there are no candidates; an error that is not its own and not
that of a hit which does not decode only if every leg has failed; and a hit if there is one and all
of them decode. -/
theorem getHedged_outcome (choices : Nat → Choice) (extra : Nat) :
    ∃ result s, n.getHedged net dial reply ReadMaxFanout choices
        ((n.candidates net (n.owners key)).length + 1 + extra) key = some (result, s) ∧
      s.asked <+: n.candidates net (n.owners key) ∧
      (result = .ok none → s.asked = n.candidates net (n.owners key) ∧ s.resCh = [] ∧
        (∀ leg ∈ n.candidateLegs net dial reply ReadMaxFanout key, leg.isHit = false) ∧
        (n.candidates net (n.owners key) = [] ∨
          .miss ∈ n.candidateLegs net dial reply ReadMaxFanout key)) ∧
      (∀ err, result = .error err → n.owners key = [] ∧ err = ErrNoOwner ∨
        (∃ val cp, .hit val cp ∈ n.candidateLegs net dial reply ReadMaxFanout key ∧
          n.readHit val cp = .error err) ∨
        .failed err ∈ n.candidateLegs net dial reply ReadMaxFanout key ∧
          ∀ leg ∈ n.candidateLegs net dial reply ReadMaxFanout key, ∃ e, leg = .failed e) ∧
      ((∃ leg ∈ n.candidateLegs net dial reply ReadMaxFanout key, leg.isHit = true) →
        (∀ val cp, .hit val cp ∈ n.candidateLegs net dial reply ReadMaxFanout key →
          ∃ v, n.readHit val cp = .ok (some v)) → ∃ v, result = .ok (some v)) := by
  obtain ⟨result, s, hrun, hreads, -⟩ :=
    n.getHedged_reads net dial reply ReadMaxFanout key choices extra
  refine ⟨result, s, hrun, ?_⟩
  have hnoLegs : n.candidates net (n.owners key) = [] →
      n.candidateLegs net dial reply ReadMaxFanout key = [] := fun h => by
    rw [candidateLegs, h]
    rfl
  cases hreads with
  | noOwner owners =>
    have hnil : n.candidates net (n.owners key) = [] := by
      rw [owners]
      rfl
    rw [hnoLegs hnil]
    exact ⟨List.nil_prefix, nofun,
      fun err herr => .inl ⟨owners, (Except.error.inj herr).symm⟩, nofun⟩
  | copied copy => exact ⟨List.nil_prefix, nofun, nofun, fun _ _ => ⟨_, rfl⟩⟩
  | alone cands =>
    rw [hnoLegs cands, cands]
    exact ⟨List.nil_prefix, fun _ => ⟨rfl, rfl, nofun, .inl rfl⟩, nofun, nofun⟩
  | answered answers =>
    refine ⟨answers.asked, fun hnone => ?_, fun err herr => .inr (answers.error err herr), ?_⟩
    · obtain ⟨hasked, hchannel, hnoHit, hmiss⟩ := answers.miss hnone
      exact ⟨hasked, hchannel, hnoHit, .inr hmiss⟩
    · rintro ⟨leg, hleg, hhit⟩ hdecode
      match result, answers with
      | .ok (some v), _ => exact ⟨v, rfl⟩
      | .ok none, answers =>
        rw [(answers.miss rfl).2.2.1 leg hleg] at hhit
        cases hhit
      | .error err, answers =>
        rcases answers.error err rfl with ⟨val, cp, hmem, hbad⟩ | ⟨-, hfailed⟩
        · obtain ⟨v, hgood⟩ := hdecode val cp hmem
          rw [hgood] at hbad
          cases hbad
        · obtain ⟨e, rfl⟩ := hfailed leg hleg
          cases hhit

end Hedged

end Node

end Kioshun
