import Kioshun.Cluster.Transport

/-!
# Responses reach the requests they answer

A channel is in the hands of the read loop from the moment its entry is out of the table,
and nobody else sends on it or closes it. That is what keeps a frame from reaching two
calls, and a channel from being closed twice, although the table is shared.
-/

namespace Kioshun
open Function List

namespace PeerConn

variable {R : Type} (id : R → UInt64) (decode : Bytes → Option UInt64)

/-- Nothing has been sent on the channel of the call, and it has not been closed. -/
def Fresh (s : PeerConn R) (r : R) : Prop := r ∉ s.closes ∧ ∀ f, (r, f) ∉ s.sends

/-- The read loop may close the channels it gets from the table: the entries are fresh. -/
def Clean (s : PeerConn R) : Prop := ∀ x r, s.pend x = some r → s.Fresh r

/-- The frame is the last one that was read, its ID is `x` and it has not been sent to anyone. -/
structure Current (frames : List Bytes) (sends : List (R × Frame)) (f : Frame) (x : UInt64) :
    Prop where
  last : f.seq + 1 = frames.length
  read : frames[f.seq]? = some f.buf
  ID : decode f.buf = some x
  unsent : ∀ p ∈ sends, p.2.seq < f.seq

/-- What `Range` may still report has not been closed. -/
def Unvisited (s : PeerConn R) (visited : List UInt64) : Prop :=
  ∀ x r, s.mapped x = some r → x = id r ∧ s.chan r ≠ none ∧ (x ∉ visited → r ∉ s.closes)

/-- What the read loop can rely on at each of its points. -/
def ReaderSound (s : PeerConn R) : Reader R → Prop
  | .reading => s.Clean
  | .loading f x => s.Clean ∧ Current decode s.frames s.sends f x
  | .removing f x r =>
    s.Clean ∧ Current decode s.frames s.sends f x ∧ x = id r ∧ s.Fresh r ∧ s.chan r ≠ none
  | .sending f r =>
    s.Clean ∧ Current decode s.frames s.sends f (id r) ∧ s.Fresh r ∧ s.chan r ≠ none ∧
      ∀ x, s.pend x ≠ some r
  | .closing r => s.Clean ∧ r ∉ s.closes ∧ s.chan r ≠ none ∧ ∃ f, (r, f) ∈ s.sends
  | .ranging visited => s.Unvisited id visited
  | .shutting visited r =>
    s.Unvisited id visited ∧ id r ∈ visited ∧ r ∉ s.closes ∧ s.chan r ≠ none
  | .ended => True

/-- The state of a channel agrees with what has been sent on it and whether it was closed. -/
structure ChanSound (sends : List (R × Frame)) (closes : List R) (r : R) (c : Chan Frame) :
    Prop where
  cap : c.cap = 1
  closed : c.closed = true ↔ r ∈ closes
  buf : ∀ f ∈ c.buf, (r, f) ∈ sends

structure Sound (s : PeerConn R) : Prop where
  early : ∀ r, (s.call r).early = true → s.chan r = none
  unmade : ∀ r, s.chan r = none → s.Fresh r
  chans : ∀ r c, s.chan r = some c → ChanSound s.sends s.closes r c
  pend : ∀ x r, s.pend x = some r → x = id r ∧ s.chan r ≠ none
  payload : ∀ r f, (s.call r).payload = some f → (r, f) ∈ s.sends
  sent : ∀ r f, (r, f) ∈ s.sends → s.frames[f.seq]? = some f.buf ∧ decode f.buf = some (id r)
  order : s.sends.Pairwise fun p q => p.2.seq < q.2.seq
  once : (s.sends.map Prod.fst).Nodup
  closes : s.closes.Nodup
  withdrawn : ∀ r, (s.call r).withdrawn = true → s.pend (id r) = none
  alive : s.crashed = false
  reader : s.ReaderSound id decode s.reader

variable {id decode} in
theorem Sound.reader_at {s : PeerConn R} {reader : Reader R} (h : s.Sound id decode)
    (hr : s.reader = reader) : s.ReaderSound id decode reader :=
  hr ▸ h.reader

theorem sound_start [DecidableEq R] (inflight : Nat) :
    (start inflight : PeerConn R).Sound id decode where
  early _ _ := rfl
  unmade _ _ := ⟨not_mem_nil, fun _ => not_mem_nil⟩
  chans _ _ h := nomatch h
  pend _ _ h := nomatch h
  payload _ _ h := nomatch h
  sent _ _ h := nomatch h
  order := List.Pairwise.nil
  once := nodup_nil
  closes := nodup_nil
  withdrawn _ h := nomatch h
  alive := rfl
  reader _ _ h := nomatch h

variable {c : Chan Frame} {r' : R} {f : Frame}

section Calls

def Entered (s s' : PeerConn R) (x : UInt64) (r : R) : Prop :=
  x = id r ∧ s.call r = .registering ∧ s'.chan r ≠ none

structure CallStep (s s' : PeerConn R) : Prop where
  reader : s'.reader = s.reader
  frames : s'.frames = s.frames
  sends : s'.sends = s.sends
  closes : s'.closes = s.closes
  crashed : s'.crashed = s.crashed
  call : ∀ r, s'.call r = s.call r ∨ (s.call r).Next (s'.call r)
  payload : ∀ r f, s'.call r = .leaving (.ok f) → s.call r = s'.call r ∨
    ∃ c, s.chan r = some c ∧ f ∈ c.buf
  early : ∀ r, (s'.call r).early = true → s'.chan r = s.chan r
  made : ∀ r, s.chan r ≠ none → s'.chan r ≠ none
  chans : ∀ r c', s'.chan r = some c' → (s.call r = .registering ∧ c' = Chan.make 1) ∨
    ∃ c, s.chan r = some c ∧ c'.cap = c.cap ∧ c'.closed = c.closed ∧ c'.buf ⊆ c.buf
  pend : ∀ x r, s'.pend x = some r → s.pend x = some r ∨ Entered id s s' x r
  mapped : ∀ x r, s'.mapped x = some r → s.mapped x = some r ∨ Entered id s s' x r
  withdrawn : ∀ r, (s'.call r).withdrawn = true → (s.call r).withdrawn = true ∨
    s'.pend (id r) = none

variable {id decode} {s s' : PeerConn R}

theorem chan_kept {c' : Chan Frame} {r : R} (h : s.chan r = some c') :
    (s.call r = .registering ∧ c' = Chan.make 1) ∨
      ∃ c, s.chan r = some c ∧ c'.cap = c.cap ∧ c'.closed = c.closed ∧ c'.buf ⊆ c.buf :=
  .inr ⟨c', h, rfl, rfl, List.Subset.refl _⟩

theorem CallStep.refl (s : PeerConn R) : CallStep id s s where
  reader := rfl
  frames := rfl
  sends := rfl
  closes := rfl
  crashed := rfl
  call _ := .inl rfl
  payload _ _ _ := .inl rfl
  early _ _ := rfl
  made _ h := h
  chans _ _ h := chan_kept h
  pend _ _ h := .inl h
  mapped _ _ h := .inl h
  withdrawn _ h := .inl h

theorem CallStep.guard {c : Prop} [Decidable c] (h : c → CallStep id s s') :
    CallStep id s (if c then s' else s) := by
  split_ifs with hc
  · exact h hc
  · exact .refl s

theorem CallStep.inflight (h : CallStep id s s') (c : Chan Unit) :
    CallStep id s { s' with inflightCh := c } := { h with }

theorem CallStep.penalty (h : CallStep id s s') (p : Penalty) :
    CallStep id s { s' with penalty := p } := { h with }

variable [DecidableEq R] {r : R} {stage : Stage}

theorem call_moveTo (hnext : (s.call r).Next stage) (r' : R) :
    update s.call r stage r' = s.call r' ∨
      (s.call r').Next (update s.call r stage r') := by
  by_cases hr : r' = r
  · subst hr
    rw [update_self]
    exact .inr hnext
  · exact .inl (update_of_ne hr _ _)

/-- A property of the stage of a call that has moved: its new stage has it, or nothing changed. -/
theorem of_moveTo {P : Stage → Prop} (h : P (update s.call r stage r')) :
    (r' = r ∧ P stage) ∨ (r' ≠ r ∧ P (s.call r')) := by
  by_cases hr : r' = r
  · subst hr
    rw [update_self] at h
    exact .inl ⟨rfl, h⟩
  · rw [update_of_ne hr] at h
    exact .inr ⟨hr, h⟩

/-- A step that moves a call, changes its channel and enters or removes it in the tables. -/
theorem CallStep.moved {chan : R → Option (Chan Frame)} {pend mapped : UInt64 → Option R}
    (hnext : (s.call r).Next stage)
    (hpay : ∀ f, stage = .leaving (.ok f) → ∃ c, s.chan r = some c ∧ f ∈ c.buf)
    (hothers : ∀ r', r' ≠ r → chan r' = s.chan r')
    (hown : chan r = s.chan r ∨ stage.early = false ∧ ∃ c', chan r = some c' ∧
      ((s.call r = .registering ∧ c' = Chan.make 1) ∨
        ∃ c, s.chan r = some c ∧ c'.cap = c.cap ∧ c'.closed = c.closed ∧ c'.buf ⊆ c.buf))
    (hpend : ∀ x r', pend x = some r' → s.pend x = some r' ∨
      x = id r' ∧ s.call r' = .registering ∧ chan r' ≠ none)
    (hmapped : ∀ x r', mapped x = some r' → s.mapped x = some r' ∨
      x = id r' ∧ s.call r' = .registering ∧ chan r' ≠ none)
    (hw : stage.withdrawn = true → (s.call r).withdrawn = true ∨ pend (id r) = none) :
    CallStep id s ({ s with chan := chan, pend := pend, mapped := mapped }.moveTo r stage) where
  reader := rfl
  frames := rfl
  sends := rfl
  closes := rfl
  crashed := rfl
  call := call_moveTo hnext
  payload r' f h := by
    obtain ⟨rfl, hstage⟩ | ⟨hr, -⟩ := of_moveTo (P := (· = .leaving (.ok f))) h
    · exact .inr (hpay f hstage)
    · exact .inl (update_of_ne hr _ _).symm
  early r' h := by
    obtain ⟨rfl, hearly⟩ | ⟨hr, -⟩ := of_moveTo (P := (Stage.early · = true)) h
    · obtain hsame | ⟨hlate, -⟩ := hown
      · exact hsame
      · rw [hlate] at hearly
        cases hearly
    · exact hothers r' hr
  made r' h := by
    by_cases hr : r' = r
    · subst hr
      obtain hsame | ⟨-, c', hc', -⟩ := hown
      · exact fun hnone => h (hsame ▸ hnone)
      · exact fun hnone => by cases hc'.symm.trans hnone
    · exact fun hnone => h ((hothers r' hr).symm.trans hnone)
  chans r' c' h := by
    by_cases hr : r' = r
    · subst hr
      obtain hsame | ⟨-, c, hc, hcase⟩ := hown
      · exact chan_kept (hsame.symm.trans h)
      · obtain rfl := Option.some.inj (hc.symm.trans h)
        exact hcase
    · exact chan_kept ((hothers r' hr).symm.trans h)
  pend := hpend
  mapped := hmapped
  withdrawn r' h := by
    obtain ⟨rfl, hstage⟩ | ⟨-, hstage⟩ := of_moveTo (P := (Stage.withdrawn · = true)) h
    · exact hw hstage
    · exact .inl hstage

/-- A step that changes nothing but the stage of the call. -/
theorem CallStep.move (hnext : (s.call r).Next stage) (hpay : ∀ f, stage ≠ .leaving (.ok f))
    (hw : stage.withdrawn = true → (s.call r).withdrawn = true) :
    CallStep id s (s.moveTo r stage) :=
  .moved hnext (fun f h => absurd h (hpay f)) (fun _ _ => rfl) (.inl rfl) (fun _ _ => .inl)
    (fun _ _ => .inl) fun h => .inl (hw h)

theorem store_entry {m : UInt64 → Option R} {x : UInt64} (hstage : s.call r = .registering)
    (h : update m (id r) (some r) x = some r') :
    m x = some r' ∨ x = id r' ∧ s.call r' = .registering ∧
      update s.chan r (some (Chan.make 1)) r' ≠ none := by
  by_cases hx : x = id r
  · subst hx
    rw [update_self] at h
    cases h
    exact .inr ⟨rfl, hstage, by simp⟩
  · rw [update_of_ne hx] at h
    exact .inl h

theorem store_spec (hstage : s.call r = .registering) : CallStep id s (s.store id r) :=
  .moved (hstage ▸ .stored) nofun (fun _ hr => update_of_ne hr _ _)
    (.inr ⟨rfl, _, update_self .., .inl ⟨hstage, rfl⟩⟩)
    (fun _ _ => store_entry hstage) (fun _ _ => store_entry hstage) nofun

theorem received_spec {buf : List Frame} (hstage : s.call r = .waiting) (hchan : s.chan r = some c)
    (hbuf : c.buf = f :: buf) :
    CallStep id s ({ s with chan := update s.chan r (some { c with buf := buf }) }.moveTo r
      (.leaving (.ok f))) := by
  have hrest : buf ⊆ c.buf := hbuf ▸ subset_cons_self f buf
  refine .moved (hstage ▸ .received f) (fun g hg => ?_) (fun _ hr => update_of_ne hr _ _)
    (.inr ⟨rfl, _, update_self .., .inr ⟨c, hchan, rfl, rfl, hrest⟩⟩)
    (fun _ _ => .inl) (fun _ _ => .inl) nofun
  cases hg
  exact ⟨c, hchan, by simp [hbuf]⟩

theorem receive_spec (hstage : s.call r = .waiting) : CallStep id s (s.receive r) := by
  unfold receive
  cases hrecv : (s.chan r).bind Chan.recv with
  | none => exact .refl s
  | some p =>
    obtain ⟨v, c'⟩ := p
    obtain ⟨c, hchan, hc⟩ := Option.bind_eq_some_iff.mp hrecv
    obtain ⟨f, buf, hbuf, rfl, rfl⟩ | ⟨-, -, rfl, -⟩ := Chan.recv_cases hc
    · exact received_spec hstage hchan hbuf
    · exact .move (hstage ▸ .shut) nofun nofun

theorem delete_spec (hnext : (s.call r).Next stage) (hpay : ∀ f, stage ≠ .leaving (.ok f)) :
    CallStep id s (s.delete id r stage) := by
  refine .moved hnext (fun f h => absurd h (hpay f)) (fun _ _ => rfl) (.inl rfl) (fun x r' h => ?_)
    (fun _ _ => .inl) fun _ => .inr (update_self ..)
  by_cases hx : x = id r
  · simp [hx] at h
  · rw [update_of_ne hx] at h
    exact .inl h

theorem enter_spec (hstage : s.call r = .idle) : CallStep id s (s.enter r) := by
  have hrefused : CallStep id s (s.moveTo r (.returned (.error .inflight))) :=
    .move (hstage ▸ .refused) nofun nofun
  have hentered : CallStep id s (s.moveTo r .encoding) :=
    .move (hstage ▸ .entered) nofun nofun
  unfold enter
  cases s.inflightCh.send () with
  | ok c => exact hentered.inflight c
  | blocks => exact hrefused
  | panics => exact hrefused

theorem leave_spec {result : Except Failure Frame} (hstage : s.call r = .leaving result) :
    CallStep id s (s.leave r result) := by
  have hleft : CallStep id s (s.moveTo r (.returned result)) := by
    refine .move (hstage ▸ .left result) nofun fun h => ?_
    rw [hstage]
    cases result with
    | ok f => cases h
    | error e => cases e <;> first | rfl | cases h
  unfold leave
  cases s.inflightCh.recv with
  | none => exact .refl s
  | some p => exact hleft.inflight p.2

theorem stepCall_spec (s : PeerConn R) (e : Event R) : CallStep id s (s.stepCall id e) := by
  cases e with
  | call r => exact .guard enter_spec
  | marshal r err =>
    refine .guard fun h => ?_
    cases err with
    | none => exact .move (h ▸ .encoded) nofun nofun
    | some e => exact .move (h ▸ .unencoded e) nofun nofun
  | store r => exact .guard store_spec
  | write r err =>
    refine .guard fun h => ?_
    cases err with
    | none => exact .move (h ▸ .written) nofun nofun
    | some e => exact .move (h ▸ .unwritten e) nofun nofun
  | receive r => exact .guard receive_spec
  | timer r => exact .guard fun h => .move (h ▸ .fired) nofun nofun
  | delete r =>
    simp only [stepCall]
    split
    · exact delete_spec (‹s.call r = _› ▸ .failed _) nofun
    · exact delete_spec (‹s.call r = _› ▸ .deleted) nofun
    · exact .refl s
  | penalize r now =>
    refine .guard fun h => CallStep.penalty (.move (h ▸ .penalized) (fun _ h => by cases h) ?_) _
    exact fun _ => h ▸ rfl
  | leave r =>
    simp only [stepCall]
    split
    · exact leave_spec ‹s.call r = _›
    · exact .refl s
  | _ => exact .refl s

end Calls

variable {visited : List UInt64}

section Kept

variable {id decode} {s s' : PeerConn R} {r : R}

theorem CallStep.fresh_iff (hs : CallStep id s s') : s'.Fresh r ↔ s.Fresh r := by
  unfold Fresh
  rw [hs.closes, hs.sends]

theorem Sound.fresh_of_registering (h : s.Sound id decode) (hstage : s.call r = .registering) :
    s.chan r = none ∧ s.Fresh r := by
  have hnone := h.early r (by rw [hstage]; rfl)
  exact ⟨hnone, h.unmade r hnone⟩

theorem Sound.clean_call (h : s.Sound id decode) (hs : CallStep id s s') (hclean : s.Clean) :
    s'.Clean := by
  intro x r hp
  rw [hs.fresh_iff]
  obtain hold | ⟨-, hstage, -⟩ := hs.pend x r hp
  · exact hclean x r hold
  · exact (h.fresh_of_registering hstage).2

theorem Current.call {x : UInt64} (h : Current decode s.frames s.sends f x)
    (hs : CallStep id s s') : Current decode s'.frames s'.sends f x where
  last := by rw [hs.frames]; exact h.last
  read := by rw [hs.frames]; exact h.read
  ID := h.ID
  unsent := by rw [hs.sends]; exact h.unsent

theorem Sound.unvisited_call (h : s.Sound id decode) (hs : CallStep id s s')
    (hv : s.Unvisited id visited) : s'.Unvisited id visited := by
  intro x r hm
  rw [hs.closes]
  obtain hold | ⟨hx, hstage, hmade⟩ := hs.mapped x r hm
  · obtain ⟨hx, hmade, hopen⟩ := hv x r hold
    exact ⟨hx, hs.made r hmade, hopen⟩
  · exact ⟨hx, hmade, fun _ => (h.fresh_of_registering hstage).2.1⟩

/-- The steps of the calls leave the read loop what it relies on. -/
theorem Sound.reader_call (h : s.Sound id decode) (hs : CallStep id s s') :
    s'.ReaderSound id decode s.reader := by
  cases hr : s.reader with
  | reading => exact h.clean_call hs (h.reader_at hr)
  | loading f x =>
    obtain ⟨hclean, hcur⟩ := h.reader_at hr
    exact ⟨h.clean_call hs hclean, hcur.call hs⟩
  | removing f x r =>
    obtain ⟨hclean, hcur, hx, hfresh, hmade⟩ := h.reader_at hr
    exact ⟨h.clean_call hs hclean, hcur.call hs, hx, hs.fresh_iff.mpr hfresh, hs.made r hmade⟩
  | sending f r =>
    obtain ⟨hclean, hcur, hfresh, hmade, hout⟩ := h.reader_at hr
    refine ⟨h.clean_call hs hclean, hcur.call hs, hs.fresh_iff.mpr hfresh, hs.made r hmade, ?_⟩
    intro x hp
    obtain hold | ⟨-, hstage, -⟩ := hs.pend x r hp
    · exact hout x hold
    · exact hmade (h.fresh_of_registering hstage).1
  | closing r =>
    obtain ⟨hclean, hopen, hmade, hsent⟩ := h.reader_at hr
    exact ⟨h.clean_call hs hclean, hs.closes ▸ hopen, hs.made r hmade, hs.sends ▸ hsent⟩
  | ranging visited => exact h.unvisited_call hs (h.reader_at hr)
  | shutting visited r =>
    obtain ⟨hv, hin, hopen, hmade⟩ := h.reader_at hr
    exact ⟨h.unvisited_call hs hv, hin, hs.closes ▸ hopen, hs.made r hmade⟩
  | ended => trivial

theorem Fresh.chanSound (hf : s.Fresh r) : ChanSound s.sends s.closes r (Chan.make 1) where
  cap := rfl
  closed := ⟨nofun, fun h => absurd h hf.1⟩
  buf _ h := nomatch h

theorem Sound.call (hid : Injective id) (h : s.Sound id decode) (hs : CallStep id s s') :
    s'.Sound id decode where
  early r he := by
    rw [hs.early r he]
    obtain heq | hnext := hs.call r
    · exact h.early r (heq ▸ he)
    · exact h.early r (hnext.early he)
  unmade r hnone := by
    rw [hs.fresh_iff]
    exact h.unmade r (by_contra fun hmade => hs.made r hmade hnone)
  chans r c' hc := by
    obtain ⟨hstage, rfl⟩ | ⟨c, hold, hcap, hclosed, hbuf⟩ := hs.chans r c' hc
    · exact (hs.fresh_iff.mpr (h.fresh_of_registering hstage).2).chanSound
    · obtain ⟨hcap', hclosed', hbuf'⟩ := h.chans r c hold
      refine ⟨hcap.trans hcap', ?_, fun f hf => ?_⟩
      · rw [hclosed, hs.closes]
        exact hclosed'
      · rw [hs.sends]
        exact hbuf' f (hbuf hf)
  pend x r hp := by
    obtain hold | ⟨hx, -, hmade⟩ := hs.pend x r hp
    · exact ⟨(h.pend x r hold).1, hs.made r (h.pend x r hold).2⟩
    · exact ⟨hx, hmade⟩
  payload r f hf := by
    rw [hs.sends]
    obtain heq | hnext := hs.call r
    · exact h.payload r f (heq ▸ hf)
    · obtain hold | hnew := hnext.payload hf
      · exact h.payload r f hold
      · obtain heq | ⟨c, hc, hmem⟩ := hs.payload r f hnew
        · exact h.payload r f (heq ▸ hf)
        · exact (h.chans r c hc).buf f hmem
  sent := by
    rw [hs.sends, hs.frames]
    exact h.sent
  order := hs.sends ▸ h.order
  once := hs.sends ▸ h.once
  closes := hs.closes ▸ h.closes
  withdrawn r hw := by
    obtain hold | hnone := hs.withdrawn r hw
    · by_contra hsome
      obtain ⟨r', hp⟩ := Option.ne_none_iff_exists'.mp hsome
      obtain hentry | ⟨hx, hstage, -⟩ := hs.pend _ r' hp
      · rw [h.withdrawn r hold] at hentry
        cases hentry
      · -- a call that has timed out does not register again
        rw [hid hx, hstage] at hold
        cases hold
    · exact hnone
  alive := hs.crashed.trans h.alive
  reader := by
    rw [hs.reader]
    exact h.reader_call hs

end Kept

section ReadLoop

variable {id decode} {s : PeerConn R} {f : Frame} {r : R} {x : UInt64}

theorem Sound.readFrame (h : s.Sound id decode) (hr : s.reader = .reading) (buf : Bytes) :
    (s.readFrame buf (decode buf)).Sound id decode :=
  have hclean : s.Clean := h.reader_at hr
  { h with
    sent := fun r f hf => by
      obtain ⟨hread, hdec⟩ := h.sent r f hf
      have hlt := (List.getElem?_eq_some_iff.mp hread).1
      exact ⟨(getElem?_append_left hlt).trans hread, hdec⟩
    reader := by
      cases hdec : decode buf with
      | none => exact hclean
      | some x =>
        refine ⟨hclean, ?_, ?_, hdec, ?_⟩
        · simp [PeerConn.readFrame]
        · simp [PeerConn.readFrame]
        · intro p hp
          exact (List.getElem?_eq_some_iff.mp (h.sent p.1 p.2 hp).1).1 }

theorem Sound.load (h : s.Sound id decode) (hr : s.reader = .loading f x) :
    (s.load f x).Sound id decode := by
  obtain ⟨hclean, hcur⟩ := h.reader_at hr
  unfold PeerConn.load
  cases hp : s.pend x with
  | none => exact { h with reader := hclean }
  | some r =>
    obtain ⟨hx, hmade⟩ := h.pend x r hp
    exact { h with reader := ⟨hclean, hcur, hx, hclean x r hp, hmade⟩ }

theorem pend_of_remove {y : UInt64} (h : update s.pend x none y = some r) :
    y ≠ x ∧ s.pend y = some r := by
  by_cases hy : y = x
  · simp [hy] at h
  · exact ⟨hy, by simpa [hy] using h⟩

section
variable (h : s.Sound id decode)
include h

theorem Sound.remove (hr : s.reader = .removing f x r) : (s.remove f x r).Sound id decode := by
  obtain ⟨hclean, hcur, rfl, hfresh, hmade⟩ := h.reader_at hr
  exact { h with
    pend := fun y r' hp => h.pend y r' (pend_of_remove hp).2
    withdrawn := fun r' hw => by
      by_contra hsome
      obtain ⟨r'', hp⟩ := Option.ne_none_iff_exists'.mp hsome
      have hold := (pend_of_remove hp).2
      rw [h.withdrawn r' hw] at hold
      cases hold
    reader := by
      refine ⟨fun y r' hp => hclean y r' (pend_of_remove hp).2,
        ⟨hcur.last, hcur.read, hcur.ID, hcur.unsent⟩, hfresh, hmade, fun y hp => ?_⟩
      -- the entry that was taken out is the only one of the call
      obtain ⟨hne, hold⟩ := pend_of_remove hp
      exact hne (h.pend y r hold).1 }

/-- A fresh channel is open and empty. -/
theorem Sound.fresh_chan (hfresh : s.Fresh r) (hmade : s.chan r ≠ none) :
    ∃ c, s.chan r = some c ∧ c.closed = false ∧ c.buf = [] ∧ c.cap = 1 := by
  obtain ⟨c, hc⟩ := Option.ne_none_iff_exists'.mp hmade
  have hsound := h.chans r c hc
  refine ⟨c, hc, ?_, ?_, hsound.cap⟩
  · exact Bool.eq_false_iff.mpr fun hclosed => hfresh.1 (hsound.closed.mp hclosed)
  · exact eq_nil_iff_forall_not_mem.mpr fun f hf => hfresh.2 f (hsound.buf f hf)

theorem Sound.readError (hr : s.reader = .reading) :
    ({ s with mapped := s.pend, reader := .ranging [] } : PeerConn R).Sound id decode := by
  have hclean : s.Clean := h.reader_at hr
  exact { h with
    reader := fun x r hp => ⟨(h.pend x r hp).1, (h.pend x r hp).2, fun _ => (hclean x r hp).1⟩ }

theorem Sound.visit (hr : s.reader = .ranging visited) : (s.visit visited x).Sound id decode := by
  have hreader := h.reader_at hr
  unfold PeerConn.visit
  cases hm : s.mapped x with
  | none => exact h
  | some r =>
    obtain ⟨rfl, hmade, hopen⟩ := hreader x r hm
    by_cases hin : id r ∈ visited
    · simpa only [if_pos hin] using h
    · simp only [if_neg hin]
      refine { h with reader := ⟨fun y r' hy => ?_, mem_cons_self, hopen hin, hmade⟩ }
      obtain ⟨hy', hmade', hopen'⟩ := hreader y r' hy
      exact ⟨hy', hmade', fun hnew => hopen' fun hold => hnew (mem_cons_of_mem _ hold)⟩

end

theorem update_chan_ne_none [DecidableEq R] (h : s.chan r' ≠ none) :
    update s.chan r (some c) r' ≠ none := by
  by_cases hr : r' = r
  · simp [hr]
  · simpa [hr] using h

theorem update_chan_eq_none [DecidableEq R] (h : update s.chan r (some c) r' = none) :
    r' ≠ r ∧ s.chan r' = none := by
  by_cases hne : r' = r
  · simp [hne] at h
  · exact ⟨hne, by rwa [update_of_ne hne] at h⟩

/-- A call that has not made its channel is not the one whose channel is used. -/
theorem Sound.early_update [DecidableEq R] (h : s.Sound id decode) (hmade : s.chan r ≠ none)
    (r' : R) (he : (s.call r').early = true) : update s.chan r (some c) r' = none := by
  have hnone := h.early r' he
  have hne : r' ≠ r := fun heq => hmade (heq ▸ hnone)
  exact (update_of_ne hne _ _).trans hnone

variable [DecidableEq R]

section
variable (h : s.Sound id decode)
include h

/-- Sending does not block, since nothing has been sent on the channel before, and the channel is
not closed. -/
theorem Sound.send_eq (hr : s.reader = .sending f r) :
    ∃ c, s.chan r = some c ∧ s.send f r = { s with
      chan := update s.chan r (some { c with buf := [f] })
      sends := s.sends ++ [(r, f)]
      reader := .closing r } := by
  obtain ⟨-, -, hfresh, hmade, -⟩ := h.reader_at hr
  obtain ⟨c, hc, hopen, hbuf, hcap⟩ := h.fresh_chan hfresh hmade
  have hsend := Chan.send_of_room (a := f) hopen (by rw [hbuf, hcap]; exact Nat.one_pos)
  refine ⟨c, hc, ?_⟩
  rw [PeerConn.send, hc, Option.map_some, hsend, hbuf, nil_append]

theorem Sound.send (hr : s.reader = .sending f r) : (s.send f r).Sound id decode := by
  obtain ⟨c, hc, heq⟩ := h.send_eq hr
  obtain ⟨hclean, hcur, hfresh, hmade, hout⟩ := h.reader_at hr
  have hsends : ∀ {r' : R} {g : Frame}, (r', g) ∈ s.sends ++ [(r, f)] →
      (r', g) ∈ s.sends ∨ (r' = r ∧ g = f) := by
    intro r' g hg
    simpa using hg
  have hother : ∀ {r' : R}, s.Fresh r' → r' ≠ r →
      r' ∉ s.closes ∧ ∀ g, (r', g) ∉ s.sends ++ [(r, f)] := by
    intro r' hf hne
    refine ⟨hf.1, fun g hg => ?_⟩
    obtain hg | ⟨rfl, -⟩ := hsends hg
    · exact hf.2 g hg
    · exact hne rfl
  rw [heq]
  exact { h with
    early := h.early_update hmade
    unmade := fun r' hnone => by
      obtain ⟨hne, hnone⟩ := update_chan_eq_none hnone
      exact hother (h.unmade r' hnone) hne
    chans := fun r' c' hc' => by
      by_cases hne : r' = r
      · subst hne
        have hsound := h.chans r' c hc
        simp only [update_self, Option.some.injEq] at hc'
        subst hc'
        exact ⟨hsound.cap, hsound.closed, fun g hg => mem_append_right _ (by simpa using hg)⟩
      · have hsound := h.chans r' c' (by simpa [hne] using hc')
        exact ⟨hsound.cap, hsound.closed, fun g hg => mem_append_left _ (hsound.buf g hg)⟩
    pend := fun x r' hp => ⟨(h.pend x r' hp).1, update_chan_ne_none (h.pend x r' hp).2⟩
    payload := fun r' g hg => mem_append_left _ (h.payload r' g hg)
    sent := fun r' g hg => by
      obtain hg | ⟨rfl, rfl⟩ := hsends hg
      · exact h.sent r' g hg
      · exact ⟨hcur.read, hcur.ID⟩
    order := by
      refine pairwise_append.mpr ⟨h.order, pairwise_singleton _ _, fun p hp q hq => ?_⟩
      rw [mem_singleton.mp hq]
      exact hcur.unsent p hp
    once := by
      rw [map_append, map_singleton, nodup_append_comm]
      refine nodup_cons.mpr ⟨fun hmem => ?_, h.once⟩
      obtain ⟨⟨r', g⟩, hg, rfl⟩ := mem_map.mp hmem
      exact hfresh.2 g hg
    reader := by
      refine ⟨fun x r' hp => hother (hclean x r' hp) fun heq => hout x (heq ▸ hp), hfresh.1,
        update_chan_ne_none hmade, f, mem_append_right _ (mem_singleton_self _)⟩ }

theorem Sound.close {next : Reader R} (hopen : r ∉ s.closes) (hmade : s.chan r ≠ none)
    (hnext : ∀ s' : PeerConn R, s'.pend = s.pend → s'.mapped = s.mapped → s'.sends = s.sends →
      s'.closes = s.closes ++ [r] → (∀ r', s.chan r' ≠ none → s'.chan r' ≠ none) →
      s'.ReaderSound id decode next) :
    (s.close r next).Sound id decode := by
  obtain ⟨c, hc⟩ := Option.ne_none_iff_exists'.mp hmade
  have hsound := h.chans r c hc
  have hclose := Chan.close_of_open (Bool.eq_false_iff.mpr fun hcl => hopen (hsound.closed.mp hcl))
  have heq : s.close r next = { s with
      chan := update s.chan r (some { c with closed := true })
      closes := s.closes ++ [r]
      reader := next } := by
    rw [PeerConn.close, hc, Option.map_some, hclose]
  rw [heq]
  exact { h with
    early := h.early_update hmade
    unmade := fun r' hnone => by
      obtain ⟨hne, hnone⟩ := update_chan_eq_none hnone
      have hfresh := h.unmade r' hnone
      exact ⟨by simpa [hne] using hfresh.1, hfresh.2⟩
    chans := fun r' c' hc' => by
      by_cases hne : r' = r
      · subst hne
        simp only [update_self, Option.some.injEq] at hc'
        subst hc'
        exact ⟨hsound.cap, by simp, hsound.buf⟩
      · have hsound' := h.chans r' c' (by simpa [hne] using hc')
        exact ⟨hsound'.cap, by simpa [hne] using hsound'.closed, hsound'.buf⟩
    pend := fun x r' hp => ⟨(h.pend x r' hp).1, update_chan_ne_none (h.pend x r' hp).2⟩
    closes := by
      rw [nodup_append_comm]
      exact nodup_cons.mpr ⟨hopen, h.closes⟩
    reader := hnext _ rfl rfl rfl rfl fun _ => update_chan_ne_none }

theorem Sound.close_sent (hr : s.reader = .closing r) : (s.close r .reading).Sound id decode := by
  obtain ⟨hclean, hopen, hmade, f, hf⟩ := h.reader_at hr
  refine h.close hopen hmade fun s' hpend _ hsends hcloses _ x r' hp => ?_
  have hfresh := hclean x r' (hpend ▸ hp)
  have hne : r' ≠ r := fun heq => hfresh.2 f (heq ▸ hf)
  rw [Fresh, hcloses, hsends]
  exact ⟨by simpa [hne] using hfresh.1, hfresh.2⟩

theorem Sound.close_visited (hr : s.reader = .shutting visited r) :
    (s.close r (.ranging visited)).Sound id decode := by
  obtain ⟨hv, hin, hopen, hmade⟩ := h.reader_at hr
  refine h.close hopen hmade fun s' _ hmapped _ hcloses hkept x r' hm => ?_
  obtain ⟨hx, hmade', hopen'⟩ := hv x r' (hmapped ▸ hm)
  refine ⟨hx, hkept r' hmade', fun hnew => ?_⟩
  -- a key that has not been visited is not the key of the channel closed here
  have hne : r' ≠ r := fun heq => hnew (hx ▸ heq ▸ hin)
  rw [hcloses]
  simpa [hne] using hopen' hnew

end

variable (decode) in
/-- What the read loop can do in a step. -/
inductive Reads (s : PeerConn R) : PeerConn R → Prop
  | idle : Reads s s
  | frame (hr : s.reader = .reading) (buf : Bytes) : Reads s (s.readFrame buf (decode buf))
  | load {f : Frame} {x : UInt64} (hr : s.reader = .loading f x) : Reads s (s.load f x)
  | remove {f : Frame} {x : UInt64} {r : R} (hr : s.reader = .removing f x r) :
    Reads s (s.remove f x r)
  | send {f : Frame} {r : R} (hr : s.reader = .sending f r) : Reads s (s.send f r)
  | close {r : R} (hr : s.reader = .closing r) : Reads s (s.close r .reading)
  | shut {visited : List UInt64} {r : R} (hr : s.reader = .shutting visited r) :
    Reads s (s.close r (.ranging visited))
  | readError (hr : s.reader = .reading) :
    Reads s { s with mapped := s.pend, reader := .ranging [] }
  | visit {visited : List UInt64} (hr : s.reader = .ranging visited) (x : UInt64) :
    Reads s (s.visit visited x)
  | rangeEnd : Reads s { s with reader := .ended }

theorem stepReader_reads (s : PeerConn R) (e : Event R) :
    s.Reads decode (s.stepReader decode e) := by
  cases e with
  | frame buf =>
    simp only [PeerConn.stepReader]
    split_ifs with hr
    · exact .frame hr buf
    · exact .idle
  | readError =>
    simp only [PeerConn.stepReader]
    split_ifs with hr
    · exact .readError hr
    · exact .idle
  | load | remove | send | close | visit | rangeEnd =>
    simp only [PeerConn.stepReader]
    split <;> constructor <;> assumption
  | _ => exact .idle

theorem Sound.reads {s' : PeerConn R} (h : s.Sound id decode) (hs : s.Reads decode s') :
    s'.Sound id decode := by
  cases hs with
  | idle => exact h
  | frame hr buf => exact h.readFrame hr buf
  | load hr => exact h.load hr
  | remove hr => exact h.remove hr
  | send hr => exact h.send hr
  | close hr => exact h.close_sent hr
  | shut hr => exact h.close_visited hr
  | readError hr => exact h.readError hr
  | visit hr x => exact h.visit hr
  | rangeEnd => exact { h with reader := trivial }

theorem Sound.step (hid : Injective id) (h : s.Sound id decode) (e : Event R) :
    (s.step id decode e).Sound id decode := by
  unfold PeerConn.step
  rw [if_neg (Bool.not_eq_true _ ▸ h.alive)]
  exact (h.call hid (stepCall_spec s e)).reads (stepReader_reads _ e)

theorem exec_sound {es : List (Event R)} (hid : Injective id) (h : s.Sound id decode) :
    (Schedule.exec (PeerConn.step id decode) s es).Sound id decode :=
  Schedule.exec_invariant (fun _ e h => h.step hid e) h

end ReadLoop

section Matching

/-- What the calls have returned is theirs, and no channel was misused on the way. -/
structure Matched (s : PeerConn R) : Prop where
  /-- A payload is a frame that was read, with the ID of the call that returns it. -/
  own : ∀ r f, (s.call r).payload = some f →
    s.frames[f.seq]? = some f.buf ∧ decode f.buf = some (id r)
  /-- A frame is returned by one call at most. -/
  once : ∀ r r' f f', (s.call r).payload = some f → (s.call r').payload = some f' →
    f.seq = f'.seq → r = r'
  /-- A frame is sent on one channel at most, and a channel is sent to once at most. -/
  frames : (s.sends.map fun p => p.2.seq).Nodup
  chans : (s.sends.map Prod.fst).Nodup
  closes : s.closes.Nodup
  /-- No channel was sent to, or closed, after it had been closed. -/
  alive : s.crashed = false

/-- A frame that arrives when the call with its ID has timed out is returned by no call. Once that
call has taken its entry out of the table, the frame is not even sent on a channel. -/
def LateDropped [DecidableEq R] (inflight : Nat) (es : List (Event R)) : Prop :=
  ∀ es₁ buf es₂ r, es = es₁ ++ .frame buf :: es₂ →
    (exec id decode inflight es₁).reader = .reading → decode buf = some (id r) →
    (((exec id decode inflight es₁).call r).timedOut = true →
      ∀ r' f, ((exec id decode inflight es).call r').payload = some f →
        f.seq ≠ (exec id decode inflight es₁).frames.length) ∧
    (((exec id decode inflight es₁).call r).withdrawn = true →
      ∀ r' f, (r', f) ∈ (exec id decode inflight es).sends →
        f.seq ≠ (exec id decode inflight es₁).frames.length)

variable {id decode} {s : PeerConn R} {r : R}

theorem Sound.seqs_nodup (h : s.Sound id decode) : (s.sends.map fun p => p.2.seq).Nodup :=
  pairwise_map.mpr (h.order.imp Nat.ne_of_lt)

theorem Sound.matched (hid : Injective id) (h : s.Sound id decode) :
    s.Matched id decode where
  own r f hf := h.sent r f (h.payload r f hf)
  once r r' f f' hf hf' hseq := by
    obtain ⟨hread, hdec⟩ := h.sent r f (h.payload r f hf)
    obtain ⟨hread', hdec'⟩ := h.sent r' f' (h.payload r' f' hf')
    have hbuf : f.buf = f'.buf := Option.some.inj (hread.symm.trans (hseq ▸ hread'))
    exact hid (Option.some.inj (hdec.symm.trans (hbuf ▸ hdec')))
  frames := h.seqs_nodup
  chans := h.once
  closes := h.closes
  alive := h.alive

end Matching

section Late

/-- The frame that the read loop is about to send, and on which channel. -/
def Reader.carried : Reader R → Option (R × Frame)
  | .removing f _ r | .sending f r => some (r, f)
  | _ => none

/-- The call whose entry is out, and to which only frames before the `n`-th have been sent. -/
structure Ignores (s : PeerConn R) (r : R) (n : Nat) : Prop where
  withdrawn : (s.call r).withdrawn = true
  sends : ∀ f, (r, f) ∈ s.sends → f.seq < n
  carried : ∀ f, s.reader.carried = some (r, f) → f.seq < n

variable {id decode} {s s' : PeerConn R} {r : R} {n : Nat}

theorem CallStep.timedOut (hs : CallStep id s s') (h : (s.call r).timedOut = true) :
    (s'.call r).timedOut = true := by
  obtain heq | hnext := hs.call r
  · rwa [heq]
  · exact hnext.timedOut h

theorem Ignores.call (h : s.Ignores r n) (hs : CallStep id s s') : s'.Ignores r n where
  withdrawn := by
    obtain heq | hnext := hs.call r
    · exact heq ▸ h.withdrawn
    · exact hnext.withdrawn h.withdrawn
  sends := hs.sends ▸ h.sends
  carried := hs.reader ▸ h.carried

/-- A step after which the read loop carries no frame. -/
theorem Ignores.empty (h : s.Ignores r n) (hcall : s'.call = s.call) (hsends : s'.sends = s.sends)
    (hnone : s'.reader.carried = none) : s'.Ignores r n where
  withdrawn := hcall ▸ h.withdrawn
  sends := hsends ▸ h.sends
  carried f hf := by rw [hnone] at hf; cases hf

theorem Ignores.load {x : UInt64} (h : s.Ignores r n) (hs : s.Sound id decode) :
    (s.load f x).Ignores r n := by
  unfold PeerConn.load
  cases hp : s.pend x with
  | none => exact h.empty rfl rfl rfl
  | some r' =>
    refine { h with carried := fun g hg => ?_ }
    -- the entry that was found is not that of the call: it has been taken out
    cases hg
    have hx := (hs.pend x r hp).1
    rw [hx, hs.withdrawn r h.withdrawn] at hp
    cases hp

/-- When the `n`-th frame is about to be read, none of its kind has been sent to anyone. -/
theorem Sound.ignores (hs : s.Sound id decode) (hr : s.reader = .reading)
    (hw : (s.call r).withdrawn = true) : s.Ignores r s.frames.length where
  withdrawn := hw
  sends f hf := (List.getElem?_eq_some_iff.mp (hs.sent r f hf).1).1
  carried f hf := by rw [hr] at hf; cases hf

variable [DecidableEq R]

theorem close_frame (s : PeerConn R) (r : R) (next : Reader R) :
    (s.close r next).call = s.call ∧ (s.close r next).sends = s.sends ∧
      ((s.close r next).reader = s.reader ∨ (s.close r next).reader = next) := by
  unfold PeerConn.close
  split
  · exact ⟨rfl, rfl, .inr rfl⟩
  · exact ⟨rfl, rfl, .inl rfl⟩
  · exact ⟨rfl, rfl, .inl rfl⟩
  · exact ⟨rfl, rfl, .inl rfl⟩

theorem Ignores.close {next : Reader R} (h : s.Ignores r n) (hr : s.reader.carried = none)
    (hnext : next.carried = none) : (s.close r' next).Ignores r n := by
  obtain ⟨hcall, hsends, hreader⟩ := close_frame s r' next
  refine h.empty hcall hsends ?_
  obtain heq | heq := hreader
  · rw [heq, hr]
  · rw [heq, hnext]

theorem Ignores.send (h : s.Ignores r n) (hs : s.Sound id decode) (hr : s.reader = .sending f r') :
    (s.send f r').Ignores r n := by
  obtain ⟨c, -, heq⟩ := hs.send_eq hr
  rw [heq]
  refine ⟨h.withdrawn, fun g hg => ?_, fun g hg => by cases hg⟩
  obtain hold | hnew := mem_append.mp hg
  · exact h.sends g hold
  · cases mem_singleton.mp hnew
    exact h.carried f (by rw [hr]; rfl)

theorem Ignores.reads (h : s.Ignores r n) (hs : s.Sound id decode) (hread : s.Reads decode s') :
    s'.Ignores r n := by
  cases hread with
  | idle => exact h
  | frame hr buf =>
    refine h.empty rfl rfl ?_
    cases decode buf <;> rfl
  | load hr => exact h.load hs
  | remove hr => exact { h with carried := fun g hg => h.carried g (by rw [hr]; exact hg) }
  | send hr => exact h.send hs hr
  | close hr => exact h.close (by rw [hr]; rfl) rfl
  | shut hr => exact h.close (by rw [hr]; rfl) rfl
  | readError hr => exact h.empty rfl rfl rfl
  | visit hr x =>
    unfold PeerConn.visit
    split
    · split
      · exact h
      · exact h.empty rfl rfl rfl
    · exact h
  | rangeEnd => exact h.empty rfl rfl rfl

/-- The read loop moves no call, and forgets no frame. -/
theorem Reads.frame_rule (hread : s.Reads decode s') :
    s'.call = s.call ∧ s.frames <+: s'.frames := by
  have hrefl := prefix_refl s.frames
  cases hread with
  | frame hr buf => exact ⟨rfl, prefix_append _ _⟩
  | load hr =>
    unfold PeerConn.load
    split <;> exact ⟨rfl, hrefl⟩
  | send hr =>
    unfold PeerConn.send
    split <;> exact ⟨rfl, hrefl⟩
  | close hr | shut hr =>
    unfold PeerConn.close
    split <;> exact ⟨rfl, hrefl⟩
  | visit hr x =>
    unfold PeerConn.visit
    split
    · split <;> exact ⟨rfl, hrefl⟩
    · exact ⟨rfl, hrefl⟩
  | idle | remove hr | readError hr | rangeEnd => exact ⟨rfl, hrefl⟩

theorem timedOut_step (h : (s.call r).timedOut = true) (e : Event R) :
    ((s.step id decode e).call r).timedOut = true := by
  unfold PeerConn.step
  split
  · exact h
  · rw [(stepReader_reads _ e).frame_rule.1]
    exact (stepCall_spec s e).timedOut h

theorem Ignores.step (hid : Injective id) (h : s.Ignores r n) (hs : s.Sound id decode)
    (e : Event R) : (s.step id decode e).Ignores r n := by
  unfold PeerConn.step
  split
  · exact h
  · exact (h.call (stepCall_spec s e)).reads (hs.call hid (stepCall_spec s e))
      (stepReader_reads _ e)

variable {es : List (Event R)}

theorem timedOut_exec (h : (s.call r).timedOut = true) :
    ((Schedule.exec (step id decode) s es).call r).timedOut = true :=
  Schedule.exec_invariant (I := fun s : PeerConn R => (s.call r).timedOut = true)
    (fun _ e h => timedOut_step h e) h

theorem Ignores.exec (hid : Injective id) (h : s.Ignores r n) (hs : s.Sound id decode) :
    (Schedule.exec (PeerConn.step id decode) s es).Ignores r n :=
  (Schedule.exec_invariant (I := fun s : PeerConn R => s.Sound id decode ∧ s.Ignores r n)
    (fun _ e h => ⟨h.1.step hid e, h.2.step hid h.1 e⟩) ⟨hs, h⟩).2

theorem frames_step (s : PeerConn R) (e : Event R) : s.frames <+: (s.step id decode e).frames := by
  unfold PeerConn.step
  split
  · exact prefix_refl _
  · have hcall : (s.stepCall id e).frames = s.frames := (stepCall_spec s e).frames
    have hreader : (s.stepCall id e).frames <+: ((s.stepCall id e).stepReader decode e).frames :=
      (stepReader_reads _ e).frame_rule.2
    rwa [hcall] at hreader

/-- The frames that have been read stay. -/
theorem frames_exec : s.frames <+: (Schedule.exec (step id decode) s es).frames :=
  Schedule.exec_invariant (I := fun t : PeerConn R => s.frames <+: t.frames)
    (fun t e h => h.trans (frames_step t e)) (prefix_refl _)

theorem frames_of_read (h : s.Sound id decode) (hr : s.reader = .reading) (buf : Bytes) :
    (s.step id decode (.frame buf)).frames = s.frames ++ [buf] := by
  have halive : ¬s.crashed = true := Bool.not_eq_true _ ▸ h.alive
  simp [step, stepCall, stepReader, readFrame, halive, hr]

/-- The frame that is read next keeps its place. -/
theorem frames_next (h : s.Sound id decode) (hr : s.reader = .reading) (buf : Bytes) :
    (Schedule.exec (step id decode) s (.frame buf :: es)).frames[s.frames.length]? = some buf := by
  have hprefix :
      s.frames ++ [buf] <+: (Schedule.exec (step id decode) s (.frame buf :: es)).frames := by
    rw [← frames_of_read h hr buf]
    exact frames_exec
  obtain ⟨later, hlater⟩ := hprefix
  rw [← hlater]
  simp

variable {buf : Bytes} {r' : R} {f : Frame}

/-- That frame can only have gone to the call with its ID. -/
theorem Sound.late_owner (hid : Injective id) (h : s.Sound id decode)
    (hr : s.reader = .reading) (hdec : decode buf = some (id r))
    (hf : (r', f) ∈ (Schedule.exec (PeerConn.step id decode) s (.frame buf :: es)).sends)
    (hseq : f.seq = s.frames.length) : r' = r := by
  obtain ⟨hat, hdec'⟩ := (exec_sound hid h).sent r' f hf
  rw [hseq, frames_next h hr buf] at hat
  cases hat
  exact hid (Option.some.inj (hdec'.symm.trans hdec))

theorem Sound.late_payload (hid : Injective id) (h : s.Sound id decode)
    (hr : s.reader = .reading) (hdec : decode buf = some (id r))
    (htime : (s.call r).timedOut = true)
    (hf : ((Schedule.exec (PeerConn.step id decode) s (.frame buf :: es)).call r').payload =
      some f) :
    f.seq ≠ s.frames.length := by
  intro hseq
  obtain rfl := h.late_owner hid hr hdec ((exec_sound hid h).payload r' f hf) hseq
  rw [Stage.payload_of_timedOut (timedOut_exec htime)] at hf
  cases hf

theorem Sound.late_send (hid : Injective id) (h : s.Sound id decode)
    (hr : s.reader = .reading) (hdec : decode buf = some (id r))
    (hw : (s.call r).withdrawn = true)
    (hf : (r', f) ∈ (Schedule.exec (PeerConn.step id decode) s (.frame buf :: es)).sends) :
    f.seq ≠ s.frames.length := by
  intro hseq
  obtain rfl := h.late_owner hid hr hdec hf hseq
  exact absurd hseq (Nat.ne_of_lt (((h.ignores hr hw).exec hid h).sends f hf))

end Late

section Result

variable [DecidableEq R]

/-- Whatever the calls, the peer and the connection do: if the IDs of the calls are distinct, every
payload that is returned answers the call that returns it, no frame is returned twice, no channel
is sent to or closed twice, and a response that comes too late reaches nobody. -/
theorem exec_matched (hid : Injective id) (inflight : Nat) (es : List (Event R)) :
    (exec id decode inflight es).Matched id decode ∧ LateDropped id decode inflight es := by
  have hstart : (start inflight : PeerConn R).Sound id decode := sound_start id decode inflight
  refine ⟨Sound.matched hid (exec_sound hid hstart), ?_⟩
  rintro es₁ buf es₂ r rfl hr hdec
  have hs : (exec id decode inflight es₁).Sound id decode := exec_sound hid hstart
  have hexec : exec id decode inflight (es₁ ++ .frame buf :: es₂) =
      Schedule.exec (step id decode) (exec id decode inflight es₁) (.frame buf :: es₂) :=
    Schedule.exec_append
  rw [hexec]
  exact ⟨fun htime r' f hf => hs.late_payload hid hr hdec htime hf,
    fun hw r' f hf => hs.late_send hid hr hdec hw hf⟩

def firstByte (buf : Bytes) : Option UInt64 := buf.head?.map UInt8.toUInt64

def callIDs (r : Bool) : UInt64 := if r then 6 else 5

/-- The call with ID 5 times out before its response comes. The call with ID 6 gets its response,
which then comes once more, and the connection breaks. -/
def lateRun : List (Event Bool) :=
  [.call false, .marshal false none, .store false, .write false none, .timer false, .delete false,
    .frame [5], .load, .call true, .marshal true none, .store true, .write true none,
    .frame [6, 1], .load, .remove, .send, .close, .receive true, .leave true,
    .frame [6, 1], .load, .penalize false 0, .leave false, .readError, .visit 5, .visit 6,
      .rangeEnd]

theorem exec_matched_late : Injective callIDs ∧
    (exec callIDs firstByte 2 lateRun).Matched callIDs firstByte ∧
    LateDropped callIDs firstByte 2 lateRun ∧
    (exec callIDs firstByte 2 lateRun).call false = .returned (.error .timeout) ∧
    (exec callIDs firstByte 2 lateRun).call true = .returned (.ok ⟨1, [6, 1]⟩) ∧
    (exec callIDs firstByte 2 lateRun).frames = [[5], [6, 1], [6, 1]] := by
  have hid : Injective callIDs := by decide
  obtain ⟨hmatched, hlate⟩ := exec_matched callIDs firstByte hid 2 lateRun
  exact ⟨hid, hmatched, hlate, by decide, by decide, by decide⟩

end Result

end PeerConn

end Kioshun
