import Kioshun.Cluster.Replication

/-!
# The write concern

The caller of a replication counts the acknowledgements down in an `int32`. It
returns `nil` when the counter comes to zero, which is when enough owners have
acknowledged, unless the write concern does not fit into the counter. Every
goroutine can come to its end, so every owner has acknowledged or got a hint.
-/

namespace Kioshun
open Function Node

universe u v
variable {K : Type u} {V : Type v}

namespace Replication
variable {n : Node K V} {hint : Hint} {owners : List NodeMeta} {handoff : Bool} {s : Replication}
  {i : Nat} {hinting : Prop}

section Progress

/-- What a step may do to the goroutine of one owner. -/
theorem sender_step (h : Sound n owners handoff hinting s) (e : Event) (j : Nat) :
    (s.step n hint owners handoff e).sender j = s.sender j ∨
      (s.sender j ≠ .ended ∧ (s.step n hint owners handoff e).sender j ≠ .idle) := by
  have hmove (s' : Replication) (i : Nat) (t : Sender) (hs' : s'.sender = s.sender)
      (hi : s.sender i ≠ .ended) (ht : t ≠ .idle) : (s'.moveTo i t).sender j = s.sender j ∨
        (s.sender j ≠ .ended ∧ (s'.moveTo i t).sender j ≠ .idle) := by
    by_cases hj : j = i
    · subst hj
      exact .inr ⟨hi, by rwa [sender_moveTo_self]⟩
    · exact .inl (by rw [sender_moveTo_of_ne hj, hs'])
  have hstep := step_stepped n hint owners handoff s e
  generalize s.step n hint owners handoff e = s' at hstep
  cases hstep with
  | caller => exact .inl rfl
  | pause => exact .inl rfl
  | start ho ht => exact hmove _ _ _ rfl (h.not_ended ho) (by rcases ht with rfl | rfl <;> simp)
  | hand ho ht =>
    refine hmove _ _ _ (sender_enqueue ..) (h.not_ended ho) ?_
    rcases ht with rfl | ⟨⟨err, rfl⟩, -⟩ <;> simp
  | ack ho _ ht =>
    exact hmove _ _ _ rfl (h.not_ended ho) (by rcases ht with rfl | ⟨rfl, -⟩ <;> simp)
  | report hi => exact hmove _ _ _ rfl (by simp [hi]) (by simp)

section
variable (h : Sound n owners handoff False s)
include h

theorem sound_run (es : List Event) :
    Sound n owners handoff False (Schedule.exec (step n hint owners handoff) s es) :=
  Schedule.exec_invariant (fun _ e h => h.step e nofun) h

theorem ended_run (hi : s.sender i = .ended) (es : List Event) :
    (Schedule.exec (step n hint owners handoff) s es).sender i = .ended := by
  refine (Schedule.exec_invariant (I := fun s => Sound n owners handoff False s ∧
    s.sender i = .ended) (fun s e hs => ⟨hs.1.step e nofun, ?_⟩) ⟨h, hi⟩).2
  rcases sender_step hs.1 e i with heq | hne
  · rw [heq]
    exact hs.2
  · exact absurd hs.2 hne.1

theorem launched_run (hi : s.sender i ≠ .idle) (es : List Event) :
    (Schedule.exec (step n hint owners handoff) s es).sender i ≠ .idle := by
  refine (Schedule.exec_invariant (I := fun s => Sound n owners handoff False s ∧
    s.sender i ≠ .idle) (fun s e hs => ⟨hs.1.step e nofun, ?_⟩) ⟨h, hi⟩).2
  rcases sender_step hs.1 e i with heq | hne
  · rw [heq]
    exact hs.2
  · exact hne.2

/-- The channel has room for every report. -/
theorem Sound.errCh_lt (hi : s.sender i ≠ .idle) (hended : s.sender i ≠ .ended) :
    s.errCh.length < owners.length := by
  have hmem := ((h.fits i).launched.mp hi).1
  have hlt : (others n owners).countP (fun j => s.sender j == .ended) <
      (others n owners).length := by
    refine Nat.lt_of_le_of_ne (List.countP_le_length) fun heq => hended ?_
    exact eq_of_beq (List.countP_eq_length.mp heq i hmem)
  calc s.errCh.length ≤ _ := h.room
    _ < (others n owners).length := hlt
    _ ≤ (List.range owners.length).length := List.length_filter_le _ _
    _ = owners.length := List.length_range

theorem Sound.proceed_ends (hi : s.sender i ≠ .idle) (hreq : s.sender i ≠ .requesting) :
    (s.proceed owners handoff i).sender i = .ended := by
  cases hs : s.sender i with
  | idle => exact absurd hs hi
  | requesting => exact absurd hs hreq
  | ended => simp only [proceed, hs]
  | missing => simp only [proceed, hs, sender_moveTo_self]
  | reporting err =>
    have hroom := h.errCh_lt (i := i) (by simp [hs]) (by simp [hs])
    simp only [proceed, hs, hroom, if_true, sender_moveTo_self]

variable (hint)

/-- A goroutine comes to its end with an answer and a report. -/
theorem ends (hi : s.sender i ≠ .idle) :
    (Schedule.exec (step n hint owners handoff) s [.answer i .undecodable, .proceed i]).sender i
      = .ended := by
  have hnext : Sound n owners handoff False
      (s.step n hint owners handoff (.answer i .undecodable)) := h.step _ nofun
  refine hnext.proceed_ends ?_ ?_
  · exact launched_run h hi [.answer i .undecodable]
  · by_cases hreq : s.sender i = .requesting
    · simp only [step, hreq, if_true, answer, Answer.err, sender_moveTo_self]
      split_ifs <;> simp
    · simp only [step, if_neg hreq]
      exact hreq

theorem ends_all (l : List Nat) (hl : ∀ i ∈ l, s.sender i ≠ .idle) :
    ∃ es : List Event, (∀ e ∈ es, e ≠ .pause true) ∧
      ∀ i ∈ l, (Schedule.exec (step n hint owners handoff) s es).sender i = .ended := by
  induction l generalizing s with
  | nil => exact ⟨[], by simp, by simp⟩
  | cons i l ih =>
    let first : List Event := [.answer i .undecodable, .proceed i]
    obtain ⟨es, hes, hrest⟩ := ih (sound_run h first) fun j hj =>
      launched_run h (hl j (List.mem_cons_of_mem i hj)) first
    refine ⟨first ++ es, ?_, ?_⟩
    · intro e he
      rcases List.mem_append.mp he with he | he
      · simp only [first, List.mem_cons, List.not_mem_nil, or_false] at he
        rcases he with rfl | rfl
        · simp
        · simp
      · exact hes e he
    · intro j hj
      rw [Schedule.exec_append]
      rcases List.mem_cons.mp hj with rfl | hj
      · exact ended_run (sound_run h first) (ends hint h (hl j List.mem_cons_self)) es
      · exact hrest j hj

end

structure Launched (n : Node K V) (owners : List NodeMeta) (s s' : Replication) : Prop where
  caller : s'.caller = if want n owners ≤ 0 then .returned (.ok ()) else .waiting
  acks : s'.acks = s.acks
  errCh : s'.errCh = s.errCh
  sender : ∀ j, s'.sender j = s.sender j ∨ s'.sender j = .requesting

variable (hint handoff)

theorem launched_exec (k : Nat) (hs : s.caller = .launching i) (hk : owners.length ≤ i + k) :
    ∃ m, Launched n owners s
      (Schedule.exec (step n hint owners handoff) s (List.replicate m (.launch true))) := by
  induction k generalizing s i with
  | zero =>
    refine ⟨1, ?_⟩
    have hnone : owners[i]? = none := List.getElem?_eq_none_iff.mpr hk
    rw [List.replicate_one, Schedule.exec_cons, Schedule.exec_nil]
    simp only [step, hs, launch, hnone]
    exact ⟨rfl, rfl, rfl, fun _ => .inl rfl⟩
  | succ k ih =>
    cases hown : owners[i]? with
    | none => exact ih hs (Nat.le_add_right_of_le (List.getElem?_eq_none_iff.mp hown))
    | some own =>
      have hnext : (s.launch n owners handoff i true).caller = .launching (i + 1) ∧
          (s.launch n owners handoff i true).acks = s.acks ∧
          (s.launch n owners handoff i true).errCh = s.errCh ∧
          ∀ j, (s.launch n owners handoff i true).sender j = s.sender j ∨
            (s.launch n owners handoff i true).sender j = .requesting := by
        simp only [launch, hown, if_true]
        split_ifs
        · exact ⟨rfl, rfl, rfl, fun _ => .inl rfl⟩
        · refine ⟨rfl, rfl, rfl, fun j => ?_⟩
          by_cases hj : j = i
          · subst hj
            exact .inr (sender_moveTo_self ..)
          · exact .inl (sender_moveTo_of_ne hj ..)
      obtain ⟨hcaller, hacks, herrCh, hsender⟩ := hnext
      obtain ⟨m, hm⟩ := ih hcaller (by omega)
      refine ⟨m + 1, ?_⟩
      rw [List.replicate_succ, Schedule.exec_cons]
      simp only [step, hs]
      refine ⟨hm.caller, hm.acks.trans hacks, hm.errCh.trans herrCh, fun j => ?_⟩
      exact (hm.sender j).elim (fun heq => heq ▸ hsender j) .inr

/-- From every state of a call there is a way on which every goroutine ends. -/
theorem can_end (h : Sound n owners handoff False s) :
    ∃ es : List Event, (∀ e ∈ es, e ≠ .pause true) ∧
    ∀ i ∈ others n owners, (Schedule.exec (step n hint owners handoff) s es).sender i = .ended := by
  obtain ⟨m, hover⟩ : ∃ m, (Schedule.exec (step n hint owners handoff) s
      (List.replicate m (.launch true))).front owners = owners.length := by
    cases hs : s.caller with
    | launching i =>
      obtain ⟨m, hm⟩ := launched_exec hint handoff owners.length hs (Nat.le_add_left _ _)
      refine ⟨m, ?_⟩
      rw [front, hm.caller]
      split_ifs <;> rfl
    | waiting => exact ⟨0, by simp [front, hs]⟩
    | returned r => exact ⟨0, by simp [front, hs]⟩
  have hsound : Sound n owners handoff False (Schedule.exec (step n hint owners handoff) s
      (List.replicate m (.launch true))) := sound_run h _
  obtain ⟨es, hes, hall⟩ := ends_all hint hsound (others n owners) fun j hj =>
    (hsound.fits j).launched.mpr ⟨hj, by rw [hover]; exact lt_of_mem_others hj⟩
  refine ⟨List.replicate m (.launch true) ++ es, fun e he => ?_, fun j hj => ?_⟩
  · rcases List.mem_append.mp he with he | he
    · rw [List.eq_of_mem_replicate he]
      simp
    · exact hes e he
  · rw [Schedule.exec_append]
    exact hall j hj

end Progress

section Concern

/-- Counted down by no more than one for each of the other owners, the `int32` comes to zero only
when the wanted acknowledgements have arrived. -/
def CounterFits (n : Node K V) (owners : List NodeMeta) : Prop :=
  ∀ oks ≤ (others n owners).length, metConcern (want n owners) oks = true →
    want n owners ≤ oks

theorem Sound.acks_le (h : Sound n owners handoff hinting s) (i : Nat) : s.acks.count i ≤ 1 := by
  have honce := (h.fits i).once
  split_ifs at honce <;> omega

theorem Sound.mem_acks (h : Sound n owners handoff hinting s) (hi : i ∈ s.acks) :
    i ∈ others n owners := by
  have hpos : 0 < s.acks.count i := List.count_pos_iff.mpr hi
  refine ((h.fits i).launched.mp fun hidle => ?_).1
  have hzero := h.counts_zero (i := i) (by rw [hidle]; rfl)
  omega

structure Acking (n : Node K V) (owners : List NodeMeta) (handoff : Bool) (l : List Nat)
    (s : Replication) : Prop where
  sound : Sound n owners handoff False s
  waiting : s.caller = .waiting
  asked : ∀ i ∈ others n owners, i ∉ l → s.sender i = .requesting
  acks : s.acks = l
  none : ∀ err ∈ s.errCh, err = none
  met : metConcern (want n owners) l.length = true → s.errCh ≠ []

variable (hint handoff)

section
variable (hwant : 0 < want n owners)
include hwant

theorem acking_start : ∃ es, Acking n owners handoff [] (exec n hint owners handoff es) := by
  obtain ⟨m, hm⟩ := launched_exec (s := start n owners) hint handoff owners.length rfl
    (Nat.le_add_left _ _)
  have hsound : Sound n owners handoff False
      (exec n hint owners handoff (List.replicate m (.launch true))) := sound_exec nofun
  have hwaiting : (exec n hint owners handoff (List.replicate m (.launch true))).caller =
      .waiting :=
    hm.caller.trans (if_neg (Int.not_le.mpr hwant))
  refine ⟨List.replicate m (.launch true), hsound, hwaiting, fun i hi _ => ?_, hm.acks, ?_, ?_⟩
  · refine (hm.sender i).resolve_left fun hidle => ?_
    refine (hsound.fits i).launched.mpr ⟨hi, ?_⟩ hidle
    rw [front, hwaiting]
    exact lt_of_mem_others hi
  · intro err herr
    have herr : err ∈ (start n owners).errCh := hm.errCh ▸ herr
    cases herr
  · intro hmet
    obtain ⟨j, hpos, hj, -⟩ := metConcern_iff.mp hmet
    exact absurd hpos (Nat.not_lt.mpr hj)

theorem acking_next {l : List Nat} (h : Acking n owners handoff l s) (hi : i ∈ others n owners)
    (hil : i ∉ l) : ∃ es,
    Acking n owners handoff (l ++ [i]) (Schedule.exec (step n hint owners handoff) s es) := by
  let ok : Answer := .reply ⟨0, true, ""⟩
  have hreq := h.asked i hi hil
  have hok : ok.err hint = none := rfl
  have hremaining : wrap32 (s.remaining - 1) = wrap32 (want n owners - (l.length + 1 : Nat)) := by
    rw [h.sound.remaining hwant, h.acks, wrap32_pred]
    congr 1
    omega
  have hroom : s.errCh.length < owners.length :=
    h.sound.errCh_lt (i := i) (by simp [hreq]) (by simp [hreq])
  have hasked : ∀ t, ∀ j ∈ others n owners, j ∉ l ++ [i] →
      update s.sender i t j = .requesting := by
    intro t j hj hjl
    rw [List.mem_append, List.mem_singleton, not_or] at hjl
    rw [update_of_ne hjl.2]
    exact h.asked j hj hjl.1
  have hsound : Sound n owners handoff False (Schedule.exec (step n hint owners handoff) s
      [.answer i ok, .proceed i]) := sound_run h.sound _
  refine ⟨[.answer i ok, .proceed i], ?_⟩
  by_cases hle : wrap32 (s.remaining - 1) ≤ 0
  · have hrun : Schedule.exec (step n hint owners handoff) s [.answer i ok, .proceed i]
        = { s with
            acks := s.acks ++ [i]
            remaining := wrap32 (s.remaining - 1)
            errCh := s.errCh ++ [none]
            sender := update s.sender i .ended } := by
      simp [step, hreq, answer, hok, Int.not_le.mpr hwant, hle, proceed, moveTo, hroom]
    rw [hrun] at hsound ⊢
    refine ⟨hsound, h.waiting, hasked _, by rw [h.acks], ?_, fun _ => by simp⟩
    intro err herr
    rcases List.mem_append.mp herr with herr | herr
    · exact h.none err herr
    · exact List.mem_singleton.mp herr
  · have hrun : Schedule.exec (step n hint owners handoff) s [.answer i ok, .proceed i]
        = { s with
            acks := s.acks ++ [i]
            remaining := wrap32 (s.remaining - 1)
            sender := update s.sender i .ended } := by
      simp [step, hreq, answer, hok, Int.not_le.mpr hwant, hle, proceed, moveTo]
    rw [hrun] at hsound ⊢
    refine ⟨hsound, h.waiting, hasked _, by rw [h.acks], h.none, fun hmet => h.met ?_⟩
    rw [List.length_append, List.length_singleton] at hmet
    exact metConcern_of_succ hmet (hremaining ▸ hle)

theorem acking_list (l : List Nat) (hnodup : l.Nodup) (hl : ∀ i ∈ l, i ∈ others n owners) :
    ∃ es, Acking n owners handoff l (exec n hint owners handoff es) := by
  induction l using List.reverseRecOn with
  | nil => exact acking_start hint handoff hwant
  | append_singleton l i ih =>
    rw [List.nodup_append] at hnodup
    obtain ⟨es, h⟩ := ih hnodup.1 fun j hj => hl j (List.mem_append_left _ hj)
    have hil : i ∉ l := fun hmem => hnodup.2.2 i hmem i List.mem_cons_self rfl
    obtain ⟨es', h'⟩ := acking_next hint handoff hwant h
      (hl i (List.mem_append_right _ List.mem_cons_self)) hil
    refine ⟨es ++ es', ?_⟩
    rw [exec, Schedule.exec_append]
    exact h'

/-- Once the counter is down, the caller returns with the acknowledgements that are there. -/
theorem returns_early {oks : Nat} (hoks : oks ≤ (others n owners).length)
    (hmet : metConcern (want n owners) oks = true) :
    ∃ es, (exec n hint owners handoff es).caller = .returned (.ok ()) ∧
      (exec n hint owners handoff es).acks.length = oks := by
  have hlen : ((others n owners).take oks).length = oks := by
    rw [List.length_take, Nat.min_eq_left hoks]
  obtain ⟨es, h⟩ := acking_list hint handoff hwant ((others n owners).take oks)
    (nodup_others.sublist (List.take_sublist _ _)) fun i hi => List.mem_of_mem_take hi
  refine ⟨es ++ [.receive], ?_⟩
  rw [exec, Schedule.exec_concat]
  change Acking n owners handoff _
    (Schedule.exec (step n hint owners handoff) (start n owners) es) at h
  generalize Schedule.exec (step n hint owners handoff) (start n owners) es = s at h
  have hne := h.met (by rwa [hlen])
  cases hch : s.errCh with
  | nil => exact absurd hch hne
  | cons err errs =>
    have herr : err = none := h.none err (by rw [hch]; exact List.mem_cons_self)
    subst herr
    simp only [step, h.waiting, receive, hch]
    refine ⟨trivial, ?_⟩
    rw [h.acks, hlen]

end

structure Promised (n : Node K V) (hint : Hint) (owners : List NodeMeta) (handoff : Bool)
    (es : List Event) : Prop where
  concern : (exec n hint owners handoff es).caller = .returned (.ok ()) →
    n.required ≤ (exec n hint owners handoff es).acks.length + ownAcks n owners
  counted : (exec n hint owners handoff es).acks.Nodup ∧
    ∀ i ∈ (exec n hint owners handoff es).acks, i ∈ others n owners
  covered : handoff = true → (∀ e ∈ es, e ≠ .pause true) → ∀ i ∈ others n owners,
    (exec n hint owners handoff es).sender i = .ended →
      i ∈ (exec n hint owners handoff es).acks ∧ i ∉ (exec n hint owners handoff es).handed ∨
      i ∉ (exec n hint owners handoff es).acks ∧ (exec n hint owners handoff es).handed.count i = 1
  ends : ∃ es', (∀ e ∈ es', e ≠ .pause true) ∧
    ∀ i ∈ others n owners, (exec n hint owners handoff (es ++ es')).sender i = .ended

/-- `replicateSet` and `replicateDelete` keep their promises in every run exactly if the wanted
acknowledgements can be counted down. -/
theorem promised_iff (n : Node K V) (hint : Hint) (owners : List NodeMeta) (handoff : Bool) :
    (∀ es, Promised n hint owners handoff es) ↔ CounterFits n owners := by
  constructor
  · intro h oks hoks hmet
    by_cases hwant : 0 < want n owners
    · obtain ⟨es, hret, hlen⟩ := returns_early hint handoff hwant hoks hmet
      have hconcern := (h es).concern hret
      rw [hlen] at hconcern
      unfold want
      omega
    · omega
  · intro hfits es
    have h : Sound n owners handoff False (exec n hint owners handoff es) := sound_exec nofun
    have hnodup : (exec n hint owners handoff es).acks.Nodup :=
      List.nodup_iff_count_le_one.mpr h.acks_le
    have hsub : ∀ i ∈ (exec n hint owners handoff es).acks, i ∈ others n owners :=
      fun i hi => h.mem_acks hi
    refine ⟨fun hret => ?_, ⟨hnodup, hsub⟩, ?_, ?_⟩
    · have hle : (exec n hint owners handoff es).acks.length ≤ (others n owners).length :=
        (hnodup.subperm hsub).length_le
      have hwant : want n owners ≤ (exec n hint owners handoff es).acks.length := by
        rcases h.met (.inl hret) with hneg | hmet
        · omega
        · exact hfits _ hle hmet
      unfold want at hwant
      omega
    · rintro rfl hes i - hended
      have hsound : Sound n owners true True (exec n hint owners true es) :=
        sound_exec fun _ => ⟨rfl, hes⟩
      have hcovered := (hsound.fits i).covered trivial (by rw [hended]; rfl)
      have honce := (hsound.fits i).once
      rw [hended, if_pos (by rfl)] at honce
      by_cases hi : i ∈ (exec n hint owners true es).acks
      · have hpos := List.count_pos_iff.mpr hi
        exact .inl ⟨hi, List.count_eq_zero.mp (by omega)⟩
      · have hzero := List.count_eq_zero.mpr hi
        exact .inr ⟨hi, by omega⟩
    · obtain ⟨es', hes', hall⟩ := can_end hint handoff h
      refine ⟨es', hes', fun i hi => ?_⟩
      rw [exec, Schedule.exec_append]
      exact hall i hi

def wide : Node UInt8 UInt8 :=
  { plain [1] ⟨[], 1⟩ (freshCache fun n => n) with cfg := ⟨[1], 2 ^ 32 + 1, 0, ⟨0, 0, 0⟩, true⟩ }

/-- The node is the first owner, and the OK of the only other one makes the call return `nil`. -/
theorem wide_returns_nil :
    let owners : List NodeMeta := [⟨[1], 1, 1⟩, ⟨[2], 1, 2⟩]
    let s := exec wide (.del [7] 1) owners true
      [.launch true, .launch true, .launch true, .answer 1 (.reply ⟨0, true, ""⟩), .proceed 1,
        .receive]
    (match s.caller with
      | .returned (.ok _) => true
      | _ => false, s.acks, ownAcks wide owners, wide.required) = (true, [1], 1, 2 ^ 32 + 1) := by
  decide +kernel

end Concern

end Replication

end Kioshun
