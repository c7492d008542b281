import Kioshun.Cache.ManagerRace

/-!
# Instances that leave the registry

Every instance that `GetCache` creates has one place: with the call that created it, in the
registry under one name, or with the `RemoveCache` that has taken it out. Only `CloseAll` can
drop one that is open, and only if it was stored while `CloseAll` ran.
-/

namespace Kioshun
open Function Schedule List

universe u v
variable {ι : Type v} {τ : Type u}

namespace ManagerRace
variable {s s' : ManagerRace ι τ} {e : ManagerEvent ι}

section Invariant

/-- Where the instances are: stored ones have been in the registry under one name; a call that has
created one has it for itself until it is stored or found to be second. -/
structure Inv (s : ManagerRace ι τ) : Prop where
  registered : ∀ name i, s.m.caches.Load name = some i → i ∈ s.stored
  unique : ∀ name name' i, s.m.caches.Load name = some i → s.m.caches.Load name' = some i →
    name = name'
  bound : ∀ i, i ∈ s.stored ∨ i ∈ s.lost → i < s.m.instances.length
  owned : ∀ c i, (s.calls c).owns = some i → i < s.m.instances.length ∧ i ∉ s.stored
  sole : ∀ c c' i, (s.calls c).owns = some i → (s.calls c').owns = some i → c = c'
  removed : ∀ c i, (s.calls c).removed = some i →
    i ∈ s.stored ∧ ∀ name, s.m.caches.Load name ≠ some i
  given : ∀ c i, (s.calls c).given = some i → i ∈ s.stored
  waiting : ∀ c t name i, s.calls c = .loadOrStore t name i → i ∉ s.lost
  second : ∀ i ∈ s.lost, i ∉ s.stored ∧
    (s.m.isClosed i = true ∨ ∃ c t name actual, s.calls c = .closeOwn t name i actual)

theorem start_inv (todo : ι → ManagerRequest τ) : (start todo).Inv := by
  constructor <;> simp [start, Manager.NewManager, ManagerCall.owns, ManagerCall.removed,
    ManagerCall.given]

/-- The registry loses names and instances are closed. -/
theorem Inv.shrink (h : s.Inv) {m' : Manager τ}
    (hload : ∀ name i, m'.caches.Load name = some i → s.m.caches.Load name = some i)
    (hlen : m'.instances.length = s.m.instances.length)
    (hclosed : ∀ i, s.m.isClosed i = true → m'.isClosed i = true) : Inv { s with m := m' } := by
  constructor
  · exact fun name i hi => h.registered name i (hload name i hi)
  · exact fun name name' i hi hi' => h.unique name name' i (hload name i hi) (hload name' i hi')
  · exact fun i hi => hlen ▸ h.bound i hi
  · exact fun c i hi => hlen ▸ h.owned c i hi
  · exact h.sole
  · intro c i hi
    obtain ⟨hstored, hnone⟩ := h.removed c i hi
    exact ⟨hstored, fun name hname => hnone name (hload name i hname)⟩
  · exact h.given
  · exact h.waiting
  · intro i hi
    obtain ⟨hstored, hshut⟩ := h.second i hi
    exact ⟨hstored, hshut.imp_left (hclosed i)⟩

theorem Inv.close (h : s.Inv) (i : Nat) : Inv { s with m := s.m.Close i } :=
  h.shrink (fun _ _ hi => hi) Manager.length_Close fun _ => Manager.isClosed_of_Close

theorem Inv.delete (h : s.Inv) (name : String) :
    Inv { s with m := { s.m with caches := s.m.caches.Delete name } } :=
  h.shrink (fun _ _ hi => (SyncMap.Load_of_Delete hi).2) rfl fun _ hi => hi

/-- An instance that no call has for itself is stored. -/
theorem Inv.register (h : s.Inv) (name : String) {i : Nat} (hlt : i < s.m.instances.length)
    (hfresh : i ∉ s.stored) (hlost : i ∉ s.lost) (howned : ∀ c, (s.calls c).owns ≠ some i) :
    Inv { s with
      m := { s.m with caches := s.m.caches.Store name i }, stored := s.stored ++ [i] } := by
  have hkept : ∀ {i'}, i' ∈ s.stored → i' ∈ s.stored ++ [i] := mem_append_left _
  have hcases : ∀ {i'}, i' ∈ s.stored ++ [i] → i' ∈ s.stored ∨ i' = i := fun hi =>
    (mem_append.mp hi).imp_right mem_singleton.mp
  have hnames : ∀ {name' i'}, (s.m.caches.Store name i).Load name' = some i' →
      name' = name ∧ i' = i ∨ s.m.caches.Load name' = some i' := by
    intro name' i' hi
    rw [SyncMap.Load_Store] at hi
    split at hi
    · exact .inl ⟨‹_›, (Option.some.inj hi).symm⟩
    · exact .inr hi
  refine ⟨?_, ?_, ?_, ?_, h.sole, ?_, fun c i' hi => hkept (h.given c i' hi), h.waiting, ?_⟩
  · intro name' i' hi
    rcases hnames hi with ⟨-, rfl⟩ | hold
    · exact mem_append_right _ (mem_singleton_self i')
    · exact hkept (h.registered name' i' hold)
  · intro name₁ name₂ i' h₁ h₂
    rcases hnames h₁ with ⟨rfl, rfl⟩ | hold₁ <;> rcases hnames h₂ with ⟨rfl, heq⟩ | hold₂
    · rfl
    · exact absurd (h.registered name₂ i' hold₂) hfresh
    · exact absurd (h.registered name₁ i' hold₁) (heq ▸ hfresh)
    · exact h.unique name₁ name₂ i' hold₁ hold₂
  · rintro i' (hi | hi)
    · rcases hcases hi with hi | rfl
      · exact h.bound i' (.inl hi)
      · exact hlt
    · exact h.bound i' (.inr hi)
  · intro c i' hi
    refine ⟨(h.owned c i' hi).1, fun hmem => ?_⟩
    rcases hcases hmem with hold | rfl
    · exact (h.owned c i' hi).2 hold
    · exact howned c hi
  · intro c i' hi
    obtain ⟨hmem, hnone⟩ := h.removed c i' hi
    refine ⟨hkept hmem, fun name' hname' => ?_⟩
    rcases hnames hname' with ⟨-, rfl⟩ | hold
    · exact hfresh hmem
    · exact hnone name' hold
  · intro i' hi
    obtain ⟨hnot, hshut⟩ := h.second i' hi
    refine ⟨fun hmem => ?_, hshut⟩
    rcases hcases hmem with hold | rfl
    · exact hnot hold
    · exact hlost hi

variable [DecidableEq ι]

section
variable (h : s.Inv)
include h

theorem Inv.call {c : ι} {call : ManagerCall τ}
    (howns : ∀ i, call.owns = some i → (i < s.m.instances.length ∧ i ∉ s.stored) ∧
      ∀ c', c' ≠ c → (s.calls c').owns ≠ some i)
    (hremoved : ∀ i, call.removed = some i → i ∈ s.stored ∧ ∀ name, s.m.caches.Load name ≠ some i)
    (hgiven : ∀ i, call.given = some i → i ∈ s.stored)
    (hwaiting : ∀ t name i, call = .loadOrStore t name i → i ∉ s.lost)
    (hsecond : ∀ t name i actual, s.calls c = .closeOwn t name i actual → s.m.isClosed i = true) :
    Inv { s with calls := update s.calls c call } := by
  have hupd : ∀ c', c' ≠ c → update s.calls c call c' = s.calls c' := fun c' hc' =>
    update_of_ne hc' _ _
  have hself : update s.calls c call c = call := update_self ..
  refine ⟨h.registered, h.unique, h.bound, ?_, ?_, ?_, ?_, ?_, ?_⟩
  · intro c' i hi
    by_cases hc : c' = c
    · subst hc
      exact (howns i (hself ▸ hi)).1
    · exact h.owned c' i (hupd c' hc ▸ hi)
  · intro c₁ c₂ i h₁ h₂
    by_cases hc₁ : c₁ = c <;> by_cases hc₂ : c₂ = c
    · exact hc₁.trans hc₂.symm
    · subst hc₁
      exact absurd (hupd c₂ hc₂ ▸ h₂) ((howns i (hself ▸ h₁)).2 c₂ hc₂)
    · subst hc₂
      exact absurd (hupd c₁ hc₁ ▸ h₁) ((howns i (hself ▸ h₂)).2 c₁ hc₁)
    · exact h.sole c₁ c₂ i (hupd c₁ hc₁ ▸ h₁) (hupd c₂ hc₂ ▸ h₂)
  · intro c' i hi
    by_cases hc : c' = c
    · subst hc
      exact hremoved i (hself ▸ hi)
    · exact h.removed c' i (hupd c' hc ▸ hi)
  · intro c' i hi
    by_cases hc : c' = c
    · subst hc
      exact hgiven i (hself ▸ hi)
    · exact h.given c' i (hupd c' hc ▸ hi)
  · intro c' t name i hi
    by_cases hc : c' = c
    · subst hc
      exact hwaiting t name i (hself.symm.trans hi)
    · exact h.waiting c' t name i ((hupd c' hc).symm.trans hi)
  · intro i hi
    obtain ⟨hstored, hclosed | ⟨c', t, name, actual, hown⟩⟩ := h.second i hi
    · exact ⟨hstored, .inl hclosed⟩
    · by_cases hc : c' = c
      · subst hc
        exact ⟨hstored, .inl (hsecond t name i actual hown)⟩
      · exact ⟨hstored, .inr ⟨c', t, name, actual, (hupd c' hc).trans hown⟩⟩

theorem Inv.call_none {c : ι} {call : ManagerCall τ} (howns : call.owns = none)
    (hremoved : ∀ i, call.removed = some i → i ∈ s.stored ∧ ∀ name, s.m.caches.Load name ≠ some i)
    (hgiven : ∀ i, call.given = some i → i ∈ s.stored)
    (hsecond : ∀ t name i actual, s.calls c = .closeOwn t name i actual → s.m.isClosed i = true) :
    Inv { s with calls := update s.calls c call } := by
  refine h.call (fun i hi => ?_) hremoved hgiven (fun t name i hi => ?_) hsecond
  · cases howns.symm.trans hi
  · subst hi
    cases howns

/-- A call that has created nothing proceeds and has no instance. -/
theorem Inv.call_empty {c : ι} {call : ManagerCall τ} (hold : (s.calls c).owns = none)
    (hnew : call.owns = none ∧ call.removed = none ∧ call.given = none) :
    Inv { s with calls := update s.calls c call } := by
  obtain ⟨howns, hremoved, hgiven⟩ := hnew
  apply h.call_none howns
  · intro i hi
    cases hremoved.symm.trans hi
  · intro i hi
    cases hgiven.symm.trans hi
  · intro t name i actual hown
    cases (congrArg ManagerCall.owns hown).symm.trans hold

theorem Inv.create (c : ι) (t : τ) (name : String) (config : Config)
    (hcall : s.calls c = .create t name config) : Inv { s with
      m := (s.m.New t config).2
      calls := update s.calls c (.loadOrStore t name s.m.instances.length) } := by
  have hlen : s.m.instances.length < (s.m.New t config).2.instances.length := by
    simp [Manager.New]
  have hgrow : Inv { s with m := (s.m.New t config).2 } := by
    refine ⟨h.registered, h.unique, ?_, ?_, h.sole, h.removed, h.given, h.waiting, ?_⟩
    · exact fun i hi => Nat.lt_trans (h.bound i hi) hlen
    · exact fun c' i hi => ⟨Nat.lt_trans (h.owned c' i hi).1 hlen, (h.owned c' i hi).2⟩
    · intro i hi
      obtain ⟨hstored, hshut⟩ := h.second i hi
      refine ⟨hstored, hshut.imp_left fun hclosed => ?_⟩
      exact (Manager.isClosed_New (h.bound i (.inr hi))).trans hclosed
  apply hgrow.call
  · rintro i ⟨⟩
    refine ⟨⟨hlen, fun hi => ?_⟩, fun c' _ hi => ?_⟩
    · exact Nat.lt_irrefl _ (h.bound _ (.inl hi))
    · exact Nat.lt_irrefl _ (h.owned c' _ hi).1
  · rintro i ⟨⟩
  · rintro i ⟨⟩
  · rintro t' name' i ⟨⟩ hi
    exact Nat.lt_irrefl _ (h.bound _ (.inr hi))
  · intro t' name' i actual hown
    cases hcall.symm.trans hown

theorem Inv.store (c : ι) (t : τ) (name : String) (i : Nat)
    (hcall : s.calls c = .loadOrStore t name i) : Inv { s with
      m := { s.m with caches := s.m.caches.Store name i }
      calls := update s.calls c (.returned (.ok (some i)))
      stored := s.stored ++ [i] } := by
  have howns : (s.calls c).owns = some i := congrArg ManagerCall.owns hcall
  obtain ⟨hlt, hfresh⟩ := h.owned c i howns
  -- the call lets go of the instance, which is stored and then returned
  have hleft : Inv { s with calls := update s.calls c (.returned (.ok none)) } := by
    apply h.call_none rfl
    · rintro i' ⟨⟩
    · rintro i' ⟨⟩
    · intro t' name' i' actual hown
      cases hcall.symm.trans hown
  have hnobody : ∀ c', (update s.calls c (.returned (.ok none)) c').owns ≠ some i := by
    intro c' hi
    by_cases hc : c' = c
    · subst hc
      rw [update_self] at hi
      cases hi
    · rw [update_of_ne hc] at hi
      exact hc (h.sole c' c i hi howns)
  have hstored := hleft.register name hlt hfresh (h.waiting c t name i hcall) hnobody
  have hself : update s.calls c (.returned (.ok none)) c = .returned (.ok none) :=
    update_self ..
  have hdone : Inv { s with
      m := { s.m with caches := s.m.caches.Store name i }
      calls := update (update s.calls c (.returned (.ok none))) c
        (.returned (.ok (some i)))
      stored := s.stored ++ [i] } := by
    apply hstored.call_none rfl (by rintro i' ⟨⟩)
    · rintro i' ⟨⟩
      exact mem_append_right _ (mem_singleton_self i)
    · intro t' name' i' actual hown
      cases hself.symm.trans hown
  simpa only [update_idem] using hdone

theorem Inv.lose (c : ι) (t : τ) (name : String) (i j : Nat)
    (hcall : s.calls c = .loadOrStore t name i) (hload : s.m.caches.Load name = some j) :
    Inv { s with
      calls := update s.calls c (.closeOwn t name i j)
      lost := s.lost ++ [i] } := by
  have howns : (s.calls c).owns = some i := congrArg ManagerCall.owns hcall
  have hnext : Inv { s with calls := update s.calls c (.closeOwn t name i j) } := by
    apply h.call
    · rintro i' ⟨⟩
      exact ⟨h.owned c i howns, fun c' hc' hi => hc' (h.sole c' c i hi howns)⟩
    · rintro i' ⟨⟩
    · rintro i' ⟨⟩
      exact h.registered name j hload
    · rintro t' name' i' ⟨⟩
    · intro t' name' i' actual hown
      cases hcall.symm.trans hown
  have hnew : update s.calls c (.closeOwn t name i j) c = .closeOwn t name i j :=
    update_self ..
  refine ⟨hnext.registered, hnext.unique, ?_, hnext.owned, hnext.sole, hnext.removed, hnext.given,
    ?_, ?_⟩
  · rintro i' (hi | hi)
    · exact h.bound i' (.inl hi)
    · rcases mem_append.mp hi with hi | hi
      · exact h.bound i' (.inr hi)
      · obtain rfl := mem_singleton.mp hi
        exact (h.owned c i' howns).1
  · intro c' t' name' i' hwait hi
    rcases mem_append.mp hi with hi | hi
    · exact hnext.waiting c' t' name' i' hwait hi
    · obtain rfl := mem_singleton.mp hi
      -- the instance belongs to the call that has just found another one
      have hc := hnext.sole c' c i' (congrArg ManagerCall.owns hwait)
        (congrArg ManagerCall.owns hnew)
      subst hc
      cases hnew.symm.trans hwait
  · intro i' hi
    rcases mem_append.mp hi with hi | hi
    · exact hnext.second i' hi
    · obtain rfl := mem_singleton.mp hi
      exact ⟨(h.owned c i' howns).2, .inr ⟨c, t, name, j, hnew⟩⟩

theorem Inv.change (hch : Change s e s') : s'.Inv := by
  cases hch with
  | rest => exact h
  | proceed _ c call configs hold hnew hgiven =>
    have hconfigs : Inv { s with m := { s.m with configs := configs } } :=
      h.shrink (fun _ _ hi => hi) rfl fun _ hi => hi
    apply hconfigs.call_none hnew.1
    · intro i hi
      cases hnew.2.symm.trans hi
    · intro i hi
      rcases hgiven i hi with hsame | ⟨name, hload⟩
      · exact h.given c i hsame
      · exact h.registered name i hload
    · intro t name i actual hown
      cases (congrArg ManagerCall.owns hown).symm.trans hold.1
  | create c t name config hcall => exact h.create c t name config hcall
  | store c t name i hcall hload => exact h.store c t name i hcall
  | lose c t name i j hcall hload => exact h.lose c t name i j hcall hload
  | discard c t name i j reply hcall hreply =>
    have howns : (s.calls c).owns = some i := congrArg ManagerCall.owns hcall
    have hgot : (s.calls c).given = some j := congrArg ManagerCall.given hcall
    apply (h.close i).call_none rfl
    · rintro i' ⟨⟩
    · intro i' hi
      cases reply with
      | error err => cases hi
      | ok r =>
        obtain rfl : r = some i' := hi
        exact hreply i' rfl ▸ h.given c j hgot
    · intro t' name' i' actual hown
      obtain ⟨-, -, rfl, -⟩ : t = t' ∧ name = name' ∧ i = i' ∧ j = actual := by
        simpa using hcall.symm.trans hown
      exact Manager.isClosed_Close_self (h.owned c i howns).1
  | shut c i hcall =>
    exact (h.close i).call_empty (congrArg ManagerCall.owns hcall) ⟨rfl, rfl, rfl⟩
  | sweep c k r r' i hcall =>
    exact (h.close i).call_empty (congrArg ManagerCall.owns hcall) ⟨rfl, rfl, rfl⟩
  | remove c name i hcall hload =>
    apply (h.delete name).call_none rfl
    · rintro i' ⟨⟩
      refine ⟨h.registered name i hload, fun name' hname' => ?_⟩
      obtain ⟨hne, hold⟩ := SyncMap.Load_of_Delete hname'
      exact hne (h.unique name' name i hold hload)
    · rintro i' ⟨⟩
    · intro t' name' i' actual hown
      cases hcall.symm.trans hown
  | clear c k r r' name value hcall hfound =>
    exact (h.delete name).call_empty (congrArg ManagerCall.owns hcall) ⟨rfl, rfl, rfl⟩

theorem step_inv [DecidableEq τ] (e : ManagerEvent ι) : (s.step e).Inv :=
  h.change (step_change s e)

end

end Invariant

section Leaks

/-- What was in the registry is there or is taken care of; closed instances stay closed, and a call
that is to close one does so or is still about to. -/
theorem Kept.of_change (h : s.Kept)
    (hstored : ∀ i ∈ s'.stored, i ∈ s.stored ∨ ∃ name, s'.m.caches.Load name = some i)
    (hload : ∀ name i, s.m.caches.Load name = some i → s'.m.caches.Load name = some i ∨
      s'.m.isClosed i = true ∨ ∃ c, s'.calls c = .close i)
    (hclosed : ∀ i ∈ s.stored, s.m.isClosed i = true → s'.m.isClosed i = true)
    (hcalls : ∀ c i, s.calls c = .close i → s'.m.isClosed i = true ∨ ∃ c, s'.calls c = .close i) :
    s'.Kept := by
  intro i hi
  rcases hstored i hi with hold | hnew
  · rcases h i hold with ⟨name, hname⟩ | hshut | ⟨c, hc⟩
    · exact (hload name i hname).imp_left fun hname' => ⟨name, hname'⟩
    · exact .inr (.inl (hclosed i hold hshut))
    · exact .inr (hcalls c i hc)
  · exact .inl hnew

theorem Inv.discarded (h : s.Inv) : s.Discarded := by
  intro i hi
  obtain ⟨hstored, hshut⟩ := h.second i hi
  refine ⟨hshut, fun c hc => hstored (h.given c i ?_)⟩
  rw [hc]
  rfl

variable [DecidableEq ι]

/-- The other calls are still about to close what they have removed. -/
theorem close_update {c : ι} {call : ManagerCall τ} (hcall : (s.calls c).removed = none) (c' : ι)
    (i : Nat) (h : s.calls c' = .close i) : ∃ c', update s.calls c call c' = .close i := by
  refine ⟨c', ?_⟩
  by_cases hc : c' = c
  · subst hc
    rw [h] at hcall
    cases hcall
  · rw [update_of_ne hc, h]

/-- Under the condition nothing leaks. -/
theorem Kept.change (hk : s.Kept) (h : s.Inv) (hch : Change s e s') (hguard : s.ClearsClosed e) :
    s'.Kept := by
  cases hch with
  | rest => exact hk
  | proceed _ c call configs hold hnew hgiven =>
    exact hk.of_change (fun _ hi => .inl hi) (fun _ _ hi => .inl hi) (fun _ _ hi => hi)
      fun c' i hi => .inr (close_update hold.2 c' i hi)
  | create c t name config hcall =>
    refine hk.of_change (fun _ hi => .inl hi) (fun _ _ hi => .inl hi) (fun i hi hshut => ?_)
      fun c' i hi => .inr (close_update (by rw [hcall]; rfl) c' i hi)
    exact (Manager.isClosed_New (h.bound i (.inl hi))).trans hshut
  | store c t name i hcall hload =>
    refine hk.of_change (fun i' hi => ?_) (fun name' i' hi => .inl ?_) (fun _ _ hi => hi)
      fun c' i hi => .inr (close_update (by rw [hcall]; rfl) c' i hi)
    · rcases mem_append.mp hi with hold | hnew
      · exact .inl hold
      · obtain rfl := mem_singleton.mp hnew
        exact .inr ⟨name, SyncMap.Load_Store.trans (if_pos rfl)⟩
    · have hne : name' ≠ name := by
        rintro rfl
        cases hload.symm.trans hi
      exact SyncMap.Load_Store.trans ((if_neg hne).trans hi)
  | lose c t name i j hcall hload =>
    exact hk.of_change (fun _ hi => .inl hi) (fun _ _ hi => .inl hi) (fun _ _ hi => hi)
      fun c' i hi => .inr (close_update (by rw [hcall]; rfl) c' i hi)
  | discard c t name i j reply hcall hreply =>
    exact hk.of_change (fun _ hi => .inl hi) (fun _ _ hi => .inl hi)
      (fun _ _ => Manager.isClosed_of_Close)
      fun c' i hi => .inr (close_update (by rw [hcall]; rfl) c' i hi)
  | shut c i hcall =>
    refine hk.of_change (fun _ hi => .inl hi) (fun _ _ hi => .inl hi)
      (fun _ _ => Manager.isClosed_of_Close) fun c' i' hi => ?_
    by_cases hc : c' = c
    · subst hc
      obtain rfl : i = i' := by simpa using hcall.symm.trans hi
      have hmem := (h.removed c' i (congrArg ManagerCall.removed hcall)).1
      exact .inl (Manager.isClosed_Close_self (h.bound i (.inl hmem)))
    · exact .inr ⟨c', (update_of_ne hc _ _).trans hi⟩
  | sweep c k r r' i hcall =>
    exact hk.of_change (fun _ hi => .inl hi) (fun _ _ hi => .inl hi)
      (fun _ _ => Manager.isClosed_of_Close)
      fun c' i hi => .inr (close_update (by rw [hcall]; rfl) c' i hi)
  | remove c name i hcall hload =>
    refine hk.of_change (fun _ hi => .inl hi) (fun name' i' hi => ?_) (fun _ _ hi => hi)
      fun c' i hi => .inr (close_update (by rw [hcall]; rfl) c' i hi)
    by_cases hname : name' = name
    · subst hname
      obtain rfl : i = i' := Option.some.inj (hload.symm.trans hi)
      exact .inr (.inr ⟨c, update_self ..⟩)
    · exact .inl (SyncMap.Load_Delete.trans ((if_neg hname).trans hi))
  | clear c k r r' name value hcall hfound =>
    refine hk.of_change (fun _ hi => .inl hi) (fun name' i' hi => ?_) (fun _ _ hi => hi)
      fun c' i hi => .inr (close_update (by rw [hcall]; rfl) c' i hi)
    by_cases hname : name' = name
    · subst hname
      simp only [ClearsClosed, hcall] at hguard
      exact .inr (.inl (hguard name' value i' hfound hi))
    · exact .inl (SyncMap.Load_Delete.trans ((if_neg hname).trans hi))

variable [DecidableEq τ]

/-- A name whose instance is open leaks the instance when it is deleted. -/
theorem clearsClosed_of_kept (h : s.Inv) (hk : (s.step e).Kept) : s.ClearsClosed e := by
  cases e with
  | next c => trivial
  | look c name => trivial
  | visit c k =>
    cases hcall : s.calls c with
    | clearing r =>
      simp only [ClearsClosed, hcall]
      intro name value i hfound hload
      have hstep : s.step (.visit c k) = { s with
          m := { s.m with caches := s.m.caches.Delete name }
          calls := update s.calls c (.clearing (r.hand k)) } := by
        simp only [step, hcall, Manager.visit, hfound]
      rw [hstep] at hk
      rcases hk i (h.registered name i hload) with ⟨name', hname'⟩ | hshut | ⟨c', hc'⟩
      · obtain ⟨hne, hold⟩ := SyncMap.Load_of_Delete hname'
        exact absurd (h.unique name' name i hold hload) hne
      · exact hshut
      · by_cases hc : c' = c
        · subst hc
          cases (update_self c' _ s.calls).symm.trans hc'
        · have hold : s.calls c' = .close i := (update_of_ne hc _ _).symm.trans hc'
          have hnone := (h.removed c' i (congrArg ManagerCall.removed hold)).2 name
          exact absurd hload hnone
    | _ => simp only [ClearsClosed, hcall]

/-- In every run no instance leaks, at no time, exactly if `CloseAll` deletes no name whose instance
is open; the instances that came second are closed and never returned, in any case. -/
theorem kept_iff_clearsClosed (todo : ι → ManagerRequest τ) (es : List (ManagerEvent ι)) :
    ((∀ fs, fs <+: es → (exec todo fs).Kept) ↔
        Along step ClearsClosed (start todo) es) ∧
      (exec todo es).Discarded := by
  have hinv : ∀ s e, s.Inv → (step s e : ManagerRace ι τ).Inv := fun s e h => step_inv h e
  have hstart : (start todo).Kept := fun i hi => absurd hi not_mem_nil
  constructor
  · apply prefixes_iff_along hinv
    · intro s e hs hk
      exact ⟨clearsClosed_of_kept hs, fun hguard => hk.change hs (step_change s e) hguard⟩
    · exact start_inv todo
    · exact hstart
  · exact (exec_invariant hinv (start_inv todo)).discarded

/-- An instance is stored after the first traversal of `CloseAll` and deleted by the second one:
nobody closes it. -/
theorem leaks_between_traversals :
    let todo : Bool → ManagerRequest Unit := fun c => if c then .CloseAll else .GetCache () "a"
    let es : List (ManagerEvent Bool) := [.next true, .next true, .next false, .next false,
      .next false, .next false, .next true, .look true "a", .visit true 0, .next true]
    (exec todo es).calls false = .returned (.ok (some 0)) ∧
      (exec todo es).calls true = .returned (.ok none) ∧ (exec todo es).stored = [0] ∧
      (exec todo es).m.caches.Load "a" = none ∧ (exec todo es).m.isClosed 0 = false ∧
      ¬(exec todo es).Kept := by
  intro todo es
  have hstored : (exec todo es).stored = [0] := by decide +kernel
  have hopen : (exec todo es).m.isClosed 0 = false := by decide +kernel
  have hfalse : (exec todo es).calls false = .returned (.ok (some 0)) := rfl
  have htrue : (exec todo es).calls true = .returned (.ok none) := rfl
  have hnone : ∀ name, (exec todo es).m.caches.Load name = none := fun _ => rfl
  refine ⟨hfalse, htrue, hstored, hnone "a", hopen, fun hk => ?_⟩
  rcases hk 0 (hstored ▸ mem_singleton_self 0) with ⟨name, hname⟩ | hshut | ⟨c, hc⟩
  · cases (hnone name).symm.trans hname
  · cases hopen.symm.trans hshut
  · cases c with
    | false =>
      rw [hfalse] at hc
      cases hc
    | true =>
      rw [htrue] at hc
      cases hc

end Leaks

end ManagerRace

end Kioshun
