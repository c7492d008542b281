import Kioshun.Cluster.HintInvariant

/-!
# What `enqueue` does with a hint

`enqueue` puts the hint into the queue and looks at the caps afterwards. If they are
exceeded it drops other hints, under `DropOldest`, or takes the hint out again. All its
ways to return are listed once; what the callers are told, what a rejected hint costs
and which hints are kept is read off that list.
-/

namespace Kioshun

namespace HintQueue
variable {q q₁ q₂ q₃ q' q'' : HintQueue} {p a e i j : Nat} {now : Int}

/-- The queue with the hint in it, before `enqueue` looks at the caps. -/
def installed (q : HintQueue) (it : Nat) (now : Int) : HintQueue :=
  match q.index (q.item it).key with
  | some old =>
    let q₁ := q.inherit it old
    ((q₁.replace it old).count 0 ((q₁.item it).size - (q₁.item old).size)).setIndex
      (q.item it).key it
  | none =>
    let q₁ := q.place it now
    (q₁.setIndex (q.item it).key it).count 1 (q₁.item it).size

/-- `enqueue` goes past its checks: the hint has not expired, and it is newer than the queued one
for its key. -/
def Fresh (q : HintQueue) (it : Nat) (now : Int) : Prop :=
  (q.item it).expired q.ttl now = false ∧
    ∀ old, q.index (q.item it).key = some old → (q.item old).ver < (q.item it).ver

/-- The queue with the hint in it, without all those that `dropOldest` finds. -/
def cleared (q : HintQueue) (it : Nat) (now : Int) : HintQueue :=
  exhaust it (q.installed it now).rounds (q.installed it now)

/-- The hint is in the queue, in the place of the one that has its key. -/
structure Enters (q : HintQueue) (a : Nat) (q₁ : HintQueue) : Prop where
  sound : q₁.Sound
  new : q₁.Queued a
  queued : ∀ x, q₁.Queued x ↔ (q.Queued x ∧ q.index (q.item a).key ≠ some x) ∨ x = a
  payload : (q₁.item a).payload = (q.item a).payload
  content : ∀ x, x ≠ a → (q₁.item x).content = (q.item x).content
  limits : q₁.limits = q.limits
  drop : q₁.drop = q.drop

theorem Enters.key (h : Enters q a q₁) : (q₁.item a).key = (q.item a).key :=
  HintItem.eq_of_payload HintItem.key (fun _ => rfl) h.payload

theorem Enters.size (h : Enters q a q₁) : (q₁.item a).size = (q.item a).size :=
  HintItem.eq_of_payload HintItem.size (fun _ => rfl) h.payload

/-- The hint has been taken out of `q₂` again, and the one that it replaced is back. -/
structure Back (q : HintQueue) (a : Nat) (q₁ q₂ q' : HintQueue) : Prop where
  sound : q'.Sound
  queued : ∀ x, q'.Queued x ↔ (q₂.Queued x ∧ x ≠ a) ∨ q.index (q.item a).key = some x
  content : ∀ x, x ≠ a → (q'.item x).content = (q.item x).content
  limits : q'.limits = q.limits
  items : q'.items - q.items = q₂.items - q₁.items
  bytes : q'.bytes - q.bytes = q₂.bytes - q₁.bytes

/-- The ways in which `enqueue` returns. -/
inductive Enqueues (q : HintQueue) (a : Nat) (now : Int) : Enqueued → Prop
  | away (h : ¬ q.Fresh a now) : Enqueues q a now ((false, 0, 0), q)
  | taken {q' : HintQueue} (hfresh : q.Fresh a now)
      (hfits : q.drop = .DropOldest → (q.cleared a now).Within)
      (hent : Enters q a (q.installed a now)) (hsheds : Sheds (q.installed a now) a q')
      (hwithin : q'.Within) :
      Enqueues q a now ((true, q'.bytes - q.bytes, q'.items - q.items), q')
  | refused {q' : HintQueue} (hfresh : q.Fresh a now) (hdrop : q.drop ≠ .DropOldest)
      (hent : Enters q a (q.installed a now))
      (hback : Back q a (q.installed a now) (q.installed a now) q') :
      Enqueues q a now ((false, 0, 0), q')
  | givenUp {q' : HintQueue} (hfresh : q.Fresh a now) (hdrop : q.drop = .DropOldest)
      (hfits : ¬ (q.cleared a now).Within) (hent : Enters q a (q.installed a now))
      (hsheds : Sheds (q.installed a now) a (q.cleared a now))
      (hback : Back q a (q.installed a now) (q.cleared a now) q') :
      Enqueues q a now ((false, if (q.index (q.item a).key).isSome then q.bytes - q'.bytes
        else q'.bytes - q.bytes, q'.items - q.items), q')

/-- The end of `enqueue`, for both of its parts: what the hint adds to the counters, what the
caller is told of the dropped bytes when the hint does not fit, and the two ways back. -/
def settle (q₁ : HintQueue) (it : Nat) (gain : HintQueue → Int) (items : Int) (lost : Int → Int)
    (restore undo : HintQueue → HintQueue) : Enqueued :=
  if q₁.overCap q₁.items q₁.bytes then
    match q₁.drop with
    | .DropOldest =>
      match dropWhileOver it q₁.rounds 0 0 q₁ with
      | (true, totalB, totalI, q) => ((true, gain q - totalB, items - totalI), q)
      | (false, totalB, totalI, q) => ((false, lost totalB, -totalI), restore q)
    | _ => ((false, 0, 0), undo q₁)
  else ((true, gain q₁, items), q₁)

theorem settle_enqueues {gain : HintQueue → Int} {items : Int} {lost : Int → Int}
    {restore undo : HintQueue → HintQueue} (hfresh : q.Fresh a now)
    (hent : Enters q a (q.installed a now))
    (hgain : ∀ q', Sheds (q.installed a now) a q' → gain q' = (q.installed a now).bytes - q.bytes)
    (hitems : items = (q.installed a now).items - q.items)
    (hlost : ∀ b, lost b = if (q.index (q.item a).key).isSome then b else -b)
    (hrestore : ∀ q₂, Sheds (q.installed a now) a q₂ → Back q a (q.installed a now) q₂ (restore q₂))
    (hundo : Back q a (q.installed a now) (q.installed a now) (undo (q.installed a now))) :
    Enqueues q a now (settle (q.installed a now) a gain items lost restore undo) := by
  have hself := Sheds.refl hent.sound hent.new
  have hloops := dropWhileOver_loops (q.installed a now).rounds 0 0 hent.sound hent.new
    (hints_lt_rounds _)
  have hdrop := hent.drop
  have hfits : (q.installed a now).Within → (q.cleared a now).Within := fun hwithin =>
    (exhaust_sheds _ hent.sound hent.new).within hwithin
  rw [settle]
  cases hover : (q.installed a now).overCap (q.installed a now).items (q.installed a now).bytes with
  | false =>
    have htaken := Enqueues.taken hfresh (fun _ => hfits hover) hent hself hover
    rw [← hgain _ hself, ← hitems] at htaken
    exact htaken
  | true =>
    simp only [if_true]
    cases hpolicy : (q.installed a now).drop with
    | DropNewest => exact .refused hfresh (by rw [← hdrop, hpolicy]; decide) hent hundo
    | DropNone => exact .refused hfresh (by rw [← hdrop, hpolicy]; decide) hent hundo
    | DropOldest =>
      rw [hpolicy] at hdrop
      simp only
      generalize dropWhileOver a (q.installed a now).rounds 0 0 (q.installed a now) = r at hloops
      obtain ⟨ok, totalB, totalI, q₂⟩ := r
      obtain ⟨hsheds, hbytes, hcount, hwithin, hroom, hstuck⟩ := hloops
      simp only at hsheds hbytes hcount hwithin hroom hstuck
      cases ok with
      | true =>
        have htaken := Enqueues.taken hfresh (fun _ => hroom.mp rfl) hent hsheds (hwithin rfl)
        have hb : gain q₂ - totalB = q₂.bytes - q.bytes := by
          rw [hgain q₂ hsheds]
          omega
        have hi : items - totalI = q₂.items - q.items := by omega
        simp only [hb, hi]
        exact htaken
      | false =>
        obtain rfl : q₂ = q.cleared a now := hstuck rfl
        have hback := hrestore _ hsheds
        have hgive := Enqueues.givenUp hfresh hdrop.symm
          (fun hfit => Bool.false_ne_true (hroom.mpr hfit)) hent hsheds hback
        have hbytes' := hback.bytes
        have hitems' := hback.items
        have hb : lost totalB = if (q.index (q.item a).key).isSome then
            q.bytes - (restore (q.cleared a now)).bytes
              else (restore (q.cleared a now)).bytes - q.bytes := by
          rw [hlost]
          split <;> omega
        have hi : -totalI = (restore (q.cleared a now)).items - q.items := by omega
        simp only [hb, hi]
        exact hgive

theorem unindex_removeItem (h : q.Sound) (hp : q.Queued p) :
    (q.removeItem p).unindex (q.item p).key = q.removeItem p := by
  have hindex : (q.removeItem p).index = Function.update q.index (q.item p).key none :=
    (removeItem_takes h.rep hp).moves.index
  have hself : (q.removeItem p).index (q.item p).key = none := by
    rw [hindex, Function.update_self]
  rw [unindex, ← hself, Function.update_eq_self]

theorem place_enters (h : q.Sound) (ha : ¬ q.Queued a) (halloc : a < q.nextItem)
    (hkey : q.index (q.item a).key = none) (hsize : 0 ≤ (q.item a).size) (now : Int) :
    Enters q a (q.installed a now) ∧ (q.installed a now).items = q.items + 1 ∧
      (q.installed a now).bytes = q.bytes + (q.item a).size := by
  have hnew := place_becomes h ha halloc hkey hsize now
  have heq : q.installed a now =
      ((q.place a now).setIndex (q.item a).key a).count 1 ((q.place a now).item a).size := by
    simp only [installed, hkey]
  rw [heq]
  refine ⟨⟨hnew.sound, (hnew.queued a).mpr (.inr rfl), fun x => ?_, ?_, fun x _ => hnew.content x,
    hnew.limits, hnew.drop⟩, hnew.items, hnew.bytes⟩
  · rw [hnew.queued, hkey]
    simp
  · exact HintItem.eq_of_content HintItem.payload (fun _ => rfl) (hnew.content a)

theorem removeItem_back (hent : Enters q a q₁) (hkey : q.index (q.item a).key = none)
    (hitems : q₁.items = q.items + 1) (hbytes : q₁.bytes = q.bytes + (q₁.item a).size)
    (hsheds : Sheds q₁ a q₂) :
    Back q a q₁ q₂ ((q₂.removeItem a).unindex (q.item a).key) := by
  have hdrops := (removeItem_drops hsheds.sound hsheds.avoids).becomes
  have hcontent := hsheds.content a
  rw [← hent.key, ← HintItem.eq_of_content HintItem.key (fun _ => rfl) hcontent,
    unindex_removeItem hsheds.sound hsheds.avoids]
  refine ⟨hdrops.sound, fun x => ?_, fun x hx => ?_, ?_, ?_, ?_⟩
  · rw [hdrops.queued, hkey]
    simp
  · exact (hdrops.content x).trans ((hsheds.content x).trans (hent.content x hx))
  · exact hdrops.limits.trans (hsheds.limits.trans hent.limits)
  · rw [hdrops.items]
    omega
  · rw [hdrops.bytes, size_of_content hcontent]
    omega

/-- The ways in which `enqueue` returns for a new key. -/
theorem insert_enqueues (h : q.Sound) (ha : ¬ q.Queued a) (halloc : a < q.nextItem)
    (hkey : q.index (q.item a).key = none) (hsize : 0 ≤ (q.item a).size)
    (hexp : (q.item a).expired q.ttl now = false) : Enqueues q a now (q.insert a now) := by
  have hfresh : q.Fresh a now := ⟨hexp, fun old hold => by cases hkey.symm.trans hold⟩
  obtain ⟨hent, hitems, hbytes⟩ := place_enters h ha halloc hkey hsize now
  have hinsert : q.insert a now = settle (q.installed a now) a (fun q' => (q'.item a).size) 1
      (fun b => -b) (fun q' => (q'.removeItem a).unindex (q.item a).key)
      fun q' => (q'.removeItem a).unindex (q.item a).key := by
    simp only [insert, installed, hkey]
    rfl
  rw [← hent.size] at hbytes
  have hback : ∀ q₂, Sheds (q.installed a now) a q₂ → Back q a (q.installed a now) q₂
      ((q₂.removeItem a).unindex (q.item a).key) := fun q₂ hsheds =>
    removeItem_back hent hkey hitems hbytes hsheds
  rw [hinsert]
  refine settle_enqueues hfresh hent (fun q' hsheds => ?_) (by omega) (fun b => ?_) hback
    (hback _ (Sheds.refl hent.sound hent.new))
  · rw [size_of_content (hsheds.content a)]
    omega
  · rw [hkey]
    rfl

section Coalesce

theorem item_setDelayed {k : Int} : (q.setDelayed k p).item = q.item := by
  rw [setDelayed]
  split <;> rfl

theorem setDelayed_assign {k : Int} {f : HintItem → HintItem} :
    (q.assign p f).setDelayed k a = (q.setDelayed k a).assign p f := by
  by_cases hk : 0 ≤ k ∧ k < q.delayed.length
  · have hk' : 0 ≤ k ∧ k < (q.assign p f).delayed.length := hk
    rw [setDelayed, setDelayed, if_pos hk, if_pos hk']
    rfl
  · have hk' : ¬ (0 ≤ k ∧ k < (q.assign p f).delayed.length) := hk
    rw [setDelayed, setDelayed, if_neg hk, if_neg hk']
    rfl

theorem item_replace_of_ne (hx : j ≠ a) : (q.replace a p).item j = q.item j := by
  simp only [replace]
  split
  · exact item_assign_of_ne hx
  · rw [item_setDelayed, item_assign_of_ne hx]

/-- A queued hint is in the ready list or in the heap, and its fields say in which. -/
theorem Placed.whereabouts (h : q.Placed) (hp : q.Queued p) :
    (∃ e, (q.item p).elem = some e ∧ (q.item p).heapIndex = -1) ∨
      (q.item p).elem = none ∧ 0 ≤ (q.item p).heapIndex ∧ p ∈ q.delayed := by
  rcases hp with ⟨e, he, rfl⟩ | hp
  · exact .inl ⟨e, h.ready e he⟩
  · obtain ⟨i, hi⟩ := List.mem_iff_getElem?.mp hp
    obtain ⟨helem, hidx⟩ := h.delayed i p hi
    exact .inr ⟨helem, by omega, hp⟩

theorem item_replace_self (h : q.Placed) (hp : q.Queued p) : (q.replace a p).item a =
    { q.item a with elem := (q.item p).elem, heapIndex := (q.item p).heapIndex } := by
  rcases h.whereabouts hp with ⟨e, helem, hidx⟩ | ⟨helem, -, -⟩
  · simp only [replace, helem, hidx, item_assign_self, setValue]
  · simp only [replace, helem, item_setDelayed, item_assign_self]

/-- Under `DropOldest` the old hint gets its place back as if it replaced the new one. -/
theorem restore_eq (hready : (q.item a).elem ≠ none → (q.item p).heapIndex = -1)
    (hdelayed : (q.item a).elem = none → (q.item p).elem = none) :
    ∃ f, q.restore a p (q.item a).elem.isSome = (q.replace p a).assign a f := by
  cases helem : (q.item a).elem with
  | some e =>
    refine ⟨fun h => { h with elem := none }, ?_⟩
    have hidx := hready (by rw [helem]; exact Option.some_ne_none e)
    simp only [restore, replace, helem, Option.isSome_some, if_true]
    congr 1
    simp only [assign, setValue, ← hidx]
  | none =>
    refine ⟨fun h => { h with heapIndex := -1 }, ?_⟩
    have hnone := hdelayed helem
    simp only [restore, replace, helem, Option.isSome_none, Bool.false_eq_true, if_false]
    rw [setDelayed_assign]
    congr 1
    simp only [assign, item_setDelayed, ← hnone]

/-- Under the other policies it still knows its place. -/
theorem undo_eq (h : q.Placed) (ha : q.Queued a) (helem : (q.item p).elem = (q.item a).elem)
    (hidx : (q.item p).heapIndex = (q.item a).heapIndex) : q.undo p = q.replace p a := by
  rcases h.whereabouts ha with ⟨e, helem', hidx'⟩ | ⟨helem', hidx', -⟩
  · have hself : (q.setValue e p).assign p (fun h => { h with elem := some e, heapIndex := -1 }) =
        q.setValue e p := by
      refine assign_eq_self ?_
      rw [← helem', ← helem, ← hidx', ← hidx]
      rfl
    simp only [undo, replace, helem, helem', hself]
  · have hself : q.assign p (fun h => { h with heapIndex := (q.item a).heapIndex, elem := none }) =
        q := by
      refine assign_eq_self ?_
      rw [← hidx, ← helem', ← helem]
    simp only [undo, replace, helem, helem', hidx, hidx', if_true, hself]

structure Replaces (q : HintQueue) (a p : Nat) (d : Int) : Prop where
  sound : q.Sound
  old : q.Queued p
  new : ¬ q.Queued a
  allocated : a < q.nextItem
  key : (q.item a).key = (q.item p).key
  sized : 0 ≤ (q.item a).size
  due : p ∈ q.delayed → (q.item a).nextAt = (q.item p).nextAt
  delta : d = (q.item a).size - (q.item p).size

structure Standing (q : HintQueue) (a p : Nat) (q' : HintQueue) : Prop where
  sound : q'.Sound
  new : q'.Queued a
  old : ¬ q'.Queued p
  elem : (q'.item a).elem = (q.item p).elem
  item : q'.item p = q.item p
  content : ∀ x, (q'.item x).content = (q.item x).content
  limits : q'.limits = q.limits

variable {d : Int}

theorem Replaces.ne (h : Replaces q a p d) : p ≠ a := by
  rintro rfl
  exact h.new h.old

theorem Replaces.becomes (h : Replaces q a p d) :
    Becomes q (fun x => (q.Queued x ∧ x ≠ p) ∨ x = a) 0 d
      (((q.replace a p).count 0 d).setIndex (q.item a).key a) :=
  replace_becomes h.sound h.old h.new h.allocated h.key h.sized h.due h.delta

theorem Replaces.standing (h : Replaces q a p d)
    (hsheds : Sheds (((q.replace a p).count 0 d).setIndex (q.item a).key a) a q') :
    Standing q a p q' := by
  have hnew := h.becomes
  have hold : ¬ (((q.replace a p).count 0 d).setIndex (q.item a).key a).Queued p := by
    rw [hnew.queued]
    rintro (⟨-, hpp⟩ | hpa)
    · exact hpp rfl
    · exact h.ne hpa
  constructor
  · exact hsheds.sound
  · exact hsheds.avoids
  · exact fun hin => hold (hsheds.queued p hin)
  · rw [hsheds.elem a hsheds.avoids]
    show ((q.replace a p).item a).elem = _
    rw [item_replace_self h.sound.rep.placed h.old]
  · rw [hsheds.item p hold]
    exact item_replace_of_ne h.ne
  · exact fun x => (hsheds.content x).trans (hnew.content x)
  · exact hsheds.limits.trans hnew.limits

/-- The old hint can have its place again. -/
theorem Standing.back (h : Standing q a p q') (hr : Replaces q a p d) :
    Becomes q' (fun x => (q'.Queued x ∧ x ≠ a) ∨ x = p) 0 (-d)
      (((q'.replace p a).count 0 (-d)).setIndex (q.item a).key p) := by
  have hdue : a ∈ q'.delayed → (q'.item p).nextAt = (q'.item a).nextAt := by
    intro ha
    have hnone : (q.item p).elem = none := by
      rw [← h.elem, h.sound.rep.placed.elem_of_delayed ha]
    rw [h.item, HintItem.eq_of_content HintItem.nextAt (fun _ => rfl) (h.content a)]
    rcases hr.sound.rep.placed.whereabouts hr.old with ⟨e, he, -⟩ | ⟨-, -, hmem⟩
    · rw [hnone] at he
      cases he
    · exact (hr.due hmem).symm
  have hkey : (q'.item p).key = (q'.item a).key := by
    rw [h.item, HintItem.eq_of_content HintItem.key (fun _ => rfl) (h.content a), hr.key]
  have halloc : p < q'.nextItem :=
    (hr.sound.rep.allocated p hr.old).trans_eq (congrArg Prod.fst h.limits).symm
  have hsize : 0 ≤ (q'.item p).size := by
    rw [h.item]
    exact hr.sound.sized p hr.old
  have hd : -d = (q'.item p).size - (q'.item a).size := by
    rw [h.item, size_of_content (h.content a), hr.delta]
    omega
  have hback := replace_becomes h.sound h.new h.old halloc hkey hsize hdue hd
  rw [h.item, ← hr.key] at hback
  exact hback

theorem Standing.restored (h : Standing q a p q') (hr : Replaces q a p d) :
    ∃ f, q'.restore a p (q.item p).elem.isSome = (q'.replace p a).assign a f := by
  have hready : (q'.item a).elem ≠ none → (q'.item p).heapIndex = -1 := by
    rw [h.elem, h.item]
    rcases hr.sound.rep.placed.whereabouts hr.old with ⟨e, -, hidx⟩ | ⟨hnone, -, -⟩
    · exact fun _ => hidx
    · exact fun hsome => absurd hnone hsome
  have hdelayed : (q'.item a).elem = none → (q'.item p).elem = none := by
    rw [h.elem, h.item]
    exact id
  rw [← h.elem]
  exact restore_eq hready hdelayed

/-- The new hint takes over when the old one is due. -/
theorem inherit_replaces (h : q.Sound) (hp : q.Queued p) (ha : ¬ q.Queued a)
    (halloc : a < q.nextItem) (hkey : (q.item a).key = (q.item p).key)
    (hsize : 0 ≤ (q.item a).size) :
    ∃ f, q.inherit a p = q.assign a f ∧ ((q.assign a f).item a).payload = (q.item a).payload ∧
      Replaces (q.assign a f) a p
        (((q.assign a f).item a).size - ((q.assign a f).item p).size) := by
  have hne : p ≠ a := by
    rintro rfl
    exact ha hp
  by_cases hidx : 0 ≤ (q.item p).heapIndex
  · refine ⟨fun h => { h with nextAt := (q.item p).nextAt, tries := (q.item p).tries },
      by rw [inherit, if_pos hidx], ?_, ⟨h.assign ha _, hp, ha, halloc, ?_, ?_, fun _ => ?_, rfl⟩⟩
    · rw [item_assign_self]
      rfl
    · rw [item_assign_self, item_assign_of_ne hne]
      exact hkey
    · rw [item_assign_self]
      exact hsize
    · rw [item_assign_self, item_assign_of_ne hne]
  · have hself : q.assign a id = q := assign_eq_self rfl
    refine ⟨id, by rw [inherit, if_neg hidx, hself], ?_⟩
    rw [hself]
    refine ⟨rfl, ⟨h, hp, ha, halloc, hkey, hsize, fun hmem => ?_, rfl⟩⟩
    obtain ⟨i, hi⟩ := List.mem_iff_getElem?.mp hmem
    have hi' := (h.rep.placed.delayed i p hi).2
    omega

theorem Standing.returns {q₀ : HintQueue} {f g : HintItem → HintItem} (hq : q = q₀.assign a f)
    (hkey : q₀.index (q₀.item a).key = some p) (hr : Replaces q a p d)
    (hitems : q₁.items = q₀.items + 0) (hbytes : q₁.bytes = q₀.bytes + d)
    (h : Standing q a p q') :
    Back q₀ a q₁ q' ((((q'.replace p a).count 0 (-d)).setIndex (q.item a).key p).assign a g) := by
  have hback := h.back hr
  have ha : ¬ (((q'.replace p a).count 0 (-d)).setIndex (q.item a).key p).Queued a := by
    rw [hback.queued]
    rintro (⟨-, hne⟩ | hpa)
    · exact hne rfl
    · exact hr.ne hpa.symm
  refine ⟨hback.sound.assign ha g, fun x => ?_, fun x hx => ?_, ?_, ?_, ?_⟩
  · rw [hkey, Option.some.injEq, eq_comm]
    exact hback.queued x
  · rw [item_assign_of_ne hx, hback.content, h.content, hq, item_assign_of_ne hx]
  · refine (hback.limits.trans h.limits).trans ?_
    rw [hq]
    rfl
  · have hcount := hback.items
    change (((q'.replace p a).count 0 (-d)).setIndex (q.item a).key p).items - q₀.items = _
    omega
  · have hcount := hback.bytes
    change (((q'.replace p a).count 0 (-d)).setIndex (q.item a).key p).bytes - q₀.bytes = _
    omega

/-- The ways in which `enqueue` returns for a key that has a hint. -/
theorem coalesce_enqueues (h : q.Sound) (ha : ¬ q.Queued a) (halloc : a < q.nextItem)
    (hkey : q.index (q.item a).key = some p) (hsize : 0 ≤ (q.item a).size)
    (hexp : (q.item a).expired q.ttl now = false) : Enqueues q a now (q.coalesce a p) := by
  obtain ⟨hpkey, hp⟩ := (h.rep.indexed _ p).mp hkey
  by_cases hver : (q.item a).ver ≤ (q.item p).ver
  · have haway : ¬ q.Fresh a now := fun hfresh => UInt64.not_le.mpr (hfresh.2 p hkey) hver
    have hsame : q.coalesce a p = ((false, 0, 0), q) := by simp only [coalesce, if_pos hver]
    rw [hsame]
    exact .away haway
  have hfresh : q.Fresh a now := by
    refine ⟨hexp, fun old hold => ?_⟩
    obtain rfl : p = old := Option.some.inj (hkey.symm.trans hold)
    exact UInt64.not_le.mp hver
  obtain ⟨f, hin, hpayload, hr⟩ := inherit_replaces h hp ha halloc hpkey.symm hsize
  have hkey₁ : ((q.assign a f).item a).key = (q.item a).key :=
    HintItem.eq_of_payload HintItem.key (fun _ => rfl) hpayload
  generalize hd : ((q.assign a f).item a).size - ((q.assign a f).item p).size = d at hr
  have hnew := hr.becomes
  have hinst : q.installed a now =
      (((q.assign a f).replace a p).count 0 d).setIndex ((q.assign a f).item a).key a := by
    simp only [installed, hkey, hin, hd, hkey₁]
  rw [← hinst] at hnew
  have hent : Enters q a (q.installed a now) := by
    refine ⟨hnew.sound, (hnew.queued a).mpr (.inr rfl), fun x => ?_, ?_, fun x hx => ?_,
      hnew.limits, hnew.drop⟩
    · have hother : some p ≠ some x ↔ x ≠ p := by rw [Ne, Option.some.injEq, eq_comm]
      rw [hnew.queued, hkey, hother]
      rfl
    · exact (HintItem.eq_of_content HintItem.payload (fun _ => rfl) (hnew.content a)).trans hpayload
    · rw [hnew.content, item_assign_of_ne hx]
  have hstanding : ∀ q₂, Sheds (q.installed a now) a q₂ → Standing (q.assign a f) a p q₂ := by
    intro q₂ hsheds
    rw [hinst] at hsheds
    exact hr.standing hsheds
  have hcoalesce : q.coalesce a p = settle (q.installed a now) a (fun _ => d) 0 (fun b => b)
      (fun q' => ((q'.restore a p ((q.assign a f).item p).elem.isSome).setIndex
        ((q.assign a f).item a).key p).count 0 (-d))
      fun q' => ((q'.undo p).setIndex ((q.assign a f).item a).key p).count 0 (-d) := by
    simp only [coalesce, if_neg hver, hin, hd, ← hkey₁, settle, hinst]
    generalize dropWhileOver a _ 0 0 _ = r, HintQueue.drop _ = policy
    obtain ⟨fits, totalB, totalI, q'⟩ := r
    cases policy <;> cases fits <;> simp only [Int.zero_sub]
  rw [hcoalesce]
  refine settle_enqueues hfresh hent (fun q' _ => ?_) ?_ (fun b => ?_) (fun q₂ hsheds => ?_) ?_
  · have hbytes : (q.installed a now).bytes = q.bytes + d := hnew.bytes
    omega
  · have hitems : (q.installed a now).items = q.items + 0 := hnew.items
    omega
  · rw [hkey]
    rfl
  · obtain ⟨g, hrestore⟩ := (hstanding q₂ hsheds).restored hr
    rw [hrestore]
    exact (hstanding q₂ hsheds).returns rfl hkey hr hnew.items hnew.bytes
  · have hstand := hstanding _ (Sheds.refl hent.sound hent.new)
    have hidx : ((q.installed a now).item a).heapIndex = ((q.assign a f).item p).heapIndex := by
      rw [hinst]
      show (((q.assign a f).replace a p).item a).heapIndex = _
      rw [item_replace_self hr.sound.rep.placed hr.old]
    have hundo : (q.installed a now).undo p = (q.installed a now).replace p a :=
      undo_eq hstand.sound.rep.placed hstand.new (by rw [hstand.item, hstand.elem])
        (by rw [hstand.item, hidx])
    have hid : ∀ q₂ : HintQueue, q₂.assign a id = q₂ := fun q₂ => assign_eq_self rfl
    rw [hundo, ← hid (HintQueue.count ..)]
    exact hstand.returns rfl hkey hr hnew.items hnew.bytes

end Coalesce

/-- A hint that the queue holds already is turned away. -/
theorem not_fresh_of_queued (h : q.Rep) (ha : q.Queued a) (now : Int) : ¬ q.Fresh a now :=
  fun hfresh => UInt64.lt_irrefl _ (hfresh.2 a (h.queued_iff.mp ha))

/-- Everything that `enqueue` can do. -/
theorem enqueue_enqueues (h : q.Sound) (halloc : a < q.nextItem) (hsize : 0 ≤ (q.item a).size)
    (now : Int) : Enqueues q a now (q.enqueue a now) := by
  simp only [enqueue]
  cases hexp : (q.item a).expired q.ttl now with
  | true =>
    simp only [if_true]
    exact .away fun hfresh => by cases hexp.symm.trans hfresh.1
  | false =>
    simp only [Bool.false_eq_true, if_false]
    by_cases ha : q.Queued a
    · have hkey := h.rep.queued_iff.mp ha
      have hsame : q.coalesce a a = ((false, 0, 0), q) := by
        simp only [coalesce, if_pos (UInt64.le_refl _)]
      simp only [hkey, hsame]
      exact .away (not_fresh_of_queued h.rep ha now)
    · cases hkey : q.index (q.item a).key with
      | some p => exact coalesce_enqueues h ha halloc hkey hsize hexp
      | none => exact insert_enqueues h ha halloc hkey hsize hexp

/-- The hint gets in if it is let past the checks. -/
theorem installed_enters (h : q.Sound) (halloc : a < q.nextItem) (hsize : 0 ≤ (q.item a).size)
    (hfresh : q.Fresh a now) : Enters q a (q.installed a now) := by
  have hcases := enqueue_enqueues h halloc hsize now
  generalize q.enqueue a now = r at hcases
  cases hcases with
  | away hno => exact absurd hfresh hno
  | taken _ _ hent => exact hent
  | refused _ _ hent => exact hent
  | givenUp _ _ _ hent => exact hent

/-- It stays if the caps are not exceeded. -/
theorem enqueue_of_within (hfresh : q.Fresh a now) (hw : (q.installed a now).Within) :
    (q.enqueue a now).2 = q.installed a now := by
  obtain ⟨hexp, hnewer⟩ := hfresh
  simp only [enqueue, hexp, Bool.false_eq_true, if_false]
  cases hkey : q.index (q.item a).key with
  | none =>
    simp only [installed, hkey, Within] at hw
    simp only [insert, hw, installed, hkey, Bool.false_eq_true, if_false]
  | some p =>
    simp only [installed, hkey, Within] at hw
    simp only [coalesce, if_neg (UInt64.not_le.mpr (hnewer p hkey)), hw, installed, hkey,
      Bool.false_eq_true, if_false]

theorem Back.within (h : Back q a q₁ q₂ q') (hsheds : Sheds q₁ a q₂) (hw : q.Within) :
    q'.Within := by
  have hitems := h.items
  have hbytes := h.bytes
  have hitems' := hsheds.items
  have hbytes' := hsheds.bytes
  exact hw.of_le h.limits (by omega) (by omega)

theorem enqueue_sound (h : q.Sound) (hw : q.Within) (halloc : a < q.nextItem)
    (hsize : 0 ≤ (q.item a).size) (now : Int) :
    (q.enqueue a now).2.Sound ∧ (q.enqueue a now).2.Within := by
  have hcases := enqueue_enqueues h halloc hsize now
  generalize q.enqueue a now = r at hcases
  cases hcases with
  | away _ => exact ⟨h, hw⟩
  | taken _ _ _ hsheds hwithin => exact ⟨hsheds.sound, hwithin⟩
  | refused _ _ hent hback => exact ⟨hback.sound, hback.within (Sheds.refl hent.sound hent.new) hw⟩
  | givenUp _ _ _ _ hsheds hback => exact ⟨hback.sound, hback.within hsheds hw⟩

end HintQueue

end Kioshun
