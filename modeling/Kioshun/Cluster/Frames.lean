import Kioshun.Cluster.Wire
import Kioshun.Lib.BigEndian

/-!
# Frames on a connection

`writeFrame` puts the length of a payload before it, as four bytes; `readFrame` and `serveConn` read
it back with `io.ReadFull`. The connection is the sequence of bytes that are still to be read;
deadlines are left out.
-/

namespace Kioshun
open BigEndian List

inductive FrameError where
  | EOF
  | ErrUnexpectedEOF
  | tooLarge
  deriving DecidableEq, Repr

/-- `io.ReadFull` into `n` bytes: what it returns, and what is left. -/
def ReadFull (n : Nat) (r : Bytes) : Except FrameError Bytes × Bytes :=
  if n ≤ r.length then (.ok (r.take n), r.drop n)
  else (.error (if r = [] then .EOF else .ErrUnexpectedEOF), [])

/-- `readFrame`; `serveConn` does the same with its `MaxFrameSize`. -/
def readFrame (maxFrame : Int) (r : Bytes) : Except FrameError Bytes × Bytes :=
  match ReadFull 4 r with
  | (.error err, r) => (.error err, r)
  | (.ok hdr, r) =>
    let n := combine hdr
    if 0 < maxFrame ∧ maxFrame < n then (.error .tooLarge, r) else ReadFull n r

def readFrames (maxFrame : Int) : Nat → Bytes → List Bytes × Option FrameError
  | 0, _ => ([], none)
  | fuel + 1, r =>
    match readFrame maxFrame r with
    | (.ok buf, r) =>
      let rest := readFrames maxFrame fuel r
      (buf :: rest.1, rest.2)
    | (.error err, _) => ([], some err)

def writeFrame (payload : Bytes) : Bytes := split 4 payload.length ++ payload

/-- What is on the connection after the payloads have been written. -/
def writeFrames (payloads : List Bytes) : Bytes := (payloads.map writeFrame).flatten

def Fits (maxFrame : Int) (payload : Bytes) : Prop :=
  payload.length < 2 ^ 32 ∧ (payload.length : Int) ≤ maxFrame

variable {maxFrame : Int} {payload hdr rest : Bytes} {payloads : List Bytes}

theorem ReadFull_append (b rest : Bytes) : ReadFull b.length (b ++ rest) = (.ok b, rest) := by
  rw [ReadFull, if_pos (by simp), take_left, drop_left]

theorem ReadFull_short {n : Nat} {r : Bytes} (h : r.length < n) :
    ∃ err, ReadFull n r = (.error err, []) :=
  ⟨_, if_neg (Nat.not_le.mpr h)⟩

/-- A length that is too large is rejected with the body still to be read. -/
theorem readFrame_tooLarge (hmax : 0 < maxFrame) (hlen : hdr.length = 4)
    (hlarge : maxFrame < combine hdr) :
    readFrame maxFrame (hdr ++ rest) = (.error .tooLarge, rest) := by
  rw [readFrame, ← hlen, ReadFull_append]
  exact if_pos ⟨hmax, hlarge⟩

/-- After the header of a payload that fits, its bytes are read. -/
theorem readFrame_header (hfits : Fits maxFrame payload) (rest : Bytes) :
    readFrame maxFrame (split 4 payload.length ++ rest) = ReadFull payload.length rest := by
  have hcombine : combine (split 4 payload.length) = payload.length := combine_split hfits.1
  have hread := ReadFull_append (split 4 payload.length) rest
  rw [length_split] at hread
  simp only [readFrame, hread, hcombine]
  exact if_neg fun h => absurd hfits.2 (not_le.mpr h.2)

theorem readFrame_writeFrame (hfits : Fits maxFrame payload) (rest : Bytes) :
    readFrame maxFrame (writeFrame payload ++ rest) = (.ok payload, rest) := by
  rw [writeFrame, append_assoc, readFrame_header hfits, ReadFull_append]

/-- A frame that is cut off is an error, whether in the header or after it. -/
theorem readFrame_cut (hfits : Fits maxFrame payload) {k : Nat}
    (hk : k < (writeFrame payload).length) :
    ∃ err, readFrame maxFrame ((writeFrame payload).take k) = (.error err, []) := by
  rw [writeFrame, length_append, length_split] at hk
  rw [writeFrame, take_append, length_split]
  rcases Nat.lt_or_ge k 4 with hhdr | hbody
  · obtain ⟨err, herr⟩ := ReadFull_short (n := 4) (r := (split 4 payload.length).take k) (by simpa)
    refine ⟨err, ?_⟩
    rw [Nat.sub_eq_zero_of_le hhdr.le, take_zero, append_nil, readFrame, herr]
  · rw [take_of_length_le (by simpa using hbody), readFrame_header hfits]
    exact ReadFull_short (by rw [length_take]; omega)

theorem writeFrames_cons (p : Bytes) (ps : List Bytes) :
    writeFrames (p :: ps) = writeFrame p ++ writeFrames ps := rfl

theorem readFrames_cons {fuel : Nat} (hfits : Fits maxFrame payload) (rest : Bytes) :
    readFrames maxFrame (fuel + 1) (writeFrame payload ++ rest) =
      (payload :: (readFrames maxFrame fuel rest).1, (readFrames maxFrame fuel rest).2) := by
  rw [readFrames, readFrame_writeFrame hfits]

theorem readFrames_writeFrames (hfits : ∀ p ∈ payloads, Fits maxFrame p) {fuel : Nat}
    (hfuel : payloads.length < fuel) :
    readFrames maxFrame fuel (writeFrames payloads) = (payloads, some .EOF) := by
  induction payloads generalizing fuel with
  | nil =>
    obtain ⟨fuel, rfl⟩ := Nat.exists_eq_add_of_lt hfuel
    rfl
  | cons p ps ih =>
    obtain ⟨hp, hps⟩ := forall_mem_cons.mp hfits
    cases fuel with
    | zero => cases hfuel
    | succ fuel =>
      rw [writeFrames_cons, readFrames_cons hp, ih hps (Nat.lt_of_succ_lt_succ hfuel)]

/-- The induction is on the payloads: the cut is in the first frame, or behind it. -/
theorem readFrames_cut (hfits : ∀ p ∈ payloads, Fits maxFrame p) {fuel k : Nat}
    (hfuel : payloads.length ≤ fuel) (hk : k < (writeFrames payloads).length) :
    ∃ j err, j < payloads.length ∧
      readFrames maxFrame fuel ((writeFrames payloads).take k) = (payloads.take j, some err) := by
  induction payloads generalizing fuel k with
  | nil => cases hk
  | cons p ps ih =>
    obtain ⟨hp, hps⟩ := forall_mem_cons.mp hfits
    obtain ⟨fuel, rfl⟩ := Nat.exists_eq_add_of_le' (Nat.one_le_of_lt hfuel)
    rw [writeFrames_cons] at hk ⊢
    rw [length_append] at hk
    rcases Nat.lt_or_ge k (writeFrame p).length with hfirst | hlater
    · obtain ⟨err, herr⟩ := readFrame_cut hp hfirst
      refine ⟨0, err, Nat.succ_pos _, ?_⟩
      rw [take_append_of_le_length hfirst.le, readFrames, herr]
      rfl
    · obtain ⟨j, err, hj, hrest⟩ := ih hps (Nat.le_of_succ_le_succ hfuel)
        (k := k - (writeFrame p).length) (by omega)
      refine ⟨j + 1, err, Nat.succ_lt_succ hj, ?_⟩
      rw [take_append, take_of_length_le hlater, readFrames_cons hp, hrest]
      rfl

/-- What has been written is read back, to the point where it is cut off. -/
theorem frames_round_trip (hmax : 0 < maxFrame) (hfits : ∀ p ∈ payloads, Fits maxFrame p) :
    (∀ fuel, payloads.length < fuel →
      readFrames maxFrame fuel (writeFrames payloads) = (payloads, some .EOF)) ∧
    (∀ k fuel, k < (writeFrames payloads).length → payloads.length < fuel →
      ∃ j err, j < payloads.length ∧
        readFrames maxFrame fuel ((writeFrames payloads).take k) = (payloads.take j, some err)) ∧
    ∀ hdr rest, hdr.length = 4 → maxFrame < combine hdr →
      readFrame maxFrame (hdr ++ rest) = (.error .tooLarge, rest) :=
  ⟨fun _ hfuel => readFrames_writeFrames hfits hfuel,
    fun _ _ hk hfuel => readFrames_cut hfits hfuel.le hk,
    fun _ _ hlen hlarge => readFrame_tooLarge hmax hlen hlarge⟩

theorem frames_round_trip_two :
    readFrames 3 3 (writeFrames [[7, 8], []]) = ([[7, 8], []], some .EOF) ∧
      ∃ j err, j < 2 ∧
        readFrames 3 3 ((writeFrames [[7, 8], []]).take 5) = ([[7, 8], []].take j, some err) :=
  have h := @frames_round_trip 3 [[7, 8], []] (by decide) (by unfold Fits; decide)
  ⟨h.1 3 (by decide), h.2.1 5 3 (by decide) (by decide)⟩

end Kioshun
