import SmartDoor.Access.Checksum
import Mathlib.Tactic.IntervalCases

/-!
# Which bytes take part in an access decision

`process_code` never looks at `ci`: at a 0x03 it checks whatever the twelve bytes of
`code` hold, and what an earlier frame left there takes part when the last frame was
too short. The payload since the last 0x02 stands at the beginning of the buffer, through
rejected frames, button presses and trimming lookups, but for characters that are no hex
digits; behind it stands what was left there. So whether a frame passes is a matter of the
payload and of the bytes behind it, and a short frame of hex digits passes exactly when
the exclusive or of its digits is that of the digits it has not overwritten.
-/

namespace SmartDoor

open CString

/-- The payload since the most recent 0x02, if there was one. -/
def payload (seen : Bytes) : Option Bytes :=
  seen.foldl (fun p c => if c = 0x02 then some [] else if isPayload c then p.map (· ++ [c]) else p)
    none

/-- Exactly twelve payload bytes, all of them hex characters, came since the most recent
0x02. -/
def WholeFrame (seen : Bytes) : Prop :=
  ∃ p, payload seen = some p ∧ p.length = 12 ∧ ∀ c ∈ p, isHex c

/-- The payload after one more byte. -/
theorem payload_concat (seen : Bytes) (c : UInt8) : payload (seen ++ [c]) =
    if c = 0x02 then some [] else if isPayload c then (payload seen).map (· ++ [c])
      else payload seen := by
  rw [payload, List.foldl_append]
  rfl

/-- After a 0x02 the payload is what was received since. -/
theorem received_of_payload {seen p : Bytes} (h : payload seen = some p) : received seen = p := by
  induction seen using List.reverseRecOn generalizing p with
  | nil => cases h
  | append_singleton seen c ih =>
    rw [payload_concat] at h
    rw [received_concat]
    split at h
    · rename_i hstx
      rw [if_pos hstx]
      exact Option.some.inj h
    · rename_i hstx
      rw [if_neg hstx]
      split at h
      · rename_i hpay
        obtain ⟨q, hq, rfl⟩ := Option.map_eq_some_iff.mp h
        rw [if_pos hpay, ih hq]
      · rename_i hskip
        rw [if_neg hskip]
        exact ih h

/-! ## The payload and what stands behind it -/

/-- How many bytes of the payload stand in `code`: twelve, or ten when a 0x03 came since the
last 0x02, for `process_code` may have stored its CR and NUL. -/
def standingLength (seen : Bytes) : Nat := if 0x03 ∈ seen.rtakeWhile (· ≠ 0x02) then 10 else 12

/-- The payload bytes that stand in `code`. -/
def standing (seen : Bytes) : Bytes := (received seen).take (standingLength seen)

/-- At least the ten bytes of the code stand. -/
theorem standingLength_bounds (seen : Bytes) :
    10 ≤ standingLength seen ∧ standingLength seen ≤ 12 := by
  rw [standingLength]
  split <;> decide

/-- A byte that ends no frame and begins none. -/
theorem standingLength_concat {seen : Bytes} {c : UInt8} (hstx : c ≠ 0x02) (hetx : c ≠ 0x03) :
    standingLength (seen ++ [c]) = standingLength seen := by
  rw [standingLength, standingLength, List.rtakeWhile_concat_pos _ _ _ (by simpa using hstx)]
  congr 1
  simp [Ne.symm hetx]

/-- Behind a 0x03 ten bytes stand. -/
theorem standingLength_etx (seen : Bytes) : standingLength (seen ++ [0x03]) = 10 := by
  rw [standingLength, List.rtakeWhile_concat_pos _ _ _ (by decide), if_pos (by simp)]

/-- No more than the buffer holds. -/
theorem length_standing_le (seen : Bytes) : (standing seen).length ≤ 12 := by
  have hroom := (standingLength_bounds seen).2
  rw [standing, List.length_take]
  omega

/-- The pairs of the answers of `hexchar2b`, in `process_code`'s arithmetic. -/
def pairSum : Bytes → UInt8
  | a :: b :: answers => a * 16 + b ^^^ pairSum answers
  | _ => 0

/-- The exclusive or of all six pairs, when the buffer holds the payload `w` and then the
bytes `left`. The frame passes if it is zero. -/
def frameSum (junk : Junk) (w left : Bytes) : UInt8 :=
  pairSum (List.zipWith hexchar2b junk.toList (w ++ left))

/-- The exclusive or of the hex digits, at the places where they stand; `high` says whether
the first of them is the first of a pair. -/
def digitSum : Bool → Bytes → Nat
  | _, [] => 0
  | high, c :: w => (if high then 16 * hexValue c else hexValue c) ^^^ digitSum (!high) w

/-- The test of `process_code` is that the six pairs cancel. -/
theorem validTag_iff_pairSum (junk : Junk) (code : Vector UInt8 12) : validTag junk code ↔
    pairSum (List.zipWith hexchar2b junk.toList code.toList) = 0 := by
  have htwelve : ∀ v : Vector UInt8 12, v.toList =
      [v[0], v[1], v[2], v[3], v[4], v[5], v[6], v[7], v[8], v[9], v[10], v[11]] := by
    intro v
    apply List.ext_getElem
    · simp
    · intro i h _
      have hi : i < 12 := by simpa using h
      interval_cases i <;> rfl
  have hpairs : pairSum (List.zipWith hexchar2b junk.toList code.toList) =
      [1, 2, 3, 4].foldl (fun test i => test ^^^ hexPair junk code i) (hexPair junk code 0) ^^^
        hexPair junk code 5 := by
    rw [htwelve junk, htwelve code]
    simp only [List.zipWith_cons_cons, List.zipWith_nil_left, pairSum, List.foldl_cons,
      List.foldl_nil, UInt8.xor_assoc, UInt8.xor_zero]
    rfl
  rw [hpairs, UInt8.xor_eq_zero_iff, validTag, decide_eq_true_eq]

/-- Characters for which `hexchar2b` falls off its end are the same to it. -/
theorem hexchar2b_of_not_isHex {c d : UInt8} (hc : ¬ isHex c) (hd : ¬ isHex d)
    (unspecified : UInt8) : hexchar2b unspecified c = hexchar2b unspecified d := by
  have hfalls : ∀ {e : UInt8}, ¬ isHex e → hexchar2b unspecified e = unspecified := by
    intro e he
    simp only [isHex, decide_eq_true_eq, not_or] at he
    rw [hexchar2b, if_neg he.1, if_neg he.2]
  rw [hfalls hc, hfalls hd]

/-- The test of `process_code` on a buffer that holds a payload, up to characters that are no
hex digits, and then something else. -/
theorem validTag_iff_frameSum (junk : Junk) {code : Vector UInt8 12} {w : Bytes}
    (hlen : w.length ≤ 12)
    (hw : ∀ j (hj : j < 12) c, w[j]? = some c → code[j] = c ∨ code[j] = 0 ∧ ¬ isHex c) :
    validTag junk code ↔ frameSum junk w (code.toList.drop w.length) = 0 := by
  have hanswers : List.zipWith hexchar2b junk.toList code.toList =
      List.zipWith hexchar2b junk.toList (w ++ code.toList.drop w.length) := by
    rw [← toList_overlay code w hlen]
    apply List.ext_getElem
    · simp
    · intro i hi _
      have hlt : i < 12 := by simpa using hi
      rw [List.getElem_zipWith, List.getElem_zipWith, Vector.getElem_toList, Vector.getElem_toList,
        Vector.getElem_toList, getElem_overlay]
      cases hget : w[i]? with
      | none => rfl
      | some c =>
        rw [Option.getD_some]
        rcases hw i hlt c hget with hsame | ⟨hzero, hskip⟩
        · rw [hsame]
        · rw [hzero]
          exact hexchar2b_of_not_isHex (by decide) hskip _
  rw [validTag_iff_pairSum, frameSum, hanswers]

/-! ## Frames of hex digits -/

/-- The sum of the digits of two texts, one behind the other. -/
theorem digitSum_append (high : Bool) (w v : Bytes) : digitSum high (w ++ v) =
    digitSum high w ^^^ digitSum (if w.length % 2 = 0 then high else !high) v := by
  induction w generalizing high with
  | nil => exact (Nat.zero_xor _).symm
  | cons c w ih =>
    rw [List.cons_append, digitSum, digitSum, ih, Nat.xor_assoc, List.length_cons]
    by_cases heven : w.length % 2 = 0
    · have hodd : ¬ (w.length + 1) % 2 = 0 := by omega
      simp only [if_pos heven, if_neg hodd]
    · have hnext : (w.length + 1) % 2 = 0 := by omega
      simp only [if_neg heven, if_pos hnext, Bool.not_not]

/-- The two digits of a pair do not overlap. -/
theorem pair_eq_xor {a b : Nat} (ha : a < 16) (hb : b < 16) : 16 * a + b = 16 * a ^^^ b := by
  have hall : ∀ a < 16, ∀ b < 16, 16 * a + b = 16 * a ^^^ b := by decide
  exact hall a ha b hb

/-- On hex digits the sum of the pairs is the sum of the digits. -/
theorem toNat_pairSum {junk l : Bytes} (hlen : junk.length = l.length) (heven : l.length % 2 = 0)
    (hhex : ∀ c ∈ l, isHex c) :
    (pairSum (List.zipWith hexchar2b junk l)).toNat = digitSum true l := by
  match junk, l with
  | [], [] => rfl
  | [_], [_] => cases heven
  | j :: k :: junk, a :: b :: l =>
    have ha := hhex a List.mem_cons_self
    have hb := hhex b (List.mem_cons_of_mem _ List.mem_cons_self)
    have hltA := hexValue_lt ha
    have hltB := hexValue_lt hb
    have hpair : (hexchar2b j a * 16 + hexchar2b k b).toNat = 16 * hexValue a + hexValue b := by
      rw [UInt8.toNat_add, UInt8.toNat_mul, toNat_hexchar2b ha, toNat_hexchar2b hb]
      simp
      omega
    have hlen' : junk.length = l.length := by simpa using hlen
    have heven' : l.length % 2 = 0 := by
      simp only [List.length_cons] at heven
      omega
    have hrest := toNat_pairSum hlen' heven' fun c hc =>
      hhex c (List.mem_cons_of_mem _ (List.mem_cons_of_mem _ hc))
    rw [List.zipWith_cons_cons, List.zipWith_cons_cons, pairSum, UInt8.toNat_xor, hpair, hrest,
      pair_eq_xor hltA hltB, Nat.xor_assoc]
    rfl

/-- A payload of hex digits over hex digits passes exactly when both have the same sum. -/
theorem frameSum_eq_zero_iff (junk : Junk) {w left : Bytes} (hlen : (w ++ left).length = 12)
    (hw : ∀ c ∈ w, isHex c) (hleft : ∀ c ∈ left, isHex c) :
    frameSum junk w left = 0 ↔ digitSum true w = digitSum (w.length % 2 = 0) left := by
  have hjunk : junk.toList.length = (w ++ left).length := by rw [hlen, Vector.length_toList]
  have hsum := toNat_pairSum hjunk (by rw [hlen]) fun c hc =>
    (List.mem_append.mp hc).elim (hw c) (hleft c)
  have hhigh : (if w.length % 2 = 0 then true else !true) = decide (w.length % 2 = 0) := by
    by_cases heven : w.length % 2 = 0 <;> simp [heven]
  rw [← UInt8.toNat_inj, frameSum, hsum, digitSum_append, hhigh]
  exact Nat.xor_eq_zero_iff

namespace Sketch

/-! ## The invariant -/

/-- `ci` counts the payload since the last 0x02, and what of it stands in `code` is still
there, but for white space that a trim has ended. -/
structure Held (s : Sketch) : Prop where
  ci : s.ci = min 12 (received s.serial1.seen).length
  code : ∀ j (hj : j < 12) c, (standing s.serial1.seen)[j]? = some c →
    s.code[j] = c ∨ s.code[j] = 0 ∧ ¬ isHex c

/-- Before the first byte there is no payload. -/
theorem held_powerUp (store : Store) : (powerUp store).Held :=
  ⟨rfl, fun j hj c hc => by cases hc⟩

/-- A trimming lookup leaves the hex digits of the payload alone. -/
theorem Held.trimmed {s t : Sketch} (h : s.Held) (ht : s.Trimmed t) : t.Held := by
  refine ⟨by rw [ht.ci, ht.serial1, h.ci], fun j hj c hc => ?_⟩
  rw [ht.serial1] at hc
  rcases ht.code with hcode | ⟨-, hcode⟩
  · rw [hcode]
    exact h.code j hj c hc
  · rw [hcode]
    rcases h.code j hj c hc with hsame | ⟨hzero, hskip⟩
    · by_cases hhex : isHex c
      · rw [getElem_trimAt_of_isSolid (by rw [hsame]; exact isSolid_of_isHex hhex)]
        exact Or.inl hsame
      · rcases getElem_trimAt_or s.code 0 hj with hkept | hended
        · exact Or.inl (hkept.trans hsame)
        · exact Or.inr ⟨hended, hhex⟩
    · exact Or.inr ⟨getElem_trimAt_zero hzero, hskip⟩

/-- A byte that is read. -/
theorem Held.taken {s : Sketch} (h : s.Held) {c : UInt8} (hetx : c ≠ 0x03) (buffer : Bytes) :
    (s.taken c buffer).Held := by
  refine ⟨ci_taken c buffer h.ci, ?_⟩
  rw [Sketch.taken]
  by_cases hstx : c = 0x02
  · intro j hj d hd
    rw [if_pos hstx] at hd
    simp only [standing, received_concat, if_pos hstx, List.take_nil] at hd
    cases hd
  rw [if_neg hstx]
  by_cases hpay : isPayload c
  · have hstanding : standing (s.serial1.seen ++ [c]) =
        (received s.serial1.seen ++ [c]).take (standingLength s.serial1.seen) := by
      rw [standing, standingLength_concat hstx hetx, received_concat, if_neg hstx, if_pos hpay]
    by_cases hroom : s.ci < 12
    · rw [dif_pos ⟨hpay, hroom⟩]
      intro j hj d hd
      simp only [hstanding] at hd
      have hci : s.ci = (received s.serial1.seen).length := by
        have := h.ci
        omega
      rw [List.getElem?_take] at hd
      split at hd
      · rename_i hlt
        simp only [Vector.getElem_set]
        split
        · rename_i hlast
          rw [← hlast, hci, List.getElem?_concat_length] at hd
          exact Or.inl (Option.some.inj hd)
        · rename_i hne
          apply h.code j hj d
          rw [standing, List.getElem?_take, if_pos hlt]
          rwa [List.getElem?_append_left] at hd
          have hlen := (List.getElem?_eq_some_iff.mp hd).1
          rw [List.length_append, List.length_singleton] at hlen
          omega
      · cases hd
    · rw [dif_neg fun hboth => hroom hboth.2]
      intro j hj d hd
      simp only [hstanding] at hd
      apply h.code j hj d
      have hbounds := (standingLength_bounds s.serial1.seen).2
      have hfull := h.ci
      rwa [List.take_append_of_le_length (by omega)] at hd
  · rw [dif_neg fun hboth => hpay hboth.1]
    intro j hj d hd
    simp only [standing, standingLength_concat hstx hetx, received_concat, if_neg hstx,
      if_neg hpay] at hd
    exact h.code j hj d hd

/-- Behind a 0x03 the first ten bytes of the payload are known to stand in `code`. -/
theorem standing_etx (seen : Bytes) :
    standing (seen ++ [0x03]) = (standing seen).take 10 := by
  have hbounds := (standingLength_bounds seen).1
  rw [standing, standing, standingLength_etx, received_concat, if_neg (by decide),
    if_neg (by decide), List.take_take, Nat.min_eq_left hbounds]

/-- The 0x03 that ends a frame. -/
theorem Held.etx {s : Sketch} (h : s.Held) (buffer : Bytes) :
    Held { s with serial1 := ⟨buffer, s.serial1.seen ++ [0x03]⟩ } := by
  refine ⟨?_, fun j hj c hc => ?_⟩
  · rw [h.ci, received_concat, if_neg (by decide), if_neg (by decide)]
  · rw [standing_etx, List.getElem?_take] at hc
    split at hc
    · exact h.code j hj c hc
    · cases hc

/-- The CR and the NUL are stored behind the first ten bytes. -/
theorem Held.endCode {s : Sketch} (h : s.Held) (hten : (standing s.serial1.seen).length ≤ 10) :
    Held { s with code := SmartDoor.endCode s.code } := by
  refine ⟨h.ci, fun j hj c hc => ?_⟩
  have hlt : j < (standing s.serial1.seen).length := (List.getElem?_eq_some_iff.mp hc).1
  simp only [SmartDoor.endCode, Vector.getElem_set]
  rw [if_neg (by omega), if_neg (by omega)]
  exact h.code j hj c hc

/-- A call of `serialEvent1`, with the decision it may make. -/
theorem Held.serialEvent1 {world : World} {junk : Junk} {s t : Sketch} (h : s.Held)
    (ht : s.serialEvent1 world junk = .ok t) : t.Held := by
  rw [Sketch.serialEvent1] at ht
  cases hscan : s.serialScan 16 with
  | mk u etx =>
    have hkeeps := serialScan_keeps (I := Held) (fun _ hetx hs => hs.taken hetx _) h hscan
    rw [hscan] at ht
    cases etx with
    | false =>
      obtain rfl := Except.ok.inj ht
      exact hkeeps.1 rfl
    | true =>
      obtain ⟨v, buffer, hv, -, rfl⟩ := hkeeps.2 rfl
      have hu := hv.etx buffer
      simp only [if_true, processCode] at ht
      split at ht
      · refine (hu.endCode ?_).trimmed (checkIDAccess_trimmed ht)
        change (standing (v.serial1.seen ++ [0x03])).length ≤ 10
        rw [standing_etx]
        exact List.length_take_le ..
      · obtain rfl := Except.ok.inj ht
        exact hu

/-- The first ten bytes of a whole frame of hex digits are the first ten of the buffer. -/
theorem Held.first_ten {s : Sketch} (h : s.Held) {p : Bytes} (hp : received s.serial1.seen = p)
    (hlen : p.length = 12) (hhex : ∀ c ∈ p, isHex c) : s.code.toList.take 10 = p.take 10 := by
  apply List.ext_getElem
  · simp [hlen]
  · intro i hi _
    have hlt : i < 10 := by
      rw [List.length_take] at hi
      omega
    have hbounds := (standingLength_bounds s.serial1.seen).1
    have hget : (standing s.serial1.seen)[i]? = some p[i] := by
      rw [standing, hp, List.getElem?_take, if_pos (by omega), List.getElem?_eq_getElem (by omega)]
    rw [List.getElem_take, List.getElem_take, Vector.getElem_toList]
    exact (h.code i (by omega) _ hget).resolve_right fun hskip =>
      hskip.2 (hhex _ (List.getElem_mem _))

/-! ## Runs -/

/-- What happens between two states of the sketch: bytes arrive and `serialEvent1` is
called, the button is read, or the rest of the sketch (the timer, the client's commands,
the clock) changes what is not the reader's. -/
inductive Action
  | serialEvent1 (arrived : Bytes) (junk : Junk)
  | unlockButton (pressed : Bool)
  | rest (store : Store) (board : Board) (clock : Nat)

/-- One action. -/
def Action.step (world : World) (s : Sketch) : Action → Except Fault Sketch
  | .serialEvent1 arrived junk => (s.arrive arrived).serialEvent1 world junk
  | .unlockButton pressed => s.unlockButton world pressed
  | .rest store board clock => .ok { s with store := store, board := board, clock := clock }

/-- Bytes that arrive are not read yet. -/
theorem Held.arrive {s : Sketch} (h : s.Held) (bytes : Bytes) : (s.arrive bytes).Held :=
  ⟨h.ci, h.code⟩

/-- Every action keeps the invariant. -/
theorem Held.step {world : World} {s t : Sketch} (h : s.Held) {a : Action}
    (ht : a.step world s = .ok t) : t.Held := by
  cases a with
  | serialEvent1 arrived junk => exact (h.arrive arrived).serialEvent1 ht
  | unlockButton pressed =>
    rw [Action.step, unlockButton] at ht
    split at ht
    · exact h.trimmed (unlockDoor_trimmed ht)
    · obtain rfl := Except.ok.inj ht
      exact h
  | rest store board clock =>
    obtain rfl := Except.ok.inj ht
    exact ⟨h.ci, h.code⟩

/-- The payload of the frame that the 0x03 read last has ended, as far as it stands in
`code`. -/
def frame (t : Sketch) : Bytes := SmartDoor.standing t.serial1.seen.dropLast

/-- The bytes left in `code` behind this payload. -/
def stale (t : Sketch) : Bytes := t.code.toList.drop t.frame.length

end Sketch

/-- In every run, when `serialEvent1` has read a 0x03 and `process_code` finds a valid
checksum: exactly twelve hex characters came since the most recent 0x02, and the code
that is looked up is the first ten of them. This holds exactly when there were twelve hex
characters, or the pairs of the payload and of the bytes left behind it do not cancel. When
both are hex digits, they cancel exactly when the payload has the sum of the bytes that it
has not overwritten. -/
theorem frame_authenticity {world : World} {store : Store} {acts : List Sketch.Action}
    {s t : Sketch} (hs : acts.foldlM (Sketch.Action.step world) (Sketch.powerUp store) = .ok s)
    (arrived : Bytes) (hetx : (s.arrive arrived).serialScan 16 = (t, true)) (junk : Junk) :
    ((validTag junk t.code → ∃ p, payload t.serial1.seen = some p ∧ p.length = 12 ∧
        (∀ c ∈ p, isHex c) ∧
        Sketch.presented { t with code := endCode t.code } = p.take 10) ↔
      WholeFrame t.serial1.seen ∨ frameSum junk t.frame t.stale ≠ 0) ∧
    ((∀ c ∈ t.frame, isHex c) → (∀ c ∈ t.stale, isHex c) →
      (frameSum junk t.frame t.stale = 0 ↔
        digitSum true t.frame = digitSum (t.frame.length % 2 = 0) t.stale)) := by
  have hrun : s.Held := Run.invariant (fun h ht => h.step ht) (Sketch.held_powerUp store) hs
  obtain ⟨u, buffer, hu, -, rfl⟩ := (Sketch.serialScan_keeps (I := Sketch.Held)
    (fun _ hne h => h.taken hne _) (hrun.arrive arrived) hetx).2 rfl
  have hframe : Sketch.frame { u with serial1 := ⟨buffer, u.serial1.seen ++ [0x03]⟩ } =
      standing u.serial1.seen := by
    rw [Sketch.frame, List.dropLast_concat]
  have hlen := length_standing_le u.serial1.seen
  have hvalid := validTag_iff_frameSum junk hlen hu.code
  refine ⟨?_, fun hw hstale => frameSum_eq_zero_iff junk ?_ hw hstale⟩
  · rw [Sketch.stale, hframe]
    change (validTag junk u.code → _) ↔ _ ∨ ¬ frameSum junk (standing u.serial1.seen)
      (u.code.toList.drop (standing u.serial1.seen).length) = 0
    rw [← hvalid]
    constructor
    · intro h
      rw [or_iff_not_imp_right, not_not]
      intro hpass
      obtain ⟨p, hp, hpay, hhex, -⟩ := h hpass
      exact ⟨p, hp, hpay, hhex⟩
    · rintro h hpass
      obtain ⟨p, hp, hpay, hhex⟩ := h.resolve_right fun hnot => hnot hpass
      refine ⟨p, hp, hpay, hhex, ?_⟩
      have hreceived : received u.serial1.seen = p := by
        have hseen := received_of_payload hp
        rwa [received_concat, if_neg (by decide), if_neg (by decide)] at hseen
      have hten := hu.first_ten hreceived hpay hhex
      have hstrip := strip_endCode u.code fun c hc => by
        rw [hten] at hc
        exact isWord_of_isHex (hhex c (List.mem_of_mem_take hc))
      exact hstrip.trans hten
  · rw [Sketch.stale, hframe, List.length_append, List.length_drop, Vector.length_toList]
    omega

/-- A whole frame after a rejected one. -/
theorem frame_authenticity_after_rejected : ∃ s t,
    [Sketch.Action.serialEvent1 (0x02 :: (ascii "0C0029DA906E" ++ [0x03])) (.replicate 12 0)].foldlM
      (Sketch.Action.step ⟨fun _ => ⟨0, 0, 1, 1, 45⟩, fun _ => true⟩)
      (Sketch.powerUp Store.initial) = .ok s ∧
    (s.arrive (0x02 :: (ascii "6C0095E9D5C5" ++ [0x03]))).serialScan 16 = (t, true) ∧
    ∃ p, payload t.serial1.seen = some p ∧ p.length = 12 ∧ (∀ c ∈ p, isHex c) ∧
      Sketch.presented { t with code := endCode t.code } = p.take 10 := by
  have hrun : ([Sketch.Action.serialEvent1 (0x02 :: (ascii "0C0029DA906E" ++ [0x03]))
      (.replicate 12 0)].foldlM
        (Sketch.Action.step ⟨fun _ => ⟨0, 0, 1, 1, 45⟩, fun _ => true⟩)
        (Sketch.powerUp Store.initial) >>= fun s =>
      let r := (s.arrive (0x02 :: (ascii "6C0095E9D5C5" ++ [0x03]))).serialScan 16
      .ok (r.2, validTag (.replicate 12 0) r.1.code, payload r.1.serial1.seen)) =
      .ok (true, true, some (ascii "6C0095E9D5C5")) := by
    decide +kernel
  obtain ⟨s, hs, h⟩ := bind_eq_ok.mp hrun
  generalize hr : (s.arrive (0x02 :: (ascii "6C0095E9D5C5" ++ [0x03]))).serialScan 16 = r at h
  obtain ⟨t, etx⟩ := r
  simp only [Except.ok.injEq, Prod.mk.injEq] at h
  obtain ⟨rfl, hvalid, hp⟩ := h
  have hwhole : WholeFrame t.serial1.seen := ⟨_, hp, rfl, List.all_eq_true.mp (by decide)⟩
  exact ⟨s, t, hs, hr, (frame_authenticity hs _ hr _).1.mpr (Or.inl hwhole) hvalid⟩

/-- After a rejected frame, a frame of two characters corrects its checksum, and the code
that is looked up has eight characters of the rejected one. -/
theorem frame_authenticity_of_stale :
    ([Sketch.Action.serialEvent1 (0x02 :: (ascii "0C0029DA906E" ++ [0x03]))
      (.replicate 12 0)].foldlM
        (Sketch.Action.step ⟨fun _ => ⟨0, 0, 1, 1, 45⟩, fun _ => true⟩)
        (Sketch.powerUp Store.initial) >>= fun s =>
      let r := (s.arrive (0x02 :: (ascii "0D" ++ [0x03]))).serialScan 16
      .ok (r.2, validTag (.replicate 12 0) r.1.code, payload r.1.serial1.seen,
        Sketch.presented { r.1 with code := endCode r.1.code })) =
      .ok (true, true, some (ascii "0D"), ascii "0D0029DA90") := by
  decide +kernel

/-- The two characters have the sum of the ten that they leave. -/
example : digitSum true (ascii "0D") = digitSum true (ascii "0029DA906E") := by decide +kernel

end SmartDoor
