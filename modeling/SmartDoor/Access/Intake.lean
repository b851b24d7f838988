import SmartDoor.Access.Frames
import SmartDoor.Run.Guarded

/-!
# What reaches the buffer

Two things write to `code` between two calls of `process_code`: the loop of
`serialEvent1` stores payload bytes, and the lookups of the rest of the sketch trim what
they find. A property that each byte and each trim keeps is kept by every call. Trimming
writes a NUL over white space or another NUL, and touches nothing else.
-/

namespace SmartDoor

open CString

/-! ## Trimming -/

/-- Neither a NUL nor white space. -/
def isSolid (c : UInt8) : Bool := c ≠ 0 ∧ isspace c = false

/-- Hex digits are visible. -/
theorem isSolid_of_isHex {c : UInt8} (h : isHex c) : isSolid c := by
  have hword := isWord_of_isHex h
  simp only [isSolid, decide_eq_true_eq]
  exact ⟨(isWord_ne hword).1, isspace_of_isWord hword⟩

/-- A trim writes NULs only. -/
theorem getElem_trimAt_or {n : Nat} (v : Vector UInt8 n) (str : Nat) {i : Nat} (hi : i < n) :
    (trimAt v str)[i] = v[i] ∨ (trimAt v str)[i] = 0 := by
  rw [trimAt]
  split
  · exact Or.inl rfl
  · rw [Vector.getElem_setIfInBounds]
    split
    · exact Or.inr rfl
    · exact Or.inl rfl

/-- A trim leaves the other characters alone: behind what it keeps stands white space, up to
the NUL. -/
theorem getElem_trimAt_of_isSolid {n : Nat} {v : Vector UInt8 n} {str i : Nat} {hi : i < n}
    (h : isSolid v[i]) : (trimAt v str)[i] = v[i] := by
  rw [trimAt]
  split
  · rfl
  · rw [Vector.getElem_setIfInBounds]
    split
    · rename_i hend
      have hspace := @isspace_behind_kept _ v str
      simp only [isSolid, decide_eq_true_eq] at h
      have hdrop : v.toList.drop i = v[i] :: v.toList.drop (i + 1) := by
        rw [← Vector.getElem_toList (by simpa using hi)]
        exact List.drop_eq_getElem_cons (by simpa using hi)
      rw [hend, hdrop, content, List.takeWhile_cons_of_pos (by simpa using h.1)] at hspace
      have hfirst := hspace _ List.mem_cons_self
      rw [h.2] at hfirst
      cases hfirst
    · rfl

namespace Sketch

/-! ## What the rest of the sketch does to the buffer -/

/-- The buffer is as before, or it was a string and is trimmed. -/
structure Trimmed (s t : Sketch) : Prop where
  ci : t.ci = s.ci
  serial1 : t.serial1 = s.serial1
  code : t.code = s.code ∨ Terminated s.code.toList ∧ t.code = trimAt s.code 0

/-- A second trim finds nothing more to trim. -/
theorem Trimmed.trans {s t u : Sketch} (h : s.Trimmed t) (h' : t.Trimmed u) : s.Trimmed u := by
  refine ⟨h'.ci.trans h.ci, h'.serial1.trans h.serial1, ?_⟩
  rcases h.code with hc | ⟨ht, hc⟩
  · rw [← hc]
    exact h'.code
  · right
    refine ⟨ht, ?_⟩
    rcases h'.code with hc' | ⟨-, hc'⟩
    · rw [hc', hc]
    · rw [hc', hc, trimAt_trimAt (p := 0) ht]

/-- `isUser((char*)code)` trims the code. -/
theorem isUserCode_trimmed {s t : Sketch} {member : Int} (h : s.isUserCode = .ok (member, t)) :
    s.Trimmed t := by
  obtain ⟨⟨answer, pupa, code⟩, huser, hret⟩ := bind_eq_ok.mp h
  obtain ⟨-, rfl⟩ := Prod.mk.inj (Except.ok.inj hret)
  obtain ⟨⟨trimmed, p⟩, htrim, hrest⟩ := bind_eq_ok.mp huser
  obtain ⟨⟨_, _⟩, -, hret⟩ := bind_eq_ok.mp hrest
  obtain ⟨-, hpair⟩ := Prod.mk.inj (Except.ok.inj hret)
  obtain ⟨-, rfl⟩ := Prod.mk.inj hpair
  have hterm : Terminated s.code.toList := terminated_of_trimwhitespace htrim
  rw [trimwhitespace_eq s.code 0 hterm] at htrim
  exact ⟨rfl, rfl, Or.inr ⟨hterm, (Prod.mk.inj (Except.ok.inj htrim)).1.symm⟩⟩

/-- `LEDprint` trims the code, or leaves it. -/
theorem ledPrint_trimmed {world : World} {text : Str} {s t : Sketch}
    (h : s.ledPrint world text = .ok t) : s.Trimmed t := by
  obtain ⟨reset, -, h⟩ := bind_eq_ok.mp h
  split at h
  · obtain rfl := Except.ok.inj h
    exact ⟨rfl, rfl, Or.inl rfl⟩
  · obtain ⟨denied, -, h⟩ := bind_eq_ok.mp h
    split at h
    · obtain rfl := Except.ok.inj h
      exact ⟨rfl, rfl, Or.inl rfl⟩
    · obtain ⟨⟨member, u⟩, hu, h⟩ := bind_eq_ok.mp h
      have htrim := isUserCode_trimmed hu
      simp only at h
      split at h
      all_goals
        obtain ⟨unknown, -, h⟩ := bind_eq_ok.mp h
        obtain ⟨shown, -, h⟩ := bind_eq_ok.mp h
        obtain rfl := Except.ok.inj h
        exact ⟨htrim.ci, htrim.serial1, htrim.code⟩

/-- `writeLOG` leaves the code. -/
theorem writeLOG_trimmed {world : World} {username id : Str} {s t : Sketch}
    (h : s.writeLOG world username id = .ok t) : s.Trimmed t := by
  obtain ⟨_, -, h⟩ := bind_eq_ok.mp h
  obtain ⟨_, -, h⟩ := bind_eq_ok.mp h
  obtain rfl := Except.ok.inj h
  exact ⟨rfl, rfl, Or.inl rfl⟩

/-- `unlock_door` trims the code, and leaves the reader alone. -/
theorem unlockDoor_trimmed {world : World} {type : UnlockType} {s t : Sketch}
    (h : s.unlockDoor world type = .ok t) : s.Trimmed t := by
  unfold unlockDoor at h
  simp only at h
  have hopen : s.Trimmed ({ s with board := s.board.openDoor }.emit (.digitalWrite DOOR true)) :=
    ⟨rfl, rfl, Or.inl rfl⟩
  generalize { s with board := s.board.openDoor }.emit (.digitalWrite DOOR true) = u at h hopen
  have hdone : ∀ {v : Sketch}, u.Trimmed v →
      s.Trimmed { v with board := v.board.armRelock v.clock } := fun hv =>
    let hall := hopen.trans hv
    ⟨hall.ci, hall.serial1, hall.code⟩
  cases type with
  | card =>
    obtain ⟨⟨_, u₁⟩, h₁, h⟩ := bind_eq_ok.mp h
    obtain ⟨_, -, h⟩ := bind_eq_ok.mp h
    obtain ⟨_, -, h⟩ := bind_eq_ok.mp h
    obtain ⟨⟨_, u₂⟩, h₂, h⟩ := bind_eq_ok.mp h
    obtain ⟨_, -, h⟩ := bind_eq_ok.mp h
    obtain ⟨u₃, h₃, h⟩ := bind_eq_ok.mp h
    obtain ⟨⟨_, u₄⟩, h₄, h⟩ := bind_eq_ok.mp h
    obtain ⟨_, -, h⟩ := bind_eq_ok.mp h
    obtain ⟨u₅, h₅, h⟩ := bind_eq_ok.mp h
    obtain rfl := Except.ok.inj h
    exact hdone ((isUserCode_trimmed h₁).trans ((isUserCode_trimmed h₂).trans
      ((ledPrint_trimmed h₃).trans ((isUserCode_trimmed h₄).trans (writeLOG_trimmed h₅)))))
  | button =>
    obtain ⟨u₁, h₁, h⟩ := bind_eq_ok.mp h
    obtain ⟨u₂, h₂, h⟩ := bind_eq_ok.mp h
    obtain rfl := Except.ok.inj h
    exact hdone ((ledPrint_trimmed h₁).trans (writeLOG_trimmed h₂))

/-- `check_IDAccess` trims the code, and leaves the reader alone. -/
theorem checkIDAccess_trimmed {world : World} {s t : Sketch}
    (h : s.checkIDAccess world = .ok t) : s.Trimmed t := by
  obtain ⟨⟨member, u⟩, hu, h⟩ := bind_eq_ok.mp h
  have hu := isUserCode_trimmed hu
  simp only at h
  split at h
  · exact hu.trans (unlockDoor_trimmed h)
  · have hdelay : ∀ (ms : Nat) (v : Sketch), v.Trimmed (v.delay ms) :=
      fun ms v => ⟨rfl, rfl, Or.inl rfl⟩
    obtain ⟨u₁, h₁, h⟩ := bind_eq_ok.mp h
    obtain ⟨u₂, h₂, h⟩ := bind_eq_ok.mp h
    obtain ⟨u₃, h₃, h⟩ := bind_eq_ok.mp h
    exact hu.trans ((ledPrint_trimmed h₁).trans ((writeLOG_trimmed h₂).trans
      ((hdelay 1000 u₂).trans ((ledPrint_trimmed h₃).trans
        ((hdelay 5000 u₃).trans (ledPrint_trimmed h))))))

/-! ## What the loop stores -/

/-- The state of the loop of `serialEvent1` after one more byte, other than a 0x03. -/
def taken (c : UInt8) (buffer : Bytes) (s : Sketch) : Sketch :=
  let s := { s with serial1 := ⟨buffer, s.serial1.seen ++ [c]⟩ }
  if c = 0x02 then { s with ci := 0 }
  else if h : isPayload c ∧ s.ci < 12 then
    { s with code := s.code.set s.ci c h.2, ci := s.ci + 1 }
  else s

/-- What every byte keeps holds behind the loop, or before the 0x03 that ended it. -/
theorem serialScan_keeps {I : Sketch → Prop}
    (hstep : ∀ {s c buffer}, s.serial1.buffer = c :: buffer → c ≠ 0x03 → I s →
      I (s.taken c buffer)) {s t : Sketch} {left : Nat} {etx : Bool} (hs : I s)
    (h : s.serialScan left = (t, etx)) :
    (etx = false → I t) ∧ (etx = true → ∃ u buffer, I u ∧ u.serial1.buffer = 0x03 :: buffer ∧
      t = { u with serial1 := ⟨buffer, u.serial1.seen ++ [0x03]⟩ }) := by
  induction left generalizing s with
  | zero =>
    obtain ⟨rfl, rfl⟩ := Prod.mk.inj h
    exact ⟨fun _ => hs, fun h => by cases h⟩
  | succ left ih =>
    rw [serialScan] at h
    cases hbuf : s.serial1.buffer with
    | nil =>
      rw [hbuf] at h
      obtain ⟨rfl, rfl⟩ := Prod.mk.inj h
      exact ⟨fun _ => hs, fun h => by cases h⟩
    | cons c buffer =>
      simp only [hbuf] at h
      have hnext : ∀ {u : Sketch}, c ≠ 0x03 → s.taken c buffer = u → I u := fun hetx hu =>
        hu ▸ hstep hbuf hetx hs
      by_cases hstx : c = 0x02
      · rw [if_pos hstx] at h
        refine ih (hnext (by rw [hstx]; decide) ?_) h
        rw [taken, if_pos hstx]
      rw [if_neg hstx] at h
      by_cases hline : c = 0x0D ∨ c = 0x0A
      · rw [if_pos hline] at h
        refine ih (hnext (by rcases hline with rfl | rfl <;> decide) ?_) h
        have hskip : isPayload c = false := by rcases hline with rfl | rfl <;> rfl
        rw [taken, if_neg hstx, dif_neg fun hpay => by rw [hskip] at hpay; cases hpay.1]
      rw [if_neg hline] at h
      by_cases hetx : c = 0x03
      · rw [if_pos hetx] at h
        obtain ⟨rfl, rfl⟩ := Prod.mk.inj h
        exact ⟨fun h => (by cases h), fun _ => ⟨s, buffer, hs, hetx ▸ hbuf, hetx ▸ rfl⟩⟩
      rw [if_neg hetx] at h
      have hpay : isPayload c = true := by
        simp only [isPayload, decide_eq_true_eq]
        exact ⟨hstx, hetx, fun h => hline (Or.inl h), fun h => hline (Or.inr h)⟩
      split at h
      · rename_i hroom
        refine ih (hnext hetx ?_) h
        rw [taken, if_neg hstx, dif_pos ⟨hpay, hroom⟩]
      · rename_i hfull
        refine ih (hnext hetx ?_) h
        rw [taken, if_neg hstx, dif_neg fun hroom => hfull hroom.2]

/-- What every byte keeps, a 0x03 included, holds behind the loop. -/
theorem serialScan_invariant {I : Sketch → Prop}
    (hstep : ∀ {s c buffer}, s.serial1.buffer = c :: buffer → c ≠ 0x03 → I s →
      I (s.taken c buffer))
    (hetx : ∀ {s buffer}, s.serial1.buffer = 0x03 :: buffer → I s →
      I { s with serial1 := ⟨buffer, s.serial1.seen ++ [0x03]⟩ })
    {s t : Sketch} {left : Nat} {etx : Bool} (hs : I s) (h : s.serialScan left = (t, etx)) :
    I t := by
  have hkeeps := serialScan_keeps hstep hs h
  cases etx with
  | false => exact hkeeps.1 rfl
  | true =>
    obtain ⟨u, buffer, hu, hbuf, rfl⟩ := hkeeps.2 rfl
    exact hetx hbuf hu

/-- Bytes arrive at `Serial1`. -/
def arrive (bytes : Bytes) (s : Sketch) : Sketch :=
  { s with serial1 := { s.serial1 with buffer := s.serial1.buffer ++ bytes } }

end Sketch

/-! ## The payload of a frame -/

/-- The payload bytes since the most recent 0x02, or since power up. -/
def received (seen : Bytes) : Bytes := (seen.rtakeWhile (· ≠ 0x02)).filter isPayload

/-- The payload since the last 0x02 after one more byte. -/
theorem received_concat (seen : Bytes) (c : UInt8) : received (seen ++ [c]) =
    if c = 0x02 then [] else if isPayload c then received seen ++ [c] else received seen := by
  rw [received]
  split
  · rename_i hstx
    rw [List.rtakeWhile_concat_neg _ _ _ (by simpa using hstx)]
    rfl
  · rename_i hstx
    rw [List.rtakeWhile_concat_pos _ _ _ (by simpa using hstx), List.filter_append]
    split
    · rename_i hpay
      rw [List.filter_cons_of_pos hpay]
      rfl
    · rename_i hskip
      rw [List.filter_cons_of_neg hskip, List.filter_nil, List.append_nil]
      rfl

/-- `ci` counts the payload up to twelve. -/
theorem Sketch.ci_taken {s : Sketch} (c : UInt8) (buffer : Bytes)
    (h : s.ci = min 12 (received s.serial1.seen).length) :
    (s.taken c buffer).ci = min 12 (received (s.taken c buffer).serial1.seen).length := by
  have hseen : (s.taken c buffer).serial1.seen = s.serial1.seen ++ [c] := by
    rw [taken]
    split
    · rfl
    split <;> rfl
  rw [hseen, received_concat, taken]
  split
  · rfl
  · split
    · rename_i hroom
      rw [if_pos hroom.1, List.length_append, List.length_singleton]
      have hlt : s.ci < 12 := hroom.2
      change s.ci + 1 = _
      omega
    · rename_i hroom
      change s.ci = _
      split
      · rename_i hpay
        have hfull : ¬ s.ci < 12 := fun hlt => hroom ⟨hpay, hlt⟩
        rw [List.length_append, List.length_singleton]
        omega
      · exact h

end SmartDoor
