import SmartDoor.Access.Loop

/-!
# The places of the buffer

Each payload byte has a place in `code`: the number of payload bytes between it and the
last 0x02. A history keeps the bytes that were read since power up, or since the last
frame that was accepted, with their places. `code` is all zeros at power up, and an accepted
frame leaves a NUL at the last place and a trim puts one at the place before it. So for a
press of the button to find no NUL, both places must have been stored since: a frame
that was not accepted must have had twelve payload bytes.
-/

namespace SmartDoor

open CString

/-- Payload bytes that were read, each with its place. -/
abbrev Places := List (Nat × UInt8)

/-- The payload among some bytes, when the bytes `before` came before them. -/
def numbered : Bytes → Bytes → Places
  | _, [] => []
  | before, c :: bytes =>
    (if isPayload c then [((received before).length, c)] else []) ++ numbered (before ++ [c]) bytes

/-- The byte that was read last for a place. -/
def Places.last (since : Places) (j : Nat) : Option UInt8 :=
  since.foldl (fun last x => if x.1 = j then some x.2 else last) none

/-- All payload bytes are visible: neither NULs nor white space. -/
def Solid (bytes : Bytes) : Prop := ∀ c ∈ bytes, isPayload c → isSolid c

instance (bytes : Bytes) : Decidable (Solid bytes) :=
  inferInstanceAs (Decidable (∀ c ∈ bytes, _ → _))

/-- The twelfth place was not stored; or the eleventh was not, where all payload is
visible; or a NUL was stored. -/
def Places.Open (since : Places) (seen : Bytes) : Prop :=
  since.last 11 = none ∨ since.last 10 = none ∧ Solid seen ∨ ∃ j < 12, since.last j = some 0

instance (since : Places) (seen : Bytes) : Decidable (since.Open seen) :=
  inferInstanceAs (Decidable (_ ∨ _ ∧ _ ∨ _))

/-- Payload in two pieces. -/
theorem numbered_append (before bytes more : Bytes) : numbered before (bytes ++ more) =
    numbered before bytes ++ numbered (before ++ bytes) more := by
  induction bytes generalizing before with
  | nil => rw [List.append_nil]; rfl
  | cons c bytes ih =>
    rw [List.cons_append, numbered, numbered, ih, List.append_assoc, List.append_assoc]
    rfl

namespace Places

/-- One more byte is the last one of its place. -/
theorem last_concat (since : Places) (k : Nat) (c : UInt8) (j : Nat) :
    last (since ++ [(k, c)]) j = if k = j then some c else since.last j := by
  rw [last, List.foldl_append]
  rfl

end Places

/-- The beginning of visible payload. -/
theorem Solid.append_left {bytes more : Bytes} (h : Solid (bytes ++ more)) : Solid bytes :=
  fun c hc => h c (List.mem_append_left _ hc)

/-- After ten visible characters the CR of an accepted frame is trimmed. -/
theorem getElem_trimAt_endCode {code : Vector UInt8 12}
    (h : ∀ j (hj : j < 12), j < 10 → isSolid code[j]) (hten : 10 < 12) :
    (trimAt (endCode code) 0)[10] = 0 := by
  have hsolid : ∀ c ∈ code.toList.take 10, c ≠ 0 ∧ isspace c = false := by
    intro c hc
    obtain ⟨j, hj, rfl⟩ := List.getElem_of_mem hc
    rw [List.length_take] at hj
    have hget := h j (by omega) (by omega)
    simp only [isSolid, decide_eq_true_eq] at hget
    rw [List.getElem_take, Vector.getElem_toList]
    exact hget
  have hcont : content ((endCode code).toList.drop 0) = code.toList.take 10 ++ [13] := by
    have h0 : (0 : UInt8) ∉ code.toList.take 10 ++ [13] := by
      intro hmem
      rcases List.mem_append.mp hmem with hmem | hmem
      · exact (hsolid _ hmem).1 rfl
      · cases List.mem_singleton.mp hmem
    rw [List.drop_zero, toList_endCode, ← content_append_zero h0 (m := []), List.append_assoc]
    rfl
  have hlen : (code.toList.take 10).length = 10 := by simp
  have hne : code.toList.take 10 ≠ [] := fun hnil => by simp [hnil] at hlen
  have hlast := (hsolid _ (List.getLast_mem hne)).2
  have hkeep : (code.toList.take 10 ++ [13]).rdropWhile isspace = code.toList.take 10 := by
    rw [List.rdropWhile_concat_pos _ _ _ (by decide), List.rdropWhile_eq_self_iff]
    intro _
    rw [hlast]
    decide
  rw [trimAt, hcont, if_neg, hkeep, hlen]
  · exact Vector.getElem_setIfInBounds_self (by decide)
  · intro hall
    have hspace := List.all_eq_true.mp hall _ (List.mem_append_left _ (List.getLast_mem hne))
    rw [hlast] at hspace
    cases hspace

namespace Sketch

/-! ## The invariant -/

/-- What is known of the buffer when all payload was visible. -/
structure Shows (s : Sketch) (since : Places) : Prop where
  front : ∀ j (hj : j < 12), j < 10 → j < s.ci → isSolid s.code[j]
  ten : since.last 10 ≠ none → ∀ j (hj : j < 12), j ≤ 10 → isSolid s.code[j]
  eleven : since.last 11 ≠ none → ∀ h : 11 < 12, isSolid s.code[11]
  gap : since.last 10 = none → (∀ h : 10 < 12, s.code[10] = 0) ∨ s.ci ≤ 10 ∧ since.last 11 = none

/-- The buffer behind a history. -/
structure Filled (s : Sketch) (since : Places) : Prop where
  ci : s.ci = min 12 (received s.serial1.seen).length
  nul : ∀ j (hj : j < 12), since.last j = some 0 → s.code[j] = 0
  eleven : since.last 11 = none → ∀ h : 11 < 12, s.code[11] = 0
  shows : Solid s.serial1.seen → s.Shows since

/-- At power up the buffer is all zeros. -/
theorem filled_powerUp (store : Store) : (powerUp store).Filled [] where
  ci := rfl
  nul j hj h := by cases h
  eleven _ _ := rfl
  shows _ := ⟨fun j hj _ h => absurd h (Nat.not_lt_zero j), fun h => absurd rfl h,
    fun h => absurd rfl h, fun _ => Or.inl fun _ => rfl⟩

/-- With a place to spare there is a NUL. -/
theorem Filled.terminated {s : Sketch} {since : Places} (h : s.Filled since)
    (hopen : since.Open s.serial1.seen) : Terminated s.code.toList := by
  have hnul : ∀ j (hj : j < 12), s.code[j] = 0 → Terminated s.code.toList := by
    intro j hj h0
    have hmem : s.code[j] ∈ s.code := Vector.getElem_mem hj
    rw [h0] at hmem
    exact Vector.mem_toList_iff.mpr hmem
  rcases hopen with heleven | ⟨hten, hsolid⟩ | ⟨j, hj, hlast⟩
  · exact hnul 11 (by decide) (h.eleven heleven _)
  · rcases (h.shows hsolid).gap hten with h0 | ⟨-, heleven⟩
    · exact hnul 10 (by decide) (h0 _)
    · exact hnul 11 (by decide) (h.eleven heleven _)
  · exact hnul j hj (h.nul j hj hlast)

/-- Where all payload is visible, a NUL is found only with a place to spare. -/
theorem Filled.open_of_terminated {s : Sketch} {since : Places} (h : s.Filled since)
    (hsolid : Solid s.serial1.seen) (hterm : Terminated s.code.toList) :
    since.Open s.serial1.seen := by
  by_contra hfull
  have hshows := h.shows hsolid
  have heleven : since.last 11 ≠ none := fun h => hfull (Or.inl h)
  have hten : since.last 10 ≠ none := fun h => hfull (Or.inr (Or.inl ⟨h, hsolid⟩))
  obtain ⟨j, hj, h0⟩ := List.getElem_of_mem hterm
  rw [Vector.length_toList] at hj
  rw [Vector.getElem_toList] at h0
  have hget : isSolid s.code[j] := by
    by_cases hlast : j = 11
    · subst hlast
      exact hshows.eleven heleven hj
    · exact hshows.ten hten j hj (by omega)
  rw [h0] at hget
  cases hget

/-- A trim ends white space, and keeps what is visible. -/
theorem Filled.trimmed {s t : Sketch} {since : Places} (h : s.Filled since) (ht : s.Trimmed t) :
    t.Filled since := by
  have hzero : ∀ j (hj : j < 12), s.code[j] = 0 → t.code[j] = 0 := by
    intro j hj h0
    rcases ht.code with hcode | ⟨-, hcode⟩
    · rw [hcode, h0]
    · rw [hcode]
      exact getElem_trimAt_zero h0
  have hsolid : ∀ j (hj : j < 12), isSolid s.code[j] → isSolid t.code[j] := by
    intro j hj hget
    rcases ht.code with hcode | ⟨-, hcode⟩
    · rw [hcode]
      exact hget
    · rw [hcode, getElem_trimAt_of_isSolid hget]
      exact hget
  refine ⟨by rw [ht.ci, ht.serial1, h.ci], fun j hj hlast => hzero j hj (h.nul j hj hlast),
    fun hlast hj => hzero 11 hj (h.eleven hlast hj), fun hseen => ?_⟩
  rw [ht.serial1] at hseen
  have hshows := h.shows hseen
  exact ⟨fun j hj hten hci => hsolid j hj (hshows.front j hj hten (ht.ci ▸ hci)),
    fun hlast j hj hle => hsolid j hj (hshows.ten hlast j hj hle),
    fun hlast hj => hsolid 11 hj (hshows.eleven hlast hj),
    fun hlast => (hshows.gap hlast).imp (fun h0 hj => hzero 10 hj (h0 hj)) fun hgap =>
      ⟨ht.ci ▸ hgap.1, hgap.2⟩⟩

/-- A byte that is stored at its place. -/
theorem Filled.stored {s : Sketch} {since : Places} (h : s.Filled since) {c : UInt8}
    (hpay : isPayload c) (hroom : s.ci < 12) (buffer : Bytes)
    (hci : (s.taken c buffer).ci =
      min 12 (received (s.taken c buffer).serial1.seen).length) :
    (s.taken c buffer).Filled (since ++ [((received s.serial1.seen).length, c)]) := by
  have hstx : c ≠ 0x02 := by
    rintro rfl
    cases hpay
  have htaken : s.taken c buffer = { s with
      serial1 := ⟨buffer, s.serial1.seen ++ [c]⟩, code := s.code.set s.ci c, ci := s.ci + 1 } := by
    rw [taken, if_neg hstx, dif_pos ⟨hpay, hroom⟩]
  have hplace : (received s.serial1.seen).length = s.ci := by
    have := h.ci
    omega
  refine ⟨hci, ?_, ?_, ?_⟩
  all_goals rw [htaken, hplace]
  · intro j hj hlast
    rw [Places.last_concat] at hlast
    simp only [Vector.getElem_set]
    split at hlast
    · rename_i heq
      rw [if_pos heq]
      exact Option.some.inj hlast
    · rename_i hne
      rw [if_neg hne]
      exact h.nul j hj hlast
  · intro hlast hj
    rw [Places.last_concat] at hlast
    simp only [Vector.getElem_set]
    split at hlast
    · cases hlast
    · rename_i hne
      rw [if_neg hne]
      exact h.eleven hlast hj
  · intro hseen
    have hshows := h.shows (Solid.append_left hseen)
    have hc : isSolid c := hseen c (List.mem_append_right _ (List.mem_singleton_self c)) hpay
    have hset : ∀ j (hj : j < 12), (j ≠ s.ci → isSolid s.code[j]) →
        isSolid (s.code.set s.ci c)[j] := by
      intro j hj hother
      rw [Vector.getElem_set]
      split
      · exact hc
      · rename_i hne
        exact hother fun heq => hne heq.symm
    refine ⟨fun j hj hten hlt => hset j hj fun hne => hshows.front j hj hten ?_,
      fun hlast j hj hle => hset j hj fun hne => ?_,
      fun hlast hj => hset 11 hj fun hne => hshows.eleven ?_ hj, fun hlast => ?_⟩
    · change j < s.ci + 1 at hlt
      omega
    · rw [Places.last_concat] at hlast
      split at hlast
      · rename_i heq
        exact hshows.front j hj (by omega) (by omega)
      · exact hshows.ten hlast j hj hle
    · rwa [Places.last_concat, if_neg (Ne.symm hne)] at hlast
    · rw [Places.last_concat] at hlast
      split at hlast
      · cases hlast
      · rename_i hne
        rcases hshows.gap hlast with h0 | ⟨hle, heleven⟩
        · left
          simp only [Vector.getElem_set, if_neg hne]
          exact h0
        · right
          refine ⟨?_, ?_⟩
          · change s.ci + 1 ≤ 10
            omega
          · rw [Places.last_concat, if_neg (by omega)]
            exact heleven

/-- A byte that is read. -/
theorem Filled.taken {s : Sketch} {since : Places} (h : s.Filled since) (c : UInt8)
    (buffer : Bytes) : (s.taken c buffer).Filled (since ++ numbered s.serial1.seen [c]) := by
  have hci := ci_taken c buffer h.ci
  rw [numbered, numbered, List.append_nil]
  by_cases hpay : isPayload c
  · rw [if_pos hpay]
    by_cases hroom : s.ci < 12
    · exact h.stored hpay hroom buffer hci
    · have hstx : c ≠ 0x02 := by
        rintro rfl
        cases hpay
      have htaken : s.taken c buffer = { s with serial1 := ⟨buffer, s.serial1.seen ++ [c]⟩ } := by
        rw [Sketch.taken, if_neg hstx, dif_neg fun hboth => hroom hboth.2]
      have hfull := h.ci
      have hlast : ∀ j, j < 12 → Places.last (since ++ [((received s.serial1.seen).length, c)]) j =
          since.last j := by
        intro j hj
        rw [Places.last_concat, if_neg (by omega)]
      refine ⟨hci, ?_, ?_, ?_⟩
      all_goals rw [htaken]
      · intro j hj h0
        exact h.nul j hj (hlast j hj ▸ h0)
      · intro h0
        exact h.eleven (hlast 11 (by decide) ▸ h0)
      · intro hseen
        obtain ⟨hfront, hten, heleven, hgap⟩ := h.shows (Solid.append_left hseen)
        refine ⟨hfront, ?_, ?_, ?_⟩
        all_goals simp only [hlast 10 (by decide), hlast 11 (by decide)]
        · exact hten
        · exact heleven
        · exact hgap
  · rw [if_neg hpay, List.append_nil]
    have hcode : (s.taken c buffer).code = s.code ∧ (s.taken c buffer).ci ≤ s.ci ∧
        (s.taken c buffer).serial1.seen = s.serial1.seen ++ [c] := by
      rw [Sketch.taken]
      split
      · exact ⟨rfl, Nat.zero_le _, rfl⟩
      · rw [dif_neg fun hboth => hpay hboth.1]
        exact ⟨rfl, le_rfl, rfl⟩
    obtain ⟨hcode, hle, hseen⟩ := hcode
    refine ⟨hci, ?_, ?_, ?_⟩
    · rw [hcode]
      exact h.nul
    · rw [hcode]
      exact h.eleven
    · intro hsolid
      rw [hseen] at hsolid
      obtain ⟨hfront, hten, heleven, hgap⟩ := h.shows hsolid.append_left
      rw [← hcode] at hfront hten heleven hgap
      exact ⟨fun j hj hlt hci => hfront j hj hlt (hci.trans_le hle), hten, heleven,
        fun hlast => (hgap hlast).imp_right fun hgap => ⟨hle.trans hgap.1, hgap.2⟩⟩

/-- The 0x03 that ends a frame. -/
theorem Filled.etx {s : Sketch} {since : Places} (h : s.Filled since) (buffer : Bytes) :
    Filled { s with serial1 := ⟨buffer, s.serial1.seen ++ [0x03]⟩ } since where
  ci := by rw [h.ci, received_concat, if_neg (by decide), if_neg (by decide)]
  nul := h.nul
  eleven := h.eleven
  shows hseen :=
    have hshows := h.shows (Solid.append_left hseen)
    ⟨hshows.front, hshows.ten, hshows.eleven, hshows.gap⟩

/-- An accepted frame: CR and NUL are stored, and the CR is trimmed. The history begins
again. -/
theorem Filled.accepted {s t : Sketch} {since : Places} (h : s.Filled since)
    (hcode : t.code = trimAt (endCode s.code) 0) (hci : t.ci = s.ci)
    (hserial : t.serial1 = s.serial1) : t.Filled [] := by
  refine ⟨by rw [hci, hserial, h.ci], fun j hj hlast => (by cases hlast), fun _ _ => ?_,
    fun hseen => ?_⟩
  · rw [hcode]
    exact getElem_trimAt_zero (by simp [endCode])
  · rw [hserial] at hseen
    have hfront := (h.shows hseen).front
    refine ⟨fun j hj hten hlt => ?_, fun hlast => absurd rfl hlast, fun hlast => absurd rfl hlast,
      fun _ => ?_⟩
    · have hget : (endCode s.code)[j] = s.code[j] := by
        simp only [endCode, Vector.getElem_set]
        rw [if_neg (by omega), if_neg (by omega)]
      have hsolid := hfront j hj hten (hci ▸ hlt)
      rw [hcode, getElem_trimAt_of_isSolid (by rw [hget]; exact hsolid), hget]
      exact hsolid
    · by_cases hle : t.ci ≤ 10
      · exact Or.inr ⟨hle, rfl⟩
      · left
        rw [hcode]
        exact getElem_trimAt_endCode fun j hj hten => hfront j hj hten (by omega)

/-- The bytes that the loop of `serialEvent1` reads. -/
theorem Filled.serialScan {s t : Sketch} {since : Places} {left : Nat} {etx : Bool}
    (h : s.Filled since) (hscan : s.serialScan left = (t, etx)) :
    t.Filled (since ++ numbered s.serial1.seen (t.serial1.seen.drop s.serial1.seen.length)) := by
  -- what has been read of the call so far
  let I := fun u : Sketch => ∃ read, u.serial1.seen = s.serial1.seen ++ read ∧
    u.Filled (since ++ numbered s.serial1.seen read)
  have hstep : ∀ {u c buffer}, u.serial1.buffer = c :: buffer → c ≠ 0x03 → I u →
      I (u.taken c buffer) := by
    rintro u c buffer - - ⟨read, hread, hu⟩
    refine ⟨read ++ [c], ?_, ?_⟩
    · rw [← List.append_assoc, ← hread, Sketch.taken]
      split
      · rfl
      split <;> rfl
    · rw [numbered_append, ← List.append_assoc, ← hread]
      exact hu.taken c buffer
  have hfirst : I s := ⟨[], (List.append_nil _).symm, by
    rw [numbered, List.append_nil]
    exact h⟩
  have hetx : ∀ {u buffer}, u.serial1.buffer = 0x03 :: buffer → I u →
      I { u with serial1 := ⟨buffer, u.serial1.seen ++ [0x03]⟩ } := by
    rintro u buffer - ⟨read, hread, hu⟩
    refine ⟨read ++ [0x03], ?_, ?_⟩
    · rw [← List.append_assoc, ← hread]
    · rw [numbered_append, numbered, numbered, if_neg (by decide), List.append_nil,
        List.append_nil]
      exact hu.etx buffer
  obtain ⟨read, hread, ht⟩ := serialScan_invariant hstep hetx hfirst hscan
  rw [hread, List.drop_left]
  exact ht

end Sketch

namespace Task

open Sketch

variable {world : World}

/-- The payload since power up, or since the last accepted frame, with what a task reads. -/
def note (s : Sketch) (since : Places) : Task → Places
  | .serialEvent1 arrived junk =>
    if ((s.arrive arrived).presents junk).isSome then []
    else
      let t := ((s.arrive arrived).serialScan 16).1
      since ++ numbered s.serial1.seen (t.serial1.seen.drop s.serial1.seen.length)
  | _ => since

/-- A press finds a place to spare. -/
def Spare (p : Sketch × Places) (a : Task) : Prop :=
  a = .unlockButton true → p.2.Open p.1.serial1.seen

instance (p : Sketch × Places) (a : Task) : Decidable (a.Spare p) :=
  inferInstanceAs (Decidable (_ → _))

/-- The payload that arrives is visible. -/
def Solid : Task → Prop
  | .serialEvent1 arrived _ => SmartDoor.Solid arrived
  | _ => True

/-- What a task does to the reader: the buffer may be trimmed, or bytes are read, and a frame
may be accepted. -/
theorem step_reader {s t : Sketch} {a : Task} (hpupa : s.store.pupa.Terminated)
    (hready : s.board.Ready) (h : a.step world s = .ok t) :
    (s.Trimmed t ∧ ∀ since, a.note s since = since) ∨
    ∃ arrived junk v etx, a = .serialEvent1 arrived junk ∧
      (s.arrive arrived).serialScan 16 = (v, etx) ∧ t.ci = v.ci ∧ t.serial1 = v.serial1 ∧
      (((s.arrive arrived).presents junk = none ∧ t.code = v.code) ∨
        (((s.arrive arrived).presents junk).isSome ∧ t.code = trimAt (endCode v.code) 0)) := by
  cases a with
  | update =>
    obtain rfl := Except.ok.inj h
    refine Or.inl ⟨?_, fun _ => rfl⟩
    rcases update_cases world hready with hsame | ⟨timer, hlock, -⟩
    · rw [hsame]
      exact ⟨rfl, rfl, Or.inl rfl⟩
    · rw [hlock]
      exact ⟨rfl, rfl, Or.inl rfl⟩
  | updateTime =>
    obtain ⟨fx, hstep, -⟩ := s.updateTime_eq world
    obtain rfl := Except.ok.inj (hstep.symm.trans h)
    exact Or.inl ⟨⟨rfl, rfl, Or.inl rfl⟩, fun _ => rfl⟩
  | unlockButton pressed =>
    rw [step, Sketch.unlockButton] at h
    refine Or.inl ⟨?_, fun _ => rfl⟩
    split at h
    · exact unlockDoor_trimmed h
    · obtain rfl := Except.ok.inj h
      exact ⟨rfl, rfl, Or.inl rfl⟩
  | serialEvent1 arrived junk =>
    refine Or.inr ⟨arrived, junk, _, _, rfl, rfl, ?_⟩
    rw [step, serialEvent1_eq] at h
    cases hu : (s.arrive arrived).presents junk with
    | none =>
      rw [hu] at h
      obtain rfl := Except.ok.inj h
      exact ⟨rfl, rfl, Or.inl ⟨rfl, rfl⟩⟩
    | some u =>
      rw [hu] at h
      have hstrings : u.Strings := by
        obtain ⟨⟨code, ci, serial1, rfl⟩, hcode⟩ := presents_scanned hu
        exact ⟨hcode, hpupa⟩
      obtain ⟨v, hv, hcode, hci, hserial, -⟩ := hstrings.checkIDAccess_reader world
      obtain rfl := Except.ok.inj (hv.symm.trans h)
      obtain rfl := presents_eq hu
      exact ⟨hci, hserial, Or.inr ⟨rfl, hcode⟩⟩
  | wait ms =>
    obtain rfl := Except.ok.inj h
    exact Or.inl ⟨⟨rfl, rfl, Or.inl rfl⟩, fun _ => rfl⟩

/-- What is known of the buffer is known after each task. -/
theorem filled_step {s t : Sketch} {since : Places} {a : Task} (hpupa : s.store.pupa.Terminated)
    (hready : s.board.Ready) (hf : s.Filled since) (h : a.step world s = .ok t) :
    t.Filled (a.note s since) := by
  rcases step_reader hpupa hready h with ⟨htrim, hnote⟩ |
    ⟨arrived, junk, v, etx, rfl, hscan, hci, hserial, hcode⟩
  · rw [hnote]
    exact hf.trimmed htrim
  · have harrive : (s.arrive arrived).Filled since := ⟨hf.ci, hf.nul, hf.eleven, fun hseen =>
      have hshows := hf.shows hseen
      ⟨hshows.front, hshows.ten, hshows.eleven, hshows.gap⟩⟩
    have hv := harrive.serialScan hscan
    rw [note, hscan]
    rcases hcode with ⟨hnone, hcode⟩ | ⟨hsome, hcode⟩
    · rw [hnone]
      exact hv.trimmed ⟨hci, hserial, Or.inl hcode⟩
    · rw [if_pos hsome]
      exact hv.accepted hcode hci hserial

/-- Visible payload stays visible payload, read or still to be read. -/
theorem solid_step {s t : Sketch} {a : Task} (hpupa : s.store.pupa.Terminated)
    (hready : s.board.Ready) (ha : a.Solid)
    (hs : SmartDoor.Solid (s.serial1.seen ++ s.serial1.buffer)) (h : a.step world s = .ok t) :
    SmartDoor.Solid (t.serial1.seen ++ t.serial1.buffer) := by
  rcases step_reader hpupa hready h with ⟨htrim, -⟩ |
    ⟨arrived, junk, v, etx, rfl, hscan, -, hserial, -⟩
  · rw [htrim.serial1]
    exact hs
  · obtain ⟨bytes, rest, code, ci, hsplit, hstate, -⟩ :=
      (s.arrive arrived).serialScan_eq (fun _ => 0) [] 16
    rw [hscan] at hstate
    have hstream : t.serial1.seen ++ t.serial1.buffer =
        s.serial1.seen ++ s.serial1.buffer ++ arrived := by
      rw [hserial, show v.serial1 = ⟨rest, s.serial1.seen ++ bytes⟩ from congrArg serial1 hstate,
        List.append_assoc, List.append_assoc, ← hsplit]
      rfl
    rw [hstream]
    intro c hc
    rcases List.mem_append.mp hc with hc | hc
    · exact hs c hc
    · exact ha c hc

end Task

/-- The invariant of a run beside its history. -/
structure Beside (p : Sketch × Places) : Prop where
  pupa : p.1.store.pupa.Terminated
  ready : p.1.board.Ready
  filled : p.1.Filled p.2

/-- Every task keeps the invariant of run and history. -/
theorem Beside.step {world : World} {p q : Sketch × Places} {a : Task} (h : Beside p)
    (hstep : Run.watch (Task.step world) Task.note p a = .ok q) : Beside q := by
  obtain ⟨hok, hnote⟩ := Run.watch_ok hstep
  obtain ⟨hkept, -, hready⟩ := Task.step_kept h.pupa h.ready hok
  refine ⟨?_, hready, ?_⟩
  · rcases hkept with hsame | ⟨user, hsearched⟩
    · exact hsame ▸ h.pupa
    · exact hsearched ▸ h.pupa.searched user
  · rw [hnote]
    exact Task.filled_step h.pupa h.ready h.filled hok

/-- In every run of the tasks, with any bytes: all string functions stay inside the twelve
bytes of `code` and find a string there, when at each press of the button there is a place
to spare: since power up, or since the last accepted frame, no twelfth payload byte was
stored; or no eleventh, and all payload is visible; or the last byte of some place is a
NUL. Where all payload is visible, this is exact. -/
theorem code_string (world : World) {store : Store} (hstore : store.pupa.Terminated)
    (tasks : List Task) :
    (Run.Guarded (Run.watch (Task.step world) Task.note) (fun p a => a.Spare p)
        (Sketch.powerUp store, []) tasks →
      Run.Guarded (Task.step world) (fun s a => a.Inside world s) (Sketch.powerUp store) tasks) ∧
    ((∀ a ∈ tasks, a.Solid) →
      (Run.Guarded (Task.step world) (fun s a => a.Inside world s) (Sketch.powerUp store) tasks ↔
        Run.Guarded (Run.watch (Task.step world) Task.note) (fun p a => a.Spare p)
          (Sketch.powerUp store, []) tasks)) := by
  have hstart : Beside (Sketch.powerUp store, []) :=
    ⟨hstore, Or.inl Board.afterSetup_setup.locked, Sketch.filled_powerUp store⟩
  have hsuffices : Run.Guarded (Run.watch (Task.step world) Task.note) (fun p a => a.Spare p)
      (Sketch.powerUp store, []) tasks →
      Run.Guarded (Task.step world) (fun s a => a.Inside world s) (Sketch.powerUp store) tasks := by
    intro hguarded
    apply (Run.guarded_watch Task.note (Sketch.powerUp store, [])).mp
    refine Run.Guarded.imp (I := Beside) (fun _ h hstep => h.step hstep) ?_ hstart hguarded
    intro p a _ h hspare
    exact (Task.inside_iff h.pupa).mpr fun hpress => h.filled.terminated (hspare hpress)
  refine ⟨hsuffices, fun hsolid => ⟨fun hguarded => ?_, hsuffices⟩⟩
  have hwatched := (Run.guarded_watch Task.note (Sketch.powerUp store, [])).mpr
    hguarded
  refine Run.Guarded.imp
    (I := fun p => Beside p ∧ Solid (p.1.serial1.seen ++ p.1.serial1.buffer)) ?_ ?_
    ⟨hstart, fun c hc => by cases hc⟩ hwatched
  · rintro p a q ha ⟨h, hseen⟩ hstep
    exact ⟨h.step hstep,
      Task.solid_step h.pupa h.ready (hsolid a ha) hseen (Run.watch_ok hstep).1⟩
  · rintro p a - ⟨h, hseen⟩ hinside hpress
    exact h.filled.open_of_terminated hseen.append_left ((Task.inside_iff h.pupa).mp hinside hpress)

/-- The button before any card, after a card, and in the middle of a frame. -/
theorem code_string_of_card :
    Run.Guarded (Task.step .still) (fun s a => a.Inside .still s) (Sketch.powerUp Store.initial)
      [.unlockButton true, .serialEvent1 (0x02 :: (ascii "0C0029DA906F" ++ [0x03]))
        (.replicate 12 0), .update, .unlockButton true, .serialEvent1 (0x02 :: ascii "6C0095")
        (.replicate 12 0), .wait 100, .unlockButton true] :=
  (code_string _ (Pupa.sound_zero.terminated) _).1 (by decide +kernel)

/-- A frame that fails the checksum leaves no NUL in `code`; a press of the button then
reads past its end. -/
theorem code_string_of_rejected : ∃ s,
    [Task.serialEvent1 (0x02 :: (ascii "0C0029DA906E" ++ [0x03])) (.replicate 12 0)].foldlM
      (Task.step .still) (Sketch.powerUp Store.initial) = .ok s ∧
    (Task.unlockButton true).step .still s = .error .overread ∧
    ∃ code ∈ (Task.unlockButton true).handed s, ¬ Terminated code.toList := by
  have hrun : ([Task.serialEvent1 (0x02 :: (ascii "0C0029DA906E" ++ [0x03]))
      (.replicate 12 0)].foldlM (Task.step .still) (Sketch.powerUp Store.initial) >>= fun s =>
      .ok (((Task.unlockButton true).step .still s).map Sketch.ci, s.code.toList)) =
      .ok (.error .overread, ascii "0C0029DA906E") := by
    decide +kernel
  obtain ⟨s, hs, h⟩ := bind_eq_ok.mp hrun
  obtain ⟨hfault, hcode⟩ := Prod.mk.inj (Except.ok.inj h)
  refine ⟨s, hs, map_eq_error.mp hfault, s.code, List.mem_cons_self, ?_⟩
  rw [hcode]
  decide

end SmartDoor
