import SmartDoor.Card.Format
import SmartDoor.Card.Commands

/-!
# What a removal does to the slots

The shift loop of `remove_member` runs up to the slot before the last one, and no
statement of it clears the last slot. So the loop drops exactly the slot that was
found as long as the last slot is free; an occupied last slot stands there once more
afterwards, and `write_file` writes its record as often.
-/

namespace SmartDoor

open CString

/-- A slot that is not occupied has no name. -/
def Rfid.Nameless (r : Rfid) : Prop := ¬ r.Occupied → r.name = []

instance (r : Rfid) : Decidable r.Nameless := inferInstanceAs (Decidable (_ → _))

/-! ## The slots after the shift -/

/-- The strings of a slot are copied, and a free slot is copied as a free slot. -/
theorem Rfid.entry_copied {dst src : Rfid} (hs : src.Terminated) (hempty : src.Nameless) :
    (dst.copied src).entry = src.entry := by
  have hid : (dst.copied src).id = src.id := Rfid.id_copied hs
  have hname : (dst.copied src).name = src.name := by
    by_cases ho : src.Occupied
    · rw [Rfid.name, (Rfid.copied_occupied hs ho).2, Rfid.name]
    · have hlen := hs.name.length_content_lt
      rw [Vector.length_toList] at hlen
      rw [Rfid.copied]
      split
      · rw [hempty ho]
        exact congrArg strip (content_overlay dst.memberName (w := []) (by simp) (by decide))
      · rw [Rfid.name, content_overlay _ (zero_notMem_content _) hlen, Rfid.name]
  rw [Rfid.entry, hid, hname, Rfid.entry]

theorem Rfid.pieces_copied {dst src : Rfid} (hs : src.Terminated) :
    (dst.copied src).pieces = src.pieces := by
  have hid : (dst.copied src).id = src.id := Rfid.id_copied hs
  have hiff : (dst.copied src).Occupied ↔ src.Occupied := by
    rw [Rfid.Occupied, Rfid.Occupied, hid]
  rw [Rfid.pieces, Rfid.pieces]
  by_cases ho : src.Occupied
  · rw [if_pos ho, if_pos (hiff.mpr ho), hid, (Rfid.copied_occupied hs ho).2]
  · rw [if_neg ho, if_neg (mt hiff.mp ho)]

theorem Pupa.pieces_shifted {pupa : Pupa} (hp : pupa.Terminated) {k : Nat} (hk : k < MEMBER) :
    (pupa.shifted k).pieces = (pupa.toList.eraseIdx k).flatMap Rfid.pieces ++ pupa[29].pieces := by
  rw [pieces, List.flatMap_def, map_shifted Rfid.pieces_copied hp hk, ← List.flatMap_def, left,
    List.flatMap_append]
  simp

theorem Pupa.entries_shifted {pupa : Pupa} (hp : pupa.Terminated)
    (hempty : ∀ i (hi : i < MEMBER), pupa[i].Nameless) {k : Nat} (hk : k < MEMBER) :
    (pupa.shifted k).toList.map Rfid.entry =
      (pupa.toList.map Rfid.entry).eraseIdx k ++ [pupa[29].entry] := by
  rw [map_shifted_of (fun _ i hi => Rfid.entry_copied (hp i hi) (hempty i hi)) hk, left,
    List.map_append, List.eraseIdx_map, List.map_singleton]

/-! ## The lookup of a removal -/

/-- A lookup that finds a slot answers its index and has trimmed the slots up to it. -/
theorem Pupa.Terminated.isUser_found {n : Nat} {pupa pupa' : Pupa} (hp : pupa.Terminated)
    {str str' : Vector UInt8 n} {p : Nat} {k : Int}
    (h : isUser pupa str p = .ok (k, pupa', str')) (hk : 0 ≤ k) :
    ∃ i : Fin MEMBER, k = i.val ∧ pupa' = pupa.trimTo (i.val + 1) := by
  rw [isUser_eq hp (terminated_of_isUser h), Pupa.searched] at h
  obtain ⟨hanswer, hpair⟩ := Prod.mk.inj (Except.ok.inj h)
  obtain ⟨htable, -⟩ := Prod.mk.inj hpair
  cases hl : pupa.lookup (strip (content (str.toList.drop p))) with
  | none =>
    rw [hl] at hanswer
    have hneg : (-1 : Int) = k := hanswer
    omega
  | some i =>
    rw [hl] at hanswer htable
    exact ⟨i, hanswer.symm, htable.symm⟩

/-- For every table of strings whose free slots have no name, and every string that a
lookup finds in slot `k`: the loop drops exactly the entry of that slot, leaves the last
slot free, and `write_file` then prints the records of the remaining slots once each, if
and only if the last slot was free. -/
theorem removal_drops_one {n : Nat} {pupa pupa' : Pupa} (hp : pupa.Terminated)
    (hempty : ∀ i : Fin MEMBER, (pupa.get i).Nameless) {str str' : Vector UInt8 n} {p : Nat}
    {k : Int} (h : isUser pupa str p = .ok (k, pupa', str')) (hk : 0 ≤ k) :
    ∃ (shifted written : Pupa) (pieces : List Bytes),
      shiftLoop MEMBER k.toNat pupa' = .ok shifted ∧
      writeFile true shifted =
        .ok (written, .openWrite true :: (pieces.map SdCall.print ++ [.close])) ∧
      (shifted.toList.map Rfid.entry =
          (pupa.toList.map Rfid.entry).eraseIdx k.toNat ++ [([], [])] ∧
        pieces = (pupa'.toList.eraseIdx k.toNat).flatMap Rfid.pieces ↔
          ¬ (pupa.get 29).Occupied) := by
  obtain ⟨i, rfl, rfl⟩ := hp.isUser_found h hk
  have hp' := hp.trimTo (i.val + 1)
  have hentry : ∀ j (hj : j < MEMBER), (pupa.trimTo (i.val + 1))[j].entry = pupa[j].entry :=
    fun j hj => by
      rw [Rfid.entry, Pupa.id_trimTo hp _ hj, Pupa.name_trimTo hp _ hj, Rfid.entry]
  have hempty' : ∀ j (hj : j < MEMBER), (pupa.trimTo (i.val + 1))[j].Nameless := by
    intro j hj hfree
    rw [Rfid.Occupied, Pupa.id_trimTo hp _ hj] at hfree
    rw [Pupa.name_trimTo hp _ hj]
    exact hempty ⟨j, hj⟩ hfree
  have hlist : (pupa.trimTo (i.val + 1)).toList.map Rfid.entry = pupa.toList.map Rfid.entry := by
    apply List.ext_getElem
    · simp
    · intro j h1 h2
      rw [List.getElem_map, List.getElem_map, Vector.getElem_toList, Vector.getElem_toList]
      exact hentry j (by simpa using h1)
  have hshifted : ((pupa.trimTo (i.val + 1)).shifted i.val).Terminated := by
    intro j hj
    by_cases hcopied : i.val ≤ j ∧ j + 1 < MEMBER
    · rw [Pupa.getElem_shifted _ hcopied.1 hcopied.2]
      exact (hp' (j + 1) hcopied.2).copied _
    · rw [Pupa.getElem_shifted_of_not _ hj hcopied]
      exact hp' j hj
  have hlast : (pupa.get 29).Occupied ↔ (pupa.trimTo (i.val + 1))[29].Occupied := by
    rw [Rfid.Occupied, Rfid.Occupied, Pupa.id_trimTo hp _ (by decide)]
    rfl
  refine ⟨_, _, _, ?_, writeFile_eq true hshifted, ?_⟩
  · rw [Int.toNat_natCast]
    exact shiftLoop_eq hp' (by omega)
  · rw [Int.toNat_natCast, Pupa.entries_shifted hp' hempty' i.isLt, hlist,
      Pupa.pieces_shifted hp' i.isLt, hlast]
    constructor
    · rintro ⟨hsame, -⟩ ho
      have hfree := List.singleton_inj.mp (List.append_cancel_left hsame)
      exact ho (congrArg Prod.fst hfree)
    · intro hfree
      have hid : (pupa.trimTo (i.val + 1))[29].id = [] := not_not.mp hfree
      have hname := hempty' 29 (by decide) hfree
      refine ⟨by rw [Rfid.entry, hid, hname], ?_⟩
      rw [Rfid.pieces, if_neg hfree, List.append_nil]

/-- From a table of two members the first one is removed. -/
theorem removal_drops_one_of_two : ∃ (pupa pupa' : Pupa) (str' : Vector UInt8 11) (shifted : Pupa),
    readFile Pupa.zero (fileOf (enrolled 2)) = .ok pupa ∧
    isUser pupa (cString (List.replicate 10 65)) 0 = .ok (0, pupa', str') ∧
    shiftLoop MEMBER 0 pupa' = .ok shifted ∧
    shifted.toList.map Rfid.entry = (pupa.toList.map Rfid.entry).eraseIdx 0 ++ [([], [])] := by
  have hrun : (readFile Pupa.zero (fileOf (enrolled 2)) >>= fun pupa =>
      isUser pupa (cString (List.replicate 10 65)) 0 >>= fun r =>
      .ok (r.1, decide (∀ i : Fin MEMBER, (pupa.get i).Nameless),
        decide (pupa.get 29).Occupied)) = .ok (0, true, false) := by
    decide +kernel
  obtain ⟨pupa, hread, h⟩ := bind_eq_ok.mp hrun
  obtain ⟨⟨k, pupa', str'⟩, huser, h⟩ := bind_eq_ok.mp h
  simp only [Except.ok.injEq, Prod.mk.injEq, decide_eq_true_eq, decide_eq_false_iff_not] at h
  obtain ⟨rfl, hempty, hfree⟩ := h
  have hp := (Pupa.sound_zero.of_readFile (by decide) hread).2.2.terminated
  obtain ⟨shifted, _, _, hshift, -, hiff⟩ := removal_drops_one hp hempty huser le_rfl
  exact ⟨pupa, pupa', str', shifted, hread, huser, hshift, (hiff.mpr hfree).1⟩

/-- In a table of thirty members the removal of the first one leaves the last one in both
last slots, and thirty records are printed. -/
theorem removal_drops_one_of_full :
    (readFile Pupa.zero (fileOf (enrolled 30)) >>= fun pupa =>
      isUser pupa (cString (List.replicate 10 65)) 0 >>= fun r =>
      shiftLoop MEMBER r.1.toNat r.2.1 >>= fun shifted =>
      writeFile true shifted >>= fun w =>
      .ok (r.1, decide (shifted.toList.map Rfid.entry =
        (pupa.toList.map Rfid.entry).eraseIdx r.1.toNat ++ [([], [])]),
        decide ((shifted.get 28).entry = (shifted.get 29).entry), w.2.length)) =
      .ok (0, false, true, 92) := by
  decide +kernel

end SmartDoor
