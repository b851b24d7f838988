import SmartDoor.Card.Readable

/-!
# Removals that leave the table as it is

A removal copies each slot from its own on over the slot before, and trims. The table is
afterwards what it was when the slots that are copied hold the same strings, and what is
trimmed was trimmed before: a table of which the member fills the rest, the last slot
alone included.
-/

namespace SmartDoor

open CString

/-- A removal of slot `k` finds nothing to trim, and the same strings in all slots from
there on. -/
def Pupa.Still (pupa : Pupa) (k : Fin MEMBER) : Prop :=
  (∀ i : Fin MEMBER, trimAt (pupa.get i).memberId 0 = (pupa.get i).memberId) ∧
  (∀ i : Fin MEMBER, i < k ∨ i = k ∧ k.val = 29 →
    trimAt (pupa.get i).memberName 0 = (pupa.get i).memberName) ∧
  ∀ i : Fin MEMBER, k ≤ i →
    content (pupa.get i).memberId.toList = content (pupa.get k).memberId.toList ∧
    content (pupa.get i).memberName.toList = content (pupa.get k).memberName.toList

instance (pupa : Pupa) (k : Fin MEMBER) : Decidable (pupa.Still k) :=
  inferInstanceAs (Decidable ((∀ _, _) ∧ (∀ _, _ → _) ∧ ∀ _, _ → _ ∧ _))

section Strings

variable {n : Nat} {v w : Vector UInt8 n}

/-- An array that differs from another one in the string only, and gets this string. -/
theorem overlay_content_of_agree (h : Terminated w.toList)
    (hagree : ∀ i (hi : i < n), (content w.toList).length < i → v[i] = w[i]) :
    overlay v (content w.toList ++ [0]) = w := by
  obtain ⟨rest, hrest⟩ := h.split
  ext1 i hi
  rw [getElem_overlay]
  have hget : w.toList[i]? = some w[i] := by simp [hi]
  by_cases hle : i < (content w.toList ++ [0]).length
  · rw [hrest, ← List.singleton_append, ← List.append_assoc] at hget
    rw [List.getElem?_append_left hle] at hget
    rw [hget, Option.getD_some]
  · rw [List.getElem?_eq_none (by omega), Option.getD_none]
    rw [List.length_append, List.length_singleton] at hle
    exact hagree i hi (by omega)

/-- A string that is copied over itself. -/
theorem overlay_content (h : Terminated w.toList) : overlay w (content w.toList ++ [0]) = w :=
  overlay_content_of_agree h fun _ _ _ => rfl

/-- A string that is copied over what a trim has left of it. -/
theorem overlay_trimAt_content (h : Terminated w.toList) :
    overlay (trimAt w 0) (content w.toList ++ [0]) = w := by
  apply overlay_content_of_agree h
  intro i hi hlt
  have hpre := (List.rdropWhile_prefix isspace (content w.toList)).length_le
  rw [trimAt]
  split
  · rfl
  · rw [Vector.getElem_setIfInBounds, if_neg]
    rw [List.drop_zero]
    omega

/-- A trim leaves of arrays with the same string the same string. -/
theorem content_trimAt_congr (hv : Terminated v.toList) (hw : Terminated w.toList)
    (h : content v.toList = content w.toList) :
    content (trimAt v 0).toList = content (trimAt w 0).toList := by
  have hcv := @content_trimAt _ v 0 hv
  have hcw := @content_trimAt _ w 0 hw
  simp only [List.drop_zero] at hcv hcw
  rw [hcv, hcw, h]

end Strings

/-- A copy of a slot with an id has its strings. -/
theorem Rfid.content_copied (dst : Rfid) {src : Rfid} (hs : src.Terminated)
    (hid : content src.memberId.toList ≠ []) :
    content (dst.copied src).memberId.toList = content src.memberId.toList ∧
    content (dst.copied src).memberName.toList = content src.memberName.toList := by
  have hlenId := hs.id.length_content_lt
  have hlenName := hs.name.length_content_lt
  rw [Vector.length_toList] at hlenId hlenName
  rw [copied, if_neg hid]
  exact ⟨content_overlay _ (zero_notMem_content _) hlenId,
    content_overlay _ (zero_notMem_content _) hlenName⟩

/-- A copy of a slot with the same strings. -/
theorem Rfid.copied_of_content {dst src : Rfid} (hd : dst.Terminated)
    (hid : content src.memberId.toList = content dst.memberId.toList)
    (hname : content src.memberName.toList = content dst.memberName.toList)
    (hne : content dst.memberId.toList ≠ []) :
    dst.copied src = dst ∧ dst.trimmed.copied src = dst := by
  rw [copied, copied, hid, hname, if_neg hne, if_neg hne, overlay_content hd.id,
    overlay_content hd.name, trimmed, overlay_trimAt_content hd.id, overlay_trimAt_content hd.name]
  exact ⟨rfl, rfl⟩

namespace Pupa

/-- The slots of the table after a removal. -/
theorem getElem_without (pupa : Pupa) (k : Nat) {i : Nat} (hi : i < MEMBER) :
    (pupa.without k)[i] = ⟨trimAt ((pupa.trimTo (k + 1)).shifted k)[i].memberId 0,
      ((pupa.trimTo (k + 1)).shifted k)[i].memberName⟩ := by
  rw [without, written, Vector.getElem_map]

/-- A removal that finds everything in place. -/
theorem Still.without {pupa : Pupa} (hp : pupa.Sound) {k : Fin MEMBER}
    (ho : (pupa.get k).Occupied) (h : pupa.Still k) : pupa.without k.val = pupa := by
  obtain ⟨hids, hnames, hsame⟩ := h
  have hne : content (pupa.get k).memberId.toList ≠ [] := fun hnil => ho (by
    rw [Rfid.id, hnil]
    rfl)
  have hshifted : (pupa.trimTo (k.val + 1)).shifted k.val = pupa := by
    ext1 i hi
    by_cases hcopied : k.val ≤ i ∧ i + 1 < MEMBER
    · have hnext : (pupa.trimTo (k.val + 1))[i + 1] = pupa[i + 1] := by
        rw [getElem_trimTo, if_neg (by omega)]
      rw [getElem_shifted _ hcopied.1 hcopied.2, hnext, getElem_trimTo]
      obtain ⟨hid, hname⟩ := hsame ⟨i, hi⟩ hcopied.1
      obtain ⟨hid', hname'⟩ := hsame ⟨i + 1, hcopied.2⟩ (by
        change k.val ≤ i + 1
        omega)
      have hcopy := Rfid.copied_of_content (hp i hi).toTerminated (hid'.trans hid.symm)
        (hname'.trans hname.symm) (fun hnil => hne (hid.symm.trans hnil))
      split
      · exact hcopy.2
      · exact hcopy.1
    · rw [getElem_shifted_of_not _ hi hcopied, getElem_trimTo]
      split
      · have hplace : (⟨i, hi⟩ : Fin MEMBER) < k ∨ (⟨i, hi⟩ : Fin MEMBER) = k ∧ k.val = 29 := by
          have hmember : MEMBER = 30 := rfl
          rw [Fin.lt_def, Fin.ext_iff]
          change i < k.val ∨ i = k.val ∧ k.val = 29
          omega
        have hid := hids ⟨i, hi⟩
        have hname := hnames ⟨i, hi⟩ hplace
        change trimAt pupa[i].memberId 0 = pupa[i].memberId at hid
        change trimAt pupa[i].memberName 0 = pupa[i].memberName at hname
        rw [Rfid.trimmed, hid, hname]
      · rfl
  ext1 i hi
  have hid := hids ⟨i, hi⟩
  change trimAt pupa[i].memberId 0 = pupa[i].memberId at hid
  rw [getElem_without, hshifted, hid]

/-- What a removal that changes nothing has found. -/
theorem still_of_without {pupa : Pupa} (hp : pupa.Sound) {k : Fin MEMBER}
    (ho : (pupa.get k).Occupied) (h : pupa.without k.val = pupa) : pupa.Still k := by
  have hterm := ((hp.trimTo (k.val + 1)).shifted k.val).terminated
  have hslot : ∀ i (hi : i < MEMBER),
      pupa[i].memberId = trimAt ((pupa.trimTo (k.val + 1)).shifted k.val)[i].memberId 0 ∧
      pupa[i].memberName = ((pupa.trimTo (k.val + 1)).shifted k.val)[i].memberName := by
    intro i hi
    have hget : (pupa.without k.val)[i] = pupa[i] := by simp only [h]
    rw [getElem_without] at hget
    rw [← hget]
    exact ⟨rfl, rfl⟩
  have hids : ∀ i (hi : i < MEMBER), trimAt pupa[i].memberId 0 = pupa[i].memberId := by
    intro i hi
    rw [(hslot i hi).1, trimAt_trimAt (p := 0) (hterm i hi).id]
  refine ⟨fun i => hids i.val i.isLt, fun i hplace => ?_, ?_⟩
  · change trimAt pupa[i.val].memberName 0 = pupa[i.val].memberName
    have hname := (hslot i.val i.isLt).2
    have hmember : MEMBER = 30 := rfl
    have hstays : ¬ (k.val ≤ i.val ∧ i.val + 1 < MEMBER) := by
      rw [Fin.lt_def, Fin.ext_iff] at hplace
      omega
    have hlt : i.val < k.val + 1 := by
      rw [Fin.lt_def, Fin.ext_iff] at hplace
      omega
    rw [getElem_shifted_of_not _ i.isLt hstays, getElem_trimTo, if_pos hlt] at hname
    rw [hname, Rfid.trimmed, trimAt_trimAt (p := 0) (hp i.val i.isLt).name]
  · have hne : content (pupa.get k).memberId.toList ≠ [] := fun hnil => ho (by
      rw [Rfid.id, hnil]
      rfl)
    -- a slot has the strings of the next one, from which it was copied
    have hnext : ∀ i (hi : i + 1 < MEMBER), k.val ≤ i → content pupa[i].memberId.toList ≠ [] →
        content pupa[i + 1].memberId.toList = content pupa[i].memberId.toList ∧
        content pupa[i + 1].memberName.toList = content pupa[i].memberName.toList := by
      intro i hi hle hfilled
      have htrim : (pupa.trimTo (k.val + 1))[i + 1] = pupa[i + 1] := by
        rw [getElem_trimTo, if_neg (by omega)]
      obtain ⟨hid, hname⟩ := hslot i (by omega)
      have hcopyTerm := hterm i (by omega)
      rw [getElem_shifted _ hle hi, htrim] at hid hname hcopyTerm
      have hsrc := hp (i + 1) hi
      have hfilled' : content pupa[i + 1].memberId.toList ≠ [] := by
        intro hnil
        have hcut := content_trimAt (p := 0) hcopyTerm.id
        simp only [List.drop_zero] at hcut
        have hempty : content ((pupa.trimTo (k.val + 1))[i].copied pupa[i + 1]).memberId.toList =
            [] := by
          rw [Rfid.copied, if_pos hnil]
          exact content_overlay (w := []) _ List.not_mem_nil (by decide)
        rw [hid, hcut, hempty] at hfilled
        exact hfilled rfl
      obtain ⟨hsame, hsameName⟩ := Rfid.content_copied (pupa.trimTo (k.val + 1))[i]
        hsrc.toTerminated hfilled'
      refine ⟨?_, by rw [hname, hsameName]⟩
      calc content pupa[i + 1].memberId.toList
          = content (trimAt pupa[i + 1].memberId 0).toList := by rw [hids (i + 1) hi]
        _ = content pupa[i].memberId.toList := by
          rw [hid]
          exact content_trimAt_congr hsrc.id hcopyTerm.id hsame.symm
    have hchain : ∀ i, k.val ≤ i → ∀ hi : i < MEMBER,
        content pupa[i].memberId.toList = content (pupa.get k).memberId.toList ∧
        content pupa[i].memberName.toList = content (pupa.get k).memberName.toList := by
      intro i hle
      induction i, hle using Nat.le_induction with
      | base => exact fun hi => ⟨rfl, rfl⟩
      | succ i hle ih =>
        intro hi
        obtain ⟨hid, hname⟩ := ih (by omega)
        obtain ⟨hid', hname'⟩ := hnext i hi hle (hid ▸ hne)
        exact ⟨hid'.trans hid, hname'.trans hname⟩
    exact fun i hle => hchain i.val hle i.isLt

/-- Which removals change nothing in the table. -/
theorem without_eq_self_iff {pupa : Pupa} (hp : pupa.Sound) {k : Fin MEMBER}
    (ho : (pupa.get k).Occupied) : pupa.without k.val = pupa ↔ pupa.Still k :=
  ⟨still_of_without hp ho, Still.without hp ho⟩

end Pupa

end SmartDoor
