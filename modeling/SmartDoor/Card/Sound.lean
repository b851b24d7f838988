import SmartDoor.Card.Scan

/-!
# Sound tables

A field of a sound table is terminated, holds only letters, digits, CR and NUL,
and after a CR has a CR or a NUL. So its string is a word followed by CRs, and
the word is what the lookup compares. Trimming, placing lines and copying
strings keep a table sound, whatever stale bytes stand behind the terminators.
-/

namespace SmartDoor

open CString

variable {n : Nat}

/-! ## Tidy fields -/

/-- Letters, digits, CR and NUL only, and no letter right after a CR. -/
structure Tidy (v : Vector UInt8 n) : Prop where
  byte : ∀ i (h : i < n), v[i] = 0 ∨ v[i] = 13 ∨ isWord v[i] = true
  next : ∀ i (h : i + 1 < n), v[i] = 13 → v[i + 1] = 13 ∨ v[i + 1] = 0

theorem tidy_replicate : Tidy (Vector.replicate n (0 : UInt8)) where
  byte i h := by simp
  next i h := by simp

theorem getElem_endAt (v : Vector UInt8 n) (k : Nat) {i : Nat} (h : i < n) :
    (endAt v k)[i] = if i = k + 1 then 0 else if i = k then 13 else v[i] := by
  simp only [endAt, Vector.getElem_setIfInBounds, eq_comm]

/-- A word over the beginning of a tidy field. -/
theorem Tidy.overlay {v : Vector UInt8 n} (hv : Tidy v) {w : Bytes} (hw : ∀ c ∈ w, isWord c) :
    Tidy (CString.overlay v w) where
  byte i h := by
    rw [getElem_overlay]
    by_cases hi : i < w.length
    · rw [List.getElem?_eq_getElem hi]
      exact Or.inr (Or.inr (hw _ (List.getElem_mem hi)))
    · rw [List.getElem?_eq_none (by omega)]
      exact hv.byte i h
  next i h h13 := by
    rw [getElem_overlay] at h13 ⊢
    by_cases hi : i < w.length
    · rw [List.getElem?_eq_getElem hi, Option.getD_some] at h13
      exact absurd h13 (isWord_ne (hw _ (List.getElem_mem hi))).2.1
    · rw [List.getElem?_eq_none (by omega)] at h13 ⊢
      exact hv.next i h h13

theorem Tidy.endAt {v : Vector UInt8 n} (hv : Tidy v) (k : Nat) : Tidy (endAt v k) where
  byte i h := by
    rw [getElem_endAt]
    split
    · exact Or.inl rfl
    · split
      · exact Or.inr (Or.inl rfl)
      · exact hv.byte i h
  next i h h13 := by
    rw [getElem_endAt] at h13 ⊢
    by_cases hk : i + 1 = k + 1
    · exact Or.inr (if_pos hk)
    · by_cases hk' : i + 1 = k
      · exact Or.inl (by rw [if_neg hk, if_pos hk'])
      · rw [if_neg hk, if_neg hk']
        by_cases hik : i = k + 1
        · rw [if_pos hik] at h13
          cases h13
        · rw [if_neg hik, if_neg (by omega)] at h13
          exact hv.next i h h13

theorem Tidy.set_zero {v : Vector UInt8 n} (hv : Tidy v) (k : Nat) :
    Tidy (v.setIfInBounds k 0) where
  byte i h := by
    rw [Vector.getElem_setIfInBounds h]
    split
    · exact Or.inl rfl
    · exact hv.byte i h
  next i h h13 := by
    rw [Vector.getElem_setIfInBounds] at h13 ⊢
    split
    · exact Or.inr rfl
    · by_cases hk : k = i
      · rw [if_pos hk] at h13
        cases h13
      · rw [if_neg hk] at h13
        exact hv.next i h h13

theorem Tidy.trimAt {v : Vector UInt8 n} (hv : Tidy v) (p : Nat) : Tidy (trimAt v p) := by
  rw [SmartDoor.trimAt]
  split
  · exact hv
  · exact hv.set_zero _

/-- A string copied from a tidy field over another one. -/
theorem Tidy.copy {dst src : Vector UInt8 n} (hd : Tidy dst) (hs : Tidy src)
    (ht : Terminated src.toList) :
    Tidy (CString.overlay dst (content src.toList ++ [0])) := by
  have hlen := ht.length_content_lt
  rw [Vector.length_toList] at hlen
  have hread : ∀ i (h : i < n), (CString.overlay dst (content src.toList ++ [0]))[i] =
      if i ≤ (content src.toList).length then src[i] else dst[i] := by
    intro i h
    obtain ⟨rest, hr⟩ := ht.split
    rw [getElem_overlay]
    split
    · rename_i hi
      have hsrc : src.toList[i]? = some src[i] := by simp
      rw [hr, ← List.singleton_append (l := rest), ← List.append_assoc,
        List.getElem?_append_left (by simp; omega)] at hsrc
      rw [hsrc, Option.getD_some]
    · rw [List.getElem?_eq_none (by simp; omega), Option.getD_none]
  have hzero : ∀ h : (content src.toList).length < n, src[(content src.toList).length] = 0 := by
    intro h
    obtain ⟨rest, hr⟩ := ht.split
    have hsrc : src.toList[(content src.toList).length]? = some 0 := by
      rw [hr, content_append_zero (zero_notMem_content _)]
      simp
    rw [Vector.getElem?_toList, Vector.getElem?_eq_getElem h] at hsrc
    exact Option.some.inj hsrc
  constructor
  · intro i h
    rw [hread i h]
    split
    · exact hs.byte i h
    · exact hd.byte i h
  · intro i h h13
    rw [hread i (by omega)] at h13
    rw [hread (i + 1) h]
    by_cases hi : i + 1 ≤ (content src.toList).length
    · rw [if_pos (by omega)] at h13
      rw [if_pos hi]
      exact hs.next i h h13
    · by_cases heq : i = (content src.toList).length
      · subst heq
        rw [if_pos le_rfl, hzero] at h13
        cases h13
      · rw [if_neg (by omega)] at h13
        rw [if_neg hi]
        exact hd.next i h h13

/-- Letters followed by CRs. -/
private theorem split_cr {l : Bytes} (hb : ∀ c ∈ l, c = 13 ∨ isWord c = true)
    (hn : ∀ i (h : i + 1 < l.length), l[i] = 13 → l[i + 1] = 13) :
    ∃ w m, l = w ++ List.replicate m 13 ∧ ∀ c ∈ w, isWord c := by
  induction l using List.reverseRecOn with
  | nil => exact ⟨[], 0, rfl, fun c hc => absurd hc List.not_mem_nil⟩
  | append_singleton l c ih =>
    obtain ⟨w, m, hl, hw⟩ := ih (fun d hd => hb d (by simp [hd])) fun i h h13 => by
      have hlen : (l ++ [c]).length = l.length + 1 := by simp
      have := hn i (by omega)
      rw [List.getElem_append_left (by omega), List.getElem_append_left h] at this
      exact this h13
    rcases hb c (by simp) with rfl | hc
    · exact ⟨w, m + 1, by rw [hl, List.append_assoc, List.replicate_succ'], hw⟩
    · cases m with
      | zero =>
        refine ⟨w ++ [c], 0, by simp [hl], fun d hd => ?_⟩
        rcases List.mem_append.mp hd with hd | hd
        · exact hw d hd
        · rwa [List.mem_singleton.mp hd]
      | succ m =>
        -- a letter cannot follow the last CR
        have hlen : l.length = w.length + (m + 1) := by simp [hl]
        have hlast := hn (w.length + m) (by simp [hlen])
        rw [List.getElem_append_left (by omega)] at hlast
        simp only [hl] at hlast
        rw [List.getElem_append_right (by omega), List.getElem_replicate] at hlast
        have hnext := hlast rfl
        rw [List.getElem_append_right (by simp; omega)] at hnext
        simp only [List.getElem_singleton] at hnext
        exact absurd hnext (isWord_ne hc).2.1

/-- The string of a tidy field: its word, and the CRs behind it. -/
theorem Tidy.split {v : Vector UInt8 n} (hv : Tidy v) :
    ∃ w m, content v.toList = w ++ List.replicate m 13 ∧ ∀ c ∈ w, isWord c := by
  have hpre : content v.toList <+: v.toList := List.takeWhile_prefix _
  have hlen : (content v.toList).length ≤ n := by simpa using hpre.length_le
  have hget : ∀ i (h : i < (content v.toList).length), (content v.toList)[i] = v[i] := by
    intro i h
    rw [hpre.getElem h, Vector.getElem_toList]
  have hne : ∀ c ∈ content v.toList, c ≠ 0 := fun c hc h0 =>
    zero_notMem_content _ (h0 ▸ hc)
  apply split_cr
  · intro c hc
    obtain ⟨i, hi, rfl⟩ := List.getElem_of_mem hc
    have h0 := hne _ hc
    rw [hget i hi] at h0 ⊢
    exact (hv.byte i (by omega)).resolve_left h0
  · intro i h h13
    rw [hget] at h13 ⊢
    have h0 := hne _ (List.getElem_mem h)
    rw [hget] at h0
    exact (hv.next i (by omega) h13).resolve_right h0

/-- The CRs behind the word of a field. -/
def crs (v : Vector UInt8 n) : Nat := (content v.toList).count 13

theorem Tidy.eq_word {v : Vector UInt8 n} (hv : Tidy v) :
    content v.toList =
      strip (content v.toList) ++ List.replicate (crs v) 13 ∧
      ∀ c ∈ strip (content v.toList), isWord c := by
  obtain ⟨w, m, hc, hw⟩ := hv.split
  have hstrip : strip (content v.toList) = w := by
    rw [hc, strip, trim_append_pad isspace (by simp +contextual [isspace]), ← strip,
      strip_words hw]
  have hcount : crs v = m := by
    have h13 : (13 : UInt8) ∉ w := fun h => (isWord_ne (hw 13 h)).2.1 rfl
    rw [crs, hc, List.count_append, List.count_eq_zero_of_not_mem h13, List.count_replicate_self,
      Nat.zero_add]
  rw [hstrip, hcount]
  exact ⟨hc, hw⟩

/-! ## Ending a field -/

theorem terminated_endAt (v : Vector UInt8 n) {k : Nat} (h : k + 1 < n) :
    Terminated (endAt v k).toList := by
  have hz : (endAt v k)[k + 1] = 0 := by rw [getElem_endAt, if_pos rfl]
  have hmem : (endAt v k)[k + 1] ∈ (endAt v k).toList := Vector.mem_toList_iff.mpr
    (Vector.getElem_mem h)
  rwa [hz] at hmem

/-- A CR and a NUL right behind a word that was just written. -/
theorem endAt_overlay (v : Vector UInt8 n) (w : Bytes) :
    endAt (overlay v w) w.length = overlay v (w ++ [13, 0]) := by
  ext1 i hi
  rw [getElem_endAt, getElem_overlay, getElem_overlay]
  by_cases hlt : i < w.length
  · rw [if_neg (by omega), if_neg (by omega), List.getElem?_append_left hlt]
  · rw [List.getElem?_append_right (by omega), List.getElem?_eq_none (by omega : w.length ≤ i)]
    by_cases h0 : i = w.length
    · simp [h0]
    · by_cases h1 : i = w.length + 1
      · simp [h1]
      · rw [if_neg h1, if_neg h0, List.getElem?_eq_none (by simp; omega)]

theorem content_overlay_cr (v : Vector UInt8 n) {w : Bytes} (hw : ∀ c ∈ w, isWord c)
    (h : w.length + 1 < n) : content (overlay v (w ++ [13, 0])).toList = w ++ [13] := by
  have h0 : (0 : UInt8) ∉ w ++ [13] := by
    simpa using zero_notMem_words hw
  have hc := content_overlay v h0 (by simpa using h)
  rwa [List.append_assoc] at hc

theorem strip_cr {w : Bytes} (hw : ∀ c ∈ w, isWord c) : strip (w ++ [13]) = w := by
  rw [strip, trim_append_pad isspace (by simp [isspace]), ← strip, strip_words hw]

theorem content_endAt {v : Vector UInt8 n} (ht : Terminated v.toList) {k : Nat} (h : k + 1 < n) :
    content (endAt v k).toList = if k ≤ (content v.toList).length then
      (content v.toList).take k ++ [13] else content v.toList := by
  obtain ⟨rest, hr⟩ := ht.split
  have hzero := zero_notMem_content v.toList
  have hlen : (content v.toList).length < n := by simpa using ht.length_content_lt
  have hn : v.toList.length = n := Vector.length_toList
  generalize content v.toList = c at hr hzero hlen ⊢
  rw [endAt, Vector.toList_setIfInBounds, Vector.toList_setIfInBounds]
  generalize v.toList = m at hr hn ⊢
  split
  · rename_i hk
    have hfirst : m.set k 13 = (c.take k ++ [13]) ++ m.drop (k + 1) := by
      rw [List.set_eq_take_append_cons_drop, if_pos (by omega), List.append_assoc]
      rw [hr, List.take_append_of_le_length hk]
      rfl
    have hpos : (c.take k ++ [13]).length = k + 1 := by simp; omega
    obtain ⟨x, rest', hdrop⟩ : ∃ x rest', m.drop (k + 1) = x :: rest' :=
      List.exists_cons_of_length_pos (by simp; omega)
    rw [hfirst, List.set_append_right _ _ hpos.le, hpos, Nat.sub_self, hdrop, List.set_cons_zero]
    refine content_append_zero fun h0 => ?_
    rcases List.mem_append.mp h0 with h0 | h0
    · exact hzero (List.mem_of_mem_take h0)
    · simp at h0
  · rename_i hk
    obtain ⟨j, rfl⟩ : ∃ j, k = c.length + (j + 1) := ⟨k - c.length - 1, by omega⟩
    rw [hr, List.set_append_right _ _ (by omega), List.set_append_right _ _ (by omega),
      Nat.add_sub_cancel_left, List.set_cons_succ,
      show c.length + (j + 1) + 1 - c.length = j + 1 + 1 by omega, List.set_cons_succ]
    exact content_append_zero hzero

/-- Ending a tidy field at `k` cuts its word there. -/
theorem strip_endAt {v : Vector UInt8 n} (hv : Tidy v) (ht : Terminated v.toList) {k : Nat}
    (h : k + 1 < n) :
    strip (content (endAt v k).toList) = (strip (content v.toList)).take k := by
  obtain ⟨heq, hw⟩ := hv.eq_word
  generalize strip (content v.toList) = w at heq hw
  have hpad : ∀ m, ∀ c ∈ List.replicate m (13 : UInt8), isspace c := by
    intro m c hc
    rw [(List.mem_replicate.mp hc).2]
    rfl
  have hword : ∀ m, strip (w.take k ++ List.replicate m 13) = w.take k := fun m => by
    rw [strip, trim_append_pad isspace (hpad m), ← strip,
      strip_words fun c hc => hw c (List.mem_of_mem_take hc)]
  rw [content_endAt ht h]
  split
  · rw [heq, List.take_append, List.append_assoc, List.take_replicate, ← List.replicate_succ']
    exact hword _
  · rename_i hk
    have hlen : w.length ≤ k := by
      have := congrArg List.length heq
      rw [List.length_append] at this
      omega
    rw [heq, List.take_of_length_le hlen]
    have := hword (crs v)
    rwa [List.take_of_length_le hlen] at this

end SmartDoor
