import SmartDoor.Card.Store

/-!
# The text of the member file

A text is a list of lines, each ended by a CR, and what follows the last CR. A
line is a list of words with one blank between two of them. `parse` reads this
structure off the bytes of a file and drops the bytes that `read_file` ignores,
the LF of `println` among them. `Text.Fits` says how long a text and its words
may be for the arrays of the table.
-/

namespace SmartDoor

open CString

/-- The bytes that `read_file` does not skip. -/
def isKept (c : UInt8) : Bool := c = 13 ∨ c = 32 ∨ isWord c

/-- A line: its first word, and the words that follow, each after a blank. -/
structure Line where
  first : Bytes
  more : List Bytes
  deriving DecidableEq, Repr

/-- The lines that a CR ends, and the rest. -/
structure Text where
  lines : List Line
  tail : Line
  deriving DecidableEq, Repr

/-- The line without a letter. -/
def Line.empty : Line := ⟨[], []⟩

/-- The line of a member. -/
def Line.record (id name : Bytes) : Line := ⟨id, [name]⟩

namespace Line

/-- The bytes of a line. -/
def bytes (l : Line) : Bytes := l.first ++ l.more.flatMap (32 :: ·)

/-- All words of the line consist of letters and digits. -/
def Words (l : Line) : Prop := ∀ w ∈ l.first :: l.more, ∀ c ∈ w, isWord c

instance (l : Line) : Decidable l.Words :=
  have (w : Bytes) : Decidable (∀ c ∈ w, isWord c) := List.decidableBAll (isWord · = true) w
  List.decidableBAll (fun w => ∀ c ∈ w, isWord c) (l.first :: l.more)

/-- The id that a line with a blank leaves in its slot: the first word, cut to
the length of every later word but the last. -/
def id (l : Line) : Bytes := l.more.dropLast.foldl (fun i w => i.take w.length) l.first

/-- The name that a line with a blank leaves in its slot: its last word. -/
def name (l : Line) : Bytes := l.more.getLast?.getD []

/-- The last word. -/
def last (l : Line) : Bytes := l.more.getLast?.getD l.first

/-- A word of at most `limit` letters at the end of a line; a word before a
blank has at most ten. -/
def FitsFrom (limit : Nat) : Bytes → List Bytes → Prop
  | w, [] => w.length ≤ limit
  | w, v :: more => w.length ≤ 10 ∧ FitsFrom 15 v more

instance decidableFitsFrom (limit : Nat) (w : Bytes) (more : List Bytes) :
    Decidable (FitsFrom limit w more) :=
  match more with
  | [] => inferInstanceAs (Decidable (w.length ≤ limit))
  | v :: more =>
    have := decidableFitsFrom 15 v more
    inferInstanceAs (Decidable (w.length ≤ 10 ∧ FitsFrom 15 v more))

/-- The words fit the two arrays: twelve letters of an id that is not closed by
a blank, and fifteen of a name. -/
def FitsOpen (l : Line) : Prop := FitsFrom 12 l.first l.more

/-- There is room for the CR and the NUL after the last word as well. -/
def Fits (l : Line) : Prop := l.FitsOpen ∧ l.last.length ≤ 13

instance (l : Line) : Decidable l.FitsOpen := decidableFitsFrom ..

instance (l : Line) : Decidable l.Fits := inferInstanceAs (Decidable (_ ∧ _))

theorem bytes_nil (w : Bytes) : (Line.mk w []).bytes = w := List.append_nil w

theorem bytes_cons (w v : Bytes) (more : List Bytes) :
    (Line.mk w (v :: more)).bytes = w ++ 32 :: (Line.mk v more).bytes := by
  simp [bytes]

@[simp] theorem last_nil (w : Bytes) : (Line.mk w []).last = w := rfl

theorem last_cons (w v : Bytes) (more : List Bytes) :
    (Line.mk w (v :: more)).last = (Line.mk v more).last := by
  cases more with
  | nil => rfl
  | cons u more => simp [last, List.getLast?_eq_some_getLast]

theorem Words.cons {w v : Bytes} {more : List Bytes} (h : (Line.mk w (v :: more)).Words) :
    (Line.mk v more).Words := fun u hu => h u (List.mem_cons_of_mem _ hu)

theorem Words.first {l : Line} (h : l.Words) : ∀ c ∈ l.first, isWord c :=
  h _ (List.mem_cons_self ..)

@[simp] theorem fits_empty : empty.Fits := by decide

@[simp] theorem record_first (id name : Bytes) : (record id name).first = id := rfl

@[simp] theorem record_more (id name : Bytes) : (record id name).more = [name] := rfl

@[simp] theorem record_id (id name : Bytes) : (record id name).id = id := rfl

@[simp] theorem record_name (id name : Bytes) : (record id name).name = name := rfl

theorem fits_record {id name : Bytes} :
    (record id name).Fits ↔ id.length ≤ 10 ∧ name.length ≤ 13 := by
  simp only [Fits, FitsOpen, FitsFrom, record, last, List.getLast?_singleton, Option.getD_some]
  omega

theorem words_record {id name : Bytes} :
    (record id name).Words ↔ (∀ c ∈ id, isWord c) ∧ ∀ c ∈ name, isWord c := by
  simp [Words, record]

end Line

namespace Text

/-- The text without a byte. -/
def empty : Text := ⟨[], .empty⟩

/-- Nothing follows the last CR. -/
def Closed (t : Text) : Prop := t.tail = .empty

instance (t : Text) : Decidable t.Closed := inferInstanceAs (Decidable (_ = _))

/-- At most thirty lines, each with words that fit, and a rest that fits. -/
structure Fits (t : Text) : Prop where
  count : t.lines.length ≤ MEMBER
  lines : ∀ l ∈ t.lines, l.Fits
  room : t.tail = .empty ∨ t.lines.length < MEMBER
  tail : t.tail.FitsOpen

instance (t : Text) : Decidable t.Fits :=
  decidable_of_iff (t.lines.length ≤ MEMBER ∧ (∀ l ∈ t.lines, l.Fits) ∧
      (t.tail = .empty ∨ t.lines.length < MEMBER) ∧ t.tail.FitsOpen)
    ⟨fun h => ⟨h.1, h.2.1, h.2.2.1, h.2.2.2⟩, fun h => ⟨h.count, h.lines, h.room, h.tail⟩⟩

/-- Change the line that the next bytes to the left belong to. -/
def mapHead (f : Line → Line) (t : Text) : Text :=
  match t.lines with
  | [] => ⟨[], f t.tail⟩
  | l :: ls => ⟨f l :: ls, t.tail⟩

/-- One more byte at the left end. -/
def cons (c : UInt8) (t : Text) : Text :=
  if c = 13 then ⟨.empty :: t.lines, t.tail⟩
  else if c = 32 then t.mapHead fun l => ⟨[], l.first :: l.more⟩
  else if isWord c then t.mapHead fun l => ⟨c :: l.first, l.more⟩
  else t

theorem closed_mk (ls : List Line) : (Text.mk ls .empty).Closed := rfl

theorem Closed.fits {t : Text} (h : t.Closed) :
    t.Fits ↔ t.lines.length ≤ MEMBER ∧ ∀ l ∈ t.lines, l.Fits := by
  refine ⟨fun hf => ⟨hf.count, hf.lines⟩, fun hf => ⟨hf.1, hf.2, Or.inl h, ?_⟩⟩
  rw [h]
  decide

/-- The bytes of a text. -/
def bytes (t : Text) : Bytes := t.lines.flatMap (fun l => l.bytes ++ [13]) ++ t.tail.bytes

/-- A text followed by another one. -/
def append (t u : Text) : Text := ⟨t.lines ++ u.lines, u.tail⟩

theorem mapHead_lines {t : Text} {l : Line} {ls : List Line} (h : t.lines = l :: ls)
    (f : Line → Line) : t.mapHead f = ⟨f l :: ls, t.tail⟩ := by
  simp [mapHead, h]

theorem mapHead_mapHead (t : Text) (f g : Line → Line) :
    (t.mapHead f).mapHead g = t.mapHead (g ∘ f) := by
  rcases t with ⟨_ | ⟨l, ls⟩, tail⟩ <;> rfl

theorem mapHead_id (t : Text) : t.mapHead id = t := by
  rcases t with ⟨_ | ⟨l, ls⟩, tail⟩ <;> rfl

/-- A text that is closed after one more byte on the left was closed before, and
that byte does not touch what follows the text. -/
theorem cons_append {c : UInt8} {t : Text} (h : (t.cons c).Closed) (u : Text) :
    t.Closed ∧ (t.append u).cons c = (t.cons c).append u := by
  obtain ⟨lines, tail⟩ := t
  unfold cons at h ⊢
  by_cases h13 : c = 13
  · simpa [h13, append, Closed] using h
  · by_cases h32 : c = 32
    · cases lines with
      | nil => simp [h32, mapHead, Closed, Line.empty] at h
      | cons l ls => simpa [h32, mapHead, append, Closed] using h
    · by_cases hw : isWord c
      · cases lines with
        | nil => simp [h13, h32, hw, mapHead, Closed, Line.empty] at h
        | cons l ls => simpa [h13, h32, hw, mapHead, append, Closed] using h
      · simpa [h13, h32, hw] using h

theorem words_cons (c : UInt8) {t : Text} (h : (∀ l ∈ t.lines, l.Words) ∧ t.tail.Words) :
    (∀ l ∈ (t.cons c).lines, l.Words) ∧ (t.cons c).tail.Words := by
  have hmap : ∀ f : Line → Line, (∀ l, l.Words → (f l).Words) →
      (∀ l ∈ (t.mapHead f).lines, l.Words) ∧ (t.mapHead f).tail.Words := by
    intro f hf
    obtain ⟨_ | ⟨l, ls⟩, tail⟩ := t
    · exact ⟨fun _ hl => absurd hl List.not_mem_nil, hf _ h.2⟩
    · refine ⟨fun m hm => ?_, h.2⟩
      rcases List.mem_cons.mp hm with rfl | hm
      · exact hf _ (h.1 l (List.mem_cons_self ..))
      · exact h.1 m (List.mem_cons_of_mem _ hm)
  unfold cons
  split
  · refine ⟨fun l hl => ?_, h.2⟩
    rcases List.mem_cons.mp hl with rfl | hl
    · decide
    · exact h.1 l hl
  · split
    · refine hmap _ fun l hl w hw => ?_
      rcases List.mem_cons.mp hw with rfl | hw
      · exact fun c hc => by cases hc
      · exact hl w hw
    · split
      · rename_i hc
        refine hmap _ fun l hl w hw => ?_
        rcases List.mem_cons.mp hw with rfl | hw
        · intro d hd
          rcases List.mem_cons.mp hd with rfl | hd
          · exact hc
          · exact hl.first d hd
        · exact hl w (List.mem_cons_of_mem _ hw)
      · exact h

theorem bytes_cons (c : UInt8) (t : Text) :
    (t.cons c).bytes = if isKept c then c :: t.bytes else t.bytes := by
  have hmap : ∀ f : Line → Line, (∀ l, (f l).bytes = c :: l.bytes) →
      (t.mapHead f).bytes = c :: t.bytes := by
    intro f hf
    obtain ⟨_ | ⟨l, ls⟩, tail⟩ := t <;> simp [mapHead, bytes, hf]
  unfold cons
  by_cases h13 : c = 13
  · subst h13
    rfl
  · by_cases h32 : c = 32
    · subst h32
      exact hmap _ fun l => by simp [Line.bytes]
    · by_cases hw : isWord c
      · rw [if_neg h13, if_neg h32, if_pos hw, if_pos (by simp [isKept, hw])]
        exact hmap _ fun l => rfl
      · rw [if_neg h13, if_neg h32, if_neg hw, if_neg (by simp [isKept, h13, h32, hw])]

end Text

/-- The text that the bytes of a file spell. -/
def parse (file : Bytes) : Text := file.foldr Text.cons Text.empty

/-! ## Reading off lines -/

@[simp] theorem parse_nil : parse [] = Text.empty := rfl

theorem parse_cons (c : UInt8) (f : Bytes) : parse (c :: f) = (parse f).cons c := rfl

theorem parse_cr (f : Bytes) :
    parse (13 :: f) = ⟨.empty :: (parse f).lines, (parse f).tail⟩ := rfl

theorem parse_skip {c : UInt8} (hc : isKept c = false) (f : Bytes) : parse (c :: f) = parse f := by
  simp only [isKept, decide_eq_false_iff_not, not_or] at hc
  simp [parse_cons, Text.cons, hc]

theorem isWord_ne {c : UInt8} (hc : isWord c) : c ≠ 0 ∧ c ≠ 13 ∧ c ≠ 32 ∧ c ≠ 10 := by
  refine ⟨?_, ?_, ?_, ?_⟩ <;> rintro rfl <;> exact absurd hc (by decide)

theorem isspace_of_isWord {c : UInt8} (hc : isWord c) : isspace c = false := by
  simp only [isWord, decide_eq_true_eq] at hc
  simp only [isspace, decide_eq_false_iff_not, UInt8.le_iff_toNat_le, ← UInt8.toNat_inj] at hc ⊢
  simp at hc ⊢
  omega

theorem strip_words {w : Bytes} (h : ∀ c ∈ w, isWord c) : strip w = w :=
  trim_of_none isspace fun c hc => isspace_of_isWord (h c hc)

theorem zero_notMem_words {w : Bytes} (h : ∀ c ∈ w, isWord c) : (0 : UInt8) ∉ w :=
  fun h0 => (isWord_ne (h 0 h0)).1 rfl

/-- A word joins the line that follows it. -/
theorem parse_word {w : Bytes} (hw : ∀ c ∈ w, isWord c) (f : Bytes) :
    parse (w ++ f) = (parse f).mapHead fun l => ⟨w ++ l.first, l.more⟩ := by
  induction w with
  | nil => exact (Text.mapHead_id _).symm
  | cons c w ih =>
    have hc : isWord c = true := hw c (List.mem_cons_self ..)
    have hne := isWord_ne hc
    rw [List.cons_append, parse_cons, ih fun d hd => hw d (List.mem_cons_of_mem _ hd), Text.cons,
      if_neg hne.2.1, if_neg hne.2.2.1, if_pos hc, Text.mapHead_mapHead]
    rfl

/-- A line of words and its CR are read as that line. -/
theorem parse_line {l : Line} (hl : l.Words) (f : Bytes) :
    parse (l.bytes ++ 13 :: f) = ⟨l :: (parse f).lines, (parse f).tail⟩ := by
  obtain ⟨w, more⟩ := l
  induction more generalizing w with
  | nil =>
    rw [Line.bytes_nil, parse_word hl.first, parse_cr, Text.mapHead_lines rfl]
    simp [Line.empty]
  | cons v more ih =>
    rw [Line.bytes_cons, List.append_assoc, parse_word hl.first, List.cons_append, parse_cons,
      ih v hl.cons, Text.cons, if_neg (by decide), if_pos rfl, Text.mapHead_mapHead,
      Text.mapHead_lines rfl]
    simp

/-- What follows a CR does not reach back over it. -/
theorem parse_tail (f g : Bytes) :
    (parse (f ++ 13 :: g)).lines ≠ [] ∧ (parse (f ++ 13 :: g)).tail = (parse g).tail := by
  induction f with
  | nil => exact ⟨List.cons_ne_nil _ _, rfl⟩
  | cons c f ih =>
    obtain ⟨l, ls, hl⟩ := List.exists_cons_of_ne_nil ih.1
    have hmap : ∀ h, (parse (f ++ 13 :: g)).mapHead h = ⟨h l :: ls, (parse g).tail⟩ := fun h => by
      rw [Text.mapHead_lines hl, ih.2]
    rw [List.cons_append, parse_cons, Text.cons, hmap, hmap]
    split
    · exact ⟨List.cons_ne_nil _ _, ih.2⟩
    · split
      · exact ⟨List.cons_ne_nil _ _, rfl⟩
      · split
        · exact ⟨List.cons_ne_nil _ _, rfl⟩
        · exact ih

/-- A text that `println` ended is closed. -/
theorem closed_println (f : Bytes) : (parse (f ++ [13, 10])).Closed := (parse_tail f [10]).2

/-- After a closed text the next bytes start a line of their own. -/
theorem parse_append {f : Bytes} (hf : (parse f).Closed) (g : Bytes) :
    parse (f ++ g) = (parse f).append (parse g) := by
  induction f with
  | nil => rfl
  | cons c f ih =>
    rw [parse_cons] at hf
    obtain ⟨hclosed, hcons⟩ := Text.cons_append hf (parse g)
    rw [List.cons_append, parse_cons, ih hclosed, hcons, parse_cons]

/-- The words of a text consist of letters and digits. -/
theorem parse_words (f : Bytes) :
    (∀ l ∈ (parse f).lines, l.Words) ∧ (parse f).tail.Words := by
  induction f with
  | nil => exact ⟨fun _ hl => absurd hl List.not_mem_nil, by decide⟩
  | cons c f ih => exact Text.words_cons c ih

/-- Taking the bytes of the text that was read leaves out what `read_file` skips. -/
theorem bytes_parse (f : Bytes) : (parse f).bytes = f.filter isKept := by
  induction f with
  | nil => rfl
  | cons c f ih => rw [parse_cons, Text.bytes_cons, ih, List.filter_cons]

end SmartDoor
