import SmartDoor.Access.Intake
import SmartDoor.Access.Decisions

/-!
# Frames in pieces

`serialEvent1` is called whenever bytes have arrived; it reads at most sixteen of them
and stops after a 0x03. The abstract reader takes the stream one byte after the other,
without a budget and without stopping. However the stream is cut, the calls of
`process_code` and what they find in `code` are those of the abstract reader.
-/

namespace SmartDoor

open CString

/-! ## The abstract reader -/

/-- The buffer, the index into it, and what `process_code` has found in the buffer at
each of its calls. -/
structure Reader where
  code : Vector UInt8 12
  ci : Nat
  calls : List (Vector UInt8 12)

/-- What a call of `process_code` leaves of the buffer, when `hexchar2b` answers `f` for
other characters. -/
def processed (f : UInt8 → UInt8) (code : Vector UInt8 12) : Vector UInt8 12 :=
  if validTag (code.map f) code then trimAt (endCode code) 0 else code

namespace Reader

/-- The reader before any byte. -/
def start : Reader := ⟨Vector.replicate 12 0, 0, []⟩

/-- One byte of the stream. -/
def byte (f : UInt8 → UInt8) (r : Reader) (val : UInt8) : Reader :=
  if val = 0x02 then { r with ci := 0 }
  else if val = 0x0D ∨ val = 0x0A then r
  else if val = 0x03 then { r with code := processed f r.code, calls := r.calls ++ [r.code] }
  else if h : r.ci < 12 then { r with code := r.code.set r.ci val, ci := r.ci + 1 }
  else r

/-- One pass over a stream, from left to right. -/
def pass (f : UInt8 → UInt8) (r : Reader) (bytes : Bytes) : Reader := bytes.foldl (byte f) r

variable {f : UInt8 → UInt8}

theorem pass_append (r : Reader) (bytes more : Bytes) :
    r.pass f (bytes ++ more) = (r.pass f bytes).pass f more :=
  List.foldl_append

theorem pass_concat (r : Reader) (bytes : Bytes) (val : UInt8) :
    r.pass f (bytes ++ [val]) = (r.pass f bytes).byte f val :=
  pass_append r bytes [val]

end Reader

/-- The number of payload bytes since the last 0x02, or since the start. -/
def payloadLength (bytes : Bytes) : Nat := (bytes.rtakeWhile (· ≠ 0x02)).countP isPayload

/-- The payload is counted where it is received. -/
theorem payloadLength_eq (bytes : Bytes) : payloadLength bytes = (received bytes).length :=
  List.countP_eq_length_filter

theorem payloadLength_concat (bytes : Bytes) (val : UInt8) :
    payloadLength (bytes ++ [val]) =
      if val = 0x02 then 0 else payloadLength bytes + if isPayload val then 1 else 0 := by
  rw [payloadLength_eq, payloadLength_eq, received_concat]
  split
  · rfl
  split
  · rw [List.length_append, List.length_singleton]
  · rfl

namespace Reader

variable {f : UInt8 → UInt8}

/-- `ci` counts the payload up to twelve. -/
theorem ci_pass (bytes : Bytes) : (start.pass f bytes).ci = min 12 (payloadLength bytes) := by
  induction bytes using List.reverseRecOn with
  | nil => rfl
  | append_singleton bytes val ih =>
    rw [pass_concat, payloadLength_concat, byte]
    by_cases hstx : val = 0x02
    · rw [if_pos hstx, if_pos hstx]
      rfl
    rw [if_neg hstx, if_neg hstx]
    by_cases hline : val = 0x0D ∨ val = 0x0A
    · have hskip : isPayload val = false := by rcases hline with rfl | rfl <;> rfl
      rw [if_pos hline, hskip, ih]
      rfl
    rw [if_neg hline]
    by_cases hetx : val = 0x03
    · have hskip : isPayload val = false := by rw [hetx]; rfl
      rw [if_pos hetx, hskip]
      exact ih
    have hpay : isPayload val = true := by
      simp only [isPayload, decide_eq_true_eq]
      exact ⟨hstx, hetx, fun h => hline (Or.inl h), fun h => hline (Or.inr h)⟩
    rw [if_neg hetx, hpay, if_pos rfl]
    split
    · simp only
      omega
    · omega

/-- `process_code` is called once for each 0x03. -/
theorem length_calls_pass (bytes : Bytes) :
    (start.pass f bytes).calls.length = bytes.count 0x03 := by
  induction bytes using List.reverseRecOn with
  | nil => rfl
  | append_singleton bytes val ih =>
    rw [pass_concat, List.count_append, ← ih, List.count_singleton, byte]
    by_cases hetx : val = 0x03
    · subst hetx
      simp
    · simp only [if_neg hetx, beq_iff_eq]
      split
      · rfl
      split
      · rfl
      split <;> rfl

end Reader

/-! ## Refinement -/

namespace Sketch

/-- The part of the sketch that the abstract reader describes. -/
def reader (s : Sketch) (calls : List (Vector UInt8 12)) : Reader := ⟨s.code, s.ci, calls⟩

/-- The loop of `serialEvent1` takes a piece of the buffer. Without a 0x03 it has done
what the abstract reader does; with a 0x03, all but the call of `process_code`. -/
theorem serialScan_eq (f : UInt8 → UInt8) (calls : List (Vector UInt8 12)) (left : Nat)
    (s : Sketch) : ∃ bytes rest code ci,
      s.serial1.buffer = bytes ++ rest ∧
      (s.serialScan left).1 =
        { s with code := code, ci := ci, serial1 := ⟨rest, s.serial1.seen ++ bytes⟩ } ∧
      (s.reader calls).pass f bytes = if (s.serialScan left).2 then
        ⟨processed f code, ci, calls ++ [code]⟩ else ⟨code, ci, calls⟩ := by
  induction left generalizing s with
  | zero =>
    refine ⟨[], s.serial1.buffer, s.code, s.ci, rfl, ?_, rfl⟩
    rw [serialScan, List.append_nil]
  | succ left ih =>
    cases hbuf : s.serial1.buffer with
    | nil =>
      refine ⟨[], [], s.code, s.ci, rfl, ?_, ?_⟩
      · have hserial : s.serial1 = ⟨[], s.serial1.seen⟩ := by rw [← hbuf]
        simp only [serialScan, hbuf, List.append_nil, ← hserial]
      · simp only [serialScan, hbuf]
        rfl
    | cons val buffer =>
      -- the rest of the loop, from the state after this byte
      have hnext : ∀ (code : Vector UInt8 12) (ci : Nat),
          (s.reader calls).byte f val = ⟨code, ci, calls⟩ →
          s.serialScan (left + 1) = serialScan left { s with
            code := code, ci := ci, serial1 := ⟨buffer, s.serial1.seen ++ [val]⟩ } →
          ∃ bytes rest code ci,
            val :: buffer = bytes ++ rest ∧
            (s.serialScan (left + 1)).1 =
              { s with code := code, ci := ci, serial1 := ⟨rest, s.serial1.seen ++ bytes⟩ } ∧
            (s.reader calls).pass f bytes = if (s.serialScan (left + 1)).2 then
              ⟨processed f code, ci, calls ++ [code]⟩ else ⟨code, ci, calls⟩ := by
        intro code ci hbyte hscan
        obtain ⟨bytes, rest, code', ci', hsplit, hstate, hpass⟩ := ih { s with
          code := code, ci := ci, serial1 := ⟨buffer, s.serial1.seen ++ [val]⟩ }
        refine ⟨val :: bytes, rest, code', ci', ?_, ?_, ?_⟩
        · rw [List.cons_append, ← hsplit]
        · rw [hscan, hstate, List.append_assoc]
          rfl
        · rw [hscan, ← hpass, Reader.pass, List.foldl_cons, hbyte]
          rfl
      by_cases hstx : val = 0x02
      · apply hnext s.code 0
        · rw [Reader.byte, if_pos hstx]
          rfl
        · simp only [serialScan, hbuf, if_pos hstx]
      by_cases hline : val = 0x0D ∨ val = 0x0A
      · apply hnext s.code s.ci
        · rw [Reader.byte, if_neg hstx, if_pos hline]
          rfl
        · simp only [serialScan, hbuf, if_neg hstx, if_pos hline]
      by_cases hetx : val = 0x03
      · refine ⟨[val], buffer, s.code, s.ci, rfl, ?_, ?_⟩
        · simp only [serialScan, hbuf, if_neg hstx, if_neg hline, if_pos hetx]
        · simp only [serialScan, hbuf, if_neg hstx, if_neg hline, if_pos hetx, if_true]
          rw [Reader.pass, List.foldl_cons, List.foldl_nil, Reader.byte, if_neg hstx,
            if_neg hline, if_pos hetx]
          rfl
      by_cases hroom : s.ci < 12
      · apply hnext (s.code.set s.ci val) (s.ci + 1)
        · simp only [Reader.byte, reader, if_neg hstx, if_neg hline, if_neg hetx]
          exact dif_pos hroom
        · simp only [serialScan, hbuf, if_neg hstx, if_neg hline, if_neg hetx, dif_pos hroom]
      · apply hnext s.code s.ci
        · simp only [Reader.byte, reader, if_neg hstx, if_neg hline, if_neg hetx]
          exact dif_neg hroom
        · simp only [serialScan, hbuf, if_neg hstx, if_neg hline, if_neg hetx, dif_neg hroom]

/-- A decision trims the code and the table, and leaves the reader alone. -/
theorem Strings.checkIDAccess_reader {s : Sketch} (h : s.Strings) (world : World) :
    ∃ t, s.checkIDAccess world = .ok t ∧ t.code = trimAt s.code 0 ∧ t.ci = s.ci ∧
      t.serial1 = s.serial1 ∧ t.store.pupa.Terminated := by
  have hpupa := h.searched.strings.pupa
  cases hl : s.store.pupa.lookup s.presented with
  | some k =>
    obtain ⟨lines, ht⟩ := h.checkIDAccess_accepted world hl
    exact ⟨_, ht, rfl, rfl, rfl, hpupa⟩
  | none =>
    obtain ⟨denied, text, reset, ht⟩ := h.checkIDAccess_denied world hl
    exact ⟨_, ht, rfl, rfl, rfl, hpupa⟩

/-- `process_code` does to the buffer what the abstract reader says. -/
theorem processCode_reader (world : World) (f : UInt8 → UInt8) {s : Sketch}
    (h : s.store.pupa.Terminated) :
    ∃ t, s.processCode world (s.code.map f) = .ok t ∧ t.code = processed f s.code ∧
      t.ci = s.ci ∧ t.serial1 = s.serial1 ∧ t.store.pupa.Terminated := by
  rw [processCode, processed]
  split
  · have hs : Strings { s with code := endCode s.code } := ⟨terminated_endCode s.code, h⟩
    exact hs.checkIDAccess_reader world
  · exact ⟨s, rfl, rfl, rfl, rfl, h⟩

end Sketch

/-! ## Deliveries -/

/-- The sketch, and what `process_code` has found in the buffer at each of its calls. -/
structure Observed where
  sketch : Sketch
  calls : List (Vector UInt8 12)

/-- Bytes arrive and `serialEvent1` is called, or the rest of the sketch changes what is not
the reader's. The table stays one of strings, as lookups leave it. -/
inductive Delivery
  | serialEvent1 (arrived : Bytes)
  | rest (store : { store : Store // store.pupa.Terminated }) (board : Board) (tm : Tm)
      (clock : Nat) (trace : List Effect)

/-- The bytes that arrive. -/
def Delivery.bytes : Delivery → Bytes
  | .serialEvent1 arrived => arrived
  | .rest .. => []

/-- A delivery, when `hexchar2b` answers `f` for other characters. -/
def Delivery.step (world : World) (f : UInt8 → UInt8) (o : Observed) :
    Delivery → Except Fault Observed
  | .serialEvent1 arrived => do
    let s := o.sketch.arrive arrived
    let (scanned, etx) := s.serialScan 16
    let s ← s.serialEvent1 world (scanned.code.map f)
    return ⟨s, if etx then o.calls ++ [scanned.code] else o.calls⟩
  | .rest store board tm clock trace => .ok { o with sketch := { o.sketch with
      store := store.val, board := board, tm := tm, clock := clock, trace := trace } }

/-- The sketch has done what the abstract reader does on the bytes read so far. -/
structure Observed.Follows (f : UInt8 → UInt8) (o : Observed) : Prop where
  pupa : o.sketch.store.pupa.Terminated
  reader : o.sketch.reader o.calls = Reader.start.pass f o.sketch.serial1.seen

theorem Observed.Follows.step (world : World) {f : UInt8 → UInt8} {o : Observed}
    (h : o.Follows f) (d : Delivery) : ∃ o', d.step world f o = .ok o' ∧ o'.Follows f ∧
      o'.sketch.serial1.seen ++ o'.sketch.serial1.buffer =
        o.sketch.serial1.seen ++ o.sketch.serial1.buffer ++ d.bytes := by
  cases d with
  | rest store board tm clock trace =>
    exact ⟨_, rfl, ⟨store.property, h.reader⟩, (List.append_nil _).symm⟩
  | serialEvent1 arrived =>
    obtain ⟨bytes, rest, code, ci, hsplit, hstate, hpass⟩ :=
      (o.sketch.arrive arrived).serialScan_eq f o.calls 16
    have hstream : o.sketch.serial1.seen ++ bytes ++ rest =
        o.sketch.serial1.seen ++ o.sketch.serial1.buffer ++ arrived := by
      rw [List.append_assoc, ← hsplit, List.append_assoc]
      rfl
    have hreader : (o.sketch.arrive arrived).reader o.calls =
        Reader.start.pass f o.sketch.serial1.seen := h.reader
    rw [hreader, ← Reader.pass_append] at hpass
    simp only [Delivery.step, Sketch.serialEvent1]
    generalize (o.sketch.arrive arrived).serialScan 16 = r at hstate hpass
    obtain ⟨u, etx⟩ := r
    simp only at hstate hpass ⊢
    have hcode : u.code = code := by rw [hstate]
    have hci : u.ci = ci := by rw [hstate]
    have hserial : u.serial1 = ⟨rest, o.sketch.serial1.seen ++ bytes⟩ := by
      rw [hstate]
      rfl
    have hpupa : u.store.pupa.Terminated := by
      rw [hstate]
      exact h.pupa
    cases etx with
    | false =>
      refine ⟨⟨u, o.calls⟩, rfl, ⟨hpupa, ?_⟩, ?_⟩
      · rw [hserial, hpass, Sketch.reader, hcode, hci]
        rfl
      · rw [hserial, hstream]
        rfl
    | true =>
      obtain ⟨t, ht, htcode, htci, htserial, htpupa⟩ := Sketch.processCode_reader world f hpupa
      rw [if_pos rfl, ht, ok_bind]
      refine ⟨⟨t, o.calls ++ [u.code]⟩, rfl, ⟨htpupa, ?_⟩, ?_⟩
      · rw [htserial, hserial, hpass, Sketch.reader, htcode, htci, hcode, hci]
        rfl
      · rw [htserial, hserial, hstream]
        rfl

theorem Observed.Follows.run (world : World) {f : UInt8 → UInt8} {o : Observed}
    (h : o.Follows f) (deliveries : List Delivery) :
    ∃ o', deliveries.foldlM (Delivery.step world f) o = .ok o' ∧ o'.Follows f ∧
      o'.sketch.serial1.seen ++ o'.sketch.serial1.buffer =
        o.sketch.serial1.seen ++ o.sketch.serial1.buffer ++ deliveries.flatMap Delivery.bytes := by
  induction deliveries generalizing o with
  | nil => exact ⟨o, rfl, h, by simp⟩
  | cons d deliveries ih =>
    obtain ⟨u, hu, hfollows, hstream⟩ := h.step world d
    obtain ⟨t, ht, hfollows', hstream'⟩ := ih hfollows
    refine ⟨t, Run.foldlM_cons_ok.mpr ⟨u, hu, ht⟩, hfollows', ?_⟩
    rw [hstream', hstream, List.flatMap_cons, List.append_assoc]

/-- However the bytes are delivered, the sketch has done with those that it has read what
one unbounded pass over them does: the calls of `process_code`, the contents of `code` at
each of them, `code` and `ci` are those of the pass. There is one call for each 0x03, and
at any point of a call `ci` is the number of payload bytes since the last 0x02, up to
twelve. -/
theorem frame_delivery (world : World) (f : UInt8 → UInt8) {store : Store}
    (hstore : store.pupa.Terminated) (deliveries : List Delivery) :
    ∃ o, deliveries.foldlM (Delivery.step world f) ⟨Sketch.powerUp store, []⟩ = .ok o ∧
      o.sketch.serial1.seen ++ o.sketch.serial1.buffer = deliveries.flatMap Delivery.bytes ∧
      o.sketch.reader o.calls = Reader.start.pass f o.sketch.serial1.seen ∧
      (o.sketch.serial1.buffer = [] →
        o.sketch.reader o.calls = Reader.start.pass f (deliveries.flatMap Delivery.bytes)) ∧
      o.calls.length = o.sketch.serial1.seen.count 0x03 ∧
      ∀ arrived left, ((o.sketch.arrive arrived).serialScan left).1.ci =
        min 12 (payloadLength ((o.sketch.arrive arrived).serialScan left).1.serial1.seen) := by
  have hstart : Observed.Follows f ⟨Sketch.powerUp store, []⟩ := ⟨hstore, rfl⟩
  obtain ⟨o, ho, hfollows, hstream⟩ := hstart.run world deliveries
  have hdelivered : o.sketch.serial1.seen ++ o.sketch.serial1.buffer =
      deliveries.flatMap Delivery.bytes := hstream
  refine ⟨o, ho, hdelivered, hfollows.reader, fun hread => ?_, ?_, fun arrived left => ?_⟩
  · rw [hfollows.reader, ← hdelivered, hread, List.append_nil]
  · rw [← Reader.length_calls_pass (f := f), ← hfollows.reader]
    rfl
  · obtain ⟨bytes, rest, code, ci, -, hstate, hpass⟩ :=
      (o.sketch.arrive arrived).serialScan_eq f o.calls left
    have hreader : (o.sketch.arrive arrived).reader o.calls =
        Reader.start.pass f o.sketch.serial1.seen := hfollows.reader
    rw [hreader, ← Reader.pass_append] at hpass
    have hci : (Reader.start.pass f (o.sketch.serial1.seen ++ bytes)).ci = ci := by
      rw [hpass]
      split <;> rfl
    rw [hstate, ← hci, Reader.ci_pass]
    rfl

/-- Two frames in one burst, cut between the payload and the 0x03: both are handled. -/
theorem frame_delivery_of_burst : ∃ o,
    [Delivery.serialEvent1 (0x02 :: ascii "0C0029DA906F"),
      .serialEvent1 (0x03 :: 0x02 :: (ascii "6C0095E9D5C5" ++ [0x03])),
      .serialEvent1 []].foldlM
        (Delivery.step ⟨fun _ => ⟨0, 0, 1, 1, 45⟩, fun _ => true⟩ fun _ => 0)
        ⟨Sketch.powerUp Store.initial, []⟩ = .ok o ∧
    o.calls.map Vector.toList = [ascii "0C0029DA906F", ascii "6C0095E9D5C5"] ∧
    o.sketch.reader o.calls = Reader.start.pass (fun _ => 0) o.sketch.serial1.seen := by
  let deliveries : List Delivery := [.serialEvent1 (0x02 :: ascii "0C0029DA906F"),
    .serialEvent1 (0x03 :: 0x02 :: (ascii "6C0095E9D5C5" ++ [0x03])), .serialEvent1 []]
  have hrun : (deliveries.foldlM
      (Delivery.step ⟨fun _ => ⟨0, 0, 1, 1, 45⟩, fun _ => true⟩ fun _ => 0)
      ⟨Sketch.powerUp Store.initial, []⟩ >>= fun o => .ok (o.calls.map Vector.toList)) =
      .ok [ascii "0C0029DA906F", ascii "6C0095E9D5C5"] := by
    decide +kernel
  obtain ⟨o, ho, h⟩ := bind_eq_ok.mp hrun
  have hzero : Store.initial.pupa.Terminated := by
    exact Pupa.sound_zero.terminated
  obtain ⟨o', ho', -, hreader, -⟩ := frame_delivery ⟨fun _ => ⟨0, 0, 1, 1, 45⟩, fun _ => true⟩
    (fun _ => 0) hzero deliveries
  obtain rfl : o = o' := Except.ok.inj (ho.symm.trans ho')
  exact ⟨o, ho, Except.ok.inj h, hreader⟩

end SmartDoor
