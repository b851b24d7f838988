import SmartDoor.Display.Legible
import SmartDoor.System.Safety

/-!
# The screen of the machine

The display draws what the sketch shows, each screen with the time at which it is shown. In every
run of the machine from a power-up on, the last frame that was sent is a picture of the last
screen: it asks for a card whenever the door is locked, and its minute is the one that the sketch
has read last.
-/

namespace SmartDoor

open CString

/-- The screen that asks for a card. -/
def attach : List Bytes := [ascii "ATTACH", ascii "RFCARD"]

namespace Display

/-- The screens among the effects of a move are drawn, each at its time. -/
def draw (world : World) : Nat → List Effect → Display → Except Fault Display
  | _, [], d => .ok d
  | clock, .display lines :: fx, d => do draw world clock fx (← d.ledPrint (world.rtc clock) lines)
  | clock, .delay ms :: fx, d => draw world (clock + ms) fx d
  | clock, .digitalWrite _ _ :: fx, d => draw world clock fx d

/-- The last screen behind some effects, with the time that it shows. -/
def latest (world : World) : Nat → List Effect → Tm × List Bytes → Tm × List Bytes
  | _, [], shown => shown
  | clock, .display lines :: fx, _ => latest world clock fx (world.rtc clock, lines)
  | clock, .delay ms :: fx, shown => latest world (clock + ms) fx shown
  | clock, .digitalWrite _ _ :: fx, shown => latest world clock fx shown

/-- The last frame is a picture of a screen. -/
structure Shows (d : Display) (shown : Tm × List Bytes) : Prop where
  mounted : d.driver.Mounted
  frame : ∃ b, d.lastFrame = frame b ∧
    ∀ p, b.pixel p = true ↔ HeadLights shown.1 (view 0 p) ∨ BodyLights shown.2 (view 0 p)

theorem shows_ledPrint {d : Display} (h : d.driver.Mounted) (tm : Tm) {lines : List Bytes}
    (hlines : Displayable lines) :
    ∃ d', d.ledPrint tm lines = .ok d' ∧ d'.Shows (tm, lines) := by
  obtain ⟨b, sent, x, y, hprint, hpixel⟩ := ledPrint_eq h tm hlines
  exact ⟨_, hprint, mounted_placed x y 2 b, b, lastFrame_eq, hpixel⟩

/-- The effects leave the last of their screens on the display. -/
theorem shows_draw (world : World) {fx : List Effect}
    (hfx : ∀ lines, .display lines ∈ fx → Displayable lines) {d : Display}
    {shown : Tm × List Bytes} (h : d.Shows shown) (clock : Nat) :
    ∃ d', d.draw world clock fx = .ok d' ∧ d'.Shows (latest world clock fx shown) := by
  induction fx generalizing d shown clock with
  | nil => exact ⟨d, rfl, h⟩
  | cons e fx ih =>
    have hrest : ∀ lines, .display lines ∈ fx → Displayable lines := fun lines hmem =>
      hfx lines (List.mem_cons_of_mem _ hmem)
    cases e with
    | display lines =>
      obtain ⟨u, hu, hshows⟩ := shows_ledPrint h.mounted (world.rtc clock)
        (hfx lines List.mem_cons_self)
      obtain ⟨d', hd', hlatest⟩ := ih hrest hshows clock
      exact ⟨d', by rw [draw, hu, ok_bind, hd'], hlatest⟩
    | delay ms => exact ih hrest h (clock + ms)
    | digitalWrite pin level => exact ih hrest h clock

end Display

/-! ## What the tasks show -/

namespace Sketch

/-- The screen has the minute that was read last, and asks for a card while the door is locked. -/
structure Fresh (s : Sketch) (shown : Tm × List Bytes) : Prop where
  minute : shown.1.minute = s.tm.minute
  locked : s.board.doorState = false → shown.2 = attach

/-- A call that shows screens of one line or two, and leaves the last of them fresh. -/
def Follows (world : World) (s t : Sketch) : Prop :=
  ∃ fx, t.trace = s.trace ++ fx ∧
    (∀ lines, .display lines ∈ fx → lines.length = 1 ∨ lines.length = 2) ∧
    ∀ shown, s.Fresh shown → t.Fresh (Display.latest world s.clock fx shown)

section World

variable {world : World} {s t : Sketch}

/-- Nothing is shown, and the minute and the door stay as they were. -/
theorem follows_quiet (htrace : t.trace = s.trace) (hminute : t.tm.minute = s.tm.minute)
    (hboard : t.board.doorState = s.board.doorState) : Follows world s t := by
  refine ⟨[], ?_, fun _ h => absurd h List.not_mem_nil, fun shown h => ?_⟩
  · rw [htrace, List.append_nil]
  · exact ⟨h.minute.trans hminute.symm, fun hlocked => h.locked (hboard.symm.trans hlocked)⟩

/-- Nothing is shown, and no time goes by. -/
structure Silent (s t : Sketch) : Prop where
  trace : t.trace = s.trace
  tm : t.tm = s.tm
  clock : t.clock = s.clock
  board : t.board = s.board

theorem Silent.trans {u : Sketch} (h : s.Silent t) (h' : t.Silent u) : s.Silent u :=
  ⟨h'.trace.trans h.trace, h'.tm.trans h.tm, h'.clock.trans h.clock, h'.board.trans h.board⟩

theorem writeLOG_silent {username id : Str} (h : s.writeLOG world username id = .ok t) :
    s.Silent t := by
  obtain ⟨_, -, h⟩ := bind_eq_ok.mp h
  obtain ⟨_, -, h⟩ := bind_eq_ok.mp h
  obtain rfl := Except.ok.inj h
  exact ⟨rfl, rfl, rfl, rfl⟩

theorem isUserCode_silent {member : Int} (h : s.isUserCode = .ok (member, t)) : s.Silent t := by
  obtain ⟨⟨_, _, _⟩, -, h⟩ := bind_eq_ok.mp h
  obtain ⟨-, rfl⟩ := Prod.mk.inj (Except.ok.inj h)
  exact ⟨rfl, rfl, rfl, rfl⟩

/-- `LEDprint` between calls that show nothing. -/
theorem ledPrint_between {text : Str} {u v : Sketch} (hu : s.Silent u)
    (h : u.ledPrint world text = .ok v) (ht : v.Silent t) : ∃ lines : List Bytes,
      (lines.length = 1 ∨ lines.length = 2) ∧ t.trace = s.trace ++ [.display lines] ∧
      t.tm = world.rtc s.clock ∧ t.clock = s.clock ∧ t.board = s.board := by
  obtain ⟨lines, hlength, htrace, htm, hclock, hboard⟩ := ledPrint_lines h
  refine ⟨lines, hlength, ?_, ?_, ht.clock.trans (hclock.trans hu.clock),
    ht.board.trans (hboard.trans hu.board)⟩
  · rw [ht.trace, htrace, hu.trace]
  · rw [ht.tm, htm, hu.clock]

/-- An unlocked door shows one screen. -/
theorem unlockDoor_follows {type : UnlockType} (h : s.unlockDoor world type = .ok t) :
    Follows world s t := by
  unfold unlockDoor at h
  simp only at h
  have hopen : ∃ u : Sketch, u = { s with board := s.board.openDoor }.emit (.digitalWrite DOOR true) ∧
      u.trace = s.trace ++ [.digitalWrite DOOR true] ∧ u.clock = s.clock ∧
      u.board.doorState = true := ⟨_, rfl, rfl, rfl, rfl⟩
  obtain ⟨u, hu, htrace, hclock, hdoor⟩ := hopen
  rw [← hu] at h
  have hdone : ∀ {v : Sketch} {lines : List Bytes}, lines.length = 1 ∨ lines.length = 2 →
      v.trace = u.trace ++ [.display lines] → v.tm = world.rtc u.clock → v.board = u.board →
      Follows world s { v with board := v.board.armRelock v.clock } := by
    intro v lines hlength hv htm hboard
    refine ⟨[.digitalWrite DOOR true, .display lines], ?_, fun lines' hmem => ?_,
      fun shown _ => ⟨?_, fun hlocked => ?_⟩⟩
    · change v.trace = _
      rw [hv, htrace]
      exact List.append_assoc _ _ _
    · rcases List.mem_pair.mp hmem with heq | heq
      · cases heq
      · obtain rfl := Effect.display.inj heq
        exact hlength
    · change (world.rtc s.clock).minute = v.tm.minute
      rw [htm, hclock]
    · have hlocked : v.board.doorState = false := hlocked
      rw [hboard, hdoor] at hlocked
      cases hlocked
  cases type with
  | card =>
    obtain ⟨⟨_, u₁⟩, h₁, h⟩ := bind_eq_ok.mp h
    obtain ⟨_, -, h⟩ := bind_eq_ok.mp h
    obtain ⟨_, -, h⟩ := bind_eq_ok.mp h
    obtain ⟨⟨_, u₂⟩, h₂, h⟩ := bind_eq_ok.mp h
    obtain ⟨_, -, h⟩ := bind_eq_ok.mp h
    obtain ⟨u₃, h₃, h⟩ := bind_eq_ok.mp h
    obtain ⟨⟨_, u₄⟩, h₄, h⟩ := bind_eq_ok.mp h
    obtain ⟨_, -, h⟩ := bind_eq_ok.mp h
    obtain ⟨u₅, h₅, h⟩ := bind_eq_ok.mp h
    obtain rfl := Except.ok.inj h
    obtain ⟨lines, hlength, hv, htm, -, hboard⟩ :=
      ledPrint_between ((isUserCode_silent h₁).trans (isUserCode_silent h₂)) h₃
        ((isUserCode_silent h₄).trans (writeLOG_silent h₅))
    exact hdone hlength hv htm hboard
  | button =>
    obtain ⟨u₁, h₁, h⟩ := bind_eq_ok.mp h
    obtain ⟨u₂, h₂, h⟩ := bind_eq_ok.mp h
    obtain rfl := Except.ok.inj h
    obtain ⟨lines, hlength, hv, htm, -, hboard⟩ :=
      ledPrint_between ⟨rfl, rfl, rfl, rfl⟩ h₁ (writeLOG_silent h₂)
    exact hdone hlength hv htm hboard

theorem Follows.of_silent {u : Sketch} (h : s.Silent u) (h' : Follows world u t) :
    Follows world s t := by
  obtain ⟨fx, htrace, hlength, hfresh⟩ := h'
  rw [h.trace] at htrace
  rw [h.clock] at hfresh
  refine ⟨fx, htrace, hlength, fun shown hshown => hfresh shown ⟨?_, fun hlocked => ?_⟩⟩
  · rw [h.tm]
    exact hshown.minute
  · rw [h.board] at hlocked
    exact hshown.locked hlocked

/-- A code that was looked up shows one screen or three, of which the last asks for a card. -/
theorem checkIDAccess_follows (h : s.checkIDAccess world = .ok t) : Follows world s t := by
  obtain ⟨⟨member, u⟩, hu, h⟩ := bind_eq_ok.mp h
  have hu := isUserCode_silent hu
  simp only at h
  split at h
  · exact Follows.of_silent hu (unlockDoor_follows h)
  · obtain ⟨u₁, h₁, h⟩ := bind_eq_ok.mp h
    obtain ⟨u₂, h₂, h⟩ := bind_eq_ok.mp h
    obtain ⟨u₃, h₃, h⟩ := bind_eq_ok.mp h
    obtain ⟨denied, hdenied, htrace₂, -, hclock₂, -⟩ :=
      ledPrint_between ⟨rfl, rfl, rfl, rfl⟩ h₁ (writeLOG_silent h₂)
    obtain ⟨text, htext, htrace₃, -, hclock₃, -⟩ := ledPrint_lines h₃
    have htrace₃ : u₃.trace = u₂.trace ++ [.delay 1000] ++ [.display text] := htrace₃
    have hclock₃ : u₃.clock = u₂.clock + 1000 := hclock₃
    rw [ledPrint_reset] at h
    obtain rfl := Except.ok.inj h
    refine Follows.of_silent hu ⟨[.display denied, .delay 1000, .display text, .delay 5000,
      .display attach], ?_, fun lines hmem => ?_, fun shown _ => ⟨?_, fun _ => rfl⟩⟩
    · change u₃.trace ++ [.delay 5000] ++ [.display attach] = _
      rw [htrace₃, htrace₂]
      simp only [List.append_assoc, List.cons_append, List.nil_append]
    · simp only [List.mem_cons, List.not_mem_nil, or_false, reduceCtorEq, false_or,
        Effect.display.injEq] at hmem
      rcases hmem with rfl | rfl | rfl
      · exact hdenied
      · exact htext
      · exact Or.inr rfl
    · change (world.rtc (u.clock + 1000 + 5000)).minute = (world.rtc (u₃.clock + 5000)).minute
      rw [hclock₃, hclock₂]

end World

end Sketch

/-- Whatever a task shows, it follows the sketch. -/
theorem Task.step_follows {world : World} {s t : Sketch} {a : Task} (hready : s.board.Ready)
    (h : a.step world s = .ok t) : Sketch.Follows world s t := by
  cases a with
  | update =>
    obtain rfl := Except.ok.inj h
    rcases Sketch.update_cases world hready with hsame | ⟨events, hlock, -⟩
    · rw [hsame]
      exact Sketch.follows_quiet rfl rfl rfl
    · rw [hlock]
      refine ⟨[.digitalWrite DOOR false, .display attach], List.append_assoc _ _ _,
        fun lines hmem => ?_, fun shown _ => ⟨rfl, fun _ => rfl⟩⟩
      rcases List.mem_pair.mp hmem with heq | heq
      · cases heq
      · obtain rfl := Effect.display.inj heq
        exact Or.inr rfl
  | updateTime =>
    rw [step, Sketch.updateTime] at h
    simp only at h
    split at h
    · rw [Sketch.ledPrint_reset] at h
      obtain rfl := Except.ok.inj h
      refine ⟨[.display attach], rfl, fun lines hmem => ?_, fun shown _ => ⟨rfl, fun _ => rfl⟩⟩
      obtain rfl := Effect.display.inj (List.mem_singleton.mp hmem)
      exact Or.inr rfl
    · rename_i hminute
      obtain rfl := Except.ok.inj h
      exact Sketch.follows_quiet rfl (not_not.mp hminute).symm rfl
  | unlockButton pressed =>
    cases pressed with
    | false =>
      obtain rfl := Except.ok.inj h
      exact Sketch.follows_quiet rfl rfl rfl
    | true =>
      have hunlock : s.unlockDoor world .button = .ok t := h
      exact Sketch.unlockDoor_follows hunlock
  | serialEvent1 arrived junk =>
    rw [step, Sketch.serialEvent1_eq] at h
    cases hpresents : (s.arrive arrived).presents junk with
    | none =>
      rw [hpresents] at h
      obtain rfl := Except.ok.inj h
      obtain ⟨code, ci, serial1, hscan⟩ := (s.arrive arrived).scanned_serialScan 16
      rw [hscan]
      exact Sketch.follows_quiet rfl rfl rfl
    | some u =>
      rw [hpresents] at h
      have hcheck : u.checkIDAccess world = .ok t := h
      obtain ⟨⟨code, ci, serial1, hscan⟩, -⟩ := Sketch.presents_scanned hpresents
      have hsilent : s.Silent u := by
        rw [hscan]
        exact ⟨rfl, rfl, rfl, rfl⟩
      exact Sketch.Follows.of_silent hsilent (Sketch.checkIDAccess_follows hcheck)
  | wait ms =>
    obtain rfl := Except.ok.inj h
    exact Sketch.follows_quiet rfl rfl rfl

/-! ## The machine and its display -/

variable {Conn : Type} [DecidableEq Conn]

/-- The machine with its display. -/
structure Watched (Conn : Type) where
  machine : Machine Conn
  display : Display

/-- A move of the machine, and what of it is drawn. A power cycle begins with an empty picture. -/
def Watched.step (w : Watched Conn) (mv : Move Conn) : Except Fault (Watched Conn) := do
  let m ← w.machine.step mv
  let fx := m.device.sketch.trace.drop w.machine.device.sketch.trace.length
  let display ← mv.restart?.elim (w.display.draw m.world w.machine.device.sketch.clock fx)
    fun world => Display.draw world 0 fx Display.empty
  return ⟨m, display⟩

/-- The texts that are shown. -/
def Effect.texts : Effect → List Bytes
  | .display lines => lines
  | _ => []

/-- All that is shown is in the font. -/
def InFont (fx : List Effect) : Prop := ∀ e ∈ fx, ∀ text ∈ e.texts, 255 ∉ text

instance (fx : List Effect) : Decidable (InFont fx) :=
  inferInstanceAs (Decidable (∀ e ∈ fx, ∀ text ∈ e.texts, 255 ∉ text))

/-- What a move of a running machine shows. -/
theorem Move.step_follows {m n : Machine Conn} (h : m.Running) {mv : Move Conn}
    (hstep : m.step mv = .ok n) :
    (∃ world, mv = .powerCycle world ∧ n.device.sketch.trace =
        m.device.sketch.trace ++ [.delay 1000, .display attach] ∧
        n.device.sketch.tm = world.rtc 1000) ∨
      (∀ world, mv ≠ .powerCycle world) ∧ n.world = m.world ∧
        Sketch.Follows m.world m.device.sketch n.device.sketch := by
  rcases Move.step_cases hstep with ⟨a, t, rfl, ht, rfl⟩ | ⟨e, s, he, hs, rfl⟩ |
    ⟨world, s, rfl, hs, rfl⟩
  · exact Or.inr ⟨fun _ => by simp, rfl, Task.step_follows h.device.board ht⟩
  · refine Or.inr ⟨fun world => ?_, rfl, Sketch.follows_quiet rfl rfl ?_⟩
    · rintro rfl
      cases he
    · change s.shell.board.doorState = m.device.sketch.board.doorState
      rcases (Move.step_event h he hs).2.2 with hboard | ⟨str, hboard⟩
      · rw [hboard]
      · rw [hboard, Board.setDelaytime]
        split <;> rfl
  · rw [Sketch.setup_eq] at hs
    obtain ⟨pupa, -, rfl⟩ := map_eq_ok.mp hs
    exact Or.inl ⟨world, rfl, List.append_assoc _ _ _, rfl⟩

/-- The machine runs, and its display shows a fresh screen. -/
structure Watched.Current (w : Watched Conn) : Prop where
  running : w.machine.Running
  shown : ∃ shown, w.display.Shows shown ∧ w.machine.device.sketch.Fresh shown

/-- A move shows nothing that was shown before it. -/
theorem Move.trace_step {m n : Machine Conn} (h : m.Running) {mv : Move Conn}
    (hstep : m.step mv = .ok n) : m.device.sketch.trace <+: n.device.sketch.trace := by
  rcases Move.step_follows h hstep with ⟨world, -, htrace, -⟩ | ⟨-, -, fx, htrace, -⟩
  · exact ⟨_, htrace.symm⟩
  · exact ⟨fx, htrace.symm⟩

/-- A power cycle, from any display. -/
theorem Watched.step_powerCycle {w : Watched Conn} (h : w.machine.Running) {world : World}
    {n : Machine Conn} (hstep : w.machine.step (.powerCycle world) = .ok n) :
    ∃ v, w.step (.powerCycle world) = .ok v ∧ v.machine = n ∧ v.Current := by
  rcases Move.step_follows h hstep with ⟨world', heq, htrace, htm⟩ | ⟨hother, -⟩
  · obtain rfl := Move.powerCycle.inj heq
    have hattach : Display.Displayable attach := ⟨Or.inr rfl, by decide⟩
    obtain ⟨d, hd, hshows⟩ := Display.shows_ledPrint (d := Display.empty) ⟨rfl, rfl⟩
      (world.rtc 1000) hattach
    refine ⟨⟨n, d⟩, ?_, rfl, h.step hstep, _, hshows, ?_, fun _ => rfl⟩
    · rw [step, hstep, ok_bind]
      simp only [Move.restart?, Option.elim_some]
      rw [htrace, List.drop_left]
      simp only [Display.draw, Nat.zero_add]
      rw [hd]
      rfl
    · rw [htm]
  · exact absurd rfl (hother world)

/-- Each move leaves a fresh screen, if what it shows is in the font. -/
theorem Watched.Current.step {w : Watched Conn} (h : w.Current) {mv : Move Conn}
    {n : Machine Conn} (hstep : w.machine.step mv = .ok n)
    (hfont : InFont n.device.sketch.trace) :
    ∃ v, w.step mv = .ok v ∧ v.machine = n ∧ v.Current := by
  rcases Move.step_follows h.running hstep with ⟨world, rfl, -, -⟩ |
    ⟨hother, hworld, fx, htrace, hlength, hfresh⟩
  · exact Watched.step_powerCycle h.running hstep
  · obtain ⟨shown, hshows, hshown⟩ := h.shown
    have hfx : ∀ lines, .display lines ∈ fx → Display.Displayable lines := fun lines hmem =>
      ⟨hlength lines hmem, hfont (.display lines) (htrace ▸ List.mem_append_right _ hmem)⟩
    obtain ⟨d, hd, hlatest⟩ := Display.shows_draw w.machine.world hfx hshows
      w.machine.device.sketch.clock
    refine ⟨⟨n, d⟩, ?_, rfl, h.running.step hstep, _, hlatest, hfresh shown hshown⟩
    have hdraw : w.step mv = w.display.draw n.world w.machine.device.sketch.clock
        (n.device.sketch.trace.drop w.machine.device.sketch.trace.length) >>= fun d =>
          .ok ⟨n, d⟩ := by
      rw [Watched.step, hstep, ok_bind]
      cases mv with
      | powerCycle world => exact absurd rfl (hother world)
      | _ => rfl
    rw [hdraw, htrace, List.drop_left, hworld, hd]
    rfl

/-- What a run shows is behind what was shown before it. -/
theorem Machine.Running.trace_run {m n : Machine Conn} (h : m.Running) {moves : List (Move Conn)}
    (hrun : moves.foldlM Machine.step m = .ok n) :
    m.device.sketch.trace <+: n.device.sketch.trace := by
  induction moves generalizing m with
  | nil =>
    obtain rfl := Except.ok.inj hrun
    exact List.prefix_rfl
  | cons mv moves ih =>
    obtain ⟨u, hu, hrun⟩ := Run.foldlM_cons_ok.mp hrun
    exact (Move.trace_step h hu).trans (ih (h.step hu) hrun)

/-- A run that goes on leaves a fresh screen. -/
theorem Watched.Current.run {w : Watched Conn} (h : w.Current) {moves : List (Move Conn)}
    {m : Machine Conn} (hrun : moves.foldlM Machine.step w.machine = .ok m)
    (hfont : InFont m.device.sketch.trace) :
    ∃ v, moves.foldlM Watched.step w = .ok v ∧ v.machine = m ∧ v.Current := by
  induction moves generalizing w with
  | nil =>
    obtain rfl := Except.ok.inj hrun
    exact ⟨w, rfl, rfl, h⟩
  | cons mv moves ih =>
    obtain ⟨n, hn, hrun⟩ := Run.foldlM_cons_ok.mp hrun
    have htrace := (h.running.step hn).trace_run hrun
    obtain ⟨u, hu, rfl, hcurrent⟩ := h.step hn fun e he => hfont e (htrace.subset he)
    obtain ⟨v, hv, hend⟩ := ih hcurrent hrun
    exact ⟨v, Run.foldlM_cons_ok.mpr ⟨u, hu, hv⟩, hend⟩

/-- Behind a call of `updateTime` the minute is that of the clock. -/
theorem Machine.minute_of_updateTime {m n : Machine Conn} {moves : List (Move Conn)}
    (hrun : moves.foldlM Machine.step m = .ok n)
    (hlast : moves.getLast? = some (.task .updateTime)) :
    n.device.sketch.tm = n.world.rtc n.device.sketch.clock := by
  obtain ⟨before, rfl⟩ := List.getLast?_eq_some_iff.mp hlast
  rw [List.foldlM_append] at hrun
  obtain ⟨u, -, hrun⟩ := bind_eq_ok.mp hrun
  obtain ⟨v, hv, hrun⟩ := Run.foldlM_cons_ok.mp hrun
  obtain rfl := Except.ok.inj hrun
  obtain ⟨t, ht, hv⟩ := bind_eq_ok.mp hv
  obtain rfl := Except.ok.inj hv
  obtain ⟨fx, hstep, -⟩ := u.device.sketch.updateTime_eq u.world
  obtain rfl := Except.ok.inj (hstep.symm.trans ht)
  rfl

/-- In every run of the machine from a power-up on, whatever the clients send and however often
the power fails, the display draws all that is shown, and the last frame that it was sent is a
picture of a screen with the minute that the sketch has read last, which is that of the clock
behind each call of `updateTime`. While the lock's pin is LOW, this screen asks for a card. -/
theorem screen_follows (first world : World) {store : Store} (hs : store.Sound)
    (display : Display) {moves : List (Move Conn)} {m : Machine Conn}
    (hrun : (.powerCycle world :: moves).foldlM Machine.step (Machine.initial Conn first store) =
      .ok m)
    (hfont : InFont m.device.sketch.trace) :
    ∃ w, (.powerCycle world :: moves).foldlM Watched.step
        ⟨Machine.initial Conn first store, display⟩ = .ok w ∧ w.machine = m ∧
      ∃ tm lines, w.display.Shows (tm, lines) ∧ tm.minute = m.device.sketch.tm.minute ∧
        (moves.getLast? = some (.task .updateTime) →
          tm.minute = (m.world.rtc m.device.sketch.clock).minute) ∧
        (m.device.sketch.board.digital DOOR = false → lines = attach) := by
  obtain ⟨n, hn, hrest⟩ := Run.foldlM_cons_ok.mp hrun
  obtain ⟨u, hu, rfl, hcurrent⟩ := Watched.step_powerCycle
    (w := ⟨Machine.initial Conn first store, display⟩) (Machine.running_initial first hs) hn
  obtain ⟨w, hw, rfl, hend⟩ := hcurrent.run hrest hfont
  obtain ⟨⟨tm, lines⟩, hshows, hminute, hlocked⟩ := hend.shown
  refine ⟨w, Run.foldlM_cons_ok.mpr ⟨u, hu, hw⟩, rfl, tm, lines, hshows, hminute,
    fun hlast => ?_, fun hlow => hlocked ?_⟩
  · rw [← Machine.minute_of_updateTime hrest hlast]
    exact hminute
  · rcases hend.running.device.board with hboard | ⟨i, time, period, hboard⟩
    · exact hboard.state
    · exact absurd (hboard.high.symm.trans hlow) (by decide)

/-- A card is denied, and the clock is read. -/
theorem screen_follows_of_denied : ∃ (m : Machine Nat) (w : Watched Nat),
    [Move.powerCycle .still, .task (.serialEvent1 (0x02 :: (ascii "0C0029DA906F" ++ [0x03]))
      (.replicate 12 0)), .task .updateTime].foldlM Watched.step
        ⟨Machine.initial Nat .still Store.initial, ⟨SSD1306.blank 0, []⟩⟩ = .ok w ∧
    w.machine = m ∧ ∃ tm lines, w.display.Shows (tm, lines) ∧
      tm.minute = m.device.sketch.tm.minute ∧
      ([Move.task (.serialEvent1 (0x02 :: (ascii "0C0029DA906F" ++ [0x03])) (.replicate 12 0)),
        .task .updateTime].getLast? = some (.task .updateTime : Move Nat) →
          tm.minute = (m.world.rtc m.device.sketch.clock).minute) ∧
      (m.device.sketch.board.digital DOOR = false → lines = attach) := by
  have hrun : ([Move.powerCycle .still, .task (.serialEvent1 (0x02 :: (ascii "0C0029DA906F" ++
      [0x03])) (.replicate 12 0)), .task .updateTime].foldlM Machine.step
        (Machine.initial Nat .still Store.initial) >>= fun m =>
      .ok (decide (InFont m.device.sketch.trace))) = .ok true := by
    decide +kernel
  obtain ⟨m, hm, hfont⟩ := bind_eq_ok.mp hrun
  obtain ⟨w, hw⟩ := screen_follows .still .still Store.sound_initial ⟨SSD1306.blank 0, []⟩ hm
    (of_decide_eq_true (Except.ok.inj hfont))
  exact ⟨m, w, hw⟩

end SmartDoor
