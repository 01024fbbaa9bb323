import TinyOS.GuiRuns

set_option autoImplicit false

namespace TinyOS.Desktop
open Display Panes

variable {s : FbSize} {i : Input} {w w' : Window} {d d' d₁ d₂ : Desk} {mx my : ℤ}
  {events : List Event}

def vga : FbSize := ⟨640, 480, by decide, by decide⟩

theorem vga_roomy : vga.Roomy := ⟨by decide, by decide⟩

theorem vga_started : ∃ t, Started vga ⟨guiInit vga 0 bootGui, t⟩ := by
  obtain ⟨t, run, _⟩ := exec_run boot_inside (.init 640 480) trivial
  exact ⟨t, 0, [], single_run run, rfl⟩

def press : Input := ⟨150, 35, true, 0, 0, 0, 0, 0⟩

def pull : Input := ⟨190, 75, true, 0, 0, 0, 0, 1⟩

def zoom : Input := ⟨274, 36, true, 0, 0, 0, 0, 0⟩

def firstCall (i : Input) (t : Terminal) : Gui :=
  match guiUpdate vga i t (guiInit vga 0 bootGui) with
  | .ok r => r.1
  | .error _ => bootGui

theorem vga_press (t : Terminal) :
    Desk.step vga (.update press) ⟨guiInit vga 0 bootGui, t⟩ = .ok (some ⟨firstCall press t, t⟩) :=
  step_ok rfl rfl

theorem vga_zoom (t : Terminal) :
    Desk.step vga (.update zoom) ⟨guiInit vga 0 bootGui, t⟩ = .ok (some ⟨firstCall zoom t, t⟩) :=
  step_ok rfl rfl

/-- In every run the window is the pane that the calls make of it, in the rectangle that
belongs to the pane. -/
theorem window_is_pane (roomy : s.Roomy) (start : Started s d) (runs : Runs s d events d') :
    ∃ w, d'.gui.windows = [w] ∧ w.frame = shownFrame s w.maximized w.home ∧
      w.pane = (Pane.normal ((initFrame s).x, (initFrame s).y)).run (windowControl s)
        (paneEvents s false events) := by
  obtain ⟨w₀, h₀, pane₀, left₀⟩ := init_holds roomy start
  obtain ⟨w, h, pane, _⟩ := h₀.runs roomy runs
  refine ⟨w, h.windows, h.good.frame_eq, ?_⟩
  rw [pane, pane₀, left₀]

theorem window_is_pane_grabbed : ∃ d d', Started vga d ∧ Runs vga d [.update press] d' ∧
    ∃ w, d'.gui.windows = [w] ∧ w.frame = shownFrame vga w.maximized w.home ∧
      w.pane = (Pane.normal ((initFrame vga).x, (initFrame vga).y)).run (windowControl vga)
        (paneEvents vga false [.update press]) := by
  obtain ⟨t, start⟩ := vga_started
  have runs := Runs.snoc (.nil _) (vga_press t)
  exact ⟨_, _, start, runs, window_is_pane vga_roomy start runs⟩

theorem pane_home (w : Window) : w.pane.home = w.home := by
  rw [Window.pane]
  split_ifs <;> rfl

theorem pane_isHeld (h : w.Good s) : w.pane.isHeld = w.dragging := by
  cases drag : w.dragging with
  | false =>
    rw [Window.pane, drag]
    split_ifs <;> first | rfl | exact absurd ‹_› (by simp)
  | true =>
    obtain ⟨visible, small, _⟩ := h.drag drag
    rw [Window.pane, visible, small, drag]
    rfl

/-- All events of a call but the last one only show the pane. -/
theorem input_events (prevLeft : Bool) (i : Input) : ∃ shows, (∀ e ∈ shows, e = .show) ∧
    i.events s prevLeft = shows ++ [.pointer (i.mouseX, i.mouseY) (buttonOf prevLeft i.left)] := by
  refine ⟨_, fun e mem => ?_, rfl⟩
  rcases List.mem_append.mp mem with mem | mem <;> split_ifs at mem
  · exact List.mem_singleton.mp mem
  · exact absurd mem (by simp)
  · exact List.mem_singleton.mp mem
  · exact absurd mem (by simp)

theorem Desk.Holds.step_home (roomy : s.Roomy) (h : d.Holds s w) {e : Event}
    (go : d.step s e = .ok (some d')) (windows : d'.gui.windows = [w'])
    (loose : w'.dragging = false) : w'.home = w.home := by
  rcases h.step roomy e with ⟨p, stop⟩ | ⟨d₁, w₁, step, h₁, pane, _⟩
  · exact absurd (stop.symm.trans go) (by simp)
  obtain rfl := Option.some.inj (Except.ok.inj (step.symm.trans go))
  obtain rfl : w₁ = w' := List.singleton_inj.mp (h₁.windows.symm.trans windows)
  rw [← pane_home, ← pane_home w, pane]
  have held : (w.pane.run (windowControl s) (paneEvents s d.gui.prevLeft [e])).isHeld = false := by
    rw [← pane, pane_isHeld h₁.good, loose]
  cases e with
  | update i =>
    rw [paneEvents, paneEvents, List.append_nil] at held ⊢
    obtain ⟨shows, only, eq⟩ := input_events (s := s) d.gui.prevLeft i
    rw [eq, run_append] at held ⊢
    exact (home_react held).trans (home_shows shows only)
  | restore ticks => exact home_shows [.show] (by simp)
  | draw hz ticks => rfl
  | notify text => rfl
  | setBackground => rfl
  | output o => rfl

/-- However often the window is maximized, closed, minimized and shown again, without being
dragged it comes back to where it was. -/
theorem window_comes_back (roomy : s.Roomy) (start : Started s d)
    (before : Runs s d events d₁) {later : List Event} (after : Runs s d₁ later d₂)
    (windows : d₁.gui.windows = [w]) (windows' : d₂.gui.windows = [w'])
    (loose : ∀ first rest dₘ wₘ, later = first ++ rest → first ≠ [] → Runs s d₁ first dₘ →
      dₘ.gui.windows = [wₘ] → wₘ.dragging = false) :
    w'.home = w.home ∧ (w.maximized = false → w'.maximized = false → w'.frame = w.frame) := by
  obtain ⟨w₀, h₀, _, _⟩ := init_holds roomy start
  obtain ⟨w₁, h₁, _, _⟩ := h₀.runs roomy before
  obtain rfl : w₁ = w := List.singleton_inj.mp (h₁.windows.symm.trans windows)
  have home : w'.home = w₁.home := by
    induction after generalizing w' with
    | nil => rw [List.singleton_inj.mp (h₁.windows.symm.trans windows')]
    | snoc runs go ih =>
      rename_i dₘ d₃ init e
      obtain ⟨wₘ, hₘ, _, _⟩ := h₁.runs roomy runs
      have now := loose (init ++ [e]) [] _ _ (List.append_nil _).symm (by simp) (.snoc runs go)
        windows'
      rw [hₘ.step_home roomy go windows' now]
      refine ih hₘ.windows fun first rest dₙ wₙ eq some => loose first (rest ++ [e]) dₙ wₙ ?_ some
      rw [eq, List.append_assoc]
  obtain ⟨w₂, h₂, _, _⟩ := h₁.runs roomy after
  obtain rfl : w₂ = w' := List.singleton_inj.mp (h₂.windows.symm.trans windows')
  refine ⟨home, fun small small' => ?_⟩
  rw [h₂.good.frame_eq, h₁.good.frame_eq, home, small, small']

theorem window_comes_back_zoomed : ∃ d d' w w', Started vga d ∧
    Runs vga d [.update zoom] d' ∧ d.gui.windows = [w] ∧ d'.gui.windows = [w'] ∧
      w'.maximized = true ∧ w'.home = w.home ∧
        (w.maximized = false → w'.maximized = false → w'.frame = w.frame) := by
  obtain ⟨t, start⟩ := vga_started
  have runs := Runs.snoc (.nil _) (vga_zoom t)
  refine ⟨_, _, _, _, start, runs, rfl, rfl, rfl, ?_⟩
  refine window_comes_back vga_roomy start (.nil _) runs rfl rfl ?_
  intro first rest dₘ wₘ eq some go windows
  cases first with
  | nil => exact absurd rfl some
  | cons e first =>
    obtain ⟨rfl, none⟩ := List.cons.inj eq
    obtain ⟨rfl, rfl⟩ := List.append_eq_nil_iff.mp none.symm
    obtain ⟨d₀, start, step⟩ := Runs.last (show Runs _ _ ([] ++ [_]) _ from go)
    rw [start.empty] at step
    obtain rfl := Option.some.inj (Except.ok.inj (step.symm.trans (vga_zoom t)))
    obtain rfl := List.singleton_inj.mp (windows.symm.trans rfl)
    rfl

/-- The mouse at the last call of `gui_update`. -/
def lastMouse (pos : ℤ × ℤ) : List Event → ℤ × ℤ
  | [] => pos
  | .update i :: rest => lastMouse (i.mouseX, i.mouseY) rest
  | _ :: rest => lastMouse pos rest

theorem lastPos_paneEvents (pos : ℤ × ℤ) (prevLeft : Bool) (events : List Event) :
    lastPos pos (paneEvents s prevLeft events) = lastMouse pos events := by
  induction events generalizing pos prevLeft with
  | nil => rfl
  | cons e rest ih =>
    cases e with
    | update i =>
      obtain ⟨shows, only, eq⟩ := input_events (s := s) prevLeft i
      rw [paneEvents, eq, lastPos_append, lastPos_append, lastPos_shows _ _ only]
      exact ih _ _
    | restore ticks => exact ih _ _
    | draw hz ticks => exact ih _ _
    | notify text => exact ih _ _
    | setBackground => exact ih _ _
    | output o => exact ih _ _

theorem paneEvents_down (prevLeft : Bool) (events : List Event)
    (down : ∀ j, Event.update j ∈ events → j.left = true) :
    ∀ e ∈ paneEvents s prevLeft events, Down e := by
  induction events generalizing prevLeft with
  | nil => exact fun e mem => absurd mem (by simp [paneEvents])
  | cons e rest ih =>
    have later := fun prevLeft => ih prevLeft fun j mem => down j (List.mem_cons_of_mem _ mem)
    cases e with
    | update i =>
      obtain ⟨shows, only, eq⟩ := input_events (s := s) prevLeft i
      intro e mem
      rw [paneEvents, eq] at mem
      rcases List.mem_append.mp mem with mem | mem
      · rcases List.mem_append.mp mem with mem | mem
        · rw [only e mem]
          trivial
        · rw [List.mem_singleton.mp mem]
          change buttonOf prevLeft i.left ≠ .up
          rw [buttonOf, down i List.mem_cons_self]
          cases prevLeft <;> exact fun eq => absurd eq (by simp)
      · exact later _ e mem
    | restore ticks =>
      intro e mem
      rcases List.mem_cons.mp mem with rfl | mem
      · trivial
      · exact later _ e mem
    | draw hz ticks => exact later _
    | notify text => exact later _
    | setBackground => exact later _
    | output o => exact later _

/-- Grabbed at its title bar and with the button kept down, the window goes as far as the
pointer goes. -/
theorem window_follows_pointer (roomy : s.Roomy) (start : Started s d)
    (before : Runs s d events d₁) (windows : d₁.gui.windows = [w]) (visible : w.visible = true)
    (small : w.maximized = false) (up : d₁.gui.prevLeft = false) (left : i.left = true)
    (grip : frameControl s w.frame (i.mouseX, i.mouseY) = .grip) {later : List Event}
    (after : Runs s d₁ (.update i :: later) d₂) (down : ∀ j, Event.update j ∈ later → j.left = true) :
    ∃ w', d₂.gui.windows = [w'] ∧ w'.dragging = true ∧ w'.frame =
      ⟨w.x + ((lastMouse (i.mouseX, i.mouseY) later).1 - i.mouseX),
        w.y + ((lastMouse (i.mouseX, i.mouseY) later).2 - i.mouseY), w.width, w.height⟩ := by
  obtain ⟨w₀, h₀, _, _⟩ := init_holds roomy start
  obtain ⟨w₁, h₁, _, _⟩ := h₀.runs roomy before
  obtain rfl : w₁ = w := List.singleton_inj.mp (h₁.windows.symm.trans windows)
  obtain ⟨w', h', pane, _⟩ := h₁.runs roomy after
  have loose : w₁.dragging = false := by
    cases drag : w₁.dragging with
    | false => rfl
    | true => exact absurd ((h₁.held drag).symm.trans up) (by simp)
  have home : w₁.home = (w₁.x, w₁.y) := by
    rw [Window.home, small]
    rfl
  have normal : w₁.pane = .normal w₁.home := by
    rw [Window.pane_shown visible loose, small]
    rfl
  obtain ⟨shows, only, eq⟩ := input_events (s := s) d₁.gui.prevLeft i
  have shown : (Pane.normal w₁.home).run (windowControl s) shows = .normal w₁.home := by
    clear eq
    induction shows with
    | nil => rfl
    | cons e rest ih =>
      rw [only e List.mem_cons_self]
      exact ih fun e mem => only e (List.mem_cons_of_mem _ mem)
  have press : buttonOf d₁.gui.prevLeft i.left = .press := by
    rw [up, left]
    rfl
  have here : windowControl s false w₁.home (i.mouseX, i.mouseY) = .grip := by
    rw [windowControl, ← small, ← h₁.good.frame_eq]
    exact grip
  rw [normal, paneEvents, eq, press, List.append_assoc, run_append, shown] at pane
  change w'.pane = (Pane.normal w₁.home).run (windowControl s)
    (.pointer (i.mouseX, i.mouseY) .press :: paneEvents s i.left later) at pane
  rw [drag_run _ _ here _ (paneEvents_down _ _ down), lastPos_paneEvents] at pane
  have held : w'.dragging = true := by
    rw [← pane_isHeld h'.good, pane]
    rfl
  obtain ⟨_, small', _⟩ := h'.good.drag held
  have home' : w'.home = w₁.home + (lastMouse (i.mouseX, i.mouseY) later - (i.mouseX, i.mouseY)) := by
    rw [← pane_home, pane]
    rfl
  refine ⟨w', h'.windows, held, ?_⟩
  obtain ⟨width, height⟩ := h₁.good.normal small
  rw [h'.good.frame_eq, small', home', home, width, height]
  rfl

theorem window_follows_pointer_pulled : ∃ d d' w, Started vga d ∧
    d.gui.windows = [w] ∧ Runs vga d [.update press, .update pull] d' ∧
      ∃ w', d'.gui.windows = [w'] ∧ w'.dragging = true ∧ w'.frame =
        ⟨w.x + ((lastMouse (press.mouseX, press.mouseY) [.update pull]).1 - press.mouseX),
          w.y + ((lastMouse (press.mouseX, press.mouseY) [.update pull]).2 - press.mouseY),
          w.width, w.height⟩ := by
  obtain ⟨t, start⟩ := vga_started
  have runs := Runs.snoc (Runs.snoc (.nil _) (vga_press t)) (step_ok (e := .update pull) rfl rfl)
  refine ⟨_, _, _, start, rfl, runs, ?_⟩
  refine window_follows_pointer vga_roomy start (.nil _) rfl rfl rfl rfl rfl rfl runs ?_
  intro j mem
  obtain rfl := Event.update.inj (List.mem_singleton.mp mem)
  rfl

theorem drawn_clean {hz : UInt32} {ticks : UInt64}
    (go : d.step s (.draw hz ticks) = .ok (some d')) : d'.gui.guiDirty = false := by
  obtain ⟨r, _, rfl⟩ := Option.map_eq_some_iff.mp (Except.ok.inj go)
  change (guiDraw s hz ticks d.gui).1.guiDirty = false
  rw [guiDraw]
  split_ifs with dirty
  · rfl
  · exact eq_false_of_ne_true dirty

/-- No call of a run leaves `screen_buf`, and after each drawing the terminal's area is the
inside of its window. -/
theorem terminal_in_window (roomy : s.Roomy) (start : Started s d) (runs : Runs s d events d') :
    (∀ e, d'.step s e ≠ .ok none) ∧ ∀ hz ticks, ∃ d'' w,
      d'.step s (.draw hz ticks) = .ok (some d'') ∧ d''.gui.windows = [w] ∧
        (w.visible = true → d''.terminal.viewport = terminalContentRect s w.frame) := by
  obtain ⟨w₀, h₀, _, _⟩ := init_holds roomy start
  obtain ⟨w, h, _, _⟩ := h₀.runs roomy runs
  refine ⟨fun e none => ?_, fun hz ticks => ?_⟩
  · rcases h.step roomy e with ⟨p, stop⟩ | ⟨_, _, step, _⟩
    · exact absurd (stop.symm.trans none) (by simp)
    · exact absurd (step.symm.trans none) (by simp)
  · rcases h.step roomy (.draw hz ticks) with ⟨p, stop⟩ | ⟨d'', w', step, h', _⟩
    · obtain ⟨r, go, stop⟩ : ∃ r, d'.react s (.draw hz ticks) = .ok r ∧
          d'.step s (.draw hz ticks) = .error p := ⟨_, rfl, stop⟩
      rw [Desk.step, go] at stop
      exact absurd stop (by simp [bind, Except.bind, pure, Except.pure])
    · refine ⟨d'', w', step, h'.windows, fun visible => ?_⟩
      obtain ⟨frame, seen⟩ := h'.settled (drawn_clean step)
      rw [h'.drawn (seen.trans visible), frame]

theorem terminal_in_window_grabbed : ∃ d d', Started vga d ∧ Runs vga d [.update press] d' ∧
    (∀ e, d'.step vga e ≠ .ok none) ∧ ∀ hz ticks, ∃ d'' w,
      d'.step vga (.draw hz ticks) = .ok (some d'') ∧ d''.gui.windows = [w] ∧
        (w.visible = true → d''.terminal.viewport = terminalContentRect vga w.frame) := by
  obtain ⟨t, start⟩ := vga_started
  have runs := Runs.snoc (.nil _) (vga_press t)
  exact ⟨_, _, start, runs, terminal_in_window vga_roomy start runs⟩

/-- The hit tests name an item just when the pointer is on it, and no two items overlap. -/
theorem hit_tests_exact (s : FbSize) (mx my : ℤ) (k : ℕ) :
    (sidebarNavHitTest s mx my = k ↔ k < navItemCount ∧ (navRowRect s k).Has mx my) ∧
    (dockHitTest s mx my = k ↔ k < dockItemCount ∧ (recomputeLayout s).dock.Has mx my ∧
      (dockItemRect s (recomputeLayout s).dock k).Has mx my) ∧
    (quickHitTest s mx my = k ↔ k < quickRows*quickCols ∧ (recomputeLayout s).quick.Has mx my ∧
      (quickTileRect s (recomputeLayout s).quick k).Has mx my) :=
  ⟨sidebarNavHitTest_eq_iff k, dockHitTest_eq_iff k, quickHitTest_eq_iff k⟩

/-- The power buttons, on the screen and away from the items that show the terminal. -/
structure PowerApart (s : FbSize) (b : PowerButtons) : Prop where
  restart : s.Shows b.restart
  off : s.Shows b.off
  apart : ∀ mx my, b.restart.Has mx my → ¬b.off.Has mx my
  nav : ∀ mx my, b.restart.Has mx my ∨ b.off.Has mx my → sidebarNavHitTest s mx my ≠ 0
  dock : ∀ mx my, b.restart.Has mx my ∨ b.off.Has mx my → dockHitTest s mx my ≠ 0

theorem power_apart (roomy : s.Roomy) :
    PowerApart s (powerButtonRects s (recomputeLayout s).sidebar) := by
  have wide := roomy.wide
  have high := roomy.high
  have scale := uiScalePm_bounds (s := s) (by omega) (by omega)
  have bounds (b : ℤ) (pos : 0 ≤ b) := uiScaled_bounds (s := s) (by omega) (by omega) pos
  have mono (a b : ℤ) (pos : 0 ≤ a) (le : a ≤ b) :=
    uiScaled_mono (s := s) (by omega) (by omega) pos le
  have across (k : ℤ) (pos : 0 ≤ k) : perMille s.width k = s.width*k/1000 :=
    perMille_eq (by omega) pos
  have down (k : ℤ) (pos : 0 ≤ k) : perMille s.height k = s.height*k/1000 :=
    perMille_eq (by omega) pos
  have sidebar : (recomputeLayout s).sidebar = ⟨s.width*10/1000, s.height*40/1000,
      s.width*150/1000, s.height - s.height*40/1000 - s.height*50/1000⟩ := by
    simp only [recomputeLayout, across, down, Nat.ofNat_nonneg]
  have pad := bounds 16 (by omega)
  have pad' := uiScaled_pos (s := s) 16
  have inner := bounds 24 (by omega)
  have step := mono 12 16 (by omega) (by omega)
  have step' := mono 12 24 (by omega) (by omega)
  have step'' := uiScaled_pos (s := s) 12
  have tall := bounds 36 (by omega)
  have tall' := uiScaled_pos (s := s) 36
  have foot := bounds 14 (by omega)
  have foot' := uiScaled_pos (s := s) 14
  have start := bounds 90 (by omega)
  have skip := uiScaled_pos (s := s) 6
  have third : (s.width*150/1000 - uiScaled s 16*2 - uiScaled s 24).tdiv 3 =
      (s.width*150/1000 - uiScaled s 16*2 - uiScaled s 24)/3 :=
    Int.tdiv_eq_ediv_of_nonneg (by omega)
  have half : (s.width - s.width*400/1000).tdiv 2 = (s.width - s.width*400/1000)/2 :=
    Int.tdiv_eq_ediv_of_nonneg (by omega)
  simp only [sidebar, powerButtonRects, third]
  constructor
  · exact shows_iff.mpr (by omega)
  · exact shows_iff.mpr (by omega)
  · intro mx my restart off
    rw [has_iff] at restart off
    omega
  · intro mx my on hit
    have row := ((sidebarNavHitTest_eq_iff 0).mp hit).2
    simp only [navRowRect, sidebar, navStartY, navItemH, has_iff] at row
    rw [has_iff, has_iff] at on
    omega
  · intro mx my on hit
    have dock := ((dockHitTest_eq_iff 0).mp hit).2.1
    simp only [recomputeLayout, uiPmBottomCenter, across, down, half, Nat.ofNat_nonneg,
      has_iff] at dock
    rw [has_iff, has_iff] at on
    omega

/-- The power goes with a press of the left button on one of the two power buttons, and these
are apart from each other and from the items that show the terminal. -/
theorem power_by_button (roomy : s.Roomy) (t : Terminal) (g : Gui) (p : Power) :
    let b := powerButtonRects s (recomputeLayout s).sidebar
    PowerApart s b ∧ (guiUpdate s i t g = .error p ↔ g.prevLeft = false ∧ i.left = true ∧
      match p with
      | .reboot => b.restart.Has i.mouseX i.mouseY
      | .shutdown => b.off.Has i.mouseX i.mouseY) := by
  have apart := power_apart roomy
  refine ⟨apart, ?_⟩
  have clicked (g : Gui) : g.clicked s i = .error p ↔ match p with
      | .reboot => (powerButtonRects s (recomputeLayout s).sidebar).restart.Has i.mouseX i.mouseY
      | .shutdown => (powerButtonRects s (recomputeLayout s).sidebar).off.Has i.mouseX i.mouseY := by
    rw [Gui.clicked]
    by_cases restart : pointInRect i.mouseX i.mouseY
        (powerButtonRects s (recomputeLayout s).sidebar).restart = true
    · have on := pointInRect_iff.mp restart
      rw [if_pos restart]
      cases p with
      | reboot => exact iff_of_true rfl on
      | shutdown => exact iff_of_false (by simp) (apart.apart _ _ on)
    have miss := mt pointInRect_iff.mpr restart
    rw [if_neg restart]
    by_cases off : pointInRect i.mouseX i.mouseY
        (powerButtonRects s (recomputeLayout s).sidebar).off = true
    · rw [if_pos off]
      cases p with
      | reboot => exact iff_of_false (by simp) miss
      | shutdown => exact iff_of_true rfl (pointInRect_iff.mp off)
    · rw [if_neg off]
      cases p with
      | reboot => exact iff_of_false (by simp) miss
      | shutdown => exact iff_of_false (by simp) (mt pointInRect_iff.mpr off)
  rw [guiUpdate]
  cases click : !g.prevLeft && i.left with
  | false =>
    refine iff_of_false (by simp [bind, Except.bind, pure, Except.pure]) fun h => ?_
    rw [h.1, h.2.1] at click
    exact absurd click (by simp)
  | true =>
    obtain ⟨up, left⟩ : g.prevLeft = false ∧ i.left = true := by simpa using click
    rw [← clicked (g.watched s i), and_iff_right up, and_iff_right left, if_pos rfl]
    cases (g.watched s i).clicked s i with
    | error q => simp [bind, Except.bind]
    | ok g' => simp [bind, Except.bind, pure, Except.pure]

def restart : Input := ⟨20, 430, true, 0, 0, 0, 0, 0⟩

theorem power_by_button_restart : PowerApart vga (powerButtonRects vga (recomputeLayout vga).sidebar) ∧
    guiUpdate vga restart bootTerminal (guiInit vga 0 bootGui) = .error .reboot := by
  obtain ⟨apart, button⟩ :=
    power_by_button (i := restart) vga_roomy bootTerminal (guiInit vga 0 bootGui) .reboot
  refine ⟨apart, button.mpr ⟨rfl, rfl, ?_⟩⟩
  exact pointInRect_iff.mp rfl

end TinyOS.Desktop
