import TinyOS.GuiPane

set_option autoImplicit false

namespace TinyOS.Desktop
open Display Panes PartialRuns

variable {s : FbSize} {i : Input} {w w' : Window} {d d' : Desk} {g : Gui} {t : Terminal}

/-- From statics with the window `w` to ones with `w'`, with such events for the pane. -/
structure Leads (s : FbSize) (g : Gui) (w : Window) (events : List (Panes.Event (ℤ × ℤ)))
    (g' : Gui) (w' : Window) : Prop where
  windows : g'.windows = [w']
  terminal : g'.terminalWindow = some 0
  good : w'.Good s
  pane : w'.pane = w.pane.run (windowControl s) events
  prev : w'.prevFrame = w.prevFrame ∧ w'.prevVisible = w.prevVisible
  clean : g'.guiDirty = false → g.guiDirty = false ∧ w'.frame = w.frame ∧ w'.visible = w.visible

theorem Leads.trans {g' g'' : Gui} {w'' : Window} {first rest : List (Panes.Event (ℤ × ℤ))}
    (h : Leads s g w first g' w') (h' : Leads s g' w' rest g'' w'') :
    Leads s g w (first ++ rest) g'' w'' where
  windows := h'.windows
  terminal := h'.terminal
  good := h'.good
  pane := by rw [h'.pane, h.pane, run_append]
  prev := ⟨h'.prev.1.trans h.prev.1, h'.prev.2.trans h.prev.2⟩
  clean := fun clean => by
    obtain ⟨clean, frame, visible⟩ := h'.clean clean
    obtain ⟨clean, frame', visible'⟩ := h.clean clean
    exact ⟨clean, frame.trans frame', visible.trans visible'⟩

theorem watched_keeps (g : Gui) : (g.watched s i).windows = g.windows ∧
    (g.watched s i).terminalWindow = g.terminalWindow ∧
      ((g.watched s i).guiDirty = false → g.guiDirty = false) := by
  rw [Gui.watched]
  dsimp only
  split_ifs <;> simp +contextual

theorem Desk.Holds.leads (h : d.Holds s w) : Leads s d.gui w [] d.gui w :=
  ⟨h.windows, h.terminal, h.good, rfl, ⟨rfl, rfl⟩, fun clean => ⟨clean, rfl, rfl⟩⟩

theorem Leads.watched {events : List (Panes.Event (ℤ × ℤ))} (h : Leads s d.gui w events g w') :
    Leads s d.gui w events (g.watched s i) w' := by
  obtain ⟨windows, terminal, clean⟩ := watched_keeps (s := s) (i := i) g
  exact ⟨windows.trans h.windows, terminal.trans h.terminal, h.good, h.pane, h.prev,
    fun now => h.clean (clean now)⟩

theorem Leads.restore {events : List (Panes.Event (ℤ × ℤ))} (h : Leads s d.gui w events g w')
    (ticks : UInt64) : Leads s d.gui w (events ++ [.show]) (guiRestoreTerminal ticks g)
      (w'.restored ticks) := by
  rw [guiRestoreTerminal, h.terminal]
  dsimp only
  refine ⟨?_, rfl, h.good.restored ticks, ?_, h.prev, fun clean => absurd clean (by simp)⟩
  · rw [h.windows]
    rfl
  · rw [restored_pane h.good, h.pane, run_append]
    rfl

theorem Leads.restore_if {events : List (Panes.Event (ℤ × ℤ))} (h : Leads s d.gui w events g w')
    (ticks : UInt64) (c : Prop) [Decidable c] :
    ∃ w'', Leads s d.gui w (events ++ if decide c then [.show] else [])
      (if c then guiRestoreTerminal ticks g else g) w'' ∧ w''.dragging = w'.dragging := by
  by_cases hit : c
  · simp only [hit, decide_true, if_true]
    exact ⟨_, h.restore ticks, rfl⟩
  · simp only [hit, decide_false, if_false, List.append_nil, Bool.false_eq_true]
    exact ⟨_, h, rfl⟩

theorem Leads.clicked {events : List (Panes.Event (ℤ × ℤ))} {g' : Gui}
    (h : Leads s d.gui w events g w') (go : g.clicked s i = .ok g') : ∃ w'', Leads s d.gui w
      (events ++ (if decide (sidebarNavHitTest s i.mouseX i.mouseY = 0) then [.show] else []) ++
        if decide (dockHitTest s i.mouseX i.mouseY = 0) then [.show] else []) g' w'' ∧
      w''.dragging = w'.dragging := by
  obtain ⟨w₁, nav, drag⟩ := h.restore_if i.ticks (sidebarNavHitTest s i.mouseX i.mouseY = 0)
  obtain ⟨w₂, dock, drag'⟩ := nav.restore_if i.ticks (dockHitTest s i.mouseX i.mouseY = 0)
  rw [Gui.clicked] at go
  by_cases restart : pointInRect i.mouseX i.mouseY
      (powerButtonRects s (recomputeLayout s).sidebar).restart = true
  · rw [if_pos restart] at go
    exact absurd go (by simp)
  by_cases off : pointInRect i.mouseX i.mouseY
      (powerButtonRects s (recomputeLayout s).sidebar).off = true
  · rw [if_neg restart, if_pos off] at go
    exact absurd go (by simp)
  rw [if_neg restart, if_neg off] at go
  obtain rfl := Except.ok.inj go
  exact ⟨w₂, dock, drag'.trans drag⟩

theorem Leads.update {events : List (Panes.Event (ℤ × ℤ))} (h : Leads s d.gui w events g w')
    (prevLeft : Bool) (held : w'.dragging = true → prevLeft = true) :
    let r := updateWindows s i (!prevLeft && i.left) t g.windows.reverse
    ∃ w'', Leads s d.gui w
        (events ++ [.pointer (i.mouseX, i.mouseY) (buttonOf prevLeft i.left)])
        { g with windows := r.1.reverse, guiDirty := g.guiDirty || r.2.1, prevLeft := i.left } w'' ∧
      (w''.dragging = true → i.left = true) ∧ ∀ op ∈ r.2.2, ∃ lines, op = .scroll lines := by
  have react (w'' : Window) (pane : w''.pane = w'.pane.react (windowControl s)
      (.pointer (i.mouseX, i.mouseY) (buttonOf prevLeft i.left))) : w''.pane =
        w.pane.run (windowControl s)
          (events ++ [.pointer (i.mouseX, i.mouseY) (buttonOf prevLeft i.left)]) := by
    rw [pane, run_append, ← h.pane]
    rfl
  rw [h.windows, List.reverse_singleton, updateWindows]
  by_cases visible : w'.visible = true
  · rw [if_neg (by simp [visible])]
    obtain ⟨frame, shown⟩ := update_prev (s := s) (i := i) (w := w') (t := t) (!prevLeft && i.left)
    refine ⟨(w'.update s i (!prevLeft && i.left) t).1, ⟨rfl, h.terminal, h.good.update visible _,
      react _ (update_pane h.good visible prevLeft held), ⟨frame.trans h.prev.1,
        shown.trans h.prev.2⟩, fun clean => ?_⟩, fun drag => ?_, fun op mem => ?_⟩
    · obtain ⟨old, new⟩ := Bool.or_eq_false_iff.mp clean
      obtain ⟨dirty, frame, visible⟩ := h.clean old
      obtain ⟨frame', visible'⟩ := update_clean new
      exact ⟨dirty, frame'.trans frame, visible'.trans visible⟩
    · change ((w'.clicked s i (!prevLeft && i.left)).1.dragged i).1.dragging = true at drag
      rw [dragged_eq] at drag
      split_ifs at drag with both
      · exact (Bool.and_eq_true_iff.mp both).1
    · have mem : op ∈ Window.scrolls i t
          ((w'.clicked s i (!prevLeft && i.left)).1.dragged i).1 := mem
      rw [Window.scrolls] at mem
      split_ifs at mem
      · exact ⟨i.scroll, List.mem_singleton.mp mem⟩
      · exact absurd mem (by simp)
  · rw [if_pos (by simp [visible])]
    refine ⟨w', ⟨rfl, h.terminal, h.good, react _ (hidden_pointer visible _ _).symm, h.prev,
      fun clean => h.clean (by simpa [updateWindows] using clean)⟩, fun drag => ?_, fun op mem => ?_⟩
    · exact absurd (h.good.drag drag).1 visible
    · exact absurd mem (by simp [updateWindows])

theorem Desk.Holds.updated (h : d.Holds s w) {ops : List TerminalOp}
    (go : guiUpdate s i d.terminal d.gui = .ok (g, ops)) :
    ∃ w', Leads s d.gui w (i.events s d.gui.prevLeft) g w' ∧ g.prevLeft = i.left ∧
      (w'.dragging = true → i.left = true) ∧ ∀ op ∈ ops, ∃ lines, op = .scroll lines := by
  have watched := h.leads.watched (i := i)
  rw [guiUpdate] at go
  cases click : !d.gui.prevLeft && i.left with
  | false =>
    obtain ⟨w', leads, drag, scrolls⟩ :=
      watched.update (i := i) (t := d.terminal) d.gui.prevLeft h.held
    rw [click] at go leads scrolls
    obtain ⟨rfl, rfl⟩ := Prod.mk.inj (Except.ok.inj go)
    refine ⟨w', ?_, rfl, drag, scrolls⟩
    rw [Input.events, click]
    exact leads
  | true =>
    rw [click] at go
    obtain ⟨g₁, first, go⟩ : ∃ g₁, (d.gui.watched s i).clicked s i = .ok g₁ ∧
        (.ok ({ g₁ with
            windows := (updateWindows s i true d.terminal g₁.windows.reverse).1.reverse
            guiDirty := g₁.guiDirty ||
              (updateWindows s i true d.terminal g₁.windows.reverse).2.1
            prevLeft := i.left }, (updateWindows s i true d.terminal g₁.windows.reverse).2.2) :
          Except Power (Gui × List TerminalOp)) = .ok (g, ops) := by
      cases first : (d.gui.watched s i).clicked s i with
      | error p =>
        rw [if_pos rfl, first] at go
        exact absurd go (by simp [bind, Except.bind])
      | ok g₁ =>
        rw [if_pos rfl, first] at go
        exact ⟨g₁, rfl, go⟩
    obtain ⟨w₁, clicked, same⟩ := watched.clicked first
    obtain ⟨w', leads, drag, scrolls⟩ := clicked.update (i := i) (t := d.terminal) d.gui.prevLeft
      (fun drag => h.held (same ▸ drag))
    rw [click] at leads scrolls
    obtain ⟨rfl, rfl⟩ := Prod.mk.inj (Except.ok.inj go)
    refine ⟨w', ?_, rfl, drag, scrolls⟩
    rw [Input.events, click, Bool.true_and, Bool.true_and]
    exact leads

theorem content_sized (roomy : s.Roomy) (h : w.Good s) :
    0 ≤ (terminalContentRect s w.frame).w ∧ 0 ≤ (terminalContentRect s w.frame).h := by
  have wide := roomy.wide
  have high := roomy.high
  have scale := uiScalePm_bounds (s := s) (by omega) (by omega)
  have bounds (b : ℤ) (pos : 0 ≤ b) := uiScaled_bounds (s := s) (by omega) (by omega) pos
  have margin := bounds 10 (by omega)
  have title := bounds 30 (by omega)
  have gap := bounds 14 (by omega)
  have column := bounds 230 (by omega)
  have across (k : ℤ) (pos : 0 ≤ k) : perMille s.width k = s.width*k/1000 :=
    perMille_eq (by omega) pos
  have down (k : ℤ) (pos : 0 ≤ k) : perMille s.height k = s.height*k/1000 :=
    perMille_eq (by omega) pos
  rw [h.frame_eq, shownFrame]
  cases w.maximized with
  | true =>
    simp only [if_true, terminalContentRect, maximizedFrame, recomputeLayout, uiPmBottomCenter,
      titlebarHeight, across, down, Nat.ofNat_nonneg]
    omega
  | false =>
    simp only [if_false, terminalContentRect, initFrame, titlebarHeight, across, down,
      Nat.ofNat_nonneg, Bool.false_eq_true]
    omega

theorem exec_framed (h : t.Framed) {op : TerminalOp} (sized : op.Sized) :
    ∃ t', op.exec.run t = some ((), t') ∧ t'.Framed ∧ t'.viewport = (op.next t).viewport := by
  obtain ⟨t', run, draws⟩ := exec_run h.toInside op (h.safe op)
  have next := h.next op sized
  refine ⟨t', run, ?_, ?_⟩
  · rw [draws.drew]
    exact ⟨⟨next.row, next.col, next.top, next.cols⟩, next.left, next.wide, next.high,
      next.cols_eq, next.rows_eq⟩
  · rw [draws.drew]
    rfl

theorem single_run {op : TerminalOp} {t' : Terminal} (run : op.exec.run t = some ((), t')) :
    (([op] : List TerminalOp).forM TerminalOp.exec).run t = some ((), t') := by
  change (op.exec.run t).bind (fun p => some ((), p.2)) = _
  rw [run]
  rfl

theorem ops_framed {ops : List TerminalOp} (h : t.Framed) (sized : ∀ op ∈ ops, op.Sized)
    (still : ∀ op ∈ ops, ∀ t : Terminal, (op.next t).viewport = t.viewport) :
    ∃ t', (ops.forM TerminalOp.exec).run t = some ((), t') ∧ t'.Framed ∧
      t'.viewport = t.viewport := by
  induction ops generalizing t with
  | nil => exact ⟨t, rfl, h, rfl⟩
  | cons op rest ih =>
    obtain ⟨t₁, run, framed, viewport⟩ := exec_framed h (sized op List.mem_cons_self)
    obtain ⟨t', runs, framed', viewport'⟩ := ih framed
      (fun op mem => sized op (List.mem_cons_of_mem _ mem))
      (fun op mem => still op (List.mem_cons_of_mem _ mem))
    refine ⟨t', ?_, framed', ?_⟩
    · change ((op.exec).run t).bind (fun p => (rest.forM TerminalOp.exec).run p.2) = _
      rw [run]
      exact runs
    · rw [viewport', viewport, still op List.mem_cons_self]

theorem output_still (o : Output) (t : Terminal) : (o.op.next t).viewport = t.viewport := by
  cases o with
  | putchar c => exact (typed_area t c).viewport
  | _ => rfl

theorem output_sized (o : Output) : o.op.Sized := by
  cases o <;> trivial

/-- The turn of the window in a drawing leaves it settled, and the terminal in it. -/
theorem drawn_terminal (roomy : s.Roomy) (h : w.Good s) (first : Bool) (hz : UInt32)
    (ticks : UInt64) (framed : t.Framed)
    (drawn : w.prevVisible = true → t.viewport = terminalContentRect s w.prevFrame) :
    ∃ t', ((w.drawn s first hz ticks).2.forM TerminalOp.exec).run t = some ((), t') ∧ t'.Framed ∧
      (w.visible = true → t'.viewport = terminalContentRect s w.frame) := by
  obtain ⟨wide, high⟩ := content_sized roomy h
  rw [Window.drawn]
  dsimp only
  have single (op : TerminalOp) (sized : op.Sized)
      (there : (op.next t).viewport = terminalContentRect s w.frame) :
      ∃ t', (([op] : List TerminalOp).forM TerminalOp.exec).run t = some ((), t') ∧ t'.Framed ∧
        (w.visible = true → t'.viewport = terminalContentRect s w.frame) := by
    obtain ⟨t', run, framed', viewport⟩ := exec_framed framed sized
    exact ⟨t', single_run run, framed', fun _ => viewport.trans there⟩
  by_cases visible : w.visible = true
  · rw [if_pos ⟨visible, rfl⟩]
    by_cases fresh : first ∨ !w.prevVisible ∨ w.prevW ≠ w.width ∨ w.prevH ≠ w.height
    · rw [if_pos fresh]
      exact single _ ⟨wide, high⟩ rfl
    · rw [if_neg fresh]
      rw [not_or, not_or, not_or, not_not, not_not] at fresh
      obtain ⟨_, seen, width, height⟩ := fresh
      have before := drawn (by simpa using seen)
      refine single _ trivial ?_
      have size : t.width = (terminalContentRect s w.frame).w ∧
          t.height = (terminalContentRect s w.frame).h := by
        have w_eq : t.width = (terminalContentRect s w.prevFrame).w := congrArg FbRect.w before
        have h_eq : t.height = (terminalContentRect s w.prevFrame).h := congrArg FbRect.h before
        rw [w_eq, h_eq]
        simp only [terminalContentRect, Window.prevFrame, Window.frame, width, height, and_self]
      change (⟨_, _, t.width, t.height⟩ : FbRect) = _
      rw [size.1, size.2]
      rfl
  · rw [if_neg fun both => visible both.1]
    exact ⟨t, rfl, framed, fun now => absurd now visible⟩

theorem Desk.Holds.of_leads {events : List (Panes.Event (ℤ × ℤ))} (h : d.Holds s w)
    (leads : Leads s d.gui w events g w') (held : w'.dragging = true → g.prevLeft = true)
    (framed : t.Framed) (viewport : t.viewport = d.terminal.viewport) :
    Desk.Holds s ⟨g, t⟩ w' where
  windows := leads.windows
  terminal := leads.terminal
  good := leads.good
  held := held
  framed := framed
  drawn := fun seen => by
    rw [leads.prev.2] at seen
    rw [leads.prev.1]
    exact viewport.trans (h.drawn seen)
  settled := fun clean => by
    obtain ⟨clean, frame, visible⟩ := leads.clean clean
    obtain ⟨prevFrame, prevVisible⟩ := h.settled clean
    exact ⟨leads.prev.1.trans (prevFrame.trans frame.symm),
      leads.prev.2.trans (prevVisible.trans visible.symm)⟩

theorem step_ok {e : Event} {ops : List TerminalOp} (go : d.react s e = .ok (g, ops))
    (run : (ops.forM TerminalOp.exec).run d.terminal = some ((), t)) :
    d.step s e = .ok (some ⟨g, t⟩) := by
  rw [Desk.step, go]
  change Except.ok (((ops.forM TerminalOp.exec).run d.terminal).map fun r => Desk.mk g r.2) = _
  rw [run]
  rfl

/-- What one call does: it stops the machine, or it is done without an access outside of
`screen_buf` and keeps the invariants. -/
theorem Desk.Holds.step (roomy : s.Roomy) (h : d.Holds s w) (e : Event) :
    (∃ p, d.step s e = .error p) ∨ ∃ d' w', d.step s e = .ok (some d') ∧ d'.Holds s w' ∧
      w'.pane = w.pane.run (windowControl s) (paneEvents s d.gui.prevLeft [e]) ∧
      d'.gui.prevLeft = lastLeft d.gui.prevLeft [e] := by
  cases e with
  | update i =>
    cases go : guiUpdate s i d.terminal d.gui with
    | error p =>
      left
      refine ⟨p, ?_⟩
      rw [Desk.step, Desk.react, go]
      rfl
    | ok r =>
      right
      obtain ⟨g, ops⟩ := r
      obtain ⟨w', leads, left, held, scrolls⟩ := h.updated go
      obtain ⟨t, run, framed, viewport⟩ := ops_framed h.framed
        (fun op mem => by
          obtain ⟨lines, rfl⟩ := scrolls op mem
          trivial)
        (fun op mem t => by
          obtain ⟨lines, rfl⟩ := scrolls op mem
          rfl)
      refine ⟨_, w', step_ok go run, h.of_leads leads (fun drag => left.trans (held drag)) framed
        viewport, ?_, left⟩
      rw [leads.pane, paneEvents, paneEvents, List.append_nil]
  | draw hz ticks =>
    right
    cases dirty : d.gui.guiDirty with
    | false =>
      refine ⟨d, w, @step_ok _ _ _ _ _ [] ?_ rfl, h, rfl, rfl⟩
      rw [Desk.react, guiDraw, if_neg (by simp [dirty])]
    | true =>
      obtain ⟨t, run, framed, viewport⟩ :=
        drawn_terminal roomy h.good d.gui.firstDraw hz ticks h.framed h.drawn
      have react : d.react s (.draw hz ticks) = .ok ({ d.gui with
          guiDirty := false
          firstDraw := false
          windows := [(w.drawn s d.gui.firstDraw hz ticks).1] },
          (w.drawn s d.gui.firstDraw hz ticks).2) := by
        rw [Desk.react, guiDraw, if_pos dirty, h.windows]
        simp
      refine ⟨_, (w.drawn s d.gui.firstDraw hz ticks).1, step_ok react run, ?_, rfl, rfl⟩
      exact ⟨rfl, h.terminal, ⟨h.good.used, h.good.normal, h.good.full, h.good.drag⟩, h.held,
        framed, viewport, fun _ => ⟨rfl, rfl⟩⟩
  | restore ticks =>
    right
    exact ⟨_, _, step_ok rfl rfl, h.of_leads (h.leads.restore ticks) (by
      rw [guiRestoreTerminal, h.terminal]
      exact h.held) h.framed rfl, (h.leads.restore ticks).pane, by
      rw [guiRestoreTerminal, h.terminal]
      rfl⟩
  | notify text =>
    right
    refine ⟨_, w, step_ok rfl rfl, @Desk.Holds.of_leads _ _ _ _ _ _ [] h ⟨h.windows, h.terminal, h.good, rfl,
      ⟨rfl, rfl⟩, fun clean => absurd clean (by simp [guiNotify])⟩ h.held h.framed rfl, rfl, rfl⟩
  | setBackground =>
    right
    refine ⟨_, w, step_ok rfl rfl, @Desk.Holds.of_leads _ _ _ _ _ _ [] h ⟨h.windows, h.terminal, h.good, rfl,
      ⟨rfl, rfl⟩, fun clean => absurd clean (by simp)⟩ h.held h.framed rfl, rfl, rfl⟩
  | output o =>
    right
    obtain ⟨t, run, framed, viewport⟩ := @ops_framed _ [o.op] h.framed
      (fun op mem => by
        obtain rfl := List.mem_singleton.mp mem
        exact output_sized o)
      (fun op mem t => by
        obtain rfl := List.mem_singleton.mp mem
        exact output_still o t)
    exact ⟨_, w, step_ok rfl run, h.of_leads h.leads h.held framed viewport, rfl, rfl⟩

theorem init_holds (roomy : s.Roomy) (start : Started s d) : ∃ w, d.Holds s w ∧
    w.pane = .normal ((initFrame s).x, (initFrame s).y) ∧ d.gui.prevLeft = false := by
  have wide := roomy.wide
  have high := roomy.high
  obtain ⟨ticks, out, run, gui⟩ := start
  have first : (TerminalOp.init s.width s.height).Sized := ⟨by omega, by omega⟩
  have boot : bootTerminal.Framed := ⟨boot_inside, le_refl 0, le_refl 0, le_refl 0, rfl, rfl⟩
  obtain ⟨t₁, run₁, framed₁, _⟩ := exec_framed boot first
  obtain ⟨t₂, run₂, framed₂, _⟩ := @ops_framed _ (out.map Output.op) framed₁
    (fun op mem => by
      obtain ⟨o, _, rfl⟩ := List.mem_map.mp mem
      exact output_sized o)
    (fun op mem t => by
      obtain ⟨o, _, rfl⟩ := List.mem_map.mp mem
      exact output_still o t)
  have same : d.terminal = t₂ := by
    change ((TerminalOp.init s.width s.height).exec.run bootTerminal).bind
      (fun p => ((out.map Output.op).forM TerminalOp.exec).run p.2) = _ at run
    rw [run₁] at run
    change ((out.map Output.op).forM TerminalOp.exec).run t₁ = _ at run
    exact (Prod.mk.inj (Option.some.inj (run.symm.trans run₂))).2
  refine ⟨_, ⟨by rw [gui]; rfl, by rw [gui]; rfl, ⟨rfl, fun _ => ⟨rfl, rfl⟩,
    fun full => absurd full (by simp), fun drag => absurd drag (by simp)⟩,
    fun drag => absurd drag (by simp), same ▸ framed₂, fun seen => absurd seen (by simp),
    fun clean => absurd clean (by rw [gui]; exact Bool.noConfusion)⟩, rfl, by rw [gui]; rfl⟩

theorem lastLeft_append (prevLeft : Bool) (first rest : List Event) :
    lastLeft prevLeft (first ++ rest) = lastLeft (lastLeft prevLeft first) rest := by
  induction first generalizing prevLeft with
  | nil => rfl
  | cons e first ih => cases e <;> exact ih _

theorem paneEvents_append (prevLeft : Bool) (first rest : List Event) :
    paneEvents s prevLeft (first ++ rest) =
      paneEvents s prevLeft first ++ paneEvents s (lastLeft prevLeft first) rest := by
  induction first generalizing prevLeft with
  | nil => rfl
  | cons e first ih =>
    cases e with
    | update i =>
      change i.events s prevLeft ++ paneEvents s i.left (first ++ rest) =
        (i.events s prevLeft ++ paneEvents s i.left first) ++ _
      rw [ih, List.append_assoc]
      rfl
    | restore ticks => exact congrArg _ (ih prevLeft)
    | draw hz ticks => exact ih prevLeft
    | notify text => exact ih prevLeft
    | setBackground => exact ih prevLeft
    | output o => exact ih prevLeft

theorem Desk.Holds.runs (roomy : s.Roomy) (h : d.Holds s w) {events : List Event}
    (runs : Runs s d events d') : ∃ w', d'.Holds s w' ∧
      w'.pane = w.pane.run (windowControl s) (paneEvents s d.gui.prevLeft events) ∧
      d'.gui.prevLeft = lastLeft d.gui.prevLeft events := by
  induction runs with
  | nil => exact ⟨w, h, rfl, rfl⟩
  | snoc runs go ih =>
    obtain ⟨w₁, h₁, pane, left⟩ := ih
    rcases h₁.step roomy _ with ⟨p, stop⟩ | ⟨d₂, w₂, step, h₂, pane₂, left₂⟩
    · exact absurd (stop.symm.trans go) (by simp)
    · obtain rfl := Option.some.inj (Except.ok.inj (step.symm.trans go))
      refine ⟨w₂, h₂, ?_, ?_⟩
      · rw [pane₂, pane, ← run_append, left, paneEvents_append]
      · rw [left₂, left, lastLeft_append]

theorem Runs.last {events : List Event} {e : Event} (h : Runs s d (events ++ [e]) d') :
    ∃ dₘ, Runs s d events dₘ ∧ dₘ.step s e = .ok (some d') := by
  generalize eq : events ++ [e] = all at h
  cases h with
  | nil => exact absurd eq (by simp)
  | snoc runs go =>
    obtain ⟨rfl, same⟩ := List.append_inj' eq rfl
    obtain rfl := List.singleton_inj.mp same
    exact ⟨_, runs, go⟩

theorem Runs.empty (h : Runs s d [] d') : d' = d := by
  generalize eq : ([] : List Event) = all at h
  cases h with
  | nil => rfl
  | snoc runs go => exact absurd eq (by simp)

end TinyOS.Desktop
