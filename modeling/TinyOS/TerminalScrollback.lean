import TinyOS.Terminal

set_option autoImplicit false

namespace TinyOS.Display

variable {α : Type} {n : ℕ}

def wrapLine (n : ℕ) (line : List α) : List (List α) :=
  if n = 0 ∨ line.length ≤ n then [line] else line.take n :: wrapLine n (line.drop n)
termination_by line.length
decreasing_by
  rw [List.length_drop]
  omega

def textLines (n : ℕ) (text : List UInt8) : List (List UInt8) :=
  (text.splitOn newline).flatMap (wrapLine n)

def addChar (n : ℕ) (above : List (List UInt8)) (last : List UInt8) (c : UInt8) :
    List (List UInt8) :=
  if c = newline then above ++ [last, []]
  else if last.length < n then above ++ [last ++ [c]]
  else above ++ [last, [c]]

theorem wrapLine_last (pos : 0 < n) (line : List α) : ∃ above last,
    wrapLine n line = above ++ [last] ∧ last.length ≤ n ∧ ∀ c,
      wrapLine n (line ++ [c]) =
        if last.length < n then above ++ [last ++ [c]] else above ++ [last, [c]] := by
  fun_induction wrapLine n line with
  | case1 line short =>
    have le : line.length ≤ n := short.resolve_left (by omega)
    refine ⟨[], line, rfl, le, fun c => ?_⟩
    rw [wrapLine, List.length_append, List.length_singleton]
    by_cases fits : line.length < n
    · rw [if_pos (.inr (by omega)), if_pos fits]
      rfl
    · have full : line.length = n := by omega
      rw [if_neg (by omega), if_neg fits, ← full, List.take_left' rfl, List.drop_left' rfl,
        wrapLine, if_pos (.inr (by rw [List.length_singleton]; omega))]
      rfl
  | case2 line long ih =>
    obtain ⟨above, last, eq, le, next⟩ := ih
    have more : n < line.length := by
      by_contra
      exact long (.inr (by omega))
    refine ⟨line.take n :: above, last, by rw [eq]; rfl, le, fun c => ?_⟩
    rw [wrapLine, if_neg (by rw [List.length_append, List.length_singleton]; omega),
      List.take_append_of_le_length (by omega), List.drop_append_of_le_length (by omega), next]
    split_ifs
    · rfl
    · rfl

theorem splitOn_last (text : List UInt8) : ∃ above last,
    text.splitOn newline = above ++ [last] ∧
    ∀ c, c ≠ newline → (text ++ [c]).splitOn newline = above ++ [last ++ [c]] := by
  induction text with
  | nil =>
    refine ⟨[], [], rfl, fun c ne => ?_⟩
    rw [List.nil_append, List.splitOn_cons_eq_if_modifyHead, if_neg (by simpa using ne)]
    rfl
  | cons a rest ih =>
    obtain ⟨above, last, eq, next⟩ := ih
    by_cases here : (a == newline) = true
    · refine ⟨[] :: above, last, ?_, fun c ne => ?_⟩
      · rw [List.splitOn_cons_eq_if_modifyHead, if_pos here, eq]
        rfl
      · rw [List.cons_append, List.splitOn_cons_eq_if_modifyHead, if_pos here, next c ne]
        rfl
    · cases above with
      | nil =>
        refine ⟨[], a :: last, ?_, fun c ne => ?_⟩
        · rw [List.splitOn_cons_eq_if_modifyHead, if_neg here, eq]
          rfl
        · rw [List.cons_append, List.splitOn_cons_eq_if_modifyHead, if_neg here, next c ne]
          rfl
      | cons first above =>
        refine ⟨(a :: first) :: above, last, ?_, fun c ne => ?_⟩
        · rw [List.splitOn_cons_eq_if_modifyHead, if_neg here, eq]
          rfl
        · rw [List.cons_append, List.splitOn_cons_eq_if_modifyHead, if_neg here, next c ne]
          rfl

/-- One more character of the text, on the last line or on a new one. -/
theorem textLines_last (pos : 0 < n) (text : List UInt8) : ∃ above last,
    textLines n text = above ++ [last] ∧ last.length ≤ n ∧
      ∀ c, textLines n (text ++ [c]) = addChar n above last c := by
  obtain ⟨lines, line, eq, next⟩ := splitOn_last text
  obtain ⟨above, last, wrap, le, more⟩ := wrapLine_last pos line
  have here : textLines n text = lines.flatMap (wrapLine n) ++ above ++ [last] := by
    rw [textLines, eq, List.flatMap_append, List.flatMap_singleton, wrap, List.append_assoc]
  refine ⟨lines.flatMap (wrapLine n) ++ above, last, here, le, fun c => ?_⟩
  rw [addChar]
  by_cases nl : c = newline
  · have split : (text ++ [c]).splitOn newline = text.splitOn newline ++ [[]] := by
      rw [nl, List.splitOn_append_cons_self]
      rfl
    have empty : wrapLine n ([] : List UInt8) = [[]] := by
      rw [wrapLine, if_pos (.inr (Nat.zero_le n))]
    rw [if_pos nl, textLines, split, List.flatMap_append, List.flatMap_singleton, empty,
      ← textLines, here, List.append_assoc]
    rfl
  · rw [if_neg nl, textLines, next c nl, List.flatMap_append, List.flatMap_singleton, more]
    split_ifs
    · rw [List.append_assoc]
    · rw [List.append_assoc]

/-- The buffer shows the last lines, and the next character comes behind the last one. -/
structure Shows (lines : List (List UInt8)) (t : Terminal) : Prop where
  cells : ∀ r c, r < 64 → c < 120 → t.screenBuf r c =
    ((lines.drop (lines.length-64)).getD r []).getD c 0
  row : t.bufRow = min lines.length 64 - 1
  col : t.bufCol = (lines.getLastD []).length
  top : t.scrollTop = max 0 (t.bufRow - t.rows + 1)

/-- The sizes `terminal_init` leaves. -/
structure Terminal.Grid (t : Terminal) : Prop where
  cols_pos : 1 ≤ t.cols
  cols_le : t.cols ≤ maxCols
  rows_pos : 1 ≤ t.rows
  rows_le : t.rows ≤ maxRows

variable {t t' : Terminal}

theorem terminal_bind {α β : Type} (x : TerminalM α) (f : α → TerminalM β) (t : Terminal) :
    (x >>= f).run t = (x.run t).bind fun p => (f p.1).run p.2 := rfl

theorem readCell_run {r c : ℤ} (h : InBuffer r c) :
    (readCell r c).run t = some (t.screenBuf r.toNat c.toNat, t) := if_pos h

theorem writeCell_run {r c : ℤ} (h : InBuffer r c) (v : UInt8) : (writeCell r c v).run t =
    some ((), { t with screenBuf := setCell t.screenBuf r.toNat c.toNat v }) := if_pos h

/-- Nothing but calls to framebuffer.c has happened. -/
def Drew (t t' : Terminal) : Prop := t' = { t with drawn := t'.drawn }

theorem Drew.refl (t : Terminal) : Drew t t := rfl

theorem Drew.trans {t'' : Terminal} (h : Drew t t') (h' : Drew t' t'') : Drew t t'' := by
  rw [Drew] at h h'
  rw [Drew, h', h]

def Draws (P : DrawCall → Prop) (t t' : Terminal) : Prop :=
  ∃ calls, t' = { t with drawn := t.drawn ++ calls } ∧ ∀ call ∈ calls, P call

variable {P : DrawCall → Prop}

theorem Draws.refl (t : Terminal) : Draws P t t :=
  ⟨[], by rw [List.append_nil], fun _ mem => absurd mem List.not_mem_nil⟩

theorem Draws.trans {t'' : Terminal} (h : Draws P t t') (h' : Draws P t' t'') : Draws P t t'' := by
  obtain ⟨calls, rfl, each⟩ := h
  obtain ⟨more, rfl, each'⟩ := h'
  refine ⟨calls ++ more, by rw [List.append_assoc], fun call mem => ?_⟩
  exact (List.mem_append.mp mem).elim (each call) (each' call)

theorem Draws.mono {Q : DrawCall → Prop} (h : Draws P t t') (imp : ∀ call, P call → Q call) :
    Draws Q t t' := by
  obtain ⟨calls, rfl, each⟩ := h
  exact ⟨calls, rfl, fun call mem => imp call (each call mem)⟩

theorem Draws.drew (h : Draws P t t') : Drew t t' := by
  obtain ⟨calls, rfl, _⟩ := h
  rfl

theorem draw_run {call : DrawCall} (ok : P call) (t : Terminal) :
    ∃ t', (draw call).run t = some ((), t') ∧ Draws P t t' :=
  ⟨_, rfl, [call], rfl, by simpa using ok⟩

/-- The calls of `redraw_terminal`: the background, and characters of the grid. -/
inductive RedrawCall (t : Terminal) : DrawCall → Prop where
  | background : RedrawCall t (.fillRect t.originX t.originY t.width t.height colBg)
  | cell {r c : ℕ} (row : (r : ℤ) < t.rows) (col : (c : ℤ) < t.cols) (ch : UInt8) :
    RedrawCall t
      (.drawChar (t.originX + c*charWidth) (t.originY + r*charHeight) ch colText colBg)

theorem redrawCells_run (bufR : ℤ) (row : 0 ≤ bufR ∧ bufR < maxRows) (r : ℕ) {l : List ℕ}
    (cols : ∀ c ∈ l, (c : ℤ) < maxCols) (t : Terminal)
    (each : ∀ c ∈ l, ∀ ch, P (.drawChar (t.originX + (c : ℕ)*charWidth)
      (t.originY + r*charHeight) ch colText colBg)) :
    ∃ t', (redrawCells bufR r l).run t = some ((), t') ∧ Draws P t t' := by
  induction l generalizing t with
  | nil => exact ⟨t, rfl, .refl t⟩
  | cons c rest ih =>
    have inside : InBuffer bufR c := ⟨row.1, row.2, Int.natCast_nonneg c, cols c List.mem_cons_self⟩
    rw [redrawCells, terminal_bind, readCell_run inside, Option.bind_some]
    dsimp only
    by_cases zero : t.screenBuf bufR.toNat (c : ℤ).toNat = 0
    · rw [if_pos zero]
      exact ⟨t, rfl, .refl t⟩
    · rw [if_neg zero]
      obtain ⟨t₁, run₁, draws₁⟩ := draw_run (each c List.mem_cons_self
        (t.screenBuf bufR.toNat (c : ℤ).toNat)) t
      have same : t₁.originX = t.originX ∧ t₁.originY = t.originY := by
        rw [draws₁.drew]
        exact ⟨rfl, rfl⟩
      obtain ⟨t₂, run₂, draws₂⟩ := ih (fun c' mem => cols c' (List.mem_cons_of_mem _ mem)) t₁
        (by
          rw [same.1, same.2]
          exact fun c' mem => each c' (List.mem_cons_of_mem _ mem))
      refine ⟨t₂, ?_, draws₁.trans draws₂⟩
      rw [terminal_bind, show (get : TerminalM Terminal).run t = some (t, t) from rfl,
        Option.bind_some, terminal_bind, run₁, Option.bind_some]
      exact run₂

theorem redrawRows_run {l : List ℕ} (top : 0 ≤ t.scrollTop) (cols : t.cols ≤ maxCols)
    (each : ∀ r ∈ l, ∀ c : ℕ, (c : ℤ) < t.cols → ∀ ch,
      P (.drawChar (t.originX + c*charWidth) (t.originY + (r : ℕ)*charHeight) ch colText colBg)) :
    ∃ t', (redrawRows l).run t = some ((), t') ∧ Draws P t t' := by
  induction l generalizing t with
  | nil => exact ⟨t, rfl, .refl t⟩
  | cons r rest ih =>
    rw [redrawRows, terminal_bind, show (get : TerminalM Terminal).run t = some (t, t) from rfl,
      Option.bind_some]
    dsimp only
    by_cases below : maxRows ≤ t.scrollTop + r
    · rw [if_pos below]
      exact ⟨t, rfl, .refl t⟩
    · rw [if_neg below]
      have inside (c : ℕ) (mem : c ∈ List.range t.cols.toNat) : (c : ℤ) < t.cols := by
        have := List.mem_range.mp mem
        omega
      obtain ⟨t₁, run₁, draws₁⟩ := redrawCells_run (t.scrollTop + r) ⟨by omega, by omega⟩ r
        (l := List.range t.cols.toNat) (fun c mem => (inside c mem).trans_le cols) t
        (fun c mem => each r List.mem_cons_self c (inside c mem))
      have same : t₁.scrollTop = t.scrollTop ∧ t₁.cols = t.cols ∧ t₁.originX = t.originX ∧
          t₁.originY = t.originY := by
        rw [draws₁.drew]
        exact ⟨rfl, rfl, rfl, rfl⟩
      obtain ⟨t₂, run₂, draws₂⟩ := ih (t := t₁) (by rw [same.1]; exact top)
        (by rw [same.2.1]; exact cols) (by
          rw [same.2.1, same.2.2.1, same.2.2.2]
          exact fun r' mem => each r' (List.mem_cons_of_mem _ mem))
      refine ⟨t₂, ?_, draws₁.trans draws₂⟩
      rw [terminal_bind, run₁, Option.bind_some]
      exact run₂

theorem redrawTerminal_run (top : 0 ≤ t.scrollTop) (cols : t.cols ≤ maxCols) :
    ∃ t', redrawTerminal.run t = some ((), t') ∧ Draws (RedrawCall t) t t' := by
  obtain ⟨t₁, run₁, draws₁⟩ := draw_run (RedrawCall.background (t := t)) t
  have same : t₁.scrollTop = t.scrollTop ∧ t₁.cols = t.cols ∧ t₁.originX = t.originX ∧
      t₁.originY = t.originY := by
    rw [draws₁.drew]
    exact ⟨rfl, rfl, rfl, rfl⟩
  obtain ⟨t₂, run₂, draws₂⟩ := redrawRows_run (P := RedrawCall t) (t := t₁)
    (l := List.range t.rows.toNat) (by rw [same.1]; exact top) (by rw [same.2.1]; exact cols) (by
      rw [same.2.1, same.2.2.1, same.2.2.2]
      intro r mem c col ch
      have := List.mem_range.mp mem
      exact .cell (by omega) col ch)
  refine ⟨t₂, ?_, draws₁.trans draws₂⟩
  rw [redrawTerminal, terminal_bind, show (get : TerminalM Terminal).run t = some (t, t) from rfl,
    Option.bind_some, terminal_bind, run₁, Option.bind_some]
  exact run₂

theorem shiftRows_eq (buf : ℕ → ℕ → UInt8) (r : ℕ) :
    shiftRows buf r = if r < 63 then buf (r+1) else buf r := by
  have moved (n : ℕ) : (List.range n).foldl
      (fun buf r => Function.update buf r (buf (r+1))) buf r =
        if r < n then buf (r+1) else buf r := by
    induction n generalizing r with
    | zero => rfl
    | succ n ih =>
      rw [List.range_succ, List.foldl_concat]
      by_cases eq : r = n
      · rw [eq, Function.update_self, ih, if_neg (by omega), if_pos (by omega)]
      · rw [Function.update_of_ne eq, ih]
        by_cases lt : r < n
        · rw [if_pos lt, if_pos (by omega)]
        · rw [if_neg lt, if_neg (by omega)]
  exact moved 63

def Terminal.lineFeed (t : Terminal) : Terminal :=
  if t.bufRow + 1 < maxRows then { t with bufRow := t.bufRow + 1, bufCol := 0 }
  else { t with
    bufRow := maxRows - 1
    bufCol := 0
    screenBuf := Function.update (shiftRows t.screenBuf) 63 fun _ => 0 }

def Terminal.follow (t : Terminal) : Terminal :=
  { t with scrollTop := if t.rows ≤ t.bufRow then t.bufRow - t.rows + 1 else 0 }

theorem follow_top (t : Terminal) : 0 ≤ t.follow.scrollTop := by
  rw [Terminal.follow]
  dsimp only
  split_ifs
  · omega
  · exact le_refl 0

theorem scrollDown_run (cols : t.cols ≤ maxCols) : ∃ t', scrollDown.run t = some ((), t') ∧
    Draws (RedrawCall t.lineFeed.follow) t.lineFeed.follow t' := by
  have size : t.lineFeed.follow.cols = t.cols := by
    rw [Terminal.lineFeed]
    split_ifs
    · rfl
    · rfl
  obtain ⟨t', run, draws⟩ := redrawTerminal_run (follow_top t.lineFeed) (size.trans_le cols)
  refine ⟨t', ?_, draws⟩
  have fed : (if maxRows ≤ t.bufRow + 1 then { t with
      bufRow := maxRows - 1
      bufCol := 0
      screenBuf := Function.update (shiftRows t.screenBuf) 63 fun _ => 0 }
      else { t with bufRow := t.bufRow + 1, bufCol := 0 }) = t.lineFeed := by
    rw [Terminal.lineFeed]
    by_cases last : maxRows ≤ t.bufRow + 1
    · rw [if_pos last, if_neg (by omega)]
    · rw [if_neg last, if_pos (by omega)]
  rw [← run, ← fed]
  rfl

variable {lines : List (List UInt8)}

theorem getD_concat (r : ℕ) : (lines ++ [[]]).getD r [] = lines.getD r [] := by
  rcases lt_trichotomy r lines.length with lt | eq | gt
  · rw [List.getD_append _ _ _ _ lt]
  · rw [eq, List.getD_append_right _ _ _ _ (le_refl _), Nat.sub_self,
      List.getD_eq_default _ _ (le_refl _)]
    rfl
  · rw [List.getD_eq_default _ _ (by rw [List.length_append, List.length_singleton]; omega),
      List.getD_eq_default _ _ (by omega)]

theorem getD_drop (k r : ℕ) : (lines.drop k).getD r [] = lines.getD (k+r) [] := by
  rw [List.getD_eq_getElem?_getD, List.getD_eq_getElem?_getD, List.getElem?_drop]

theorem Shows.lineFeed (h : Shows lines t) (some : 0 < lines.length) :
    Shows (lines ++ [[]]) t.lineFeed.follow := by
  have row := h.row
  have limit : maxRows = 64 := rfl
  have more : (lines ++ [[]]).length = lines.length+1 := by
    rw [List.length_append, List.length_singleton]
  have size : t.lineFeed.rows = t.rows := by
    rw [Terminal.lineFeed]
    split_ifs
    · rfl
    · rfl
  refine ⟨fun r c hr hc => ?_, ?_, ?_, ?_⟩
  · change t.lineFeed.screenBuf r c = _
    rw [getD_drop, getD_concat, more, Terminal.lineFeed]
    by_cases room : t.bufRow + 1 < maxRows
    · rw [if_pos room]
      dsimp only
      rw [h.cells r c hr hc, getD_drop, show lines.length+1-64+r = lines.length-64+r by omega]
    · rw [if_neg room]
      dsimp only
      by_cases last : r = 63
      · have none : lines.getD (lines.length+1-64+r) [] = [] :=
          List.getD_eq_default _ _ (by omega)
        rw [none, last, Function.update_self]
        rfl
      · rw [Function.update_of_ne last, shiftRows_eq, if_pos (by omega),
          h.cells (r+1) c (by omega) hc, getD_drop,
          show lines.length-64+(r+1) = lines.length+1-64+r by omega]
  · change t.lineFeed.bufRow = _
    rw [more, Terminal.lineFeed]
    by_cases room : t.bufRow + 1 < maxRows
    · rw [if_pos room]
      dsimp only
      omega
    · rw [if_neg room]
      dsimp only
      omega
  · change t.lineFeed.bufCol = _
    rw [List.getLastD_concat, Terminal.lineFeed]
    split_ifs
    · rfl
    · rfl
  · change (if t.lineFeed.rows ≤ t.lineFeed.bufRow
      then t.lineFeed.bufRow - t.lineFeed.rows + 1 else 0) =
        max 0 (t.lineFeed.bufRow - t.lineFeed.rows + 1)
    split_ifs
    · omega
    · omega

theorem Shows.drew (h : Shows lines t) (drew : Drew t t') : Shows lines t' := by
  rw [drew]
  exact ⟨h.cells, h.row, h.col, h.top⟩

theorem Terminal.Grid.drew (h : t.Grid) (drew : Drew t t') : t'.Grid := by
  rw [drew]
  exact ⟨h.cols_pos, h.cols_le, h.rows_pos, h.rows_le⟩

def Terminal.put (t : Terminal) (c : UInt8) : Terminal := { t with
  screenBuf := setCell t.screenBuf t.bufRow.toNat t.bufCol.toNat c
  bufCol := t.bufCol + 1 }

theorem Shows.put {above : List (List UInt8)} {last : List UInt8} (h : Shows (above ++ [last]) t)
    (room : last.length < 120) (c : UInt8) : Shows (above ++ [last ++ [c]]) (t.put c) := by
  have row := h.row
  have col := h.col
  rw [List.getLastD_concat] at col
  have size : (above ++ [last]).length = above.length+1 := by
    rw [List.length_append, List.length_singleton]
  have size' : (above ++ [last ++ [c]]).length = above.length+1 := by
    rw [List.length_append, List.length_singleton]
  rw [size] at row
  refine ⟨fun r k hr hk => ?_, ?_, ?_, h.top⟩
  · have before := h.cells r k hr hk
    rw [getD_drop, size] at before
    rw [getD_drop, size', Terminal.put]
    dsimp only
    rw [setCell]
    by_cases here : r = t.bufRow.toNat
    · have at_last : above.length+1-64+r = above.length := by omega
      rw [at_last, List.getD_append_right _ _ _ _ (le_refl _), Nat.sub_self] at before ⊢
      change t.screenBuf r k = last.getD k 0 at before
      change _ = (last ++ [c]).getD k 0
      rw [← here, Function.update_self]
      by_cases there : k = t.bufCol.toNat
      · have eq : k = last.length := by omega
        rw [there, Function.update_self, ← there, eq,
          List.getD_append_right _ _ _ _ (le_refl _), Nat.sub_self]
        rfl
      · rw [Function.update_of_ne there, before]
        by_cases inside : k < last.length
        · rw [List.getD_append _ _ _ _ inside]
        · rw [List.getD_eq_default _ _ (by omega), List.getD_eq_default _ _ (by
            rw [List.length_append, List.length_singleton]
            omega)]
    · rw [Function.update_of_ne here, before]
      by_cases inside : above.length+1-64+r < above.length
      · rw [List.getD_append _ _ _ _ inside, List.getD_append _ _ _ _ inside]
      · have none : (above ++ [last]).getD (above.length+1-64+r) [] = [] :=
          List.getD_eq_default _ _ (by rw [size]; omega)
        have none' : (above ++ [last ++ [c]]).getD (above.length+1-64+r) [] = [] :=
          List.getD_eq_default _ _ (by rw [size']; omega)
        rw [none, none']
  · rw [size']
    exact row
  · rw [List.getLastD_concat, List.length_append, List.length_singleton]
    change t.bufCol + 1 = _
    rw [col]
    rfl

theorem Terminal.lineFeed_size (t : Terminal) : t.lineFeed.follow.cols = t.cols ∧
    t.lineFeed.follow.rows = t.rows := by
  change t.lineFeed.cols = t.cols ∧ t.lineFeed.rows = t.rows
  rw [Terminal.lineFeed]
  split_ifs
  · exact ⟨rfl, rfl⟩
  · exact ⟨rfl, rfl⟩

structure Sized (t t' : Terminal) : Prop where
  cols : t'.cols = t.cols
  rows : t'.rows = t.rows

theorem Drew.sized (h : Drew t t') : Sized t t' := by
  rw [h]
  exact ⟨rfl, rfl⟩

theorem Sized.trans {t'' : Terminal} (h : Sized t t') (h' : Sized t' t'') : Sized t t'' :=
  ⟨h'.cols.trans h.cols, h'.rows.trans h.rows⟩

theorem Terminal.Grid.sized (h : t.Grid) (sized : Sized t t') : t'.Grid := by
  constructor
  · rw [sized.cols]
    exact h.cols_pos
  · rw [sized.cols]
    exact h.cols_le
  · rw [sized.rows]
    exact h.rows_pos
  · rw [sized.rows]
    exact h.rows_le

theorem scrollDown_shows (grid : t.Grid) (h : Shows lines t) (some : 0 < lines.length) :
    ∃ t', scrollDown.run t = Option.some ((), t') ∧ Sized t t' ∧ Shows (lines ++ [[]]) t' := by
  obtain ⟨t', run, draws⟩ := scrollDown_run grid.cols_le
  exact ⟨t', run, Sized.trans ⟨t.lineFeed_size.1, t.lineFeed_size.2⟩ draws.drew.sized,
    (h.lineFeed some).drew draws.drew⟩

theorem putchar_shows {above : List (List UInt8)} {last : List UInt8} (grid : t.Grid)
    (h : Shows (above ++ [last]) t) (room : (last.length : ℤ) < t.cols) (c : UInt8) :
    ∃ t', (do
      let t ← get
      writeCell t.bufRow t.bufCol c
      draw (.drawChar (t.originX + t.bufCol*charWidth)
        (t.originY + (t.bufRow - t.scrollTop)*charHeight) c colText colBg)
      modify fun t => { t with bufCol := t.bufCol + 1 }
      draw .present : TerminalM Unit).run t = some ((), t') ∧ Sized t t' ∧
        Shows (above ++ [last ++ [c]]) t' := by
  have row := h.row
  have col := h.col
  have most : t.cols ≤ 120 := grid.cols_le
  have limit : maxRows = 64 := rfl
  have limit' : maxCols = 120 := rfl
  rw [List.getLastD_concat] at col
  rw [List.length_append, List.length_singleton] at row
  have inside : InBuffer t.bufRow t.bufCol := ⟨by omega, by omega, by omega, by omega⟩
  rw [terminal_bind, show (get : TerminalM Terminal).run t = some (t, t) from rfl,
    Option.bind_some, terminal_bind, writeCell_run inside, Option.bind_some]
  refine ⟨_, rfl, ⟨rfl, rfl⟩, ?_⟩
  have shows := h.put (by omega) c
  exact ⟨shows.cells, shows.row, shows.col, shows.top⟩

theorem terminalPutchar_run {above : List (List UInt8)} {last : List UInt8} (grid : t.Grid)
    (h : Shows (above ++ [last]) t) (le : last.length ≤ t.cols.toNat) {c : UInt8}
    (ne : c ≠ backspace) : ∃ t', (terminalPutchar c).run t = some ((), t') ∧ Sized t t' ∧
      Shows (addChar t.cols.toNat above last c) t' := by
  have pos := grid.cols_pos
  have some : 0 < (above ++ [last]).length := by
    rw [List.length_append, List.length_singleton]
    omega
  have col := h.col
  rw [List.getLastD_concat] at col
  rw [terminalPutchar, addChar]
  by_cases nl : c = newline
  · obtain ⟨t₁, run₁, sized, shows⟩ := scrollDown_shows grid h some
    rw [if_pos nl, if_pos nl]
    obtain ⟨t₂, run₂, drew⟩ : ∃ t₂, (draw .present).run t₁ = Option.some ((), t₂) ∧ Drew t₁ t₂ :=
      ⟨_, rfl, rfl⟩
    refine ⟨t₂, ?_, sized.trans drew.sized, ?_⟩
    · rw [terminal_bind, run₁, Option.bind_some, terminal_bind, run₂]
      rfl
    · rw [List.append_assoc] at shows
      exact shows.drew drew
  rw [if_neg nl, if_neg nl, if_neg ne, terminal_bind,
    show (get : TerminalM Terminal).run t = Option.some (t, t) from rfl, Option.bind_some]
  dsimp only
  by_cases fits : last.length < t.cols.toNat
  · rw [if_pos fits, if_neg (by omega)]
    obtain ⟨t', run, sized, shows⟩ := putchar_shows grid h (by omega) c
    exact ⟨t', run, sized, shows⟩
  · rw [if_neg fits, if_pos (by omega)]
    obtain ⟨t₁, run₁, sized₁, shows₁⟩ := scrollDown_shows grid h some
    obtain ⟨t₂, run₂, sized₂, shows₂⟩ := putchar_shows (grid.sized sized₁) shows₁ (by
      rw [sized₁.cols, List.length_nil]
      omega) c
    refine ⟨t₂, ?_, sized₁.trans sized₂, ?_⟩
    · rw [terminal_bind, run₁, Option.bind_some]
      exact run₂
    · rw [List.append_assoc] at shows₂
      exact shows₂

theorem terminalPrint_run (grid : t.Grid) (done : List UInt8)
    (h : Shows (textLines t.cols.toNat done) t) {text : List UInt8} (nul : 0 ∉ text)
    (plain : backspace ∉ text) : ∃ t', (terminalPrint text).run t = some ((), t') ∧ Sized t t' ∧
      Shows (textLines t.cols.toNat (done ++ text)) t' := by
  induction text generalizing t done with
  | nil =>
    refine ⟨t, rfl, ⟨rfl, rfl⟩, ?_⟩
    rwa [List.append_nil]
  | cons c rest ih =>
    have pos := grid.cols_pos
    have here : c ≠ 0 := fun eq => nul (eq ▸ List.mem_cons_self)
    have ne : c ≠ backspace := fun eq => plain (eq ▸ List.mem_cons_self)
    obtain ⟨above, last, eq, le, next⟩ := textLines_last (show 0 < t.cols.toNat by omega) done
    rw [eq] at h
    obtain ⟨t₁, run₁, sized₁, shows₁⟩ := terminalPutchar_run grid h le ne
    rw [← next c, ← sized₁.cols] at shows₁
    obtain ⟨t₂, run₂, sized₂, shows₂⟩ := ih (grid.sized sized₁) (done ++ [c]) shows₁
      (fun mem => nul (List.mem_cons_of_mem c mem)) fun mem => plain (List.mem_cons_of_mem c mem)
    refine ⟨t₂, ?_, sized₁.trans sized₂, ?_⟩
    · rw [terminalPrint, if_neg here, terminal_bind, run₁, Option.bind_some]
      exact run₂
    · rwa [sized₁.cols, List.append_assoc] at shows₂

/-- The buffer is the end of the text: after the terminal is cleared and a text is printed it
shows the last 64 lines of the text. -/
theorem scrollback (grid : t.Grid) {text : List UInt8} (nul : 0 ∉ text)
    (plain : backspace ∉ text) : ∃ t', (do
      terminalClear
      terminalPrint text).run t = some ((), t') ∧ Sized t t' ∧
        Shows (textLines t.cols.toNat text) t' := by
  have pos := grid.rows_pos
  obtain ⟨t₁, run₁, sized₁, cleared⟩ : ∃ t₁, terminalClear.run t = some ((), t₁) ∧ Sized t t₁ ∧
      Shows [[]] t₁ := by
    refine ⟨_, rfl, ⟨rfl, rfl⟩, fun r c hr _ => ?_, rfl, rfl, ?_⟩
    · change 0 = _
      cases r with
      | zero => rfl
      | succ r => rfl
    · change 0 = max 0 (0 - t.rows + 1)
      omega
  have empty : textLines t₁.cols.toNat [] = [[]] := by
    rw [textLines, List.splitOn_nil, List.flatMap_singleton, wrapLine,
      if_pos (.inr (Nat.zero_le _))]
  obtain ⟨t₂, run₂, sized₂, shows₂⟩ := terminalPrint_run (grid.sized sized₁) [] (by
    rw [empty]
    exact cleared) nul plain
  refine ⟨t₂, ?_, sized₁.trans sized₂, ?_⟩
  · rw [terminal_bind, run₁, Option.bind_some]
    exact run₂
  · rwa [sized₁.cols, List.nil_append] at shows₂

/-- Three columns: a full line is not followed by an empty one. -/
example : textLines 3 [65, 66, 67, 10, 68] = [[65, 66, 67], [68]] := by
  have broken : ([65, 66, 67, 10, 68] : List UInt8).splitOn newline = [[65, 66, 67], [68]] := by
    decide
  rw [textLines, broken]
  simp [wrapLine]

def smallTerminal : Terminal := ⟨24, 20, 3, 2, 0, 0, fun _ _ => 0, 0, 0, 0, []⟩

theorem smallTerminal_grid : smallTerminal.Grid :=
  ⟨by decide, by decide, by decide, by decide⟩

theorem scrollback_small : ∃ t', (do
    terminalClear
    terminalPrint [65, 66, 67, 68, 10, 69]).run smallTerminal = some ((), t') ∧
      Sized smallTerminal t' ∧ Shows (textLines 3 [65, 66, 67, 68, 10, 69]) t' :=
  scrollback smallTerminal_grid (by decide) (by decide)

end TinyOS.Display
