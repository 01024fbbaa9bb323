import Mathlib

set_option autoImplicit false

/-! A pane that a pointer closes, hides, zooms and carries about. It cannot be carried while it
is zoomed or not shown. -/
namespace TinyOS.Panes

inductive Control where
  | close
  | zoom
  | hide
  | grip
  | nothing
  deriving DecidableEq

inductive Button where
  | up
  | press
  | hold
  deriving DecidableEq

/-- A pane with the corner it has when it is not zoomed; one that is carried knows where the
pointer holds it. -/
inductive Pane (V : Type*) where
  | hidden (home : V) (full : Bool)
  | zoomed (home : V)
  | normal (home : V)
  | held (home grab : V)
  deriving DecidableEq

inductive Event (V : Type*) where
  | pointer (pos : V) (button : Button)
  | show

variable {V : Type*}

def Pane.home : Pane V → V
  | .hidden home _ => home
  | .zoomed home => home
  | .normal home => home
  | .held home _ => home

def Pane.isHeld : Pane V → Bool
  | .held _ _ => true
  | _ => false

def lastPos (pos : V) : List (Event V) → V
  | [] => pos
  | .pointer pos _ :: rest => lastPos pos rest
  | .show :: rest => lastPos pos rest

def Down : Event V → Prop
  | .pointer _ button => button ≠ .up
  | .show => True

theorem lastPos_append (pos : V) (first rest : List (Event V)) :
    lastPos pos (first ++ rest) = lastPos (lastPos pos first) rest := by
  induction first generalizing pos with
  | nil => rfl
  | cons e first ih => cases e <;> exact ih _

theorem lastPos_shows (pos : V) (events : List (Event V)) (shows : ∀ e ∈ events, e = .show) :
    lastPos pos events = pos := by
  induction events with
  | nil => rfl
  | cons e rest ih =>
    rw [shows e List.mem_cons_self]
    exact ih fun e mem => shows e (List.mem_cons_of_mem _ mem)

variable [AddCommGroup V]

def Pane.pressed (full : Bool) (home pos : V) : Control → Pane V
  | .close => .hidden home full
  | .zoom => if full then .normal home else .zoomed home
  | .hide => .hidden home full
  | .grip => if full then .zoomed home else .held home (pos - home)
  | .nothing => if full then .zoomed home else .normal home

def Pane.react (control : Bool → V → V → Control) : Pane V → Event V → Pane V
  | .hidden home true, .show => .zoomed home
  | .hidden home false, .show => .normal home
  | p, .show => p
  | .hidden home full, .pointer _ _ => .hidden home full
  | .zoomed home, .pointer pos .press => .pressed true home pos (control true home pos)
  | .zoomed home, .pointer _ _ => .zoomed home
  | .normal home, .pointer pos .press => .pressed false home pos (control false home pos)
  | .normal home, .pointer _ _ => .normal home
  | .held home _, .pointer _ .up => .normal home
  | .held _ grab, .pointer pos _ => .held (pos - grab) grab

def Pane.run (control : Bool → V → V → Control) (p : Pane V) (events : List (Event V)) : Pane V :=
  events.foldl (Pane.react control) p

variable {control : Bool → V → V → Control} {p : Pane V} {e : Event V}

theorem run_append (p : Pane V) (first rest : List (Event V)) :
    p.run control (first ++ rest) = (p.run control first).run control rest := by
  rw [Pane.run, List.foldl_append]
  rfl

/-- A step that does not end with the pane in hand leaves its home. -/
theorem home_react (loose : (p.react control e).isHeld = false) :
    (p.react control e).home = p.home := by
  cases e with
  | «show» =>
    cases p with
    | hidden home full => cases full <;> rfl
    | _ => rfl
  | pointer pos button =>
    cases p with
    | hidden home full => cases full <;> rfl
    | zoomed home =>
      cases button with
      | press =>
        rw [Pane.react]
        cases control true home pos <;> rfl
      | _ => rfl
    | normal home =>
      cases button with
      | press =>
        rw [Pane.react]
        cases control false home pos <;> rfl
      | _ => rfl
    | held home grab =>
      cases button with
      | up => rfl
      | press => exact absurd loose (by simp [Pane.react, Pane.isHeld])
      | hold => exact absurd loose (by simp [Pane.react, Pane.isHeld])

theorem home_shows (events : List (Event V)) (shows : ∀ e ∈ events, e = .show) :
    (p.run control events).home = p.home := by
  induction events generalizing p with
  | nil => rfl
  | cons e rest ih =>
    have shown : (p.react control .show).home = p.home := by
      cases p with
      | hidden home full => cases full <;> rfl
      | _ => rfl
    change ((p.react control e).run control rest).home = p.home
    rw [shows e List.mem_cons_self, ih fun e mem => shows e (List.mem_cons_of_mem _ mem), shown]

theorem held_run (home grab : V) (events : List (Event V)) (down : ∀ e ∈ events, Down e) :
    (Pane.held home grab).run control events =
      .held (lastPos (home + grab) events - grab) grab := by
  induction events generalizing home with
  | nil =>
    change Pane.held home grab = _
    rw [lastPos, add_sub_cancel_right]
  | cons e rest ih =>
    have later := fun e mem => down e (List.mem_cons_of_mem _ mem)
    cases e with
    | «show» => exact ih home later
    | pointer pos button =>
      have here : button ≠ .up := down _ List.mem_cons_self
      have moved : (Pane.held home grab).react control (.pointer pos button) =
          .held (pos - grab) grab := by
        cases button with
        | up => exact absurd rfl here
        | _ => rfl
      change ((Pane.held home grab).react control (.pointer pos button)).run control rest = _
      rw [moved, ih _ later, sub_add_cancel]
      rfl

/-- From the press on, the pane goes as far as the pointer goes. -/
theorem drag_run (home pos : V) (grip : control false home pos = .grip)
    (events : List (Event V)) (down : ∀ e ∈ events, Down e) :
    (Pane.normal home).run control (.pointer pos .press :: events) =
      .held (home + (lastPos pos events - pos)) (pos - home) := by
  have first : (Pane.normal home).react control (.pointer pos .press) = .held home (pos - home) := by
    rw [Pane.react, grip]
    rfl
  change ((Pane.normal home).react control (.pointer pos .press)).run control events = _
  rw [first, held_run home _ events down, add_sub_cancel]
  congr 1
  abel

end TinyOS.Panes
