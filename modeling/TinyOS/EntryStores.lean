import Mathlib

set_option autoImplicit false

/-! A store of named entries, each a directory or a file with its bytes, in a fixed list of
slots. An entry knows the slot of the directory it is in. -/
namespace TinyOS.EntryStores

inductive Body (α : Type) where
  | dir
  | file (bytes : List α)
  deriving DecidableEq

structure Entry (κ α : Type) where
  name : List α
  parent : κ
  body : Body α
  deriving DecidableEq

/-- What a listing tells of an entry. -/
structure Item (α : Type) where
  name : List α
  isDirectory : Bool
  size : ℕ
  deriving DecidableEq

structure Store (κ α : Type) where
  entry : κ → Option (Entry κ α)
  dir : κ
  /-- There is a file system to be mounted. -/
  valid : Bool

/-- The slots in the order of the scans, the root, and what a name, a file and a block can hold. -/
structure Shape (κ : Type) where
  slots : List κ
  root : κ
  nameMax : ℕ
  fileMax : ℕ
  blockMax : ℕ

inductive Request (α : Type) where
  | format
  | spoil
  | mount
  | create (name : List α)
  | mkdir (name : List α)
  | enter (name : List α)
  | up
  | top
  | stay
  | rename (old new : List α)
  | delete (name : List α)
  | write (name text : List α)
  | append (name text : List α)
  | read (name : List α)
  | stat (name : List α)
  | list
  deriving DecidableEq

inductive Failure where
  | invalid
  | taken
  | full
  | missing
  | isDirectory
  | notDirectory
  deriving DecidableEq

inductive Reply (α : Type) where
  | done
  | failed (why : Failure)
  | bytes (content : List α)
  | item (i : Item α)
  | items (l : List (Item α))
  deriving DecidableEq

variable {κ α : Type}

def Body.item (name : List α) : Body α → Item α
  | .dir => ⟨name, true, 0⟩
  | .file bytes => ⟨name, false, bytes.length⟩

def Entry.item (e : Entry κ α) : Item α := e.body.item e.name

variable [DecidableEq κ] [DecidableEq α]

def Store.Here (a : Store κ α) (name : List α) (k : κ) : Prop :=
  ∃ e, a.entry k = some e ∧ e.parent = a.dir ∧ e.name = name

instance (a : Store κ α) (name : List α) (k : κ) : Decidable (a.Here name k) :=
  match h : a.entry k with
  | none => isFalse fun ⟨_, found, _⟩ => by rw [h] at found; cases found
  | some e =>
    if same : e.parent = a.dir ∧ e.name = name then isTrue ⟨e, h, same⟩
    else isFalse fun ⟨e', found, here⟩ => same (by
      obtain rfl := Option.some.inj (h.symm.trans found)
      exact here)

def Store.find (s : Shape κ) (a : Store κ α) (name : List α) : Option κ :=
  s.slots.find? fun k => decide (a.Here name k)

def Store.vacant (s : Shape κ) (a : Store κ α) : Option κ :=
  s.slots.find? fun k => (a.entry k).isNone

def Store.put (a : Store κ α) (k : κ) (e : Option (Entry κ α)) : Store κ α :=
  { a with entry := Function.update a.entry k e }

def Store.add (s : Shape κ) (a : Store κ α) (name : List α) (body : Body α) :
    Reply α × Store κ α :=
  match a.find s name with
  | some _ => (.failed .taken, a)
  | none =>
    match a.vacant s with
    | none => (.failed .full, a)
    | some k => (.done, a.put k (some ⟨name.take s.nameMax, a.dir, body⟩))

def Store.edit (s : Shape κ) (a : Store κ α) (name : List α) (f : List α → List α) :
    Reply α × Store κ α :=
  match a.find s name with
  | none => (.failed .missing, a)
  | some k =>
    match a.entry k with
    | some ⟨name, parent, .file bytes⟩ =>
      (.done, a.put k (some ⟨name, parent, .file ((f bytes).take s.fileMax)⟩))
    | _ => (.failed .isDirectory, a)

def Store.step (s : Shape κ) (a : Store κ α) : Request α → Reply α × Store κ α
  | .format => (.done, ⟨fun _ => none, s.root, true⟩)
  | .spoil => (.done, { a with valid := false })
  | .mount => if a.valid then (.done, { a with dir := s.root }) else (.failed .invalid, a)
  | .create name => a.add s name (.file [])
  | .mkdir name => a.add s name .dir
  | .enter name =>
    match a.find s name with
    | none => (.failed .missing, a)
    | some k =>
      match a.entry k with
      | some ⟨_, _, .dir⟩ => (.done, { a with dir := k })
      | _ => (.failed .notDirectory, a)
  | .up =>
    match a.entry a.dir with
    | some e => (.done, { a with dir := e.parent })
    | none => (.done, a)
  | .top => (.done, { a with dir := s.root })
  | .stay => (.done, a)
  | .rename old new =>
    match a.find s old with
    | none => (.failed .missing, a)
    | some k =>
      match a.find s new with
      | some _ => (.failed .taken, a)
      | none => (.done, a.put k ((a.entry k).map fun e => { e with name := new.take s.nameMax }))
  | .delete name =>
    match a.find s name with
    | none => (.failed .missing, a)
    | some k => (.done, a.put k none)
  | .write name text => a.edit s name fun _ => text
  | .append name text => a.edit s name fun bytes => bytes ++ text
  | .read name =>
    match a.find s name with
    | none => (.failed .missing, a)
    | some k =>
      match a.entry k with
      | some ⟨_, _, .file bytes⟩ => (.bytes bytes, a)
      | _ => (.failed .isDirectory, a)
  | .stat name =>
    match (a.find s name).bind a.entry with
    | none => (.failed .missing, a)
    | some e => (.item e.item, a)
  | .list =>
    (.items ((s.slots.filterMap fun k => (a.entry k).filter fun e => e.parent = a.dir).map
      Entry.item), a)

def Store.run (s : Shape κ) (a : Store κ α) : List (Request α) → List (Reply α) × Store κ α
  | [] => ([], a)
  | r :: rest =>
    let (reply, a) := a.step s r
    let (replies, a) := a.run s rest
    (reply :: replies, a)

def Store.At (a : Store κ α) (dir : κ) (name : List α) (k : κ) : Prop :=
  ∃ e, a.entry k = some e ∧ e.parent = dir ∧ e.name = name

def Request.names (s : Shape κ) : Request α → List (List α)
  | .create name => [name, name.take s.nameMax]
  | .mkdir name => [name, name.take s.nameMax]
  | .rename old new => [old, new, new.take s.nameMax]
  | .delete name => [name]
  | .write name _ => [name]
  | .append name _ => [name]
  | _ => []

/-- The request neither clears the store nor changes or makes an entry of this name. -/
def Request.Spares (s : Shape κ) (name : List α) (r : Request α) : Prop :=
  r ≠ .format ∧ name ∉ r.names s

instance (a : Store κ α) (dir : κ) (name : List α) (k : κ) : Decidable (a.At dir name k) :=
  inferInstanceAs (Decidable (({ a with dir := dir } : Store κ α).Here name k))

/-- The name leads to slot `k` in this directory, and there is a file of these bytes. -/
structure Store.Keeps (s : Shape κ) (a : Store κ α) (dir : κ) (name : List α) (k : κ)
    (bytes : List α) : Prop where
  entry : a.entry k = some ⟨name, dir, .file bytes⟩
  first : s.slots.find? (fun j => decide (a.At dir name j)) = some k

variable {s : Shape κ} {a : Store κ α} {dir k j : κ} {name n : List α} {bytes : List α}

theorem Store.find_here (found : a.find s n = some j) : a.Here n j := by
  simpa using List.find?_some found

omit [DecidableEq κ] [DecidableEq α] in
theorem Store.vacant_none (free : a.vacant s = some j) : a.entry j = none := by
  simpa using List.find?_some free

theorem Store.Keeps.find (h : a.Keeps s dir name k bytes) (here : a.dir = dir) :
    a.find s name = some k := by
  subst here
  exact h.first

omit [DecidableEq α] in
theorem Store.put_self {e : Option (Entry κ α)} : (a.put j e).entry j = e :=
  Function.update_self _ _ _

omit [DecidableEq α] in
theorem Store.put_of_ne {e : Option (Entry κ α)} (ne : k ≠ j) :
    (a.put j e).entry k = a.entry k := Function.update_of_ne ne _ _

omit [DecidableEq α] in
theorem Store.put_same {e : Option (Entry κ α)} (same : a.entry k = e) : a.put k e = a := by
  rw [Store.put, ← same, Function.update_eq_self]

/-- A slot stays the first one when no new entry bears the name. -/
theorem Store.put_first {e : Option (Entry κ α)}
    (first : s.slots.find? (fun i => decide (a.At dir name i)) = some k)
    (still : (a.put j e).At dir name k)
    (old : ∀ e', e = some e' → e'.parent = dir → e'.name = name → a.At dir name j) :
    s.slots.find? (fun i => decide ((a.put j e).At dir name i)) = some k := by
  obtain ⟨_, before, behind, split, none⟩ := List.find?_eq_some_iff_append.mp first
  refine List.find?_eq_some_iff_append.mpr
    ⟨decide_eq_true still, before, behind, split, fun i mem => ?_⟩
  have away := none i mem
  simp only [Bool.not_eq_true', decide_eq_false_iff_not] at away ⊢
  rintro ⟨e', at_i, parent, named⟩
  by_cases same : i = j
  · subst same
    rw [Store.put_self] at at_i
    exact away (old e' at_i parent named)
  · rw [Store.put_of_ne same] at at_i
    exact away ⟨e', at_i, parent, named⟩

/-- A change of another slot that makes no new entry of the name. -/
theorem Store.Keeps.put (h : a.Keeps s dir name k bytes) {e : Option (Entry κ α)} (ne : j ≠ k)
    (old : ∀ e', e = some e' → e'.parent = dir → e'.name = name → a.At dir name j) :
    (a.put j e).Keeps s dir name k bytes := by
  have entry : (a.put j e).entry k = some ⟨name, dir, .file bytes⟩ := by
    rw [Store.put_of_ne ne.symm]
    exact h.entry
  exact ⟨entry, Store.put_first h.first ⟨_, entry, rfl, rfl⟩ old⟩

theorem Store.Keeps.moved (h : a.Keeps s dir name k bytes) (d : κ) (v : Bool) :
    (⟨a.entry, d, v⟩ : Store κ α).Keeps s dir name k bytes := ⟨h.entry, h.first⟩

theorem Store.Keeps.other (h : a.Keeps s dir name k bytes) (found : a.find s n = some j)
    (ne : n ≠ name) : j ≠ k := by
  rintro rfl
  obtain ⟨e, at_j, _, named⟩ := Store.find_here found
  rw [h.entry] at at_j
  cases at_j
  exact ne named.symm

theorem Store.Keeps.add (h : a.Keeps s dir name k bytes) (ne : n.take s.nameMax ≠ name)
    (body : Body α) : (a.add s n body).2.Keeps s dir name k bytes := by
  unfold Store.add
  split
  · exact h
  · split
    · exact h
    · next j free =>
      refine h.put ?_ ?_
      · rintro rfl
        have none := Store.vacant_none free
        rw [h.entry] at none
        cases none
      · rintro e' eq _ named
        cases eq
        exact absurd named ne

theorem Store.Keeps.edit (h : a.Keeps s dir name k bytes) (ne : n ≠ name)
    (f : List α → List α) : (a.edit s n f).2.Keeps s dir name k bytes := by
  unfold Store.edit
  split
  · exact h
  · next j found =>
    split
    · next called parent old at_j =>
      refine h.put (h.other found ne) ?_
      rintro e' eq up named
      cases eq
      exact ⟨_, at_j, up, named⟩
    · exact h

theorem Store.Keeps.step (h : a.Keeps s dir name k bytes) {r : Request α}
    (spares : r.Spares s name) : (a.step s r).2.Keeps s dir name k bytes := by
  obtain ⟨clears, unnamed⟩ := spares
  cases r with
  | format => exact absurd rfl clears
  | spoil => exact h.moved _ _
  | mount =>
    simp only [Store.step]
    split
    · exact h.moved _ _
    · exact h
  | create n =>
    simp only [Request.names, List.mem_cons, List.not_mem_nil, or_false, not_or] at unnamed
    exact h.add (Ne.symm unnamed.2) _
  | mkdir n =>
    simp only [Request.names, List.mem_cons, List.not_mem_nil, or_false, not_or] at unnamed
    exact h.add (Ne.symm unnamed.2) _
  | enter n =>
    simp only [Store.step]
    split
    · exact h
    · split
      · exact h.moved _ _
      · exact h
  | up =>
    simp only [Store.step]
    split
    · exact h.moved _ _
    · exact h
  | top => exact h.moved _ _
  | stay => exact h
  | rename old new =>
    simp only [Request.names, List.mem_cons, List.not_mem_nil, or_false, not_or] at unnamed
    simp only [Store.step]
    split
    · exact h
    · next j found =>
      split
      · exact h
      · refine h.put (h.other found (Ne.symm unnamed.1)) ?_
        intro e' eq _ named
        obtain ⟨e, _, rfl⟩ := Option.map_eq_some_iff.mp eq
        exact absurd named (Ne.symm unnamed.2.2)
  | delete n =>
    simp only [Request.names, List.mem_cons, List.not_mem_nil, or_false] at unnamed
    simp only [Store.step]
    split
    · exact h
    · next j found =>
      refine h.put (h.other found (Ne.symm unnamed)) ?_
      rintro e' eq
      cases eq
  | write n text =>
    simp only [Request.names, List.mem_cons, List.not_mem_nil, or_false] at unnamed
    exact h.edit (Ne.symm unnamed) _
  | append n text =>
    simp only [Request.names, List.mem_cons, List.not_mem_nil, or_false] at unnamed
    exact h.edit (Ne.symm unnamed) _
  | read n =>
    simp only [Store.step]
    split
    · exact h
    · split
      · exact h
      · exact h
  | stat n =>
    simp only [Store.step]
    split
    · exact h
    · exact h
  | list => exact h

theorem Store.edit_keeps {f : List α → List α} (done : (a.edit s name f).1 = .done) :
    ∃ k old, a.entry k = some ⟨name, a.dir, .file old⟩ ∧
      (a.edit s name f).2.Keeps s a.dir name k ((f old).take s.fileMax) := by
  cases found : a.find s name with
  | none =>
    rw [Store.edit, found] at done
    cases done
  | some k =>
    obtain ⟨⟨called, parent, body⟩, at_k, up, named⟩ := Store.find_here found
    dsimp only at up named
    subst up named
    cases body with
    | dir =>
      simp only [Store.edit, found, at_k] at done
      cases done
    | file old =>
      have run : a.edit s called f =
          (.done, a.put k (some ⟨called, a.dir, .file ((f old).take s.fileMax)⟩)) := by
        simp only [Store.edit, found, at_k]
      refine ⟨k, old, at_k, ?_⟩
      rw [run]
      exact ⟨Store.put_self, Store.put_first found ⟨_, Store.put_self, rfl, rfl⟩
        fun _ _ _ _ => ⟨_, at_k, rfl, rfl⟩⟩

end TinyOS.EntryStores
