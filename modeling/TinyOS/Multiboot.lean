import TinyOS.LoopMachines
import TinyOS.PmmMap

set_option autoImplicit false

/-! The loops over the information block of the boot loader: `mb2_find_tag` (multiboot2.h),
`memory_detect` (memory/memory.c) and `pmm_init` (memory/pmm.c). They follow the sizes of the
tags and of the entries that the block gives. -/
namespace TinyOS.Memory
open LoopMachines

variable {m : Word → BitVec 8} {info stop tag entry : Word} {type : BitVec 32} {σ : Type}

/-- `(size + 7) & ~7` of a tag -/
def tagStep (m : Word → BitVec 8) (tag : Word) : Word :=
  ((load32 m (tag + 4) + 7) &&& ~~~7).setWidth 64

/-- `entry_end` of a memory map tag -/
def entryEnd (m : Word → BitVec 8) (tag : Word) : Word := tag + (load32 m (tag + 4)).setWidth 64

/-- `entry_size` of a memory map tag -/
def entryStep (m : Word → BitVec 8) (tag : Word) : Word := (load32 m (tag + 8)).setWidth 64

/-- `mb2_find_tag`: the first tag of a type, or the null pointer; `none` when `fuel` runs out. -/
def mb2FindTag (m : Word → BitVec 8) (type : BitVec 32) : ℕ → Word → Option (Option Word)
  | 0, _ => none
  | fuel+1, tag =>
    if load32 m tag = 0 then some none
    else if load32 m tag = type then some (some tag)
    else mb2FindTag m type fuel (tag + tagStep m tag)

/-- The entries of a memory map tag; `none` when `fuel` runs out. -/
def walkEntries (m : Word → BitVec 8) (visit : σ → Region → σ) (tag : Word) :
    ℕ → Word → σ → Option σ
  | 0, _, _ => none
  | fuel+1, entry, s =>
    if entry < entryEnd m tag then
      walkEntries m visit tag fuel (entry + entryStep m tag) (visit s (readRegion m entry))
    else some s

def walkTags (m : Word → BitVec 8) (visit : σ → Region → σ) (stop : Word) :
    ℕ → Word → σ → Option σ
  | 0, _, _ => none
  | fuel+1, tag, s =>
    if tag < stop then
      if load32 m tag = 0 then some s
      else
        let visited :=
          if load32 m tag = 6 then walkEntries m visit tag fuel (tag + 16) s else some s
        visited.bind (walkTags m visit stop fuel (tag + tagStep m tag))
    else some s

def blockEnd (m : Word → BitVec 8) (info : Word) : Word := info + (load32 m info).setWidth 64

/-- What `memory_detect` prints: the regions in order, and `total_usable`. -/
structure Detected where
  regions : List Region
  usable : Word

def noteRegion (s : Detected) (r : Region) : Detected where
  regions := s.regions ++ [r]
  usable := if r.type = 1 then s.usable + r.length else s.usable

def memoryDetect (fuel : ℕ) (m : Word → BitVec 8) (info : Word) : Option Detected :=
  walkTags m noteRegion (blockEnd m info) fuel (info + 8) ⟨[], 0⟩

theorem markEntries_eq (fuel : ℕ) (entry : Word) (s : Pmm) :
    markEntries m (load32 m (tag + 8)) (entryEnd m tag) fuel entry s =
      walkEntries m markRegion tag fuel entry s := by
  induction fuel generalizing entry s with
  | zero => rfl
  | succ fuel ih =>
    rw [walkEntries]
    by_cases lt : entry < entryEnd m tag
    · rw [markEntries_step lt, ih, if_pos lt]
      rfl
    · rw [markEntries, if_neg lt, if_neg lt]

theorem markTags_eq (fuel : ℕ) (tag : Word) (s : Pmm) :
    markTags m stop fuel tag s = walkTags m markRegion stop fuel tag s := by
  induction fuel generalizing tag s with
  | zero => rfl
  | succ fuel ih =>
    have rest : markTags m stop fuel (tag + tagStep m tag) =
        walkTags m markRegion stop fuel (tag + tagStep m tag) := funext (ih _)
    rw [walkTags, ← rest, ← markEntries_eq]
    rfl

inductive WalkState (σ : Type) where
  | tag (p : Word) (s : σ)
  | entry (p e : Word) (s : σ)

def findNext (m : Word → BitVec 8) (type : BitVec 32) (tag : Word) : Option Word :=
  if load32 m tag = 0 ∨ load32 m tag = type then none else some (tag + tagStep m tag)

def walkNext (m : Word → BitVec 8) (visit : σ → Region → σ) (stop : Word) :
    WalkState σ → Option (WalkState σ)
  | .tag p s =>
    if p < stop then
      if load32 m p = 0 then none
      else if load32 m p = 6 then some (.entry p (p + 16) s)
      else some (.tag (p + tagStep m p) s)
    else none
  | .entry p e s =>
    if e < entryEnd m p then some (.entry p (e + entryStep m p) (visit s (readRegion m e)))
    else some (.tag (p + tagStep m p) s)

theorem mb2FindTag_returns :
    (∃ fuel result, mb2FindTag m type fuel tag = some result) ↔ Ends (findNext m type) tag := by
  constructor
  · rintro ⟨fuel, result, run⟩
    induction fuel generalizing tag with
    | zero => cases run
    | succ fuel ih =>
      rw [mb2FindTag] at run
      by_cases last : load32 m tag = 0 ∨ load32 m tag = type
      · exact .stop (if_pos last)
      · rw [not_or] at last
        rw [if_neg last.1, if_neg last.2] at run
        exact .step (if_neg (not_or.mpr last)) (ih run)
  · intro ends
    refine ends.induct (motive := fun tag => ∃ fuel result, mb2FindTag m type fuel tag = some result)
      (fun tag last => ?_) fun tag next go ih => ?_
    · by_cases none : load32 m tag = 0
      · exact ⟨1, _, by rw [mb2FindTag, if_pos none]⟩
      · have found : load32 m tag = type := by
          by_contra other
          rw [findNext, if_neg (not_or.mpr ⟨none, other⟩)] at last
          cases last
        exact ⟨1, _, by rw [mb2FindTag, if_neg none, if_pos found]⟩
    · obtain ⟨fuel, result, run⟩ := ih
      rw [findNext] at go
      split_ifs at go with last
      obtain rfl := Option.some.inj go
      rw [not_or] at last
      exact ⟨fuel+1, result, by rw [mb2FindTag, if_neg last.1, if_neg last.2, run]⟩

variable {visit : σ → Region → σ}

theorem walkEntries_mono {fuel fuel' : ℕ} {s t : σ} (le : fuel ≤ fuel')
    (run : walkEntries m visit tag fuel entry s = some t) :
    walkEntries m visit tag fuel' entry s = some t := by
  induction fuel generalizing fuel' entry s with
  | zero => cases run
  | succ fuel ih =>
    obtain ⟨fuel', rfl⟩ := Nat.exists_eq_succ_of_ne_zero (show fuel' ≠ 0 by omega)
    rw [walkEntries] at run ⊢
    by_cases lt : entry < entryEnd m tag
    · rw [if_pos lt] at run ⊢
      exact ih (by omega) run
    · rw [if_neg lt] at run ⊢
      exact run

theorem walkTags_mono {fuel fuel' : ℕ} {s t : σ} (le : fuel ≤ fuel')
    (run : walkTags m visit stop fuel tag s = some t) :
    walkTags m visit stop fuel' tag s = some t := by
  induction fuel generalizing fuel' tag s with
  | zero => cases run
  | succ fuel ih =>
    obtain ⟨fuel', rfl⟩ := Nat.exists_eq_succ_of_ne_zero (show fuel' ≠ 0 by omega)
    rw [walkTags] at run ⊢
    by_cases lt : tag < stop
    · rw [if_pos lt] at run ⊢
      by_cases last : load32 m tag = 0
      · rw [if_pos last] at run ⊢
        exact run
      · rw [if_neg last] at run ⊢
        obtain ⟨u, entries, rest⟩ := Option.bind_eq_some_iff.mp run
        refine Option.bind_eq_some_iff.mpr ⟨u, ?_, ih (by omega) rest⟩
        split_ifs at entries ⊢
        · exact walkEntries_mono (by omega) entries
        · exact entries
    · rw [if_neg lt] at run ⊢
      exact run

theorem walkEntries_ends {fuel : ℕ} {s t : σ} (run : walkEntries m visit tag fuel entry s = some t)
    (rest : Ends (walkNext m visit stop) (.tag (tag + tagStep m tag) t)) :
    Ends (walkNext m visit stop) (.entry tag entry s) := by
  induction fuel generalizing entry s with
  | zero => cases run
  | succ fuel ih =>
    rw [walkEntries] at run
    by_cases lt : entry < entryEnd m tag
    · rw [if_pos lt] at run
      exact .step (if_pos lt) (ih run)
    · rw [if_neg lt] at run
      obtain rfl := Option.some.inj run
      exact .step (if_neg lt) rest

theorem walkTags_ends {fuel : ℕ} {s t : σ} (run : walkTags m visit stop fuel tag s = some t) :
    Ends (walkNext m visit stop) (.tag tag s) := by
  induction fuel generalizing tag s with
  | zero => cases run
  | succ fuel ih =>
    rw [walkTags] at run
    by_cases lt : tag < stop
    swap
    · exact .stop (if_neg lt)
    rw [if_pos lt] at run
    by_cases last : load32 m tag = 0
    · exact .stop (by rw [walkNext, if_pos lt, if_pos last])
    rw [if_neg last] at run
    obtain ⟨u, entries, rest⟩ := Option.bind_eq_some_iff.mp run
    by_cases map : load32 m tag = 6
    · rw [if_pos map] at entries
      exact .step (by rw [walkNext, if_pos lt, if_neg last, if_pos map])
        (walkEntries_ends entries (ih rest))
    · rw [if_neg map] at entries
      obtain rfl := Option.some.inj entries
      exact .step (by rw [walkNext, if_pos lt, if_neg last, if_neg map]) (ih rest)

/-- The calls return from where the walk is: at an entry, the rest of the map comes first. -/
def Returns (m : Word → BitVec 8) (visit : σ → Region → σ) (stop : Word) : WalkState σ → Prop
  | .tag p s => ∃ fuel t, walkTags m visit stop fuel p s = some t
  | .entry p e s => ∃ fuel u t, walkEntries m visit p fuel e s = some u ∧
    walkTags m visit stop fuel (p + tagStep m p) u = some t

theorem returns_of_ends {b : WalkState σ} (ends : Ends (walkNext m visit stop) b) :
    Returns m visit stop b := by
  refine ends.induct (fun b last => ?_) fun b c go ih => ?_
  · cases b with
    | tag p s =>
      by_cases lt : p < stop
      · by_cases final : load32 m p = 0
        · exact ⟨1, s, by rw [walkTags, if_pos lt, if_pos final]⟩
        · rw [walkNext, if_pos lt, if_neg final] at last
          split_ifs at last
      · exact ⟨1, s, by rw [walkTags, if_neg lt]⟩
    | entry p e s =>
      rw [walkNext] at last
      split_ifs at last
  · cases b with
    | tag p s =>
      rw [walkNext] at go
      split_ifs at go with lt final map
      · obtain rfl := Option.some.inj go
        obtain ⟨fuel, u, t, entries, rest⟩ := ih
        refine ⟨fuel+1, t, ?_⟩
        rw [walkTags, if_pos lt, if_neg final, if_pos map, entries, Option.bind_some, rest]
      · obtain rfl := Option.some.inj go
        obtain ⟨fuel, t, rest⟩ := ih
        refine ⟨fuel+1, t, ?_⟩
        rw [walkTags, if_pos lt, if_neg final, if_neg map, Option.bind_some, rest]
    | entry p e s =>
      rw [walkNext] at go
      split_ifs at go with lt
      · obtain rfl := Option.some.inj go
        obtain ⟨fuel, u, t, entries, rest⟩ := ih
        exact ⟨fuel+1, u, t, by rw [walkEntries, if_pos lt, entries],
          walkTags_mono (Nat.le_succ fuel) rest⟩
      · obtain rfl := Option.some.inj go
        obtain ⟨fuel, t, rest⟩ := ih
        exact ⟨fuel+1, s, t, by rw [walkEntries, if_neg lt],
          walkTags_mono (Nat.le_succ fuel) rest⟩

theorem walkTags_returns {s : σ} : (∃ fuel t, walkTags m visit stop fuel tag s = some t) ↔
    Ends (walkNext m visit stop) (.tag tag s) := by
  constructor
  · rintro ⟨fuel, t, run⟩
    exact walkTags_ends run
  · exact returns_of_ends

end TinyOS.Memory
