import TinyOS.Multiboot

set_option autoImplicit false

namespace TinyOS.Memory
open LoopMachines

variable {m : Word → BitVec 8} {info tag entry : Word} {type : BitVec 32} {σ : Type}

def InBlock (m : Word → BitVec 8) (info : Word) (a : Access) : Prop :=
  info.toNat ≤ a.address.toNat ∧ a.address.toNat+a.count ≤ info.toNat+totalSize m info

/-- What `mb2_find_tag` reads of a tag: the size only where it goes on. -/
def findReads (m : Word → BitVec 8) (type : BitVec 32) (tag : Word) : List Access :=
  ⟨tag, 4⟩ :: if load32 m tag = 0 ∨ load32 m tag = type then [] else [⟨tag + 4, 4⟩]

structure WalkReads where
  tag : Word → List Access
  entry : Word → Word → List Access
  first : ∀ p, ⟨p, 4⟩ ∈ tag p
  base : ∀ p e, ⟨e, 8⟩ ∈ entry p e

/-- `memory_detect` reads `entry_size` behind each entry, and no size of an END tag. -/
def detectReads (m : Word → BitVec 8) : WalkReads where
  tag p := ⟨p, 4⟩ :: if load32 m p = 0 then [] else [⟨p + 4, 4⟩]
  entry p e := [⟨e, 8⟩, ⟨e + 8, 8⟩, ⟨e + 16, 4⟩, ⟨p + 8, 4⟩]
  first _ := List.mem_cons_self
  base _ _ := List.mem_cons_self

/-- `pmm_init` reads the size of every tag, and `entry_size` before the entries. -/
def pmmReads (m : Word → BitVec 8) : WalkReads where
  tag p := ⟨p, 4⟩ :: ⟨p + 4, 4⟩ :: if load32 m p = 6 then [⟨p + 8, 4⟩] else []
  entry _ e := [⟨e, 8⟩, ⟨e + 8, 8⟩, ⟨e + 16, 4⟩]
  first _ := List.mem_cons_self
  base _ _ := List.mem_cons_self

def WalkReads.round (r : WalkReads) (m : Word → BitVec 8) (stop : Word) :
    WalkState σ → List Access
  | .tag p _ => if p < stop then r.tag p else []
  | .entry p e _ => if e < entryEnd m p then r.entry p e else []

def tagAt (m : Word → BitVec 8) (info : Word) : ℕ → Word
  | 0 => info + 8
  | n+1 => tagAt m info n + tagStep m (tagAt m info n)

def entryAt (m : Word → BitVec 8) (tag : Word) : ℕ → Word
  | 0 => tag + 16
  | j+1 => entryAt m tag j + entryStep m tag

def FindOk (m : Word → BitVec 8) (info : Word) (type : BitVec 32) : Prop :=
  ∀ n, (∀ i, i < n → load32 m (tagAt m info i) ≠ 0 ∧ load32 m (tagAt m info i) ≠ type) →
    (∀ a ∈ findReads m type (tagAt m info n), InBlock m info a) ∧
    (load32 m (tagAt m info n) ≠ 0 → load32 m (tagAt m info n) ≠ type →
      tagStep m (tagAt m info n) ≠ 0)

structure EntryOk (r : WalkReads) (m : Word → BitVec 8) (info tag entry : Word) : Prop where
  inside : ∀ a ∈ r.entry tag entry, InBlock m info a
  progress : entryStep m tag ≠ 0

/-- The fields of a tag are in the block, its rounded size is not 0, and so on for its entries. -/
structure TagOk (r : WalkReads) (m : Word → BitVec 8) (info tag : Word) : Prop where
  inside : ∀ a ∈ r.tag tag, InBlock m info a
  progress : load32 m tag ≠ 0 → tagStep m tag ≠ 0
  entries : load32 m tag = 6 → ∀ j, (∀ i, i ≤ j → entryAt m tag i < entryEnd m tag) →
    EntryOk r m info tag (entryAt m tag j)

/-- A walk comes to tag `n`: it is before the end, with no END tag before it. -/
structure Comes (m : Word → BitVec 8) (info : Word) (n : ℕ) : Prop where
  going : ∀ i, i < n → load32 m (tagAt m info i) ≠ 0
  before : ∀ i, i ≤ n → tagAt m info i < blockEnd m info

def WalkOk (r : WalkReads) (m : Word → BitVec 8) (info : Word) : Prop :=
  ∀ n, Comes m info n → TagOk r m info (tagAt m info n)

theorem totalSize_lt (m : Word → BitVec 8) (info : Word) : totalSize m info < 2^32 :=
  (load32 m info).isLt

theorem setWidth_lt (x : BitVec 32) : (x.setWidth 64).toNat < 2^32 := by
  have lt := x.isLt
  rw [BitVec.toNat_setWidth]
  omega

theorem tagStep_lt (m : Word → BitVec 8) (tag : Word) : (tagStep m tag).toNat < 2^32 :=
  setWidth_lt _

theorem entryStep_lt (m : Word → BitVec 8) (tag : Word) : (entryStep m tag).toNat < 2^32 :=
  setWidth_lt _

/-- From an address of the block, a step to another one of the block does not wrap. -/
theorem advance {p d : Word} {c c' : ℕ} (small : d.toNat < 2^32) (some : d ≠ 0)
    (here : InBlock m info ⟨p, c⟩) (there : InBlock m info ⟨p + d, c'⟩) :
    p.toNat < (p + d).toNat := by
  obtain ⟨low, high⟩ := here
  obtain ⟨low', high'⟩ := there
  have total := totalSize_lt m info
  have pos : 0 < d.toNat := count_pos some
  dsimp only at low high low' high'
  rw [BitVec.toNat_add] at low' high' ⊢
  have lt := p.isLt
  omega

theorem find_visits {n : ℕ}
    (going : ∀ i, i < n → load32 m (tagAt m info i) ≠ 0 ∧ load32 m (tagAt m info i) ≠ type) :
    Visits (findNext m type) (info + 8) (tagAt m info n) := by
  induction n with
  | zero => exact .refl _
  | succ n ih =>
    have last := going n (Nat.lt_succ_self n)
    exact (ih fun i lt => going i (by omega)).tail
      (if_neg (not_or.mpr last))

/-- The search ends inside the block exactly when the tags it comes to are right. -/
theorem find_bounded_iff :
    Bounded (findNext m type) (findReads m type) (InBlock m info) (info + 8) ↔
      FindOk m info type := by
  constructor
  · rintro ⟨ends, inside⟩ n going
    have here := find_visits going
    refine ⟨inside _ here, fun last other zero => ?_⟩
    refine not_ends_of_closed (S := fun tag => tag = tagAt m info n) ?_ rfl (ends.visits here)
    rintro tag rfl
    refine ⟨_, if_neg (not_or.mpr ⟨last, other⟩), ?_⟩
    rw [zero]
    exact BitVec.add_zero _
  · intro ok
    let I (tag : Word) : Prop := ∃ n, tag = tagAt m info n ∧
      ∀ i, i < n → load32 m (tagAt m info i) ≠ 0 ∧ load32 m (tagAt m info i) ≠ type
    have keep (b c : Word) (h : I b) (go : findNext m type b = some c) : I c := by
      obtain ⟨n, rfl, going⟩ := h
      rw [findNext] at go
      split_ifs at go with last
      rw [not_or] at last
      refine ⟨n+1, (Option.some.inj go).symm, fun i lt => ?_⟩
      rcases Nat.lt_succ_iff_lt_or_eq.mp lt with lt | rfl
      · exact going i lt
      · exact last
    have start : I (info + 8) := ⟨0, rfl, fun i lt => absurd lt (Nat.not_lt_zero i)⟩
    have first {b : Word} (h : I b) : InBlock m info ⟨b, 4⟩ := by
      obtain ⟨n, rfl, going⟩ := h
      exact (ok n going).1 _ List.mem_cons_self
    refine ⟨ends_of_measure (fun tag => 2^64-tag.toNat) start keep ?_, fun b v => ?_⟩
    · intro b c h go
      have here := first h
      have there := first (keep b c h go)
      obtain ⟨n, rfl, going⟩ := h
      rw [findNext] at go
      split_ifs at go with last
      rw [not_or] at last
      obtain rfl := Option.some.inj go
      have lt := advance (tagStep_lt m _) ((ok n going).2 last.1 last.2) here there
      have bound := (tagAt m info n + tagStep m (tagAt m info n)).isLt
      omega
    · obtain ⟨n, rfl, going⟩ := v.keeps start keep
      exact (ok n going).1

variable {visit : σ → Region → σ} {r : WalkReads} {stop : Word} {s : σ}

theorem walk_leaves {b : WalkState σ} (ends : Ends (walkNext m visit stop) b) :
    ∀ p e s, b = .entry p e s →
      ∃ t, Visits (walkNext m visit stop) b (.tag (p + tagStep m p) t) := by
  refine ends.induct (motive := fun b => ∀ p e s, b = .entry p e s →
    ∃ t, Visits (walkNext m visit stop) b (.tag (p + tagStep m p) t)) ?_ ?_
  · rintro _ last p e s rfl
    rw [walkNext] at last
    split_ifs at last
  · rintro _ c go ih p e s rfl
    have step := go
    rw [walkNext] at go
    split_ifs at go with lt
    · obtain ⟨t, v⟩ := ih p _ _ (Option.some.inj go).symm
      exact ⟨t, v.head step⟩
    · obtain rfl := Option.some.inj go
      exact ⟨s, (Visits.refl _).tail step⟩

/-- A walk that ends comes to each tag before an END tag and the end. -/
theorem walk_visits (ends : Ends (walkNext m visit (blockEnd m info)) (.tag (info + 8) s)) {n : ℕ}
    (comes : ∀ i, i < n → load32 m (tagAt m info i) ≠ 0 ∧ tagAt m info i < blockEnd m info) :
    ∃ t, Visits (walkNext m visit (blockEnd m info)) (.tag (info + 8) s)
      (.tag (tagAt m info n) t) := by
  induction n with
  | zero => exact ⟨s, .refl _⟩
  | succ n ih =>
    obtain ⟨t, v⟩ := ih fun i lt => comes i (by omega)
    obtain ⟨going, before⟩ := comes n (Nat.lt_succ_self n)
    by_cases map : load32 m (tagAt m info n) = 6
    · have enter := v.tail (c := .entry (tagAt m info n) (tagAt m info n + 16) t)
        (by rw [walkNext, if_pos before, if_neg going, if_pos map])
      obtain ⟨u, leave⟩ := walk_leaves (ends.visits enter) _ _ _ rfl
      exact ⟨u, enter.trans leave⟩
    · exact ⟨t, v.tail (by rw [walkNext, if_pos before, if_neg going, if_neg map]; rfl)⟩

/-- It comes to each entry of a memory map before the end of the tag. -/
theorem walk_visits_entry {b : WalkState σ} {p : Word} {t : σ}
    (v : Visits (walkNext m visit stop) b (.tag p t)) (before : p < stop)
    (map : load32 m p = 6) {j : ℕ} (going : ∀ i, i < j → entryAt m p i < entryEnd m p) :
    ∃ u, Visits (walkNext m visit stop) b (.entry p (entryAt m p j) u) := by
  induction j with
  | zero =>
    refine ⟨t, v.tail ?_⟩
    rw [walkNext, if_pos before, if_neg (by rw [map]; decide), if_pos map]
    rfl
  | succ j ih =>
    obtain ⟨u, here⟩ := ih fun i lt => going i (by omega)
    exact ⟨_, here.tail (if_pos (going j (Nat.lt_succ_self j)))⟩

def Walked (m : Word → BitVec 8) (info : Word) : WalkState σ → Prop
  | .tag p _ => ∃ n, p = tagAt m info n ∧
    ∀ i, i < n → load32 m (tagAt m info i) ≠ 0 ∧ tagAt m info i < blockEnd m info
  | .entry p e _ => ∃ n, p = tagAt m info n ∧ Comes m info n ∧ load32 m p = 6 ∧
    ∃ j, e = entryAt m p j ∧ ∀ i, i < j → entryAt m p i < entryEnd m p

theorem comes_of {n : ℕ}
    (before : ∀ i, i < n → load32 m (tagAt m info i) ≠ 0 ∧ tagAt m info i < blockEnd m info)
    (here : tagAt m info n < blockEnd m info) : Comes m info n where
  going i lt := (before i lt).1
  before i le := by
    rcases Nat.lt_or_eq_of_le le with lt | rfl
    · exact (before i lt).2
    · exact here

theorem Comes.next {n : ℕ} (comes : Comes m info n) (last : load32 m (tagAt m info n) ≠ 0) :
    ∀ i, i < n+1 → load32 m (tagAt m info i) ≠ 0 ∧ tagAt m info i < blockEnd m info := by
  intro i lt
  refine ⟨?_, comes.before i (by omega)⟩
  rcases Nat.lt_succ_iff_lt_or_eq.mp lt with lt | rfl
  · exact comes.going i lt
  · exact last

theorem Walked.keep (b c : WalkState σ) (h : Walked m info b)
    (go : walkNext m visit (blockEnd m info) b = some c) : Walked m info c := by
  cases b with
  | tag p t =>
    obtain ⟨n, rfl, before⟩ := h
    rw [walkNext] at go
    split_ifs at go with here last map
    · obtain rfl := Option.some.inj go
      exact ⟨n, rfl, comes_of before here, map, 0, rfl, fun i lt => absurd lt (Nat.not_lt_zero i)⟩
    · obtain rfl := Option.some.inj go
      exact ⟨n+1, rfl, (comes_of before here).next last⟩
  | entry p e t =>
    obtain ⟨n, rfl, comes, map, j, rfl, going⟩ := h
    rw [walkNext] at go
    split_ifs at go with here
    · obtain rfl := Option.some.inj go
      refine ⟨n, rfl, comes, map, j+1, rfl, fun i lt => ?_⟩
      rcases Nat.lt_succ_iff_lt_or_eq.mp lt with lt | rfl
      · exact going i lt
      · exact here
    · obtain rfl := Option.some.inj go
      exact ⟨n+1, rfl, comes.next (by rw [map]; decide)⟩

theorem Walked.inside {b : WalkState σ} (h : Walked m info b) (ok : WalkOk r m info) :
    ∀ a ∈ r.round m (blockEnd m info) b, InBlock m info a := by
  cases b with
  | tag p t =>
    obtain ⟨n, rfl, before⟩ := h
    rw [WalkReads.round]
    split_ifs with here
    · exact (ok n (comes_of before here)).inside
    · exact fun a mem => absurd mem List.not_mem_nil
  | entry p e t =>
    obtain ⟨n, rfl, comes, map, j, rfl, going⟩ := h
    rw [WalkReads.round]
    split_ifs with here
    · refine ((ok n comes).entries map j fun i le => ?_).inside
      rcases Nat.lt_or_eq_of_le le with lt | rfl
      · exact going i lt
      · exact here
    · exact fun a mem => absurd mem List.not_mem_nil

def bytesLeft (p stop : Word) : ℕ := if p < stop then 2^64-p.toNat else 0

theorem bytesLeft_le (p stop : Word) : bytesLeft p stop ≤ 2^64 := by
  rw [bytesLeft]
  split_ifs
  all_goals omega

/-- A pointer that moves on inside the block has less left, also when it leaves the block. -/
theorem bytesLeft_lt {p d stop : Word} {c : ℕ} (small : d.toNat < 2^32) (some : d ≠ 0)
    (before : p < stop) (here : InBlock m info ⟨p, c⟩)
    (there : p + d < stop → InBlock m info ⟨p + d, c⟩) :
    bytesLeft (p + d) stop < bytesLeft p stop := by
  have bound := (p + d).isLt
  have lt := p.isLt
  rw [bytesLeft, bytesLeft, if_pos before]
  split_ifs with next
  · have on := advance small some here (there next)
    omega
  · omega

def walkSize (m : Word → BitVec 8) (stop : Word) : WalkState σ → ℕ
  | .tag p _ => bytesLeft p stop*2^65+(2^65-1)
  | .entry p e _ => bytesLeft p stop*2^65+bytesLeft e (entryEnd m p)

theorem WalkOk.tag_lt (ok : WalkOk r m info) {n : ℕ} (comes : Comes m info n)
    (last : load32 m (tagAt m info n) ≠ 0) :
    bytesLeft (tagAt m info n + tagStep m (tagAt m info n)) (blockEnd m info) <
      bytesLeft (tagAt m info n) (blockEnd m info) := by
  have here := ok n comes
  refine bytesLeft_lt (tagStep_lt m _) (here.progress last) (comes.before n (le_refl n))
    (here.inside _ (r.first _)) fun next => ?_
  exact (ok (n+1) (comes_of (comes.next last) next)).inside _ (r.first _)

theorem WalkOk.smaller (ok : WalkOk r m info) (b c : WalkState σ) (h : Walked m info b)
    (go : walkNext m visit (blockEnd m info) b = some c) :
    walkSize m (blockEnd m info) c < walkSize m (blockEnd m info) b := by
  cases b with
  | tag p t =>
    obtain ⟨n, rfl, before⟩ := h
    rw [walkNext] at go
    split_ifs at go with here last map
    · obtain rfl := Option.some.inj go
      have le := bytesLeft_le (tagAt m info n + 16) (entryEnd m (tagAt m info n))
      rw [walkSize, walkSize]
      omega
    · obtain rfl := Option.some.inj go
      have lt := ok.tag_lt (comes_of before here) last
      rw [walkSize, walkSize]
      omega
  | entry p e t =>
    obtain ⟨n, rfl, comes, map, j, rfl, going⟩ := h
    rw [walkNext] at go
    split_ifs at go with here
    · obtain rfl := Option.some.inj go
      have before : ∀ i, i ≤ j → entryAt m (tagAt m info n) i < entryEnd m (tagAt m info n) := by
        intro i le
        rcases Nat.lt_or_eq_of_le le with lt | rfl
        · exact going i lt
        · exact here
      have entry := (ok n comes).entries map j before
      have lt : bytesLeft (entryAt m (tagAt m info n) j + entryStep m (tagAt m info n))
          (entryEnd m (tagAt m info n)) < bytesLeft (entryAt m (tagAt m info n) j)
            (entryEnd m (tagAt m info n)) := by
        refine bytesLeft_lt (entryStep_lt m _) entry.progress here (entry.inside _ (r.base _ _))
          fun next => ?_
        refine ((ok n comes).entries map (j+1) fun i le => ?_).inside _ (r.base _ _)
        rcases Nat.lt_or_eq_of_le le with lt | rfl
        · exact before i (by omega)
        · exact next
      rw [walkSize, walkSize]
      omega
    · obtain rfl := Option.some.inj go
      have lt := ok.tag_lt comes (by rw [map]; decide)
      rw [walkSize, walkSize]
      omega

def AtTag (p : Word) : WalkState σ → Prop
  | .tag q _ => q = p
  | .entry q _ _ => q = p

/-- With a rounded size of 0 the walk does not leave the tag. -/
theorem not_ends_tag {p : Word} {t : σ} (before : p < stop) (last : load32 m p ≠ 0)
    (zero : tagStep m p = 0) : ¬Ends (walkNext m visit stop) (.tag p t) := by
  refine not_ends_of_closed (S := AtTag p) (fun b at_p => ?_) rfl
  have stays : p + tagStep m p = p := by
    rw [zero]
    exact BitVec.add_zero p
  cases b with
  | tag q u =>
    obtain rfl : q = p := at_p
    rw [walkNext, if_pos before, if_neg last]
    split_ifs
    · exact ⟨_, rfl, rfl⟩
    · exact ⟨_, rfl, stays⟩
  | entry q e u =>
    obtain rfl : q = p := at_p
    rw [walkNext]
    split_ifs
    · exact ⟨_, rfl, rfl⟩
    · exact ⟨_, rfl, stays⟩

/-- With entries of size 0 the walk does not leave the entry. -/
theorem not_ends_entry {p e : Word} {t : σ} (before : e < entryEnd m p)
    (zero : entryStep m p = 0) : ¬Ends (walkNext m visit stop) (.entry p e t) := by
  refine not_ends_of_closed (S := fun b => ∃ u, b = .entry p e u) ?_ ⟨t, rfl⟩
  rintro _ ⟨u, rfl⟩
  refine ⟨_, if_pos before, visit u (readRegion m e), ?_⟩
  have stays : e + entryStep m p = e := by
    rw [zero]
    exact BitVec.add_zero e
  rw [stays]

/-- The walk ends inside the block exactly when the tags and entries it comes to are right. -/
theorem walk_bounded_iff : Bounded (walkNext m visit (blockEnd m info))
    (r.round m (blockEnd m info)) (InBlock m info) (.tag (info + 8) s) ↔ WalkOk r m info := by
  constructor
  · rintro ⟨ends, inside⟩ n comes
    have before := comes.before n (le_refl n)
    obtain ⟨t, here⟩ := walk_visits ends fun i lt =>
      ⟨comes.going i lt, comes.before i (Nat.le_of_lt lt)⟩
    refine ⟨?_, fun last zero => ?_, fun map j going => ?_⟩
    · have reads := inside _ here
      rwa [WalkReads.round, if_pos before] at reads
    · exact not_ends_tag before last zero (ends.visits here)
    · obtain ⟨u, there⟩ := walk_visits_entry here before map (j := j) fun i lt =>
        going i (Nat.le_of_lt lt)
      have at_entry := going j (le_refl j)
      constructor
      · have reads := inside _ there
        rwa [WalkReads.round, if_pos at_entry] at reads
      · exact fun zero => not_ends_entry at_entry zero (ends.visits there)
  · intro ok
    have start : Walked m info (.tag (info + 8) s : WalkState σ) :=
      ⟨0, rfl, fun i lt => absurd lt (Nat.not_lt_zero i)⟩
    exact ⟨ends_of_measure _ start Walked.keep ok.smaller,
      fun b v => (v.keeps start Walked.keep).inside ok⟩

/-- The loops of `mb2_find_tag`, `memory_detect` and `pmm_init` end, and what they read lies in
the block. -/
structure WalksBounded (m : Word → BitVec 8) (info : Word) : Prop where
  find : ∀ type, Bounded (findNext m type) (findReads m type) (InBlock m info) (info + 8)
  detect : Bounded (walkNext m noteRegion (blockEnd m info))
    ((detectReads m).round m (blockEnd m info)) (InBlock m info) (.tag (info + 8) ⟨[], 0⟩)
  init : Bounded (walkNext m markRegion (blockEnd m info))
    ((pmmReads m).round m (blockEnd m info)) (InBlock m info) (.tag (info + 8) allUsed)

theorem walksBounded_iff (m : Word → BitVec 8) (info : Word) : WalksBounded m info ↔
    (∀ type, FindOk m info type) ∧ WalkOk (detectReads m) m info ∧ WalkOk (pmmReads m) m info := by
  constructor
  · rintro ⟨find, detect, init⟩
    exact ⟨fun type => find_bounded_iff.mp (find type), walk_bounded_iff.mp detect,
      walk_bounded_iff.mp init⟩
  · rintro ⟨find, detect, init⟩
    exact ⟨fun type => find_bounded_iff.mpr (find type), walk_bounded_iff.mpr detect,
      walk_bounded_iff.mpr init⟩

/-- A block of 24 bytes at `0x10000` with one tag: its type is 1 and its size is 0. -/
def emptyTag (a : Word) : BitVec 8 :=
  if a = 0x10000 then 24 else if a = 0x10008 then 1 else 0

theorem walks_unbounded : ¬∀ m info, WalksBounded m info := by
  intro all
  obtain ⟨-, detect, -⟩ := (walksBounded_iff emptyTag 0x10000).mp (all _ _)
  refine (detect 0 ⟨fun i lt => absurd lt (Nat.not_lt_zero i), fun i le => ?_⟩).progress
    (by decide) (by decide)
  obtain rfl := Nat.le_zero.mp le
  decide

end TinyOS.Memory
