import TinyOS.VmmBoot

set_option autoImplicit false

namespace TinyOS.Memory
open RadixTables

variable {r : ℕ} {place place' : Places} {k k' : Kernel} {va pa flags : Word}
variable {first stop : ℕ} {s : Pmm}

structure Pmm.Room (first stop : ℕ) (s : Pmm) : Prop where
  marked : Marked s
  page0 : s.used 0 = true
  stop_le : stop ≤ 1048576
  free : ∀ ⦃p⦄, first ≤ p → p < stop → s.used p = false

theorem Pmm.Room.mono (h : s.Room first stop) {first' : ℕ} (le : first ≤ first') :
    s.Room first' stop := ⟨h.marked, h.page0, h.stop_le, fun _ hl => h.free (le.trans hl)⟩

theorem Pmm.Room.allocPages (h : s.Room first stop) {count : Word} (pos : 0 < count.toNat)
    (le : first+count.toNat ≤ stop) :
    ∃ start, 0 < start ∧ start ≤ first ∧
      (∀ q, start ≤ q → q < start+count.toNat → s.used q = false) ∧
      pmmAllocPages s count = (pageAddress start, s.takeRun start count.toNat) ∧
      (s.takeRun start count.toNat).Room (first+count.toNat) stop := by
  have total : s.totalPages = 1048576 := h.marked.total
  have bound := h.stop_le
  have here : s.FreeRun count.toNat first :=
    ⟨by rw [total]; omega, fun q hl hr => h.free hl (by omega)⟩
  have nonzero : count ≠ 0 := by
    rintro rfl
    exact absurd pos (by decide)
  obtain ⟨start, taken, run⟩ := h.marked.counted.firstRun nonzero here
  have before := taken.lowest first here
  refine ⟨start, taken.pos h.page0 pos, before, taken.free, run, ⟨?_, ?_, bound, ?_⟩⟩
  · exact ⟨h.marked.counted.takeRun (show start+count.toNat ≤ 1048576 by omega) taken.free, total⟩
  · simp only [Pmm.takeRun, h.page0, Bool.or_true]
  · intro p hl hr
    simp only [Pmm.takeRun, h.free (by omega) hr, Bool.or_false, decide_eq_false_iff_not]
    omega

theorem Pmm.Room.allocPage (h : s.Room first stop) (lt : first < stop) :
    ∃ page, 0 < page ∧ page ≤ first ∧ s.used page = false ∧
      pmmAllocPage s = (pageAddress page, s.take page) ∧ (s.take page).Room (first+1) stop := by
  have total : s.totalPages = 1048576 := h.marked.total
  have bound := h.stop_le
  have some_free : ∃ page, s.used page = false := ⟨first, h.free (le_refl first) lt⟩
  have unused := Nat.find_spec some_free
  have le : Nat.find some_free ≤ first := Nat.find_min' some_free (h.free (le_refl first) lt)
  have lowest (q : ℕ) (hq : q < Nat.find some_free) : s.used q = true :=
    Bool.not_eq_false _ ▸ Nat.find_min some_free hq
  generalize Nat.find some_free = page at unused le lowest
  have pos : 0 < page := by
    rcases Nat.eq_zero_or_pos page with rfl | pos
    · exact absurd (h.page0.symm.trans unused) (by decide)
    · exact pos
  refine ⟨page, pos, le, unused, pmmAllocPage_of (by omega) unused lowest, ⟨?_, ?_⟩, ?_, bound, ?_⟩
  · exact h.marked.counted.take (show page < 1048576 by omega) unused
  · exact h.marked.total
  · rw [take_used, h.page0, Bool.or_true]
  · intro p hl hr
    rw [take_used, h.free (by omega) hr, Bool.or_false, decide_eq_false_iff_not]
    omega

theorem allocateTable_room (h : k.pmm.Room first stop) (lt : first < stop) :
    ∃ page, 0 < page ∧ page ≤ first ∧ k.pmm.used page = false ∧
      allocateTable.run k = (some page, k.newTable page) ∧
      (k.newTable page).pmm.Room (first+1) stop := by
  obtain ⟨page, pos, le, unused, run, room⟩ := h.allocPage lt
  have bound := h.stop_le
  have ne : pageAddress page ≠ 0 := pageAddress_ne_zero pos (by omega)
  refine ⟨page, pos, le, unused, ?_, room⟩
  rw [allocateTable, run_bind,
    show allocPage.run k = (pageAddress page, { k with pmm := k.pmm.take page }) by
      change ((pmmAllocPage k.pmm).1, { k with pmm := (pmmAllocPage k.pmm).2 }) = _
      rw [run]]
  dsimp only
  rw [if_neg ne, pageOf_pageAddress (by omega)]
  rfl

theorem enterTable_room (t : ℕ) (i : Fin 512) (flags : Word) (h : k.pmm.Room first stop)
    (lt : first < stop) : ((enterTable t i flags).run k).2.pmm.Room (first+1) stop := by
  cases hc : child (k.memory t i) with
  | some c =>
    rw [enterTable_present hc]
    exact h.mono (Nat.le_succ first)
  | none =>
    obtain ⟨page, -, -, -, run, room⟩ := allocateTable_room h lt
    rw [enterTable_absent hc, run]
    exact room

theorem mapPageIn_room (r : ℕ) (va pa flags : Word) (h : k.pmm.Room first stop)
    (lt : first+3 ≤ stop) : ((mapPageIn r va pa flags).run k).2.pmm.Room (first+3) stop := by
  by_cases hv : va &&& (pageSize - 1) = 0
  swap
  · rw [mapPageIn_unaligned (.inl hv)]
    exact h.mono (by omega)
  by_cases hp : pa &&& (pageSize - 1) = 0
  swap
  · rw [mapPageIn_unaligned (.inr hp)]
    exact h.mono (by omega)
  have room₁ := enterTable_room r (pml4Index va) flags h (by omega)
  rw [mapPageIn_aligned hv hp]
  generalize (enterTable r (pml4Index va) flags).run k = x at room₁
  obtain ⟨_ | pdpt, k₁⟩ := x
  · exact room₁.mono (by omega)
  have room₂ := enterTable_room pdpt (pdptIndex va) flags room₁ (by omega)
  dsimp only
  generalize (enterTable pdpt (pdptIndex va) flags).run k₁ = x at room₂
  obtain ⟨_ | pd, k₂⟩ := x
  · exact room₂.mono (by omega)
  dsimp only
  split_ifs
  · exact room₂.mono (by omega)
  have room₃ := enterTable_room pd (pdIndex va) flags room₂ (by omega)
  generalize (enterTable pd (pdIndex va) flags).run k₂ = x at room₃
  obtain ⟨_ | pt, k₃⟩ := x
  · exact room₃
  dsimp only
  split_ifs
  all_goals exact room₃

def Own (r : ℕ) (k : Kernel) : Prop := ∀ ⦃p⦄, p < 1048576 →
  walk child k.memory r (pagePath p) = none ∨ walk child k.memory r (pagePath p) = some p

/-- With room left a page is mapped to itself; no page is taken where its table is there. -/
theorem mapOwn (hs : Sound place k) (hr : place r = some []) (own : Own r k) {p : ℕ}
    (lt : p < 1048576) (room : k.pmm.Room first stop) (le : first+3 < stop) :
    ∃ place' k', (mapPageIn r (pageAddress p) (pageAddress p) pageWritable).run k = (0, k') ∧
      Step r place k place' k' ∧ Own r k' ∧ k'.pmm.Room (first+3) stop ∧
      walk child k'.memory r (pagePath p) = some p ∧
      (walk child k.memory r (upperPath (pageAddress p)) ≠ none → k'.pmm = k.pmm) := by
  have aligned := pageAddress_aligned p
  have here : path (pageAddress p) = pagePath p := by
    rw [path_eq, pageOf_pageAddress (by omega)]
  have page : physicalToTable (pageAddress p) = p := physicalToTable_pageAddress (by omega)
  obtain ⟨result, place', k', run, step, grows, outcome⟩ :=
    mapPageIn_spec hs hr (pageAddress p) (pageAddress p) pageWritable
  have room' := mapPageIn_room r (pageAddress p) (pageAddress p) pageWritable room (by omega)
  rw [run] at room'
  have done : result = 0 ∧
      (walk child k.memory r (upperPath (pageAddress p)) ≠ none → k'.pmm = k.pmm) := by
    cases outcome with
    | unaligned un _ => rcases un with un | un <;> exact absurd aligned un
    | noPage _ _ _ full =>
      obtain ⟨q, -, -, -, found, -⟩ := allocateTable_room room' le
      rw [full] at found
      cases found
    | conflict before ne =>
      rw [here] at before
      rw [page] at ne
      rcases own lt with none | some
      · rw [none] at before
        cases before
      · rw [some] at before
        exact absurd (Option.some.inj before).symm ne
    | merged _ _ pmm => exact ⟨rfl, fun _ => pmm⟩
    | filled _ _ _ _ pmm => exact ⟨rfl, pmm⟩
  obtain ⟨rfl, pmm⟩ := done
  have mapped := mapPageIn_mapped hs hr (show pageWritable &&& pageMask = 0 by decide)
    (show ((mapPageIn r (pageAddress p) (pageAddress p) pageWritable).run k).1 = 0 by rw [run])
  rw [run, here, page] at mapped
  refine ⟨place', k', run, step, fun q ltq => ?_, room', mapped, pmm⟩
  by_cases eq : q = p
  · rw [eq]
    exact .inr mapped
  · have off : ¬pagePath q <+: path (pageAddress p) := by
      rw [here]
      exact pagePath_off (by omega) (by omega) eq
    have same : walk child k'.memory r (pagePath q) = walk child k.memory r (pagePath q) :=
      grows.walk_off hs.placed step.sound.placed hr rfl off
    rw [same]
    exact own ltq

/-- A loop over `n` pages takes three pages for each at most. -/
theorem mapOwns (hs : Sound place k) (hr : place r = some []) (own : Own r k) (a n : ℕ)
    (lt : a+n ≤ 1048576) (room : k.pmm.Room first stop) (le : first+3*n < stop) :
    ∃ place' k', (firstError (fun va => mapPageIn r va va pageWritable)
        ((List.range' a n).map pageAddress)).run k = (0, k') ∧
      Step r place k place' k' ∧ Own r k' ∧ k'.pmm.Room (first+3*n) stop := by
  induction n generalizing place k a first with
  | zero => exact ⟨place, k, rfl, Step.refl hs, own, room⟩
  | succ n ih =>
    obtain ⟨place₁, k₁, run₁, step₁, own₁, room₁, -⟩ := mapOwn hs hr own (p := a) (by omega) room
      (by omega)
    obtain ⟨place₂, k₂, run₂, step₂, own₂, room₂⟩ := ih step₁.sound (step₁.keep hr) own₁ (a+1)
      (by omega) room₁ (by omega)
    refine ⟨place₂, k₂, ?_, step₁.trans step₂, own₂, ?_⟩
    · rw [List.range'_succ, List.map_cons, firstError, run_bind, run₁]
      exact run₂
    · rw [show first+3*(n+1) = first+3+3*n by omega]
      exact room₂

/-- The tables for the blocks of 512 pages in the way take three pages for each at most. -/
theorem mapBlocks (hs : Sound place k) (hr : place r = some []) (own : Own r k) (a n : ℕ)
    (lt : a+n ≤ 1048576) (before : a%512 ≠ 0 → walk child k.memory r (pagePath (a-1)) ≠ none)
    (room : k.pmm.Room (first+3*((a+511)/512)) stop) (le : first+3*((a+n+511)/512)+3 < stop) :
    ∃ place' k', (firstError (fun va => mapPageIn r va va pageWritable)
        ((List.range' a n).map pageAddress)).run k = (0, k') ∧
      Step r place k place' k' ∧ k'.pmm.Room (first+3*((a+n+511)/512)) stop := by
  induction n generalizing place k a with
  | zero => exact ⟨place, k, rfl, Step.refl hs, room⟩
  | succ n ih =>
    have next : ∃ place' k', (mapPageIn r (pageAddress a) (pageAddress a) pageWritable).run k =
        (0, k') ∧ Step r place k place' k' ∧ Own r k' ∧
        walk child k'.memory r (pagePath a) = some a ∧
        k'.pmm.Room (first+3*((a+1+511)/512)) stop := by
      by_cases start : a%512 = 0
      · obtain ⟨place₁, k₁, run₁, step₁, own₁, room₁, mapped, -⟩ := mapOwn hs hr own (p := a)
          (by omega) room (by omega)
        refine ⟨place₁, k₁, run₁, step₁, own₁, mapped, ?_⟩
        rw [show (a+1+511)/512 = (a+511)/512+1 by omega]
        exact room₁
      · -- the page before has the tables of this one
        have there : walk child k.memory r (upperPath (pageAddress a)) ≠ none := by
          intro none
          refine before start ?_
          have same : pagePath (a-1) =
              upperPath (pageAddress a) ++ [⟨(a-1)%512, Nat.mod_lt _ entries_pos⟩] := by
            have here : path (pageAddress a) = pagePath a := by
              rw [path_eq, pageOf_pageAddress (by omega)]
            simp only [path, pagePath, List.cons.injEq, and_true] at here
            obtain ⟨h₁, h₂, h₃, -⟩ := here
            simp only [pagePath, upperPath, h₁, h₂, h₃, List.cons_append, List.nil_append,
              List.cons.injEq, Fin.mk.injEq, and_true]
            omega
          rw [same, walk_append, none]
          rfl
        obtain ⟨place₁, k₁, run₁, step₁, own₁, -, mapped, pmm⟩ := mapOwn hs hr own (p := a)
          (by omega) room (by omega)
        refine ⟨place₁, k₁, run₁, step₁, own₁, mapped, ?_⟩
        rw [pmm there, show (a+1+511)/512 = (a+511)/512 by omega]
        exact room
    obtain ⟨place₁, k₁, run₁, step₁, own₁, mapped, room₁⟩ := next
    obtain ⟨place₂, k₂, run₂, step₂, room₂⟩ := ih step₁.sound (step₁.keep hr) own₁ (a+1)
      (by omega) (fun _ => by rw [Nat.add_sub_cancel, mapped]; simp) room₁ (by
        rw [show a+1+n = a+(n+1) by omega]
        exact le)
    refine ⟨place₂, k₂, ?_, step₁.trans step₂, ?_⟩
    · rw [List.range'_succ, List.map_cons, firstError, run_bind, run₁]
      exact run₂
    · rw [show a+(n+1) = a+1+n by omega]
      exact room₂

theorem vga_page : pageAddress 0xB8 = 0xB8000 := by decide

/-- `vmm_prepare_kernel_space` returns when the pages it takes are there. -/
theorem prepareKernelSpace_room {b : Layout} {a n f m : ℕ}
    (image : alignDown b.kernelStart = pageAddress a)
    (imageEnd : alignUp b.kernelEnd = pageAddress (a+n))
    (framebuffer : alignDown b.fbAddress = pageAddress f)
    (framebufferEnd : alignUp (b.fbAddress + b.fbSize) = pageAddress (f+m))
    (le_image : a+n ≤ 1048576) (le_framebuffer : f+m ≤ 1048576)
    (room : k.pmm.Room first stop) (le : first+1+3*n+3*m+3+6147 < stop) :
    ∃ k', (vmmPrepareKernelSpace b).run k = (true, k') ∧
      k'.pmm.Room (first+1+3*n+3*m+3+6144) stop := by
  have bound := room.stop_le
  obtain ⟨page, pos, low, unused, alloc, room₀⟩ := allocateTable_room room (by omega)
  have hr : Function.update (fun _ => none : Places) page (some []) page = some [] :=
    Function.update_self _ _ _
  have table := Sound.first (k := k) room.page0 pos (show page < 1048576 by omega)
  have sound : Sound (Function.update (fun _ => none) page (some [])) (k.firstTable page) :=
    ⟨table.placed, table.closed, table.small, table.used, table.page0⟩
  have own : Own page (k.firstTable page) := by
    intro p _
    left
    simp only [Kernel.firstTable, Kernel.newTable, pagePath, walk, Function.update_self, child_zero,
      Option.bind_none]
  have pages {c d : ℕ} {u v : Word} (hu : u = pageAddress c) (hv : v = pageAddress (c+d))
      (h : c+d ≤ 1048576) : pageRange u v = (List.range' c d).map pageAddress := by
    rw [hu, hv, pageRange_eq (by omega) (by omega), Nat.add_sub_cancel_left]
  obtain ⟨place₁, k₁, run₁, step₁, own₁, room₁⟩ := mapOwns sound hr own a n le_image room₀ (by omega)
  have framebufferRun : ∃ place₂ k₂, (mapFramebuffer b page).run k₁ = (0, k₂) ∧
      Step page place₁ k₁ place₂ k₂ ∧ Own page k₂ ∧ k₂.pmm.Room (first+1+3*n+3*m) stop := by
    rw [mapFramebuffer]
    split_ifs
    · rw [mapIdentity, pages framebuffer framebufferEnd le_framebuffer]
      exact mapOwns step₁.sound (step₁.keep hr) own₁ f m le_framebuffer room₁ (by omega)
    · exact ⟨place₁, k₁, rfl, Step.refl step₁.sound, own₁, room₁.mono (by omega)⟩
  obtain ⟨place₂, k₂, run₂, step₂, own₂, room₂⟩ := framebufferRun
  have to₂ := step₁.trans step₂
  obtain ⟨place₃, k₃, run₃, step₃, own₃, room₃, -⟩ := mapOwn to₂.sound (to₂.keep hr) own₂
    (p := 0xB8) (by omega) room₂ (by omega)
  have to₃ := to₂.trans step₃
  obtain ⟨place₄, k₄, run₄, -, room₄⟩ := mapBlocks to₃.sound (to₃.keep hr) own₃ 0 1048576
    (by omega) (fun h => absurd rfl h) room₃ (by omega)
  have imageRun : (mapIdentity page (alignDown b.kernelStart) (alignUp b.kernelEnd)).run
      (k.firstTable page) = (0, k₁) := by
    rw [mapIdentity, pages image imageEnd le_image]
    exact run₁
  have vgaRun : (mapPageIn page 0xB8000 0xB8000 pageWritable).run k₂ = (0, k₃) := by
    rw [← vga_page]
    exact run₃
  have identityRun : (vmmIdentityMapPhysicalMemory page).run k₃ = (0, k₄) := by
    rw [vmmIdentityMapPhysicalMemory, mapIdentity, pages (c := 0) (d := 1048576) (by decide)
      (by decide) (le_refl _)]
    exact run₄
  exact ⟨_, prepareKernelSpace_of alloc ⟨imageRun, run₂, vgaRun, identityRun⟩, room₄⟩

end TinyOS.Memory
