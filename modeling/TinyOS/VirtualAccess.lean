import TinyOS.Kmalloc

set_option autoImplicit false

/-! Loads and stores of the processor in ring 0, which does not look at `PAGE_USER` and, with
CR0.WP clear (boot.s), not at `PAGE_WRITABLE` either. -/
namespace TinyOS.Memory
open RadixTables

variable {k : Kernel} {a va : Word}

def Kernel.pml4e (k : Kernel) (cr3 va : Word) : Word := k.memory (physicalToTable cr3) (pml4Index va)

def Kernel.pdpte (k : Kernel) (cr3 va : Word) : Word :=
  k.memory (physicalToTable (k.pml4e cr3 va)) (pdptIndex va)

def Kernel.pde (k : Kernel) (cr3 va : Word) : Word :=
  k.memory (physicalToTable (k.pdpte cr3 va)) (pdIndex va)

def Kernel.pte (k : Kernel) (cr3 va : Word) : Word :=
  k.memory (physicalToTable (k.pde cr3 va)) (ptIndex va)

def Kernel.present (k : Kernel) (cr3 va : Word) : Bool :=
  has pagePresent (k.pml4e cr3 va) && has pagePresent (k.pdpte cr3 va) &&
    has pagePresent (k.pde cr3 va) &&
    (has hugePage (k.pde cr3 va) || has pagePresent (k.pte cr3 va))

def Kernel.byteAt (k : Kernel) (a : Word) : BitVec 8 :=
  (k.wordAt a >>> (8*(a.toNat%8))).setWidth 8

def Kernel.physical (k : Kernel) (va : Word) : Word :=
  getPhysicalFrom k.memory (physicalToTable k.cr3) va

/-- `none` is a page fault. -/
def Kernel.loadByte (k : Kernel) (va : Word) : Option (BitVec 8) :=
  if k.present k.cr3 va then some (k.byteAt (k.physical va)) else none

/-- The eight bytes of a word; a page fault when one of them is absent. -/
def Kernel.loadWord (k : Kernel) (va : Word) : Option Word :=
  if (List.range 8).all fun i => k.present k.cr3 (va + BitVec.ofNat 64 i) then
    some (load64 (fun a => k.byteAt (k.physical a)) va)
  else none

/-- `false` when the page is absent: the page fault stops the machine. -/
def storeVirtual (va : Word) (v : BitVec 8) : KernelM Bool := fun k =>
  if k.present k.cr3 va then (true, ((storeByte (k.physical va) v).run k).2) else (false, k)

def storeBytes (a : Word) : List (BitVec 8) → KernelM Unit
  | [] => return ()
  | v :: rest => do
    storeByte a v
    storeBytes (a + 1) rest

theorem storeVirtual_run (va : Word) (v : BitVec 8) (k : Kernel) : (storeVirtual va v).run k =
    if k.present k.cr3 va then (true, ((storeByte (k.physical va) v).run k).2) else (false, k) :=
  rfl

theorem setByte_same (w : Word) {i : ℕ} (v : BitVec 8) (lt : i < 8) :
    (setByte w i v >>> (8*i)).setWidth 8 = v := by
  apply BitVec.eq_of_getLsbD_eq
  intro n hn
  have mask : ((0xFF : Word) <<< (8*i)).getLsbD (8*i+n) = true := by
    rw [BitVec.getLsbD_shiftLeft, show (0xFF : Word) = BitVec.ofNat 64 (2^8-1) from rfl,
      BitVec.getLsbD_ofNat, Nat.testBit_two_pow_sub_one]
    simp [show 8*i+n < 64 by omega, show 8*i+n-8*i = n by omega, hn, show n < 64 by omega]
  rw [setByte, BitVec.getLsbD_setWidth, BitVec.getLsbD_ushiftRight, BitVec.getLsbD_or,
    BitVec.getLsbD_and, BitVec.getLsbD_not, mask, BitVec.getLsbD_shiftLeft,
    BitVec.getLsbD_setWidth]
  simp [show 8*i+n < 64 by omega, show 8*i+n-8*i = n by omega, hn, show n < 64 by omega]

theorem setByte_other (w : Word) {i j : ℕ} (v : BitVec 8) (lt : j < 8) (ne : j ≠ i) :
    (setByte w i v >>> (8*j)).setWidth 8 = (w >>> (8*j)).setWidth 8 := by
  apply BitVec.eq_of_getLsbD_eq
  intro n hn
  have mask : ((0xFF : Word) <<< (8*i)).getLsbD (8*j+n) = false := by
    rw [BitVec.getLsbD_shiftLeft, show (0xFF : Word) = BitVec.ofNat 64 (2^8-1) from rfl,
      BitVec.getLsbD_ofNat, Nat.testBit_two_pow_sub_one]
    by_cases below : 8*j+n < 8*i
    · simp [below]
    · simp [show ¬8*j+n-8*i < 8 by omega]
  have byte : (v.setWidth 64 <<< (8*i)).getLsbD (8*j+n) = false := by
    rw [BitVec.getLsbD_shiftLeft, BitVec.getLsbD_setWidth]
    by_cases below : 8*j+n < 8*i
    · simp [below]
    · rw [BitVec.getLsbD_of_ge v _ (by omega)]
      simp
  rw [setByte, BitVec.getLsbD_setWidth, BitVec.getLsbD_setWidth, BitVec.getLsbD_ushiftRight,
    BitVec.getLsbD_ushiftRight, BitVec.getLsbD_or, BitVec.getLsbD_and, BitVec.getLsbD_not, mask, byte]
  simp [show 8*j+n < 64 by omega]

theorem byteAt_storeByte (a a' : Word) (v : BitVec 8) :
    ((storeByte a v).run k).2.byteAt a' = if a' = a then v else k.byteAt a' := by
  have stored : ((storeByte a v).run k).2 =
      ((storeWord a (setByte (k.wordAt a) (a.toNat%8) v)).run k).2 := rfl
  rw [Kernel.byteAt, Kernel.byteAt, stored]
  by_cases eq : a' = a
  · rw [if_pos eq, eq, wordAt_storeWord]
    exact setByte_same _ _ (Nat.mod_lt _ (by decide))
  rw [if_neg eq]
  by_cases word : pageOf a' = pageOf a ∧ wordIndex a' = wordIndex a
  · have same : k.wordAt a' = k.wordAt a := by rw [Kernel.wordAt, Kernel.wordAt, word.1, word.2]
    have stored' : ((storeWord a (setByte (k.wordAt a) (a.toNat%8) v)).run k).2.wordAt a' =
        setByte (k.wordAt a) (a.toNat%8) v := by
      change ((storeWord a (setByte (k.wordAt a) (a.toNat%8) v)).run k).2.memory (pageOf a')
        (wordIndex a') = _
      rw [word.1, word.2]
      exact wordAt_storeWord a _ k
    have off : a'.toNat%8 ≠ a.toNat%8 := by
      intro low
      obtain ⟨page, index⟩ := word
      simp only [pageOf, wordIndex, Fin.mk.injEq] at page index
      exact eq (BitVec.eq_of_toNat_eq (by omega))
    rw [stored', same]
    exact setByte_other _ _ (Nat.mod_lt _ (by decide)) off
  · rw [wordAt_storeWord_ne _ _ fun page index => word ⟨page, index⟩]

theorem storeByte_memory (a : Word) (v : BitVec 8) {p : ℕ} (ne : p ≠ pageOf a) :
    ((storeByte a v).run k).2.memory p = k.memory p := setEntry_table _ _ _ ne

section
variable {l : List (BitVec 8)}

theorem storeBytes_run (a : Word) (v : BitVec 8) (l : List (BitVec 8)) (k : Kernel) :
    (storeBytes a (v :: l)).run k = (storeBytes (a+1) l).run ((storeByte a v).run k).2 := rfl

theorem storeBytes_statics (a : Word) (l : List (BitVec 8)) (k : Kernel) :
    ((storeBytes a l).run k).2 = { k with memory := ((storeBytes a l).run k).2.memory } := by
  induction l generalizing a k with
  | nil => rfl
  | cons v rest ih =>
    rw [storeBytes_run]
    exact (ih (a+1) _).trans rfl

theorem storeBytes_byte {n : ℕ} (short : a.toNat+n ≤ 2^64) (length : l.length = n) (a' : Word) :
    ((storeBytes a l).run k).2.byteAt a' =
      if a.toNat ≤ a'.toNat ∧ a'.toNat < a.toNat+n then l.getD (a'.toNat-a.toNat) 0
      else k.byteAt a' := by
  induction l generalizing a k n with
  | nil =>
    obtain rfl : 0 = n := length
    rw [if_neg (by omega)]
    rfl
  | cons v rest ih =>
    obtain rfl : rest.length+1 = n := length
    rw [storeBytes_run]
    by_cases last : rest = []
    · subst last
      change ((storeByte a v).run k).2.byteAt a' = _
      rw [byteAt_storeByte]
      by_cases here : a' = a
      · rw [if_pos here, here, if_pos (by simp), Nat.sub_self]
        rfl
      · have ne : a'.toNat ≠ a.toNat := fun eq => here (BitVec.eq_of_toNat_eq eq)
        rw [if_neg here, if_neg (by rw [List.length_nil]; omega)]
    have more := List.length_pos_iff.mpr last
    have next : (a+1).toNat = a.toNat+1 := by
      rw [BitVec.toNat_add, show (1 : Word).toNat = 1 from rfl]
      omega
    rw [ih (a := a+1) (n := rest.length) (by omega) rfl, next, byteAt_storeByte]
    by_cases here : a' = a
    · rw [if_neg (by rw [here]; omega), if_pos here, here, if_pos (by omega), Nat.sub_self]
      rfl
    · have ne : a'.toNat ≠ a.toNat := fun eq => here (BitVec.eq_of_toNat_eq eq)
      rw [if_neg here]
      by_cases inside : a.toNat+1 ≤ a'.toNat ∧ a'.toNat < a.toNat+1+rest.length
      · rw [if_pos inside, if_pos (by omega), show a'.toNat-a.toNat = a'.toNat-(a.toNat+1)+1 by
          omega, List.getD_cons_succ]
      · rw [if_neg inside, if_neg (by omega)]

theorem storeBytes_word {w : Word} (apart : ∀ j < l.length,
    pageOf w = pageOf (a + BitVec.ofNat 64 j) → wordIndex w ≠ wordIndex (a + BitVec.ofNat 64 j)) :
    ((storeBytes a l).run k).2.wordAt w = k.wordAt w := by
  induction l generalizing a k with
  | nil => rfl
  | cons v rest ih =>
    have here := apart 0 (Nat.zero_lt_succ _)
    rw [show a + BitVec.ofNat 64 0 = a from BitVec.add_zero a] at here
    rw [storeBytes_run, ih fun j lt => ?_]
    · exact wordAt_storeWord_ne _ _ here
    · have next := apart (j+1) (Nat.succ_lt_succ lt)
      rwa [BitVec.ofNat_add, BitVec.add_comm (BitVec.ofNat 64 j), ← BitVec.add_assoc] at next

end

section
variable {γ : Type} {f : Kernel → γ} (hf : Static f)
include hf

theorem keeps_storeByte (a : Word) (v : BitVec 8) : Keeps f (storeByte a v) := fun k => hf k _ _ _ _

theorem keeps_storeVirtual (va : Word) (v : BitVec 8) : Keeps f (storeVirtual va v) := by
  intro k
  rw [storeVirtual_run]
  split_ifs
  · exact keeps_storeByte hf _ v k
  · rfl

end

end TinyOS.Memory
