import TinyOS.RiruBounds

set_option autoImplicit false

namespace TinyOS.Riru
open Memory

variable {file file' : Bytes} {size : Word} {image : RiruImage}

def SameBytes (size : Word) (file file' : Bytes) : Prop :=
  ∀ a : Word, a.toNat < size.toNat → file' a = file a

theorem load_congr {m m' : Word → BitVec 8} {a : Word} {n : ℕ}
    (same : ∀ i < n, m' (a + BitVec.ofNat 64 i) = m (a + BitVec.ofNat 64 i)) :
    load m' a n = load m a n := by
  induction n generalizing a with
  | zero => rfl
  | succ n ih =>
    have first : m' a = m a := by
      have here := same 0 (Nat.succ_pos n)
      rwa [show a + BitVec.ofNat 64 0 = a from BitVec.add_zero a] at here
    have rest : load m' (a+1) n = load m (a+1) n := by
      refine ih fun i lt => ?_
      have next := same (i+1) (by omega)
      rwa [BitVec.ofNat_add, BitVec.add_comm (BitVec.ofNat 64 i), ← BitVec.add_assoc] at next
    rw [load, load, first, rest]

theorem load_offset (m : Word → BitVec 8) (file a : Word) (n : ℕ) :
    load (fun i => m (file + i)) a n = load m (file + a) n := by
  induction n generalizing a with
  | zero => rfl
  | succ n ih => rw [load, load, ih, BitVec.add_assoc]

theorem load64_offset (m : Word → BitVec 8) (file a : Word) :
    load64 (fun i => m (file + i)) a = load64 m (file + a) :=
  congrArg (BitVec.ofNat 64) (load_offset m file a 8)

theorem readHeader_congr (enough : 120 ≤ size.toNat) (same : SameBytes size file file') :
    readHeader file' = readHeader file := by
  have byte (a : Word) (lt : a.toNat < 120) : file' a = file a := same a (by omega)
  have word (a : Word) (lt : a.toNat+8 ≤ 120) : load64 file' a = load64 file a := by
    refine congrArg (BitVec.ofNat 64) (load_congr fun i small => byte _ ?_)
    rw [BitVec.toNat_add, BitVec.toNat_ofNat]
    omega
  have half (a : Word) (lt : a.toNat+2 ≤ 120) : load16 file' a = load16 file a := by
    refine congrArg (BitVec.ofNat 16) (load_congr fun i small => byte _ ?_)
    rw [BitVec.toNat_add, BitVec.toNat_ofNat]
    omega
  rw [readHeader, readHeader, byte 0 (by decide), byte 1 (by decide), byte 2 (by decide),
    byte 3 (by decide), half 4 (by decide), half 6 (by decide), half 8 (by decide),
    half 10 (by decide), word 16 (by decide), word 24 (by decide), word 32 (by decide),
    word 40 (by decide), word 48 (by decide), word 56 (by decide), word 64 (by decide),
    word 72 (by decide), word 80 (by decide), word 88 (by decide), word 96 (by decide),
    word 104 (by decide), word 112 (by decide)]

theorem riruValidate_congr (same : SameBytes size file file') :
    riruValidate (some file') size = riruValidate (some file) size := by
  rw [riruValidate, riruValidate]
  by_cases short : size < riruHeaderSize
  · rw [if_pos short, if_pos short]
  · have enough : 120 ≤ size.toNat := Nat.le_of_not_lt fun lt => short (BitVec.lt_def.mpr lt)
    rw [readHeader_congr enough same]

theorem riruParse_same (same : SameBytes size file file') : riruParse (some file') size =
    (riruParse (some file) size).map fun image => { image with file := file' } := by
  by_cases accepted : riruValidate (some file) size = 0
  · have enough : 120 ≤ size.toNat := (riruValidate_eq_zero.mp accepted).header
    have parsed := riruParse_ok ((riruValidate_congr same).trans accepted)
    rw [readHeader_congr enough same] at parsed
    rw [parsed, riruParse_ok accepted, Except.map]
  · rw [riruParse, riruParse, riruValidate_congr same, if_pos accepted, if_pos accepted]
    rfl

/-- The parse of the larger buffer is that of the file, with the same section bytes. -/
theorem riruParse_congr (same : SameBytes size file file')
    (parsed : riruParse (some file') size = .ok image) :
    riruParse (some file) size = .ok { image with file := file } ∧
      ∀ r ∈ image.ranges, ∀ i < r.2.toNat,
        image.byte r.1 i = RiruImage.byte { image with file := file } r.1 i := by
  have accepted : riruValidate (some file') size = 0 := by
    by_contra refused
    rw [riruParse, if_pos refused] at parsed
    cases parsed
  have given := Except.ok.inj ((riruParse_ok accepted).symm.trans parsed)
  have enough : 120 ≤ size.toNat := (riruValidate_eq_zero.mp accepted).header
  constructor
  · rw [riruParse_ok ((riruValidate_congr same).symm.trans accepted), ← given,
      readHeader_congr enough same]
  · intro r mem i lt
    have inside := riruParse_ranges parsed r mem
    have bytes : image.file = file' := by rw [← given]
    cases start : r.1 with
    | none => rfl
    | some offset =>
      have bound := inside offset start i lt
      have limit := size.isLt
      change image.file (offset + BitVec.ofNat 64 i) = file (offset + BitVec.ofNat 64 i)
      rw [bytes]
      refine same _ ?_
      rw [BitVec.toNat_add, BitVec.toNat_ofNat]
      omega

end TinyOS.Riru
