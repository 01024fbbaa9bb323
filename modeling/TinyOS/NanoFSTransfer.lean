import TinyOS.NanoFSSpec

set_option autoImplicit false

namespace TinyOS.NanoFS
open ByteWords LibcString

/-- The write loop from slot `j` on: it goes on exactly while bytes are left. -/
theorem writeBytes_from (data : Buffer) (node : Inode) (size : UInt32) (bs : List (Fin 4))
    (j : ℕ) (written : UInt32) (d : Disk) (hw : written.toNat = 511*j)
    (hc : Consecutive j bs) (hs : 511*j ≤ size.toNat)
    (left : ∀ b ∈ bs, j < b.val → 511*b.val < size.toNat) :
    (writeBytes data node size bs written : DiskM Unit).run d =
      ((), d.writeBlocks data node.blocks size.toNat bs) := by
  induction bs generalizing j written d with
  | nil => rfl
  | cons b bs ih =>
    obtain ⟨rfl, hc⟩ := hc
    rw [writeBytes, bind_run, ataWriteSector_run, chunkSector_eq data hw hs]
    have hsub : (size-written).toNat = size.toNat-511*b.val := by
      rw [UInt32.toNat_sub_of_le _ _ (by rw [UInt32.le_iff_toNat_le]; omega), hw]
    have hb := b.isLt
    have hadd : (written+chunkOf (size-written)).toNat =
        511*b.val+min (size.toNat-511*b.val) 511 := by
      rw [UInt32.toNat_add, chunkOf_toNat, hsub, hw]
      omega
    cases bs with
    | nil => split_ifs <;> rfl
    | cons c bs =>
      have hcv : c.val = b.val+1 := hc.1
      have hl := left c (by simp) (by omega)
      have hn : ¬written+chunkOf (size-written) ≥ size := by
        rw [ge_iff_le, UInt32.le_iff_toNat_le, hadd]
        omega
      rw [if_neg hn, ih (b.val+1) _ _ (by rw [hadd]; omega) hc (by omega)]
      · rfl
      · intro e he hje
        exact left e (List.mem_cons_of_mem b he) (by omega)

theorem writeBytes_run (data : Buffer) (node : Inode) {size : UInt32} (h : size.toNat ≤ 2044)
    (d : Disk) : (writeBytes data node size (blockRange (blocksFor size)) 0 : DiskM Unit).run d =
      ((), d.writeBlocks data node.blocks size.toNat (blockRange (blocksFor size))) := by
  refine writeBytes_from data node size _ 0 0 d rfl (consecutive_blockRange _) (by omega) ?_
  intro b hb hpos
  rcases (mem_blocksFor h).mp hb with rfl | hb
  · simp at hpos
  · exact hb

/-- The loop of `fs_write` writes the same blocks, but none for an empty text. -/
theorem writeText_from (data : Buffer) (node : Inode) (len : UInt32) (bs : List (Fin 4))
    (j : ℕ) (written : UInt32) (d : Disk) (hw : written.toNat = 511*j)
    (hc : Consecutive j bs) (left : ∀ b ∈ bs, 511*b.val < len.toNat) :
    (writeText data node len bs written : DiskM Unit).run d =
      ((), d.writeBlocks data node.blocks len.toNat bs) := by
  induction bs generalizing j written d with
  | nil => rfl
  | cons b bs ih =>
    obtain ⟨rfl, hc⟩ := hc
    have hb := left b (by simp)
    have hlt : written < len := by rw [UInt32.lt_iff_toNat_lt]; omega
    rw [writeText, if_pos hlt, bind_run, ataWriteSector_run, chunkSector_eq data hw hb.le]
    have hsub : (len-written).toNat = len.toNat-511*b.val := by
      rw [UInt32.toNat_sub_of_le _ _ (by rw [UInt32.le_iff_toNat_le]; omega), hw]
    have hb4 := b.isLt
    have hadd : (written+chunkOf (len-written)).toNat =
        511*b.val+min (len.toNat-511*b.val) 511 := by
      rw [UInt32.toNat_add, chunkOf_toNat, hsub, hw]
      omega
    cases bs with
    | nil => rfl
    | cons c bs =>
      have hcv : c.val = b.val+1 := hc.1
      have hl := left c (by simp)
      rw [ih (b.val+1) _ _ (by rw [hadd]; omega) hc]
      · rfl
      · exact fun e he => left e (List.mem_cons_of_mem b he)

/-- The slots `fs_write` stores to. -/
def textRange (len : UInt32) : List (Fin 4) := if len = 0 then [] else blockRange (blocksFor len)

theorem mem_textRange {len : UInt32} (h : len.toNat ≤ 2044) {b : Fin 4} :
    b ∈ textRange len ↔ 511*b.val < len.toNat := by
  unfold textRange
  split_ifs with h0
  · subst h0
    simp
  · rw [mem_blocksFor h]
    have hn : len.toNat ≠ 0 := fun e => h0 (UInt32.toNat_inj.mp e)
    constructor
    · rintro (rfl | hb)
      · simp; omega
      · exact hb
    · exact .inr

theorem writeText_run (data : Buffer) (node : Inode) {len : UInt32} (h : len.toNat ≤ 2044)
    (d : Disk) : (writeText data node len (blockRange (blocksFor len)) 0 : DiskM Unit).run d =
      ((), d.writeBlocks data node.blocks len.toNat (textRange len)) := by
  unfold textRange
  split_ifs with h0
  · subst h0
    rfl
  · refine writeText_from data node len _ 0 0 d rfl (consecutive_blockRange _) ?_
    intro b hb
    have ht : b ∈ textRange len := by rwa [textRange, if_neg h0]
    exact (mem_textRange h).mp ht

def Inode.leading (v : Inode) : ℕ := ((List.finRange 4).takeWhile fun b => v.blocks b ≠ 0).length

theorem lt_leading {v : Inode} {n : ℕ} (h : n < 4) :
    n < v.leading ↔ ∀ b : Fin 4, b.val ≤ n → v.blocks b ≠ 0 := by
  have scan (l : List (Fin 4)) (n : ℕ) (h : n < l.length) :
      n < (l.takeWhile fun b => v.blocks b ≠ 0).length ↔
        ∀ (i : ℕ) (hi : i < l.length), i ≤ n → v.blocks l[i] ≠ 0 := by
    induction l generalizing n with
    | nil => simp at h
    | cons b l ih =>
      by_cases hb : v.blocks b = 0
      · rw [List.takeWhile_cons_of_neg (by simpa using hb)]
        refine ⟨fun hn => absurd hn (by simp), fun hall => ?_⟩
        exact absurd hb (hall 0 (by simp) (Nat.zero_le n))
      · rw [List.takeWhile_cons_of_pos (by simpa using hb), List.length_cons]
        cases n with
        | zero =>
          refine ⟨fun _ i hi hn => ?_, fun _ => Nat.succ_pos _⟩
          obtain rfl : i = 0 := by omega
          exact hb
        | succ n =>
          rw [Nat.succ_lt_succ_iff, ih n (by simpa using h)]
          constructor
          · intro hall i hi hn
            cases i with
            | zero => exact hb
            | succ i => exact hall i (by simpa using hi) (by omega)
          · intro hall i hi hn
            exact hall (i+1) (by simpa using hi) (by omega)
  rw [Inode.leading, scan _ n (by simpa using h)]
  constructor
  · intro hall b hb
    have hv := hall b.val (by simp) hb
    simpa using hv
  · intro hall i hi hn
    exact hall _ (by simpa using hn)

def Inode.extent (v : Inode) (toRead : ℕ) : ℕ := min toRead (511*v.leading)

def Disk.content (d : Disk) (blocks : Fin 4 → UInt32) (k : ℕ) : UInt8 :=
  if h : k/511 < 4 then cell (d.sectors (blocks ⟨k/511, h⟩)) (k%511) else 0

theorem readBlocks_from (node : Inode) (toRead : UInt32) (bs : List (Fin 4)) (j : ℕ)
    (pos : UInt32) (buffer : Buffer) (d : Disk) (hp : pos.toNat = min toRead.toNat (511*j))
    (hc : Consecutive j bs) : ∃ pos' : UInt32, ∃ buffer',
      (readBlocks node toRead bs pos buffer : DiskM (UInt32 × Buffer)).run d =
        ((pos', buffer'), d) ∧
      pos'.toNat = min toRead.toNat
        (511*(j+(bs.takeWhile fun b => node.blocks b ≠ 0).length)) ∧
      ∀ k, buffer' k =
        if pos.toNat ≤ k ∧ k < pos'.toNat then d.content node.blocks k else buffer k := by
  induction bs generalizing j pos buffer with
  | nil =>
    refine ⟨pos, buffer, rfl, by simpa using hp, fun k => ?_⟩
    rw [if_neg (by omega)]
  | cons b bs ih =>
    obtain ⟨rfl, hc⟩ := hc
    unfold readBlocks
    by_cases hlt : pos < toRead
    · rw [if_pos hlt]
      rw [UInt32.lt_iff_toNat_lt] at hlt
      by_cases hb : node.blocks b = 0
      · rw [if_pos hb]
        refine ⟨pos, buffer, rfl, ?_, fun k => ?_⟩
        · simpa [hb] using hp
        · rw [if_neg (by omega)]
      · have hb4 := b.isLt
        have hsub : (toRead-pos).toNat = toRead.toNat-511*b.val := by
          rw [UInt32.toNat_sub_of_le _ _ (by rw [UInt32.le_iff_toNat_le]; omega), hp]
          omega
        have hadd : (pos+chunkOf (toRead-pos)).toNat = min toRead.toNat (511*(b.val+1)) := by
          rw [UInt32.toNat_add, chunkOf_toNat, hsub, hp]
          omega
        obtain ⟨pos', buffer', hr, hp', hk⟩ := ih (b.val+1) (pos+chunkOf (toRead-pos))
          (storeChunk buffer pos (chunkOf (toRead-pos)) (d.sectors (node.blocks b))) hadd hc
        rw [if_neg hb, bind_run, ataReadSector_run]
        refine ⟨pos', buffer', hr, ?_, fun k => ?_⟩
        · rw [hp', List.takeWhile_cons_of_pos (by simpa using hb), List.length_cons]
          congr 2
          omega
        · rw [hk k, hadd]
          have hchunk := chunkOf_toNat (toRead-pos)
          rw [hsub] at hchunk
          -- a byte below the next position lies in the sector just read
          by_cases hlow : k < min toRead.toNat (511*(b.val+1))
          · rw [if_neg (by omega), storeChunk]
            by_cases hge : pos.toNat ≤ k
            · have hdiv : k/511 = b.val := by omega
              have hmod : k%511 = k-pos.toNat := by omega
              have hb' : (⟨k/511, by omega⟩ : Fin 4) = b := Fin.ext hdiv
              rw [if_pos ⟨hge, by omega⟩, if_pos ⟨hge, by omega⟩, Disk.content,
                dif_pos (by omega), hb', hmod]
            · rw [if_neg (by omega), if_neg (by omega)]
          · rw [storeChunk, if_neg (by omega : ¬(pos.toNat ≤ k ∧ _))]
            congr 1
            simp only [eq_iff_iff]
            omega
    · rw [if_neg hlt]
      rw [UInt32.lt_iff_toNat_lt] at hlt
      refine ⟨pos, buffer, rfl, ?_, fun k => ?_⟩
      · rw [Nat.mul_add]
        omega
      · rw [if_neg (by omega)]

def Disk.readInto (d : Disk) (node : Inode) (toRead : ℕ) (buffer : Buffer) : Buffer := fun k =>
  if k < node.extent toRead then d.content node.blocks k else buffer k

theorem extent_le (v : Inode) (toRead : ℕ) : v.extent toRead ≤ 2044 := by
  have h := (List.takeWhile_sublist (l := List.finRange 4)
    fun b => decide (v.blocks b ≠ 0)).length_le
  simp only [Inode.extent, Inode.leading, List.length_finRange] at h ⊢
  omega

theorem readBlocks_run (node : Inode) (toRead : UInt32) (buffer : Buffer) (d : Disk) :
    (readBlocks node toRead (blockRange fsMaxBlocks) 0 buffer : DiskM (UInt32 × Buffer)).run d =
      ((UInt32.ofNat (node.extent toRead.toNat), d.readInto node toRead.toNat buffer), d) := by
  obtain ⟨pos', buffer', hr, hp, hk⟩ := readBlocks_from node toRead (blockRange fsMaxBlocks) 0 0
    buffer d (by simp) (consecutive_blockRange _)
  have hall : blockRange fsMaxBlocks = List.finRange 4 := rfl
  have he : pos'.toNat = node.extent toRead.toNat := by
    rw [hp, hall, Nat.zero_add]
    rfl
  have hpos : pos' = UInt32.ofNat (node.extent toRead.toNat) := by rw [← he, UInt32.ofNat_toNat]
  have hbuf : buffer' = d.readInto node toRead.toNat buffer := by
    funext k
    rw [hk k, he, Disk.readInto]
    simp
  rw [hr, hpos, hbuf]

end TinyOS.NanoFS
