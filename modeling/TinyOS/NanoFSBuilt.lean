import TinyOS.NanoFSImage
import TinyOS.NanoFSDurable
import TinyOS.ShellSessions

set_option autoImplicit false

namespace TinyOS.NanoFS
open ByteWords LibcString StateRuns EntryStores

variable {d : Disk} {riru : List UInt8} {totalSectors total : UInt32}

def helloStore (riru : List UInt8) : Store UInt32 UInt8 :=
  ⟨fun id => if id = 1 then some ⟨helloName.chars, 0, .file riru⟩ else none, 0, true⟩

theorem helloStore_keeps (riru : List UInt8) :
    (helloStore riru).Keeps shape 0 helloName.chars 1 riru where
  entry := rfl
  first := by
    have ids : inodeIds = 1 :: ((List.range 71).map fun i => UInt32.ofNat (i+1+1)) := by
      rw [inodeIds, List.range_succ_eq_map, List.map_cons, List.map_map]
      rfl
    change inodeIds.find? _ = some 1
    rw [ids, List.find?_cons_of_pos]
    exact decide_eq_true ⟨_, rfl, rfl, rfl⟩

theorem Image.mounted (image : Image totalSectors riru d) : d.Mounts := by
  rw [Disk.Mounts, image.superblock, strcmp_eq_zero, imageSuperblock_magic]
  exact ⟨rfl, imageSuperblock_version totalSectors⟩

theorem Image.live_one (image : Image totalSectors riru d) {id : UInt32}
    (live : (d.inode id).live) : id = 1 := by
  by_contra ne
  rw [image.others id ne] at live
  exact zero_not_live live

theorem helloInode_blocks (n : ℕ) (b : Fin 4) : (helloInode n).blocks b = 0 ∨
    (helloInode n).blocks b = fsDataStart := by
  have all : ∀ b, Function.update (fun _ : Fin 4 => (0 : UInt32)) 0 fsDataStart b = 0 ∨
      Function.update (fun _ : Fin 4 => (0 : UInt32)) 0 fsDataStart b = fsDataStart := by decide
  exact all b

theorem helloInode_filled {n : ℕ} (small : n ≤ 511) : (helloInode n).Filled where
  fits := by
    rw [helloInode_size (by omega)]
    omega
  real b some := by
    rw [helloInode_size (by omega)] at some
    have first : b = 0 := some.elim id fun lt => Fin.ext (show b.val = 0 by omega)
    rw [first]
    change fsDataStart ≠ 0
    decide
  apart a b some same := by
    have all : ∀ a b, Function.update (fun _ : Fin 4 => (0 : UInt32)) 0 fsDataStart a ≠ 0 →
      Function.update (fun _ : Fin 4 => (0 : UInt32)) 0 fsDataStart a =
        Function.update (fun _ : Fin 4 => (0 : UInt32)) 0 fsDataStart b → a = b := by decide
    exact all a b some same

/-- An image with a program of one block keeps the invariant of the file system. -/
theorem Image.sound (image : Image totalSectors riru d) (small : riru.length ≤ 511) :
    (Fs.mk d ⟨0, total⟩).Sound where
  blocks := (image.holds total).blocks
  terminated id := by
    change 0 ∈ List.ofFn (d.inode id).name
    by_cases first : id = 1
    · rw [first, image.hello]
      exact List.mem_ofFn.mpr ⟨27, show (strncpy helloName.chars 27).getD 27 0 = 0 by decide⟩
    · rw [image.others id first]
      exact zero_terminated
  apart i j hi hj ne := absurd ((image.live_one hi).trans (image.live_one hj).symm) ne
  filled id live _ := by
    obtain rfl := image.live_one live
    change (d.inode 1).Filled
    rw [image.hello]
    exact helloInode_filled small
  ancestors := ⟨[], .root, by simp⟩
  sizeless id live isDir := by
    obtain rfl := image.live_one live
    change (d.inode 1).isDirectory ≠ 0 at isDir
    rw [image.hello] at isDir
    exact absurd rfl isDir

theorem Image.highest (image : Image totalSectors riru d) : d.highest = 9 := by
  refine UInt32.le_antisymm ((highest_le _ _).mpr ⟨by decide, fun id live b => ?_⟩) ?_
  · obtain rfl := image.live_one live
    rw [image.hello]
    rcases helloInode_blocks riru.length b with eq | eq
    · rw [eq]
      decide
    · rw [eq]
      decide
  · have live : (d.inode 1).live := by
      rw [image.hello]
      exact (helloInode_matches _).1
    have le := block_le_highest live 0
    rwa [image.hello] at le

theorem Image.view (image : Image totalSectors riru d) (small : riru.length ≤ 511) :
    (Fs.mk d ⟨0, total⟩).view = helloStore riru := by
  have holds := image.holds total
  have bytes : d.fileBytes (helloInode riru.length) = riru := by
    have same := readsAs_eq (holds.reads small)
    rw [holds.lookup, holds.hello] at same
    exact same.symm
  have entry : (fun id => d.entryOf (d.inode id)) = (helloStore riru).entry := by
    funext id
    change _ = if id = 1 then some (Entry.mk helloName.chars 0 (.file riru)) else none
    by_cases first : id = 1
    · rw [if_pos first, first, image.hello, Disk.entryOf, if_pos (helloInode_matches _).1,
        (helloInode_matches _).2.2, (helloInode_matches _).2.1, body_file rfl, bytes]
    · rw [if_neg first, image.others id first]
      exact if_neg zero_not_live
  have valid : decide d.Mounts = true := decide_eq_true image.mounted
  change Store.mk (fun id => d.entryOf (d.inode id)) 0 (decide d.Mounts) = helloStore riru
  rw [entry, valid]
  rfl

/-- The file system once the kernel has started on the image of a program. -/
def builtFs (totalSectors : UInt32) (riru : List UInt8) (st : Statics) : Fs :=
  (exec .mount ⟨((nanofsImg totalSectors riru).run newImage).2, st⟩).2

/-- An image of one block is written and mounted, and stands for its program. -/
theorem builtFs_sound (totalSectors : UInt32) (st : Statics) (some : riru ≠ [])
    (small : riru.length ≤ 511) : ((nanofsImg totalSectors riru).run newImage).1 = 0 ∧
      (exec .mount ⟨((nanofsImg totalSectors riru).run newImage).2, st⟩).1 = 1 ∧
      (builtFs totalSectors riru st).Sound ∧ (builtFs totalSectors riru st).disk.highest = 9 ∧
      (builtFs totalSectors riru st).view = helloStore riru := by
  have fits : riru.length ≤ 2044 := by omega
  have image := nanofsImg_image totalSectors some fits
  obtain ⟨total, run⟩ := image.mounts st
  rw [builtFs, run]
  exact ⟨(nanofsImg_sectors totalSectors some fits).1, rfl, image.sound small, image.highest,
    image.view small⟩

end TinyOS.NanoFS

namespace TinyOS.Shell
open LibcString NanoFS EntryStores StateRuns

variable {riru : List UInt8} {fuel : ℕ} {lines : List Entered}

theorem built_follows (totalSectors : UInt32) (st : Statics) (some : riru ≠ [])
    (small : riru.length ≤ 511) (short : ∀ l ∈ lines, l.2.chars.length < cmdMax)
    (few : lines.length < 4294967286) :
    Follows (builtFs totalSectors riru st) lines.length
      (session (executeCommand fuel) lines (builtFs totalSectors riru st))
      (session (planCommand fuel) lines (helloStore riru)) := by
  obtain ⟨-, -, sound, highest, view⟩ := builtFs_sound totalSectors st some small
  rw [← view]
  refine session_follows fuel sound short ?_
  rw [highest]
  change 9+lines.length < _
  omega

end TinyOS.Shell
