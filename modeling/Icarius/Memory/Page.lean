/-
  Icarius.Memory.Page

  The kernel's memory and `src/x86/memory/page.c`: 4 MiB pages, one directory of
  1024 entries per address space.

  The directory of the kernel is the global array `kernel_directory`.  The
  directory of a process is the start of a frame; `dirs` holds these arrays by
  frame number, and the code reaches them at `p2v` of the frame's address.

  `page_get_dir` returns the physical address in cr3 and the callers use it as
  a pointer.  Under the kernel directory that works, because entry 0 maps the
  first 4 MiB to themselves (`_remove_identity_mapping` leaves the entry: its
  physical address is 0).  Under the directory of a process the address is not
  mapped.
-/

import Icarius.Lib.Bytes
import Icarius.Memory.Pfa

namespace Icarius

open Icarius.Lib

/-- Why a kernel function does not return. -/
inductive Stop
  | panic
  | pageFault
  /-- A loop bound of the model was too small; no reachable call ends so. -/
  | unfinished
  deriving DecidableEq, Repr

/-- A page directory. -/
abbrev Dir := Nat → Nat

/-- `heap_t` -/
structure Heap where
  startAddr : Nat
  nextAddr : Nat
  endAddr : Nat
  lastBlock : Nat
  usedChunks : Nat
  freeChunks : Nat

/-- Everything the memory modules share. -/
structure Kernel where
  /-- The bytes of the kernel half, as the kernel directory maps it. -/
  mem : Mem
  heap : Heap
  pfa : Pfa
  kernelDirectory : Dir
  /-- The directories that live in frames, by frame number. -/
  dirs : Nat → Dir
  /-- The frame of the directory in use; `none` is `kernel_directory`. -/
  cr3 : Option Nat

/-! ## Addresses and entries -/

/-- `p2v` -/
def p2v (addr : Nat) : Nat := (addr + kernelVirtualStart) % 2 ^ 32

/-- `v2p` -/
def v2p (addr : Nat) : Nat := (addr + 2 ^ 32 - kernelVirtualStart) % 2 ^ 32

/-- The page-directory index of an address. -/
def pdIndex (virtAddr : Nat) : Nat := virtAddr >>> 22

/-- The entry `page_map` and `page_map_dir` write. -/
def pageEntry (physAddr flags : Nat) : Nat := (physAddr &&& 0xFFC00000) ||| (flags &&& 0xFFF)

/-- `entry & PAGE_PRESENT` -/
def entryPresent (entry : Nat) : Bool := entry &&& pagePresent != 0

/-- `entry & PAGE_USER` -/
def entryUser (entry : Nat) : Bool := entry &&& pageUser != 0

/-- The frame an entry maps. -/
def entryFrame (entry : Nat) : Nat := (entry &&& 0xFFC00000) / pageSize

/-- Flags of the user mappings, and of the kernel's mapping of a directory. -/
def userFlags : Nat := pagePs ||| pagePresent ||| pageWritable ||| pageUser

/-- Flags of the kernel's own mappings. -/
def kernelFlags : Nat := pagePs ||| pageWritable ||| pagePresent

/-- Overwrite one entry. -/
def Dir.set (dir : Dir) (i entry : Nat) : Dir := fun j => if j = i then entry else dir j

@[simp] theorem Dir.set_self (dir : Dir) (i entry : Nat) : dir.set i entry i = entry := by
  simp [Dir.set]

theorem Dir.set_ne (dir : Dir) {i j : Nat} (entry : Nat) (h : j ≠ i) :
    dir.set i entry j = dir j := by
  simp [Dir.set, h]

/-! ## page.c -/

/-- `page_map_dir` -/
def pageMapDir (dir : Dir) (virtAddr physAddr flags : Nat) : Dir :=
  dir.set (pdIndex virtAddr) (pageEntry physAddr flags)

/-- `page_unmap_dir` -/
def pageUnmapDir (dir : Dir) (virtAddr : Nat) : Dir := dir.set (pdIndex virtAddr) 0

/-- `page_get_phys_addr` -/
def pageGetPhysAddr (dir : Dir) (virtAddr : Nat) : Nat :=
  if entryPresent (dir (pdIndex virtAddr)) then
    (dir (pdIndex virtAddr) &&& 0xFFC00000) + (virtAddr &&& 0x3FFFFF)
  else 0

theorem pdIndex_add_pageSize (a : Nat) : pdIndex (a + pageSize) = pdIndex a + 1 := by
  simp only [pdIndex, pageSize, Nat.shiftRight_eq_div_pow]
  omega

theorem pdIndex_mul_pageSize (i : Nat) : pdIndex (i * pageSize) = i := by
  rw [pdIndex, pageSize, Nat.shiftRight_eq_div_pow]
  exact Nat.mul_div_cancel i (by decide)

theorem mul_pageSize_and_offset (f : Nat) : f * pageSize &&& 0x3FFFFF = 0 := by
  have hmod := Nat.and_two_pow_sub_one_eq_mod (f * pageSize) 22
  rw [show (0x3FFFFF : Nat) = 2 ^ 22 - 1 from rfl, hmod]
  exact Nat.mul_mod_left f (2 ^ 22)

/-- The address of a frame passes the mask of an entry: its upper ten bits are all it has. -/
theorem mul_pageSize_and_frame {f : Nat} (hf : f < maxFrames) :
    f * pageSize &&& 0xFFC00000 = f * pageSize := by
  have hshift : f * pageSize = f <<< 22 := (Nat.shiftLeft_eq f 22).symm
  have hmask : (0xFFC00000 : Nat) = 1023 <<< 22 := by decide
  have hlow : f &&& 1023 = f := by
    rw [show (1023 : Nat) = 2 ^ 10 - 1 from rfl, Nat.and_two_pow_sub_one_eq_mod]
    exact Nat.mod_eq_of_lt hf
  rw [hshift, hmask, ← Nat.shiftLeft_and_distrib, hlow]

/-- The physical address of the first byte of a page -/
theorem pageGetPhysAddr_page (dir : Dir) (i : Nat) : pageGetPhysAddr dir (i * pageSize)
    = if entryPresent (dir i) then entryFrame (dir i) * pageSize else 0 := by
  have hframe : (dir i &&& 0xFFC00000) % pageSize = 0 := by
    have hmod := Nat.and_two_pow_sub_one_eq_mod (dir i &&& 0xFFC00000) 22
    rw [Nat.and_assoc, show (0xFFC00000 &&& 2 ^ 22 - 1 : Nat) = 0 by decide, Nat.and_zero] at hmod
    exact hmod.symm
  rw [pageGetPhysAddr, pdIndex_mul_pageSize, mul_pageSize_and_offset, Nat.add_zero, entryFrame,
    Nat.div_mul_cancel (Nat.dvd_of_mod_eq_zero hframe)]

/-- The frame the code computes for entry `i` -/
theorem physAddr_frame {dir : Dir} {i : Nat} (h : entryPresent (dir i) = true) :
    pageGetPhysAddr dir (i * pageSize) / pageSize = entryFrame (dir i) := by
  rw [pageGetPhysAddr_page, if_pos h]
  exact Nat.mul_div_cancel _ (Nat.pos_of_ne_zero pageSize_ne_zero)

/-- The loop of `page_unmap_between`, `n` pages before its end.  A page counts as mapped
    when it has a physical address that is not 0. -/
def pageUnmapLoop : Nat → Nat → Dir → Pfa → Dir × Pfa
  | 0, _, dir, pfa => (dir, pfa)
  | n + 1, virtAddr, dir, pfa =>
      let physAddr := pageGetPhysAddr dir virtAddr
      if physAddr ≠ 0 then
        pageUnmapLoop n (virtAddr + pageSize) (pageUnmapDir dir virtAddr)
          (pfaClear pfa (physAddr / pageSize))
      else pageUnmapLoop n (virtAddr + pageSize) dir pfa

/-- `page_unmap_between`; only the start of the range is rounded. -/
def pageUnmapBetween (dir : Dir) (pfa : Pfa) (virtStart virtEnd : Nat) : Dir × Pfa :=
  let virtStart := virtStart &&& 0xFFFFF000
  pageUnmapLoop ((virtEnd - virtStart + (pageSize - 1)) / pageSize) virtStart dir pfa

namespace Kernel

/-- Replace the kernel's memory. -/
def setMem (s : Kernel) (m : Mem) : Kernel := { s with mem := m }

@[simp] theorem setMem_mem (s : Kernel) (m : Mem) : (s.setMem m).mem = m := rfl

@[simp] theorem setMem_heap (s : Kernel) (m : Mem) : (s.setMem m).heap = s.heap := rfl

@[simp] theorem setMem_pfa (s : Kernel) (m : Mem) : (s.setMem m).pfa = s.pfa := rfl

@[simp] theorem setMem_kernelDirectory (s : Kernel) (m : Mem) :
    (s.setMem m).kernelDirectory = s.kernelDirectory := rfl

@[simp] theorem setMem_dirs (s : Kernel) (m : Mem) : (s.setMem m).dirs = s.dirs := rfl

@[simp] theorem setMem_cr3 (s : Kernel) (m : Mem) : (s.setMem m).cr3 = s.cr3 := rfl

@[simp] theorem setMem_setMem (s : Kernel) (m m' : Mem) :
    (s.setMem m).setMem m' = s.setMem m' := rfl

/-- Update the directory in use through `page_get_dir`. -/
def updateCurrentDir (s : Kernel) (f : Dir → Dir) : Except Stop Kernel :=
  match s.cr3 with
  | none => .ok { s with kernelDirectory := f s.kernelDirectory }
  | some _ => .error .pageFault

/-- `page_map` -/
def pageMap (s : Kernel) (virtAddr physAddr flags : Nat) : Except Stop Kernel :=
  s.updateCurrentDir fun dir => pageMapDir dir virtAddr physAddr flags

/-- `page_restore_kernel_dir` -/
def pageRestoreKernelDir (s : Kernel) : Kernel := { s with cr3 := none }

/-- The directory at the address `ptr`. -/
def dirAt (s : Kernel) (ptr : Nat) : Dir := s.dirs (v2p ptr / pageSize)

/-- Overwrite the directory at the address `ptr`. -/
def setDirAt (s : Kernel) (ptr : Nat) (dir : Dir) : Kernel :=
  { s with dirs := fun f => if f = v2p ptr / pageSize then dir else s.dirs f }

@[simp] theorem setDirAt_heap (s : Kernel) (ptr : Nat) (dir : Dir) :
    (s.setDirAt ptr dir).heap = s.heap := rfl

@[simp] theorem setDirAt_mem (s : Kernel) (ptr : Nat) (dir : Dir) :
    (s.setDirAt ptr dir).mem = s.mem := rfl

@[simp] theorem setDirAt_dirAt (s : Kernel) (ptr : Nat) (dir : Dir) :
    (s.setDirAt ptr dir).dirAt ptr = dir := if_pos rfl

/-- The kernel half of a new directory: present entries only, without the flags
    of the source. -/
def copyKernelHalf (kernelDirectory : Dir) : Dir := fun i =>
  if 768 ≤ i ∧ i < 1024 ∧ entryPresent (kernelDirectory i) then
    (kernelDirectory i &&& 0xFFFFF000) ||| (pagePs ||| pagePresent ||| pageWritable)
  else 0

/-- `page_create_dir`; the pointer is 0 when there is no frame. -/
def pageCreateDir (s : Kernel) (flags : Nat) : Except Stop (Nat × Kernel) :=
  let (physAddr, pfa) := pfaAlloc s.pfa
  let s := { s with pfa := pfa }
  if physAddr = 0 then .ok (0, s)
  else if physAddr &&& 0x3FFFFF ≠ 0 then .ok (0, s)
  else
    let virtAddr := p2v physAddr
    match s.updateCurrentDir fun dir => pageMapDir dir virtAddr physAddr flags with
    | .error e => .error e
    | .ok s => .ok (virtAddr, s.setDirAt virtAddr (copyKernelHalf s.kernelDirectory))

/-- The loop of `page_map_between`, `n` pages before its end. -/
def pageMapLoop (dir flags : Nat) : Nat → Nat → Kernel → Kernel
  | 0, _, s => s
  | n + 1, virtAddr, s =>
      let (frame, pfa) := pfaAlloc s.pfa
      let s := { s with pfa := pfa }
      if frame = 0 then s
      else
        pageMapLoop dir flags n (virtAddr + pageSize)
          (s.setDirAt dir (pageMapDir (s.dirAt dir) virtAddr frame flags))

/-- `page_map_between` -/
def pageMapBetween (s : Kernel) (dir virtStart virtEnd flags : Nat) : Kernel :=
  if dir = 0 then s
  else
    let virtStart := virtStart &&& 0xFFFFF000
    let virtEnd := (virtEnd + 0xFFF) &&& 0xFFFFF000
    pageMapLoop dir flags ((virtEnd - virtStart + (pageSize - 1)) / pageSize) virtStart s

end Kernel

end Icarius
