/-
  Icarius.Config

  The constants of `src/x86/include/icarius.h` and
  `src/x86/user/libc/include/icarius.h` that the modelled code uses, under the
  names of the source, and the wrapping of its integers.
-/

import Mathlib.Algebra.Group.Nat.Defs

namespace Icarius

/-! ## Integers -/

/-- The value of a `uint16_t` -/
def u16 (n : Nat) : Nat := n % 2 ^ 16

/-- The value of a `uint32_t` -/
def u32 (n : Nat) : Nat := n % 2 ^ 32

/-- The value of a `size_t` of 64 bits -/
def u64 (n : Nat) : Nat := n % 2 ^ 64

/-! ## Memory x86 -/

/-- `KERNEL_VIRTUAL_START` -/
def kernelVirtualStart : Nat := 0xC0000000

/-- `PAGE_SIZE`, 4 MiB -/
def pageSize : Nat := 1024 * 4 * 1024

/-- `MAX_FRAMES` -/
def maxFrames : Nat := 1024

/-- `KERNEL_PHYS_BASE` -/
def kernelPhysBase : Nat := 0x00000000

/-- `KERNEL_PHYS_END` -/
def kernelPhysEnd : Nat := 0x02FFFFFF

/-- `FRAMEBUFFER_PHYS_BASE` -/
def framebufferPhysBase : Nat := 0xFD000000

/-- `FRAMEBUFFER_SIZE` -/
def framebufferSize : Nat := 800 * 600 * (32 / 8)

/-! ## Paging -/

/-- `PAGE_PRESENT` -/
def pagePresent : Nat := 0x1

/-- `PAGE_WRITABLE` -/
def pageWritable : Nat := 0x2

/-- `PAGE_USER` -/
def pageUser : Nat := 0x4

/-- `PAGE_PS` -/
def pagePs : Nat := 0x80

/-! ## Kernel heap -/

/-- `KERNEL_HEAP_START` -/
def kernelHeapStart : Nat := 0xC1000000

/-- `KERNEL_HEAP_MAX` -/
def kernelHeapMax : Nat := 0xC2BFFFFF

/-- `KERNEL_HEAP_CHUNK_SIZE` -/
def kernelHeapChunkSize : Nat := 4096

/-! ## FIFO -/

/-- `FIFO_BUFFER_SIZE` -/
def fifoBufferSize : Nat := 128

/-! ## FAT16 -/

/-- `FAT16_VALUE_FREE` -/
def fat16ValueFree : Nat := 0x0000

/-- `FAT16_VALUE_END_OF_CHAIN` -/
def fat16ValueEndOfChain : Nat := 0xFFF8

/-- `FAT16_BOOT_SIG_1` -/
def fat16BootSig1 : Nat := 0xEB

/-- `FAT16_BOOT_SIG_2` -/
def fat16BootSig2 : Nat := 0x90

/-- `FAT16_EBPB_SIG` -/
def fat16EbpbSig : Nat := 0x29

/-- `FAT16_HARD_DISK` -/
def fat16HardDisk : Nat := 0x80

/-- `FAT16_SECTOR_SIZE` -/
def fat16SectorSize : Nat := 512

/-- `FAT16_MIN_CLUSTERS` -/
def fat16MinClusters : Nat := 4085

/-- `FAT16_MAX_CLUSTERS` -/
def fat16MaxClusters : Nat := 65525

/-- `FREE`, the first byte of the name of a free directory entry -/
def dirFree : UInt8 := 0x00

/-- `DELETED` -/
def dirDeleted : UInt8 := 0xE5

/-- `DIRECTORY` -/
def attrDirectory : UInt8 := 0x10

/-- `ARCHIVE` -/
def attrArchive : UInt8 := 0x20

/-- `LFN`, all of `READ_ONLY`, `HIDDEN`, `SYSTEM` and `VOLUME_ID` -/
def attrLfn : UInt8 := 0x0F

/-! ## Userland -/

/-- `USER_CODE_START` -/
def userCodeStart : Nat := 0x00000000

/-- `USER_BSS_END` -/
def userBssEnd : Nat := 0x007FFFFF

/-- `USER_HEAP_START` -/
def userHeapStart : Nat := 0x00800000

/-- `USER_HEAP_SIZE` -/
def userHeapSize : Nat := pageSize

/-- `USER_HEAP_END` -/
def userHeapEnd : Nat := 0x00BFFFFF

/-- `USER_STACK_SIZE` -/
def userStackSize : Nat := pageSize

/-- `USER_STACK_END` -/
def userStackEnd : Nat := 0xBFFFFFFF

/-! ## Processes -/

/-- `PROCESS_MAX_THREAD` -/
def processMaxThread : Nat := 16

/-- `KERNEL_STACK_SIZE` -/
def kernelStackSize : Nat := 0x8000

/-- `RR_MAX` -/
def rrMax : Nat := 8

/-- `WAIT_MAX` -/
def waitMax : Nat := 8

end Icarius
