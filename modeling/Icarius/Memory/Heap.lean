/-
  Icarius.Memory.Heap

  The kernel heap of `src/x86/memory/heap.c`: chunks of 4 KiB in 4 MiB pages,
  each chunk of a free or used block starting with a `heap_block_t` header.  The
  headers live in kernel memory, next to what the holders of the payloads write
  there, and are read and written byte by byte.

  A call that panics or faults has no result.  The two loops over the block
  chain have no bound in the source; here they get the number of chunks, and the
  number of chunks asked for.  No reachable call runs into these bounds.
-/

import Icarius.Memory.Page

namespace Icarius

open Icarius.Lib

/-! ## heap_block_t -/

/-- `heap_block_t` -/
structure HeapBlock where
  size : Nat
  isFree : Bool
  chunkSpan : Nat
  prev : Nat
  next : Nat

/-- `sizeof(heap_block_t)` -/
def heapBlockSize : Nat := 20

/-- The header at `a`. -/
def heapBlock (m : Mem) (a : Nat) : HeapBlock where
  size := m.load 4 a
  isFree := m.load 1 (a + 4) != 0
  chunkSpan := m.load 4 (a + 8)
  prev := m.load 4 (a + 12)
  next := m.load 4 (a + 16)

/-- `block->is_free = v` -/
def setIsFree (m : Mem) (a : Nat) (v : Bool) : Mem := m.store 1 (a + 4) v.toNat

/-- `block->chunk_span = v` -/
def setChunkSpan (m : Mem) (a v : Nat) : Mem := m.store 4 (a + 8) v

/-- `block->prev = v` -/
def setPrev (m : Mem) (a v : Nat) : Mem := m.store 4 (a + 12) v

/-- `block->next = v` -/
def setNext (m : Mem) (a v : Nat) : Mem := m.store 4 (a + 16) v

/-- `_init_heap_block` -/
def initHeapBlock (m : Mem) (self size prev : Nat) : Mem :=
  let m := setChunkSpan m self 1
  let m := setIsFree m self true
  let m := m.store 4 self size
  let m := setPrev m self prev
  setNext m self 0

namespace Kernel

/-! ## _heap_grow -/

/-- The loop of `_heap_grow`, `n` chunks before its end: the memory, the last
    block and the address after it. -/
def heapGrowLoop : Nat → Mem → Nat → Nat → Mem × Nat × Nat
  | 0, m, virtAddr, prevBlock => (m, prevBlock, virtAddr)
  | n + 1, m, virtAddr, prevBlock =>
      let m := initHeapBlock m virtAddr kernelHeapChunkSize prevBlock
      let m := if prevBlock ≠ 0 then setNext m prevBlock virtAddr else m
      heapGrowLoop n m (virtAddr + kernelHeapChunkSize) virtAddr

/-- `PAGE_SIZE / KERNEL_HEAP_CHUNK_SIZE` -/
@[irreducible] def pageChunks : Nat := pageSize / kernelHeapChunkSize

theorem pageChunks_eq : pageChunks = 1024 := by
  unfold pageChunks
  rfl

theorem pageChunks_pos : 0 < pageChunks := by
  rw [pageChunks_eq]
  omega

/-- The part of `_heap_grow` after the new page is mapped. -/
def heapFormat (s : Kernel) (chunks : Nat) : Kernel :=
  let virtAddr := s.heap.nextAddr
  let last := s.heap.lastBlock
  let m := if last ≠ 0 then setPrev (setNext s.mem last virtAddr) virtAddr last else s.mem
  let loop := heapGrowLoop chunks m virtAddr last
  { s with
    mem := loop.1
    heap := { s.heap with
      lastBlock := loop.2.1
      nextAddr := loop.2.2
      freeChunks := s.heap.freeChunks + chunks } }

/-- `_heap_grow` -/
def heapGrow (s : Kernel) : Except Stop Kernel :=
  let (physAddr, pfa) := pfaAlloc s.pfa
  if physAddr = 0 then .error .panic
  else
    match { s with pfa := pfa }.pageMap s.heap.nextAddr physAddr kernelFlags with
    | .error e => .error e
    | .ok s => .ok (s.heapFormat pageChunks)

/-! ## _malloc -/

/-- The run of free blocks that starts at `curr`, counted up to `n`. -/
def countFree (m : Mem) : Nat → Nat → Nat
  | 0, _ => 0
  | n + 1, curr =>
      if curr ≠ 0 ∧ (heapBlock m curr).isFree then 1 + countFree m n (heapBlock m curr).next
      else 0

/-- The search of `_malloc` along the chain: the first block with `n` free blocks
    in a row from it on. -/
def findRun (m : Mem) (n : Nat) : Nat → Nat → Except Stop (Option Nat)
  | 0, _ => .error .unfinished
  | fuel + 1, curr =>
      if curr = 0 then .ok none
      else if (heapBlock m curr).isFree ∧ countFree m n curr = n then .ok (some curr)
      else findRun m n fuel (heapBlock m curr).next

/-- The loop over the interior blocks of a new allocation, `n` blocks before its
    end; the result is the block after them. -/
def takeLoop : Nat → Kernel → Nat → Except Stop (Kernel × Nat)
  | 0, s, block => .ok (s, block)
  | n + 1, s, block =>
      let s := s.setMem (setIsFree s.mem block false)
      match if (heapBlock s.mem block).next = 0 then s.heapGrow else .ok s with
      | .error e => .error e
      | .ok s => takeLoop n s (heapBlock s.mem block).next

/-- Allocate the `n` free blocks from `start` on. -/
def takeRun (s : Kernel) (n start : Nat) : Except Stop (Nat × Kernel) := do
  let m := setIsFree s.mem start false
  let m := setChunkSpan m start n
  let (s, nextFree) ← takeLoop (n - 1) (s.setMem m) (heapBlock m start).next
  let m := if nextFree ≠ 0 then setPrev s.mem nextFree start else s.mem
  let s := s.setMem (setNext m start nextFree)
  let s ← if nextFree = 0 then s.heapGrow else .ok s
  .ok (start + heapBlockSize,
    { s with heap := { s.heap with
        freeChunks := s.heap.freeChunks - n
        usedChunks := s.heap.usedChunks + n } })

/-- The outer loop of `_malloc`. -/
def mallocLoop (n : Nat) : Nat → Kernel → Except Stop (Nat × Kernel)
  | 0, _ => .error .unfinished
  | fuel + 1, s => do
      match ← findRun s.mem n (s.heap.freeChunks + s.heap.usedChunks + 1) s.heap.startAddr with
      | some start => s.takeRun n start
      | none =>
          let s ← s.heapGrow
          mallocLoop n fuel s

/-- `size + sizeof(heap_block_t)` -/
def totalSizeWithHeader (size : Nat) : Nat := (size + heapBlockSize) % 2 ^ 32

/-- The chunks a request needs. -/
def chunksNeeded (size : Nat) : Nat :=
  (totalSizeWithHeader size + kernelHeapChunkSize - 1) % 2 ^ 32 / kernelHeapChunkSize

/-- What `_malloc` does before it searches: an empty heap grows, and one with less
    than a fifth of its chunks free. -/
def growIfLow (s : Kernel) : Except Stop Kernel :=
  let totalChunks := s.heap.freeChunks + s.heap.usedChunks
  if totalChunks = 0 then s.heapGrow
  else if s.heap.freeChunks * 100 / totalChunks < 20 then s.heapGrow
  else .ok s

/-- `_malloc`, and `kmalloc` but for its message; the pointer is 0 when the heap
    window cannot hold the request. -/
def kmalloc (s : Kernel) (size : Nat) : Except Stop (Nat × Kernel) :=
  if (s.heap.nextAddr + totalSizeWithHeader size) % 2 ^ 32 > kernelHeapMax then .ok (0, s)
  else
    match s.growIfLow with
    | .error e => .error e
    | .ok s => mallocLoop (chunksNeeded size) (chunksNeeded size + 1) s

/-- `kzalloc` -/
def kzalloc (s : Kernel) (size : Nat) : Except Stop (Nat × Kernel) :=
  match s.kmalloc size with
  | .error e => .error e
  | .ok (ptr, s) =>
      if ptr = 0 then .ok (0, s) else .ok (ptr, s.setMem (s.mem.fill ptr size 0))

/-! ## _free -/

/-- The loop of `_free`, `n` chunks before its end: the memory and the last of
    the new blocks. -/
def freeLoop : Nat → Mem → Nat → Mem × Nat
  | 0, m, iterBlock => (m, iterBlock)
  | n + 1, m, iterBlock =>
      let newBlock := iterBlock + 4096
      let m := initHeapBlock m newBlock 4096 iterBlock
      let m := setNext m iterBlock newBlock
      freeLoop n m newBlock

/-- `kfree` -/
def kfree (s : Kernel) (ptr : Nat) : Kernel :=
  if ptr = 0 then s
  else
    let curr := ptr - heapBlockSize
    let m := setIsFree s.mem curr true
    let chunks := (heapBlock m curr).chunkSpan
    let nextBlock := (heapBlock m curr).next
    let m := setChunkSpan m curr 1
    let (m, iterBlock) := freeLoop (chunks - 1) m curr
    let m := setNext m iterBlock nextBlock
    let m := if nextBlock ≠ 0 then setPrev m nextBlock iterBlock else m
    { s with
      mem := m
      heap := { s.heap with
        freeChunks := s.heap.freeChunks + chunks
        usedChunks := s.heap.usedChunks - chunks } }

/-- `heap_init`; the counters keep their initial value 0. -/
def heapInit (s : Kernel) : Kernel :=
  { s with heap := { s.heap with
      startAddr := kernelHeapStart
      nextAddr := kernelHeapStart
      endAddr := kernelHeapMax
      lastBlock := 0 } }

end Kernel

end Icarius
