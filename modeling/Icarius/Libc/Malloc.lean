/-
  Icarius.Libc.Malloc

  The allocator of the user library, `src/x86/user/libc/malloc/malloc.c`.  A block is a
  header and a payload behind it.  All blocks are in a doubly linked list from `heap_head`
  to `heap_tail`, the free ones also in one from `free_list`.

  The headers lie in the memory of the process, between the payloads, and are read and
  written byte by byte.  Pointers are numbers below `2 ^ 32`.  `errno` and the messages are
  left out.
-/

import Icarius.Config
import Icarius.Lib.Bytes

namespace Icarius

open Icarius.Lib

namespace Libc

/-! ## heap_block_t -/

/-- The fields of `heap_block_t` -/
inductive Field where
  | size
  | free
  | next
  | prev
  | nextFree
  | prevFree
  deriving DecidableEq, Repr

/-- Where a field is in the header -/
def Field.offset : Field → Nat
  | size => 0
  | free => 4
  | next => 8
  | prev => 12
  | nextFree => 16
  | prevFree => 20

/-- `sizeof(heap_block_t)` -/
def headerSize : Nat := 24

/-- `MIN_BLOCK_SIZE` -/
def minBlockSize : Nat := 32

/-- `block->f` -/
def get (m : Mem) (f : Field) (block : Nat) : Nat := m.load 4 (block + f.offset)

/-- `block->f = v` -/
def set (m : Mem) (f : Field) (block v : Nat) : Mem := m.store 4 (block + f.offset) v

/-- `ALIGN8(x)` -/
def align8 (x : Nat) : Nat := (x + 7) % 2 ^ 32 / 8 * 8

/-! ## The heap -/

/-- The memory of the process, and `heap_head`, `heap_tail`, `free_list` and `_heap_curr`.
    `_heap_end` does not change. -/
structure Heap where
  mem : Mem
  heapHead : Nat
  heapTail : Nat
  freeList : Nat
  heapCurr : Nat

/-- The heap before the first call -/
def Heap.empty (mem : Mem) : Heap := ⟨mem, 0, 0, 0, userHeapStart⟩

namespace Heap

def setMem (s : Heap) (m : Mem) : Heap := { s with mem := m }

/-! ## The free list -/

/-- The end of `free`, and the part of `_split_block` that does the same: `block` becomes
    the head of the free list. -/
def pushFree (s : Heap) (block : Nat) : Heap :=
  let m := set s.mem .nextFree block s.freeList
  let m := set m .prevFree block 0
  let m := if s.freeList ≠ 0 then set m .prevFree s.freeList block else m
  { s with mem := m, freeList := block }

/-- What `free` does before each merge: `block` is taken out of the free list. -/
def bridgeFree (s : Heap) (block : Nat) : Heap :=
  let m := s.mem
  let m :=
    if get m .prevFree block ≠ 0 then
      set m .nextFree (get m .prevFree block) (get m .nextFree block)
    else m
  let m :=
    if get m .nextFree block ≠ 0 then
      set m .prevFree (get m .nextFree block) (get m .prevFree block)
    else m
  { s with mem := m, freeList := if s.freeList = block then get m .nextFree block else s.freeList }

/-- `_remove_from_free_list` -/
def removeFromFreeList (s : Heap) (block : Nat) : Heap :=
  if block = 0 then s
  else
    let prevBlock := get s.mem .prevFree block
    let nextBlock := get s.mem .nextFree block
    let s :=
      if prevBlock = 0 then { s with freeList := nextBlock }
      else s.setMem (set s.mem .nextFree prevBlock nextBlock)
    let m := if nextBlock ≠ 0 then set s.mem .prevFree nextBlock prevBlock else s.mem
    let m := set m .nextFree block 0
    s.setMem (set m .prevFree block 0)

/-- The loop of `_find_best_fit_free_block`; the result is `best_fit_block`. -/
def findBestFitLoop (m : Mem) (alignedSize : Nat) : Nat → Nat → Nat → Option Nat
  | 0, _, _ => none
  | fuel + 1, iterBlock, bestFitBlock =>
      if iterBlock = 0 then some bestFitBlock
      else if iterBlock < userHeapStart ∨ iterBlock ≥ userHeapEnd then some bestFitBlock
      else
        let bestFitBlock :=
          if get m .size iterBlock ≥ alignedSize ∧
            (bestFitBlock = 0 ∨ get m .size iterBlock ≤ get m .size bestFitBlock) then iterBlock
          else bestFitBlock
        if iterBlock = get m .nextFree iterBlock then some bestFitBlock
        else findBestFitLoop m alignedSize fuel (get m .nextFree iterBlock) bestFitBlock

/-- `_find_best_fit_free_block`: null when no free block is large enough, and no result
    when the list does not end within as many blocks as there are bytes in the heap. -/
def findBestFitFreeBlock (s : Heap) (alignedSize : Nat) : Option Nat :=
  if alignedSize = 0 then some 0
  else findBestFitLoop s.mem alignedSize userHeapSize s.freeList 0

/-! ## malloc and calloc -/

/-- `_split_block` -/
def splitBlock (s : Heap) (block alignedSize : Nat) : Heap :=
  let newBlock := (block + headerSize + alignedSize) % 2 ^ 32
  if (newBlock + headerSize) % 2 ^ 32 > userHeapEnd then s
  else
    let m := set s.mem .free newBlock 1
    let m := set m .size newBlock (get m .size block + 2 ^ 32 - alignedSize - headerSize)
    let s := (s.setMem m).pushFree newBlock
    let m := set s.mem .next newBlock (get s.mem .next block)
    let m := set m .prev newBlock block
    let m := if get m .next block ≠ 0 then set m .prev (get m .next block) newBlock else m
    let m := set m .next block newBlock
    let m := set m .size block alignedSize
    { s with mem := m, heapTail := if get m .next newBlock = 0 then newBlock else s.heapTail }

/-- `_make_new_block` -/
def makeNewBlock (s : Heap) (alignedSize : Nat) : Nat × Heap :=
  let newBlockSize := (alignedSize + headerSize) % 2 ^ 32
  if (s.heapCurr + newBlockSize) % 2 ^ 32 ≥ userHeapEnd then (0, s)
  else
    let newBlock := s.heapCurr
    let m := set s.mem .free newBlock 0
    let m := set m .size newBlock alignedSize
    let m := set m .next newBlock 0
    let m := set m .prev newBlock s.heapTail
    let s :=
      if s.heapHead = 0 then { s with mem := m, heapHead := newBlock, heapTail := newBlock }
      else
        let m := set m .next s.heapTail newBlock
        { s with mem := set m .prev newBlock s.heapTail, heapTail := newBlock }
    let m := set s.mem .prevFree newBlock 0
    let m := set m .nextFree newBlock 0
    (newBlock + headerSize, { s with mem := m, heapCurr := (s.heapCurr + newBlockSize) % 2 ^ 32 })

/-- `malloc`; the pointer is 0 when there is no memory. -/
def malloc (s : Heap) (size : Nat) : Option (Nat × Heap) :=
  if size = 0 then some (0, s)
  else
    let alignedSize := align8 size
    match s.findBestFitFreeBlock alignedSize with
    | none => none
    | some bestFitBlock =>
        if bestFitBlock ≠ 0 then
          let s :=
            if get s.mem .size bestFitBlock ≥ (alignedSize + headerSize + minBlockSize) % 2 ^ 32 then
              s.splitBlock bestFitBlock alignedSize
            else s
          let s := s.removeFromFreeList bestFitBlock
          some (bestFitBlock + headerSize, s.setMem (set s.mem .free bestFitBlock 0))
        else some (s.makeNewBlock alignedSize)

/-- `calloc` -/
def calloc (s : Heap) (nmemb size : Nat) : Option (Nat × Heap) :=
  if nmemb = 0 ∨ size = 0 then s.malloc 0
  else if nmemb > (2 ^ 32 - 1) / size then some (0, s)
  else
    let totalBytes := nmemb * size
    match s.malloc totalBytes with
    | none => none
    | some (ptr, s) =>
        if ptr = 0 then some (0, s) else some (ptr, s.setMem (s.mem.fill ptr totalBytes 0))

/-! ## free and realloc -/

/-- Both merges of `free`: `block` takes the block `gone` behind it. -/
def absorb (s : Heap) (block gone : Nat) : Heap :=
  let m := set s.mem .size block (get s.mem .size block + (get s.mem .size gone + headerSize))
  let m := set m .next block (get m .next gone)
  s.setMem (if get m .next gone ≠ 0 then set m .prev (get m .next gone) block else m)

/-- The right merge of `free` -/
def mergeRight (s : Heap) (block : Nat) : Heap :=
  let nextBlock := get s.mem .next block
  if nextBlock ≠ 0 ∧ get s.mem .free nextBlock ≠ 0 then
    (s.bridgeFree nextBlock).absorb block nextBlock
  else s

/-- The left merge of `free`, with the block that is put into the free list -/
def mergeLeft (s : Heap) (block : Nat) : Nat × Heap :=
  let prevBlock := get s.mem .prev block
  if prevBlock ≠ 0 ∧ get s.mem .free prevBlock ≠ 0 then
    (prevBlock, (s.bridgeFree prevBlock).absorb prevBlock block)
  else (block, s)

/-- `((heap_block_t*)ptr) - 1` -/
def blockOf (ptr : Nat) : Nat := (ptr + 2 ^ 32 - headerSize) % 2 ^ 32

/-- `free` -/
def free (s : Heap) (ptr : Nat) : Heap :=
  if ptr = 0 then s
  else
    let block := blockOf ptr
    if get s.mem .size block = 0 ∨ block < userHeapStart ∨ block ≥ userHeapEnd then s
    else if get s.mem .free block ≠ 0 then s
    else
      let s := s.setMem (set s.mem .free block 1)
      let s := s.mergeRight block
      let (block, s) := s.mergeLeft block
      s.pushFree block

/-- The part of `realloc` before its call of `free`: a new block with the payload of the
    old one, or a null pointer -/
def moveBlock (s : Heap) (ptr size : Nat) : Option (Nat × Heap) :=
  match s.malloc size with
  | none => none
  | some (newBlock, s) =>
      if newBlock = 0 then some (0, s)
      else
        let bytes := get s.mem .size (blockOf ptr)
        some (newBlock,
          s.setMem (s.mem.write newBlock ((List.range bytes).map fun i => s.mem (ptr + i))))

/-- `realloc` -/
def realloc (s : Heap) (ptr size : Nat) : Option (Nat × Heap) :=
  if ptr = 0 then s.malloc size
  else if size = 0 then some (0, s.free ptr)
  else if get s.mem .size (blockOf ptr) ≥ size then some (ptr, s)
  else
    match s.moveBlock ptr size with
    | none => none
    | some (newBlock, s) => if newBlock = 0 then some (0, s) else some (newBlock, s.free ptr)

end Heap

end Libc

end Icarius
