/-
  Icarius.Ds.Fifo

  The byte FIFO of `src/x86/ds/fifo.c`: a ring of 128 bytes whose indices are
  masked with `FIFO_BUFFER_MASK`, that is, taken modulo the size.
-/

import Icarius.Config
import Icarius.Lib.Ring

namespace Icarius

open Icarius.Lib

/-- `fifo_t` -/
abbrev Fifo := Ring UInt8 fifoBufferSize

theorem fifoBufferSize_pos : 0 < fifoBufferSize := by decide

/-- `fifo_init`: the buffer keeps its bytes, the indices are reset. -/
def fifoInit (self : Fifo) : Fifo := Ring.empty self.cells fifoBufferSize_pos

/-- `fifo_is_empty` -/
def fifoIsEmpty (self : Fifo) : Bool := self.count == 0

/-- `_is_full` -/
def fifoIsFull (self : Fifo) : Bool := self.count == fifoBufferSize

/-- `fifo_enqueue` -/
def fifoEnqueue (self : Fifo) (data : UInt8) : Bool × Fifo :=
  if h : self.count < fifoBufferSize then (true, self.push data h) else (false, self)

/-- `fifo_dequeue`; the byte is what `*data` receives.  The cell keeps it. -/
def fifoDequeue (self : Fifo) : Option UInt8 × Fifo :=
  if h : 0 < self.count then (some self.front, self.pop self.front h) else (none, self)

/-- `fifo_enqueue` asks `_is_full`: a full FIFO is one with no room for another byte. -/
theorem fifoIsFull_iff (self : Fifo) :
    fifoIsFull self = true ↔ ¬ self.count < fifoBufferSize := by
  have hle := self.count_le
  simp only [fifoIsFull, beq_iff_eq]
  omega

end Icarius
