/-
  Icarius.Ds.FifoRuns

  `fifo_t` field by field, three `uint8_t` indices and a mask, and what any
  sequence of calls on it does.  The structure follows the ring of
  `Icarius.Ds.Fifo` call by call; the ring carries the relation between its
  indices, so the masked indices have it in every state a run reaches.
-/

import Icarius.Ds.Fifo
import Icarius.Lib.Run

namespace Icarius

open Icarius.Lib

/-! ## `fifo_t` as the source lays it out -/

/-- `fifo_t`.  Only the first `FIFO_BUFFER_SIZE` cells of the buffer exist. -/
structure FifoT where
  buffer : Nat → UInt8
  head : UInt8
  tail : UInt8
  count : UInt8

namespace FifoT

/-- `FIFO_BUFFER_MASK` -/
def bufferMask : UInt8 := 127

/-- `fifo_init` -/
def init (self : FifoT) : FifoT := { self with head := 0, tail := 0, count := 0 }

/-- `fifo_is_empty` -/
def isEmpty (self : FifoT) : Bool := self.count == 0

/-- `_is_full` -/
def isFull (self : FifoT) : Bool := self.count == 128

/-- `fifo_enqueue` -/
def enqueue (self : FifoT) (data : UInt8) : Bool × FifoT :=
  if self.isFull then (false, self)
  else
    (true,
      { buffer := fun i => if i = self.head.toNat then data else self.buffer i
        head := (self.head + 1) &&& bufferMask
        tail := self.tail
        count := self.count + 1 })

/-- `fifo_dequeue`: no byte stands for the return value `false`. -/
def dequeue (self : FifoT) : Option UInt8 × FifoT :=
  if self.isEmpty then (none, self)
  else
    (some (self.buffer self.tail.toNat),
      { self with tail := (self.tail + 1) &&& bufferMask, count := self.count - 1 })

end FifoT

/-- Masking the index behind `n` wraps it around the buffer. -/
theorem toNat_next_index (n : UInt8) :
    ((n + 1) &&& FifoT.bufferMask).toNat = (n.toNat + 1) % fifoBufferSize := by
  have hmask : FifoT.bufferMask.toNat = 2 ^ 7 - 1 := by decide
  have hsize : fifoBufferSize = 2 ^ 7 := by decide
  rw [UInt8.toNat_and, hmask, Nat.and_two_pow_sub_one_eq_mod, hsize, UInt8.toNat_add]
  have hone : (1 : UInt8).toNat = 1 := rfl
  omega

/-! ## The ring behind the structure -/

/-- The structure holds the cells and the indices of the ring `q`. -/
structure FifoT.Holds (raw : FifoT) (q : Fifo) : Prop where
  buffer : raw.buffer = q.cells
  head : raw.head.toNat = q.head
  tail : raw.tail.toNat = q.tail
  count : raw.count.toNat = q.count

section Simulation

variable {self : FifoT} {q : Fifo}

/-- The two notions of a full queue agree. -/
theorem FifoT.Holds.isFull_iff (h : self.Holds q) :
    self.isFull = true ↔ ¬ q.count < fifoBufferSize := by
  have hle : q.count ≤ 128 := q.count_le
  rw [FifoT.isFull, beq_iff_eq, ← UInt8.toNat_inj, h.count]
  show q.count = 128 ↔ ¬ q.count < 128
  omega

/-- The two notions of an empty queue agree. -/
theorem FifoT.Holds.isEmpty_iff (h : self.Holds q) :
    self.isEmpty = true ↔ ¬ 0 < q.count := by
  rw [FifoT.isEmpty, beq_iff_eq, ← UInt8.toNat_inj, h.count]
  show q.count = 0 ↔ ¬ 0 < q.count
  omega

/-- `fifo_init` makes an empty ring of any structure. -/
theorem FifoT.holds_init (self : FifoT) :
    self.init.Holds (Ring.empty self.buffer (by decide)) :=
  ⟨rfl, rfl, rfl, rfl⟩

/-- `fifo_enqueue` follows the ring. -/
theorem FifoT.Holds.enqueue (h : self.Holds q) (data : UInt8) :
    (self.enqueue data).1 = (fifoEnqueue q data).1
      ∧ (self.enqueue data).2.Holds (fifoEnqueue q data).2 := by
  by_cases hroom : q.count < fifoBufferSize
  · have hfull : ¬ self.isFull = true := by
      rw [h.isFull_iff]
      exact not_not_intro hroom
    rw [FifoT.enqueue, if_neg hfull, fifoEnqueue, dif_pos hroom]
    refine ⟨rfl, ?_, ?_, h.tail, ?_⟩
    · show (fun i => if i = self.head.toNat then data else self.buffer i) = _
      rw [h.head, h.buffer]
      rfl
    · show ((self.head + 1) &&& FifoT.bufferMask).toNat = (q.head + 1) % fifoBufferSize
      rw [toNat_next_index, h.head]
    · show (self.count + 1).toNat = q.count + 1
      -- the counter stays at most 128 and so does not wrap
      have hlt : q.count < 128 := hroom
      have hone : (1 : UInt8).toNat = 1 := rfl
      rw [UInt8.toNat_add, h.count, hone]
      omega
  · rw [FifoT.enqueue, if_pos (h.isFull_iff.mpr hroom), fifoEnqueue, dif_neg hroom]
    exact ⟨rfl, h⟩

/-- `fifo_dequeue` follows the ring. -/
theorem FifoT.Holds.dequeue (h : self.Holds q) :
    self.dequeue.1 = (fifoDequeue q).1 ∧ self.dequeue.2.Holds (fifoDequeue q).2 := by
  by_cases hpos : 0 < q.count
  · have hempty : ¬ self.isEmpty = true := by
      rw [h.isEmpty_iff]
      exact not_not_intro hpos
    rw [FifoT.dequeue, if_neg hempty, fifoDequeue, dif_pos hpos]
    refine ⟨?_, ?_, h.head, ?_, ?_⟩
    · show some (self.buffer self.tail.toNat) = some (q.cells q.tail)
      rw [h.tail, h.buffer]
    · show self.buffer = fun i => if i = q.tail then q.front else q.cells i
      funext i
      by_cases hi : i = q.tail
      · rw [if_pos hi, h.buffer, hi]
        rfl
      · rw [if_neg hi, h.buffer]
    · show ((self.tail + 1) &&& FifoT.bufferMask).toNat = (q.tail + 1) % fifoBufferSize
      rw [toNat_next_index, h.tail]
    · show (self.count - 1).toNat = q.count - 1
      have hle : (1 : UInt8) ≤ self.count := by
        rw [UInt8.le_iff_toNat_le, h.count]
        exact hpos
      rw [UInt8.toNat_sub_of_le _ _ hle, h.count]
      rfl
  · rw [FifoT.dequeue, if_pos (h.isEmpty_iff.mpr hpos), fifoDequeue, dif_neg hpos]
    exact ⟨rfl, h⟩

end Simulation

/-! ## The bounded queue

What the FIFO is for: at most `FIFO_BUFFER_SIZE` bytes wait, the oldest leaves
first. -/

/-- A call on a FIFO. -/
inductive FifoCall where
  | init
  | enqueue (data : UInt8)
  | dequeue
  deriving DecidableEq

/-- A FIFO with the bytes it accepted and the bytes it delivered since the last
    `fifo_init`. -/
structure FifoLog where
  fifo : FifoT
  accepted : List UInt8
  delivered : List UInt8

/-- What a call returns goes into the log. -/
def FifoLog.step (s : FifoLog) : FifoCall → Option FifoLog
  | .init => some ⟨s.fifo.init, [], []⟩
  | .enqueue data =>
      let r := s.fifo.enqueue data
      some ⟨r.2, if r.1 then s.accepted ++ [data] else s.accepted, s.delivered⟩
  | .dequeue =>
      let r := s.fifo.dequeue
      some ⟨r.2, s.accepted, s.delivered ++ r.1.toList⟩

/-- The log right after `fifo_init`. -/
def FifoLog.start (self : FifoT) : FifoLog := ⟨self.init, [], []⟩

/-- The structure holds a ring, and the ring holds what was accepted and not
    delivered yet. -/
def FifoLog.Inv (s : FifoLog) : Prop :=
  ∃ q : Fifo, s.fifo.Holds q ∧ s.accepted = s.delivered ++ q.contents

theorem FifoLog.inv_start (self : FifoT) : (FifoLog.start self).Inv :=
  ⟨_, self.holds_init, rfl⟩

/-- Every call keeps the invariant. -/
theorem FifoLog.inv_step {s s' : FifoLog} {c : FifoCall} (hinv : s.Inv)
    (hstep : s.step c = some s') : s'.Inv := by
  obtain ⟨q, hq, hlog⟩ := hinv
  cases c with
  | init =>
      obtain rfl := Option.some.inj hstep
      exact FifoLog.inv_start s.fifo
  | enqueue data =>
      obtain rfl := Option.some.inj hstep
      obtain ⟨hres, hholds⟩ := hq.enqueue data
      refine ⟨_, hholds, ?_⟩
      show (if (s.fifo.enqueue data).1 then s.accepted ++ [data] else s.accepted) = _
      rw [hres]
      by_cases hroom : q.count < fifoBufferSize
      · simp [fifoEnqueue, hroom, Ring.contents_push, hlog]
      · simp [fifoEnqueue, hroom, hlog]
  | dequeue =>
      obtain rfl := Option.some.inj hstep
      obtain ⟨hres, hholds⟩ := hq.dequeue
      refine ⟨_, hholds, ?_⟩
      show s.accepted = (s.delivered ++ s.fifo.dequeue.1.toList) ++ _
      rw [hres, hlog]
      by_cases hpos : 0 < q.count
      · rw [fifoDequeue, dif_pos hpos, Ring.contents_pop q q.front hpos]
        simp
      · simp [fifoDequeue, hpos]

/-- The byte FIFO is a bounded queue: after any calls on an initialised FIFO the
    indices fit together, a byte is refused exactly when 128 wait and then
    nothing changes, none comes out exactly when none waits and then nothing
    changes, and what came out and what waits are the accepted bytes in order. -/
theorem fifo_refines_bounded_queue (self : FifoT) (calls : List FifoCall) (s : FifoLog)
    (hrun : Runs FifoLog.step always (FifoLog.start self) calls s) :
    s.fifo.head.toNat = (s.fifo.tail.toNat + s.fifo.count.toNat) % fifoBufferSize
      ∧ s.fifo.count.toNat ≤ fifoBufferSize
      ∧ s.fifo.tail.toNat < fifoBufferSize
      ∧ ∃ queued : List UInt8,
          s.accepted = s.delivered ++ queued
          ∧ queued.length = s.fifo.count.toNat
          ∧ (∀ data, (s.fifo.enqueue data).1 = false ↔ queued.length = fifoBufferSize)
          ∧ (∀ data, (s.fifo.enqueue data).1 = false → (s.fifo.enqueue data).2 = s.fifo)
          ∧ (s.fifo.dequeue.1 = none ↔ queued = [])
          ∧ (s.fifo.dequeue.1 = none → s.fifo.dequeue.2 = s.fifo)
          ∧ s.fifo.dequeue.1 = queued.head? := by
  have hinv : s.Inv := hrun.invariant FifoLog.Inv (FifoLog.inv_start self)
    fun _ _ _ hi _ hstep => FifoLog.inv_step hi hstep
  obtain ⟨q, hq, hlog⟩ := hinv
  -- the byte that leaves the ring is the first one of the queue
  have hfirst : s.fifo.dequeue.1 = q.contents.head? := by
    rw [hq.dequeue.1]
    by_cases hpos : 0 < q.count
    · rw [fifoDequeue, dif_pos hpos, Ring.contents_pop q q.front hpos]
      rfl
    · have hnil : q.contents = [] := List.length_eq_zero_iff.mp (by
        rw [Ring.contents_length]
        omega)
      rw [fifoDequeue, dif_neg hpos, hnil]
      rfl
  refine ⟨?_, ?_, ?_, q.contents, hlog, ?_, ?_, ?_, ?_, ?_, hfirst⟩
  · rw [hq.head, hq.tail, hq.count]
    exact q.head_eq
  · rw [hq.count]
    exact q.count_le
  · rw [hq.tail]
    exact q.tail_lt
  · rw [hq.count, Ring.contents_length]
  · -- a byte is refused exactly where the ring is full
    intro data
    rw [(hq.enqueue data).1, Ring.contents_length, fifoEnqueue]
    have hle := q.count_le
    split
    · rename_i hroom
      simp only [Bool.true_eq_false, false_iff]
      omega
    · rename_i hroom
      simp only [true_iff]
      omega
  · intro data hfull
    rw [FifoT.enqueue] at hfull ⊢
    split at hfull
    · rename_i h
      rw [if_pos h]
    · cases hfull
  · rw [hfirst, List.head?_eq_none_iff]
  · intro hnone
    rw [FifoT.dequeue] at hnone ⊢
    split at hnone
    · rename_i h
      rw [if_pos h]
    · cases hnone

/-- Two bytes in and one out of a FIFO that held garbage. -/
theorem fifo_refines_bounded_queue_two :
    ∃ s : FifoLog,
      Runs FifoLog.step always (FifoLog.start ⟨fun _ => 0, 200, 3, 77⟩)
          [.enqueue 7, .enqueue 9, .dequeue] s
        ∧ s.delivered = [7]
        ∧ ∃ queued : List UInt8, [7, 9] = [7] ++ queued ∧ queued.length = 1
            ∧ s.fifo.dequeue.1 = queued.head? := by
  have hrun : Runs FifoLog.step always (FifoLog.start ⟨fun _ => 0, 200, 3, 77⟩)
      [.enqueue 7, .enqueue 9, .dequeue] _ :=
    ((Runs.nil.snoc trivial rfl).snoc trivial rfl).snoc trivial rfl
  obtain ⟨-, -, -, queued, hlog, hlen, -, -, -, -, hfirst⟩ :=
    fifo_refines_bounded_queue _ _ _ hrun
  exact ⟨_, hrun, rfl, queued, hlog, hlen, hfirst⟩

end Icarius
