/-
  Icarius.Lib.Bytes

  Byte-addressed memory with little-endian numbers of any width.  What the
  proofs need of it is the algebra of `load` and `store`: a load sees the store
  to the same place and none to a disjoint one, and everything about a load
  follows from the bytes it reads (`load_congr`).
-/

import Mathlib.Algebra.Group.Nat.Defs
import Mathlib.Data.Nat.Basic

namespace Icarius.Lib

/-- Memory: a byte at every address. -/
abbrev Mem := Nat → UInt8

/-- The two memories hold the same `k` bytes at `a`. -/
def Agree (m m' : Mem) (a k : Nat) : Prop := ∀ x, a ≤ x → x < a + k → m' x = m x

namespace Mem

/-- The little-endian number in the `k` bytes at `a`. -/
def load (m : Mem) : Nat → Nat → Nat
  | 0, _ => 0
  | k + 1, a => (m a).toNat + 256 * load m k (a + 1)

/-- Store `v` in the `k` bytes at `a`, least significant byte first. -/
def store (m : Mem) (k a v : Nat) : Mem :=
  fun x => if a ≤ x ∧ x < a + k then UInt8.ofNat (v / 256 ^ (x - a)) else m x

/-- `memset` -/
def fill (m : Mem) (a len : Nat) (v : UInt8) : Mem :=
  fun x => if a ≤ x ∧ x < a + len then v else m x

/-- `memcpy` of the given bytes to `a` -/
def write (m : Mem) (a : Nat) (bytes : List UInt8) : Mem :=
  fun x => if a ≤ x then bytes[x - a]?.getD (m x) else m x

/-- A loop of at most `k` rounds that copies from `i` on to `d` on until a byte fails `p`:
    what it leaves in the memory it writes to, and how many bytes it has copied. -/
def copyWhile (p : UInt8 → Bool) (source : Mem) : Nat → Nat → Mem → Nat → Mem × Nat
  | 0, _, m, _ => (m, 0)
  | k + 1, i, m, d =>
      if p (source i) then
        let (m, n) := copyWhile p source k (i + 1) (m.write d [source i]) (d + 1)
        (m, n + 1)
      else (m, 0)

/-- The memory holds the text at its beginning, and a NUL behind it. -/
def IsText (m : Mem) (text : List UInt8) : Prop := ∀ j, j ≤ text.length → m j = text.getD j 0

instance (m : Mem) (text : List UInt8) : Decidable (IsText m text) :=
  inferInstanceAs (Decidable (∀ j, j ≤ text.length → m j = text.getD j 0))

/-! ## Frames -/

theorem store_of_lt (m : Mem) {k a v x : Nat} (h : x < a) : m.store k a v x = m x := by
  simp only [store]
  rw [if_neg (by omega)]

theorem store_of_ge (m : Mem) {k a v x : Nat} (h : a + k ≤ x) : m.store k a v x = m x := by
  simp only [store]
  rw [if_neg (by omega)]

theorem agree_store (m : Mem) {k a v b n : Nat} (h : b + n ≤ a ∨ a + k ≤ b) :
    Agree m (m.store k a v) b n := by
  intro x hlo hhi
  rcases h with h | h
  · exact store_of_lt m (by omega)
  · exact store_of_ge m (by omega)

theorem agree_fill (m : Mem) {a len b n : Nat} {v : UInt8} (h : b + n ≤ a ∨ a + len ≤ b) :
    Agree m (m.fill a len v) b n := by
  intro x hlo hhi
  simp only [fill]
  rw [if_neg (by omega)]

theorem agree_write (m : Mem) {a b n : Nat} {bytes : List UInt8}
    (h : b + n ≤ a ∨ a + bytes.length ≤ b) : Agree m (m.write a bytes) b n := by
  intro x hlo hhi
  simp only [write]
  split
  · rw [List.getElem?_eq_none (by omega), Option.getD_none]
  · rfl

/-! ## Writes -/

@[simp] theorem write_nil (m : Mem) (a : Nat) : m.write a [] = m := by
  funext x
  simp only [write, List.getElem?_nil, Option.getD_none, ite_self]

theorem write_of_lt {m : Mem} {a x : Nat} {b : List UInt8} (h : x < a) :
    m.write a b x = m x := by
  simp only [write]
  rw [if_neg (by omega)]

theorem write_of_ge {m : Mem} {a x : Nat} {b : List UInt8} (h : a + b.length ≤ x) :
    m.write a b x = m x := by
  simp only [write]
  rw [if_pos (by omega), List.getElem?_eq_none (by omega), Option.getD_none]

/-- What is written where it is written -/
theorem write_add {m : Mem} {a i : Nat} {b : List UInt8} (h : i < b.length) :
    m.write a b (a + i) = b[i] := by
  simp only [write]
  rw [if_pos (by omega), Nat.add_sub_cancel_left, List.getElem?_eq_getElem h, Option.getD_some]

theorem write_zero {m : Mem} {i : Nat} {b : List UInt8} (h : i < b.length) :
    m.write 0 b i = b[i] := by
  have hadd := write_add (m := m) (a := 0) h
  rwa [Nat.zero_add] at hadd

theorem write_byte_self (m : Mem) (a : Nat) (b : UInt8) : m.write a [b] a = b :=
  write_add (i := 0) (b := [b]) Nat.one_pos

theorem write_byte_of_ne {m : Mem} {a x : Nat} {b : UInt8} (h : x ≠ a) :
    m.write a [b] x = m x := by
  rcases Nat.lt_or_gt_of_ne h with hlt | hgt
  · exact write_of_lt hlt
  · exact write_of_ge hgt

/-- Bytes are written as their two halves are, one behind the other. -/
theorem write_append (m : Mem) (a : Nat) (xs ys : List UInt8) :
    m.write a (xs ++ ys) = (m.write a xs).write (a + xs.length) ys := by
  funext x
  simp only [write]
  by_cases hx : a ≤ x
  · by_cases hys : a + xs.length ≤ x
    · have hback : x - a - xs.length = x - (a + xs.length) := by omega
      rw [if_pos hx, if_pos hys, if_pos hx, List.getElem?_append_right (by omega), hback,
        List.getElem?_eq_none (show xs.length ≤ x - a by omega), Option.getD_none]
    · rw [if_pos hx, if_neg hys, if_pos hx, List.getElem?_append_left (by omega)]
  · rw [if_neg hx, if_neg (by omega), if_neg hx]

/-- A write inside the range of an earlier one -/
theorem write_inside (m : Mem) (a k : Nat) (xs ys : List UInt8)
    (h : k + ys.length ≤ xs.length) :
    (m.write a xs).write (a + k) ys = m.write a (xs.take k ++ ys ++ xs.drop (k + ys.length)) := by
  have htake : (xs.take k).length = k := List.length_take_of_le (by omega)
  funext x
  by_cases hlo : x < a + k
  · -- before it
    rw [write_of_lt hlo]
    simp only [write]
    split
    · rw [List.append_assoc, List.getElem?_append_left (by omega), List.getElem?_take_of_lt (by omega)]
    · rfl
  · by_cases hhi : x < a + k + ys.length
    · obtain ⟨i, rfl⟩ := Nat.exists_eq_add_of_le (Nat.le_of_not_lt hlo)
      have hi : i < ys.length := by omega
      have hpos : a + k + i - a = k + i := by omega
      rw [write_add hi]
      simp only [write, hpos]
      rw [if_pos (by omega), List.append_assoc, List.getElem?_append_right (by omega), htake,
        Nat.add_sub_cancel_left, List.getElem?_append_left hi, List.getElem?_eq_getElem hi,
        Option.getD_some]
    · -- behind it
      have hlen : (xs.take k ++ ys).length = k + ys.length := by
        rw [List.length_append, htake]
      have hpos : k + ys.length + (x - a - (k + ys.length)) = x - a := by omega
      rw [write_of_ge (by omega)]
      simp only [write]
      rw [if_pos (by omega), if_pos (by omega), List.getElem?_append_right (by omega), hlen,
        List.getElem?_drop, hpos]

theorem fill_eq_write (m : Mem) (a len : Nat) (v : UInt8) :
    m.fill a len v = m.write a (List.replicate len v) := by
  funext x
  simp only [fill, write, List.getElem?_replicate]
  by_cases hlo : a ≤ x
  · by_cases hhi : x < a + len
    · rw [if_pos ⟨hlo, hhi⟩, if_pos hlo, if_pos (by omega), Option.getD_some]
    · rw [if_neg (by omega), if_pos hlo, if_neg (by omega), Option.getD_none]
  · rw [if_neg (by omega), if_neg hlo]

/-! ## Texts and the loops that copy them -/

/-- The loop writes the longest beginning whose bytes all pass the test. -/
theorem copyWhile_eq (p : UInt8 → Bool) (source m : Mem) (k i d : Nat) :
    copyWhile p source k i m d
      = (m.write d (((List.range k).map fun j => source (i + j)).takeWhile p),
         (((List.range k).map fun j => source (i + j)).takeWhile p).length) := by
  induction k generalizing i m d with
  | zero => rw [copyWhile, List.range_zero, List.map_nil, List.takeWhile_nil, write_nil]; rfl
  | succ k ih =>
      have hmap : (List.range (k + 1)).map (fun j => source (i + j))
          = source i :: (List.range k).map fun j => source (i + 1 + j) := by
        rw [List.range_succ_eq_map, List.map_cons, List.map_map]
        refine congrArg (List.cons _) (List.map_congr_left fun j _ => ?_)
        show source (i + (j + 1)) = _
        rw [Nat.add_comm j, ← Nat.add_assoc]
      rw [copyWhile, hmap, List.takeWhile_cons]
      by_cases hp : p (source i) = true
      · rw [if_pos hp, if_pos hp, ih]
        exact Prod.ext (write_append m d [source i] _).symm rfl
      · rw [if_neg hp, if_neg hp, write_nil]
        rfl

/-- What such a loop finds where `text` is followed by a byte that fails the test, or by
    the end of the loop -/
theorem takeWhile_range {p : UInt8 → Bool} {f : Nat → UInt8} {text : List UInt8} {k : Nat}
    (hlen : text.length ≤ k) (hf : ∀ j, j < text.length → f j = text.getD j 0)
    (hp : ∀ b ∈ text, p b = true) (hstop : text.length < k → p (f text.length) = false) :
    ((List.range k).map f).takeWhile p = text := by
  obtain ⟨m, rfl⟩ := Nat.exists_eq_add_of_le hlen
  have htext : (List.range text.length).map f = text := by
    refine List.ext_getElem (by rw [List.length_map, List.length_range]) fun j hj hj' => ?_
    rw [List.getElem_map, List.getElem_range, hf j hj', List.getD_eq_getElem?_getD,
      List.getElem?_eq_getElem hj', Option.getD_some]
  rw [List.range_add, List.map_append, htext, List.takeWhile_append_of_pos hp]
  cases m with
  | zero => rw [List.range_zero, List.map_nil, List.map_nil, List.takeWhile_nil, List.append_nil]
  | succ m =>
      rw [List.range_succ_eq_map, List.map_cons, List.map_cons, Nat.add_zero,
        List.takeWhile_cons_of_neg (by rw [hstop (by omega)]; decide), List.append_nil]

/-- A text that is written with its NUL -/
theorem isText_write (m : Mem) {text behind : List UInt8} (h : behind.head? = some 0) :
    IsText (m.write 0 (text ++ behind)) text := by
  obtain ⟨rest, rfl⟩ : ∃ rest, behind = 0 :: rest := by
    cases behind with
    | nil => cases h
    | cons b rest => exact ⟨rest, by rw [Option.some.inj h]⟩
  intro j hj
  have hlen : j < (text ++ 0 :: rest).length := by
    rw [List.length_append, List.length_cons]
    omega
  rw [write_zero hlen, List.getElem_append]
  split
  · next hlt => rw [List.getD_eq_getElem?_getD, List.getElem?_eq_getElem hlt, Option.getD_some]
  · have hzero : j - text.length = 0 := by omega
    simp only [hzero, List.getElem_cons_zero]
    rw [List.getD_eq_getElem?_getD, List.getElem?_eq_none (by omega), Option.getD_none]

/-- A memory begins with one text. -/
theorem IsText.unique {m : Mem} {text text' : List UInt8} (h : IsText m text)
    (h' : IsText m text') (hnul : 0 ∉ text) (hnul' : 0 ∉ text') : text = text' := by
  -- a text ends at the first NUL of the memory
  have hnonzero : ∀ {l : List UInt8}, IsText m l → 0 ∉ l → ∀ j < l.length, m j ≠ 0 := by
    intro l hl hzero j hj heq
    rw [hl j (Nat.le_of_lt hj), List.getD_eq_getElem?_getD, List.getElem?_eq_getElem hj,
      Option.getD_some] at heq
    exact hzero (heq ▸ List.getElem_mem hj)
  have hend : ∀ {l : List UInt8}, IsText m l → m l.length = 0 := by
    intro l hl
    rw [hl l.length (Nat.le_refl _), List.getD_eq_getElem?_getD,
      List.getElem?_eq_none (Nat.le_refl _), Option.getD_none]
  have hlen : text.length = text'.length := by
    rcases Nat.lt_trichotomy text.length text'.length with hlt | heq | hgt
    · exact absurd (hend h) (hnonzero h' hnul' _ hlt)
    · exact heq
    · exact absurd (hend h') (hnonzero h hnul _ hgt)
  refine List.ext_getElem hlen fun j hj hj' => ?_
  have hbyte := h j (Nat.le_of_lt hj)
  rw [h' j (Nat.le_of_lt hj'), List.getD_eq_getElem?_getD, List.getD_eq_getElem?_getD,
    List.getElem?_eq_getElem hj, List.getElem?_eq_getElem hj'] at hbyte
  exact hbyte.symm

/-! ## Loads -/

/-- A load depends on the bytes it reads only. -/
theorem load_congr {m m' : Mem} {k a : Nat} (h : Agree m m' a k) : m'.load k a = m.load k a := by
  induction k generalizing a with
  | zero => rfl
  | succ k ih =>
      have hrest : m'.load k (a + 1) = m.load k (a + 1) :=
        ih fun x hlo hhi => h x (by omega) (by omega)
      simp only [load]
      rw [hrest, h a (Nat.le_refl a) (by omega)]

theorem load_lt (m : Mem) (k a : Nat) : m.load k a < 256 ^ k := by
  induction k generalizing a with
  | zero => simp [load]
  | succ k ih =>
      have hbyte : (m a).toNat < 256 := (m a).toNat_lt
      have hrest := ih (a + 1)
      simp only [load, Nat.pow_succ]
      omega

/-- Loading the bytes of `v` gives `v` back, as far as they hold it. -/
theorem load_of_bytes {m : Mem} {k a v : Nat}
    (h : ∀ i < k, m (a + i) = UInt8.ofNat (v / 256 ^ i)) : m.load k a = v % 256 ^ k := by
  induction k generalizing a v with
  | zero => simp [load, Nat.mod_one]
  | succ k ih =>
      have hfirst : m a = UInt8.ofNat v := by simpa using h 0 (Nat.succ_pos k)
      have hrest : m.load k (a + 1) = v / 256 % 256 ^ k := by
        refine ih fun i hi => ?_
        rw [Nat.add_assoc, Nat.add_comm 1 i, h (i + 1) (by omega), Nat.pow_succ',
          Nat.div_div_eq_div_mul]
      have hpow : (256 : Nat) ^ (k + 1) = 256 * 256 ^ k := Nat.pow_succ'
      have hmod : v % (256 * 256 ^ k) = v % 256 + 256 * (v / 256 % 256 ^ k) := Nat.mod_mul
      rw [hpow, hmod, load, hrest, hfirst, UInt8.toNat_ofNat']

theorem load_store_self (m : Mem) (k a v : Nat) : (m.store k a v).load k a = v % 256 ^ k := by
  refine load_of_bytes fun i hi => ?_
  simp only [store]
  rw [if_pos (by omega), Nat.add_sub_cancel_left]

theorem load_store_of_disjoint (m : Mem) {k a v n b : Nat} (h : b + n ≤ a ∨ a + k ≤ b) :
    (m.store k a v).load n b = m.load n b :=
  load_congr (agree_store m h)

theorem load_fill_of_disjoint (m : Mem) {a len n b : Nat} {v : UInt8}
    (h : b + n ≤ a ∨ a + len ≤ b) : (m.fill a len v).load n b = m.load n b :=
  load_congr (agree_fill m h)

end Mem

end Icarius.Lib
