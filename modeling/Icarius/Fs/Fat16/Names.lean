/-
  Icarius.Fs.Fat16.Names

  The name of a directory entry is eleven bytes, the base and the extension each padded
  with spaces; user programs write and read it with a dot between the two and a NUL
  behind.  The loops of the two conversions are each other's inverse on every name whose
  parts are made of characters other than space, dot and NUL.
-/

import Icarius.Fs.Fat16.Volume

namespace Icarius

open Icarius.Lib

/-! ## The conversions as they write -/

/-- `fat16_get_native_filename_from_userland` -/
def nativeFilenameFromUserland (native userland : Mem) : Mem :=
  let (native, i) :=
    Mem.copyWhile (fun b => b != 0 && b != 46) userland 8 0 (native.fill 0 11 32) 0
  if userland i = 46 then (Mem.copyWhile (· != 0) userland 3 (i + 1) native 8).1 else native

/-- `fat16_get_userland_filename_from_native` -/
def userlandFilenameFromNative (userland native : Mem) : Mem :=
  let (userland, i) := Mem.copyWhile (· != 32) native 8 0 (userland.fill 0 13 0) 0
  if native 8 ≠ 32 then
    let (userland, j) := Mem.copyWhile (· != 32) native 3 8 (userland.write i [46]) (i + 1)
    userland.write (i + 1 + j) [0]
  else userland.write i [0]

/-- The `file_name` of an entry -/
def nameBytes (native : Mem) : List UInt8 := (List.range 11).map native

/-- The base is written over the spaces, then the extension. -/
theorem nativeFilenameFromUserland_eq (native userland : Mem) :
    nativeFilenameFromUserland native userland
      = native.write 0 (fat16GetNativeFilenameFromUserland userland) := by
  have hbase := length_takeWhile_map_range_le (f := userland) (p := fun b => b != 0 && b != 46) 8
  simp only [nativeFilenameFromUserland, fat16GetNativeFilenameFromUserland, Mem.copyWhile_eq,
    Nat.zero_add]
  generalize ((List.range 8).map userland).takeWhile (fun b => b != 0 && b != 46) = base at hbase ⊢
  have hspaces : (native.fill 0 11 32).write 0 base
      = native.write 0 (base ++ List.replicate (11 - base.length) 32) := by
    have h := Mem.write_inside native 0 0 (List.replicate 11 32) base
      (by rw [List.length_replicate]; omega)
    rw [Mem.fill_eq_write]
    simpa only [Nat.add_zero, Nat.zero_add, List.take_zero, List.nil_append,
      List.drop_replicate] using h
  rw [hspaces]
  split
  · have hext := length_takeWhile_map_range_le
      (f := fun j => userland (base.length + 1 + j)) (p := (· != 0)) 3
    generalize ((List.range 3).map fun j => userland (base.length + 1 + j)).takeWhile (· != 0)
      = ext at hext ⊢
    have h := Mem.write_inside native 0 8 (base ++ List.replicate (11 - base.length) 32) ext
      (by rw [List.length_append, List.length_replicate]; omega)
    rw [Nat.zero_add] at h
    rw [h, List.take_append, List.take_of_length_le hbase, List.take_replicate,
      List.drop_append, List.drop_of_length_le (by omega), List.nil_append, List.drop_replicate]
    have h₁ : min (8 - base.length) (11 - base.length) = 8 - base.length := by omega
    have h₂ : 11 - base.length - (8 + ext.length - base.length) = 3 - ext.length := by omega
    rw [h₁, h₂]
  · have h₁ : 11 - base.length = 8 - base.length + 3 := by omega
    rw [h₁, List.replicate_add, List.append_nil, List.append_assoc]
    rfl

/-- The thirteen bytes of the other buffer with `text` in them -/
def zeroPadded (text : List UInt8) : List UInt8 := text ++ List.replicate (13 - text.length) 0

/-- What is written behind the text becomes part of it. -/
theorem write_zeroPadded (m : Mem) (text more : List UInt8) (h : text.length + more.length ≤ 13) :
    (m.write 0 (zeroPadded text)).write text.length more = m.write 0 (zeroPadded (text ++ more)) := by
  have hinside := Mem.write_inside m 0 text.length (zeroPadded text) more
    (by rw [zeroPadded, List.length_append, List.length_replicate]; omega)
  have hlen : 13 - text.length - (text.length + more.length - text.length)
      = 13 - (text ++ more).length := by
    rw [List.length_append]
    omega
  rw [Nat.zero_add] at hinside
  rw [hinside, zeroPadded, List.take_left, List.drop_append, List.drop_of_length_le (by omega),
    List.nil_append, List.drop_replicate, hlen]
  rfl

/-- There is a NUL behind it already. -/
theorem zeroPadded_nul {text : List UInt8} (h : text.length < 13) :
    zeroPadded (text ++ [0]) = zeroPadded text := by
  have hlen : 13 - text.length = 13 - (text ++ [0]).length + 1 := by
    rw [List.length_append, List.length_singleton]
    omega
  rw [zeroPadded, zeroPadded, hlen, List.replicate_succ, List.append_assoc, List.singleton_append]

/-- Base, dot and extension are written over the zeros, one behind the other. -/
theorem userlandFilenameFromNative_eq (userland native : Mem) :
    userlandFilenameFromNative userland native
      = userland.write 0 (zeroPadded (fat16GetUserlandFilenameFromNative (nameBytes native))) := by
  have hbase := length_takeWhile_map_range_le (f := native) (p := (· != 32)) 8
  have hext := length_takeWhile_map_range_le (f := fun j => native (8 + j)) (p := (· != 32)) 3
  have htake : (nameBytes native).take 8 = (List.range 8).map native := rfl
  have hdrop : ((nameBytes native).drop 8).take 3 = (List.range 3).map fun j => native (8 + j) := rfl
  have hget : (nameBytes native).getD 8 0 = native 8 := rfl
  simp only [userlandFilenameFromNative, fat16GetUserlandFilenameFromNative, Mem.copyWhile_eq,
    Nat.zero_add, htake, hdrop, hget, bne_iff_ne]
  generalize ((List.range 8).map native).takeWhile (· != 32) = base at hbase ⊢
  generalize ((List.range 3).map fun j => native (8 + j)).takeWhile (· != 32) = ext at hext ⊢
  have hstart : (userland.fill 0 13 0).write 0 base = userland.write 0 (zeroPadded base) := by
    rw [Mem.fill_eq_write]
    exact write_zeroPadded userland [] base (by rw [List.length_nil]; omega)
  rw [hstart]
  split
  · -- the name has an extension
    have hdot := write_zeroPadded userland base [46] (by rw [List.length_singleton]; omega)
    have hdone : (base ++ [46]).length = base.length + 1 := List.length_append
    have hmore := write_zeroPadded userland (base ++ [46]) ext (by omega)
    have hall : (base ++ [46] ++ ext).length = base.length + 1 + ext.length := by
      rw [List.length_append, hdone]
    have hend := write_zeroPadded userland (base ++ [46] ++ ext) [0]
      (by rw [List.length_singleton]; omega)
    rw [hdone] at hmore
    rw [hall] at hend
    rw [hdot, hmore, hend, zeroPadded_nul (by omega), List.append_assoc base, List.singleton_append]
  · rw [write_zeroPadded userland base [0] (by rw [List.length_singleton]; omega),
      zeroPadded_nul (by omega)]

/-! ## 8.3 names -/

/-- What the parts of a name are made of -/
def IsNameChar (b : UInt8) : Prop := b ≠ 32 ∧ b ≠ 46 ∧ b ≠ 0

/-- A name of at most eight characters with an extension of at most three -/
structure DosName where
  base : List UInt8
  ext : List UInt8
  base_le : base.length ≤ 8
  ext_le : ext.length ≤ 3
  base_chars : ∀ b ∈ base, IsNameChar b
  ext_chars : ∀ b ∈ ext, IsNameChar b

namespace DosName

/-- The name in a directory entry -/
def native (name : DosName) : List UInt8 :=
  name.base ++ List.replicate (8 - name.base.length) 32
    ++ name.ext ++ List.replicate (3 - name.ext.length) 32

/-- The name a program uses -/
def userland (name : DosName) : List UInt8 :=
  if name.ext = [] then name.base else name.base ++ 46 :: name.ext

variable (name : DosName)

theorem length_native : name.native.length = 11 := by
  have hbase := name.base_le
  have hext := name.ext_le
  simp only [native, List.length_append, List.length_replicate]
  omega

theorem length_userland : name.userland.length ≤ 12 := by
  have hbase := name.base_le
  have hext := name.ext_le
  simp only [userland]
  split
  · omega
  · rw [List.length_append, List.length_cons]
    omega

/-- The loops of one direction stop where the parts of the name end. -/
theorem native_of_userland {m : Mem} (h : Mem.IsText m name.userland) :
    fat16GetNativeFilenameFromUserland m = name.native := by
  have hlen : name.base.length ≤ name.userland.length := by
    simp only [userland]
    split
    · exact Nat.le_refl _
    · rw [List.length_append]
      exact Nat.le_add_right _ _
  -- behind the base there is the dot, or the end of the text
  have hbehind : m name.base.length = if name.ext = [] then 0 else 46 := by
    rw [h _ hlen, userland]
    split
    · rw [List.getD_eq_getElem?_getD, List.getElem?_eq_none (Nat.le_refl _), Option.getD_none]
    · rw [List.getD_eq_getElem?_getD, List.getElem?_append_right (Nat.le_refl _), Nat.sub_self]
      rfl
  -- the first loop stops behind the base, whose characters are neither
  have hbase : ((List.range 8).map m).takeWhile (fun b => b != 0 && b != 46) = name.base := by
    refine Mem.takeWhile_range name.base_le (fun j hj => ?_) (fun b hb => ?_) fun _ => ?_
    · rw [h j (by omega), userland]
      split
      · rfl
      · rw [List.getD_eq_getElem?_getD, List.getElem?_append_left hj, List.getD_eq_getElem?_getD]
    · obtain ⟨-, hdot, hnul⟩ := name.base_chars b hb
      simp [hdot, hnul]
    · rw [hbehind]
      split <;> rfl
  simp only [fat16GetNativeFilenameFromUserland, hbase, hbehind]
  by_cases hext : name.ext = []
  · rw [if_pos hext, if_neg (by decide), native, hext]
  · -- the extension stands behind the dot
    have htext : name.userland = name.base ++ 46 :: name.ext := if_neg hext
    have hrest : ((List.range 3).map fun j => m (name.base.length + 1 + j)).takeWhile (· != 0)
        = name.ext := by
      refine Mem.takeWhile_range name.ext_le (fun j hj => ?_) (fun b hb => ?_) fun _ => ?_
      · have hj' : name.base.length + 1 + j - name.base.length = j + 1 := by omega
        rw [h _ (by rw [htext, List.length_append, List.length_cons]; omega), htext,
          List.getD_eq_getElem?_getD, List.getElem?_append_right (by omega), hj',
          List.getElem?_cons_succ, List.getD_eq_getElem?_getD]
      · simp [(name.ext_chars b hb).2.2]
      · rw [h _ (by rw [htext, List.length_append, List.length_cons]; omega), htext,
          List.getD_eq_getElem?_getD, List.getElem?_eq_none, Option.getD_none]
        · rfl
        · rw [List.length_append, List.length_cons]
          omega
    rw [if_neg hext, if_pos rfl, hrest, native]

/-- The loops of the other direction stop at the padding. -/
theorem userland_of_native : fat16GetUserlandFilenameFromNative name.native = name.userland := by
  have hchars : ∀ {part : List UInt8} {n : Nat}, (∀ b ∈ part, IsNameChar b) →
      (part ++ List.replicate n 32).takeWhile (· != 32) = part := by
    intro part n hpart
    rw [List.takeWhile_append_of_pos (fun b hb => by simpa using (hpart b hb).1)]
    cases n with
    | zero => rw [List.replicate_zero, List.takeWhile_nil, List.append_nil]
    | succ n => rw [List.replicate_succ, List.takeWhile_cons_of_neg (by decide), List.append_nil]
  have hbase : (name.base ++ List.replicate (8 - name.base.length) 32).length = 8 := by
    rw [List.length_append, List.length_replicate]
    exact Nat.add_sub_of_le name.base_le
  have hext : (name.ext ++ List.replicate (3 - name.ext.length) 32).length = 3 := by
    rw [List.length_append, List.length_replicate]
    exact Nat.add_sub_of_le name.ext_le
  have htake : name.native.take 8 = name.base ++ List.replicate (8 - name.base.length) 32 := by
    rw [native, List.append_assoc]
    exact List.take_left' hbase
  have hdrop : name.native.drop 8 = name.ext ++ List.replicate (3 - name.ext.length) 32 := by
    rw [native, List.append_assoc]
    exact List.drop_left' hbase
  have hfirst : name.native.getD 8 0 = (name.native.drop 8).getD 0 0 := by
    rw [List.getD_eq_getElem?_getD, List.getD_eq_getElem?_getD, List.getElem?_drop]
  simp only [fat16GetUserlandFilenameFromNative, hfirst, htake, hdrop, List.take_of_length_le (Nat.le_of_eq hext),
    hchars name.base_chars, hchars name.ext_chars, userland]
  cases hpart : name.ext with
  | nil => rfl
  | cons b rest =>
      have hb : b ≠ 32 := (name.ext_chars b (by rw [hpart]; exact List.mem_cons_self)).1
      rw [List.cons_append, List.getD_cons_zero, if_pos (by simpa using hb), if_neg (by simp)]

/-- `dst` holds the name of the entry. -/
theorem native_written (dst : Mem) {m : Mem} (h : Mem.IsText m name.userland) :
    nameBytes (nativeFilenameFromUserland dst m) = name.native := by
  rw [nativeFilenameFromUserland_eq, name.native_of_userland h]
  refine List.ext_getElem ?_ fun i hi hi' => ?_
  · rw [nameBytes, List.length_map, List.length_range, name.length_native]
  · simp only [nameBytes, List.getElem_map, List.getElem_range]
    exact Mem.write_zero hi'

/-- `dst` holds the name a program uses, and a NUL. -/
theorem userland_written (dst : Mem) {m : Mem} (h : nameBytes m = name.native) :
    Mem.IsText (userlandFilenameFromNative dst m) name.userland := by
  have hlen := name.length_userland
  rw [userlandFilenameFromNative_eq, h, name.userland_of_native]
  apply Mem.isText_write
  obtain ⟨n, hn⟩ : ∃ n, 13 - name.userland.length = n + 1 :=
    ⟨12 - name.userland.length, by omega⟩
  rw [hn, List.replicate_succ]
  rfl

end DosName

/-- 8.3 names round-trip: a native name comes back from the userland form, a userland name
    comes back from the native form with its NUL, and two different names never have the
    same eleven bytes in a directory. -/
theorem names_round_trip (name : DosName) (userland native dst : Mem) :
    (nameBytes native = name.native →
      nameBytes (nativeFilenameFromUserland dst (userlandFilenameFromNative userland native))
        = name.native) ∧
    (Mem.IsText userland name.userland →
      Mem.IsText (userlandFilenameFromNative dst (nativeFilenameFromUserland native userland))
        name.userland) ∧
    ∀ (other : DosName) (userland' native' : Mem), Mem.IsText userland name.userland →
      Mem.IsText userland' other.userland → name.userland ≠ other.userland →
      nameBytes (nativeFilenameFromUserland native userland)
        ≠ nameBytes (nativeFilenameFromUserland native' userland') := by
  refine ⟨fun h => ?_, fun h => ?_, fun other userland' native' h h' hne heq => hne ?_⟩
  · exact name.native_written dst (name.userland_written userland h)
  · exact name.userland_written dst (name.native_written native h)
  · rw [name.native_written native h, other.native_written native' h'] at heq
    rw [← name.userland_of_native, ← other.userland_of_native, heq]

/-- KERNEL.BIN, beside a file KERNEL -/
theorem names_round_trip_kernel :
    let name : DosName := ⟨[75, 69, 82, 78, 69, 76], [66, 73, 78], by decide, by decide,
      by simp [IsNameChar], by simp [IsNameChar]⟩
    let other : DosName := ⟨[75, 69, 82, 78, 69, 76], [], by decide, by decide,
      by simp [IsNameChar], nofun⟩
    let blank : Mem := fun _ => 255
    nameBytes (nativeFilenameFromUserland blank
      (userlandFilenameFromNative blank (blank.write 0 name.native))) = name.native ∧
    Mem.IsText (userlandFilenameFromNative blank
      (nativeFilenameFromUserland blank (blank.write 0 (name.userland ++ [0])))) name.userland ∧
    nameBytes (nativeFilenameFromUserland blank (blank.write 0 (name.userland ++ [0])))
      ≠ nameBytes (nativeFilenameFromUserland blank (blank.write 0 (other.userland ++ [0]))) := by
  intro name other blank
  have hnative := (names_round_trip name blank (blank.write 0 name.native) blank).1
  obtain ⟨-, huserland, hdistinct⟩ :=
    names_round_trip name (blank.write 0 (name.userland ++ [0])) blank blank
  exact ⟨hnative (by decide), huserland (by decide),
    hdistinct other (blank.write 0 (other.userland ++ [0])) blank (by decide) (by decide) (by decide)⟩

end Icarius
