/-
This file models the strings of C and the few functions of the C library on them that the
sources use, in the C locale: no source file calls `setlocale`. A string is the list of its
characters without the terminator, none of which is the zero character; its memory has the
terminator at the end. The bytes are the characters up to 0xff. Nothing depends on there being
no others.

A `char` is signed on the machines the program is built for, so that the bytes from 0x80 on are
negative numbers. Where the sources compare two characters this makes no difference. Where they
compare one with an `int` it does: `tolowerInt` and `storeChar` are for that.
-/

import Mathlib.Data.List.Basic
import Mathlib.Data.List.TakeWhile

namespace Bmon

/-- The character that ends a string. -/
def nul : Char := '\x00'

/-- A string of C. -/
structure CString where
  chars : List Char
  noNul : nul ∉ chars
  deriving DecidableEq

/-- The characters from the start of a string up to its terminator. -/
def CString.memory (str : CString) : List Char := str.chars ++ [nul]

/-- Up to the terminator there is something to read. -/
theorem CString.memory_ne_none (str : CString) {n : Nat} (inside : n ≤ str.chars.length) :
    str.memory[n]? ≠ none := by
  rw [ne_eq, List.getElem?_eq_none_iff, memory, List.length_append, List.length_singleton]
  omega

/-- A character other than the terminator is in front of it. -/
theorem CString.lt_of_memory {str : CString} {n : Nat} {c : Char}
    (read : str.memory[n]? = some c) (notNul : c ≠ nul) : n < str.chars.length := by
  by_contra behind
  rw [memory, List.getElem?_append_right (not_lt.mp behind)] at read
  exact notNul (List.mem_singleton.mp (List.mem_of_getElem? read))

/-- The string that starts at some position of the memory. -/
def CString.ofMemory (memory : List Char) : CString where
  chars := memory.takeWhile (· ≠ nul)
  noNul := fun member => by
    have other := List.mem_takeWhile_imp member
    exact of_decide_eq_true other rfl

/-- `isspace` in the C locale. -/
def isspace (c : Char) : Bool := c ∈ [' ', '\t', '\n', '\x0b', '\x0c', '\r']

/-- `tolower` in the C locale. -/
def tolower (c : Char) : Char := c.toLower

/-- The `int` that `tolower` returns. The tables of the C library begin at -128: for a negative
character they hold the byte, but for -1, which is also `EOF`, they hold -1. -/
def tolowerInt (c : Char) : Int := if c = '\xff' then -1 else (tolower c).toNat

/-- An `int` that is stored in a `char`. -/
def storeChar (v : Int) : Int := if 128 ≤ v ∧ v ≤ 255 then v - 256 else v

/-- `strcasecmp`: zero, or the difference of the first two characters that differ, in lower
case. The end of a string counts as a zero. -/
def strcasecmp : List Char → List Char → Int
  | [], [] => 0
  | [], b :: _ => -((tolower b).toNat : Int)
  | a :: _, [] => ((tolower a).toNat : Int)
  | a :: as, b :: bs =>
    if tolower a = tolower b then strcasecmp as bs
    else ((tolower a).toNat : Int) - ((tolower b).toNat : Int)

/-- A character that is no letter has itself as its lower case, and nothing else has it. -/
theorem tolower_eq_iff {other : Char} (noLetter : other.toNat < 65 ∨ 122 < other.toNat)
    (c : Char) : tolower c = other ↔ c = other := by
  unfold tolower Char.toLower
  split
  · next upper =>
    have low : 65 ≤ c.val.toNat := UInt32.le_iff_toNat_le.mp upper.1
    have high : c.val.toNat ≤ 90 := UInt32.le_iff_toNat_le.mp upper.2
    have value : (c.val + ('a'.val - 'A'.val)).toNat = (c.val.toNat + 32) % 2 ^ 32 :=
      UInt32.toNat_add _ _
    change other.val.toNat < 65 ∨ 122 < other.val.toNat at noLetter
    constructor
    · intro equal
      have same : (c.val + ('a'.val - 'A'.val)).toNat = other.val.toNat :=
        congrArg (fun c : Char => c.val.toNat) equal
      omega
    · rintro rfl
      omega
  · rfl

/-- Only the terminator has the terminator as its lower case. -/
theorem tolower_eq_nul_iff (c : Char) : tolower c = nul ↔ c = nul :=
  tolower_eq_iff (by decide) c

/-- Characters differ in `tolower` as they do in the `int` of it. -/
theorem tolowerInt_inj {a b : Char} : tolowerInt a = tolowerInt b ↔ tolower a = tolower b := by
  have last (c : Char) : c = '\xff' ↔ tolower c = '\xff' := (tolower_eq_iff (by decide) c).symm
  unfold tolowerInt
  by_cases aLast : a = '\xff' <;> by_cases bLast : b = '\xff'
  · simp only [aLast, bLast]
  · rw [if_pos aLast, if_neg bLast]
    refine iff_of_false (by omega) fun same => bLast ?_
    rw [last, ← same, ← last, aLast]
  · rw [if_neg aLast, if_pos bLast]
    refine iff_of_false (by omega) fun same => aLast ?_
    rw [last, same, ← last, bLast]
  · rw [if_neg aLast, if_neg bLast, Int.natCast_inj]
    exact ⟨fun same => Char.ext (UInt32.toNat_inj.mp same), congrArg Char.toNat⟩

/-- Only the terminator is a zero, in lower case and stored in a `char`. -/
theorem storeChar_tolowerInt_eq_zero_iff (c : Char) : storeChar (tolowerInt c) = 0 ↔ c = nul := by
  rw [← tolower_eq_nul_iff]
  have value : tolower c = nul ↔ (tolower c).toNat = 0 :=
    ⟨fun ended => ended ▸ rfl, fun zero => Char.ext (UInt32.toNat_inj.mp zero)⟩
  unfold tolowerInt
  by_cases last : c = '\xff'
  · subst last
    decide
  · rw [if_neg last, value]
    unfold storeChar
    split_ifs with high <;> omega

end Bmon
