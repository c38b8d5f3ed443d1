/-
This file models the timestamp helpers of `utils.c` as the program calls them: on objects in
memory, where the destination of `timestamp_add` and `timestamp_sub` may be one of the
operands. The main loop does so when it plans the next read.

Each helper writes its destination field by field and reads the operands in between. The two
fields are never mixed, so a call leaves in the destination what the pure operations of
`Schedule` give for the operands as they were before the call, whichever of the three objects
are the same.
-/

import Bmon.Schedule
import Mathlib.Logic.Function.Basic

namespace Bmon

section Objects

variable {Object : Type*} [DecidableEq Object]

/-! ### The helpers on objects -/

/-- The assignment `dst->tv_sec = value`. -/
def storeTvSec (memory : Object → Timestamp) (dst : Object) (value : Int) : Object → Timestamp :=
  Function.update memory dst { memory dst with tvSec := value }

/-- The assignment `dst->tv_usec = value`. -/
def storeTvUsec (memory : Object → Timestamp) (dst : Object) (value : Int) :
    Object → Timestamp :=
  Function.update memory dst { memory dst with tvUsec := value }

/-- `timestamp_add`, statement by statement. -/
def timestampAddAt (memory : Object → Timestamp) (dst src1 src2 : Object) :
    Object → Timestamp :=
  let memory := storeTvSec memory dst ((memory src1).tvSec + (memory src2).tvSec)
  let memory := storeTvUsec memory dst ((memory src1).tvUsec + (memory src2).tvUsec)
  if 1000000 ≤ (memory dst).tvUsec then
    let memory := storeTvSec memory dst ((memory dst).tvSec + 1)
    storeTvUsec memory dst ((memory dst).tvUsec - 1000000)
  else memory

/-- `timestamp_sub`, statement by statement. -/
def timestampSubAt (memory : Object → Timestamp) (dst src1 src2 : Object) :
    Object → Timestamp :=
  let memory := storeTvSec memory dst ((memory src1).tvSec - (memory src2).tvSec)
  let memory := storeTvUsec memory dst ((memory src1).tvUsec - (memory src2).tvUsec)
  if (memory dst).tvUsec < 0 then
    let memory := storeTvSec memory dst ((memory dst).tvSec - 1)
    storeTvUsec memory dst ((memory dst).tvUsec + 1000000)
  else memory

/-! ### What one assignment changes -/

@[simp] theorem storeTvSec_self (memory : Object → Timestamp) (dst : Object) (value : Int) :
    storeTvSec memory dst value dst = { memory dst with tvSec := value } :=
  Function.update_self dst _ memory

@[simp] theorem storeTvUsec_self (memory : Object → Timestamp) (dst : Object) (value : Int) :
    storeTvUsec memory dst value dst = { memory dst with tvUsec := value } :=
  Function.update_self dst _ memory

@[simp] theorem storeTvSec_tvUsec (memory : Object → Timestamp) (dst object : Object)
    (value : Int) : (storeTvSec memory dst value object).tvUsec = (memory object).tvUsec := by
  unfold storeTvSec
  rw [Function.update_apply]
  split
  · rename_i same
    rw [same]
  · rfl

@[simp] theorem storeTvUsec_storeTvSec (memory : Object → Timestamp) (dst : Object)
    (sec usec : Int) :
    storeTvUsec (storeTvSec memory dst sec) dst usec =
      Function.update memory dst ⟨sec, usec⟩ := by
  unfold storeTvUsec storeTvSec
  rw [Function.update_self, Function.update_idem]

/-! ### A call gives the pure operation -/

/-- A call of `timestamp_add` leaves the sum of the old operands in the destination and
changes no other object, also when the destination is an operand. -/
theorem timestampAddAt_eq (memory : Object → Timestamp) (dst src1 src2 : Object) :
    timestampAddAt memory dst src1 src2 =
      Function.update memory dst (timestampAdd (memory src1) (memory src2)) := by
  unfold timestampAddAt timestampAdd
  simp only [storeTvSec_tvUsec, storeTvUsec_storeTvSec, Function.update_self,
    Function.update_idem]
  split <;> rfl

/-- A call of `timestamp_sub` leaves the difference of the old operands in the destination and
changes no other object, also when the destination is an operand. -/
theorem timestampSubAt_eq (memory : Object → Timestamp) (dst src1 src2 : Object) :
    timestampSubAt memory dst src1 src2 =
      Function.update memory dst (timestampSub (memory src1) (memory src2)) := by
  unfold timestampSubAt timestampSub
  simp only [storeTvSec_tvUsec, storeTvUsec_storeTvSec, Function.update_self,
    Function.update_idem]
  split <;> rfl

/-! ### Normalised timestamps are microseconds -/

/-- A normalised timestamp is determined by its microseconds. -/
theorem timestampToInt_injective {first second : Timestamp} (left : first.Normalised)
    (right : second.Normalised) (same : timestampToInt first = timestampToInt second) :
    first = second := by
  unfold timestampToInt Timestamp.Normalised at *
  obtain ⟨firstSec, firstUsec⟩ := first
  obtain ⟨secondSec, secondUsec⟩ := second
  simp only at left right same
  rw [Timestamp.mk.injEq]
  omega

/-- Adding what was subtracted restores the timestamp, with both its fields. -/
theorem timestampAdd_timestampSub {first second : Timestamp} (left : first.Normalised)
    (right : second.Normalised) : timestampAdd (timestampSub first second) second = first := by
  refine timestampToInt_injective
    (timestampAdd_normalised (timestampSub_normalised left right) right) left ?_
  rw [timestampToInt_add, timestampToInt_sub]
  omega

/-- Timestamp arithmetic is integer arithmetic of microseconds. For any objects in memory with
normalised operands, `timestamp_add` and `timestamp_sub` leave in the destination a normalised
timestamp worth the sum and the difference of the operands before the call, whether or not the
destination is one of them, and nothing else changes; subtracting and adding back restores the
first operand; and `timestamp_le` compares the microseconds. -/
theorem timestamp_arithmetic (memory : Object → Timestamp) (src1 src2 : Object)
    (left : (memory src1).Normalised) (right : (memory src2).Normalised) :
    (∀ dst : Object,
      (timestampAddAt memory dst src1 src2 dst).Normalised ∧
      timestampToInt (timestampAddAt memory dst src1 src2 dst) =
        timestampToInt (memory src1) + timestampToInt (memory src2) ∧
      (∀ other ≠ dst, timestampAddAt memory dst src1 src2 other = memory other)) ∧
    (∀ dst : Object,
      (timestampSubAt memory dst src1 src2 dst).Normalised ∧
      timestampToInt (timestampSubAt memory dst src1 src2 dst) =
        timestampToInt (memory src1) - timestampToInt (memory src2) ∧
      (∀ other ≠ dst, timestampSubAt memory dst src1 src2 other = memory other)) ∧
    timestampAdd (timestampSub (memory src1) (memory src2)) (memory src2) = memory src1 ∧
    (∀ difference sum : Object, difference ≠ src2 →
      timestampAddAt (timestampSubAt memory difference src1 src2) sum difference src2 sum =
        memory src1) ∧
    (timestampLe (memory src1) (memory src2) = true ↔
      timestampToInt (memory src1) ≤ timestampToInt (memory src2)) := by
  refine ⟨fun dst => ?_, fun dst => ?_, timestampAdd_timestampSub left right, ?_,
    timestampLe_iff left right⟩
  · rw [timestampAddAt_eq, Function.update_self]
    exact ⟨timestampAdd_normalised left right, timestampToInt_add _ _,
      fun other different => Function.update_of_ne different _ memory⟩
  · rw [timestampSubAt_eq, Function.update_self]
    exact ⟨timestampSub_normalised left right, timestampToInt_sub _ _,
      fun other different => Function.update_of_ne different _ memory⟩
  · intro difference sum different
    rw [timestampAddAt_eq, timestampSubAt_eq, Function.update_self, Function.update_self,
      Function.update_of_ne (Ne.symm different)]
    exact timestampAdd_timestampSub left right

end Objects

/-- Two objects, one of them before time zero. -/
def beforeAndAfter (before : Bool) : Timestamp := if before then ⟨-3, 700000⟩ else ⟨1, 600000⟩

example : timestampAddAt beforeAndAfter true true false true = ⟨-1, 300000⟩ ∧
    timestampSubAt beforeAndAfter false true false false = ⟨-4, 100000⟩ := by decide

/-- A sum with a carry, written over its first operand, and a difference with a borrow, written
over its second. -/
theorem timestamp_arithmetic_inPlace :
    timestampToInt (timestampAddAt beforeAndAfter true true false true) =
        -2300000 + 1600000 ∧
      timestampToInt (timestampSubAt beforeAndAfter false true false false) =
        -2300000 - 1600000 := by
  have arithmetic := timestamp_arithmetic beforeAndAfter true false (by decide) (by decide)
  exact ⟨(arithmetic.1 true).2.1, (arithmetic.2.1 false).2.1⟩

end Bmon
