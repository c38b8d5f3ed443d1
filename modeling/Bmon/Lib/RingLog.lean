/-
This file is a small library on ring buffers that are only ever appended to.

A ring is an array of fixed size with a write index. Writing stores an entry at the index and
moves the index one position forward, from the last position to the first. Reading walks
backwards from the index, from the first position to the last, so that the `j`-th step of the
walk meets the entry written `j` writes ago. `Shows` states this for a whole log of writes:
the ring shows the end of the log, as much of it as fits. `Shows.push` is the rule a program
that writes to such a ring uses; `shows_nil` starts it. `fill` writes one entry over successive
positions, with what each position holds afterwards.
-/

import Mathlib.Data.List.Basic
import Mathlib.Logic.Function.Iterate

namespace RingLog

variable {Entry : Type*}

/-! ### Positions -/

/-- The position after `index` in a ring of `size` slots. -/
def next (size index : Nat) : Nat := if index < size - 1 then index + 1 else 0

/-- The position before `index` in a ring of `size` slots. -/
def prev (size index : Nat) : Nat := if index = 0 then size - 1 else index - 1

/-- The position reached by stepping `steps` times backwards. -/
def back (size steps index : Nat) : Nat := (prev size)^[steps] index

theorem next_lt {size index : Nat} (positive : 0 < size) : next size index < size := by
  unfold next
  split <;> omega

theorem prev_lt {size index : Nat} (inside : index < size) : prev size index < size := by
  unfold prev
  split <;> omega

@[simp] theorem back_zero (size index : Nat) : back size 0 index = index := rfl

theorem back_succ (size steps index : Nat) :
    back size (steps + 1) index = back size steps (prev size index) := rfl

theorem prev_next {size index : Nat} (inside : index < size) :
    prev size (next size index) = index := by
  unfold next
  split
  · simp [prev]
  · rw [prev, if_pos rfl]
    omega

/-- After a write the walk first meets the position just written, then the old walk. -/
theorem back_succ_next {size index : Nat} (inside : index < size) (steps : Nat) :
    back size (steps + 1) (next size index) = back size steps index := by
  rw [back_succ, prev_next inside]

/-- Stepping backwards is subtraction with one wrap. -/
theorem back_eq {size steps index : Nat} (inside : index < size) (short : steps ≤ size) :
    back size steps index = if steps ≤ index then index - steps else index + size - steps := by
  induction steps generalizing index with
  | zero => simp
  | succ steps inductionHypothesis =>
    rw [back_succ, inductionHypothesis (prev_lt inside) (by omega)]
    unfold prev
    split_ifs <;> omega

/-- Less than a whole turn back never meets the starting position again. -/
theorem back_ne {size steps index : Nat} (inside : index < size) (positive : 0 < steps)
    (short : steps < size) : back size steps index ≠ index := by
  rw [back_eq inside (Nat.le_of_lt short)]
  split_ifs <;> omega

/-- Different numbers of steps within one turn meet different positions. -/
theorem back_succ_injective {size first second index : Nat} (inside : index < size)
    (firstShort : first < size) (secondShort : second < size)
    (same : back size (first + 1) index = back size (second + 1) index) : first = second := by
  rw [back_eq inside firstShort, back_eq inside secondShort] at same
  split_ifs at same <;> omega

/-! ### Writing one entry over successive positions -/

/-- Moving on is adding one modulo the size. -/
theorem next_eq_mod {size index : Nat} (inside : index < size) :
    next size index = (index + 1) % size := by
  unfold next
  split
  · rw [Nat.mod_eq_of_lt (by omega)]
  · rw [show index + 1 = size by omega, Nat.mod_self]

/-- Moving on any number of times is adding that number modulo the size. -/
theorem iterate_next {size index : Nat} (inside : index < size) (count : Nat) :
    (next size)^[count] index = (index + count) % size := by
  induction count with
  | zero => exact (Nat.mod_eq_of_lt inside).symm
  | succ count inductionHypothesis =>
    rw [Function.iterate_succ_apply', inductionHypothesis,
      next_eq_mod (Nat.mod_lt _ (by omega)), Nat.mod_add_mod, Nat.add_assoc]

/-- Write `entry` at `index` and at the positions after it, `count` times in all. -/
def fill (size : Nat) (entry : Entry) : Nat → Nat → List Entry → List Entry
  | 0, _, data => data
  | count + 1, index, data => fill size entry count (next size index) (data.set index entry)

theorem length_fill (size : Nat) (entry : Entry) (count index : Nat) (data : List Entry) :
    (fill size entry count index data).length = data.length := by
  induction count generalizing index data with
  | zero => rfl
  | succ count inductionHypothesis =>
    rw [fill, inductionHypothesis, List.length_set]

/-- A position that is not passed keeps what it held. -/
theorem getElem?_fill_of_not_passed {size : Nat} {entry : Entry} {count index slot : Nat}
    {data : List Entry} (inside : index < size)
    (spared : ∀ step < count, (index + step) % size ≠ slot) :
    (fill size entry count index data)[slot]? = data[slot]? := by
  induction count generalizing index data with
  | zero => rfl
  | succ count inductionHypothesis =>
    have here := spared 0 (Nat.succ_pos count)
    rw [Nat.add_zero, Nat.mod_eq_of_lt inside] at here
    rw [fill, inductionHypothesis (next_lt (Nat.zero_lt_of_lt inside)),
      List.getElem?_set_ne here]
    intro step early
    rw [next_eq_mod inside, Nat.mod_add_mod, show index + 1 + step = index + (step + 1) by omega]
    exact spared (step + 1) (Nat.succ_lt_succ early)

/-- A position that is passed holds the entry. -/
theorem getElem?_fill_of_passed {size : Nat} (entry : Entry) {count index : Nat}
    {data : List Entry} (inside : index < size) (full : data.length = size) {step : Nat}
    (early : step < count) :
    (fill size entry count index data)[(index + step) % size]? = some entry := by
  induction count generalizing index data step with
  | zero => omega
  | succ count inductionHypothesis =>
    have moved : next size index < size := next_lt (Nat.zero_lt_of_lt inside)
    have written : (data.set index entry).length = size := by rw [List.length_set, full]
    rw [fill]
    cases step with
    | succ step =>
      rw [show index + (step + 1) = index + 1 + step by omega, ← Nat.mod_add_mod,
        ← next_eq_mod inside]
      exact inductionHypothesis moved written (Nat.lt_of_succ_lt_succ early)
    | zero =>
      -- the position just written is passed again only to be written with the same entry
      rw [Nat.add_zero, Nat.mod_eq_of_lt inside]
      by_cases again : ∃ later < count, (next size index + later) % size = index
      · obtain ⟨later, short, same⟩ := again
        have passed := inductionHypothesis moved written short
        rwa [same] at passed
      · rw [getElem?_fill_of_not_passed moved (fun later short same => again ⟨later, short, same⟩)]
        exact List.getElem?_set_self (by omega)

/-! ### What a ring shows of a log -/

/-- The ring `data` with write index `index` shows the end of `log`: the walk backwards meets
the entries of the log in reverse, for one turn of the ring at most. -/
def Shows (size : Nat) (data : List Entry) (index : Nat) (log : List Entry) : Prop :=
  ∀ steps, steps < log.length → steps < size →
    data[back size (steps + 1) index]? = log.reverse[steps]?

theorem shows_nil (size : Nat) (data : List Entry) (index : Nat) : Shows size data index [] := by
  intro steps short
  simp at short

/-- Writing an entry at the index and moving on appends it to the log shown. -/
theorem Shows.push {size : Nat} {data : List Entry} {index : Nat} {log : List Entry}
    (shows_ : Shows size data index log) (inside : index < size) (full : data.length = size)
    (entry : Entry) :
    Shows size (data.set index entry) (next size index) (log ++ [entry]) := by
  intro steps short turn
  rw [back_succ_next inside, List.reverse_append, List.reverse_singleton, List.singleton_append]
  cases steps with
  | zero =>
    rw [back_zero, List.getElem?_set_self (by omega), List.getElem?_cons_zero]
  | succ steps =>
    have elsewhere : index ≠ back size (steps + 1) index :=
      (back_ne inside (Nat.succ_pos steps) turn).symm
    rw [List.getElem?_set_ne elsewhere, List.getElem?_cons_succ]
    refine shows_ steps ?_ (by omega)
    simpa using short

end RingLog
