/-
This file holds the relation between a wildcard rule and the words it stands for, over an
arbitrary alphabet.

A rule is a word in which one letter, the star, stands for a piece of the word it is matched
with; every other letter stands for the letters it is the same as. `Glob` takes as a parameter
which pieces a star may stand for, given the rest of the rule and the rest of the word. With
`anyPiece` this is the usual meaning of a wildcard. With `firstStop` a star that is not the
last letter must stand for exactly the part of the word up to the first letter at which the
search for the next letter of the rule stops: that is the reading of a matcher that never looks
back. Which letters stop the search is a relation of its own, for a matcher may search in another
way than it compares.
-/

import Mathlib.Data.List.Basic

namespace Wildcard

variable {Letter : Type*}

/-- A rule matches a word, where the last parameter says for which pieces a star may stand:
it is given the rest of the rule, the piece, and the rest of the word. -/
inductive Glob (star : Letter) (same : Letter → Letter → Prop)
    (absorbs : List Letter → List Letter → List Letter → Prop) :
    List Letter → List Letter → Prop
  | nil : Glob star same absorbs [] []
  | letter {r s : Letter} {rule word : List Letter} (literal : r ≠ star) (equal : same r s)
      (rest : Glob star same absorbs rule word) :
      Glob star same absorbs (r :: rule) (s :: word)
  | star {rule piece word : List Letter} (allowed : absorbs rule piece word)
      (rest : Glob star same absorbs rule word) :
      Glob star same absorbs (star :: rule) (piece ++ word)

/-- A star may stand for any piece, also for the empty one. -/
def anyPiece : List Letter → List Letter → List Letter → Prop := fun _ _ _ => True

/-- A star followed by a letter stands for the part of the word before the first letter that
stops the search for it. -/
def firstStop (stops : Letter → Letter → Prop) :
    List Letter → List Letter → List Letter → Prop
  | [], _, _ => True
  | next :: _, piece, word =>
    (∀ letter ∈ piece, ¬ stops next letter) ∧ ∃ letter ∈ word.head?, stops next letter

section Rules

variable {star : Letter} {same stops : Letter → Letter → Prop}
variable {absorbs allows : List Letter → List Letter → List Letter → Prop}

/-- Allowing more pieces keeps every match. -/
theorem Glob.mono (weaker : ∀ rule piece word, absorbs rule piece word → allows rule piece word)
    {rule word : List Letter} (found : Glob star same absorbs rule word) :
    Glob star same allows rule word := by
  induction found with
  | nil => exact .nil
  | letter literal equal _ inductionHypothesis => exact .letter literal equal inductionHypothesis
  | star allowed _ inductionHypothesis => exact .star (weaker _ _ _ allowed) inductionHypothesis

/-- A match that stops at the first letter is a match. -/
theorem Glob.of_firstStop {rule word : List Letter}
    (found : Glob star same (firstStop stops) rule word) :
    Glob star same anyPiece rule word :=
  found.mono fun _ _ _ _ => trivial

/-- The empty rule matches the empty word only. -/
theorem glob_nil_iff {word : List Letter} : Glob star same absorbs [] word ↔ word = [] := by
  constructor
  · rintro ⟨⟩
    rfl
  · rintro rfl
    exact .nil

/-- A letter of the rule matches one letter. -/
theorem glob_letter_iff {r : Letter} {rule word : List Letter} (literal : r ≠ star) :
    Glob star same absorbs (r :: rule) word ↔
      ∃ s rest, word = s :: rest ∧ same r s ∧ Glob star same absorbs rule rest := by
  constructor
  · intro found
    cases found with
    | letter _ equal rest => exact ⟨_, _, rfl, equal, rest⟩
    | star _ _ => exact absurd rfl literal
  · rintro ⟨s, rest, rfl, equal, found⟩
    exact .letter literal equal found

/-- A star matches a piece it may stand for. -/
theorem glob_star_iff {rule word : List Letter} :
    Glob star same absorbs (star :: rule) word ↔
      ∃ piece rest, word = piece ++ rest ∧ absorbs rule piece rest ∧
        Glob star same absorbs rule rest := by
  constructor
  · intro found
    cases found with
    | letter literal _ _ => exact absurd rfl literal
    | star allowed rest => exact ⟨_, _, rfl, allowed, rest⟩
  · rintro ⟨piece, rest, rfl, allowed, found⟩
    exact .star allowed found

/-- A star at the end of a rule matches every word. -/
theorem firstStop_star_last (word : List Letter) :
    Glob star same (firstStop stops) [star] word := by
  have whole : Glob star same (firstStop stops) [star] (word ++ []) := .star trivial .nil
  rwa [List.append_nil] at whole

/-- The first letter that stops the search splits a word in one way. -/
theorem firstStop_split_unique {next : Letter} (rule : List Letter)
    {piece word piece' word' : List Letter}
    (left : firstStop stops (next :: rule) piece word)
    (right : firstStop stops (next :: rule) piece' word')
    (equal : piece ++ word = piece' ++ word') : piece = piece' ∧ word = word' := by
  obtain ⟨apart, letter, atHead, found⟩ := left
  obtain ⟨apart', letter', atHead', found'⟩ := right
  rcases List.append_eq_append_iff.mp equal with ⟨more, rfl, rfl⟩ | ⟨more, rfl, rfl⟩
  · cases more with
    | nil => exact ⟨(List.append_nil piece).symm, rfl⟩
    | cons first more =>
      obtain rfl := Option.some.inj atHead
      exact absurd found (apart' first (by simp))
  · cases more with
    | nil => exact ⟨List.append_nil piece', rfl⟩
    | cons first more =>
      obtain rfl := Option.some.inj atHead'
      exact absurd found' (apart first (by simp))

end Rules

end Wildcard
