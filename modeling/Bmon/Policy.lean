/-
This file models the selection policy of `element.c`: the rules the user gives, the matcher
`match_mask`, and `element_allowed`.

The matcher walks two pointers through the memory of the rule and of the name. A pointer is
modelled by the characters from its position up to the terminator, and a read beyond the
terminator makes the result `none`. The main result compares the matcher with the usual
meaning of a wildcard: it never finds a match that is not there, and it misses exactly those
that need a star to stand for something else than the part of the name before the first
character at which the search for the next one of the rule stops.

The search compares the `int` of `tolower` with a `char`. For the characters from 0x80 on these
differ, so that a star in front of one of them never stops, but for 0xff.
-/

import Bmon.CString
import Bmon.Lib.Wildcard

namespace Bmon

/-! ### The matcher -/

/-- `struct policy`: one rule. -/
structure Policy where
  pRule : CString
  deriving DecidableEq

/-- The inner loop of `match_mask`: the position of the first character whose lower case is `c`,
or nothing when the loop returns at the terminator. -/
def matchSkip (c : Int) : List Char → Option (Option (List Char))
  | [] => none
  | s :: str =>
    if tolowerInt s = c then some (some (s :: str))
    else if s = nul then some none
    else matchSkip c str

/-- The outer loop of `match_mask`, with the result of the function. -/
def matchLoop : List Char → List Char → Option Bool
  | [], _ => none
  | r :: rule, str =>
    if r = nul then
      str.head?.map fun s => s = nul
    else if r = '*' then
      match rule with
      | [] => none
      | next :: _ =>
        -- the variable `c`
        if storeChar (tolowerInt next) = 0 then
          some true
        else
          match matchSkip (storeChar (tolowerInt next)) str with
          | none => none
          | some none => some false
          | some (some rest) => matchLoop rule rest
    else
      match str with
      | [] => none
      | s :: rest => if tolowerInt r ≠ tolowerInt s then some false else matchLoop rule rest

/-- `match_mask`. -/
def matchMask (p : Option Policy) (str : Option CString) : Option Bool :=
  match p, str with
  | some p, some str => matchLoop p.pRule.memory str.memory
  | _, _ => some false

/-! ### What the matcher finds -/

/-- Two characters that `tolower` maps to the same one. -/
def sameLetter (a b : Char) : Prop := tolower a = tolower b

instance (a b : Char) : Decidable (sameLetter a b) := inferInstanceAs (Decidable (_ = _))

/-- The search for the first character stops at the second one. A character from 0x80 to 0xfe is
never found. -/
def stopsSearch (next s : Char) : Prop :=
  sameLetter next s ∧ ¬ (128 ≤ next.toNat ∧ next.toNat < 255)

/-- The comparison of the inner loop. -/
theorem tolowerInt_eq_storeChar_iff (next s : Char) :
    tolowerInt s = storeChar (tolowerInt next) ↔ stopsSearch next s := by
  by_cases high : 128 ≤ next.toNat ∧ next.toNat < 255
  · -- the variable is negative, and no lower case is but that of 0xff
    have notLast : next ≠ '\xff' := fun last => absurd high (last ▸ by decide)
    have negative : storeChar (tolowerInt next) = (next.toNat : Int) - 256 := by
      have kept : tolower next = next := (tolower_eq_iff (Or.inr (by omega)) next).mpr rfl
      rw [tolowerInt, if_neg notLast, kept, storeChar, if_pos (by omega)]
    refine iff_of_false ?_ fun stops => stops.2 high
    rw [negative, tolowerInt]
    split_ifs <;> omega
  · have kept : storeChar (tolowerInt next) = tolowerInt next := by
      unfold tolowerInt storeChar
      by_cases last : next = '\xff'
      · rw [if_pos last, if_neg (by omega)]
      · rw [if_neg last, if_neg]
        intro inRange
        have same : next = tolower next := (tolower_eq_iff (Or.inr (by omega)) next).mp rfl
        rw [← same] at inRange
        exact last (Char.ext (UInt32.toNat_inj.mp (by change next.toNat = 255; omega)))
    rw [kept, tolowerInt_inj, stopsSearch, sameLetter, eq_comm]
    exact (and_iff_left high).symm

/-- The meaning of a rule: a star stands for any sequence of characters, and every other
character for itself, in upper or lower case. -/
def RuleMatches (rule name : CString) : Prop :=
  Wildcard.Glob '*' sameLetter Wildcard.anyPiece rule.chars name.chars

/-- The name matches the rule in such a way that every star with a character after it stands
for the part of the name before the first character at which the search for that one stops. -/
def RuleMatchesAtFirstStops (rule name : CString) : Prop :=
  Wildcard.Glob '*' sameLetter (Wildcard.firstStop stopsSearch) rule.chars name.chars

/-- The inner loop never reads beyond the terminator. It stops at the first character that stops
the search, and returns if there is none. -/
theorem matchSkip_eq (next : Char) (notNul : next ≠ nul) (str : List Char) (noNul : nul ∉ str) :
    (matchSkip (storeChar (tolowerInt next)) (str ++ [nul]) = some none ∧
      ∀ letter ∈ str, ¬ stopsSearch next letter) ∨
    ∃ piece rest, str = piece ++ rest ∧
      matchSkip (storeChar (tolowerInt next)) (str ++ [nul]) = some (some (rest ++ [nul])) ∧
      (∀ letter ∈ piece, ¬ stopsSearch next letter) ∧
      ∃ letter ∈ rest.head?, stopsSearch next letter := by
  induction str with
  | nil =>
    refine Or.inl ⟨?_, by simp⟩
    have apart : tolowerInt nul ≠ storeChar (tolowerInt next) := fun same =>
      notNul ((storeChar_tolowerInt_eq_zero_iff next).mp (same ▸ by decide))
    simp [matchSkip, apart]
  | cons s str inductionHypothesis =>
    have tailNoNul : nul ∉ str := fun member => noNul (List.mem_cons_of_mem s member)
    have headNotNul : s ≠ nul := fun same => noNul (same ▸ List.mem_cons_self)
    by_cases found : stopsSearch next s
    · refine Or.inr ⟨[], s :: str, rfl, ?_, by simp, s, rfl, found⟩
      simp only [List.cons_append, matchSkip]
      rw [if_pos ((tolowerInt_eq_storeChar_iff next s).mpr found)]
    · have skip : matchSkip (storeChar (tolowerInt next)) (s :: str ++ [nul]) =
          matchSkip (storeChar (tolowerInt next)) (str ++ [nul]) := by
        simp only [List.cons_append]
        rw [matchSkip, if_neg (mt (tolowerInt_eq_storeChar_iff next s).mp found),
          if_neg headNotNul]
      rw [skip]
      rcases inductionHypothesis tailNoNul with
        ⟨missed, apart⟩ | ⟨piece, rest, rfl, stopped, apart, stop⟩
      · exact Or.inl ⟨missed, List.forall_mem_cons.mpr ⟨found, apart⟩⟩
      · exact Or.inr ⟨s :: piece, rest, rfl, stopped, List.forall_mem_cons.mpr ⟨found, apart⟩,
          stop⟩

/-- A star that is not the last character skips to the next one. -/
theorem matchLoop_star {next : Char} (notNul : next ≠ nul) (rule str : List Char) :
    matchLoop ('*' :: next :: rule) str =
      match matchSkip (storeChar (tolowerInt next)) str with
      | none => none
      | some none => some false
      | some (some rest) => matchLoop (next :: rule) rest := by
  have star : '*' ≠ nul := by decide
  have lower : storeChar (tolowerInt next) ≠ 0 :=
    mt (storeChar_tolowerInt_eq_zero_iff next).mp notNul
  rw [matchLoop.eq_def]
  simp only [star, if_false, if_true, lower]

/-- Any other character is compared with one of the name. -/
theorem matchLoop_letter {r : Char} (notNul : r ≠ nul) (literal : r ≠ '*') (rule : List Char)
    (s : Char) (str : List Char) :
    matchLoop (r :: rule) (s :: str) =
      if sameLetter r s then matchLoop rule str else some false := by
  rw [matchLoop.eq_def]
  simp only [notNul, literal, if_false, ne_eq, tolowerInt_inj, ite_not]
  rfl

/-- The outer loop returns without reading beyond either terminator, and it returns a match
exactly for the names that match at the first stops. -/
theorem matchLoop_eq (rule name : List Char) (ruleNoNul : nul ∉ rule) (nameNoNul : nul ∉ name) :
    ∃ found, matchLoop (rule ++ [nul]) (name ++ [nul]) = some found ∧
      (found = true ↔
        Wildcard.Glob '*' sameLetter (Wildcard.firstStop stopsSearch) rule name) := by
  induction rule generalizing name with
  | nil =>
    refine ⟨decide ((name ++ [nul]).head? = some nul), ?_, ?_⟩
    · cases name with
      | nil => simp [matchLoop]
      | cons s name => simp [matchLoop]
    · rw [Wildcard.glob_nil_iff]
      cases name with
      | nil => simp
      | cons s name =>
        have notNul : s ≠ nul := fun same => nameNoNul (same ▸ List.mem_cons_self)
        simp [notNul]
  | cons r rule inductionHypothesis =>
    have restNoNul : nul ∉ rule := fun member => ruleNoNul (List.mem_cons_of_mem r member)
    have notNul : r ≠ nul := fun same => ruleNoNul (same ▸ List.mem_cons_self)
    by_cases star : r = '*'
    · subst star
      cases rule with
      | nil =>
        exact ⟨true, by simp [matchLoop, notNul, storeChar_tolowerInt_eq_zero_iff],
          iff_of_true rfl (Wildcard.firstStop_star_last name)⟩
      | cons next rule =>
        have nextNotNul : next ≠ nul := fun same => restNoNul (same ▸ List.mem_cons_self)
        rw [Wildcard.glob_star_iff, List.cons_append, List.cons_append,
          matchLoop_star nextNotNul]
        rcases matchSkip_eq next nextNotNul name nameNoNul with
          ⟨missed, apart⟩ | ⟨piece, rest, rfl, stopped, apart, stop⟩
        · rw [missed]
          refine ⟨false, rfl, iff_of_false Bool.false_ne_true ?_⟩
          rintro ⟨piece, rest, rfl, ⟨-, letter, atHead, same⟩, -⟩
          exact apart letter (List.mem_append_right _ (List.mem_of_mem_head? atHead)) same
        · rw [stopped]
          obtain ⟨found, returned, correct⟩ := inductionHypothesis rest restNoNul
            fun member => nameNoNul (List.mem_append_right _ member)
          refine ⟨found, returned, correct.trans ⟨fun matched => ?_, ?_⟩⟩
          · exact ⟨piece, rest, rfl, ⟨apart, stop⟩, matched⟩
          · rintro ⟨piece', rest', split, stops, matched⟩
            obtain ⟨-, rfl⟩ :=
              Wildcard.firstStop_split_unique rule ⟨apart, stop⟩ stops split
            exact matched
    · rw [Wildcard.glob_letter_iff star]
      cases name with
      | nil =>
        have apart : ¬ sameLetter r nul := fun same =>
          notNul ((tolower_eq_nul_iff r).mp (same.trans ((tolower_eq_nul_iff nul).mpr rfl)))
        refine ⟨false, ?_, by simp⟩
        rw [List.cons_append, List.nil_append, matchLoop_letter notNul star, if_neg apart]
      | cons s name =>
        rw [List.cons_append, List.cons_append, matchLoop_letter notNul star]
        by_cases same : sameLetter r s
        · obtain ⟨found, returned, correct⟩ := inductionHypothesis name restNoNul
            fun member => nameNoNul (List.mem_cons_of_mem s member)
          refine ⟨found, by rwa [if_pos same], correct.trans ⟨fun matched => ?_, ?_⟩⟩
          · exact ⟨s, name, rfl, same, matched⟩
          · rintro ⟨s', rest, split, -, matched⟩
            obtain ⟨rfl, rfl⟩ := List.cons.inj split
            exact matched
        · refine ⟨false, if_neg same, iff_of_false Bool.false_ne_true ?_⟩
          rintro ⟨s', rest, split, equal, -⟩
          obtain ⟨rfl, rfl⟩ := List.cons.inj split
          exact same equal

/-- `match_mask` finds exactly the matches at the first stops. -/
theorem matchMask_eq_true_iff (p : Policy) (name : CString) :
    matchMask (some p) (some name) = some true ↔ RuleMatchesAtFirstStops p.pRule name := by
  obtain ⟨found, returned, correct⟩ :=
    matchLoop_eq p.pRule.chars name.chars p.pRule.noNul name.noNul
  rw [matchMask, CString.memory, CString.memory, returned, Option.some.injEq, correct,
    RuleMatchesAtFirstStops]

/-- A match at the first stops is a match. -/
theorem RuleMatchesAtFirstStops.ruleMatches {rule name : CString}
    (found : RuleMatchesAtFirstStops rule name) : RuleMatches rule name :=
  Wildcard.Glob.of_firstStop found

/-- When the matcher is right. For a rule and a name, `match_mask` returns 1 exactly when the
name matches the rule, if and only if the name does not match at all or matches in such a way
that every star with a character after it stands for the part of the name before the first
character at which the search for that one stops. -/
theorem matchMask_correct_iff (p : Policy) (name : CString) :
    (matchMask (some p) (some name) = some true ↔ RuleMatches p.pRule name) ↔
      (RuleMatches p.pRule name → RuleMatchesAtFirstStops p.pRule name) := by
  rw [matchMask_eq_true_iff]
  exact ⟨fun correct => correct.mpr, fun stops => ⟨fun found => found.ruleMatches, stops⟩⟩

/-- The rule `h*0` of the manual stands for the name `h00`, and `match_mask` returns 0: the star
stops at the first of the two zeros. -/
theorem matchMask_misses_second_zero :
    ∃ rule name : CString, rule.chars = ['h', '*', '0'] ∧ name.chars = ['h', '0', '0'] ∧
      RuleMatches rule name ∧ matchMask (some ⟨rule⟩) (some name) = some false := by
  refine ⟨⟨['h', '*', '0'], by decide⟩, ⟨['h', '0', '0'], by decide⟩, rfl, rfl, ?_, by decide⟩
  have rest : Wildcard.Glob '*' sameLetter Wildcard.anyPiece ['*', '0'] (['0'] ++ ['0']) :=
    .star trivial (.letter (by decide) rfl .nil)
  exact .letter (by decide) rfl rest

/-- A star in front of a byte from 0x80 on does not stop there: the two bytes of `é` in UTF-8. -/
example : matchMask (some ⟨⟨['*', '\xc3', '\xa9'], by decide⟩⟩)
    (some ⟨['\xc3', '\xa9'], by decide⟩) = some false := by decide

end Bmon
