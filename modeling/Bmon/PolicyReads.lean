/-
This file follows `match_mask` through its two indices, read by read, and shows that it stays
inside the rule and the name.

A read behind the terminator makes a step impossible. The two loops keep a joint invariant: both
indices are at most at the terminators, and in the inner loop the rule has not ended. It holds
because an index only moves on from a character that is not the terminator: in the outer loop
the character of the name is then the same as one of the rule, and the inner loop returns at
the terminator before it goes on.

The indices are `int` in the source and numbers here. The invariant bounds them by the lengths of
the strings, so that they overflow for no string that an `int` can index.
-/

import Bmon.Lib.Machine
import Bmon.Policy

namespace Bmon

/-! ### The matcher with its indices -/

/-- Which of the two loops is at its condition. The inner one seeks the character `c`. -/
inductive MatchPoint
  | outer
  | inner (c : Int)

/-- The variables of `match_mask`. -/
structure MatchState where
  point : MatchPoint
  i : Nat
  n : Nat

/-- `match_mask` from one condition of a loop to the next. There is no step where a read is
outside of the memory of the rule or of the name. -/
def matchStep (rule str : List Char) (st : MatchState) : Option (MatchState ⊕ Bool) :=
  match st.point with
  | .outer =>
    rule[st.i]?.bind fun r =>
      if r = nul then
        str[st.n]?.map fun s => .inr (s = nul)
      else if r = '*' then
        rule[st.i + 1]?.map fun next =>
          if storeChar (tolowerInt next) = 0 then .inr true
          else .inl ⟨.inner (storeChar (tolowerInt next)), st.i, st.n⟩
      else
        str[st.n]?.map fun s =>
          if tolowerInt r ≠ tolowerInt s then .inr false
          else .inl ⟨.outer, st.i + 1, st.n + 1⟩
  | .inner c =>
    str[st.n]?.map fun s =>
      if tolowerInt s ≠ c then
        if s = nul then .inr false
        else .inl ⟨.inner c, st.i, st.n + 1⟩
      else .inl ⟨.outer, st.i + 1, st.n⟩

/-- `match_mask`, within the given number of steps. -/
def matchMaskSteps (fuel : Nat) (p : Option Policy) (str : Option CString) : Option Bool :=
  match p, str with
  | some p, some str =>
    Machine.run (matchStep p.pRule.memory str.memory) fuel ⟨.outer, 0, 0⟩
  | _, _ => some false

/-! ### What a step does -/

/-- How the variables change in a step that does not return, and what was read for it. -/
inductive MatchMove (rule str : List Char) : MatchState → MatchState → Prop
  | letter {i n : Nat} {r s : Char} (read : rule[i]? = some r) (notNul : r ≠ nul)
      (compared : str[n]? = some s) (same : tolower r = tolower s) :
      MatchMove rule str ⟨.outer, i, n⟩ ⟨.outer, i + 1, n + 1⟩
  | star {i n : Nat} {next : Char} (read : rule[i]? = some '*')
      (ahead : rule[i + 1]? = some next) (notLast : next ≠ nul) :
      MatchMove rule str ⟨.outer, i, n⟩ ⟨.inner (storeChar (tolowerInt next)), i, n⟩
  | skip {i n : Nat} {c : Int} {s : Char} (read : str[n]? = some s) (other : tolowerInt s ≠ c)
      (notNul : s ≠ nul) : MatchMove rule str ⟨.inner c, i, n⟩ ⟨.inner c, i, n + 1⟩
  | stop {i n : Nat} {c : Int} {s : Char} (read : str[n]? = some s)
      (found : tolowerInt s = c) :
      MatchMove rule str ⟨.inner c, i, n⟩ ⟨.outer, i + 1, n⟩

theorem MatchMove.of_follows {rule str : List Char} {st next : MatchState}
    (follows : Machine.Follows (matchStep rule str) st next) : MatchMove rule str st next := by
  obtain ⟨point, i, n⟩ := st
  unfold Machine.Follows matchStep at follows
  cases point with
  | outer =>
    obtain ⟨r, read, stepped⟩ := Option.bind_eq_some_iff.mp follows
    split_ifs at stepped with ended star
    · obtain ⟨s, -, returned⟩ := Option.map_eq_some_iff.mp stepped
      cases returned
    · subst star
      obtain ⟨ahead, readAhead, moved⟩ := Option.map_eq_some_iff.mp stepped
      split_ifs at moved with last
      cases moved
      exact .star read readAhead (mt (storeChar_tolowerInt_eq_zero_iff ahead).mpr last)
    · obtain ⟨s, compared, moved⟩ := Option.map_eq_some_iff.mp stepped
      split_ifs at moved with same
      cases moved
      exact .letter read ended compared (tolowerInt_inj.mp (not_not.mp same))
  | inner c =>
    obtain ⟨s, read, moved⟩ := Option.map_eq_some_iff.mp follows
    split_ifs at moved with other ended
    · cases moved
      exact .skip read other ended
    · cases moved
      exact .stop read (not_not.mp other)

/-! ### The joint invariant -/

/-- Both indices are inside their strings or at the terminators, and in the inner loop the rule
has not ended. -/
structure MatchInside (rule name : CString) (st : MatchState) : Prop where
  inRule : st.i ≤ rule.chars.length
  inName : st.n ≤ name.chars.length
  onStar : st.point ≠ .outer → st.i < rule.chars.length

/-- A bound on the steps still to come. The rule counts twice, for a star takes one step to
enter the inner loop and another one to leave it. -/
def matchWork (rule name : CString) (st : MatchState) : Nat :=
  2 * (rule.chars.length - st.i) + (name.chars.length - st.n) +
    match st.point with
    | .outer => 1
    | .inner _ => 0

/-- A step keeps the indices inside, and brings one of them closer to the terminator. -/
theorem MatchInside.move {rule name : CString} {st next : MatchState}
    (inside : MatchInside rule name st) (move : MatchMove rule.memory name.memory st next) :
    MatchInside rule name next ∧ matchWork rule name next < matchWork rule name st := by
  obtain ⟨inRule, inName, onStar⟩ := inside
  unfold matchWork
  cases move with
  | @letter i n r s read notNul compared same =>
    have sNotNul : s ≠ nul := fun ended =>
      notNul ((tolower_eq_nul_iff r).mp (same.trans ((tolower_eq_nul_iff s).mpr ended)))
    have ruleGoesOn : i < rule.chars.length := CString.lt_of_memory read notNul
    have nameGoesOn : n < name.chars.length := CString.lt_of_memory compared sNotNul
    exact ⟨⟨ruleGoesOn, nameGoesOn, fun inner => absurd rfl inner⟩, by simp only; omega⟩
  | @star i n next read ahead notLast =>
    have ruleGoesOn : i < rule.chars.length := CString.lt_of_memory read (by decide)
    exact ⟨⟨inRule, inName, fun _ => ruleGoesOn⟩, by simp only; omega⟩
  | @skip i n c s read other notNul =>
    have nameGoesOn : n < name.chars.length := CString.lt_of_memory read notNul
    exact ⟨⟨inRule, nameGoesOn, onStar⟩, by simp only; omega⟩
  | @stop i n c s read found =>
    have ruleGoesOn : i < rule.chars.length := onStar MatchPoint.noConfusion
    exact ⟨⟨ruleGoesOn, inName, fun inner => absurd rfl inner⟩, by simp only; omega⟩

/-- With both indices inside no read of a step is behind a terminator. -/
theorem MatchInside.possible {rule name : CString} {st : MatchState}
    (inside : MatchInside rule name st) : matchStep rule.memory name.memory st ≠ none := by
  obtain ⟨point, i, n⟩ := st
  obtain ⟨s, compared⟩ := Option.ne_none_iff_exists'.mp (name.memory_ne_none inside.inName)
  unfold matchStep
  cases point with
  | outer =>
    obtain ⟨r, read⟩ := Option.ne_none_iff_exists'.mp (rule.memory_ne_none inside.inRule)
    simp only at read compared ⊢
    rw [read, Option.bind_some, compared]
    split_ifs with ended star
    · exact Option.some_ne_none _
    · -- the star is in front of the terminator, so there is a character behind it
      have goesOn : i < rule.chars.length := CString.lt_of_memory read ended
      obtain ⟨next, ahead⟩ := Option.ne_none_iff_exists'.mp (rule.memory_ne_none goesOn)
      rw [ahead]
      exact Option.some_ne_none _
    · exact Option.some_ne_none _
  | inner c =>
    simp only at compared ⊢
    rw [compared]
    exact Option.some_ne_none _

theorem matchStep_progresses (rule name : CString) :
    Machine.Progresses (matchStep rule.memory name.memory) (MatchInside rule name)
      (matchWork rule name) where
  possible _ inside := inside.possible
  keeps _ _ inside follows := (inside.move (.of_follows follows)).1
  lowers _ _ inside follows := (inside.move (.of_follows follows)).2

/-! ### The same result -/

theorem drop_of_no_read {memory : List Char} {n : Nat} (read : memory[n]? = none) :
    memory.drop n = [] :=
  List.drop_eq_nil_of_le (List.getElem?_eq_none_iff.mp read)

theorem drop_of_read {memory : List Char} {n : Nat} {c : Char} (read : memory[n]? = some c) :
    memory.drop n = c :: memory.drop (n + 1) := by
  rw [List.drop_eq_getElem?_toList_append, read, Option.toList_some, List.singleton_append]

/-- What the matcher makes of the characters that the two indices have before them. -/
def MatchState.result (rule str : List Char) (st : MatchState) : Option Bool :=
  match st.point with
  | .outer => matchLoop (rule.drop st.i) (str.drop st.n)
  | .inner c =>
    (matchSkip c (str.drop st.n)).bind fun stopped =>
      match stopped with
      | none => some false
      | some rest => matchLoop (rule.drop (st.i + 1)) rest

/-- A step of the inner loop agrees with it. -/
theorem MatchState.result_inner (rule str : List Char) (c : Int) (i n : Nat) :
    result rule str ⟨.inner c, i, n⟩ =
      (matchStep rule str ⟨.inner c, i, n⟩).bind (Sum.elim (result rule str) some) := by
  change (matchSkip c (str.drop n)).bind _ = (str[n]?.map _).bind _
  cases read : str[n]? with
  | none =>
    rw [drop_of_no_read read]
    rfl
  | some s =>
    rw [drop_of_read read, matchSkip, Option.map_some, Option.bind_some]
    by_cases found : tolowerInt s = c
    · rw [if_pos found, if_neg (not_not.mpr found), ← drop_of_read read]
      rfl
    · rw [if_neg found, if_pos found]
      split_ifs <;> rfl

/-- A step of the outer loop agrees with it. -/
theorem MatchState.result_outer (rule str : List Char) (i n : Nat) :
    result rule str ⟨.outer, i, n⟩ =
      (matchStep rule str ⟨.outer, i, n⟩).bind (Sum.elim (result rule str) some) := by
  change matchLoop (rule.drop i) (str.drop n) = (rule[i]?.bind _).bind _
  cases read : rule[i]? with
  | none =>
    rw [drop_of_no_read read]
    rfl
  | some r =>
    rw [drop_of_read read, matchLoop.eq_def, Option.bind_some]
    simp only
    split_ifs with ended star
    · rw [List.head?_drop]
      cases str[n]? <;> rfl
    · cases ahead : rule[i + 1]? with
      | none =>
        rw [drop_of_no_read ahead]
        rfl
      | some next =>
        rw [drop_of_read ahead, Option.map_some, Option.bind_some]
        simp only
        split_ifs with last
        · rfl
        · rw [← drop_of_read ahead]
          change _ = (matchSkip (storeChar (tolowerInt next)) (str.drop n)).bind _
          rcases matchSkip (storeChar (tolowerInt next)) (str.drop n) with _ | _ | rest <;> rfl
    · cases compared : str[n]? with
      | none =>
        rw [drop_of_no_read compared]
        rfl
      | some s =>
        rw [drop_of_read compared, Option.map_some, Option.bind_some]
        simp only
        split_ifs <;> rfl

theorem MatchState.result_unfolds (rule str : List Char) (st : MatchState) :
    st.result rule str =
      (matchStep rule str st).bind (Sum.elim (MatchState.result rule str) some) := by
  obtain ⟨point, i, n⟩ := st
  cases point with
  | outer => exact result_outer rule str i n
  | inner c => exact result_inner rule str c i n

/-- The steps return what `matchMask` returns, whenever they return. -/
theorem matchMask_of_steps {fuel : Nat} {p : Option Policy} {str : Option CString} {found : Bool}
    (returned : matchMaskSteps fuel p str = some found) : matchMask p str = some found := by
  unfold matchMaskSteps at returned
  cases p with
  | none => exact returned
  | some p =>
    cases str with
    | none => exact returned
    | some str =>
      exact Machine.eq_of_run (MatchState.result_unfolds p.pRule.memory str.memory) returned

/-- The matcher stays inside its strings. For every rule and name, no read of `match_mask` is
behind the terminator of the rule or of the name: a step is possible in every state it comes to,
and there both indices are at most at the terminators. It terminates after at most as many steps
as the rule has characters, twice, and the name, and two more, with the result of `matchMask`. -/
theorem matchMask_inside (p : Policy) (name : CString) :
    (∀ st, Machine.Reaches (matchStep p.pRule.memory name.memory) ⟨.outer, 0, 0⟩ st →
      matchStep p.pRule.memory name.memory st ≠ none ∧
        st.i ≤ p.pRule.chars.length ∧ st.n ≤ name.chars.length) ∧
    ∃ found, matchMask (some p) (some name) = some found ∧
      ∀ fuel ≥ 2 * p.pRule.chars.length + name.chars.length + 2,
        matchMaskSteps fuel (some p) (some name) = some found := by
  have progresses := matchStep_progresses p.pRule name
  have initial : MatchInside p.pRule name ⟨.outer, 0, 0⟩ :=
    ⟨Nat.zero_le _, Nat.zero_le _, fun inner => absurd rfl inner⟩
  constructor
  · intro st reaches
    have inside := progresses.invariant_of_reaches initial reaches
    exact ⟨progresses.not_stuck initial reaches, inside.inRule, inside.inName⟩
  · obtain ⟨found, returns⟩ := progresses.returns initial
    have steps : ∀ fuel ≥ 2 * p.pRule.chars.length + name.chars.length + 2,
        matchMaskSteps fuel (some p) (some name) = some found := fun fuel enough =>
      returns fuel enough
    exact ⟨found, matchMask_of_steps (steps _ le_rfl), steps⟩

/-- The second of two stars is sought as a character, up to the terminator of a name that is
shorter than the rule. -/
example : matchMaskSteps 7 (some ⟨⟨['a', '*', '*', 'b'], by decide⟩⟩)
    (some ⟨['a'], by decide⟩) = some false := by decide

end Bmon
