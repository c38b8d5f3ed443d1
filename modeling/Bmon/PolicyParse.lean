/-
This file models `element_parse_policy`, which turns the strings of the option `policy` into
the two lists of rules, and shows what the lists mean together with `element_allowed`.

`strtok_r` yields the pieces of a string between the commas that are not empty. A piece that
starts with an exclamation mark denies the names its rest matches, any other piece allows the
names it matches itself. The order of the pieces, the string they come from and how often they
are given make no difference: only which pieces there are.
-/

import Bmon.StoreInvariant

namespace Bmon

/-! ### Parsing a policy -/

/-- The pieces `strtok_r` yields with a comma as the only delimiter. -/
def CString.pieces (policy : CString) : List CString :=
  ((policy.chars.splitOn ',').filter fun tok => tok ≠ []).map CString.ofMemory

/-- The string behind the first character, `++tok`. -/
def CString.next (tok : CString) : CString where
  chars := tok.chars.tail
  noNul := fun member => tok.noNul (List.mem_of_mem_tail member)

/-- The piece denies: `*tok == '!'`. -/
def CString.Denies (tok : CString) : Prop := tok.chars.head? = some '!'

instance (tok : CString) : Decidable tok.Denies := inferInstanceAs (Decidable (_ = _))

/-- The rule a piece is stored as. -/
def CString.rule (tok : CString) : Policy := if tok.Denies then ⟨tok.next⟩ else ⟨tok⟩

/-- One turn of the loop of `element_parse_policy`. -/
def addPolicy (σ : Store) (tok : CString) : Store :=
  if tok.Denies then { σ with denied := σ.denied ++ [⟨tok.next⟩] }
  else { σ with allowed := σ.allowed ++ [⟨tok⟩] }

/-- `element_parse_policy`. -/
def elementParsePolicy (σ : Store) (policy : Option CString) : Store :=
  policy.elim σ fun policy => policy.pieces.foldl addPolicy σ

/-- The calls of `element_parse_policy`, one for each policy. -/
def parsePolicies (σ : Store) (policies : List (Option CString)) : Store :=
  policies.foldl elementParsePolicy σ

/-- The pieces of all policies. -/
def policyPieces (policies : List (Option CString)) : List CString :=
  policies.flatMap fun policy => policy.elim [] CString.pieces

theorem parsePolicies_eq (σ : Store) (policies : List (Option CString)) :
    parsePolicies σ policies = (policyPieces policies).foldl addPolicy σ := by
  induction policies generalizing σ with
  | nil => rfl
  | cons policy rest inductionHypothesis =>
    rw [parsePolicies, List.foldl_cons, policyPieces, List.flatMap_cons, List.foldl_append]
    cases policy with
    | none => exact inductionHypothesis σ
    | some policy => exact inductionHypothesis _

/-- The two lists hold the rules of the pieces that deny, and of those that do not. -/
theorem foldl_addPolicy (σ : Store) (pieces : List CString) :
    (pieces.foldl addPolicy σ).denied =
        σ.denied ++ (pieces.filter fun tok => tok.Denies).map CString.rule ∧
      (pieces.foldl addPolicy σ).allowed =
        σ.allowed ++ (pieces.filter fun tok => ¬tok.Denies).map CString.rule := by
  induction pieces generalizing σ with
  | nil => simp
  | cons tok rest inductionHypothesis =>
    obtain ⟨denied, allowed⟩ := inductionHypothesis (addPolicy σ tok)
    rw [List.foldl_cons, denied, allowed]
    unfold addPolicy
    by_cases denies : tok.Denies
    · simp [denies, CString.rule]
    · simp [denies, CString.rule]

/-! ### What the pieces mean -/

/-- `match_mask` finds a match of a rule. -/
def Policy.Matches (p : Policy) (name : CString) : Prop :=
  matchMask (some p) (some name) = some true

instance (p : Policy) (name : CString) : Decidable (p.Matches name) :=
  inferInstanceAs (Decidable (_ = _))

/-- The pieces permit a name: none that denies matches it, and if there are others one of them
does. -/
structure Permits (pieces : List CString) (name : CString) : Prop where
  notDenied : ∀ tok ∈ pieces, tok.Denies → ¬tok.rule.Matches name
  allowed : (∃ tok ∈ pieces, ¬tok.Denies) →
    ∃ tok ∈ pieces, ¬tok.Denies ∧ tok.rule.Matches name

/-- The name has no configuration, or one that neither shows nor hides it. -/
def NoShowHide (cfg : Option ElementCfg) : Prop :=
  ∀ ec ∈ cfg, ec.ecFlags.shown = false ∧ ec.ecFlags.hidden = false

theorem elementAllowed_of_noShowHide {σ : Store} {name : CString} {cfg : Option ElementCfg}
    (plain : NoShowHide cfg) :
    elementAllowed σ name cfg = true ↔
      (∀ p ∈ σ.denied, ¬p.Matches name) ∧
        (σ.allowed ≠ [] → ∃ p ∈ σ.allowed, p.Matches name) := by
  have policy : elementAllowed σ name cfg = elementAllowed σ name none := by
    cases cfg with
    | none => rfl
    | some ec =>
      obtain ⟨shown, hidden⟩ := plain ec rfl
      simp [elementAllowed, shown, hidden]
  rw [policy]
  unfold elementAllowed Policy.Matches
  simp only
  split
  · rename_i denied
    obtain ⟨p, member, found⟩ := List.any_eq_true.mp denied
    refine iff_of_false Bool.false_ne_true fun both => ?_
    exact both.1 p member (of_decide_eq_true found)
  · rename_i notDenied
    rw [List.any_eq_true] at notDenied
    rw [Bool.or_eq_true, List.isEmpty_iff, List.any_eq_true]
    constructor
    · rintro (empty | ⟨p, member, found⟩)
      · exact ⟨fun p member found => notDenied ⟨p, member, decide_eq_true found⟩,
          fun given => absurd empty given⟩
      · exact ⟨fun p member found => notDenied ⟨p, member, decide_eq_true found⟩,
          fun _ => ⟨p, member, of_decide_eq_true found⟩⟩
    · rintro ⟨-, allowed⟩
      by_cases empty : σ.allowed = []
      · exact Or.inl empty
      · obtain ⟨p, member, found⟩ := allowed empty
        exact Or.inr ⟨p, member, decide_eq_true found⟩

/-- After any policies have been parsed, their pieces decide. -/
theorem elementAllowed_iff_permits {σ : Store} (noneAllowed : σ.allowed = [])
    (noneDenied : σ.denied = []) (policies : List (Option CString)) {cfg : Option ElementCfg}
    (plain : NoShowHide cfg) (name : CString) :
    elementAllowed (parsePolicies σ policies) name cfg = true ↔
      Permits (policyPieces policies) name := by
  obtain ⟨denied, allowed⟩ := foldl_addPolicy σ (policyPieces policies)
  rw [noneDenied, List.nil_append] at denied
  rw [noneAllowed, List.nil_append] at allowed
  rw [elementAllowed_of_noShowHide plain, parsePolicies_eq, denied, allowed]
  have isDenied : ∀ {tok}, tok ∈ policyPieces policies → tok.Denies →
      tok.rule ∈ ((policyPieces policies).filter fun tok => tok.Denies).map CString.rule :=
    fun member denies => List.mem_map_of_mem (List.mem_filter.mpr ⟨member, decide_eq_true denies⟩)
  have isAllowed : ∀ {tok}, tok ∈ policyPieces policies → ¬tok.Denies →
      tok.rule ∈ ((policyPieces policies).filter fun tok => ¬tok.Denies).map CString.rule :=
    fun member allows => List.mem_map_of_mem (List.mem_filter.mpr ⟨member, decide_eq_true allows⟩)
  constructor
  · rintro ⟨notDenied, given⟩
    refine ⟨fun tok member denies => notDenied tok.rule (isDenied member denies), ?_⟩
    rintro ⟨tok, member, allows⟩
    obtain ⟨p, inAllowed, found⟩ := given (List.ne_nil_of_mem (isAllowed member allows))
    obtain ⟨other, kept, rfl⟩ := List.mem_map.mp inAllowed
    obtain ⟨inPieces, otherAllows⟩ := List.mem_filter.mp kept
    exact ⟨other, inPieces, of_decide_eq_true otherAllows, found⟩
  · rintro ⟨notDenied, given⟩
    refine ⟨fun p inDenied => ?_, fun some => ?_⟩
    · obtain ⟨tok, kept, rfl⟩ := List.mem_map.mp inDenied
      obtain ⟨member, denies⟩ := List.mem_filter.mp kept
      exact notDenied tok member (of_decide_eq_true denies)
    · obtain ⟨p, inAllowed⟩ := List.exists_mem_of_ne_nil _ some
      obtain ⟨tok, kept, -⟩ := List.mem_map.mp inAllowed
      obtain ⟨member, allows⟩ := List.mem_filter.mp kept
      obtain ⟨other, inPieces, otherAllows, found⟩ :=
        given ⟨tok, member, of_decide_eq_true allows⟩
      exact ⟨other.rule, isAllowed inPieces otherAllows, found⟩

/-! ### What makes no difference -/

/-- The pieces decide as a set: not by their order, nor by how often they are given. -/
theorem permits_congr {pieces pieces' : List CString}
    (same : ∀ tok, tok ∈ pieces ↔ tok ∈ pieces') (name : CString) :
    Permits pieces name ↔ Permits pieces' name := by
  constructor
  · rintro ⟨notDenied, allowed⟩
    simp only [same] at notDenied allowed
    exact ⟨notDenied, allowed⟩
  · rintro ⟨notDenied, allowed⟩
    simp only [← same] at notDenied allowed
    exact ⟨notDenied, allowed⟩

/-- Two policies as one string. -/
def CString.joined (first second : CString) : CString where
  chars := first.chars ++ ',' :: second.chars
  noNul := fun member => by
    rcases List.mem_append.mp member with inFirst | behind
    · exact first.noNul inFirst
    · rcases List.mem_cons.mp behind with comma | inSecond
      · exact absurd comma (by decide)
      · exact second.noNul inSecond

theorem pieces_joined (first second : CString) :
    (first.joined second).pieces = first.pieces ++ second.pieces := by
  unfold CString.pieces CString.joined
  rw [List.splitOn_append_cons_self, List.filter_append, List.map_append]

/-- Two policies in one string have the pieces of both. -/
theorem policyPieces_joined (before after : List (Option CString)) (first second : CString) :
    policyPieces (before ++ some (first.joined second) :: after) =
      policyPieces (before ++ some first :: some second :: after) := by
  simp [policyPieces, pieces_joined]

/-! ### More pieces -/

/-- One more piece that denies can only remove names. -/
theorem permits_of_more_denied {pieces more : List CString} {tok : CString}
    (added : ∀ other, other ∈ more ↔ other ∈ pieces ∨ other = tok) (denies : tok.Denies)
    {name : CString} (permits : Permits more name) : Permits pieces name where
  notDenied other member := permits.notDenied other ((added other).mpr (Or.inl member))
  allowed given := by
    obtain ⟨plain, member, allows⟩ := given
    obtain ⟨other, inMore, otherAllows, found⟩ :=
      permits.allowed ⟨plain, (added plain).mpr (Or.inl member), allows⟩
    rcases (added other).mp inMore with inPieces | rfl
    · exact ⟨other, inPieces, otherAllows, found⟩
    · exact absurd denies otherAllows

/-- One more piece that allows can only add names, if there is such a piece already. -/
theorem permits_more_allowed {pieces more : List CString} {tok : CString}
    (added : ∀ other, other ∈ more ↔ other ∈ pieces ∨ other = tok) (allows : ¬tok.Denies)
    (given : ∃ plain ∈ pieces, ¬plain.Denies) {name : CString}
    (permits : Permits pieces name) : Permits more name where
  notDenied other member denies := by
    rcases (added other).mp member with inPieces | rfl
    · exact permits.notDenied other inPieces denies
    · exact absurd denies allows
  allowed _ := by
    obtain ⟨other, member, otherAllows, found⟩ := permits.allowed given
    exact ⟨other, (added other).mpr (Or.inl member), otherAllows, found⟩

/-- The rule of a piece that denies is its rest, that of any other piece the piece itself. -/
theorem permits_iff {pieces : List CString} {name : CString} :
    Permits pieces name ↔
      (∀ tok ∈ pieces, tok.Denies → ¬Policy.Matches ⟨tok.next⟩ name) ∧
        ((∃ tok ∈ pieces, ¬tok.Denies) →
          ∃ tok ∈ pieces, ¬tok.Denies ∧ Policy.Matches ⟨tok⟩ name) := by
  have ofDenies : ∀ tok : CString, tok.Denies → tok.rule = ⟨tok.next⟩ := fun tok denies => by
    rw [CString.rule, if_pos denies]
  have ofAllows : ∀ tok : CString, ¬tok.Denies → tok.rule = ⟨tok⟩ := fun tok allows => by
    rw [CString.rule, if_neg allows]
  constructor
  · rintro ⟨notDenied, allowed⟩
    refine ⟨fun tok member denies => ofDenies tok denies ▸ notDenied tok member denies,
      fun given => ?_⟩
    obtain ⟨tok, member, allows, found⟩ := allowed given
    exact ⟨tok, member, allows, ofAllows tok allows ▸ found⟩
  · rintro ⟨notDenied, allowed⟩
    refine ⟨fun tok member denies => ?_, fun given => ?_⟩
    · rw [ofDenies tok denies]
      exact notDenied tok member denies
    · obtain ⟨tok, member, allows, found⟩ := allowed given
      exact ⟨tok, member, allows, by rwa [ofAllows tok allows]⟩

/-- What a policy means. After any sequence of calls of `element_parse_policy` on empty lists, a
name that no configuration shows or hides is allowed exactly if no piece `!r` has a rule `r`
that matches it and, if there is a piece without the mark, one of these matches it. So pieces
may be given in another order or again, and in one string or in two; a further piece with the
mark only removes names, and one without it only adds names where there is one already. -/
theorem elementAllowed_policy {σ : Store} (noneAllowed : σ.allowed = [])
    (noneDenied : σ.denied = []) {cfg : Option ElementCfg} (plain : NoShowHide cfg)
    (policies : List (Option CString)) (name : CString) :
    (elementAllowed (parsePolicies σ policies) name cfg = true ↔
      (∀ tok ∈ policyPieces policies, tok.Denies → ¬Policy.Matches ⟨tok.next⟩ name) ∧
        ((∃ tok ∈ policyPieces policies, ¬tok.Denies) →
          ∃ tok ∈ policyPieces policies, ¬tok.Denies ∧ Policy.Matches ⟨tok⟩ name)) ∧
    (∀ policies', (∀ tok, tok ∈ policyPieces policies ↔ tok ∈ policyPieces policies') →
      elementAllowed (parsePolicies σ policies) name cfg =
        elementAllowed (parsePolicies σ policies') name cfg) ∧
    (∀ before after first second,
      elementAllowed (parsePolicies σ (before ++ some (CString.joined first second) :: after))
          name cfg =
        elementAllowed (parsePolicies σ (before ++ some first :: some second :: after))
          name cfg) ∧
    ∀ more tok, (∀ other, other ∈ policyPieces more ↔
        other ∈ policyPieces policies ∨ other = tok) →
      (tok.Denies → elementAllowed (parsePolicies σ more) name cfg = true →
        elementAllowed (parsePolicies σ policies) name cfg = true) ∧
      (¬tok.Denies → (∃ other ∈ policyPieces policies, ¬other.Denies) →
        elementAllowed (parsePolicies σ policies) name cfg = true →
          elementAllowed (parsePolicies σ more) name cfg = true) := by
  have decides := fun policies => elementAllowed_iff_permits noneAllowed noneDenied policies plain
    name
  refine ⟨?_, fun policies' same => ?_, fun before after first second => ?_,
    fun more tok added => ⟨fun denies => ?_, fun allows given => ?_⟩⟩
  · rw [decides]
    exact permits_iff
  · rw [Bool.eq_iff_iff, decides, decides]
    exact permits_congr same name
  · rw [Bool.eq_iff_iff, decides, decides, policyPieces_joined]
  · rw [decides, decides]
    exact permits_of_more_denied added denies
  · rw [decides, decides]
    exact permits_more_allowed added allows given

/-- The second example of the manual. -/
def manualPolicy : CString := CString.ofMemory "eth*,!eth0".toList

/-- It allows `eth1`, and neither `eth0` nor `lo`. -/
theorem elementAllowed_policy_manual :
    let σ := parsePolicies (Store.start [] [] [] []) [some manualPolicy]
    elementAllowed σ (CString.ofMemory "eth1".toList) none = true ∧
      elementAllowed σ (CString.ofMemory "eth0".toList) none = false ∧
      elementAllowed σ (CString.ofMemory "lo".toList) none = false := by
  have plain : NoShowHide none := fun ec isCfg => absurd isCfg (by simp)
  have pieces : policyPieces [some manualPolicy] =
      [CString.ofMemory "eth*".toList, CString.ofMemory "!eth0".toList] := by
    decide
  have policy := fun name =>
    (@elementAllowed_policy (Store.start [] [] [] []) rfl rfl none plain [some manualPolicy] name).1
  simp only [pieces] at policy
  refine ⟨(policy _).mpr (by decide), ?_, ?_⟩
  · exact Bool.eq_false_iff.mpr fun allowed => absurd ((policy _).mp allowed) (by decide)
  · exact Bool.eq_false_iff.mpr fun allowed => absurd ((policy _).mp allowed) (by decide)

end Bmon
