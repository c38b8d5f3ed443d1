/-
This file models how the units get their divisors from the sections of a configuration file.

A `variant` section replaces one of the three lists of a unit. The divisors go into the list in
the order of the section, each rounded to a `float`; nothing sorts them or compares them.
`UnitRecord.Loaded` collects the units that come about this way from positive divisors.
-/

import Bmon.Graph
import Bmon.ModuleConf

namespace Bmon

/-! ### Loading a unit -/

/-- The lists of `u_div`: `UNIT_DEFAULT`, `UNIT_SI` and `UNIT_BIT`. -/
inductive UnitType where
  | default
  | si
  | bit
  deriving DecidableEq, Repr

/-- `unit->u_div[type]`. -/
def UnitRecord.uDiv (unit : UnitRecord) : UnitType → List Fraction
  | .default => unit.uDivDefault
  | .si => unit.uDivSi
  | .bit => unit.uDivBit

/-- The unit with another list for the type. -/
def UnitRecord.setDiv (unit : UnitRecord) (fractions : List Fraction) : UnitType → UnitRecord
  | .default => { unit with uDivDefault := fractions }
  | .si => { unit with uDivSi := fractions }
  | .bit => { unit with uDivBit := fractions }

/-- `unit_add_div`. -/
def unitAddDiv (unit : UnitRecord) (type : UnitType) (txt : CString) (div : ℚ) : UnitRecord :=
  unit.setDiv (unit.uDiv type ++ [⟨div, txt⟩]) type

/-- A `variant` section of a unit, with the values of its two lists. -/
structure VariantSection where
  title : CString
  div : List ℚ
  txt : List CString

/-- `add_div`: without divisors the unit stays as it is, with some they replace the list of the
type. -/
def addDiv (unit : UnitRecord) (type : UnitType) (variant : VariantSection) :
    Quits UnitRecord :=
  if variant.div.length = 0 then .ok unit
  else if variant.txt.length ≠ variant.div.length then
    .error "Number of elements for div and txt not equal\n"
  else .ok (((variant.div.map toFloat).zip variant.txt).foldl
    (fun unit entry => unitAddDiv unit type entry.2 entry.1) (unit.setDiv [] type))

/-- The body of the loop over the variants of a unit: the title selects the list. -/
def readVariant (unit : UnitRecord) (variant : VariantSection) : Quits UnitRecord :=
  if strcasecmp variant.title.chars "default".toList = 0 then addDiv unit .default variant
  else if strcasecmp variant.title.chars "si".toList = 0 then addDiv unit .si variant
  else if strcasecmp variant.title.chars "bit".toList = 0 then addDiv unit .bit variant
  else .error ("Unknown unit variant '" ++ String.ofList variant.title.chars ++ "'\n")

/-- The loop over the variants of a unit. -/
def readVariants : List VariantSection → UnitRecord → Quits UnitRecord
  | [], unit => .ok unit
  | variant :: variants, unit =>
    match readVariant unit variant with
    | .error text => .error text
    | .ok unit => readVariants variants unit

/-- A `unit` section. -/
structure UnitSection where
  title : CString
  variants : List VariantSection

/-- A unit as `unit_add` allocates it. -/
def newUnit (name : CString) : UnitRecord := ⟨name, [], [], []⟩

/-- `unit_add`, and what is then done to the unit it returns: the first one of the name, or a
new one at the end of the list. -/
def unitAdd (name : CString) (change : UnitRecord → Quits UnitRecord) :
    List UnitRecord → Quits (List UnitRecord)
  | [] => (change (newUnit name)).map fun unit => [unit]
  | unit :: units =>
    if unit.uName = name then (change unit).map fun unit => unit :: units
    else (unitAdd name change units).map fun units => unit :: units

/-- `configfile_read_units`. -/
def configfileReadUnits : List UnitSection → List UnitRecord → Quits (List UnitRecord)
  | [], units => .ok units
  | unit :: rest, units =>
    if unit.variants.length = 0 then configfileReadUnits rest units
    else
      match unitAdd unit.title (readVariants unit.variants) units with
      | .error text => .error text
      | .ok units => configfileReadUnits rest units

/-! ### Loaded units -/

/-- The unit was allocated and then loaded by calls of `add_div` with positive divisors. -/
inductive UnitRecord.Loaded : UnitRecord → Prop
  | alloc (name : CString) : Loaded (newUnit name)
  | add {unit loaded : UnitRecord} {type : UnitType} {variant : VariantSection} :
      Loaded unit → (∀ div ∈ variant.div, 0 < div) → addDiv unit type variant = .ok loaded →
      Loaded loaded

@[simp] theorem uDiv_setDiv (unit : UnitRecord) (fractions : List Fraction) (type : UnitType) :
    (unit.setDiv fractions type).uDiv type = fractions := by
  cases type <;> rfl

@[simp] theorem setDiv_setDiv (unit : UnitRecord) (first second : List Fraction)
    (type : UnitType) : (unit.setDiv first type).setDiv second type = unit.setDiv second type := by
  cases type <;> rfl

theorem uDiv_setDiv_of_ne (unit : UnitRecord) (fractions : List Fraction) {type other : UnitType}
    (different : other ≠ type) : (unit.setDiv fractions type).uDiv other = unit.uDiv other := by
  cases type <;> cases other <;> first | rfl | exact absurd rfl different

/-- The entries of a section go to the end of the list in their order. -/
theorem foldl_unitAddDiv (entries : List (ℚ × CString)) (unit : UnitRecord) (type : UnitType) :
    entries.foldl (fun unit entry => unitAddDiv unit type entry.2 entry.1) unit =
      unit.setDiv (unit.uDiv type ++ entries.map fun entry => ⟨entry.1, entry.2⟩) type := by
  induction entries generalizing unit with
  | nil =>
    rw [List.foldl_nil, List.map_nil, List.append_nil]
    cases type <;> rfl
  | cons entry entries inductionHypothesis =>
    rw [List.foldl_cons, inductionHypothesis, unitAddDiv, uDiv_setDiv, setDiv_setDiv,
      List.append_assoc, List.map_cons, List.singleton_append]

/-- What `add_div` can do: nothing, or replace the list by the entries of the section. -/
theorem addDiv_cases {unit loaded : UnitRecord} {type : UnitType} {variant : VariantSection}
    (added : addDiv unit type variant = .ok loaded) :
    (variant.div = [] ∧ loaded = unit) ∨
      (variant.txt.length = variant.div.length ∧
        loaded = unit.setDiv (((variant.div.map toFloat).zip variant.txt).map fun entry =>
          ⟨entry.1, entry.2⟩) type) := by
  unfold addDiv at added
  split at added
  · rename_i empty
    exact Or.inl ⟨List.length_eq_zero_iff.mp empty, (Except.ok.inj added).symm⟩
  · split at added
    · cases added
    · rename_i same
      refine Or.inr ⟨not_not.mp same, ?_⟩
      rw [← Except.ok.inj added, foldl_unitAddDiv, uDiv_setDiv, setDiv_setDiv, List.nil_append]

/-- What holds of every positive number once it is rounded holds of the divisors of a loaded
unit. -/
theorem UnitRecord.Loaded.forall_divisor {property : ℚ → Prop}
    (holds : ∀ div, 0 < div → property (toFloat div)) {unit : UnitRecord} (loaded : unit.Loaded)
    (type : UnitType) : ∀ f ∈ unit.uDiv type, property f.fDivisor := by
  induction loaded with
  | alloc name =>
    intro f member
    cases type <;> exact absurd member List.not_mem_nil
  | @add unit loaded' written variant _ positive added inductionHypothesis =>
    rcases addDiv_cases added with ⟨-, rfl⟩ | ⟨-, rfl⟩
    · exact inductionHypothesis
    · by_cases other : type = written
      · subst other
        intro f member
        rw [uDiv_setDiv] at member
        obtain ⟨entry, entered, rfl⟩ := List.mem_map.mp member
        obtain ⟨div, given, same⟩ := List.mem_map.mp (List.of_mem_zip entered).1
        change property entry.1
        rw [← same]
        exact holds div (positive div given)
      · rw [uDiv_setDiv_of_ne unit _ other]
        exact inductionHypothesis

/-- All divisors of a loaded unit are positive. -/
theorem UnitRecord.Loaded.pos {unit : UnitRecord} (loaded : unit.Loaded) (type : UnitType) :
    ∀ f ∈ unit.uDiv type, 0 < f.fDivisor :=
  loaded.forall_divisor (fun _ positive => Binary.round_pos (by decide) positive) type

/-- All of them are `float`s. -/
theorem UnitRecord.Loaded.fits {unit : UnitRecord} (loaded : unit.Loaded) (type : UnitType) :
    ∀ f ∈ unit.uDiv type, Binary.Fits 24 f.fDivisor :=
  loaded.forall_divisor (fun div _ => Binary.fits_round (by decide) div) type

/-- Every section with positive divisors that are `float`s, in whatever order, can be loaded into
a list. -/
theorem UnitRecord.Loaded.section {unit : UnitRecord} (loaded : unit.Loaded) (type : UnitType)
    (variant : VariantSection) (positive : ∀ div ∈ variant.div, 0 < div)
    (exact : variant.div.map toFloat = variant.div) (some : variant.div ≠ [])
    (named : variant.txt.length = variant.div.length) :
    (unit.setDiv ((variant.div.zip variant.txt).map fun entry =>
      ⟨entry.1, entry.2⟩) type).Loaded := by
  refine @Loaded.add unit _ type variant loaded positive ?_
  unfold addDiv
  rw [if_neg (fun empty => some (List.length_eq_zero_iff.mp empty)), if_neg (not_not.mpr named),
    exact, foldl_unitAddDiv, uDiv_setDiv, setDiv_setDiv, List.nil_append]

end Bmon
