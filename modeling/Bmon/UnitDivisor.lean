/-
This file asks which divisor `unit_divisor` takes.

With the dynamic exponent it walks the list of the unit from its end and takes the first divisor
that is not above the value. In an ascending list that is the largest such divisor. But the list
has the order of the configuration file, so in general it is the last one, and the largest only
where no smaller one comes last.

The walk compares `float`s. The divisors are some, but the value is rounded for it, and where
it is rounded up it may pass a divisor that is above it.

The fixed exponents are stored as numbers from zero on, and counted down to zero from one on.
So each of them takes the divisor before its own, and the first one takes none.
-/

import Bmon.UnitConf

namespace Bmon

/-! ### The dynamic exponent -/

/-- The empty name. -/
def noName : CString := CString.ofMemory []

/-- A divisor is within the value. -/
def Fraction.Within (f : Fraction) (hint : UInt64) : Prop := f.fDivisor ≤ (hint.toNat : ℚ)

instance (f : Fraction) (hint : UInt64) : Decidable (f.Within hint) :=
  inferInstanceAs (Decidable (f.fDivisor ≤ (hint.toNat : ℚ)))

/-- A divisor passes the comparison of `unit_divisor`. -/
def Fraction.Passes (f : Fraction) (hint : UInt64) : Prop := f.fDivisor ≤ toFloat hint.toNat

instance (f : Fraction) (hint : UInt64) : Decidable (f.Passes hint) :=
  inferInstanceAs (Decidable (f.fDivisor ≤ toFloat hint.toNat))

/-- A divisor within the value passes: rounding the value does not bring it below a `float`. -/
theorem Fraction.Within.passes {f : Fraction} {hint : UInt64} (within : f.Within hint)
    (fits : Binary.Fits 24 f.fDivisor) : f.Passes hint :=
  Binary.le_round (by decide) fits within

/-- The unit that it is loaded into. -/
def byteUnit : UnitRecord where
  uName := CString.ofMemory "byte".toList
  uDivDefault := [⟨1, CString.ofMemory "B".toList⟩, ⟨1024, CString.ofMemory "KiB".toList⟩,
    ⟨1048576, CString.ofMemory "MiB".toList⟩, ⟨1073741824, CString.ofMemory "GiB".toList⟩,
    ⟨1099511627776, CString.ofMemory "TiB".toList⟩]
  uDivSi := []
  uDivBit := []

/-- One byte less than a TiB is rounded up to it, and gets its divisor. -/
example : unitDivisor {} (2 ^ 40 - 1) byteUnit = (2 ^ 40, CString.ofMemory "TiB".toList) := by
  decide +kernel

/-- `set_unit_exp`: the value of the option `unit_exp`. -/
def setUnitExp (name : CString) : Quits Int :=
  let first := tolower (name.memory.headD nul)
  if first = 'b' then .ok 0
  else if first = 'k' then .ok 1
  else if first = 'm' then .ok 2
  else if first = 'g' then .ok 3
  else if first = 't' then .ok 4
  else if first = 'd' then .ok dynamicExp
  else .error ("Unknown unit exponent '" ++ String.ofList name.chars ++ "'\n")

/-- Every exponent that is stored and is not dynamic counts the prefixes from zero. -/
theorem setUnitExp_nonneg {name : CString} {e : Int} (stored : setUnitExp name = .ok e)
    (fixed : e ≠ dynamicExp) : 0 ≤ e := by
  unfold setUnitExp at stored
  dsimp only at stored
  split_ifs at stored <;> obtain rfl := Except.ok.inj stored
  · decide
  · decide
  · decide
  · decide
  · decide
  · exact absurd rfl fixed

/-- A fixed exponent takes the fraction before its own, and the first exponent none. -/
theorem unitDivisor_fixed_eq {conf : UnitConf} (nonneg : 0 ≤ conf.cfgUnitExp) (unit : UnitRecord)
    (hint : UInt64) :
    unitDivisor conf hint unit =
      if conf.cfgUnitExp = 0 then (1, noName)
      else ((getFlist conf unit)[conf.cfgUnitExp.toNat - 1]?).elim (1, noName) fun f =>
        (f.fDivisor, f.fName) := by
  have fixed : conf.cfgUnitExp ≠ dynamicExp := by
    unfold dynamicExp
    omega
  unfold unitDivisor
  rw [if_neg fixed]
  by_cases base : conf.cfgUnitExp = 0
  · rw [if_pos base, if_neg (by omega)]
    rfl
  · rw [if_neg base, if_pos (by omega),
      show (conf.cfgUnitExp - 1).toNat = conf.cfgUnitExp.toNat - 1 by omega]
    cases (getFlist conf unit)[conf.cfgUnitExp.toNat - 1]? <;> rfl

/-- Under the exponent that `set_unit_exp` stores for a prefix, `unit_divisor` returns the
fraction of that prefix exactly if the fraction before it has the same divisor and name; for
the base unit, exactly if its fraction is one and has no name. -/
theorem unitDivisor_fixed_iff (conf : UnitConf) (name : CString) (e : Int)
    (stored : setUnitExp name = .ok e) (fixed : e ≠ dynamicExp) (inForce : conf.cfgUnitExp = e)
    (unit : UnitRecord) (f : Fraction) (configured : (getFlist conf unit)[e.toNat]? = some f)
    (hint : UInt64) :
    unitDivisor conf hint unit = (f.fDivisor, f.fName) ↔
      (e = 0 ∧ f.fDivisor = 1 ∧ f.fName = noName) ∨
      (0 < e ∧ ∃ g, (getFlist conf unit)[e.toNat - 1]? = some g ∧
        g.fDivisor = f.fDivisor ∧ g.fName = f.fName) := by
  have nonneg := setUnitExp_nonneg stored fixed
  rw [unitDivisor_fixed_eq (by omega), inForce]
  by_cases base : e = 0
  · rw [if_pos base, Prod.mk.injEq]
    constructor
    · rintro ⟨divisor, unnamed⟩
      exact Or.inl ⟨base, divisor.symm, unnamed.symm⟩
    · rintro (⟨-, divisor, unnamed⟩ | ⟨positive, -⟩)
      · exact ⟨divisor.symm, unnamed.symm⟩
      · omega
  · -- the list reaches to the fraction of the prefix, so also to the one before it
    have inside := (List.getElem?_eq_some_iff.mp configured).1
    have before : (getFlist conf unit)[e.toNat - 1]? =
        some (getFlist conf unit)[e.toNat - 1] := List.getElem?_eq_getElem (by omega)
    rw [if_neg base, before, Option.elim_some, Prod.mk.injEq]
    constructor
    · rintro ⟨divisor, named⟩
      exact Or.inr ⟨by omega, _, rfl, divisor, named⟩
    · rintro (⟨zero, -⟩ | ⟨-, g, same, divisor, named⟩)
      · exact absurd zero base
      · obtain rfl := Option.some.inj same
        exact ⟨divisor, named⟩

/-- The default list of the unit `number` in the built-in configuration. -/
def numberUnit : UnitRecord where
  uName := CString.ofMemory "number".toList
  uDivDefault := [⟨1, noName⟩, ⟨1000, CString.ofMemory "K".toList⟩,
    ⟨1000000, CString.ofMemory "M".toList⟩, ⟨1000000000, CString.ofMemory "G".toList⟩,
    ⟨1000000000000, CString.ofMemory "T".toList⟩]
  uDivSi := []
  uDivBit := []

/-- The base unit of the unit `number` is the one that comes out right. -/
theorem unitDivisor_fixed_iff_number :
    unitDivisor { cfgUnitExp := 0 } 5 numberUnit = (1, noName) :=
  (unitDivisor_fixed_iff { cfgUnitExp := 0 } (CString.ofMemory "b".toList) 0 (by rfl) (by decide)
    rfl numberUnit ⟨1, noName⟩ rfl 5).mpr (Or.inl ⟨rfl, rfl, rfl⟩)

/-- The exponent of `k` takes the base unit of the unit `byte`. -/
theorem unitDivisor_kilo :
    unitDivisor { cfgUnitExp := 1 } 2048 byteUnit = (1, CString.ofMemory "B".toList) ∧
      ¬ ∀ (conf : UnitConf) (name : CString) (e : Int), setUnitExp name = .ok e →
        e ≠ dynamicExp → conf.cfgUnitExp = e → ∀ (unit : UnitRecord) (f : Fraction),
        (getFlist conf unit)[e.toNat]? = some f → ∀ hint : UInt64,
          unitDivisor conf hint unit = (f.fDivisor, f.fName) := by
  have taken : unitDivisor { cfgUnitExp := 1 } 2048 byteUnit =
      (1, CString.ofMemory "B".toList) := by
    decide +kernel
  refine ⟨taken, fun always => ?_⟩
  have kilo := always { cfgUnitExp := 1 } (CString.ofMemory "k".toList) 1 (by rfl) (by decide)
    rfl byteUnit ⟨1024, CString.ofMemory "KiB".toList⟩ rfl 2048
  rw [taken] at kilo
  have divisors := (Prod.mk.inj kilo).1
  norm_num at divisors

end Bmon
