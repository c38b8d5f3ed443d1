/-
This file models the part of the configuration that the modelled functions read: the options
of `global_opts`, the globals `conf_init_post` fills in from them, and `get_lifecycles`.
-/

import Bmon.Timestamp

namespace Bmon

/-- The options of `global_opts` behind the intervals and the lifetime, with their defaults. -/
structure GlobalOpts where
  readInterval : ℚ := 1
  rateInterval : ℚ := 1
  lifetime : ℚ := 30
  historyVariance : ℚ := 1 / 10
  variance : ℚ := 1 / 10

/-- The numeric settings in force once `conf_init_post` has run. `cfgReadInterval` is the
option `read_interval`, both as the global of that name and as `get_lifecycles` reads it. -/
structure Config where
  cfgReadInterval : ℚ
  cfgRateInterval : ℚ
  cfgRateVariance : ℚ
  cfgHistoryVariance : ℚ
  lifetime : ℚ

/-- `conf_init_post`. -/
def confInitPost (opts : GlobalOpts) : Config where
  cfgReadInterval := opts.readInterval
  cfgRateInterval := opts.rateInterval
  cfgRateVariance := opts.variance * opts.rateInterval
  cfgHistoryVariance := opts.historyVariance
  lifetime := opts.lifetime

/-- `get_lifecycles`: the lifetime in read intervals, truncated to an `unsigned int`. -/
def getLifecycles (cfg : Config) : UInt32 :=
  UInt32.ofNat ⌊cfg.lifetime / cfg.cfgReadInterval⌋₊

end Bmon
