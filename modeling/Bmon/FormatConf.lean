/-
This file follows the format module through several configurations. Every option `fmt` gives it a
new format string and frees the one before; every call of `module_configure` ends with a scan of
the string of the time. The scan appends its tokens to the array and writes into the string, and
nothing ever empties the array. So the tokens belong to the format string as long as there was
only one scan that found any, and afterwards only where a second scan of the same string ends at
once, since the first one has already cut off its beginning.

The options that say where and how often the module writes are not followed.
-/

import Bmon.Format
import Bmon.Lib.Runs

namespace Bmon

/-! ### What a scan appends -/

/-- The result of a scan, with the new tokens behind the given ones. -/
def FormatModule.behind (tokens : List OutToken) (result : FormatModule × Option String) :
    FormatModule × Option String :=
  (⟨result.1.cFormat, tokens ++ result.1.outTokens⟩, result.2)

/-- What is said of every scan: it does not look at the tokens it has, leaves the string before
its start alone, and all of it if it finds no token. Then it ends well only where it starts. -/
def Appends (cFormat : List Char) (p : Nat) (newOne : Bool) : Prop :=
  ∃ result : FormatModule × Option String,
    (∀ tokens, formatProbeFrom ⟨cFormat, tokens⟩ p newOne = FormatModule.behind tokens result) ∧
    (∀ q < p, result.1.cFormat.getD q nul = cFormat.getD q nul) ∧
    (result.1.outTokens = [] → result.1.cFormat = cFormat ∧
      (newOne = true → result.2 = none → cFormat.getD p nul = nul))

/-- A scan that ends here. -/
theorem Appends.stop {cFormat : List Char} {p : Nat} {newOne : Bool} (error : Option String)
    (ends : ∀ tokens, formatProbeFrom ⟨cFormat, tokens⟩ p newOne = (⟨cFormat, tokens⟩, error))
    (well : error = none → cFormat.getD p nul = nul) : Appends cFormat p newOne := by
  refine ⟨(⟨cFormat, []⟩, error), fun tokens => ?_, fun _ _ => rfl, fun _ => ⟨rfl, fun _ => well⟩⟩
  rw [ends, FormatModule.behind, List.append_nil]

/-- A scan that adds a token, writes from here on only, and goes on. -/
theorem Appends.token {cFormat written : List Char} {p next : Nat} {newOne newNext : Bool}
    (token : OutToken) (later : p ≤ next)
    (before : ∀ q < p, written.getD q nul = cFormat.getD q nul)
    (goes : ∀ tokens, formatProbeFrom ⟨cFormat, tokens⟩ p newOne =
      formatProbeFrom ⟨written, tokens ++ [token]⟩ next newNext)
    (rest : Appends written next newNext) : Appends cFormat p newOne := by
  obtain ⟨result, same, kept, -⟩ := rest
  refine ⟨(⟨result.1.cFormat, token :: result.1.outTokens⟩, result.2), fun tokens => ?_,
    fun q low => (kept q (low.trans_le later)).trans (before q low), nofun⟩
  rw [goes, same, FormatModule.behind, FormatModule.behind, List.append_assoc,
    List.singleton_append]

theorem appends (cFormat : List Char) (p : Nat) (newOne : Bool) : Appends cFormat p newOne := by
  induction measure : cFormat.length - p using Nat.strong_induction_on
    generalizing cFormat p newOne with
  | h n inductionHypothesis =>
    subst measure
    by_cases ends : cFormat.getD p nul = nul
    · exact .stop none (fun tokens => by rw [formatProbeFrom, if_pos ends]) fun _ => ends
    have inside := lt_length_of_getD_ne ends
    have untouched (q position : Nat) (c : Char) (buffer : List Char) (other : q ≠ position) :
        (buffer.set position c).getD q nul = buffer.getD q nul := by
      rw [List.getD_eq_getElem?_getD, List.getElem?_set_ne other.symm,
        ← List.getD_eq_getElem?_getD]
    by_cases field : cFormat.getD p nul = '$' ∧ cFormat.getD (p + 1) nul = '('
    · by_cases short : cFormat.getD (p + 2) nul = nul
      · refine .stop (some "Unexpected end of format string\n") (fun tokens => ?_)
          fun nothing => absurd nothing (Option.some_ne_none _)
        rw [formatProbeFrom, if_neg ends, if_pos field, if_pos short]
      cases cut : strchr ')' (stringAt cFormat (p + 2)) with
      | mk name after =>
        cases after with
        | none =>
          refine .stop (some "Missing ')' in format string\n") (fun tokens => ?_)
            fun nothing => absurd nothing (Option.some_ne_none _)
          rw [formatProbeFrom, if_neg ends, if_pos field, if_neg short]
          simp only [cut]
        | some after =>
          refine .token ⟨.otToken, p + 2⟩ (by omega) (fun q low => ?_) (fun tokens => ?_)
            (inductionHypothesis _ ?_ ((cFormat.set p nul).set (p + 2 + name.length) nul)
              (p + 2 + name.length + 1) true rfl)
          · rw [untouched q _ nul _ (by omega), untouched q p nul _ low.ne]
          · rw [formatProbeFrom, if_neg ends, if_pos field, if_neg short]
            simp only [cut]
          · rw [List.length_set, List.length_set]
            omega
    · cases escaped : (if cFormat.getD p nul = '\\' then escape (cFormat.getD (p + 1) nul)
        else none) with
      | some control =>
        refine .token ⟨.otString, p + 1⟩ (by omega) (fun q low => ?_) (fun tokens => ?_)
          (inductionHypothesis _ ?_ ((cFormat.set (p + 1) control).set p nul) (p + 2) false rfl)
        · rw [untouched q p nul _ low.ne, untouched q (p + 1) control _ (by omega)]
        · rw [formatProbeFrom, if_neg ends, if_neg field]
          simp only [escaped]
        · rw [List.length_set, List.length_set]
          omega
      | none =>
        have rest := inductionHypothesis _ (by omega) cFormat (p + 1) false rfl
        cases newOne with
        | true =>
          refine .token ⟨.otString, p⟩ (Nat.le_succ p) (fun _ _ => rfl) (fun tokens => ?_) rest
          rw [formatProbeFrom, if_neg ends, if_neg field]
          simp only [escaped]
          rfl
        | false =>
          obtain ⟨result, same, kept, untouched⟩ := rest
          refine ⟨result, fun tokens => ?_, fun q low => kept q (Nat.lt_succ_of_lt low),
            fun nothing => ⟨(untouched nothing).1, fun isNew => absurd isNew Bool.false_ne_true⟩⟩
          rw [← same, formatProbeFrom, if_neg ends, if_neg field]
          simp only [escaped]
          rfl

/-- A scan without a token changes nothing, and ends well only at once. -/
theorem formatProbe_untouched {cFormat : List Char}
    (nothing : (formatProbe ⟨cFormat, []⟩).1.outTokens = []) :
    (formatProbe ⟨cFormat, []⟩).1.cFormat = cFormat ∧
      ((formatProbe ⟨cFormat, []⟩).2 = none → cFormat.getD 0 nul = nul) := by
  obtain ⟨result, same, -, untouched⟩ := appends cFormat 0 true
  unfold formatProbe at nothing ⊢
  rw [same] at nothing ⊢
  simp only [FormatModule.behind, List.nil_append] at nothing ⊢
  obtain ⟨kept, well⟩ := untouched nothing
  exact ⟨kept, well rfl⟩

/-- A string that is cut off at its beginning is scanned at once. -/
theorem formatProbe_cut {cFormat : List Char} (cut : cFormat.getD 0 nul = nul) :
    formatProbe ⟨cFormat, []⟩ = (⟨cFormat, []⟩, none) := by
  rw [formatProbe, formatProbeFrom, if_pos cut]

/-- The string begins with text: neither with a placeholder nor with an escape sequence. -/
def OpensWithText (format : List Char) : Prop :=
  format ≠ [] ∧ ¬(format.head? = some '$' ∧ format.tail.head? = some '(') ∧
    ¬(format.head? = some '\\' ∧ (format.tail.head?.bind escape).isSome)

instance (format : List Char) : Decidable (OpensWithText format) :=
  inferInstanceAs (Decidable (_ ∧ _ ∧ _))

/-- A scan leaves the string before its start alone. -/
theorem formatProbeFrom_kept (cFormat : List Char) (tokens : List OutToken) {p q : Nat}
    (newOne : Bool) (low : q < p) :
    (formatProbeFrom ⟨cFormat, tokens⟩ p newOne).1.cFormat.getD q nul = cFormat.getD q nul := by
  obtain ⟨result, same, kept, -⟩ := appends cFormat p newOne
  rw [same]
  exact kept q low

/-- The first scan cuts off the beginning of a string, unless that is text. -/
theorem formatProbe_fresh_cut {format : CString}
    (well : (formatProbe (FormatModule.fresh format)).2 = none) :
    (formatProbe (FormatModule.fresh format)).1.cFormat.getD 0 nul = nul ↔
      ¬ OpensWithText format.chars := by
  obtain ⟨chars, noNul⟩ := format
  change (formatProbeFrom ⟨chars ++ [nul], []⟩ 0 true).2 = none at well
  change (formatProbeFrom ⟨chars ++ [nul], []⟩ 0 true).1.cFormat.getD 0 nul = nul ↔ _
  cases chars with
  | nil => exact iff_of_true (by decide +kernel) fun opens => opens.1 rfl
  | cons c rest =>
    have given : c ≠ nul := fun isNul => noNul (List.mem_cons.mpr (Or.inl isNul.symm))
    by_cases field : c = '$' ∧ rest.head? = some '('
    · have notText : ¬ OpensWithText (c :: rest) := fun opens =>
        opens.2.1 ⟨congrArg some field.1, field.2⟩
      obtain ⟨rfl, opens⟩ := field
      obtain ⟨rest, rfl⟩ := List.head?_eq_some_iff.mp opens
      have plain : nul ∉ rest := fun member => noNul (by simp [member])
      cases cut : strchr ')' rest with
      | mk name after =>
        cases after with
        | none =>
          obtain ⟨rfl, noClose⟩ := strchr_eq_none cut
          rw [List.cons_append, List.cons_append] at well
          have unclosed := formatProbeFrom_unclosed [] [] true plain noClose
          rw [List.nil_append, List.length_nil] at unclosed
          rw [unclosed] at well
          cases well
        | some after =>
          obtain ⟨rfl, noClose⟩ := strchr_eq_some cut
          have plainName : nul ∉ name := fun member => plain (List.mem_append_left _ member)
          have turn := formatProbeFrom_placeholder [] (after ++ [nul]) [] true plainName noClose
          rw [List.nil_append, List.length_nil] at turn
          rw [List.cons_append, List.cons_append, List.append_assoc, List.cons_append, turn,
            formatProbeFrom_kept _ _ true (by simp)]
          exact iff_of_true rfl notText
    · cases escaped : (if c = '\\' then rest.head?.bind escape else none) with
      | some control =>
        have notText : ¬ OpensWithText (c :: rest) := by
          intro opens
          obtain ⟨backslash, letter, others, rfl, control⟩ := escape_shape escaped
          exact opens.2.2 ⟨congrArg some backslash, Option.isSome_iff_exists.mpr ⟨_, control⟩⟩
        obtain ⟨rfl, letter, rest, rfl, escaped⟩ := escape_shape escaped
        have turn := formatProbeFrom_escape [] (rest ++ [nul]) [] true escaped
        rw [List.nil_append, List.length_nil] at turn
        rw [List.cons_append, List.cons_append, turn, formatProbeFrom_kept _ _ false (by simp)]
        exact iff_of_true rfl notText
      | none =>
        have text : OpensWithText (c :: rest) := by
          refine ⟨List.cons_ne_nil c rest, fun opens => ?_, fun opens => ?_⟩
          · exact field ⟨Option.some.inj opens.1, opens.2⟩
          · rw [if_pos (Option.some.inj opens.1)] at escaped
            exact absurd escaped (Option.isSome_iff_ne_none.mp opens.2)
        have turn := formatProbeFrom_literal [] (rest ++ [nul]) [] true given
          (noField_next field) (noEscape_next escaped)
        rw [List.nil_append, List.length_nil] at turn
        rw [List.cons_append, turn, formatProbeFrom_kept _ _ false (by simp)]
        exact iff_of_false given fun notText => notText text

/-! ### The state of the module -/

/-- The state of the format module: the format string it was given last, the buffer that holds
it and what the scans have made of that, and the tokens, each with the buffer it refers to. The
buffers are numbered, and all before the one of the time are freed. -/
structure FormatState where
  formatString : CString
  buffer : Nat
  cFormat : List Char
  outTokens : List (Nat × OutToken)
  deriving DecidableEq

/-- `free(c_format); c_format = strdup(value)`. -/
def FormatState.setFormat (st : FormatState) (value : CString) : FormatState :=
  ⟨value, st.buffer + 1, value.memory, st.outTokens⟩

/-- `format_parse_opt`. No state follows where the program exits, and none where `strdup` reads
a value that is not given. -/
def formatParseOpt (st : FormatState) (tv : Tv) : Option FormatState :=
  if strcasecmp tv.tvType "stderr".toList = 0 then some st
  else if strcasecmp tv.tvType "debug".toList = 0 then some st
  else if strcasecmp tv.tvType "fmt".toList = 0 then
    tv.tvValue.map fun value => st.setFormat (CString.ofMemory value)
  else if strcasecmp tv.tvType "quitafter".toList = 0 ∧ tv.tvValue.isSome then some st
  else if strcasecmp tv.tvType "help".toList = 0 then none
  else some st

/-- `format_probe` on the state, with whether it succeeds. -/
def FormatState.probe (st : FormatState) : FormatState × Bool :=
  let result := formatProbe ⟨st.cFormat, []⟩
  ({ st with
      cFormat := result.1.cFormat
      outTokens := st.outTokens ++ result.1.outTokens.map fun token => (st.buffer, token) },
    result.2.isNone)

/-- `module_configure` on the format module, with whether it succeeds. -/
def formatConfigure (st : FormatState) (attrs : List Tv) : Option (FormatState × Bool) :=
  (attrs.foldlM formatParseOpt st).map FormatState.probe

/-- The format string of `ascii_init`. -/
def defaultFormat : CString := CString.ofMemory ("$(element:name) $(attr:rx:bytes) " ++
  "$(attr:tx:bytes) $(attr:rx:packets) $(attr:tx:packets)\\n").toList

/-- The module after `ascii_init`. -/
def FormatState.start : FormatState := ⟨defaultFormat, 0, defaultFormat.memory, []⟩

/-- One call in a run of configurations. -/
def FormatState.step (st : FormatState) (attrs : List Tv) : Option FormatState :=
  (formatConfigure st attrs).map Prod.fst

/-! ### What every configuration keeps -/

/-- The tokens that refer to the buffer of the time. -/
def FormatState.current (st : FormatState) : List OutToken :=
  (st.outTokens.filter fun token => token.1 = st.buffer).map Prod.snd

/-- The scan of the format string of the time as it was given. -/
def FormatState.fresh (st : FormatState) : FormatModule × Option String :=
  formatProbe (FormatModule.fresh st.formatString)

/-- No token refers to a later buffer. Of the buffer of the time, there has either been no scan,
or its tokens are those of the first one and more; where there are no more, the buffer is as the
first scan left it, and there are none where that has cut off its beginning. -/
structure FormatState.Kept (st : FormatState) : Prop where
  known : ∀ token ∈ st.outTokens, token.1 ≤ st.buffer
  scanned : (st.current = [] ∧ st.cFormat = st.formatString.memory) ∨
    ∃ more, st.current = st.fresh.1.outTokens ++ more ∧
      (more = [] → st.cFormat = st.fresh.1.cFormat) ∧
      (st.fresh.1.cFormat.getD 0 nul = nul → more = [])

theorem FormatState.kept_start : FormatState.start.Kept := ⟨nofun, Or.inl ⟨rfl, rfl⟩⟩

theorem FormatState.Kept.setFormat {st : FormatState} (kept : st.Kept) (value : CString) :
    (st.setFormat value).Kept := by
  refine ⟨fun token member => (kept.known token member).trans (Nat.le_succ _), Or.inl ⟨?_, rfl⟩⟩
  have none : (st.outTokens.filter fun token => token.1 = st.buffer + 1) = [] := by
    rw [List.filter_eq_nil_iff]
    intro token member
    have old := kept.known token member
    rw [decide_eq_true_eq]
    omega
  exact congrArg (List.map Prod.snd) none

theorem FormatState.Kept.parseOpt {st next : FormatState} {tv : Tv} (kept : st.Kept)
    (parsed : formatParseOpt st tv = some next) : next.Kept := by
  unfold formatParseOpt at parsed
  split_ifs at parsed with stderr debug fmt
  case pos =>
    obtain rfl := Option.some.inj parsed
    exact kept
  case pos =>
    obtain rfl := Option.some.inj parsed
    exact kept
  case pos =>
    obtain ⟨value, -, rfl⟩ := Option.map_eq_some_iff.mp parsed
    exact kept.setFormat _
  all_goals
    obtain rfl := Option.some.inj parsed
    exact kept

theorem FormatState.Kept.options {st next : FormatState} {attrs : List Tv} (kept : st.Kept)
    (parsed : attrs.foldlM formatParseOpt st = some next) : next.Kept :=
  Runs.run_invariant FormatState.Kept (fun _ _ _ kept parsed => kept.parseOpt parsed) kept parsed

/-- The new tokens of a scan all refer to the buffer of the time. -/
theorem FormatState.current_probe (st : FormatState) :
    st.probe.1.current = st.current ++ (formatProbe ⟨st.cFormat, []⟩).1.outTokens := by
  unfold FormatState.current FormatState.probe
  simp only [List.filter_append, List.filter_map, Function.comp_def, decide_true,
    List.filter_true, List.map_append, List.map_map]
  exact congrArg (_ ++ ·) (List.map_id _)

theorem FormatState.Kept.probe {st : FormatState} (kept : st.Kept) : st.probe.1.Kept := by
  constructor
  · intro token member
    rcases List.mem_append.mp member with old | new
    · exact kept.known token old
    · obtain ⟨found, -, rfl⟩ := List.mem_map.mp new
      exact le_rfl
  · right
    rw [st.current_probe]
    change ∃ more, _ = st.fresh.1.outTokens ++ more ∧
      (more = [] → (formatProbe ⟨st.cFormat, []⟩).1.cFormat = st.fresh.1.cFormat) ∧
      (st.fresh.1.cFormat.getD 0 nul = nul → more = [])
    obtain ⟨nothing, untouched⟩ | ⟨more, tokens, untouched, cut⟩ := kept.scanned
    · rw [nothing, untouched]
      exact ⟨[], (List.append_nil _).symm, fun _ => rfl, fun _ => rfl⟩
    · refine ⟨more ++ (formatProbe ⟨st.cFormat, []⟩).1.outTokens, ?_, fun none => ?_,
        fun isCut => ?_⟩
      · rw [tokens, List.append_assoc]
      · obtain ⟨noMore, noNew⟩ := List.append_eq_nil_iff.mp none
        rw [(formatProbe_untouched noNew).1, untouched noMore]
      · have noMore := cut isCut
        rw [noMore, untouched noMore, formatProbe_cut isCut, List.append_nil]

/-- Every configuration keeps this, also one that fails. -/
theorem FormatState.Kept.step {st next : FormatState} {attrs : List Tv} (kept : st.Kept)
    (stepped : st.step attrs = some next) : next.Kept := by
  obtain ⟨result, configured, rfl⟩ := Option.map_eq_some_iff.mp stepped
  obtain ⟨parsed, options, rfl⟩ := Option.map_eq_some_iff.mp configured
  exact (kept.options options).probe

/-! ### The tokens after a successful scan -/

/-- The tokens are those of the format string set last, in order, and all refer to the buffer
that holds it. -/
def FormatState.TokensExact (st : FormatState) : Prop :=
  st.fresh = (⟨st.cFormat, st.outTokens.map Prod.snd⟩, none) ∧
    ∀ token ∈ st.outTokens, token.1 = st.buffer

/-- Such tokens say the format string as its grammar does. -/
theorem FormatState.TokensExact.items {st : FormatState} (exact : st.TokensExact) :
    formatItems st.formatString.chars =
      some (FormatModule.items ⟨st.cFormat, st.outTokens.map Prod.snd⟩) := by
  have scanned : formatProbe (FormatModule.fresh st.formatString) = _ := exact.1
  rw [formatProbe_items, scanned, if_pos rfl]

/-- Before the scan, there are no tokens; or they are all of the format string of the time, which
can be taken apart and begins with a placeholder or an escape sequence. -/
def FormatState.Ready (st : FormatState) : Prop :=
  st.outTokens = [] ∨ (∀ token ∈ st.outTokens, token.1 = st.buffer) ∧
    formatItems st.formatString.chars ≠ none ∧ ¬ OpensWithText st.formatString.chars

instance (st : FormatState) : Decidable st.Ready := inferInstanceAs (Decidable (_ ∨ _ ∧ _ ∧ _))

/-- Where all tokens refer to the buffer of the time, they are all current. -/
theorem FormatState.current_eq {st : FormatState}
    (buffers : ∀ token ∈ st.outTokens, token.1 = st.buffer) :
    st.current = st.outTokens.map Prod.snd := by
  unfold FormatState.current
  rw [List.filter_eq_self.mpr fun token member => decide_eq_true (buffers token member)]

/-- A format string can be taken apart just when its first scan ends well. -/
theorem FormatState.fresh_well_iff (st : FormatState) :
    st.fresh.2 = none ↔ formatItems st.formatString.chars ≠ none := by
  rw [formatProbe_items]
  change _ ↔ (if st.fresh.2 = none then _ else _) ≠ none
  by_cases well : st.fresh.2 = none
  · rw [if_pos well]
    exact iff_of_true well (Option.some_ne_none _)
  · rw [if_neg well]
    exact iff_of_false well fun other => other rfl

/-- As long as there are no tokens, the buffer holds the format string as it was given. -/
theorem FormatState.Kept.untouched {st : FormatState} (kept : st.Kept)
    (nothing : st.outTokens = []) : st.cFormat = st.formatString.memory := by
  obtain ⟨-, untouched⟩ | ⟨more, tokens, untouched, -⟩ := kept.scanned
  · exact untouched
  · have none : st.current = [] := by
      rw [FormatState.current, nothing, List.filter_nil, List.map_nil]
    obtain ⟨noFresh, noMore⟩ := List.append_eq_nil_iff.mp (tokens.symm.trans none)
    rw [untouched noMore]
    exact (formatProbe_untouched noFresh).1

/-- A scan that has found the tokens of the format string has all of them from the scan before,
or from itself. -/
theorem FormatState.tokensExact_probe_iff {st : FormatState} (kept : st.Kept)
    (succeeds : st.probe.2 = true) : st.probe.1.TokensExact ↔ st.Ready := by
  have well : (formatProbe ⟨st.cFormat, []⟩).2 = none := Option.isNone_iff_eq_none.mp succeeds
  constructor
  · rintro ⟨scanned, buffers⟩
    change st.fresh = _ at scanned
    by_cases nothing : st.outTokens = []
    · exact Or.inl nothing
    have old : ∀ token ∈ st.outTokens, token.1 = st.buffer := fun token member =>
      buffers token (List.mem_append_left _ member)
    have freshWell : st.fresh.2 = none := congrArg Prod.snd scanned
    have all : st.fresh.1.outTokens = st.current ++ (formatProbe ⟨st.cFormat, []⟩).1.outTokens := by
      rw [← st.current_probe, FormatState.current_eq buffers, scanned]
    refine Or.inr ⟨old, st.fresh_well_iff.mp freshWell, ?_⟩
    obtain ⟨none, -⟩ | ⟨more, tokens, untouched, -⟩ := kept.scanned
    · rw [FormatState.current_eq old] at none
      exact absurd (List.map_eq_nil_iff.mp none) nothing
    · rw [tokens, List.append_assoc, List.self_eq_append_right, List.append_eq_nil_iff] at all
      obtain ⟨noMore, noNew⟩ := all
      rw [← formatProbe_fresh_cut freshWell]
      change st.fresh.1.cFormat.getD 0 nul = nul
      rw [← untouched noMore]
      exact (formatProbe_untouched noNew).2 well
  · intro ready
    by_cases nothing : st.outTokens = []
    · have scan : formatProbe ⟨st.cFormat, []⟩ = st.fresh := by
        rw [kept.untouched nothing]
        rfl
      refine ⟨Prod.ext ?_ (scan ▸ well), fun token member => ?_⟩
      · change st.fresh.1 = _
        unfold FormatState.probe
        rw [nothing, scan]
        simp only [List.nil_append, List.map_map]
        exact congrArg (FormatModule.mk _) (List.map_id _).symm
      · obtain old | new := List.mem_append.mp member
        · rw [nothing] at old
          cases old
        · obtain ⟨found, -, rfl⟩ := List.mem_map.mp new
          rfl
    · obtain ⟨buffers, parsed, notText⟩ := ready.resolve_left nothing
      have freshWell := st.fresh_well_iff.mpr parsed
      obtain ⟨none, -⟩ | ⟨more, tokens, untouched, cut⟩ := kept.scanned
      · rw [FormatState.current_eq buffers] at none
        exact absurd (List.map_eq_nil_iff.mp none) nothing
      have isCut : st.fresh.1.cFormat.getD 0 nul = nul :=
        (formatProbe_fresh_cut freshWell).mpr notText
      obtain rfl := cut isCut
      have same : st.probe.1 = st := by
        have scan : formatProbe ⟨st.cFormat, []⟩ = (⟨st.cFormat, []⟩, none) := by
          rw [untouched rfl, formatProbe_cut isCut]
        unfold FormatState.probe
        simp only [scan, List.map_nil, List.append_nil]
      rw [same]
      refine ⟨Prod.ext ?_ freshWell, buffers⟩
      rw [← FormatState.current_eq buffers, tokens, List.append_nil, untouched rfl]

/-! ### Runs of configurations -/

/-- After the call, if it succeeds, the tokens are exact. -/
def ExactAfter (st : FormatState) (attrs : List Tv) : Prop :=
  ∀ next, formatConfigure st attrs = some (next, true) → next.TokensExact

/-- The options of the call leave the module ready for its scan, if that succeeds. -/
def ReadyFor (st : FormatState) (attrs : List Tv) : Prop :=
  ∀ parsed, attrs.foldlM formatParseOpt st = some parsed → parsed.probe.2 = true → parsed.Ready

/-- In every run of configurations, the tokens are exact after each that succeeds, just if each
of these starts its scan without tokens; or with tokens of the format string set last only, which
can be taken apart and begins with a placeholder or an escape sequence. -/
theorem formatConfigure_exact_iff (calls : List (List Tv)) :
    Runs.Every FormatState.step ExactAfter FormatState.start calls ↔
      Runs.Every FormatState.step ReadyFor FormatState.start calls := by
  refine Runs.every_congr FormatState.Kept (fun st attrs kept => ?_)
    (fun _ _ _ kept _ stepped => kept.step stepped) FormatState.kept_start calls
  constructor
  · intro exact parsed options succeeds
    have configured : formatConfigure st attrs = some (parsed.probe.1, true) := by
      rw [formatConfigure, options, ← succeeds]
      rfl
    exact (FormatState.tokensExact_probe_iff (kept.options options) succeeds).mp
      (exact _ configured)
  · intro ready next configured
    obtain ⟨parsed, options, probed⟩ := Option.map_eq_some_iff.mp configured
    have succeeds : parsed.probe.2 = true := congrArg Prod.snd probed
    have last : parsed.probe.1 = next := congrArg Prod.fst probed
    rw [← last]
    exact (FormatState.tokensExact_probe_iff (kept.options options) succeeds).mpr
      (ready parsed options succeeds)

/-- With two format strings given one after the other, the token of the first one stays, and
refers to the buffer that was freed for the second one. -/
theorem formatConfigure_twoFormats :
    ¬ ∀ calls, Runs.Every FormatState.step ExactAfter FormatState.start calls := by
  intro all
  have every := all [[⟨"fmt".toList, some ['a']⟩], [⟨"fmt".toList, some ['b']⟩]]
  have first : FormatState.start.step [⟨"fmt".toList, some ['a']⟩] =
      some ⟨⟨['a'], by decide⟩, 1, ['a', nul], [(1, ⟨.otString, 0⟩)]⟩ := by decide +kernel
  have exact := (every.2 _ first).1
    ⟨⟨['b'], by decide⟩, 2, ['b', nul], [(1, ⟨.otString, 0⟩), (2, ⟨.otString, 0⟩)]⟩
    (by decide +kernel)
  exact absurd (exact.2 (1, ⟨.otString, 0⟩) (by decide)) (by decide)

end Bmon
