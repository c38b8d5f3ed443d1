/-
This file models how `conf.c` takes apart the argument that selects modules:
`module[:option[=value];...],module...`.

The loops of the source cut the argument at every `,`, a module at its first `:`, the options
at every `;` and an option at its first `=`. A function that may call `quit` returns the text
it quits with as an error.
-/

import Bmon.CString

namespace Bmon

/-- The result of a function that may call `quit`. -/
abbrev Quits := Except String

/-- `tv_t`: an option of a module, with its value if it has one. -/
structure Tv where
  tvType : List Char
  tvValue : Option (List Char)
  deriving DecidableEq, Repr

/-- `module_conf_t`: the name of a module and its options. -/
structure ModuleConf where
  mName : List Char
  mAttrs : List Tv
  deriving DecidableEq, Repr

/-- What `strchr` makes of a string: the part before the first occurrence of a character, and
the part after it if there is one. -/
def strchr (c : Char) : List Char → List Char × Option (List Char)
  | [] => ([], none)
  | s :: str =>
    if s = c then ([], some str)
    else (s :: (strchr c str).1, (strchr c str).2)

/-- `parse_tv`. -/
def parseTv (data : List Char) : Tv where
  tvType := (strchr '=' data).1
  tvValue := (strchr '=' data).2

/-- `parse_module`. -/
def parseModule (data : List Char) : Quits ModuleConf :=
  if data = [] then
    .error "No module name given"
  else
    match strchr ':' data with
    | (name, none) => .ok ⟨name, []⟩
    | (name, some opts) => .ok ⟨name, (opts.splitOn ';').map parseTv⟩

/-- `parse_module_param`, with the list it appends to. -/
def parseModuleParam (data : List Char) : Quits (List ModuleConf) :=
  (data.splitOn ',').mapM parseModule

/-- A string without the character is all before it. -/
theorem strchr_of_not_mem {c : Char} {str : List Char} (absent : c ∉ str) :
    strchr c str = (str, none) := by
  induction str with
  | nil => rfl
  | cons s str inductionHypothesis =>
    obtain ⟨apart, rest⟩ : c ≠ s ∧ c ∉ str := by simpa using absent
    rw [strchr, if_neg (Ne.symm apart), inductionHypothesis rest]

/-- A name without separators is one module without options. -/
theorem parseModuleParam_plain {name : List Char} (given : name ≠ []) (noComma : ',' ∉ name)
    (noColon : ':' ∉ name) : parseModuleParam name = .ok [⟨name, []⟩] := by
  rw [parseModuleParam, List.splitOn_eq_singleton noComma, List.mapM_cons, List.mapM_nil,
    parseModule, if_neg given, strchr_of_not_mem noColon]
  rfl

/-! ### Printing a selection of modules -/

/-- An option as it is written: its type, and its value after `=` if it has one. -/
def Tv.print (tv : Tv) : List Char := tv.tvType ++ tv.tvValue.elim [] ('=' :: ·)

/-- A module as it is written: its name, and its options after `:` if it has any. -/
def ModuleConf.print (m : ModuleConf) : List Char :=
  if m.mAttrs = [] then m.mName
  else m.mName ++ ':' :: [';'].intercalate (m.mAttrs.map Tv.print)

/-- A selection of modules as it is written. -/
def printModules (confs : List ModuleConf) : List Char :=
  [','].intercalate (confs.map ModuleConf.print)

/-- No part of an option holds a separator that would end it. -/
structure Tv.Printable (tv : Tv) : Prop where
  type : ',' ∉ tv.tvType ∧ ';' ∉ tv.tvType ∧ '=' ∉ tv.tvType
  value : ∀ value ∈ tv.tvValue, ',' ∉ value ∧ ';' ∉ value

/-- No part of a module holds a separator that would end it, and something of it is written. -/
structure ModuleConf.Printable (m : ModuleConf) : Prop where
  name : ',' ∉ m.mName ∧ ':' ∉ m.mName
  attrs : ∀ tv ∈ m.mAttrs, tv.Printable
  written : m.mName = [] → m.mAttrs ≠ []

/-! ### What `strchr` cuts -/

/-- The two parts around the character make up the string. -/
theorem strchr_join (c : Char) (str : List Char) :
    (strchr c str).1 ++ (strchr c str).2.elim [] (c :: ·) = str := by
  induction str with
  | nil => rfl
  | cons s str inductionHypothesis =>
    by_cases same : s = c
    · simp [strchr, same]
    · rw [strchr, if_neg same, List.cons_append, inductionHypothesis]

/-- The first part does not hold the character. -/
theorem strchr_fst_not_mem (c : Char) (str : List Char) : c ∉ (strchr c str).1 := by
  induction str with
  | nil => exact List.not_mem_nil
  | cons s str inductionHypothesis =>
    by_cases same : s = c
    · simp [strchr, same]
    · rw [strchr, if_neg same, List.mem_cons, not_or]
      exact ⟨Ne.symm same, inductionHypothesis⟩

/-- Text before the first occurrence is cut off whole. -/
theorem strchr_append {c : Char} {first : List Char} (absent : c ∉ first) (rest : List Char) :
    strchr c (first ++ c :: rest) = (first, some rest) := by
  induction first with
  | nil => simp [strchr]
  | cons s first inductionHypothesis =>
    obtain ⟨apart, absent⟩ : c ≠ s ∧ c ∉ first := by simpa using absent
    rw [List.cons_append, strchr, if_neg (Ne.symm apart), inductionHypothesis absent]

/-- A character of a joined list comes from a part or from the separator. -/
theorem not_mem_intercalate {c : Char} {separator : List Char} {parts : List (List Char)}
    (apart : c ∉ separator) (absent : ∀ part ∈ parts, c ∉ part) :
    c ∉ separator.intercalate parts := by
  induction parts with
  | nil => simp
  | cons part parts inductionHypothesis =>
    have rest := inductionHypothesis fun part' member =>
      absent part' (List.mem_cons_of_mem _ member)
    have first := absent part List.mem_cons_self
    cases parts with
    | nil => simpa using first
    | cons next parts =>
      rw [List.intercalate_cons_cons]
      simp only [List.mem_append, not_or]
      exact ⟨⟨first, apart⟩, rest⟩

/-! ### Options -/

theorem parseTv_print {tv : Tv} (printable : tv.Printable) : parseTv tv.print = tv := by
  obtain ⟨tvType, tvValue⟩ := tv
  have plain : '=' ∉ tvType := printable.type.2.2
  unfold parseTv Tv.print
  cases tvValue with
  | none => simp only [Option.elim_none, List.append_nil, strchr_of_not_mem plain]
  | some value => simp only [Option.elim_some, strchr_append plain]

theorem print_parseTv (data : List Char) : (parseTv data).print = data :=
  strchr_join '=' data

theorem Tv.Printable.not_mem_print {tv : Tv} (printable : tv.Printable) :
    ',' ∉ tv.print ∧ ';' ∉ tv.print := by
  obtain ⟨tvType, tvValue⟩ := tv
  have type := printable.type
  have value := printable.value
  unfold Tv.print
  cases tvValue with
  | none => simpa using ⟨type.1, type.2.1⟩
  | some value' =>
    have inValue := value value' rfl
    simp only [Option.elim_some, List.mem_append, List.mem_cons, not_or]
    exact ⟨⟨type.1, by decide, inValue.1⟩, type.2.1, by decide, inValue.2⟩

/-! ### Modules -/

theorem parseModule_eq_error_iff (data : List Char) :
    (∃ text, parseModule data = .error text) ↔ data = [] := by
  unfold parseModule
  by_cases empty : data = []
  · simp [empty]
  · rw [if_neg empty]
    simp only [empty, iff_false, not_exists]
    intro text
    split <;> exact nofun

theorem print_parseModule {data : List Char} {m : ModuleConf}
    (parsed : parseModule data = .ok m) : m.print = data := by
  have joined := strchr_join ':' data
  unfold parseModule at parsed
  split at parsed
  · cases parsed
  · split at parsed
    · rename_i name found
      obtain rfl := Except.ok.inj parsed
      rw [found] at joined
      simpa [ModuleConf.print] using joined
    · rename_i name opts found
      obtain rfl := Except.ok.inj parsed
      rw [found] at joined
      have printed : (opts.splitOn ';').map (Tv.print ∘ parseTv) = opts.splitOn ';' :=
        List.map_id'' print_parseTv _
      rw [ModuleConf.print, if_neg (by simp), List.map_map, printed, List.intercalate_splitOn]
      exact joined

theorem ModuleConf.Printable.not_mem_print {m : ModuleConf} (printable : m.Printable) :
    ',' ∉ m.print := by
  unfold ModuleConf.print
  split
  · exact printable.name.1
  · simp only [List.mem_append, List.mem_cons, not_or]
    refine ⟨printable.name.1, by decide, not_mem_intercalate (by decide) ?_⟩
    intro option member
    obtain ⟨tv, inAttrs, rfl⟩ := List.mem_map.mp member
    exact (printable.attrs tv inAttrs).not_mem_print.1

theorem parseModule_print {m : ModuleConf} (printable : m.Printable) :
    parseModule m.print = .ok m := by
  obtain ⟨mName, mAttrs⟩ := m
  have plain : ':' ∉ mName := printable.name.2
  unfold parseModule ModuleConf.print
  by_cases none : mAttrs = []
  · subst none
    have named : mName ≠ [] := fun empty => printable.written empty rfl
    simp only [if_true, if_neg named, strchr_of_not_mem plain]
  · have separated : ∀ option ∈ mAttrs.map Tv.print, ';' ∉ option := by
      intro option member
      obtain ⟨tv, inAttrs, rfl⟩ := List.mem_map.mp member
      exact (printable.attrs tv inAttrs).not_mem_print.2
    have parsed : (mAttrs.map Tv.print).map parseTv = mAttrs := by
      rw [List.map_map, List.map_congr_left (g := id), List.map_id]
      exact fun tv inAttrs => parseTv_print (printable.attrs tv inAttrs)
    simp only [if_neg none]
    rw [if_neg (by simp), strchr_append plain]
    simp only [List.splitOn_intercalate ';' separated (by simpa using none), parsed]

/-! ### The whole argument -/

/-- The argument is rejected exactly if one of its modules is. -/
theorem mapM_parseModule_eq_error_iff (segments : List (List Char)) :
    (∃ text, segments.mapM parseModule = .error text) ↔ [] ∈ segments := by
  induction segments with
  | nil => simp [pure, Except.pure]
  | cons segment segments inductionHypothesis =>
    rw [List.mapM_cons, List.mem_cons, eq_comm, ← parseModule_eq_error_iff,
      ← inductionHypothesis]
    cases parseModule segment with
    | error text => simp [bind, Except.bind]
    | ok m => cases segments.mapM parseModule <;> simp [bind, Except.bind, pure, Except.pure]

theorem map_print_mapM_parseModule {segments : List (List Char)} {confs : List ModuleConf}
    (parsed : segments.mapM parseModule = .ok confs) :
    confs.map ModuleConf.print = segments := by
  induction segments generalizing confs with
  | nil =>
    obtain rfl := Except.ok.inj parsed
    rfl
  | cons segment segments inductionHypothesis =>
    rw [List.mapM_cons] at parsed
    cases first : parseModule segment with
    | error text => simp [first, bind, Except.bind] at parsed
    | ok m =>
      cases rest : segments.mapM parseModule with
      | error text => simp [first, rest, bind, Except.bind] at parsed
      | ok others =>
        obtain rfl : m :: others = confs := by
          simpa [first, rest, bind, Except.bind, pure, Except.pure] using parsed
        rw [List.map_cons, print_parseModule first, inductionHypothesis rest]

theorem mapM_parseModule_print {confs : List ModuleConf}
    (printable : ∀ m ∈ confs, m.Printable) :
    (confs.map ModuleConf.print).mapM parseModule = .ok confs := by
  induction confs with
  | nil => rfl
  | cons m confs inductionHypothesis =>
    rw [List.map_cons, List.mapM_cons, parseModule_print (printable m List.mem_cons_self),
      inductionHypothesis fun other member => printable other (List.mem_cons_of_mem _ member)]
    rfl

/-- Selections of modules survive being written and read back, in both directions: what is not
rejected is written back as it was, and what can be written is read back as it was. -/
theorem parseModuleParam_roundTrip :
    (∀ data : List Char,
      (∃ text, parseModuleParam data = .error text) ↔ [] ∈ data.splitOn ',') ∧
    (∀ (data : List Char) (confs : List ModuleConf),
      parseModuleParam data = .ok confs → printModules confs = data) ∧
    (∀ confs : List ModuleConf, confs ≠ [] → (∀ m ∈ confs, m.Printable) →
      parseModuleParam (printModules confs) = .ok confs) := by
  refine ⟨fun data => mapM_parseModule_eq_error_iff _, ?_, ?_⟩
  · intro data confs parsed
    rw [printModules, map_print_mapM_parseModule parsed, List.intercalate_splitOn]
  · intro confs given printable
    have separated : ∀ part ∈ confs.map ModuleConf.print, ',' ∉ part := by
      intro part member
      obtain ⟨m, inConfs, rfl⟩ := List.mem_map.mp member
      exact (printable m inConfs).not_mem_print
    rw [parseModuleParam, printModules,
      List.splitOn_intercalate ',' separated (by simpa using given)]
    exact mapM_parseModule_print printable

/-- A module with a missing, an empty and a plain value, and one without options. -/
theorem parseModuleParam_roundTrip_values :
    printModules [⟨['a'], [⟨['x'], none⟩, ⟨['y'], some []⟩, ⟨[], some ['=', ':']⟩]⟩, ⟨['b'], []⟩] =
        "a:x;y=;==:,b".toList ∧
      parseModuleParam (printModules
        [⟨['a'], [⟨['x'], none⟩, ⟨['y'], some []⟩, ⟨[], some ['=', ':']⟩]⟩, ⟨['b'], []⟩]) =
        .ok [⟨['a'], [⟨['x'], none⟩, ⟨['y'], some []⟩, ⟨[], some ['=', ':']⟩]⟩, ⟨['b'], []⟩] := by
  refine ⟨parseModuleParam_roundTrip.2.1 "a:x;y=;==:,b".toList _ (by rfl),
    parseModuleParam_roundTrip.2.2 _ (by simp) ?_⟩
  intro m member
  simp only [List.mem_cons, List.not_mem_nil, or_false] at member
  rcases member with rfl | rfl
  · refine ⟨by decide, ?_, by decide⟩
    intro tv inAttrs
    simp only [List.mem_cons, List.not_mem_nil, or_false] at inAttrs
    rcases inAttrs with rfl | rfl | rfl
    · exact ⟨by decide, by simp⟩
    · exact ⟨by decide, by simp⟩
    · exact ⟨by decide, by simp⟩
  · exact ⟨by decide, by simp, by decide⟩

end Bmon
