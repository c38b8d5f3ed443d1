/-
This file models how `conf.c` reads the `element` sections of the configuration files, and asks
whether a later file overrides what an earlier one says about showing an element.

The built-in configuration, the file of the system and the file of the user are read one after
another. All sections of a name go into one record. Its description and its maxima are
overwritten by a later section, but its flags are only ever set: a section that shows the
element sets one bit, a section that hides it another, and neither clears the other bit. So a
record has exactly one of them only if all sections of its name agree, and otherwise the
element is hidden, whichever section is the last.

The reference count that `element_cfg_alloc` maintains is left out. It is only read by
`element_cfg_free`, which nothing calls.
-/

import Bmon.StoreInvariant

namespace Bmon

/-! ### Reading the sections -/

/-- An `element` section of a configuration file, with the defaults of `element_opts`. -/
structure ElementSection where
  title : CString
  description : Option String := none
  show_ : Bool := true
  rxmax : Int64 := 0
  txmax : Int64 := 0
  max : Int64 := 0
  deriving DecidableEq

/-- `element_cfg_alloc`, with the position of the configuration. -/
def elementCfgAlloc (σ : Store) (name : CString) : Store × CfgPtr :=
  match elementCfgLookup σ name with
  | some c => (σ, c)
  | none => ({ σ with cfgList := σ.cfgList ++ [⟨name, none, 0, 0, {}⟩] }, σ.cfgList.length)

/-- What a section sets in the record of its name. -/
def ElementSection.apply (element : ElementSection) (ec : ElementCfg) : ElementCfg :=
  let ec := match element.description with
    | some description => { ec with ecDescription := some description }
    | none => ec
  let ec := if element.max ≠ 0 then
    { ec with ecRxmax := element.max.toUInt64, ecTxmax := element.max.toUInt64 } else ec
  let ec := if element.rxmax ≠ 0 then { ec with ecRxmax := element.rxmax.toUInt64 } else ec
  let ec := if element.txmax ≠ 0 then { ec with ecTxmax := element.txmax.toUInt64 } else ec
  if element.show_ then { ec with ecFlags := { ec.ecFlags with shown := true } }
  else { ec with ecFlags := { ec.ecFlags with hidden := true } }

/-- The body of the loop of `configfile_read_element_cfg`. -/
def readElementSection (σ : Store) (element : ElementSection) : Store :=
  let alloc := elementCfgAlloc σ element.title
  { alloc.1 with cfgList := alloc.1.cfgList.modify alloc.2 element.apply }

/-- `configfile_read_element_cfg`, with the `element` sections that the parser holds. -/
def configfileReadElementCfg (σ : Store) (elements : List ElementSection) : Store :=
  elements.foldl readElementSection σ

/-- The passes of a start over the configurations, one after the other. -/
def readElementPasses (σ : Store) (passes : List (List ElementSection)) : Store :=
  passes.foldl configfileReadElementCfg σ

theorem readElementPasses_eq (σ : Store) (passes : List (List ElementSection)) :
    readElementPasses σ passes = passes.flatten.foldl readElementSection σ := by
  unfold readElementPasses
  induction passes generalizing σ with
  | nil => rfl
  | cons elements passes inductionHypothesis =>
    rw [List.foldl_cons, inductionHypothesis, List.flatten_cons, List.foldl_append]
    rfl

/-! ### The record of a name -/

/-- The configuration that is found for a name. -/
def configOf (σ : Store) (name : CString) : Option ElementCfg :=
  (elementCfgLookup σ name).bind fun c => σ.cfgList[c]?

/-- A record as `element_cfg_alloc` makes it. -/
def newElementCfg (name : CString) : ElementCfg := ⟨name, none, 0, 0, {}⟩

@[simp] theorem ElementSection.apply_ecName (element : ElementSection) (ec : ElementCfg) :
    (element.apply ec).ecName = ec.ecName := by
  unfold apply
  cases element.description <;> simp only [apply_ite ElementCfg.ecName, ite_self]

@[simp] theorem ElementSection.apply_ecFlags (element : ElementSection) (ec : ElementCfg) :
    (element.apply ec).ecFlags =
      ⟨ec.ecFlags.shown || element.show_, ec.ecFlags.hidden || !element.show_⟩ := by
  unfold apply
  cases element.description <;> cases element.show_ <;>
    simp [apply_ite ElementCfg.ecFlags]

theorem configOf_eq_find? (σ : Store) (name : CString) :
    configOf σ name = σ.cfgList.find? fun ec => ec.ecName = name := by
  unfold configOf elementCfgLookup
  induction σ.cfgList with
  | nil => rfl
  | cons ec rest inductionHypothesis =>
    rw [List.findIdx?_cons, List.find?_cons]
    cases decide (ec.ecName = name) with
    | true => rfl
    | false =>
      rw [← inductionHypothesis]
      cases List.findIdx? (fun ec => decide (ec.ecName = name)) rest <;> rfl

/-- A section changes the record of its name, which it allocates if there is none, and no
other. -/
theorem configOf_readElementSection (σ : Store) (element : ElementSection) (name : CString) :
    configOf (readElementSection σ element) name =
      if element.title = name then
        some (element.apply ((configOf σ name).getD (newElementCfg name)))
      else configOf σ name := by
  unfold readElementSection elementCfgAlloc
  cases found : elementCfgLookup σ element.title with
  | some c =>
    obtain ⟨inside, named, earlier⟩ := List.findIdx?_eq_some_iff_getElem.mp found
    have named : σ.cfgList[c].ecName = element.title := of_decide_eq_true named
    have split : σ.cfgList = σ.cfgList.take c ++ σ.cfgList[c] :: σ.cfgList.drop (c + 1) := by
      rw [List.getElem_cons_drop, List.take_append_drop]
    have others : (σ.cfgList.take c).find? (fun ec => decide (ec.ecName = element.title)) =
        none := by
      rw [List.find?_eq_none]
      intro ec member same
      obtain ⟨i, bound, rfl⟩ := List.mem_take_iff_getElem.mp member
      exact earlier i (by omega) same
    rw [configOf_eq_find?, configOf_eq_find?]
    simp only [List.modify_eq_take_drop, List.drop_eq_getElem_cons inside, List.modifyHead_cons]
    by_cases same : element.title = name
    · subst same
      rw [if_pos rfl, List.find?_append, others, Option.none_or, List.find?_cons]
      conv_rhs => rw [split, List.find?_append, others, Option.none_or, List.find?_cons]
      simp [named]
    · rw [if_neg same, List.find?_append, List.find?_cons]
      conv_rhs => rw [split, List.find?_append, List.find?_cons]
      simp [named, same]
  | none =>
    have absent : configOf σ element.title = none := by
      unfold configOf
      rw [found, Option.bind_none]
    have appended : (σ.cfgList ++ [newElementCfg element.title]).modify σ.cfgList.length
        element.apply = σ.cfgList ++ [element.apply (newElementCfg element.title)] := by
      rw [List.modify_eq_take_drop, List.take_left, List.drop_left, List.modifyHead_cons]
    rw [configOf_eq_find?]
    simp only [show (⟨element.title, none, 0, 0, {}⟩ : ElementCfg) = newElementCfg element.title
      from rfl, appended]
    rw [List.find?_append, ← configOf_eq_find?]
    by_cases same : element.title = name
    · subst same
      rw [if_pos rfl, absent, Option.none_or]
      simp [newElementCfg]
    · rw [if_neg same]
      simp [newElementCfg, same]

/-! ### After all passes -/

/-- The sections of a name, in the order they are read. -/
def sectionsOf (elements : List ElementSection) (name : CString) : List ElementSection :=
  elements.filter fun element => element.title = name

/-- The record of a name goes through the sections of the name only. -/
theorem configOf_readElements (σ : Store) (elements : List ElementSection) (name : CString) :
    configOf (elements.foldl readElementSection σ) name =
      (sectionsOf elements name).foldl
        (fun found element => some (element.apply (found.getD (newElementCfg name))))
        (configOf σ name) := by
  unfold sectionsOf
  induction elements generalizing σ with
  | nil => rfl
  | cons element elements inductionHypothesis =>
    rw [List.foldl_cons, inductionHypothesis, configOf_readElementSection, List.filter_cons]
    by_cases same : element.title = name <;> simp [same]

/-- After all passes over an empty list the record of a name is what its sections make of a new
one. -/
theorem configOf_readElementPasses {σ : Store} (fresh : σ.cfgList = [])
    (passes : List (List ElementSection)) (name : CString)
    (given : sectionsOf passes.flatten name ≠ []) :
    configOf (readElementPasses σ passes) name =
      some ((sectionsOf passes.flatten name).foldl (fun ec element => element.apply ec)
        (newElementCfg name)) := by
  have known (sections : List ElementSection) (ec : ElementCfg) : sections.foldl
      (fun found element => some (element.apply (found.getD (newElementCfg name)))) (some ec) =
      some (sections.foldl (fun ec element => element.apply ec) ec) := by
    induction sections generalizing ec with
    | nil => rfl
    | cons element sections inductionHypothesis => exact inductionHypothesis (element.apply ec)
  have none : configOf σ name = none := by
    rw [configOf_eq_find?, fresh, List.find?_nil]
  rw [readElementPasses_eq, configOf_readElements, none]
  cases split : sectionsOf passes.flatten name with
  | nil => exact absurd split given
  | cons element sections => exact known sections (element.apply (newElementCfg name))

/-- The bits of a record are those any of its sections sets. -/
theorem ecFlags_foldl (sections : List ElementSection) (ec : ElementCfg) :
    (sections.foldl (fun ec element => element.apply ec) ec).ecFlags =
      ⟨ec.ecFlags.shown || sections.any ElementSection.show_,
        ec.ecFlags.hidden || sections.any fun element => !element.show_⟩ := by
  induction sections generalizing ec with
  | nil => simp
  | cons element sections inductionHypothesis =>
    rw [List.foldl_cons, inductionHypothesis, ElementSection.apply_ecFlags]
    simp [Bool.or_assoc]

/-- A hidden element is not allowed, and a shown one is if it is not hidden too. -/
theorem elementAllowed_flags (σ : Store) (name : CString) {ec : ElementCfg}
    (configured : ec.ecFlags.shown = true ∨ ec.ecFlags.hidden = true) :
    elementAllowed σ name (some ec) = !ec.ecFlags.hidden := by
  unfold elementAllowed
  cases hides : ec.ecFlags.hidden with
  | true => simp [hides]
  | false =>
    rw [hides] at configured
    simp [hides, configured.resolve_right Bool.false_ne_true]

/-- After any passes over the configurations the record of a name shows or hides its element as
the last section of the name says, with exactly the one bit set and `element_allowed` following
it, if and only if all sections of the name say the same. -/
theorem elementPasses_override_iff (σ : Store) (fresh : σ.cfgList = [])
    (passes : List (List ElementSection)) (name : CString) (last : ElementSection)
    (isLast : (sectionsOf passes.flatten name).getLast? = some last) :
    ∃ ec, configOf (readElementPasses σ passes) name = some ec ∧
      ((ec.ecFlags = { shown := last.show_, hidden := !last.show_ } ∧
          elementAllowed (readElementPasses σ passes) name (some ec) = last.show_) ↔
        ∀ element ∈ sectionsOf passes.flatten name, element.show_ = last.show_) := by
  have member : last ∈ sectionsOf passes.flatten name := List.mem_of_getLast? isLast
  have found := configOf_readElementPasses fresh passes name (List.ne_nil_of_mem member)
  refine ⟨_, found, ?_⟩
  have flags := ecFlags_foldl (sectionsOf passes.flatten name) (newElementCfg name)
  simp only [newElementCfg, Bool.false_or] at flags
  rw [← newElementCfg] at flags
  have configured : ((sectionsOf passes.flatten name).any ElementSection.show_) = true ∨
      ((sectionsOf passes.flatten name).any fun element => !element.show_) = true := by
    cases shown : last.show_ with
    | true => exact Or.inl (List.any_eq_true.mpr ⟨last, member, shown⟩)
    | false => exact Or.inr (List.any_eq_true.mpr ⟨last, member, by rw [shown]; rfl⟩)
  rw [elementAllowed_flags _ _ (by rw [flags]; exact configured), flags]
  constructor
  · rintro ⟨bits, -⟩ element given
    obtain ⟨shown, hidden⟩ := CfgFlags.mk.inj bits
    cases shows_ : element.show_ with
    | true =>
      rw [← shown, eq_comm, List.any_eq_true]
      exact ⟨element, given, shows_⟩
    | false =>
      have other : (!last.show_) = true := by
        rw [← hidden, List.any_eq_true]
        exact ⟨element, given, by rw [shows_]; rfl⟩
      rw [Bool.not_eq_true'] at other
      exact other.symm
  · intro agree
    have shown : (sectionsOf passes.flatten name).any ElementSection.show_ = last.show_ := by
      rw [Bool.eq_iff_iff, List.any_eq_true]
      exact ⟨fun ⟨element, given, shows_⟩ => agree element given ▸ shows_,
        fun shows_ => ⟨last, member, shows_⟩⟩
    have hidden : (sectionsOf passes.flatten name).any (fun element => !element.show_) =
        !last.show_ := by
      rw [Bool.eq_iff_iff, List.any_eq_true]
      exact ⟨fun ⟨element, given, hides⟩ => agree element given ▸ hides,
        fun hides => ⟨last, member, hides⟩⟩
    rw [shown, hidden, Bool.not_not]
    exact ⟨rfl, rfl⟩

/-- The name of an interface. -/
def ethernet : CString := CString.ofMemory "eth0".toList

/-- The file of the system hides the interface, and that of the user shows or hides it. -/
def hiddenThen (show_ : Bool) : List (List ElementSection) :=
  [[], [{ title := ethernet, show_ := false }], [{ title := ethernet, show_ := show_ }]]

/-- Two files that both hide the interface. -/
theorem elementPasses_override_iff_agree :
    ∃ ec, configOf (readElementPasses (Store.start [] [] [] []) (hiddenThen false)) ethernet =
        some ec ∧ ec.ecFlags = { shown := false, hidden := true } := by
  obtain ⟨ec, found, agreed⟩ := elementPasses_override_iff (Store.start [] [] [] []) rfl
    (hiddenThen false) ethernet { title := ethernet, show_ := false } (by decide)
  exact ⟨ec, found, (agreed.mpr (by decide)).1⟩

/-- The file of the system hides the interface and the file of the user shows it: both bits are
set, and the interface stays hidden. -/
theorem element_stays_hidden :
    (configOf (readElementPasses (Store.start [] [] [] []) (hiddenThen true)) ethernet).map
        ElementCfg.ecFlags = some { shown := true, hidden := true } ∧
      elementAllowed (Store.start [] [] [] []) ethernet
        (configOf (readElementPasses (Store.start [] [] [] []) (hiddenThen true)) ethernet) =
        false ∧
      ¬ ∀ (σ : Store), σ.cfgList = [] → ∀ (passes : List (List ElementSection))
        (name : CString) (last : ElementSection),
        (sectionsOf passes.flatten name).getLast? = some last →
        ∃ ec, configOf (readElementPasses σ passes) name = some ec ∧
          ec.ecFlags = { shown := last.show_, hidden := !last.show_ } ∧
          elementAllowed (readElementPasses σ passes) name (some ec) = last.show_ := by
  have flags : (configOf (readElementPasses (Store.start [] [] [] []) (hiddenThen true))
      ethernet).map ElementCfg.ecFlags = some { shown := true, hidden := true } := by
    decide +kernel
  refine ⟨flags, by decide +kernel, fun always => ?_⟩
  obtain ⟨ec, found, follows, -⟩ := always (Store.start [] [] [] []) rfl (hiddenThen true)
    ethernet { title := ethernet, show_ := true } (by decide)
  rw [found, Option.map_some, follows] at flags
  exact absurd flags (by decide)

end Bmon
