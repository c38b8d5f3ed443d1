/-
This file asks in which order the attributes of an element are displayed.

`attr_update` keeps the sorted list by insertion: a new attribute goes before the first one it
compares below. `attrcmp` looks for the key attributes only among those that are in the list
already. So nothing is ever put before a major key attribute that stands in front, but a key
attribute that arrives late is put where its description belongs. The list is an instance of
the lists of `KeyedOrder`, with the descriptions in lower case as ranks.
-/

import Bmon.AttrIndex
import Bmon.Lib.KeyedOrder
import Mathlib.Data.Char
import Mathlib.Data.List.Lex

namespace Bmon

/-! ### Comparing descriptions -/

/-- The description of an attribute in lower case. -/
def AttrDef.rank (definition : AttrDef) : List Char :=
  definition.adDescription.toList.map tolower

/-- The description is a string of C. -/
def AttrDef.IsString (definition : AttrDef) : Prop := nul ∉ definition.adDescription.toList

instance (definition : AttrDef) : Decidable definition.IsString :=
  inferInstanceAs (Decidable (_ ∉ _))

theorem toNat_tolower_pos {c : Char} (notNul : c ≠ nul) : 0 < (tolower c).toNat := by
  refine Nat.pos_of_ne_zero fun zero => notNul ((tolower_eq_nul_iff c).mp ?_)
  exact Char.ext (UInt32.toNat_inj.mp zero)

/-- `strcasecmp` is the lexicographic order of the strings in lower case. -/
theorem strcasecmp_neg_iff {a b : List Char} (first : nul ∉ a) (second : nul ∉ b) :
    strcasecmp a b < 0 ↔ a.map tolower < b.map tolower := by
  induction a generalizing b with
  | nil =>
    cases b with
    | nil => simp [strcasecmp]
    | cons y ys =>
      have notNul := toNat_tolower_pos (List.ne_of_not_mem_cons second).symm
      simp only [strcasecmp, List.map_nil, List.map_cons, List.nil_lt_cons, iff_true]
      omega
  | cons x xs inductionHypothesis =>
    cases b with
    | nil =>
      simp only [strcasecmp, List.map_nil, List.map_cons, List.not_lt_nil, iff_false, not_lt]
      omega
    | cons y ys =>
      have rest := inductionHypothesis (List.not_mem_of_not_mem_cons first)
        (List.not_mem_of_not_mem_cons second)
      rw [strcasecmp, List.map_cons, List.map_cons, List.cons_lt_cons_iff]
      by_cases same : tolower x = tolower y
      · rw [if_pos same, rest]
        simp [same]
      · rw [if_neg same, or_iff_left fun both => same both.1]
        have smaller : tolower x < tolower y ↔ (tolower x).toNat < (tolower y).toNat :=
          UInt32.lt_iff_toNat_lt
        rw [smaller]
        omega

/-- The other way round it has the other sign. -/
theorem strcasecmp_swap (a b : List Char) : strcasecmp a b = -strcasecmp b a := by
  induction a generalizing b with
  | nil => cases b <;> simp [strcasecmp]
  | cons x xs inductionHypothesis =>
    cases b with
    | nil => simp [strcasecmp]
    | cons y ys =>
      unfold strcasecmp
      by_cases same : tolower x = tolower y
      · rw [if_pos same, if_pos same.symm, inductionHypothesis]
      · rw [if_neg same, if_neg (Ne.symm same)]
        omega

theorem rank_lt_iff {first second : AttrDef} (firstString : first.IsString)
    (secondString : second.IsString) :
    first.rank < second.rank ↔
      strcasecmp first.adDescription.toList second.adDescription.toList < 0 :=
  (strcasecmp_neg_iff firstString secondString).symm

theorem rank_le_iff {first second : AttrDef} (firstString : first.IsString)
    (secondString : second.IsString) :
    first.rank ≤ second.rank ↔
      strcasecmp first.adDescription.toList second.adDescription.toList ≤ 0 := by
  rw [← not_lt, rank_lt_iff secondString firstString, strcasecmp_swap]
  omega

/-- Two descriptions compare as equal exactly if they are the same in lower case. -/
theorem rank_eq_iff {first second : AttrDef} (firstString : first.IsString)
    (secondString : second.IsString) :
    first.rank = second.rank ↔
      strcasecmp first.adDescription.toList second.adDescription.toList = 0 := by
  rw [le_antisymm_iff, rank_le_iff firstString secondString, rank_le_iff secondString firstString,
    strcasecmp_swap second.adDescription.toList]
  omega

/-! ### The sorted list of a table -/

/-- The definitions of the attributes in the order they are displayed. -/
def AttrTable.displayed (t : AttrTable) : List AttrDef :=
  t.eAttrSorted.filterMap fun p => t.seen[p]?

/-- The key attributes of an element are set. -/
structure AttrTable.HasKeys (t : AttrTable) (major minor : AttrDef) : Prop where
  major : t.eKeyAttr .major = some major
  minor : t.eKeyAttr .minor = some minor

/-- `attrcmp` is negative where the new attribute comes before the old one. -/
theorem attrcmp_neg_iff {t : AttrTable} {major minor : AttrDef} (keys : t.HasKeys major minor)
    {a b : Attr} (first : a.aDef.IsString) (second : b.aDef.IsString) :
    attrcmp t a b < 0 ↔
      KeyedOrder.Before major minor AttrDef.rank a.aDef b.aDef := by
  unfold attrcmp KeyedOrder.Before
  simp only [keys.major, keys.minor, Option.some.injEq]
  by_cases isMajor : b.aDef = major
  · rw [if_pos isMajor.symm, if_pos isMajor]
    exact iff_of_false (by decide) id
  rw [if_neg (Ne.symm isMajor), if_neg isMajor]
  by_cases isMinor : b.aDef = minor
  · rw [if_pos isMinor.symm, if_pos isMinor]
    by_cases newMajor : a.aDef = major
    · rw [if_pos newMajor.symm]
      exact iff_of_true (by decide) newMajor
    · rw [if_neg (Ne.symm newMajor)]
      exact iff_of_false (by decide) newMajor
  · rw [if_neg (Ne.symm isMinor), if_neg isMinor, rank_lt_iff first second]

/-- Linking a new attribute in inserts its definition. -/
theorem attrSortedInsert_displayed {t : AttrTable} {major minor : AttrDef}
    (keys : t.HasKeys major minor) (strings : ∀ definition ∈ t.seen, definition.IsString)
    {attr : Attr} (isString : attr.aDef.IsString) {sorted : List AttrPtr}
    (bound : ∀ p ∈ sorted, p < t.seen.length) :
    (attrSortedInsert t attr t.seen.length sorted).filterMap
        (fun p => (t.seen ++ [attr.aDef])[p]?) =
      KeyedOrder.insert major minor AttrDef.rank attr.aDef
        (sorted.filterMap fun p => t.seen[p]?) := by
  have appended : (t.seen ++ [attr.aDef])[t.seen.length]? = some attr.aDef :=
    List.getElem?_concat_length
  have older : ∀ {entries : List AttrPtr}, (∀ p ∈ entries, p < t.seen.length) →
      entries.filterMap (fun p => (t.seen ++ [attr.aDef])[p]?) =
        entries.filterMap fun p => t.seen[p]? := by
    intro entries inside
    exact List.filterMap_congr fun p member => List.getElem?_append_left (inside p member)
  induction sorted with
  | nil =>
    rw [attrSortedInsert, List.filterMap_cons_some appended]
    rfl
  | cons n rest inductionHypothesis =>
    have inside : n < t.attrs.length := by
      have := bound n List.mem_cons_self
      rwa [AttrTable.seen, List.length_map] at this
    have found : t.attrs[n]? = some t.attrs[n] := List.getElem?_eq_getElem inside
    have defined : t.seen[n]? = some t.attrs[n].aDef := by
      rw [AttrTable.seen, List.getElem?_map, found, Option.map_some]
    have compared := attrcmp_neg_iff keys isString
      (strings t.attrs[n].aDef (List.mem_of_getElem? defined))
    rw [attrSortedInsert, found, Option.any_some, List.filterMap_cons_some defined,
      KeyedOrder.insert]
    by_cases before : attrcmp t attr t.attrs[n] < 0
    · rw [if_pos (decide_eq_true before), if_pos (compared.mp before),
        List.filterMap_cons_some appended, older bound, List.filterMap_cons_some defined]
    · rw [if_neg (by simpa using before), if_neg fun holds => before (compared.mpr holds),
        List.filterMap_cons_some
          ((List.getElem?_append_left (bound n List.mem_cons_self)).trans defined),
        inductionHypothesis fun p member => bound p (List.mem_cons_of_mem _ member)]

/-! ### Runs -/

/-- The table shows its attributes as they arrived. -/
structure AttrTable.Shows (t : AttrTable) (major minor : AttrDef) : Prop where
  keys : t.HasKeys major minor
  filled : t.Filled
  strings : ∀ definition ∈ t.seen, definition.IsString
  displayed : t.displayed = KeyedOrder.arrange major minor AttrDef.rank t.seen

theorem AttrTable.Shows.modifyAttr {t : AttrTable} {major minor : AttrDef}
    (shows_ : t.Shows major minor) (p : AttrPtr) {change : Attr → Attr}
    (keeps : ∀ a, (change a).aDef = a.aDef) : (t.modifyAttr p change).Shows major minor where
  keys := ⟨shows_.keys.major, shows_.keys.minor⟩
  filled := shows_.filled.modifyAttr p keeps
  strings := by
    rw [seen_modifyAttr t p keeps]
    exact shows_.strings
  displayed := by
    unfold AttrTable.displayed
    rw [seen_modifyAttr t p keeps]
    exact shows_.displayed

theorem AttrTable.Shows.attrTrack {t : AttrTable} {major minor : AttrDef}
    (shows_ : t.Shows major minor) (cfg : Config) (historyDefs : List HistoryDef)
    {definition : AttrDef} (untracked : attrLookup t definition.adId = none)
    (isString : definition.IsString) :
    (attrTrack cfg historyDefs t definition).Shows major minor where
  keys := ⟨shows_.keys.major, shows_.keys.minor⟩
  filled := shows_.filled.attrTrack cfg historyDefs untracked
  strings := by
    intro other member
    rw [seen_attrTrack, List.mem_append, List.mem_singleton] at member
    rcases member with old | rfl
    · exact shows_.strings other old
    · exact isString
  displayed := by
    have sameDef : (attrNew cfg historyDefs t definition).aDef = definition :=
      (attrNew_fields cfg historyDefs t definition).2.1
    have length : t.attrs.length = t.seen.length := (List.length_map _).symm
    have bound : ∀ p ∈ t.eAttrSorted, p < t.seen.length := by
      intro p member
      have inRange := List.mem_range.mp (shows_.filled.sorted.mem_iff.mp member)
      rwa [ids_eq_seen, List.length_map] at inRange
    have newString : (attrNew cfg historyDefs t definition).aDef.IsString := by rwa [sameDef]
    have inserted := attrSortedInsert_displayed shows_.keys shows_.strings newString bound
    rw [sameDef] at inserted
    rw [AttrTable.displayed, seen_attrTrack, KeyedOrder.arrange_concat, ← shows_.displayed]
    exact (congrArg _ (by rw [← length]; rfl)).trans inserted

theorem AttrTable.Shows.attrUpdate {t : AttrTable} {major minor : AttrDef}
    (shows_ : t.Shows major minor) (cfg : Config) {attrDefs : List AttrDef}
    (strings : ∀ definition ∈ attrDefs, definition.IsString) (historyDefs : List HistoryDef)
    (id : Nat) (rx tx : UInt64) (flags : UpdateFlags) (now : Timestamp) :
    (attrUpdate cfg attrDefs historyDefs t id rx tx flags now).Shows major minor := by
  have keeps (a : Attr) : (attrStore a rx tx flags now).aDef = a.aDef :=
    attrStore_aDef a rx tx flags now
  unfold Bmon.attrUpdate
  cases tracked : attrLookup t id with
  | some p => exact shows_.modifyAttr p keeps
  | none =>
    cases known : attrDefLookupId attrDefs id with
    | none => exact shows_
    | some definition =>
      have isString := strings definition (List.mem_of_find?_eq_some known)
      obtain rfl := attrDefLookupId_adId known
      exact (shows_.attrTrack cfg historyDefs tracked isString).modifyAttr _ keeps

/-- An attribute is defined with a string of C as its description. -/
def AttrCall.HasString : AttrCall → Prop
  | .attrDefAdd _ description _ _ => nul ∉ description.toList
  | _ => True

instance decidableHasString : (call : AttrCall) → Decidable call.HasString
  | .attrDefAdd _ description _ _ => inferInstanceAs (Decidable (nul ∉ description.toList))
  | .attrUpdate .. => isTrue trivial
  | .attrStartCollectingHistory .. => isTrue trivial

/-- One call keeps the table showing its attributes as they arrived. -/
theorem AttrTable.Shows.step {run : AttrRun} {major minor : AttrDef}
    (shows_ : run.table.Shows major minor) (cfg : Config)
    (strings : ∀ definition ∈ run.attrDefs, definition.IsString) {call : AttrCall}
    (hasString : call.HasString) :
    (run.step cfg call).table.Shows major minor ∧
      ∀ definition ∈ (run.step cfg call).attrDefs, definition.IsString := by
  cases call with
  | attrDefAdd name description type flags =>
    refine ⟨shows_, ?_⟩
    show ∀ definition ∈ (attrDefAdd run.attrDefs run.attrIdGen name description type flags).1, _
    rcases attrDefAdd_cases run.attrDefs run.attrIdGen name description type flags with
      same | added
    · rw [same]
      exact strings
    · rw [added]
      intro definition member
      rcases List.mem_append.mp member with old | new
      · exact strings definition old
      · rw [List.mem_singleton.mp new]
        exact hasString
  | attrUpdate historyDefs id rx tx flags now =>
    exact ⟨shows_.attrUpdate cfg strings historyDefs id rx tx flags now, strings⟩
  | attrStartCollectingHistory historyDefs p =>
    exact ⟨shows_.modifyAttr p (attrStartCollectingHistory_aDef cfg historyDefs), strings⟩

theorem AttrTable.Shows.calls {run : AttrRun} {major minor : AttrDef}
    (shows_ : run.table.Shows major minor) (cfg : Config)
    (strings : ∀ definition ∈ run.attrDefs, definition.IsString) {sequence : List AttrCall}
    (hasString : ∀ call ∈ sequence, call.HasString) :
    (run.calls cfg sequence).table.Shows major minor := by
  induction sequence generalizing run with
  | nil => exact shows_
  | cons call rest inductionHypothesis =>
    obtain ⟨next, nextStrings⟩ :=
      shows_.step cfg strings (hasString call List.mem_cons_self)
    exact inductionHypothesis next nextStrings
      fun other member => hasString other (List.mem_cons_of_mem _ member)

theorem shows_start {eKeyAttr : GroupColumn → Option AttrDef} (eUsageAttr : Option AttrDef)
    {major minor : AttrDef} (isMajor : eKeyAttr .major = some major)
    (isMinor : eKeyAttr .minor = some minor) :
    (AttrRun.start eKeyAttr eUsageAttr).table.Shows major minor where
  keys := ⟨isMajor, isMinor⟩
  filled := (invariant_start (confInitPost {}) eKeyAttr eUsageAttr).filled
  strings _ member := absurd member List.not_mem_nil
  displayed := rfl

/-! ### The order of display -/

/-- The major key attribute is first and the minor one second, if they are there, and the
others ascend by their descriptions, upper and lower case alike. -/
structure DisplayOrder (major minor : AttrDef) (displayed : List AttrDef) : Prop where
  keysFirst : displayed = (if major ∈ displayed then [major] else []) ++
    (if minor ∈ displayed ∧ minor ≠ major then [minor] else []) ++
      displayed.filter fun definition => definition ≠ major ∧ definition ≠ minor
  alphabet : (displayed.filter fun definition =>
    definition ≠ major ∧ definition ≠ minor).Pairwise fun first second =>
      strcasecmp first.adDescription.toList second.adDescription.toList ≤ 0

/-- The key attributes arrive in time: the major one when the minor one has arrived or only
attributes with greater descriptions have, and the minor one when, apart from the major one,
only attributes with greater descriptions have. -/
structure KeysInTime (major minor : AttrDef) (seen : List AttrDef) : Prop where
  ofMajor : ∀ before after, seen = before ++ major :: after →
    minor ∈ before ∨ ∀ definition ∈ before,
      strcasecmp major.adDescription.toList definition.adDescription.toList < 0
  ofMinor : ∀ before after, seen = before ++ minor :: after →
    minor = major ∨ ∀ definition ∈ before, definition = major ∨
      strcasecmp minor.adDescription.toList definition.adDescription.toList < 0

theorem displayOrder_iff_arranged {major minor : AttrDef} {displayed : List AttrDef}
    (strings : ∀ definition ∈ displayed, definition.IsString) :
    DisplayOrder major minor displayed ↔
      KeyedOrder.Arranged major minor AttrDef.rank displayed := by
  have ascending : (KeyedOrder.others major minor displayed).Pairwise (fun first second =>
      strcasecmp first.adDescription.toList second.adDescription.toList ≤ 0) ↔
      (KeyedOrder.others major minor displayed).Pairwise fun first second =>
        first.rank ≤ second.rank := by
    refine List.Pairwise.iff_of_mem fun {first second} inFirst inSecond => ?_
    exact (rank_le_iff (strings first (List.mem_of_mem_filter inFirst))
      (strings second (List.mem_of_mem_filter inSecond))).symm
  exact ⟨fun order => ⟨order.keysFirst, ascending.mp order.alphabet⟩,
    fun arranged => ⟨arranged.front, ascending.mpr arranged.ascending⟩⟩

theorem keysInTime_iff_inTime {major minor : AttrDef} {seen : List AttrDef}
    (strings : ∀ definition ∈ seen, definition.IsString) :
    KeysInTime major minor seen ↔ KeyedOrder.InTime major minor AttrDef.rank seen := by
  have below : ∀ {before key after}, seen = before ++ key :: after → ∀ definition ∈ before,
      (strcasecmp key.adDescription.toList definition.adDescription.toList < 0 ↔
        key.rank < definition.rank) := by
    rintro before key after rfl definition member
    exact (rank_lt_iff (strings key (by simp)) (strings definition (by simp [member]))).symm
  constructor
  · rintro ⟨ofMajor, ofMinor⟩
    refine ⟨fun before after split => (ofMajor before after split).imp_right ?_,
      fun before after split => (ofMinor before after split).imp_right ?_⟩
    · exact fun less definition member => (below split definition member).mp
        (less definition member)
    · exact fun less definition member => (less definition member).imp_right
        (below split definition member).mp
  · rintro ⟨ofMajor, ofMinor⟩
    refine ⟨fun before after split => (ofMajor before after split).imp_right ?_,
      fun before after split => (ofMinor before after split).imp_right ?_⟩
    · exact fun less definition member => (below split definition member).mpr
        (less definition member)
    · exact fun less definition member => (less definition member).imp_right
        (below split definition member).mpr

theorem AttrTable.Shows.displayed_perm {t : AttrTable} {major minor : AttrDef}
    (shows_ : t.Shows major minor) : t.displayed.Perm t.seen := by
  rw [shows_.displayed]
  exact KeyedOrder.arrange_perm major minor AttrDef.rank t.seen

/-- The order of display is that of a table whose key attributes arrived in time. -/
theorem AttrTable.Shows.displayOrder_iff {t : AttrTable} {major minor : AttrDef}
    (shows_ : t.Shows major minor) :
    DisplayOrder major minor t.displayed ↔ KeysInTime major minor t.seen := by
  have distinct : t.seen.Nodup := by
    have ids := shows_.filled.nodup
    rw [ids_eq_seen] at ids
    exact ids.of_map
  rw [keysInTime_iff_inTime shows_.strings, displayOrder_iff_arranged fun definition member =>
    shows_.strings definition (shows_.displayed_perm.mem_iff.mp member), shows_.displayed]
  exact KeyedOrder.arranged_arrange_iff major minor AttrDef.rank distinct

/-- The attributes of an element with key attributes are displayed in order exactly if the key
attributes arrived in time; and two orders of arrival in which they did end with the same list
if no two descriptions are equal. -/
theorem displayOrder_iff_keysInTime (cfg : Config) {eKeyAttr : GroupColumn → Option AttrDef}
    (eUsageAttr : Option AttrDef) {major minor : AttrDef}
    (isMajor : eKeyAttr .major = some major) (isMinor : eKeyAttr .minor = some minor)
    (sequence : List AttrCall) (strings : ∀ call ∈ sequence, call.HasString) (run : AttrRun)
    (ran : (AttrRun.start eKeyAttr eUsageAttr).calls cfg sequence = run) :
    (DisplayOrder major minor run.table.displayed ↔ KeysInTime major minor run.table.seen) ∧
    ∀ sequence' run', (∀ call ∈ sequence', AttrCall.HasString call) →
      (AttrRun.start eKeyAttr eUsageAttr).calls cfg sequence' = run' →
      run.table.seen.Perm run'.table.seen →
      (∀ first ∈ run.table.seen, ∀ second ∈ run.table.seen, first ≠ second →
        strcasecmp first.adDescription.toList second.adDescription.toList ≠ 0) →
      KeysInTime major minor run.table.seen → KeysInTime major minor run'.table.seen →
        run.table.displayed = run'.table.displayed := by
  subst ran
  have shows_ := (shows_start eUsageAttr isMajor isMinor).calls cfg
    (fun definition member => absurd member List.not_mem_nil) strings
  refine ⟨shows_.displayOrder_iff, ?_⟩
  rintro sequence' run' strings' rfl same apart inTime inTime'
  have shows' := (shows_start eUsageAttr isMajor isMinor).calls cfg
    (fun definition member => absurd member List.not_mem_nil) strings'
  have arranged := (displayOrder_iff_arranged fun definition member =>
    shows_.strings definition (shows_.displayed_perm.mem_iff.mp member)).mp
      (shows_.displayOrder_iff.mpr inTime)
  have arranged' := (displayOrder_iff_arranged fun definition member =>
    shows'.strings definition (shows'.displayed_perm.mem_iff.mp member)).mp
      (shows'.displayOrder_iff.mpr inTime')
  refine arranged.eq_of_perm major minor AttrDef.rank arranged'
    ((shows_.displayed_perm.trans same).trans shows'.displayed_perm.symm) ?_
  intro first inFirst second inSecond equal
  have firstSeen := shows_.displayed_perm.mem_iff.mp inFirst
  have secondSeen := shows_.displayed_perm.mem_iff.mp inSecond
  by_contra different
  exact apart first firstSeen second secondSeen different
    ((rank_eq_iff (shows_.strings first firstSeen) (shows_.strings second secondSeen)).mp equal)

/-- Bytes and packets as the keys of an element, as the input modules choose them. -/
def linkKeys : GroupColumn → Option AttrDef
  | .major => some bytesDef
  | .minor => some packetsDef

/-- An attribute whose description comes before those of the keys. -/
def abortDef : AttrDef := ⟨3, "aborterr", "Abort Error", .counter, {}⟩

/-- The three attributes are defined, and updated in some order. -/
def updatedIn (ids : List Nat) : List AttrCall :=
  [.attrDefAdd "bytes" "Bytes" .counter {}, .attrDefAdd "packets" "Packets" .counter {},
    .attrDefAdd "aborterr" "Abort Error" .counter {}] ++
    ids.map fun id => .attrUpdate [] id 1 1 { rx := true } Timestamp.zero

/-- With the keys first, the attributes are displayed in order. -/
theorem displayOrder_iff_keysInTime_keysFirst :
    DisplayOrder bytesDef packetsDef [bytesDef, packetsDef, abortDef] := by
  have run := (@displayOrder_iff_keysInTime (confInitPost {}) linkKeys none _ _ rfl rfl
    (updatedIn [2, 1, 3]) (by decide) _ rfl).1
  have displayed : ((AttrRun.start linkKeys none).calls (confInitPost {})
      (updatedIn [2, 1, 3])).table.displayed = [bytesDef, packetsDef, abortDef] := by
    decide +kernel
  have seen : ((AttrRun.start linkKeys none).calls (confInitPost {})
      (updatedIn [2, 1, 3])).table.seen = [packetsDef, bytesDef, abortDef] := by
    decide +kernel
  rw [displayed, seen] at run
  refine run.mpr ⟨fun before after split => ?_, fun before after split => ?_⟩
  · rcases before with - | ⟨first, - | ⟨second, - | ⟨third, rest⟩⟩⟩ <;>
      simp [bytesDef, packetsDef, abortDef] at split
    exact Or.inl (by rw [← split.1]; exact List.mem_cons_self)
  · rcases before with - | ⟨first, - | ⟨second, - | ⟨third, rest⟩⟩⟩ <;>
      simp [bytesDef, packetsDef, abortDef] at split
    exact Or.inr fun definition member => absurd member List.not_mem_nil

/-- An attribute that arrives before the keys stays before them if its description comes before
theirs, so that the same attributes are displayed in two orders. -/
theorem displayOrder_late_keys :
    ((AttrRun.start linkKeys none).calls (confInitPost {}) (updatedIn [3, 1, 2])).table.displayed =
      [abortDef, bytesDef, packetsDef] ∧
    ¬DisplayOrder bytesDef packetsDef [abortDef, bytesDef, packetsDef] ∧
    ((AttrRun.start linkKeys none).calls (confInitPost {}) (updatedIn [1, 2, 3])).table.displayed =
      [bytesDef, packetsDef, abortDef] := by
  refine ⟨by decide +kernel, fun order => ?_, by decide +kernel⟩
  exact absurd order.keysFirst (by decide)

end Bmon
