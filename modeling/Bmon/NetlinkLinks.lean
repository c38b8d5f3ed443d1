/-
This file shows when reading the same links again creates nothing new.

`do_link` looks for the master of a link at the top of the group, and without creating it. A link
that is read before its master therefore goes to the top itself; in the next read the master is
there, and the link gets a second element below it. The links are placed as `Placement` describes
it, with their names and indexes as keys: `do_link` uses the element at the place of the link, and
creates it where there is none.
-/

import Bmon.Lib.Placement
import Bmon.NetlinkTc

namespace Bmon

/-! ### Reading the links -/

/-- A name with an `e_id`. -/
abbrev LinkKey := CString × UInt32

/-- A link with its name and index, and with those of its master. -/
def linkEntry (nl : Netlink) (link : RtnlLink) : Placement.Entry LinkKey where
  key := (link.name, link.ifindex)
  master := if link.link = 0 then none else some (nl.i2name link.link, link.link)

/-- The names and indexes at the top of a group. -/
def topKeys (grp : GroupPtr) (σ : Store) : LinkKey → Bool := fun key =>
  (lookupElement σ grp key.1 key.2 none).isSome

/-- The element of a link at a place: below a master at the top of the group, or there itself. -/
def locate (grp : GroupPtr) (σ : Store) (place : Option LinkKey) (key : LinkKey) :
    Option ElementPtr :=
  match place with
  | none => lookupElement σ grp key.1 key.2 none
  | some master => (lookupElement σ grp master.1 master.2 none).bind fun p =>
    lookupElement σ grp key.1 key.2 (some p)

/-- `nl_cache_foreach` over the links with `do_link`, with the elements it uses. -/
def doLinks (nl : Netlink) (ctx : ReadContext) (fuel : Nat) (σ : Store) (links : List RtnlLink) :
    Option (Pass Store (List (Option ElementPtr))) :=
  Pass.loop (fun σ link => (doLink nl ctx fuel σ link).map fun used => ⟨used.1, used.2, false⟩) σ
    links

/-- What a read finds: the definitions and the time, and the links of the cache. -/
structure LinkRead where
  ctx : ReadContext
  links : List RtnlLink

/-- Several reads, with the store and the elements after each of them. -/
def linkReads (nl : Netlink) (fuel : Nat) :
    Store → List LinkRead → Option (List (Pass Store (List (Option ElementPtr))))
  | _, [] => some []
  | σ, read :: reads => (doLinks nl read.ctx fuel σ read.links).bind fun pass =>
    (linkReads nl fuel pass.state reads).map fun passes => pass :: passes

/-- The first read of some links creates all there is to create: the later ones use the same
elements, no element is added, and each link has only one. -/
structure CreatesNothingNew (σ : Store) (keys : List LinkKey)
    (first : Pass Store (List (Option ElementPtr)))
    (later : List (Pass Store (List (Option ElementPtr)))) : Prop where
  same : ∀ pass ∈ later, pass.output = first.output
  elements : ∀ pass ∈ later, ∀ x, (pass.state.elements x).isSome = (first.state.elements x).isSome
  unique : ∀ pass ∈ first :: later, ∀ (i : Nat) key, keys[i]? = some key →
    ∃ e, first.output[i]? = some (some e) ∧
      (pass.state.elements e).map (fun r => (r.eName, r.eId)) = some key ∧
      ∀ x, (pass.state.elements x).map (fun r => (r.eName, r.eId)) = some key →
        x = e ∨ (σ.elements x).isSome

/-! ### One link -/

section

variable {grp : GroupPtr} {σ σ' : Store}

/-- What a lookup finds is in the list, under its name and with its id. -/
theorem lookupElement_eq_some {group : GroupPtr} {name : CString} {id : UInt32}
    {parent : Option ElementPtr} {e : ElementPtr}
    (found : lookupElement σ group name id parent = some e) :
    e ∈ σ.lists (listOf group parent) ∧
      (σ.elements e).map (fun r => (r.eName, r.eId)) = some (name, id) := by
  unfold lookupElement at found
  refine ⟨List.mem_of_find?_eq_some found, ?_⟩
  have matched := List.find?_some found
  obtain ⟨r, isElement, matched⟩ := (Option.any_eq_true _ _).mp matched
  obtain ⟨named, numbered⟩ := of_decide_eq_true matched
  rw [isElement, Option.map_some, named, numbered]

/-- So is what is at the place of a link. -/
theorem locate_eq_some {place : Option LinkKey} {key : LinkKey} {e : ElementPtr}
    (found : locate grp σ place key = some e) :
    (σ.elements e).map (fun r => (r.eName, r.eId)) = some key := by
  cases place with
  | none => exact (lookupElement_eq_some found).2
  | some master =>
    obtain ⟨p, -, found⟩ := Option.bind_eq_some_iff.mp found
    exact (lookupElement_eq_some found).2

/-- An element is at one place only. -/
theorem locate_injective (wf : σ.WellFormed) {place place' : Option LinkKey} {key : LinkKey}
    {e : ElementPtr} (found : locate grp σ place key = some e)
    (found' : locate grp σ place' key = some e) : place = place' := by
  have head {group : GroupPtr} {parent parent' : Option ElementPtr}
      (inList : e ∈ σ.lists (listOf group parent)) (inList' : e ∈ σ.lists (listOf group parent')) :
      parent = parent' := by
    obtain ⟨place, present, isHead⟩ := wf.owned _ e inList
    obtain ⟨place', present', isHead'⟩ := wf.owned _ e inList'
    obtain rfl := Option.some.inj (present.symm.trans present')
    have same := isHead.symm.trans isHead'
    cases parent <;> cases parent' <;> cases same <;> rfl
  cases place with
  | none =>
    cases place' with
    | none => rfl
    | some master =>
      obtain ⟨p, -, found'⟩ := Option.bind_eq_some_iff.mp found'
      cases head (lookupElement_eq_some found).1 (lookupElement_eq_some found').1
  | some master =>
    obtain ⟨p, isMaster, found⟩ := Option.bind_eq_some_iff.mp found
    cases place' with
    | none => cases head (lookupElement_eq_some found).1 (lookupElement_eq_some found').1
    | some master' =>
      obtain ⟨p', isMaster', found'⟩ := Option.bind_eq_some_iff.mp found'
      obtain rfl := Option.some.inj
        (head (lookupElement_eq_some found).1 (lookupElement_eq_some found').1)
      have same := (lookupElement_eq_some isMaster).2.symm.trans (lookupElement_eq_some isMaster').2
      exact congrArg some (Option.some.inj same)

end

/-- What is found in a group in one store is found in another one as well. -/
def Stays (grp : GroupPtr) (σ σ' : Store) : Prop :=
  ∀ name id parent x, lookupElement σ grp name id parent = some x →
    lookupElement σ' grp name id parent = some x

namespace Stays

variable {grp : GroupPtr} {σ σ' σ'' : Store}

theorem refl (grp : GroupPtr) (σ : Store) : Stays grp σ σ := fun _ _ _ _ found => found

theorem trans (first : Stays grp σ σ') (second : Stays grp σ' σ'') : Stays grp σ σ'' :=
  fun name id parent x found => second name id parent x (first name id parent x found)

theorem locate (stays : Stays grp σ σ') {place : Option LinkKey} {key : LinkKey}
    {e : ElementPtr} (found : Bmon.locate grp σ place key = some e) :
    Bmon.locate grp σ' place key = some e := by
  cases place with
  | none => exact stays _ _ _ _ found
  | some master =>
    obtain ⟨p, isMaster, found⟩ := Option.bind_eq_some_iff.mp found
    exact Option.bind_eq_some_iff.mpr ⟨p, stays _ _ _ _ isMaster, stays _ _ _ _ found⟩

end Stays

/-- What `do_link` does to the store: it uses the element at the place of the link, and creates it
where there is none. -/
structure UsesLink (grp : GroupPtr) (entry : Placement.Entry LinkKey) (e : ElementPtr)
    (σ σ' : Store) : Prop where
  wf : σ'.WellFormed
  groupList : σ'.groupList = σ.groupList
  allows : σ'.allows = σ.allows
  stays : Stays grp σ σ'
  located : locate grp σ' (Placement.place (topKeys grp σ) entry) entry.key = some e
  top : topKeys grp σ' = Placement.enter (topKeys grp σ) entry
  kept : ∀ x, (σ.elements x).isSome → (σ'.elements x).map (fun r => (r.eName, r.eId)) =
    (σ.elements x).map fun r => (r.eName, r.eId)
  fresh : ∀ x, (σ'.elements x).isSome → (σ.elements x).isSome ∨
    x = e ∧ locate grp σ (Placement.place (topKeys grp σ) entry) entry.key = none

section

variable {nl : Netlink} {ctx : ReadContext} {σ σ' : Store} {link : RtnlLink}

/-- `do_link` finds the element of the master at the top of the group. -/
theorem linkParent_eq (nl : Netlink) (ctx : ReadContext) (σ : Store) (link : RtnlLink) :
    linkParent nl ctx σ link =
      (Placement.place (topKeys nl.grp σ) (linkEntry nl link)).bind fun master =>
        lookupElement σ nl.grp master.1 master.2 none := by
  unfold linkParent linkEntry Placement.place
  split_ifs
  · rfl
  · rw [Option.filter_some]
    unfold elementLookup topKeys
    cases found : lookupElement σ nl.grp (nl.i2name link.link) link.link none with
    | none => rfl
    | some p => exact found.symm

/-- The element of the master is in the group. -/
theorem linkParent_place (wf : σ.WellFormed) {p : ElementPtr}
    (isParent : linkParent nl ctx σ link = some p) :
    ∃ above, σ.place p = some above ∧ above.group = nl.grp := by
  rw [linkParent_eq] at isParent
  obtain ⟨master, -, found⟩ := Option.bind_eq_some_iff.mp isParent
  exact eGroup_eq_some_iff.mp (wf.eGroup_of_mem (lookupElement_eq_some found).1)

/-- The master at whose element a link is placed is there. -/
theorem lookupElement_of_placed {master : CString × UInt32}
    (placed : Placement.place (topKeys nl.grp σ) (linkEntry nl link) = some master) :
    ∃ p, lookupElement σ nl.grp master.1 master.2 none = some p := by
  have atTop : topKeys nl.grp σ master = true := (Option.filter_eq_some_iff.mp placed).2
  exact Option.isSome_iff_exists.mp atTop

/-- `do_link` finds no parent just for a link that is placed at the top. -/
theorem linkParent_isNone (nl : Netlink) (ctx : ReadContext) (σ : Store) (link : RtnlLink) :
    (linkParent nl ctx σ link).isNone =
      (Placement.place (topKeys nl.grp σ) (linkEntry nl link)).isNone := by
  rw [linkParent_eq]
  cases placed : Placement.place (topKeys nl.grp σ) (linkEntry nl link) with
  | none => rfl
  | some master =>
    obtain ⟨p, found⟩ := lookupElement_of_placed placed
    rw [Option.bind_some, found]
    rfl

/-- The place of a link is in the list of the element that `do_link` finds for its master. -/
theorem locate_linkParent (ctx : ReadContext) (link : RtnlLink) (stays : Stays nl.grp σ σ') :
    locate nl.grp σ' (Placement.place (topKeys nl.grp σ) (linkEntry nl link))
        (linkEntry nl link).key =
      lookupElement σ' nl.grp link.name link.ifindex (linkParent nl ctx σ link) := by
  rw [linkParent_eq]
  cases placed : Placement.place (topKeys nl.grp σ) (linkEntry nl link) with
  | none => rfl
  | some master =>
    obtain ⟨p, found⟩ := lookupElement_of_placed placed
    show (lookupElement σ' nl.grp master.1 master.2 none).bind _ = _
    rw [stays _ _ _ _ found, Option.bind_some, Option.bind_some, found]
    rfl

/-- A new element is at the top just when the master of its link is not. -/
theorem topKeys_create (wf : σ.WellFormed) :
    topKeys nl.grp
        (elementCreate ctx.cfg σ nl.grp link.name link.ifindex (linkParent nl ctx σ link)) =
      Placement.enter (topKeys nl.grp σ) (linkEntry nl link) := by
  funext key
  rw [Placement.enter, ← linkParent_isNone nl ctx σ link]
  unfold topKeys
  rw [lookupElement_elementCreate ctx.cfg wf, Option.isSome_or]
  refine congrArg _ ?_
  have isTop : listOf nl.grp none = listOf nl.grp (linkParent nl ctx σ link) ↔
      (linkParent nl ctx σ link).isNone = true := by
    cases linkParent nl ctx σ link with
    | none => exact iff_of_true rfl rfl
    | some p => exact iff_of_false ListHead.noConfusion Bool.false_ne_true
  have isKey : key.1 = link.name ∧ key.2 = link.ifindex ↔ key = (linkEntry nl link).key := by
    rw [Prod.ext_iff]
    rfl
  simp only [isTop, isKey]
  cases (linkParent nl ctx σ link).isNone with
  | false => rfl
  | true =>
    rw [Bool.true_and]
    by_cases same : key = (linkEntry nl link).key
    · rw [if_pos ⟨rfl, same⟩, decide_eq_true same]
      rfl
    · rw [if_neg fun both => same both.2, decide_eq_false same]
      rfl

/-- Creating the element of a link at its place. -/
theorem usesLink_create (wf : σ.WellFormed) (isGroup : nl.grp ∈ σ.groupList)
    (absent : lookupElement σ nl.grp link.name link.ifindex (linkParent nl ctx σ link) = none) :
    UsesLink nl.grp (linkEntry nl link) σ.nextElement σ
      (elementCreate ctx.cfg σ nl.grp link.name link.ifindex (linkParent nl ctx σ link)) := by
  have lookup := lookupElement_elementCreate ctx.cfg wf nl.grp link.name link.ifindex
    (linkParent nl ctx σ link)
  have stays : Stays nl.grp σ
      (elementCreate ctx.cfg σ nl.grp link.name link.ifindex (linkParent nl ctx σ link)) :=
    fun name id parent x found => by rw [lookup, found, Option.some_or]
  have record := map_elementCreate (fun r => (r.eName, r.eId))
    (field_updateInfo (fun r => (r.eName, r.eId)) fun _ _ _ => rfl) (fun _ _ => rfl) ctx.cfg σ
    nl.grp link.name link.ifindex (linkParent nl ctx σ link)
  have old {x : ElementPtr} (present : (σ.elements x).isSome) : x ≠ σ.nextElement := by
    rintro rfl
    have none := wf.place_next
    rw [Store.place, Option.map_eq_none_iff] at none
    rw [none] at present
    cases present
  refine ⟨wf.elementCreate ctx.cfg nl.grp link.name link.ifindex _ isGroup
      fun p => linkParent_place wf, (touches_elementCreate _ _ _ _ _ _).groupList,
    (touches_elementCreate _ _ _ _ _ _).allows.trans (funext fun _ => allows_congr rfl rfl rfl),
    stays, ?_, ?_, fun x present => ?_, fun x present => ?_⟩
  · rw [locate_linkParent ctx link stays, lookup, absent, if_pos ⟨rfl, rfl, rfl⟩]
    rfl
  · exact topKeys_create wf
  · rw [record, if_neg (old present)]
  · by_cases new : x = σ.nextElement
    · refine Or.inr ⟨new, ?_⟩
      rw [locate_linkParent ctx link (.refl nl.grp σ), absent]
    · have same := record x
      rw [if_neg new] at same
      have isSome := congrArg Option.isSome same
      rw [Option.isSome_map, Option.isSome_map, present] at isSome
      exact Or.inl isSome.symm

/-- Where the element of a link is at its place already, nothing is created. -/
theorem usesLink_found (wf : σ.WellFormed) {e : ElementPtr}
    (found : lookupElement σ nl.grp link.name link.ifindex (linkParent nl ctx σ link) = some e) :
    UsesLink nl.grp (linkEntry nl link) e σ σ := by
  have located := locate_linkParent ctx link (.refl nl.grp σ)
  rw [found] at located
  refine ⟨wf, rfl, rfl, .refl nl.grp σ, located, (Placement.enter_eq_self fun notTop => ?_).symm,
    fun _ _ => rfl, fun _ present => Or.inl present⟩
  by_contra isTop
  rw [Option.not_isSome_iff_eq_none] at isTop
  rw [isTop] at located
  refine notTop ?_
  show (lookupElement σ nl.grp link.name link.ifindex none).isSome = true
  rw [show lookupElement σ nl.grp link.name link.ifindex none = some e from located]
  rfl

variable (ctx) in
/-- Looking up a link uses the element at its place. -/
theorem linkLookup_uses (wf : σ.WellFormed) (isGroup : nl.grp ∈ σ.groupList)
    (allowed : σ.allows link.name = true) :
    ∃ e, (linkLookup nl ctx σ link).2 = some e ∧
      UsesLink nl.grp (linkEntry nl link) e σ (linkLookup nl ctx σ link).1 := by
  unfold linkLookup elementLookup
  cases found : lookupElement σ nl.grp link.name link.ifindex (linkParent nl ctx σ link) with
  | some e => exact ⟨e, rfl, usesLink_found wf found⟩
  | none =>
    unfold Store.allows at allowed
    simp only [true_and]
    rw [if_pos allowed]
    exact ⟨_, rfl, usesLink_create wf isGroup found⟩

/-- Calls on an element afterwards change nothing of this. -/
theorem UsesLink.touches {grp : GroupPtr} {entry : Placement.Entry LinkKey} {e x : ElementPtr}
    {σ'' : Store} (uses : UsesLink grp entry e σ σ') (touches : Touches x σ' σ'') :
    UsesLink grp entry e σ σ'' := by
  have lookup : ∀ name id parent, lookupElement σ'' grp name id parent =
      lookupElement σ' grp name id parent := touches.lookupElement_eq grp
  have located : locate grp σ'' = locate grp σ' := by
    funext place key
    unfold locate
    simp only [lookup]
  have record (y : ElementPtr) : (σ''.elements y).map (fun r => (r.eName, r.eId)) =
      (σ'.elements y).map fun r => (r.eName, r.eId) := by
    have same := congrArg (Option.map Prod.snd) (touches.identity_eq y)
    rw [Option.map_map, Option.map_map] at same
    exact same
  refine ⟨uses.wf.sameShape touches.sameShape, touches.groupList.trans uses.groupList,
    touches.allows.trans uses.allows, fun name id parent y found => ?_, ?_, ?_,
    fun y present => (record y).trans (uses.kept y present), fun y present => uses.fresh y ?_⟩
  · rw [lookup]
    exact uses.stays name id parent y found
  · rw [located]
    exact uses.located
  · rw [← uses.top]
    unfold topKeys
    simp only [lookup]
  · have same := congrArg Option.isSome (record y)
    rw [Option.isSome_map, Option.isSome_map, present] at same
    exact same.symm

/-- `do_link` does not look for traffic-control objects. -/
def Netlink.NoTc (nl : Netlink) : Prop := nl.cNotc = true ∨ nl.qdiscCache = none

/-- `do_link` does not leave out the link. -/
def Netlink.Shows (nl : Netlink) (link : RtnlLink) : Prop :=
  nl.cfgShowAll = true ∨ link.flags &&& iffUp ≠ 0

theorem linkTc_eq (noTc : nl.NoTc) (fuel : Nat) (e : ElementPtr) (σ : Store) :
    linkTc nl ctx fuel e link σ = some σ := by
  unfold linkTc
  rcases noTc with off | absent
  · cases nl.qdiscCache with
    | none => rfl
    | some cache => exact if_pos off
  · rw [absent]

/-- Updating the element of a link changes only that one. -/
theorem linkUpdate_touches (noTc : nl.NoTc) {fuel : Nat} {e : ElementPtr}
    (returned : linkUpdate nl ctx fuel link e σ = some σ') : Touches e σ σ' := by
  obtain ⟨calls, -, rest⟩ := Option.bind_eq_some_iff.mp returned
  obtain ⟨middle, ran, rest⟩ := Option.bind_eq_some_iff.mp rest
  rw [linkTc_eq noTc, Option.bind_some] at rest
  exact (touches_run ran).trans (touches_run rest)

/-- `do_link` uses the element at the place of the link. -/
theorem doLink_uses (noTc : nl.NoTc) (shows : nl.Shows link) (wf : σ.WellFormed)
    (isGroup : nl.grp ∈ σ.groupList) (allowed : σ.allows link.name = true) {fuel : Nat}
    {used : Store × Option ElementPtr} (returned : doLink nl ctx fuel σ link = some used) :
    ∃ e, used.2 = some e ∧ UsesLink nl.grp (linkEntry nl link) e σ used.1 := by
  have notHidden : ¬ (¬ nl.cfgShowAll = true ∧ link.flags &&& iffUp = 0) := fun hidden =>
    shows.elim hidden.1 fun up => up hidden.2
  obtain ⟨e, looked, uses⟩ := linkLookup_uses ctx wf isGroup allowed
  unfold doLink at returned
  rw [if_neg notHidden] at returned
  simp only [looked] at returned
  obtain ⟨σ', updated, rfl⟩ := Option.map_eq_some_iff.mp returned
  exact ⟨e, rfl, uses.touches (linkUpdate_touches noTc updated)⟩

end

/-! ### Several links -/

/-- What a read of some links does to the store, with the elements it uses: those at the places of
the links, as `Placement` gives them. It creates only what it uses, and nothing where all these
elements are there. -/
structure ReadsLinks (grp : GroupPtr) (entries : List (Placement.Entry LinkKey))
    (used : List (Option ElementPtr)) (σ σ' : Store) : Prop where
  wf : σ'.WellFormed
  groupList : σ'.groupList = σ.groupList
  allows : σ'.allows = σ.allows
  stays : Stays grp σ σ'
  isSome : ∀ e ∈ used, e.isSome
  located : used = List.zipWith (locate grp σ') (Placement.places (topKeys grp σ) entries)
    (entries.map Placement.Entry.key)
  top : topKeys grp σ' = Placement.after (topKeys grp σ) entries
  kept : ∀ x, (σ.elements x).isSome → (σ'.elements x).map (fun r => (r.eName, r.eId)) =
    (σ.elements x).map fun r => (r.eName, r.eId)
  fresh : ∀ x, (σ'.elements x).isSome → (σ.elements x).isSome ∨ some x ∈ used
  settled : (∀ e ∈ List.zipWith (locate grp σ) (Placement.places (topKeys grp σ) entries)
      (entries.map Placement.Entry.key), e.isSome) →
    ∀ x, (σ'.elements x).isSome → (σ.elements x).isSome

section

variable {grp : GroupPtr} {σ σ' σ'' : Store}

/-- Elements that are there are at their places in a later store as well. -/
theorem Stays.zipWith (stays : Stays grp σ σ') {places : List (Option LinkKey)}
    {keys : List LinkKey}
    (isSome : ∀ e ∈ List.zipWith (Bmon.locate grp σ) places keys, e.isSome) :
    List.zipWith (Bmon.locate grp σ') places keys =
      List.zipWith (Bmon.locate grp σ) places keys := by
  induction places generalizing keys with
  | nil => rfl
  | cons place places inductionHypothesis =>
    cases keys with
    | nil => rfl
    | cons key keys =>
      rw [List.zipWith_cons_cons, List.forall_mem_cons] at isSome
      obtain ⟨e, found⟩ := Option.isSome_iff_exists.mp isSome.1
      rw [List.zipWith_cons_cons, List.zipWith_cons_cons, inductionHypothesis isSome.2, found,
        stays.locate found]

theorem ReadsLinks.nil (wf : σ.WellFormed) : ReadsLinks grp [] [] σ σ :=
  ⟨wf, rfl, rfl, .refl grp σ, nofun, rfl, rfl, fun _ _ => rfl, fun _ present => Or.inl present,
    fun _ _ present => present⟩

/-- One link, and then others. -/
theorem ReadsLinks.cons {entry : Placement.Entry LinkKey}
    {entries : List (Placement.Entry LinkKey)} {e : ElementPtr} {used : List (Option ElementPtr)}
    (uses : UsesLink grp entry e σ σ') (reads : ReadsLinks grp entries used σ' σ'') :
    ReadsLinks grp (entry :: entries) (some e :: used) σ σ'' := by
  have located : locate grp σ'' (Placement.place (topKeys grp σ) entry) entry.key = some e :=
    reads.stays.locate uses.located
  have present (x : ElementPtr) (before : (σ.elements x).isSome) : (σ'.elements x).isSome := by
    have same := congrArg Option.isSome (uses.kept x before)
    rwa [Option.isSome_map, Option.isSome_map, before] at same
  have usedEq := reads.located
  have settled := reads.settled
  rw [uses.top] at usedEq settled
  refine ⟨reads.wf, reads.groupList.trans uses.groupList, reads.allows.trans uses.allows,
    uses.stays.trans reads.stays, List.forall_mem_cons.mpr ⟨rfl, reads.isSome⟩, ?_, ?_,
    fun x before => (reads.kept x (present x before)).trans (uses.kept x before),
    fun x after => ?_, fun isSome x after => ?_⟩
  · rw [Placement.places, List.map_cons, List.zipWith_cons_cons, located, ← usedEq]
  · rw [reads.top, uses.top]
    rfl
  · rcases reads.fresh x after with before | isUsed
    · rcases uses.fresh x before with old | ⟨rfl, -⟩
      · exact Or.inl old
      · exact Or.inr List.mem_cons_self
    · exact Or.inr (List.mem_cons_of_mem _ isUsed)
  · rw [Placement.places, List.map_cons, List.zipWith_cons_cons, List.forall_mem_cons] at isSome
    have before := settled (fun u member => ?_) x after
    · rcases uses.fresh x before with old | ⟨-, absent⟩
      · exact old
      · rw [absent] at isSome
        cases isSome.1
    · rw [uses.stays.zipWith isSome.2] at member
      exact isSome.2 u member

end

/-- A read of links with `do_link`. -/
theorem doLinks_reads {nl : Netlink} {ctx : ReadContext} {fuel : Nat} (noTc : nl.NoTc)
    {links : List RtnlLink} (shows : ∀ link ∈ links, nl.Shows link) {σ : Store}
    (wf : σ.WellFormed) (isGroup : nl.grp ∈ σ.groupList)
    (allowed : ∀ link ∈ links, σ.allows link.name = true)
    {last : Pass Store (List (Option ElementPtr))}
    (looped : doLinks nl ctx fuel σ links = some last) :
    ReadsLinks nl.grp (links.map (linkEntry nl)) last.output σ last.state := by
  induction links generalizing σ last with
  | nil =>
    obtain rfl := Option.some.inj looped
    exact .nil wf
  | cons link links inductionHypothesis =>
    obtain ⟨pass, passed, next⟩ := Pass.loop_cons looped
    obtain ⟨used, returned, rfl⟩ := Option.map_eq_some_iff.mp passed
    obtain ⟨leaves, -⟩ | ⟨-, rest, loopedRest, rfl⟩ := next
    · cases leaves
    · obtain ⟨e, isUsed, uses⟩ := doLink_uses noTc (shows link List.mem_cons_self) wf isGroup
        (allowed link List.mem_cons_self) returned
      have stillAllowed : ∀ other ∈ links, used.1.allows other.name = true := fun other member => by
        rw [uses.allows]
        exact allowed other (List.mem_cons_of_mem _ member)
      have reads := inductionHypothesis
        (fun other member => shows other (List.mem_cons_of_mem _ member)) uses.wf
        (uses.groupList ▸ isGroup) stillAllowed loopedRest
      rw [List.map_cons]
      show ReadsLinks nl.grp _ (used.2 :: rest.output) σ rest.state
      rw [isUsed]
      exact .cons uses reads

/-- Elements are at the same places where all of them are the same. -/
theorem zipWith_locate_injective {grp : GroupPtr} {σ : Store} (wf : σ.WellFormed)
    {places places' : List (Option LinkKey)} {keys : List LinkKey}
    (length : places.length = keys.length) (length' : places'.length = keys.length)
    (isSome : ∀ e ∈ List.zipWith (locate grp σ) places keys, e.isSome)
    (same : List.zipWith (locate grp σ) places keys = List.zipWith (locate grp σ) places' keys) :
    places = places' := by
  induction keys generalizing places places' with
  | nil => rw [List.length_eq_zero_iff.mp length, List.length_eq_zero_iff.mp length']
  | cons key keys inductionHypothesis =>
    obtain ⟨place, places, rfl⟩ := List.exists_cons_of_length_eq_add_one length
    obtain ⟨place', places', rfl⟩ := List.exists_cons_of_length_eq_add_one length'
    rw [List.zipWith_cons_cons, List.zipWith_cons_cons] at same
    rw [List.zipWith_cons_cons, List.forall_mem_cons] at isSome
    obtain ⟨sameFirst, sameRest⟩ := List.cons.inj same
    obtain ⟨e, found⟩ := Option.isSome_iff_exists.mp isSome.1
    rw [locate_injective wf found (sameFirst.symm.trans found),
      inductionHypothesis (Nat.succ.inj length) (Nat.succ.inj length') isSome.2 sameRest]

/-! ### Reading them again -/

/-- After the first read: what was there is found where it was, and nothing else is there. -/
structure Settled (grp : GroupPtr) (first σ : Store) : Prop where
  wf : σ.WellFormed
  groupList : σ.groupList = first.groupList
  allows : σ.allows = first.allows
  stays : Stays grp first σ
  top : topKeys grp σ = topKeys grp first
  elements : ∀ x, (σ.elements x).map (fun r => (r.eName, r.eId)) =
    (first.elements x).map fun r => (r.eName, r.eId)

section

variable {grp : GroupPtr} {entries : List (Placement.Entry LinkKey)} {σ first : Store}
variable {used : List (Option ElementPtr)} (reads : ReadsLinks grp entries used σ first)

include reads

theorem ReadsLinks.settled_refl : Settled grp first first :=
  ⟨reads.wf, rfl, rfl, .refl grp first, rfl, fun _ => rfl⟩

/-- Where the masters come first, another read uses the same elements and creates nothing. -/
theorem ReadsLinks.again (mastersFirst : Placement.MastersFirst (topKeys grp σ) entries)
    {later last : Store} {used' : List (Option ElementPtr)} (settled : Settled grp first later)
    (again : ReadsLinks grp entries used' later last) : used' = used ∧ Settled grp first last := by
  have places : Placement.places (topKeys grp later) entries =
      Placement.places (topKeys grp σ) entries := by
    rw [settled.top, reads.top, (Placement.places_again_iff _ _).mpr mastersFirst]
  have located := again.located
  have nothingNew := again.settled
  rw [places] at located nothingNew
  have isSome := reads.isSome
  rw [reads.located] at isSome
  have here := settled.stays.zipWith isSome
  rw [here] at nothingNew
  have old := nothingNew isSome
  refine ⟨?_, again.wf, again.groupList.trans settled.groupList,
    again.allows.trans settled.allows, settled.stays.trans again.stays, ?_, fun x => ?_⟩
  · rw [located, (settled.stays.trans again.stays).zipWith isSome, reads.located]
  · rw [again.top, settled.top, reads.top, Placement.after_after]
  · by_cases present : (later.elements x).isSome = true
    · exact (again.kept x present).trans (settled.elements x)
    · have absent : last.elements x = none :=
        Option.not_isSome_iff_eq_none.mp fun after => present (old x after)
      rw [absent, ← settled.elements x, Option.not_isSome_iff_eq_none.mp present]

/-- Where another read uses the same elements, the masters come first. -/
theorem ReadsLinks.mastersFirst {last : Store} (again : ReadsLinks grp entries used first last) :
    Placement.MastersFirst (topKeys grp σ) entries := by
  rw [← Placement.places_again_iff, ← reads.top]
  have isSome := reads.isSome
  have located := again.located
  rw [reads.located] at isSome located
  rw [← again.stays.zipWith isSome] at located isSome
  have length (tops : LinkKey → Bool) : (Placement.places tops entries).length =
      (entries.map Placement.Entry.key).length := by
    rw [List.length_map]
    exact Placement.length_places tops entries
  exact (zipWith_locate_injective again.wf (length _) (length _) isSome located).symm

/-- The elements that are used have the names and indexes of the links. -/
theorem ReadsLinks.used_key {i : Nat} {e : ElementPtr} (isUsed : used[i]? = some (some e)) :
    ∃ key, (entries.map Placement.Entry.key)[i]? = some key ∧
      (first.elements e).map (fun r => (r.eName, r.eId)) = some key := by
  rw [reads.located] at isUsed
  obtain ⟨place, key, -, isKey, located⟩ := List.getElem?_zipWith_eq_some.mp isUsed
  exact ⟨key, isKey, locate_eq_some located⟩

/-- For every link an element is used. -/
theorem ReadsLinks.exists_used {i : Nat} {key : LinkKey}
    (isKey : (entries.map Placement.Entry.key)[i]? = some key) :
    ∃ e, used[i]? = some (some e) := by
  have length : used.length = (entries.map Placement.Entry.key).length := by
    rw [reads.located, List.length_zipWith, Placement.length_places, List.length_map, min_self]
  obtain ⟨less, -⟩ := List.getElem?_eq_some_iff.mp isKey
  rw [← length] at less
  obtain ⟨e, isElement⟩ := Option.isSome_iff_exists.mp (reads.isSome _ (List.getElem_mem less))
  exact ⟨e, List.getElem?_eq_some_iff.mpr ⟨less, isElement⟩⟩

/-- Where names and indexes are distinct, a link has no other new element. -/
theorem ReadsLinks.unique (distinct : (entries.map Placement.Entry.key).Nodup) {later : Store}
    (settled : Settled grp first later) {i : Nat} {key : LinkKey}
    (isKey : (entries.map Placement.Entry.key)[i]? = some key) :
    ∃ e, used[i]? = some (some e) ∧
      (later.elements e).map (fun r => (r.eName, r.eId)) = some key ∧
      ∀ x, (later.elements x).map (fun r => (r.eName, r.eId)) = some key →
        x = e ∨ (σ.elements x).isSome := by
  obtain ⟨e, isUsed⟩ := reads.exists_used isKey
  obtain ⟨key', isKey', named⟩ := reads.used_key isUsed
  obtain rfl := Option.some.inj (isKey.symm.trans isKey')
  refine ⟨e, isUsed, (settled.elements e).trans named, fun x sameName => ?_⟩
  rw [settled.elements x] at sameName
  have present : (first.elements x).isSome := by
    rw [← Option.isSome_map, sameName]
    rfl
  refine (reads.fresh x present).symm.imp_left fun isUsed' => ?_
  obtain ⟨j, less, isUsed'⟩ := List.getElem_of_mem isUsed'
  obtain ⟨other, isOther, otherName⟩ :=
    reads.used_key (List.getElem?_eq_some_iff.mpr ⟨less, isUsed'⟩)
  obtain rfl := Option.some.inj (sameName.symm.trans otherName)
  -- the same key, so the same link and the same element
  obtain ⟨lessKeys, -⟩ := List.getElem?_eq_some_iff.mp isOther
  obtain rfl : j = i := (List.getElem?_inj lessKeys distinct).mp (isOther.trans isKey.symm)
  have same := (List.getElem?_eq_some_iff.mpr ⟨less, isUsed'⟩).symm.trans isUsed
  exact Option.some.inj (Option.some.inj same)

end

/-! ### Reads that return -/

section Returns

variable {nl : Netlink} {ctx : ReadContext} {σ : Store}

theorem linkAttrCalls_instant (intervals : ctx.PositiveIntervals) (link : RtnlLink) :
    ∀ op ∈ linkAttrCalls ctx link, op.Instant ∧ op.PositiveIntervals := by
  intro op isCall
  obtain ⟨entry, -, rfl⟩ := List.mem_map.mp isCall
  exact attrUpdateCall_instant intervals _ _ _ _

/-- With enough fuel the element of a link is updated. -/
theorem linkUpdate_returns (noTc : nl.NoTc) (defined : ctx.Defined)
    (intervals : ctx.PositiveIntervals) {e : ElementPtr} (feedable : σ.Feedable e)
    (link : RtnlLink) :
    ∃ enough last, Store.PositiveIntervals last ∧ ∀ fuel, enough ≤ fuel →
      linkUpdate nl ctx fuel link e σ = some last := by
  obtain ⟨r, found⟩ := Option.isSome_iff_exists.mp feedable.present
  obtain ⟨calls, middle, setUp, updated, ran⟩ := newElementCalls_run defined.bytes
    defined.packets feedable (linkLevel σ r) (linkInfos link) r
    (linkAttrCalls_instant intervals link)
  obtain ⟨enough, last, kept, ends⟩ := updated.endCalls ctx.cfg ctx.now
  refine ⟨enough, last, kept.positive, fun fuel more => ?_⟩
  unfold linkUpdate
  rw [found, Option.bind_some, setUp, Option.bind_some, ran, Option.bind_some, linkTc_eq noTc,
    Option.bind_some]
  exact ends fuel more

/-- With enough fuel `do_link` returns. -/
theorem doLink_returns (noTc : nl.NoTc) (defined : ctx.Defined)
    (intervals : ctx.PositiveIntervals) (positive : σ.PositiveIntervals) (link : RtnlLink) :
    ∃ enough used, Store.PositiveIntervals used.1 ∧ ∀ fuel, enough ≤ fuel →
      doLink nl ctx fuel σ link = some used := by
  have kept : (linkLookup nl ctx σ link).1.PositiveIntervals :=
    positiveIntervals_elementLookup ctx.cfg positive _ _ _ _ _
  have present (e : ElementPtr) (looked : (linkLookup nl ctx σ link).2 = some e) :
      ((linkLookup nl ctx σ link).1.elements e).isSome := elementLookup_present looked
  unfold doLink
  split_ifs with hidden
  · exact ⟨0, (σ, none), positive, fun _ _ => rfl⟩
  generalize linkLookup nl ctx σ link = looked at kept present ⊢
  obtain ⟨σ', result⟩ := looked
  cases result with
  | none => exact ⟨0, (σ', none), kept, fun _ _ => rfl⟩
  | some e =>
    obtain ⟨enough, last, keptLast, updates⟩ :=
      linkUpdate_returns noTc defined intervals ⟨present e rfl, kept⟩ link
    refine ⟨enough, (last, some e), keptLast, fun fuel more => ?_⟩
    simp only [updates fuel more, Option.map_some]

/-- With enough fuel some reads return. -/
theorem linkReads_returns (noTc : nl.NoTc) {reads : List LinkRead}
    (defined : ∀ read ∈ reads, read.ctx.Defined)
    (intervals : ∀ read ∈ reads, read.ctx.PositiveIntervals) (positive : σ.PositiveIntervals) :
    ∃ enough, ∀ fuel, enough ≤ fuel → (linkReads nl fuel σ reads).isSome := by
  induction reads generalizing σ with
  | nil => exact ⟨0, fun _ _ => rfl⟩
  | cons read reads inductionHypothesis =>
    rw [List.forall_mem_cons] at defined intervals
    have each (other : Store) (link : RtnlLink) (kept : other.PositiveIntervals) :
        ∃ enough after leaves, Store.PositiveIntervals after ∧ ∀ fuel, enough ≤ fuel → ∃ output,
          ((doLink nl read.ctx fuel other link).map fun used => ⟨used.1, used.2, false⟩) =
            some (⟨after, output, leaves⟩ : Pass Store (Option ElementPtr)) := by
      obtain ⟨enough, used, keptUsed, returns⟩ :=
        doLink_returns noTc defined.1 intervals.1 kept link
      refine ⟨enough, used.1, false, keptUsed, fun fuel more => ⟨used.2, ?_⟩⟩
      rw [returns fuel more, Option.map_some]
    obtain ⟨first, after, leaves, kept, loops⟩ := Pass.loop_returns _ Store.PositiveIntervals
      read.links (fun other link _ => each other link) positive
    obtain ⟨second, rest⟩ := inductionHypothesis defined.2 intervals.2 kept
    refine ⟨max first second, fun fuel more => ?_⟩
    obtain ⟨outputs, looped⟩ := loops fuel ((le_max_left _ _).trans more)
    obtain ⟨passes, others⟩ :=
      Option.isSome_iff_exists.mp (rest fuel ((le_max_right _ _).trans more))
    have passed : doLinks nl read.ctx fuel σ read.links = some ⟨after, outputs, leaves⟩ := looped
    rw [linkReads, passed, Option.bind_some, others]
    rfl

end Returns

/-! ### Reading them many times -/

/-- The links of a read are the given ones, and `do_link` does not leave them out. -/
structure LinkRead.Of (nl : Netlink) (entries : List (Placement.Entry LinkKey))
    (read : LinkRead) : Prop where
  entries_eq : read.links.map (linkEntry nl) = entries
  shows : ∀ link ∈ read.links, nl.Shows link

section

variable {nl : Netlink} {entries : List (Placement.Entry LinkKey)} {fuel : Nat}

/-- A read of the given links. -/
theorem LinkRead.Of.reads {read : LinkRead} (isRead : read.Of nl entries) (noTc : nl.NoTc)
    {σ : Store} (wf : σ.WellFormed) (isGroup : nl.grp ∈ σ.groupList)
    (allowed : ∀ entry ∈ entries, σ.allows entry.key.1 = true)
    {pass : Pass Store (List (Option ElementPtr))}
    (looped : doLinks nl read.ctx fuel σ read.links = some pass) :
    ReadsLinks nl.grp entries pass.output σ pass.state := by
  rw [← isRead.entries_eq] at allowed ⊢
  exact doLinks_reads noTc isRead.shows wf isGroup
    (fun link member => allowed _ (List.mem_map_of_mem member)) looped

/-- Where the masters come first, all later reads use the same elements and create nothing. -/
theorem linkReads_again {σ first : Store} {used : List (Option ElementPtr)}
    (reads : ReadsLinks nl.grp entries used σ first)
    (mastersFirst : Placement.MastersFirst (topKeys nl.grp σ) entries) (noTc : nl.NoTc)
    (isGroup : nl.grp ∈ first.groupList)
    (allowed : ∀ entry ∈ entries, first.allows entry.key.1 = true) {others : List LinkRead}
    (each : ∀ read ∈ others, read.Of nl entries) {later : Store}
    (settled : Settled nl.grp first later)
    {passes : List (Pass Store (List (Option ElementPtr)))}
    (returned : linkReads nl fuel later others = some passes) :
    ∀ pass ∈ passes, pass.output = used ∧ Settled nl.grp first pass.state := by
  induction others generalizing later passes with
  | nil =>
    obtain rfl := Option.some.inj returned
    exact nofun
  | cons read others inductionHypothesis =>
    rw [List.forall_mem_cons] at each
    obtain ⟨pass, looped, rest⟩ := Option.bind_eq_some_iff.mp returned
    obtain ⟨behind, returnedRest, rfl⟩ := Option.map_eq_some_iff.mp rest
    have again := each.1.reads noTc settled.wf (settled.groupList ▸ isGroup)
      (settled.allows ▸ allowed) looped
    obtain ⟨same, settledAgain⟩ := reads.again mastersFirst settled again
    exact List.forall_mem_cons.mpr
      ⟨⟨same, settledAgain⟩, inductionHypothesis each.2 settledAgain returnedRest⟩

/-- When reading links again creates nothing. However often the same up links are read, with
distinct names and indexes that are permitted and without traffic control, the first read creates
all there is to create just when every master that is at the top of the group after it was there
before any of its links was read. With the attributes of the module defined and positive intervals
of the histories the reads return. -/
theorem linkReads_createsNothingNew_iff (nl : Netlink) (noTc : nl.NoTc) (σ : Store)
    (wf : σ.WellFormed) (isGroup : nl.grp ∈ σ.groupList)
    (entries : List (Placement.Entry LinkKey))
    (distinct : (entries.map Placement.Entry.key).Nodup)
    (allowed : ∀ entry ∈ entries, σ.allows entry.key.1 = true) (first second : LinkRead)
    (more : List LinkRead) (each : ∀ read ∈ first :: second :: more, read.Of nl entries) :
    (∀ fuel firstPass later,
      linkReads nl fuel σ (first :: second :: more) = some (firstPass :: later) →
        (CreatesNothingNew σ (entries.map Placement.Entry.key) firstPass later ↔
          Placement.MastersFirst (topKeys nl.grp σ) entries)) ∧
      ((∀ read ∈ first :: second :: more, read.ctx.Defined) →
        (∀ read ∈ first :: second :: more, read.ctx.PositiveIntervals) → σ.PositiveIntervals →
        ∃ enough, ∀ fuel, enough ≤ fuel →
          (linkReads nl fuel σ (first :: second :: more)).isSome) := by
  refine ⟨fun fuel firstPass later returned => ?_,
    fun defined intervals positive => linkReads_returns noTc defined intervals positive⟩
  obtain ⟨pass, looped, rest⟩ := Option.bind_eq_some_iff.mp returned
  obtain ⟨passes, returnedRest, same⟩ := Option.map_eq_some_iff.mp rest
  obtain ⟨rfl, rfl⟩ := List.cons.inj same
  rw [List.forall_mem_cons] at each
  have reads := each.1.reads noTc wf isGroup allowed looped
  have stillGroup : nl.grp ∈ pass.state.groupList := reads.groupList ▸ isGroup
  have stillAllowed : ∀ entry ∈ entries, pass.state.allows entry.key.1 = true :=
    reads.allows ▸ allowed
  constructor
  · intro nothingNew
    obtain ⟨passAgain, loopedAgain, rest⟩ := Option.bind_eq_some_iff.mp returnedRest
    obtain ⟨behind, -, rfl⟩ := Option.map_eq_some_iff.mp rest
    have again := (each.2 second List.mem_cons_self).reads noTc reads.wf stillGroup stillAllowed
      loopedAgain
    rw [nothingNew.same passAgain List.mem_cons_self] at again
    exact reads.mastersFirst again
  · intro mastersFirst
    have settled := linkReads_again reads mastersFirst noTc stillGroup stillAllowed each.2
      reads.settled_refl returnedRest
    refine ⟨fun later member => (settled later member).1, fun later member x => ?_,
      fun later member i key isKey => ?_⟩
    · have named := (settled later member).2.elements x
      rw [← Option.isSome_map, named, Option.isSome_map]
    · rcases List.mem_cons.mp member with rfl | member
      · exact reads.unique distinct reads.settled_refl isKey
      · exact reads.unique distinct (settled later member).2 isKey

end

/-! ### A link and its master -/

/-- A link that is up. -/
def upLink (name : CString) (ifindex link : UInt32) : RtnlLink :=
  ⟨name, ifindex, link, iffUp, 1500, 1000, "up", "up", "", "", "default", "", none, none,
    fun _ => 0⟩

/-- The module without traffic control. -/
def linksOnly : Netlink := { netlinkOf [] [] with cNotc := true }

/-- `wlan0` with the master `eth0`, in this order. -/
def slaveFirst : LinkRead := ⟨netlinkContext, [upLink wlan0 2 1, upLink eth0 1 0]⟩

/-- The same links in the other order. -/
def masterFirst : LinkRead := ⟨netlinkContext, [upLink eth0 1 0, upLink wlan0 2 1]⟩

/-- These are links that `do_link` does not leave out. -/
theorem upLinks_of {name name' : CString} {ifindex ifindex' link link' : UInt32} :
    LinkRead.Of linksOnly
      ([upLink name ifindex link, upLink name' ifindex' link'].map (linkEntry linksOnly))
      ⟨netlinkContext, [upLink name ifindex link, upLink name' ifindex' link']⟩ :=
  ⟨rfl, List.forall_mem_cons.mpr ⟨Or.inr (by decide : iffUp &&& iffUp ≠ 0),
    List.forall_mem_singleton.mpr (Or.inr (by decide : iffUp &&& iffUp ≠ 0))⟩⟩

/-- Where the master is read first, three reads use the same two elements. -/
theorem linkReads_masterFirst :
    ∃ fuel firstPass later, linkReads linksOnly fuel (interfaceStore [])
        [masterFirst, masterFirst, masterFirst] = some (firstPass :: later) ∧
      CreatesNothingNew (interfaceStore []) [(eth0, 1), (wlan0, 2)] firstPass later := by
  have mastersFirst : Placement.MastersFirst (topKeys linksOnly.grp (interfaceStore []))
      (masterFirst.links.map (linkEntry linksOnly)) :=
    (Placement.places_again_iff _ _).mp (by decide +kernel)
  obtain ⟨iff, returns⟩ := linkReads_createsNothingNew_iff linksOnly (Or.inl rfl)
    (interfaceStore []) (interfaceStore_wellFormed []) List.mem_cons_self
    (masterFirst.links.map (linkEntry linksOnly)) (by decide)
    (fun entry _ => allows_interfaceStore entry.key.1) masterFirst masterFirst [masterFirst]
    (List.forall_mem_cons.mpr ⟨upLinks_of, List.forall_mem_cons.mpr
      ⟨upLinks_of, List.forall_mem_singleton.mpr upLinks_of⟩⟩)
  have defined : masterFirst.ctx.Defined := netlinkContext_loaded.toDefined
  have intervals : masterFirst.ctx.PositiveIntervals := netlinkContext_intervals
  obtain ⟨fuel, isSome⟩ := returns (List.forall_mem_cons.mpr ⟨defined,
    List.forall_mem_cons.mpr ⟨defined, List.forall_mem_singleton.mpr defined⟩⟩)
    (List.forall_mem_cons.mpr ⟨intervals,
      List.forall_mem_cons.mpr ⟨intervals, List.forall_mem_singleton.mpr intervals⟩⟩)
    (interfaceStore_positive [])
  obtain ⟨passes, returned⟩ := Option.isSome_iff_exists.mp (isSome fuel le_rfl)
  obtain ⟨firstPass, -, rest⟩ := Option.bind_eq_some_iff.mp returned
  obtain ⟨later, -, rfl⟩ := Option.map_eq_some_iff.mp rest
  exact ⟨fuel, firstPass, later, returned, (iff fuel firstPass later returned).mpr mastersFirst⟩

/-- Where it is read last, the second read uses a second element for the other link. -/
theorem linkReads_slaveFirst :
    slaveFirst.Of linksOnly (slaveFirst.links.map (linkEntry linksOnly)) ∧
      [(wlan0, 2), (eth0, 1)].Nodup ∧
      (∀ name, (interfaceStore []).allows name = true) ∧
      ∃ fuel firstPass later, linkReads linksOnly fuel (interfaceStore [])
          [slaveFirst, slaveFirst] = some (firstPass :: later) ∧
        ¬ CreatesNothingNew (interfaceStore []) [(wlan0, 2), (eth0, 1)] firstPass later := by
  have used : (linkReads linksOnly 3 (interfaceStore []) [slaveFirst, slaveFirst]).map
      (List.map Pass.output) = some [[some 0, some 1], [some 2, some 1]] := by decide +kernel
  obtain ⟨passes, returned, outputs⟩ := Option.map_eq_some_iff.mp used
  obtain ⟨firstPass, later, rfl, first, second⟩ := List.map_eq_cons_iff.mp outputs
  obtain ⟨secondPass, later, rfl, second, -⟩ := List.map_eq_cons_iff.mp second
  refine ⟨upLinks_of, by decide, allows_interfaceStore, 3, firstPass, secondPass :: later, returned,
    fun nothingNew => ?_⟩
  have same := nothingNew.same secondPass List.mem_cons_self
  rw [first, second] at same
  exact absurd same (by decide)

end Bmon
