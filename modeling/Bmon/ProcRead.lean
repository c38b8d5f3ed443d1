/-
This file models `proc_read` of `in_proc.c`, with the functions of the C library it reads its
file with, and shows which interfaces it feeds.

A line whose interface is denied does not only end its own turn: the jump to `skip` leaves the
loop, so that no line after it is read. An interface is therefore missed if and only if the line
of a denied one comes before it.
-/

import Bmon.ModuleConf
import Bmon.Feed
import Bmon.Lib.Loops

namespace Bmon

/-! ### Lines -/

/-- `fgets` for a buffer that has room for some characters and a terminator: what is read, and
the rest of the file. -/
def fgets : Nat → List Char → List Char × List Char
  | 0, content => ([], content)
  | _ + 1, [] => ([], [])
  | size + 1, c :: content =>
    if c = '\n' then ([c], content)
    else (c :: (fgets size content).1, (fgets size content).2)

/-- What repeated calls of `fgets` read up to the end of the file. -/
def fgetsAll (size : Nat) : Nat → List Char → List (List Char)
  | 0, _ => []
  | _ + 1, [] => []
  | fuel + 1, c :: content =>
    (fgets size (c :: content)).1 :: fgetsAll size fuel (fgets size (c :: content)).2

/-- The lines of a file, with their newlines. -/
def fileLines : List Char → List (List Char)
  | [] => []
  | c :: content =>
    if c = '\n' then [c] :: fileLines content
    else
      match fileLines content with
      | [] => [[c]]
      | line :: lines => (c :: line) :: lines

theorem fgets_append (size : Nat) (content : List Char) :
    (fgets size content).1 ++ (fgets size content).2 = content := by
  induction content generalizing size with
  | nil => cases size <;> rfl
  | cons c content inductionHypothesis =>
    cases size with
    | zero => rfl
    | succ size =>
      rw [fgets]
      split_ifs
      · rfl
      · rw [List.cons_append, inductionHypothesis]

theorem fileLines_eq_nil {content : List Char} (empty : fileLines content = []) :
    content = [] := by
  cases content with
  | nil => rfl
  | cons c content =>
    rw [fileLines] at empty
    split_ifs at empty
    split at empty <;> cases empty

/-- No line is empty, as its newline is part of it. -/
theorem length_pos_of_fileLines {content line : List Char} {lines : List (List Char)}
    (isLine : fileLines content = line :: lines) : 0 < line.length := by
  cases content with
  | nil => cases isLine
  | cons c content =>
    rw [fileLines] at isLine
    split_ifs at isLine
    · rw [← (List.cons.inj isLine).1]
      exact Nat.succ_pos _
    · split at isLine <;>
      · rw [← (List.cons.inj isLine).1]
        exact Nat.succ_pos _

/-- A line that fits in the buffer is read at once. -/
theorem fgets_eq {size : Nat} {content line : List Char} {lines : List (List Char)}
    (isLine : fileLines content = line :: lines) (short : line.length ≤ size) :
    (fgets size content).1 = line ∧ fileLines (fgets size content).2 = lines := by
  induction content generalizing size line with
  | nil => cases isLine
  | cons c content inductionHypothesis =>
    have some := length_pos_of_fileLines isLine
    obtain ⟨size, rfl⟩ : ∃ n, size = n + 1 := ⟨size - 1, by omega⟩
    rw [fileLines] at isLine
    rw [fgets]
    split_ifs at isLine ⊢
    · obtain ⟨rfl, rfl⟩ := List.cons.inj isLine
      exact ⟨rfl, rfl⟩
    · split at isLine
      · next empty =>
        obtain ⟨rfl, rfl⟩ := List.cons.inj isLine
        obtain rfl := fileLines_eq_nil empty
        cases size <;> exact ⟨rfl, rfl⟩
      · next first others found =>
        obtain ⟨rfl, rfl⟩ := List.cons.inj isLine
        have fits : first.length ≤ size := Nat.le_of_succ_le_succ short
        obtain ⟨line, rest⟩ := inductionHypothesis found fits
        exact ⟨by rw [line], rest⟩

/-- Where all lines fit in the buffer, the calls read line by line. -/
theorem fgetsAll_eq {size : Nat} {content : List Char}
    (short : ∀ line ∈ fileLines content, line.length ≤ size) {fuel : Nat}
    (enough : content.length ≤ fuel) : fgetsAll size fuel content = fileLines content := by
  induction fuel generalizing content with
  | zero =>
    obtain rfl := List.length_eq_zero_iff.mp (Nat.le_zero.mp enough)
    rfl
  | succ fuel inductionHypothesis =>
    cases content with
    | nil => rfl
    | cons c content =>
      cases isLine : fileLines (c :: content) with
      | nil => cases fileLines_eq_nil isLine
      | cons line lines =>
        rw [isLine] at short
        obtain ⟨read, rest⟩ := fgets_eq isLine (short line List.mem_cons_self)
        rw [fgetsAll, read, inductionHypothesis ?_ ?_, rest]
        · rw [rest]
          exact fun other member => short other (List.mem_cons_of_mem _ member)
        · have parts := congrArg List.length (fgets_append size (c :: content))
          have some := length_pos_of_fileLines isLine
          rw [read, List.length_append] at parts
          omega

/-! ### Numbers -/

/-- `strtoull` in base ten, as `sscanf` reads a number for `SCNu64`: spaces are skipped, and a
number that does not fit becomes the largest one. Gives the rest of the text as well. -/
def scanU64 (text : List Char) : Option (UInt64 × List Char) :=
  let start := text.dropWhile isspace
  let unsigned := if start.head? = some '+' ∨ start.head? = some '-' then start.tail else start
  let digits := unsigned.takeWhile Char.isDigit
  if digits = [] then none
  else
    let value := Nat.ofDigitChars 10 digits 0
    let magnitude := UInt64.ofNat value
    some (if 2 ^ 64 ≤ value then UInt64.ofNat (2 ^ 64 - 1)
      else if start.head? = some '-' then 0 - magnitude else magnitude,
      unsigned.dropWhile Char.isDigit)

/-- The numbers that `sscanf` stores for a format of as many `SCNu64`. -/
def scanNumbers : Nat → List Char → List UInt64
  | 0, _ => []
  | count + 1, text =>
    match scanU64 text with
    | none => []
    | some (value, rest) => value :: scanNumbers count rest

/-! ### Interface lines -/

/-- The values of an interface, `PROC_BYTES` and so on. -/
inductive ProcValue where
  | bytes
  | packets
  | errors
  | drop
  | compressed
  | fifo
  | frame
  | mcast
  deriving DecidableEq, Repr

/-- The order of the values in a line, once for each direction. -/
def procColumns : List ProcValue :=
  [.bytes, .packets, .errors, .drop, .fifo, .frame, .compressed, .mcast]

/-- `link_attrs`, the entries in the order of their values. -/
def procLinkAttrs : List (ProcValue × String) :=
  [(.bytes, "bytes"), (.packets, "packets"), (.errors, "errors"), (.drop, "drop"),
    (.compressed, "compressed"), (.fifo, "fifoerr"), (.frame, "frameerr"), (.mcast, "mcast")]

/-- What `proc_read` takes from a line: the name of the interface, and the numbers. -/
structure ProcLine where
  name : CString
  numbers : List UInt64
  deriving DecidableEq

namespace ProcLine

variable (line : ProcLine)

/-- `data[value][0]`. -/
def rx (value : ProcValue) : UInt64 := line.numbers.getD (procColumns.idxOf value) 0

/-- `data[value][1]`. -/
def tx (value : ProcValue) : UInt64 :=
  line.numbers.getD (procColumns.length + procColumns.idxOf value) 0

/-- What is passed to `attr_update`, in the order of `link_attrs`. -/
def readings : List Reading :=
  procLinkAttrs.map fun entry => ⟨entry.2, line.rx entry.1, line.tx entry.1⟩

end ProcLine

/-- The body of the loop of `proc_read` up to the check of the numbers; it goes on with the next
line where there is no result. -/
def parseProcLine (buf : List Char) : Option ProcLine :=
  let str := (CString.ofMemory buf).chars
  if str.head? = some '\r' ∨ str.head? = some '\n' then none
  else
    match strchr ':' str with
    | (_, none) => none
    | (p, some s) =>
      let numbers := scanNumbers 16 s
      if numbers.length = 16 then some ⟨CString.ofMemory (p.dropWhile (· = ' ')), numbers⟩
      else none

/-- The interface in a line of the file after the header. -/
def interfaceAt (content : List Char) (i : Nat) : Option ProcLine :=
  ((fileLines content).drop 2)[i]?.bind parseProcLine

/-! ### proc_read -/

section

variable (ctx : ReadContext) (grp : GroupPtr) (fuel : Nat)

/-- `UPDATE_FLAG_RX | UPDATE_FLAG_TX`. -/
def procFlags : UpdateFlags := { rx := true, tx := true }

/-- One turn of the loop of `proc_read`, with the calls that are made in it. -/
def procPass (σ : Store) (buf : List Char) : Option (Pass Store (List InputOp)) :=
  match parseProcLine buf with
  | none => some ⟨σ, [], false⟩
  | some line =>
    (ctx.lookUp σ grp line.name).bind fun looked =>
      match looked.element with
      -- goto skip
      | none => some ⟨looked.store, looked.calls, true⟩
      | some e =>
        let calls := (ctx.feedCalls fuel procFlags line.readings).map (InputOp.onElement e)
        (Runs.run (InputOp.apply ctx.cfg) looked.store calls).map fun σ =>
          ⟨σ, looked.calls ++ calls, false⟩

/-- `proc_read`, for a file with this content: the store afterwards, and the calls for each line
after the header that is read. -/
def procRead (content : List Char) (σ : Store) : Option (Pass Store (List (List InputOp))) :=
  Pass.loop (procPass ctx grp fuel) σ ((fgetsAll 511 content.length content).drop 2)

/-- Every line of an interface that is tracked or permitted has been fed in this read. -/
def ProcFeeds (content : List Char) (σ : Store) (last : Pass Store (List (List InputOp))) : Prop :=
  ∀ i line, interfaceAt content i = some line → σ.Eligible grp line.name →
    ∃ calls, last.output[i]? = some calls ∧
      ctx.Fed fuel procFlags line.readings last.state grp line.name calls

/-- No line of a denied interface comes before that of one that is tracked or permitted. -/
def DeniedLast (content : List Char) (σ : Store) : Prop :=
  ∀ i j, j < i → ∀ line other, interfaceAt content i = some line →
    interfaceAt content j = some other → σ.Eligible grp line.name → σ.Eligible grp other.name

end

section

variable {ctx : ReadContext} {grp : GroupPtr} {fuel : Nat}

/-- What one turn of the loop does. -/
theorem procPass_cases {σ : Store} (wf : σ.WellFormed) (isGroup : grp ∈ σ.groupList)
    {buf : List Char} {pass : Pass Store (List InputOp)}
    (passed : procPass ctx grp fuel σ buf = some pass) :
    Runs.run (InputOp.apply ctx.cfg) σ pass.output = some pass.state ∧
      ((parseProcLine buf = none ∧ pass.state = σ ∧ pass.leaves = false) ∨
        ∃ line, parseProcLine buf = some line ∧
          ((¬σ.Eligible grp line.name ∧ pass.state = σ ∧ pass.leaves = true) ∨
            (σ.Eligible grp line.name ∧ FeedsOnly grp line.name σ pass.state ∧
              pass.leaves = false ∧
              ctx.Fed fuel procFlags line.readings pass.state grp line.name pass.output))) := by
  unfold procPass at passed
  cases parsed : parseProcLine buf with
  | none =>
    rw [parsed] at passed
    obtain rfl := Option.some.inj passed
    exact ⟨rfl, Or.inl ⟨rfl, rfl, rfl⟩⟩
  | some line =>
    simp only [parsed] at passed
    obtain ⟨looked, lookedUp, rest⟩ := Option.bind_eq_some_iff.mp passed
    have ranLookUp := lookUp_run lookedUp isGroup
    cases found : looked.element with
    | none =>
      simp only [found] at rest
      obtain rfl := Option.some.inj rest
      obtain ⟨denied, same⟩ := lookUp_none lookedUp found
      exact ⟨ranLookUp, Or.inr ⟨line, rfl, Or.inl ⟨denied, same, rfl⟩⟩⟩
    | some e =>
      simp only [found] at rest
      obtain ⟨σ', ran, rfl⟩ := Option.map_eq_some_iff.mp rest
      obtain ⟨eligible, feeds, tracked, -⟩ := lookUp_some lookedUp wf isGroup found
      have feedsMore := feedCalls_feedsOnly feeds.wf tracked ran
      refine ⟨Runs.run_append.mpr ⟨_, ranLookUp, ran⟩, Or.inr ⟨line, rfl, Or.inr
        ⟨eligible, feeds.trans feedsMore, rfl, e, feedsMore.kept e tracked, ?_⟩⟩⟩
      exact List.suffix_append _ _

/-- A turn of the loop keeps the store well formed and the group in its list. -/
theorem procPass_wellFormed {σ : Store} (invariant : σ.WellFormed ∧ grp ∈ σ.groupList)
    {buf : List Char} {pass : Pass Store (List InputOp)}
    (passed : procPass ctx grp fuel σ buf = some pass) :
    pass.state.WellFormed ∧ grp ∈ pass.state.groupList := by
  obtain ⟨-, ⟨-, same, -⟩ | ⟨_, -, ⟨-, same, -⟩ | ⟨-, feeds, -⟩⟩⟩ :=
    procPass_cases invariant.1 invariant.2 passed
  · rw [same]
    exact invariant
  · rw [same]
    exact invariant
  · exact ⟨feeds.wf, feeds.groupList ▸ invariant.2⟩

/-- The turns of the loop work together: an interface stays eligible or denied as it was before
the read, and what is fed stays fed. -/
theorem procPass_cooperates (σ : Store) :
    Pass.Cooperates (procPass ctx grp fuel) (fun st => st.WellFormed ∧ grp ∈ st.groupList)
      (fun st buf => ∀ line, parseProcLine buf = some line →
        (st.Eligible grp line.name ↔ σ.Eligible grp line.name))
      (fun buf => ∃ line, parseProcLine buf = some line ∧ ¬σ.Eligible grp line.name)
      (fun st buf calls => ∀ line, parseProcLine buf = some line → σ.Eligible grp line.name →
        ctx.Fed fuel procFlags line.readings st grp line.name calls)
      (fun _ _ => True) where
  step st buf pass invariant ready passed := by
    refine ⟨procPass_wellFormed invariant passed, ?_⟩
    obtain ⟨-, ⟨parsed, -, goesOn⟩ | ⟨line, parsed, turn⟩⟩ :=
      procPass_cases invariant.1 invariant.2 passed
    · rw [goesOn]
      refine ⟨iff_of_false Bool.false_ne_true fun ⟨line, found, _⟩ => ?_,
        fun line found => ?_⟩ <;>
      · rw [parsed] at found
        cases found
    have eligibleIff := ready line parsed
    obtain ⟨denied, -, leaves⟩ | ⟨eligible, -, goesOn, fed⟩ := turn
    · rw [leaves]
      refine ⟨iff_of_true rfl ⟨line, parsed, mt eligibleIff.mpr denied⟩,
        fun other found eligible => ?_⟩
      rw [parsed] at found
      obtain rfl := Option.some.inj found
      exact absurd (eligibleIff.mpr eligible) denied
    · rw [goesOn]
      refine ⟨iff_of_false Bool.false_ne_true fun ⟨other, found, denied⟩ => ?_,
        fun other found _ => ?_⟩
      · rw [parsed] at found
        obtain rfl := Option.some.inj found
        exact denied (eligibleIff.mp eligible)
      · rw [parsed] at found
        obtain rfl := Option.some.inj found
        exact fed
  keeps st buf pass other invariant _ passed _ otherReady line parsed := by
    obtain ⟨-, ⟨-, same, -⟩ | ⟨_, -, ⟨-, same, -⟩ | ⟨eligible, feeds, -⟩⟩⟩ :=
      procPass_cases invariant.1 invariant.2 passed
    · rw [same]
      exact otherReady line parsed
    · rw [same]
      exact otherReady line parsed
    · exact (feeds.eligible_iff eligible grp line.name).trans (otherReady line parsed)
  stays st buf pass other calls invariant _ passed _ before line parsed eligible := by
    obtain ⟨-, ⟨-, same, -⟩ | ⟨_, -, ⟨-, same, -⟩ | ⟨-, feeds, -⟩⟩⟩ :=
      procPass_cases invariant.1 invariant.2 passed
    · rw [same]
      exact before line parsed eligible
    · rw [same]
      exact before line parsed eligible
    · exact (before line parsed eligible).mono feeds

variable {σ : Store}

section

variable (wf : σ.WellFormed) (isGroup : grp ∈ σ.groupList)
variable {content : List Char} {last : Pass Store (List (List InputOp))}
variable (read : procRead ctx grp fuel content σ = some last)

include wf isGroup read

/-- A read makes the calls in its output, one after the other. -/
theorem procRead_run :
    Runs.run (InputOp.apply ctx.cfg) σ last.output.flatten = some last.state := by
  rw [← List.flatMap_id]
  refine Pass.loop_run id id (fun st => st.WellFormed ∧ grp ∈ st.groupList)
    (fun st buf _ pass invariant passed => ?_) ⟨wf, isGroup⟩ read
  exact ⟨procPass_wellFormed invariant passed,
    (procPass_cases invariant.1 invariant.2 passed).1⟩

/-- A read feeds every interface that is tracked or permitted if and only if the denied ones come
last. -/
theorem procRead_feeds_iff (short : ∀ line ∈ fileLines content, line.length ≤ 511) :
    ProcFeeds ctx grp fuel content σ last ↔ DeniedLast grp content σ := by
  unfold procRead at read
  rw [fgetsAll_eq short le_rfl] at read
  have everyLine : ∀ {i : Nat} {line : ProcLine}, interfaceAt content i = some line →
      ∃ buf, ((fileLines content).drop 2)[i]? = some buf ∧ parseProcLine buf = some line :=
    fun found => Option.bind_eq_some_iff.mp found
  have output := fun {i : Nat} {buf : List Char}
      (isBuf : ((fileLines content).drop 2)[i]? = some buf) =>
    (procPass_cooperates σ).loop_output (List.pairwise_of_forall fun _ _ => trivial)
      ⟨wf, isGroup⟩ (fun buf _ line _ => Iff.rfl) read isBuf
  constructor
  · intro feeds i j less line other isLine isOther eligible
    obtain ⟨buf, isBuf, -⟩ := everyLine isLine
    obtain ⟨earlier, isEarlier, parsed⟩ := everyLine isOther
    by_contra denied
    obtain ⟨calls, present, -⟩ := feeds i line isLine eligible
    have skipped := (output isBuf).2 j less earlier isEarlier ⟨other, parsed, denied⟩
    rw [skipped] at present
    cases present
  · intro deniedLast i line isLine eligible
    obtain ⟨buf, isBuf, parsed⟩ := everyLine isLine
    obtain ⟨calls, present, fed⟩ := (output isBuf).1 fun j less earlier isEarlier =>
      fun ⟨other, isOther, denied⟩ => denied (deniedLast i j less line other isLine
        (Option.bind_eq_some_iff.mpr ⟨earlier, isEarlier, isOther⟩) eligible)
    exact ⟨calls, present, fed line parsed eligible⟩

end

/-- With the attributes defined and positive intervals a turn of the loop returns. -/
theorem procPass_returns (defined : ctx.Defined) (intervals : ctx.PositiveIntervals)
    (invariant : (σ.WellFormed ∧ grp ∈ σ.groupList) ∧ σ.PositiveIntervals) (buf : List Char) :
    ∃ enough after leaves, ((after.WellFormed ∧ grp ∈ after.groupList) ∧
        after.PositiveIntervals) ∧
      ∀ fuel, enough ≤ fuel →
        ∃ output, procPass ctx grp fuel σ buf = some ⟨after, output, leaves⟩ := by
  cases parsed : parseProcLine buf with
  | none =>
    refine ⟨0, σ, false, invariant, fun fuel _ => ⟨[], ?_⟩⟩
    rw [procPass, parsed]
  | some line =>
    obtain ⟨looked, lookedUp, positive, feedable⟩ :=
      lookUp_returns defined invariant.1.1 invariant.2 invariant.1.2 line.name
    cases found : looked.element with
    | none =>
      have passed : ∀ fuel, procPass ctx grp fuel σ buf =
          some ⟨looked.store, looked.calls, true⟩ := fun fuel => by
        rw [procPass, parsed]
        simp only [lookedUp, Option.bind_some, found]
      exact ⟨0, looked.store, true, ⟨procPass_wellFormed invariant.1 (passed 0), positive⟩,
        fun fuel _ => ⟨_, passed fuel⟩⟩
    | some e =>
      obtain ⟨enough, σ', kept, returns⟩ :=
        feedCalls_returns intervals (feedable e found) procFlags line.readings
      have passed : ∀ fuel, enough ≤ fuel → ∃ output, procPass ctx grp fuel σ buf =
          some ⟨σ', output, false⟩ := fun fuel more => by
        rw [procPass, parsed]
        simp only [lookedUp, Option.bind_some, found, returns fuel more, Option.map_some]
        exact ⟨_, rfl⟩
      obtain ⟨output, once⟩ := passed enough le_rfl
      exact ⟨enough, σ', false, ⟨procPass_wellFormed invariant.1 once, kept.positive⟩, passed⟩

/-- With the attributes defined and positive intervals a read returns. -/
theorem procRead_returns (defined : ctx.Defined) (intervals : ctx.PositiveIntervals)
    (positive : σ.PositiveIntervals) (wf : σ.WellFormed) (isGroup : grp ∈ σ.groupList)
    (content : List Char) :
    ∃ enough, ∀ fuel, enough ≤ fuel → (procRead ctx grp fuel content σ).isSome := by
  obtain ⟨enough, _, _, -, returns⟩ := Pass.loop_returns (procPass ctx grp)
    (fun st => (st.WellFormed ∧ grp ∈ st.groupList) ∧ st.PositiveIntervals)
    ((fgetsAll 511 content.length content).drop 2)
    (fun _ buf _ invariant => procPass_returns defined intervals invariant buf)
    ⟨⟨wf, isGroup⟩, positive⟩
  refine ⟨enough, fun fuel more => ?_⟩
  obtain ⟨_, looped⟩ := returns fuel more
  exact Option.isSome_iff_exists.mpr ⟨_, looped⟩

end

end Bmon
