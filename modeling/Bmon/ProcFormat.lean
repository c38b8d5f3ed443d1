/-
This file describes the lines that `proc_read` takes for lines of interfaces, and files that are
read back as they were printed.

The functions of the C library accept more than a file of the kernel holds: any blanks in front
of a number, a sign, more digits than fit. A description of what they accept meets the loop from
one side and a printer from the other: a line is taken for a name and sixteen numbers just when
it is written like that, and every printed line is.
-/

import Bmon.Format
import Bmon.ProcCycles

namespace Bmon

/-! ### Numbers -/

/-- A number as it is written: blanks, perhaps a sign, and digits. -/
structure Numeral where
  blanks : List Char
  sign : Option Char
  digits : List Char
  allBlank : ∀ c ∈ blanks, isspace c = true
  isSign : ∀ c ∈ sign, c = '+' ∨ c = '-'
  someDigits : digits ≠ []
  allDigits : ∀ c ∈ digits, c.isDigit = true

namespace Numeral

variable (n : Numeral)

def chars : List Char := n.blanks ++ (n.sign.toList ++ n.digits)

/-- What the number stands for: the largest number if it does not fit, and the negative of a
number with a minus, modulo `2 ^ 64`. -/
def value : UInt64 :=
  if 2 ^ 64 ≤ Nat.ofDigitChars 10 n.digits 0 then UInt64.ofNat (2 ^ 64 - 1)
  else if n.sign = some '-' then 0 - UInt64.ofNat (Nat.ofDigitChars 10 n.digits 0)
  else UInt64.ofNat (Nat.ofDigitChars 10 n.digits 0)

end Numeral

/-- No digit comes next. -/
def NoDigit (text : List Char) : Prop := ∀ c ∈ text.head?, c.isDigit = false

/-- Numbers written one after the other, with any text behind them. -/
inductive Numerals : List UInt64 → List Char → Prop
  | nil (text : List Char) : Numerals [] text
  | cons (n : Numeral) {values : List UInt64} {text : List Char} (ends : NoDigit text)
      (others : Numerals values text) : Numerals (n.value :: values) (n.chars ++ text)

/-- Reading up to the first character without a property. -/
theorem takeWhile_append_stop {p : Char → Bool} {front text : List Char}
    (all : ∀ c ∈ front, p c = true) (stops : ∀ c ∈ text.head?, p c = false) :
    (front ++ text).takeWhile p = front ∧ (front ++ text).dropWhile p = text := by
  rw [List.takeWhile_append_of_pos all, List.dropWhile_append_of_pos all]
  cases text with
  | nil => exact ⟨List.append_nil _, rfl⟩
  | cons c text =>
    have stop : ¬p c = true := Bool.not_eq_true _ ▸ stops c rfl
    exact ⟨by rw [List.takeWhile_cons_of_neg stop, List.append_nil],
      List.dropWhile_cons_of_neg stop⟩

/-- A blank is no digit and no sign. -/
theorem isDigit_of_isspace {c : Char} (blank : isspace c = true) :
    c.isDigit = false ∧ c ≠ '+' ∧ c ≠ '-' := by
  unfold isspace at blank
  have listed := of_decide_eq_true blank
  simp only [List.mem_cons, List.not_mem_nil, or_false] at listed
  rcases listed with rfl | rfl | rfl | rfl | rfl | rfl <;> decide

/-- A digit is no blank and no sign. -/
theorem isspace_of_isDigit {c : Char} (digit : c.isDigit = true) :
    isspace c = false ∧ c ≠ '+' ∧ c ≠ '-' := by
  refine ⟨?_, ?_, ?_⟩
  · by_contra blank
    rw [(isDigit_of_isspace (eq_true_of_ne_false blank)).1] at digit
    cases digit
  · rintro rfl
    cases digit
  · rintro rfl
    cases digit

/-- The text behind the blanks starts with the sign, or with the first digit. -/
theorem Numeral.unsigned (n : Numeral) (text : List Char) :
    (∀ c ∈ (n.sign.toList ++ n.digits ++ text).head?, isspace c = false) ∧
      ((n.sign.toList ++ n.digits ++ text).head? = some '-' ↔ n.sign = some '-') ∧
      (if (n.sign.toList ++ n.digits ++ text).head? = some '+' ∨
          (n.sign.toList ++ n.digits ++ text).head? = some '-' then
        (n.sign.toList ++ n.digits ++ text).tail else n.sign.toList ++ n.digits ++ text) =
          n.digits ++ text := by
  cases signed : n.sign with
  | some c =>
    have isSign := n.isSign c signed
    have start : (some c).toList ++ n.digits ++ text = c :: (n.digits ++ text) := rfl
    rw [start, List.head?_cons, List.tail_cons]
    refine ⟨fun c' same => ?_, Iff.rfl, if_pos (isSign.imp (congrArg some) (congrArg some))⟩
    obtain rfl := Option.some.inj same
    rcases isSign with rfl | rfl <;> decide
  | none =>
    obtain ⟨d, digits, written⟩ := List.exists_cons_of_ne_nil n.someDigits
    obtain ⟨notBlank, notPlus, notMinus⟩ :=
      isspace_of_isDigit (n.allDigits d (written ▸ List.mem_cons_self))
    have start : (none : Option Char).toList ++ n.digits ++ text = d :: (digits ++ text) := by
      rw [written]
      rfl
    rw [start, List.head?_cons, written]
    refine ⟨fun c same => Option.some.inj same ▸ notBlank,
      iff_of_false (fun same => notMinus (Option.some.inj same)) (fun equal => by cases equal),
      if_neg (not_or.mpr ⟨fun same => notPlus (Option.some.inj same), fun same =>
        notMinus (Option.some.inj same)⟩)⟩

/-- What is left behind the sign of a text, if it has one. -/
theorem exists_sign (start : List Char) :
    ∃ (sign : Option Char) (unsigned : List Char), start = sign.toList ++ unsigned ∧
      (∀ c ∈ sign, c = '+' ∨ c = '-') ∧ (start.head? = some '-' ↔ sign = some '-') ∧
      (if start.head? = some '+' ∨ start.head? = some '-' then start.tail else start) =
        unsigned := by
  by_cases signed : start.head? = some '+' ∨ start.head? = some '-'
  · cases start with
    | nil => rcases signed with equal | equal <;> cases equal
    | cons c tail =>
      refine ⟨some c, tail, rfl, fun c' same => ?_, Iff.rfl, if_pos signed⟩
      obtain rfl := Option.some.inj same
      exact signed.imp Option.some.inj Option.some.inj
  · refine ⟨none, start, rfl, fun c member => ?_, ?_, if_neg signed⟩
    · cases member
    · exact iff_of_false (fun minus => signed (Or.inr minus)) fun equal => by cases equal

/-- A number is read just when it is written at the start of the text, up to its last digit. -/
theorem scanU64_eq_some_iff {text rest : List Char} {value : UInt64} :
    scanU64 text = some (value, rest) ↔
      ∃ n : Numeral, text = n.chars ++ rest ∧ n.value = value ∧ NoDigit rest := by
  constructor
  · intro scanned
    obtain ⟨sign, unsigned, start, isSign, minus, behind⟩ := exists_sign (text.dropWhile isspace)
    unfold scanU64 at scanned
    simp only [behind] at scanned
    simp only [minus] at scanned
    by_cases noDigits : unsigned.takeWhile Char.isDigit = []
    · rw [if_pos noDigits] at scanned
      cases scanned
    · rw [if_neg noDigits] at scanned
      obtain ⟨rfl, rfl⟩ := Prod.mk.inj (Option.some.inj scanned)
      refine ⟨⟨text.takeWhile isspace, sign, unsigned.takeWhile Char.isDigit,
        fun c member => List.mem_takeWhile_imp member, isSign, noDigits,
        fun c member => List.mem_takeWhile_imp member⟩, ?_, rfl, fun c first => ?_⟩
      · rw [Numeral.chars, List.append_assoc, List.append_assoc, List.takeWhile_append_dropWhile,
          ← start, List.takeWhile_append_dropWhile]
      · have stops := List.head?_dropWhile_not Char.isDigit unsigned
        rw [Option.mem_def.mp first] at stops
        exact stops
  · rintro ⟨n, rfl, rfl, ends⟩
    obtain ⟨noBlank, minus, unsigned⟩ := n.unsigned rest
    have parts : n.chars ++ rest = n.blanks ++ (n.sign.toList ++ n.digits ++ rest) := by
      rw [Numeral.chars, List.append_assoc]
    obtain ⟨digits, behind⟩ := takeWhile_append_stop n.allDigits ends
    unfold scanU64
    simp only [parts, (takeWhile_append_stop n.allBlank noBlank).2, unsigned, digits, behind,
      if_neg n.someDigits]
    simp only [minus]
    rfl

/-- As many numbers are read as are asked for just when they are written in the text. -/
theorem scanNumbers_eq_iff {values : List UInt64} {text : List Char} :
    scanNumbers values.length text = values ↔ Numerals values text := by
  induction values generalizing text with
  | nil => exact iff_of_true rfl (.nil text)
  | cons value values inductionHypothesis =>
    rw [List.length_cons, scanNumbers]
    constructor
    · intro scanned
      cases first : scanU64 text with
      | none =>
        rw [first] at scanned
        cases scanned
      | some read =>
        rw [first] at scanned
        obtain ⟨same, others⟩ := List.cons.inj scanned
        obtain ⟨n, rfl, isValue, ends⟩ := scanU64_eq_some_iff.mp first
        rw [← same, ← isValue]
        exact .cons n ends (inductionHypothesis.mp others)
    · intro written
      cases written with
      | cons n ends others =>
        rw [scanU64_eq_some_iff.mpr ⟨n, rfl, rfl, ends⟩]
        exact congrArg _ (inductionHypothesis.mpr others)

/-! ### Lines -/

/-- A string is written as the line of an interface: spaces, the name, a colon, and its numbers
with any text behind them. -/
structure ProcLine.WrittenAs (line : ProcLine) (str : List Char) : Prop where
  parts : ∃ spaces numbers, str = spaces ++ line.name.chars ++ ':' :: numbers ∧
    (∀ c ∈ spaces, c = ' ') ∧ Numerals line.numbers numbers
  noColon : ':' ∉ line.name.chars
  noSpace : line.name.chars.head? ≠ some ' '
  notSkipped : ¬(str.head? = some '\r' ∨ str.head? = some '\n')
  count : line.numbers.length = 16

/-- Without a terminator in the memory the string is all of it. -/
theorem chars_ofMemory {memory : List Char} (noNul : nul ∉ memory) :
    (CString.ofMemory memory).chars = memory :=
  List.takeWhile_eq_self_iff.mpr fun _ member =>
    decide_eq_true fun same => noNul (same ▸ member)

/-- A string of C is the string in its own characters. -/
theorem ofMemory_chars (name : CString) : CString.ofMemory name.chars = name := by
  obtain ⟨chars, noNul⟩ := name
  exact (CString.mk.injEq ..).mpr (chars_ofMemory noNul)

/-- What is taken for the line of an interface is written as one. -/
theorem writtenAs_of_parsed {buf : List Char} {line : ProcLine}
    (parsed : parseProcLine buf = some line) : line.WrittenAs (CString.ofMemory buf).chars := by
  unfold parseProcLine at parsed
  simp only at parsed
  split_ifs at parsed with skipped
  split at parsed
  · cases parsed
  · next p s cut =>
    obtain ⟨join, absent⟩ := strchr_eq_some cut
    split_ifs at parsed with count
    obtain rfl := Option.some.inj parsed
    have noNul : nul ∉ p.dropWhile (· = ' ') := fun member =>
      (CString.ofMemory buf).noNul
        (join ▸ List.mem_append_left _ ((List.dropWhile_sublist _).subset member))
    have name := chars_ofMemory noNul
    refine ⟨⟨p.takeWhile (· = ' '), s, ?_, fun c member => ?_, ?_⟩, ?_, ?_, skipped, count⟩
    · rw [name, List.takeWhile_append_dropWhile, join]
    · have isSpace := List.mem_takeWhile_imp member
      exact of_decide_eq_true isSpace
    · exact scanNumbers_eq_iff.mp (by rw [count])
    · rw [name]
      exact fun member => absent ((List.dropWhile_sublist _).subset member)
    · rw [name]
      intro first
      have stops := List.head?_dropWhile_not (fun c : Char => decide (c = ' ')) p
      rw [first] at stops
      exact absurd stops (by decide)

/-- What is written as the line of an interface is taken for it. -/
theorem ProcLine.WrittenAs.parsed {buf : List Char} {line : ProcLine}
    (written : line.WrittenAs (CString.ofMemory buf).chars) : parseProcLine buf = some line := by
  obtain ⟨⟨spaces, numbers, parts, allSpaces, numerals⟩, noColon, noSpace, notSkipped, count⟩ :=
    written
  have cut : strchr ':' (CString.ofMemory buf).chars =
      (spaces ++ line.name.chars, some numbers) := by
    rw [parts]
    refine strchr_append (fun member => ?_) numbers
    rcases List.mem_append.mp member with inSpaces | inName
    · exact absurd (allSpaces ':' inSpaces) (by decide)
    · exact noColon inName
  have stops : ∀ c ∈ line.name.chars.head?, decide (c = ' ') = false := fun c first =>
    decide_eq_false fun same => noSpace (same ▸ first)
  have name : (spaces ++ line.name.chars).dropWhile (· = ' ') = line.name.chars :=
    (takeWhile_append_stop (fun c member => decide_eq_true (allSpaces c member)) stops).2
  have scanned : scanNumbers 16 numbers = line.numbers := count ▸ scanNumbers_eq_iff.mpr numerals
  unfold parseProcLine
  simp only
  rw [if_neg notSkipped, cut]
  simp only
  rw [name, scanned, if_pos count, ofMemory_chars]

/-- **Which lines are interfaces.** Whatever is in the buffer, `proc_read` takes it for the line
of an interface just when the string in it is a name with spaces in front, a colon, and sixteen
numbers with any text behind them; and it takes from it that name and those numbers. A string
that starts with the end of a line is skipped. -/
theorem parseProcLine_eq_some_iff (buf : List Char) (line : ProcLine) :
    parseProcLine buf = some line ↔ line.WrittenAs (CString.ofMemory buf).chars :=
  ⟨writtenAs_of_parsed, ProcLine.WrittenAs.parsed⟩

/-! ### Printing a file -/

/-- Text at the right of a column. -/
def padLeft (width : Nat) (text : List Char) : List Char :=
  List.replicate (width - text.length) ' ' ++ text

/-- The width of the name and of the numbers of a line. -/
structure ProcLayout where
  name : Nat
  numbers : List Nat

/-- Numbers in columns, with a space in front of each. -/
def printNumbers : List Nat → List UInt64 → List Char
  | _, [] => []
  | widths, number :: numbers =>
    ' ' :: padLeft (widths.headD 0) (Nat.toDigits 10 number.toNat) ++
      printNumbers widths.tail numbers

/-- The line of an interface. -/
def ProcLine.print (layout : ProcLayout) (line : ProcLine) : List Char :=
  padLeft layout.name line.name.chars ++ ':' :: printNumbers layout.numbers line.numbers

/-- A file with two lines of header and a line for each interface. -/
def printProcFile (layout : ProcLayout) (header : List Char × List Char) (table : List ProcLine) :
    List Char :=
  header.1 ++ '\n' :: (header.2 ++ '\n' :: table.flatMap fun line => line.print layout ++ ['\n'])

/-- A line that can be printed: there are sixteen numbers, and nothing in the name ends it or is
skipped in front of it. -/
structure ProcLine.Printable (line : ProcLine) : Prop where
  noColon : ':' ∉ line.name.chars
  noNewline : '\n' ∉ line.name.chars
  noSpace : line.name.chars.head? ≠ some ' '
  noReturn : line.name.chars.head? ≠ some '\r'
  count : line.numbers.length = 16

/-- A number in a column. -/
theorem numeral_column (width : Nat) (number : UInt64) :
    ∃ n : Numeral, n.chars = ' ' :: padLeft width (Nat.toDigits 10 number.toNat) ∧
      n.value = number := by
  refine ⟨⟨' ' :: List.replicate (width - (Nat.toDigits 10 number.toNat).length) ' ', none,
    Nat.toDigits 10 number.toNat, fun c member => ?_,
    fun c member => absurd member (Option.not_mem_none c), Nat.toDigits_ne_nil,
    fun c member => Nat.isDigit_of_mem_toDigits (by decide) (by decide) member⟩, rfl, ?_⟩
  · rcases List.mem_cons.mp member with rfl | padding
    · rfl
    · rw [List.eq_of_mem_replicate padding]
      rfl
  · unfold Numeral.value
    rw [Nat.ofDigitChars_ten_toDigits, if_neg (Nat.not_le.mpr number.toNat_lt), if_neg (by simp),
      UInt64.ofNat_toNat]

/-- Printed numbers are written as numbers, in front of a newline. -/
theorem numerals_printNumbers (widths : List Nat) (numbers : List UInt64) (text : List Char) :
    Numerals numbers (printNumbers widths numbers ++ '\n' :: text) ∧
      NoDigit (printNumbers widths numbers ++ '\n' :: text) := by
  induction numbers generalizing widths with
  | nil => exact ⟨.nil _, fun c first => Option.some.inj first ▸ rfl⟩
  | cons number numbers inductionHypothesis =>
    obtain ⟨others, ends⟩ := inductionHypothesis widths.tail
    obtain ⟨n, chars, value⟩ := numeral_column (widths.headD 0) number
    refine ⟨?_, fun c first => Option.some.inj first ▸ rfl⟩
    rw [printNumbers, ← chars, List.append_assoc, ← value]
    exact .cons n ends others

/-- What numbers are printed with. -/
theorem mem_printNumbers {widths : List Nat} {numbers : List UInt64} {c : Char}
    (member : c ∈ printNumbers widths numbers) : c = ' ' ∨ c.isDigit = true := by
  induction numbers generalizing widths with
  | nil => cases member
  | cons number numbers inductionHypothesis =>
    rw [printNumbers, padLeft] at member
    simp only [List.mem_append, List.mem_cons, List.mem_replicate] at member
    rcases member with (rfl | ⟨-, rfl⟩ | digit) | others
    · exact Or.inl rfl
    · exact Or.inl rfl
    · exact Or.inr (Nat.isDigit_of_mem_toDigits (by decide) (by decide) digit)
    · exact inductionHypothesis others

/-- A character that is no part of the name, no separator and no digit is not printed. -/
theorem not_mem_print (layout : ProcLayout) {line : ProcLine} {c : Char}
    (notName : c ∉ line.name.chars) (notSpace : c ≠ ' ') (notColon : c ≠ ':')
    (notDigit : c.isDigit = false) : c ∉ line.print layout := by
  unfold ProcLine.print padLeft
  simp only [List.mem_append, List.mem_cons, List.mem_replicate, not_or]
  refine ⟨⟨fun padding => notSpace padding.2, notName⟩, notColon, fun member => ?_⟩
  rcases mem_printNumbers member with rfl | digit
  · exact notSpace rfl
  · rw [notDigit] at digit
    cases digit

/-- A printed line is taken for that of its interface. -/
theorem parseProcLine_print (layout : ProcLayout) {line : ProcLine} (printable : line.Printable) :
    parseProcLine (line.print layout ++ ['\n']) = some line := by
  have noNul : nul ∉ line.print layout ++ ['\n'] := fun member => by
    rcases List.mem_append.mp member with inLine | last
    · exact not_mem_print layout line.name.noNul (by decide) (by decide) (by decide) inLine
    · exact absurd (List.mem_singleton.mp last) (by decide)
  have parts : line.print layout ++ ['\n'] =
      List.replicate (layout.name - line.name.chars.length) ' ' ++ line.name.chars ++
        ':' :: (printNumbers layout.numbers line.numbers ++ ['\n']) := by
    unfold ProcLine.print padLeft
    simp only [List.append_assoc, List.cons_append]
  refine ProcLine.WrittenAs.parsed ?_
  rw [chars_ofMemory noNul]
  refine ⟨⟨_, _, parts, fun c member => List.eq_of_mem_replicate member,
    (numerals_printNumbers layout.numbers line.numbers []).1⟩, printable.noColon,
    printable.noSpace, ?_, printable.count⟩
  rw [parts]
  cases padding : layout.name - line.name.chars.length with
  | succ n => exact not_or.mpr ⟨by simp [List.replicate_succ], by simp [List.replicate_succ]⟩
  | zero =>
    rw [List.replicate_zero, List.nil_append]
    cases name : line.name.chars with
    | nil => simp
    | cons c rest =>
      refine not_or.mpr ⟨fun first => printable.noReturn (by rw [name]; exact first),
        fun first => printable.noNewline ?_⟩
      rw [name, Option.some.inj first]
      exact List.mem_cons_self

/-! ### Reading it back -/

/-- A line is what is in front of a newline, with the newline. -/
theorem fileLines_append {line : List Char} (noNewline : '\n' ∉ line) (rest : List Char) :
    fileLines (line ++ '\n' :: rest) = (line ++ ['\n']) :: fileLines rest := by
  induction line with
  | nil => exact if_pos rfl
  | cons c line inductionHypothesis =>
    obtain ⟨other, absent⟩ := not_or.mp (mt List.mem_cons.mpr noNewline)
    rw [List.cons_append, fileLines, if_neg (Ne.symm other), inductionHypothesis absent]
    rfl

/-- So are some lines. -/
theorem fileLines_flatMap (lines : List (List Char)) (noNewline : ∀ line ∈ lines, '\n' ∉ line) :
    fileLines (lines.flatMap fun line => line ++ ['\n']) =
      lines.map fun line => line ++ ['\n'] := by
  induction lines with
  | nil => rfl
  | cons line lines inductionHypothesis =>
    rw [List.flatMap_cons, List.append_assoc, List.singleton_append,
      fileLines_append (noNewline line List.mem_cons_self),
      inductionHypothesis fun other member => noNewline other (List.mem_cons_of_mem _ member),
      List.map_cons]

/-- **A printed file is read back.** For every table of interfaces and every header of two lines
that fit in the buffer, whatever the widths of the columns, `proc_read` takes the printed file for
that table, up to the first interface that is denied. -/
theorem acceptedLines_print (allows : CString → Bool) (layout : ProcLayout)
    (header : List Char × List Char) (table : List ProcLine)
    (printable : ∀ line ∈ table, line.Printable)
    (short : ∀ line ∈ table, (line.print layout).length < 511)
    (oneLine : '\n' ∉ header.1 ∧ '\n' ∉ header.2)
    (shortHeader : header.1.length < 511 ∧ header.2.length < 511) :
    acceptedLines allows (printProcFile layout header table) =
      table.takeWhile fun line => allows line.name := by
  have lines : fileLines (printProcFile layout header table) =
      (header.1 ++ ['\n']) :: (header.2 ++ ['\n']) ::
        table.map fun line => line.print layout ++ ['\n'] := by
    unfold printProcFile
    rw [fileLines_append oneLine.1, fileLines_append oneLine.2]
    have rest := fileLines_flatMap (table.map (ProcLine.print layout)) fun text member => by
      obtain ⟨line, inTable, rfl⟩ := List.mem_map.mp member
      exact not_mem_print layout (printable line inTable).noNewline (by decide) (by decide)
        (by decide)
    rw [List.flatMap_map, List.map_map] at rest
    rw [rest]
    rfl
  have fits : ∀ text ∈ fileLines (printProcFile layout header table), text.length ≤ 511 := by
    rw [lines]
    simp only [List.mem_cons, List.mem_map, forall_eq_or_imp, List.length_append,
      List.length_singleton, forall_exists_index, and_imp, forall_apply_eq_imp_iff₂]
    exact ⟨shortHeader.1, shortHeader.2, short⟩
  have parsed : (table.map fun line => line.print layout ++ ['\n']).filterMap parseProcLine =
      table := by
    rw [List.filterMap_map]
    refine (List.filterMap_congr fun line member => ?_).trans (List.filterMap_some)
    exact parseProcLine_print layout (printable line member)
  unfold acceptedLines
  rw [fgetsAll_eq fits le_rfl, lines]
  exact congrArg (List.takeWhile _) parsed

/-- The header of the file, and columns as wide as most counters. -/
def statsHeader : List Char × List Char :=
  (['I', 'n', 't', 'e', 'r', '-', '|'], [' ', 'f', 'a', 'c', 'e', ' ', '|'])

def statsLayout : ProcLayout := ⟨6, List.replicate 16 8⟩

/-- An interface that has received so many bytes and nothing else. -/
def receivedLine (name : CString) (received : UInt64) : ProcLine :=
  ⟨name, received :: List.replicate 15 0⟩

/-- `eth0` and `wlan0` are read back. -/
theorem acceptedLines_print_twoInterfaces :
    acceptedLines (fun _ => true)
      (printProcFile statsLayout statsHeader [receivedLine eth0 4294967295, receivedLine wlan0 7]) =
        [receivedLine eth0 4294967295, receivedLine wlan0 7] := by
  have printable : ∀ line ∈ [receivedLine eth0 4294967295, receivedLine wlan0 7],
      line.Printable := fun line member => by
    simp only [List.mem_cons, List.not_mem_nil, or_false] at member
    rcases member with rfl | rfl <;> exact ⟨by decide, by decide, by decide, by decide, rfl⟩
  exact acceptedLines_print (fun _ => true) statsLayout statsHeader _ printable
    (by decide +kernel) (by decide) (by decide)

end Bmon
