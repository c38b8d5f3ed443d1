/-
This file models how the format output module of `out_format.c` takes apart its format string,
and how it writes an element by the result.

`format_probe` works in place: a token is a pointer into the format string, and it ends at the
next zero character that the scan has written over the string. The main result is that the
tokens, read when the scan is over, are exactly what the grammar of format strings says.
-/

import Bmon.ModuleConf

namespace Bmon

/-- The kind of a token: text to be written as it is, or the name of a field. -/
inductive OtType where
  | otString
  | otToken
  deriving DecidableEq, Repr

/-- `struct out_token`. The text is a position in the format string. -/
structure OutToken where
  otType : OtType
  otStr : Nat
  deriving DecidableEq, Repr

/-- The state of the format module: the memory of its format string, and its tokens. -/
structure FormatModule where
  cFormat : List Char
  outTokens : List OutToken
  deriving DecidableEq, Repr

/-- The string that starts at a position of a buffer. -/
def stringAt (buffer : List Char) (position : Nat) : List Char :=
  (buffer.drop position).takeWhile (· ≠ nul)

/-- The character an escape sequence stands for, by the character after the backslash. -/
def escape (c : Char) : Option Char :=
  if c = 'n' then some '\n'
  else if c = 't' then some '\t'
  else if c = 'r' then some '\r'
  else if c = 'v' then some '\x0b'
  else if c = 'b' then some '\x08'
  else if c = 'f' then some '\x0c'
  else if c = 'a' then some '\x07'
  else none

/-- Outside of a buffer there is nothing but zeroes. -/
theorem lt_length_of_getD_ne {buffer : List Char} {position : Nat}
    (inside : buffer.getD position nul ≠ nul) : position < buffer.length := by
  by_contra outside
  rw [List.getD_eq_getElem?_getD, List.getElem?_eq_none (Nat.le_of_not_lt outside)] at inside
  exact inside rfl

/-- The scan of `format_probe` from position `p` on, with the text it complains with if it
fails. -/
def formatProbeFrom (m : FormatModule) (p : Nat) (newOne : Bool) :
    FormatModule × Option String :=
  if m.cFormat.getD p nul = nul then (m, none)
  else if m.cFormat.getD p nul = '$' ∧ m.cFormat.getD (p + 1) nul = '(' then
    if m.cFormat.getD (p + 2) nul = nul then (m, some "Unexpected end of format string\n")
    else
      match strchr ')' (stringAt m.cFormat (p + 2)) with
      | (_, none) => (m, some "Missing ')' in format string\n")
      | (name, some _) =>
        -- the name ends at the parenthesis, and the text before it at the dollar sign
        let e := p + 2 + name.length
        formatProbeFrom ⟨(m.cFormat.set p nul).set e nul, m.outTokens ++ [⟨.otToken, p + 2⟩]⟩
          (e + 1) true
  else
    match if m.cFormat.getD p nul = '\\' then escape (m.cFormat.getD (p + 1) nul) else none with
    | some control =>
      -- the character is written over the letter, and the text before it ends at the backslash
      formatProbeFrom ⟨(m.cFormat.set (p + 1) control).set p nul,
        m.outTokens ++ [⟨.otString, p + 1⟩]⟩ (p + 2) false
    | none =>
      if newOne then
        formatProbeFrom ⟨m.cFormat, m.outTokens ++ [⟨.otString, p⟩]⟩ (p + 1) false
      else formatProbeFrom m (p + 1) newOne
termination_by m.cFormat.length - p
decreasing_by
  all_goals
    have inside := lt_length_of_getD_ne ‹¬m.cFormat.getD p nul = nul›
    try simp only [List.length_set]
    omega

/-- `format_probe`. -/
def formatProbe (m : FormatModule) : FormatModule × Option String := formatProbeFrom m 0 true

/-- The format module with a format string it has not taken apart yet. -/
def FormatModule.fresh (format : CString) : FormatModule := ⟨format.memory, []⟩

/-- `draw_element`, given what `get_token` says of a field of the element. -/
def drawElement (getToken : List Char → Option (List Char)) (m : FormatModule) : List Char :=
  m.outTokens.flatMap fun token =>
    match token.otType with
    | .otString => stringAt m.cFormat token.otStr
    | .otToken => (getToken (stringAt m.cFormat token.otStr)).getD []

/-! ### The grammar of format strings -/

/-- A part of a format string: a character to be written, or the name of a field. -/
inductive FormatItem where
  | char (c : Char)
  | placeholder (name : List Char)
  deriving DecidableEq, Repr

/-- The parts of a format string from left to right; nothing if a `$(` is never closed. -/
def formatItems (format : List Char) : Option (List FormatItem) :=
  match format with
  | [] => some []
  | c :: rest =>
    if c = '$' ∧ rest.head? = some '(' then
      match _closed : strchr ')' rest.tail with
      | (_, none) => none
      | (name, some after) => (formatItems after).map (.placeholder name :: ·)
    else
      match if c = '\\' then rest.head?.bind escape else none with
      | some control => (formatItems rest.tail).map (.char control :: ·)
      | none => (formatItems rest).map (.char c :: ·)
termination_by format.length
decreasing_by
  · have joined := congrArg List.length (strchr_join ')' rest.tail)
    simp only [_closed, Option.elim_some, List.length_append, List.length_cons,
      List.length_tail] at joined
    simp only [List.length_cons]
    omega
  · simp only [List.length_tail, List.length_cons]
    omega
  · simp

theorem formatItems_placeholder {name : List Char} (noClose : ')' ∉ name) (after : List Char) :
    formatItems ('$' :: '(' :: (name ++ ')' :: after)) =
      (formatItems after).map (.placeholder name :: ·) := by
  rw [formatItems, if_pos ⟨rfl, rfl⟩, List.tail_cons]
  split
  · rename_i cut
    rw [strchr_append noClose] at cut
    cases cut
  · rename_i cut
    rw [strchr_append noClose] at cut
    cases cut
    rfl

theorem formatItems_unclosed {name : List Char} (noClose : ')' ∉ name) :
    formatItems ('$' :: '(' :: name) = none := by
  rw [formatItems, if_pos ⟨rfl, rfl⟩, List.tail_cons]
  split
  · rfl
  · rename_i cut
    rw [strchr_of_not_mem noClose] at cut
    cases cut

theorem formatItems_escape {c control : Char} (escaped : escape c = some control)
    (rest : List Char) :
    formatItems ('\\' :: c :: rest) = (formatItems rest).map (.char control :: ·) := by
  rw [formatItems, if_neg (by simp), if_pos rfl]
  simp [escaped]

theorem formatItems_literal {c : Char} {rest : List Char}
    (noField : ¬(c = '$' ∧ rest.head? = some '('))
    (noEscape : (if c = '\\' then rest.head?.bind escape else none) = none) :
    formatItems (c :: rest) = (formatItems rest).map (.char c :: ·) := by
  rw [formatItems, if_neg noField, noEscape]

/-! ### Positions behind a part of the buffer -/

theorem getD_append_length_add (before after : List Char) (position : Nat) :
    (before ++ after).getD (before.length + position) nul = after.getD position nul := by
  simp [List.getD_eq_getElem?_getD, List.getElem?_append_right]

theorem set_append_length_add (before after : List Char) (position : Nat) (c : Char) :
    (before ++ after).set (before.length + position) c = before ++ after.set position c := by
  rw [List.set_append_right _ _ (Nat.le_add_right _ _), Nat.add_sub_cancel_left]

theorem stringAt_append_length_add (before after : List Char) (position : Nat) :
    stringAt (before ++ after) (before.length + position) = stringAt after position := by
  rw [stringAt, List.drop_append, List.drop_eq_nil_of_le (Nat.le_add_right _ _),
    Nat.add_sub_cancel_left, List.nil_append, stringAt]

/-- A string ends at the first zero. -/
theorem takeWhile_append_nul {text : List Char} (noNul : nul ∉ text) (after : List Char) :
    (text ++ nul :: after).takeWhile (· ≠ nul) = text := by
  rw [List.takeWhile_append_of_pos]
  · simp
  · intro c member
    simpa using fun isNul : c = nul => noNul (isNul ▸ member)

/-! ### What one turn of the scan does -/

theorem formatProbeFrom_end (before : List Char) (tokens : List OutToken) (newOne : Bool) :
    formatProbeFrom ⟨before ++ [nul], tokens⟩ before.length newOne =
      (⟨before ++ [nul], tokens⟩, none) := by
  rw [formatProbeFrom, if_pos]
  exact getD_append_length_add before [nul] 0

/-- A closed placeholder becomes a token, and the scan goes on behind it. -/
theorem formatProbeFrom_placeholder (before after : List Char) (tokens : List OutToken)
    (newOne : Bool) {name : List Char} (noNul : nul ∉ name) (noClose : ')' ∉ name) :
    formatProbeFrom ⟨before ++ '$' :: '(' :: (name ++ ')' :: after), tokens⟩ before.length newOne =
      formatProbeFrom ⟨(before ++ nul :: '(' :: (name ++ [nul])) ++ after,
        tokens ++ [⟨.otToken, before.length + 2⟩]⟩
        (before ++ nul :: '(' :: (name ++ [nul])).length true := by
  have dollar := getD_append_length_add before ('$' :: '(' :: (name ++ ')' :: after)) 0
  have parenthesis := getD_append_length_add before ('$' :: '(' :: (name ++ ')' :: after)) 1
  have start := getD_append_length_add before ('$' :: '(' :: (name ++ ')' :: after)) 2
  have text := stringAt_append_length_add before ('$' :: '(' :: (name ++ ')' :: after)) 2
  have given : (name ++ ')' :: after).getD 0 nul ≠ nul := by
    cases name with
    | nil => exact fun isNul => absurd isNul (by decide : ')' ≠ nul)
    | cons c name => exact fun isNul => noNul (List.mem_cons.mpr (Or.inl isNul.symm))
  have cut : strchr ')' (stringAt ('$' :: '(' :: (name ++ ')' :: after)) 2) =
      (name, some (after.takeWhile (· ≠ nul))) := by
    have whole : (name ++ ')' :: after).takeWhile (· ≠ nul) =
        name ++ ')' :: after.takeWhile (· ≠ nul) := by
      rw [List.takeWhile_append_of_pos]
      · rw [List.takeWhile_cons_of_pos (by decide)]
      · intro c member
        simpa using fun isNul : c = nul => noNul (isNul ▸ member)
    rw [stringAt, List.drop_succ_cons, List.drop_succ_cons, List.drop_zero, whole,
      strchr_append noClose]
  rw [formatProbeFrom]
  simp only [Nat.add_zero] at dollar
  simp only [dollar, parenthesis, start, text, cut, List.getD_cons_zero, List.getD_cons_succ,
    if_neg given, if_neg (by decide : ¬ '$' = nul), and_self, if_true]
  have written : ((before ++ '$' :: '(' :: (name ++ ')' :: after)).set before.length nul).set
      (before.length + 2 + name.length) nul =
        (before ++ nul :: '(' :: (name ++ [nul])) ++ after := by
    have first := set_append_length_add before ('$' :: '(' :: (name ++ ')' :: after)) 0 nul
    have second := set_append_length_add (before ++ nul :: '(' :: name) (')' :: after) 0 nul
    simp only [Nat.add_zero, List.set_cons_zero, List.length_append, List.length_cons,
      List.append_assoc, List.cons_append] at first second
    rw [first,
      show before.length + 2 + name.length = before.length + (name.length + 1 + 1) by omega,
      second]
    simp
  rw [written, show before.length + 2 + name.length + 1 =
    (before ++ nul :: '(' :: (name ++ [nul])).length by simp; omega]

/-- A placeholder that is not closed fails the scan. -/
theorem formatProbeFrom_unclosed (before : List Char) (tokens : List OutToken) (newOne : Bool)
    {name : List Char} (noNul : nul ∉ name) (noClose : ')' ∉ name) :
    formatProbeFrom ⟨before ++ '$' :: '(' :: (name ++ [nul]), tokens⟩ before.length newOne =
      (⟨before ++ '$' :: '(' :: (name ++ [nul]), tokens⟩,
        some (if name = [] then "Unexpected end of format string\n"
          else "Missing ')' in format string\n")) := by
  have dollar := getD_append_length_add before ('$' :: '(' :: (name ++ [nul])) 0
  have parenthesis := getD_append_length_add before ('$' :: '(' :: (name ++ [nul])) 1
  have start := getD_append_length_add before ('$' :: '(' :: (name ++ [nul])) 2
  have text := stringAt_append_length_add before ('$' :: '(' :: (name ++ [nul])) 2
  have cut : strchr ')' (stringAt ('$' :: '(' :: (name ++ [nul])) 2) = (name, none) := by
    rw [stringAt, List.drop_succ_cons, List.drop_succ_cons, List.drop_zero,
      takeWhile_append_nul noNul, strchr_of_not_mem noClose]
  rw [formatProbeFrom]
  simp only [Nat.add_zero] at dollar
  simp only [dollar, parenthesis, start, text, cut, List.getD_cons_zero, List.getD_cons_succ,
    if_neg (by decide : ¬ '$' = nul), and_self, if_true]
  cases name with
  | nil => rfl
  | cons c name =>
    have given : c ≠ nul := fun isNul => noNul (List.mem_cons.mpr (Or.inl isNul.symm))
    simp [given]

/-- An escape sequence becomes a token that starts with the character it stands for. -/
theorem formatProbeFrom_escape (before after : List Char) (tokens : List OutToken)
    (newOne : Bool) {c control : Char} (escaped : escape c = some control) :
    formatProbeFrom ⟨before ++ '\\' :: c :: after, tokens⟩ before.length newOne =
      formatProbeFrom ⟨(before ++ [nul, control]) ++ after,
        tokens ++ [⟨.otString, before.length + 1⟩]⟩ (before ++ [nul, control]).length false := by
  have backslash := getD_append_length_add before ('\\' :: c :: after) 0
  have letter := getD_append_length_add before ('\\' :: c :: after) 1
  rw [formatProbeFrom]
  simp only [Nat.add_zero] at backslash
  simp only [backslash, letter, escaped, List.getD_cons_zero, List.getD_cons_succ,
    if_neg (by decide : ¬ '\\' = nul), if_true]
  rw [if_neg (by simp)]
  have written : ((before ++ '\\' :: c :: after).set (before.length + 1) control).set
      before.length nul = (before ++ [nul, control]) ++ after := by
    have second := set_append_length_add before ('\\' :: c :: after) 1 control
    have first := set_append_length_add before ('\\' :: control :: after) 0 nul
    simp only [Nat.add_zero, List.set_cons_zero, List.set_cons_succ] at first second
    rw [second, first]
    simp
  rw [written, List.length_append]
  rfl

/-- Any other character stays where it is, in the token before it if there is one. -/
theorem formatProbeFrom_literal (before after : List Char) (tokens : List OutToken)
    (newOne : Bool) {c : Char} (given : c ≠ nul) (noField : ¬(c = '$' ∧ after.headD nul = '('))
    (noEscape : ¬(c = '\\' ∧ (escape (after.headD nul)).isSome)) :
    formatProbeFrom ⟨before ++ c :: after, tokens⟩ before.length newOne =
      formatProbeFrom ⟨(before ++ [c]) ++ after,
        if newOne then tokens ++ [⟨.otString, before.length⟩] else tokens⟩
        (before ++ [c]).length false := by
  have first := getD_append_length_add before (c :: after) 0
  have second := getD_append_length_add before (c :: after) 1
  have next : after.getD 0 nul = after.headD nul := by cases after <;> rfl
  have plain : (if c = '\\' then escape (after.headD nul) else none) = none := by
    by_cases backslash : c = '\\'
    · rw [if_pos backslash]
      exact Option.not_isSome_iff_eq_none.mp fun some => noEscape ⟨backslash, some⟩
    · rw [if_neg backslash]
  rw [formatProbeFrom]
  simp only [Nat.add_zero] at first
  simp only [first, second, next, plain, List.getD_cons_zero, List.getD_cons_succ, if_neg given,
    if_neg noField]
  rw [List.append_cons, List.length_append]
  cases newOne <;> rfl

/-! ### What the tokens say -/

/-- The parts of the format string a token stands for, when the scan has left the buffer. -/
def OutToken.items (cFormat : List Char) (token : OutToken) : List FormatItem :=
  match token.otType with
  | .otString => (stringAt cFormat token.otStr).map .char
  | .otToken => [.placeholder (stringAt cFormat token.otStr)]

/-- The scan ends well, and what it has left behind a part of the buffer says the given parts:
first what continues the last token, if that is still open, and then the new tokens. -/
def Scans (before : List Char) (tokens : List OutToken) (newOne : Bool) (items : List FormatItem)
    (result : FormatModule × Option String) : Prop :=
  ∃ written more, result = (⟨before ++ written, tokens ++ more⟩, none) ∧
    (if newOne then [] else (written.takeWhile (· ≠ nul)).map .char) ++
      more.flatMap (OutToken.items (before ++ written)) = items

theorem Scans.end (before : List Char) (tokens : List OutToken) (newOne : Bool) :
    Scans before tokens newOne [] (⟨before ++ [nul], tokens⟩, none) := by
  refine ⟨[nul], [], by rw [List.append_nil], ?_⟩
  cases newOne <;> simp

theorem Scans.placeholder {before name : List Char} {tokens : List OutToken} {newOne : Bool}
    {items : List FormatItem} {result : FormatModule × Option String} (noNul : nul ∉ name)
    (rest : Scans (before ++ nul :: '(' :: (name ++ [nul]))
      (tokens ++ [⟨.otToken, before.length + 2⟩]) true items result) :
    Scans before tokens newOne (.placeholder name :: items) result := by
  obtain ⟨written, more, rfl, rfl⟩ := rest
  refine ⟨nul :: '(' :: (name ++ nul :: written), ⟨.otToken, before.length + 2⟩ :: more,
    by simp, ?_⟩
  have text : stringAt (before ++ nul :: '(' :: (name ++ nul :: written)) (before.length + 2) =
      name := by
    rw [stringAt_append_length_add]
    exact takeWhile_append_nul noNul written
  have buffer : before ++ nul :: '(' :: (name ++ [nul]) ++ written =
      before ++ nul :: '(' :: (name ++ nul :: written) := by simp
  rw [buffer, List.flatMap_cons]
  simp [OutToken.items, text]

theorem Scans.escape {before : List Char} {tokens : List OutToken} {newOne : Bool}
    {items : List FormatItem} {result : FormatModule × Option String} {control : Char}
    (given : control ≠ nul)
    (rest : Scans (before ++ [nul, control]) (tokens ++ [⟨.otString, before.length + 1⟩]) false
      items result) :
    Scans before tokens newOne (.char control :: items) result := by
  obtain ⟨written, more, rfl, rfl⟩ := rest
  refine ⟨nul :: control :: written, ⟨.otString, before.length + 1⟩ :: more, by simp, ?_⟩
  have text : stringAt (before ++ nul :: control :: written) (before.length + 1) =
      control :: written.takeWhile (· ≠ nul) := by
    rw [stringAt_append_length_add]
    exact List.takeWhile_cons_of_pos (by simpa using given)
  have buffer : before ++ [nul, control] ++ written = before ++ nul :: control :: written := by
    simp
  rw [buffer, List.flatMap_cons]
  simp [OutToken.items, text]

theorem Scans.literal {before : List Char} {tokens : List OutToken} {newOne : Bool}
    {items : List FormatItem} {result : FormatModule × Option String} {c : Char}
    (given : c ≠ nul)
    (rest : Scans (before ++ [c])
      (if newOne then tokens ++ [⟨.otString, before.length⟩] else tokens) false items result) :
    Scans before tokens newOne (.char c :: items) result := by
  obtain ⟨written, more, rfl, rfl⟩ := rest
  have buffer : before ++ [c] ++ written = before ++ c :: written := by simp
  have whole : (c :: written).takeWhile (· ≠ nul) = c :: written.takeWhile (· ≠ nul) :=
    List.takeWhile_cons_of_pos (by simpa using given)
  cases newOne with
  | false =>
    refine ⟨c :: written, more, by simp, ?_⟩
    rw [if_neg Bool.false_ne_true, if_neg Bool.false_ne_true, whole, buffer]
    rfl
  | true =>
    have text : stringAt (before ++ c :: written) before.length =
        c :: written.takeWhile (· ≠ nul) := by
      rw [← whole]
      exact stringAt_append_length_add before (c :: written) 0
    refine ⟨c :: written, ⟨.otString, before.length⟩ :: more, by simp, ?_⟩
    rw [buffer, List.flatMap_cons]
    simp [OutToken.items, text]

/-- No escape sequence stands for the terminator. -/
theorem escape_ne_nul {c control : Char} (escaped : escape c = some control) : control ≠ nul := by
  unfold escape at escaped
  split_ifs at escaped <;> obtain rfl := Option.some.inj escaped <;> decide

/-! ### The shapes of the grammar's cases -/

theorem strchr_eq_none {c : Char} {str name : List Char} (cut : strchr c str = (name, none)) :
    str = name ∧ c ∉ str := by
  have joined := strchr_join c str
  have absent := strchr_fst_not_mem c str
  rw [cut] at joined absent
  rw [Option.elim_none, List.append_nil] at joined
  exact ⟨joined.symm, joined ▸ absent⟩

theorem strchr_eq_some {c : Char} {str name after : List Char}
    (cut : strchr c str = (name, some after)) : str = name ++ c :: after ∧ c ∉ name := by
  have joined := strchr_join c str
  have absent := strchr_fst_not_mem c str
  rw [cut] at joined absent
  exact ⟨joined.symm, absent⟩

theorem escape_shape {c control : Char} {rest : List Char}
    (escaped : (if c = '\\' then rest.head?.bind escape else none) = some control) :
    c = '\\' ∧ ∃ letter rest', rest = letter :: rest' ∧ escape letter = some control := by
  split_ifs at escaped with backslash
  obtain ⟨letter, first, escaped⟩ := Option.bind_eq_some_iff.mp escaped
  obtain ⟨rest', rfl⟩ := List.head?_eq_some_iff.mp first
  exact ⟨backslash, letter, rest', rfl, escaped⟩

/-- The end of the string opens no placeholder. -/
theorem noField_next {c : Char} {rest : List Char}
    (noField : ¬(c = '$' ∧ rest.head? = some '(')) :
    ¬(c = '$' ∧ (rest ++ [nul]).headD nul = '(') := by
  rintro ⟨dollar, opens⟩
  cases rest with
  | nil => exact absurd opens (by decide : nul ≠ '(')
  | cons next rest => exact noField ⟨dollar, congrArg some opens⟩

/-- The end of the string makes no escape sequence. -/
theorem noEscape_next {c : Char} {rest : List Char}
    (noEscape : (if c = '\\' then rest.head?.bind escape else none) = none) :
    ¬(c = '\\' ∧ (escape ((rest ++ [nul]).headD nul)).isSome) := by
  rintro ⟨backslash, escaped⟩
  cases rest with
  | nil => exact absurd escaped (by decide : ¬(escape nul).isSome)
  | cons next rest =>
    rw [if_pos backslash] at noEscape
    exact absurd noEscape (Option.isSome_iff_ne_none.mp escaped)

/-- The scan from any position on, with any tokens before it, agrees with the grammar. -/
theorem formatProbeFrom_items (rest before : List Char) (tokens : List OutToken) (newOne : Bool)
    (noNul : nul ∉ rest) :
    (formatItems rest = none →
      (formatProbeFrom ⟨before ++ (rest ++ [nul]), tokens⟩ before.length newOne).2 ≠ none) ∧
    ∀ items, formatItems rest = some items → Scans before tokens newOne items
      (formatProbeFrom ⟨before ++ (rest ++ [nul]), tokens⟩ before.length newOne) := by
  induction rest using formatItems.induct generalizing before tokens newOne with
  | case1 =>
    rw [List.nil_append, formatProbeFrom_end, formatItems]
    refine ⟨nofun, fun items parsed => ?_⟩
    obtain rfl := Option.some.inj parsed
    exact Scans.end before tokens newOne
  | case2 c rest field name cut =>
    obtain ⟨rfl, opens⟩ := field
    obtain ⟨rest, rfl⟩ := List.head?_eq_some_iff.mp opens
    rw [List.tail_cons] at cut
    obtain ⟨rfl, noClose⟩ := strchr_eq_none cut
    have plain : nul ∉ rest := fun member => noNul (by simp [member])
    rw [formatItems_unclosed noClose, List.cons_append, List.cons_append,
      formatProbeFrom_unclosed before tokens newOne plain noClose]
    exact ⟨fun _ => Option.some_ne_none _, nofun⟩
  | case3 c rest field name after cut inductionHypothesis =>
    obtain ⟨rfl, opens⟩ := field
    obtain ⟨rest, rfl⟩ := List.head?_eq_some_iff.mp opens
    rw [List.tail_cons] at cut
    obtain ⟨rfl, noClose⟩ := strchr_eq_some cut
    have plain : nul ∉ name := fun member => noNul (by simp [member])
    have hypothesis := inductionHypothesis (before ++ nul :: '(' :: (name ++ [nul]))
      (tokens ++ [⟨.otToken, before.length + 2⟩]) true fun member => noNul (by simp [member])
    rw [formatItems_placeholder noClose, List.cons_append, List.cons_append, List.append_assoc,
      List.cons_append, formatProbeFrom_placeholder before _ tokens newOne plain noClose]
    refine ⟨fun fails => hypothesis.1 (Option.map_eq_none_iff.mp fails), fun items parsed => ?_⟩
    obtain ⟨others, parsedRest, rfl⟩ := Option.map_eq_some_iff.mp parsed
    exact (hypothesis.2 others parsedRest).placeholder plain
  | case4 c rest noField control escaped inductionHypothesis =>
    obtain ⟨rfl, letter, rest, rfl, escaped⟩ := escape_shape escaped
    rw [List.tail_cons] at inductionHypothesis
    have hypothesis := inductionHypothesis (before ++ [nul, control])
      (tokens ++ [⟨.otString, before.length + 1⟩]) false fun member => noNul (by simp [member])
    rw [formatItems_escape escaped, List.cons_append, List.cons_append,
      formatProbeFrom_escape before _ tokens newOne escaped]
    refine ⟨fun fails => hypothesis.1 (Option.map_eq_none_iff.mp fails), fun items parsed => ?_⟩
    obtain ⟨others, parsedRest, rfl⟩ := Option.map_eq_some_iff.mp parsed
    exact (hypothesis.2 others parsedRest).escape (escape_ne_nul escaped)
  | case5 c rest noField noEscape inductionHypothesis =>
    have given : c ≠ nul := fun isNul => noNul (List.mem_cons.mpr (Or.inl isNul.symm))
    have hypothesis := inductionHypothesis (before ++ [c])
      (if newOne then tokens ++ [⟨.otString, before.length⟩] else tokens) false
      fun member => noNul (List.mem_cons_of_mem _ member)
    rw [formatItems_literal noField noEscape, List.cons_append,
      formatProbeFrom_literal before _ tokens newOne given (noField_next noField)
        (noEscape_next noEscape)]
    refine ⟨fun fails => hypothesis.1 (Option.map_eq_none_iff.mp fails), fun items parsed => ?_⟩
    obtain ⟨others, parsedRest, rfl⟩ := Option.map_eq_some_iff.mp parsed
    exact (hypothesis.2 others parsedRest).literal given

/-! ### The whole format string -/

/-- What the tokens of the module say together. -/
def FormatModule.items (m : FormatModule) : List FormatItem :=
  m.outTokens.flatMap (OutToken.items m.cFormat)

/-- A format string given to a fresh module is taken apart as the grammar says: the module
fails exactly if a placeholder is never closed, and its tokens say every part once, in order. -/
theorem formatProbe_items (format : CString) :
    formatItems format.chars =
      if (formatProbe (FormatModule.fresh format)).2 = none then
        some (formatProbe (FormatModule.fresh format)).1.items
      else none := by
  have spec := formatProbeFrom_items format.chars [] [] true format.noNul
  change (_ → (formatProbe (FormatModule.fresh format)).2 ≠ none) ∧
    ∀ items, _ → Scans [] [] true items (formatProbe (FormatModule.fresh format)) at spec
  cases parsed : formatItems format.chars with
  | none => rw [if_neg (spec.1 parsed)]
  | some items =>
    obtain ⟨written, more, result, said⟩ := spec.2 items parsed
    rw [if_pos (congrArg Prod.snd result), result]
    exact congrArg some said.symm

end Bmon
