import CatplayFirmware.Support.Brackets
import CatplayFirmware.Support.Bytes

/-!
# Files of libconfig

The tokens of a file are its words, its strings and its marks. Between tokens there are spaces, and
comments: from `#` or `//` to the end of the line, and between `/*` and `*/`. A string ends at the
first quote that does not stand behind a backslash.
-/

namespace Libconfig

open Bytes Brackets

inductive Token where
  | word (w : Bytes)
  | string (s : Bytes)
  | mark (b : UInt8)
  deriving DecidableEq

def isSpace (b : UInt8) : Bool := decide (9 ≤ b ∧ b ≤ 13 ∨ b = 32)

/-- The marks of the grammar. -/
def isMark (b : UInt8) : Bool := decide (b ∈ ascii "\x7b\x7d()[]=:;,")

/-- Where the lexer is: between tokens, in a word, behind a slash that may begin a comment, in a
comment to the end of the line, in one between marks, behind a star in it, in a string, or behind a
backslash in it. -/
inductive Mode where
  | code
  | word (w : Bytes)
  | slash
  | line
  | block
  | star
  | string (s : Bytes)
  | escape (s : Bytes)
  deriving DecidableEq

/-- The lexer is outside of strings and comments. -/
def Mode.Plain : Mode → Prop
  | .code | .word _ | .slash => True
  | _ => False

instance (mode : Mode) : Decidable mode.Plain := by
  cases mode <;> unfold Mode.Plain <;> infer_instance

/-- A byte that begins a token or a comment, or stands between them. -/
def begin (b : UInt8) : Mode × List Token :=
  if isSpace b then (.code, [])
  else if isMark b then (.code, [.mark b])
  else if b = byte '"' then (.string [], [])
  else if b = byte '#' then (.line, [])
  else if b = byte '/' then (.slash, [])
  else (.word [b], [])

/-- A byte that belongs to a word. -/
def isWordByte (b : UInt8) : Bool :=
  !isSpace b && !isMark b && b != byte '"' && b != byte '#' && b != byte '/'

/-- What is read before a byte that ends it. -/
def Mode.ended : Mode → List Token
  | .word w => [.word w]
  | .slash => [.mark (byte '/')]
  | _ => []

/-- The lexer reads a byte. -/
def step : Mode → UInt8 → Mode × List Token
  | .code, b => begin b
  | .word w, b =>
    if isWordByte b then (.word (w ++ [b]), [])
    else ((begin b).1, .word w :: (begin b).2)
  | .slash, b =>
    if b = byte '/' then (.line, [])
    else if b = byte '*' then (.block, [])
    else ((begin b).1, .mark (byte '/') :: (begin b).2)
  | .line, b => if b = byte '\n' then (.code, []) else (.line, [])
  | .block, b => if b = byte '*' then (.star, []) else (.block, [])
  | .star, b =>
    if b = byte '/' then (.code, []) else if b = byte '*' then (.star, []) else (.block, [])
  | .string s, b =>
    if b = byte '"' then (.code, [.string s])
    else if b = byte '\\' then (.escape s, [])
    else (.string (s ++ [b]), [])
  | .escape s, b => (.string (s ++ [byte '\\', b]), [])

/-- The lexer reads bytes. -/
def scan : Mode → Bytes → Mode × List Token
  | mode, [] => (mode, [])
  | mode, b :: bytes =>
    ((scan (step mode b).1 bytes).1, (step mode b).2 ++ (scan (step mode b).1 bytes).2)

/-- Where the lexer is behind bytes. -/
def modeOf (bytes : Bytes) : Mode := (scan .code bytes).1

/-- The tokens of a file. -/
def tokens (bytes : Bytes) : List Token := (scan .code bytes).2 ++ (modeOf bytes).ended

/-! ### Settings -/

inductive Kind where
  | group
  | list
  | array
  deriving DecidableEq

def side : Token → Side Kind
  | .mark b =>
    if b = byte '{' then .opening .group
    else if b = byte '}' then .closing .group
    else if b = byte '(' then .opening .list
    else if b = byte ')' then .closing .list
    else if b = byte '[' then .opening .array
    else if b = byte ']' then .closing .array
    else .plain
  | _ => .plain

/-- The name of the setting whose value begins behind tokens. -/
def nameBehind (before : List Token) : Option Bytes :=
  match before.reverse with
  | .mark sep :: .word w :: _ => if sep = byte '=' ∨ sep = byte ':' then some w else none
  | _ => none

/-- A bracket is the value of a setting. -/
def IsValueOf (name : Bytes) (kind : Kind) (frame : Frame Token Kind) : Prop :=
  frame.kind = kind ∧ nameBehind frame.before = some name

instance (name : Bytes) (kind : Kind) (frame : Frame Token Kind) :
    Decidable (IsValueOf name kind frame) := inferInstanceAs (Decidable (_ ∧ _))

/-- A group: what stands between its braces has no open brackets. -/
def IsGroup (ts : List Token) : Prop :=
  ∃ body, ts = .mark (byte '{') :: (body ++ [.mark (byte '}')]) ∧ Balanced side body

/-- Values one behind the other, with a comma between two. -/
def commaSeparated (values : List (List Token)) : List Token :=
  [Token.mark (byte ',')].intercalate values

/-! ### The lexer -/

theorem scan_append (mode : Mode) (xs ys : Bytes) :
  scan mode (xs ++ ys) =
    ((scan (scan mode xs).1 ys).1, (scan mode xs).2 ++ (scan (scan mode xs).1 ys).2)
  := by
  induction xs generalizing mode with
  | nil => rfl
  | cons b xs ih => rw [List.cons_append, scan, ih, scan, List.append_assoc]

theorem modeOf_append (xs ys : Bytes) : modeOf (xs ++ ys) = (scan (modeOf xs) ys).1 := by
  rw [modeOf, scan_append, modeOf]

/-- Behind bytes that end outside of everything the tokens begin anew. -/
theorem tokens_append {xs : Bytes} (h : modeOf xs = .code) (ys : Bytes) :
  tokens (xs ++ ys) = tokens xs ++ tokens ys
  := by
  have hmode : modeOf (xs ++ ys) = modeOf ys := by rw [modeOf_append, h, modeOf]
  have hended : (Mode.code).ended = [] := rfl
  rw [tokens, tokens, tokens, hmode, h, scan_append, ← modeOf, h, hended, List.append_nil,
    List.append_assoc]

theorem scan_spaces {bytes : Bytes} (h : ∀ b ∈ bytes, isSpace b = true) :
  scan .code bytes = (.code, [])
  := by
  induction bytes with
  | nil => rfl
  | cons b bytes ih =>
      have hstep : step .code b = (.code, []) := by
        rw [step, begin, if_pos (h b List.mem_cons_self)]
      rw [scan, hstep, ih fun b hb => h b (List.mem_cons_of_mem _ hb)]
      rfl

theorem Mode.Plain.cases {mode : Mode} (h : mode.Plain) :
  mode = .code ∨ (∃ w, mode = .word w) ∨ mode = .slash
  := by
  cases mode with
  | code => exact .inl rfl
  | word w => exact .inr (.inl ⟨w, rfl⟩)
  | slash => exact .inr (.inr rfl)
  | line => exact h.elim
  | block => exact h.elim
  | star => exact h.elim
  | string s => exact h.elim
  | escape s => exact h.elim

/-- A byte that begins a token ends the one before it. -/
theorem step_of_plain {mode : Mode} (h : mode.Plain) {b : UInt8} (hb : isWordByte b = false)
    (hslash : b ≠ byte '/') (hstar : b ≠ byte '*') :
  step mode b = ((begin b).1, mode.ended ++ (begin b).2)
  := by
  obtain rfl | ⟨w, rfl⟩ | rfl := h.cases
  · rfl
  · simp [step, hb, Mode.ended]
  · simp [step, hslash, hstar, Mode.ended]

/-- A mark has no other part in the grammar. -/
theorem isMark_ne {b : UInt8} (h : isMark b = true) :
  isSpace b = false ∧ b ≠ byte '/' ∧ b ≠ byte '*' ∧ b ≠ byte '"' ∧ b ≠ byte '\\' ∧ b ≠ byte '\n'
  := by
  have hall : ∀ b ∈ ascii "\x7b\x7d()[]=:;,", isSpace b = false ∧ b ≠ byte '/' ∧ b ≠ byte '*' ∧
      b ≠ byte '"' ∧ b ≠ byte '\\' ∧ b ≠ byte '\n' := by decide
  exact hall b (of_decide_eq_true h)

theorem begin_mark {b : UInt8} (h : isMark b = true) : begin b = (.code, [.mark b]) := by
  rw [begin, if_neg, if_pos h]
  rw [(isMark_ne h).1]
  decide

/-- A mark outside of strings and comments is a token. -/
theorem modeOf_mark {xs : Bytes} (h : (modeOf xs).Plain) {b : UInt8} (hb : isMark b = true) :
  modeOf (xs ++ [b]) = .code ∧ tokens (xs ++ [b]) = tokens xs ++ [.mark b]
  := by
  obtain ⟨-, hslash, hstar, -⟩ := isMark_ne hb
  have hword : isWordByte b = false := by simp [isWordByte, hb]
  have hstep := step_of_plain h hword hslash hstar
  rw [begin_mark hb] at hstep
  have hscan : scan (modeOf xs) [b] = (.code, (modeOf xs).ended ++ [.mark b]) := by
    rw [scan, hstep]
    simp [scan]
  have hmode : modeOf (xs ++ [b]) = .code := by rw [modeOf_append, hscan]
  refine ⟨hmode, ?_⟩
  have hended : (Mode.code).ended = [] := rfl
  rw [tokens, hmode, scan_append, ← modeOf, hscan, tokens, hended, List.append_nil,
    List.append_assoc]

theorem tokens_mark {xs : Bytes} (h : (modeOf xs).Plain) {b : UInt8} (hb : isMark b = true)
    (ys : Bytes) :
  tokens (xs ++ b :: ys) = tokens xs ++ .mark b :: tokens ys
  := by
  obtain ⟨hmode, htokens⟩ := modeOf_mark h hb
  rw [List.append_cons, tokens_append hmode, htokens, List.append_assoc]
  rfl

/-- The lexer is in a comment, or in a string. -/
def Mode.Hidden : Mode → Prop
  | .line | .block | .string _ => True
  | _ => False

theorem Mode.Hidden.not_plain {mode : Mode} (h : mode.Hidden) : ¬ mode.Plain := by
  cases mode <;> first | exact h.elim | exact id

/-- Behind a mark the lexer is between tokens, or still in a comment or a string. -/
theorem modeOf_concat (xs : Bytes) {b : UInt8} (hb : isMark b = true) :
  (modeOf xs).Plain ∧ modeOf (xs ++ [b]) = .code ∨ (modeOf (xs ++ [b])).Hidden
  := by
  by_cases hplain : (modeOf xs).Plain
  · exact .inl ⟨hplain, (modeOf_mark hplain hb).1⟩
  · obtain ⟨-, hslash, hstar, hquote, hescape, hlf⟩ := isMark_ne hb
    right
    rw [modeOf_append, scan, scan]
    simp only
    cases hmode : modeOf xs with
    | code => exact absurd (by rw [hmode]; trivial) hplain
    | word w => exact absurd (by rw [hmode]; trivial) hplain
    | slash => exact absurd (by rw [hmode]; trivial) hplain
    | line =>
        rw [step, if_neg hlf]
        trivial
    | block =>
        rw [step, if_neg hstar]
        trivial
    | star =>
        rw [step, if_neg hslash, if_neg hstar]
        trivial
    | string s =>
        rw [step, if_neg hquote, if_neg hescape]
        trivial
    | escape s => trivial

/-- Spaces end no comment but one to the end of the line, and no string. -/
theorem hidden_spaces {mode : Mode} (h : mode.Hidden) (hline : mode ≠ .line) {bytes : Bytes}
    (hbytes : ∀ b ∈ bytes, isSpace b = true) :
  ¬ (scan mode bytes).1.Plain
  := by
  induction bytes generalizing mode with
  | nil => exact h.not_plain
  | cons b bytes ih =>
      have hspace := hbytes b List.mem_cons_self
      have ih := fun mode (h : Mode.Hidden mode) hline =>
        ih h hline fun b hb => hbytes b (List.mem_cons_of_mem _ hb)
      have hstar : b ≠ byte '*' := by
        rintro rfl
        revert hspace
        decide
      have hquote : b ≠ byte '"' := by
        rintro rfl
        revert hspace
        decide
      have hescape : b ≠ byte '\\' := by
        rintro rfl
        revert hspace
        decide
      rw [scan]
      cases mode with
      | line => exact absurd rfl hline
      | block =>
          rw [step, if_neg hstar]
          exact ih .block trivial Mode.noConfusion
      | string s =>
          rw [step, if_neg hquote, if_neg hescape]
          exact ih (.string (s ++ [b])) trivial Mode.noConfusion
      | code => exact h.elim
      | word w => exact h.elim
      | slash => exact h.elim
      | star => exact h.elim
      | escape s => exact h.elim

/-- A mark that has only spaces behind it, up to a place outside of strings and comments, is outside
of them too, unless it is in a comment to the end of its line. -/
theorem modeOf_of_spaces {xs spaces : Bytes} {b : UInt8} (hb : isMark b = true)
    (hspaces : ∀ b ∈ spaces, isSpace b = true) (hplain : (modeOf (xs ++ [b] ++ spaces)).Plain) :
  modeOf (xs ++ [b]) = .code ∨ modeOf (xs ++ [b]) = .line
  := by
  rcases modeOf_concat xs hb with ⟨-, hcode⟩ | hhidden
  · exact .inl hcode
  · by_cases hline : modeOf (xs ++ [b]) = .line
    · exact .inr hline
    · rw [modeOf_append] at hplain
      exact absurd hplain (hidden_spaces hhidden hline hspaces)

/-! ### What is read for bytes -/

/-- Bytes that are read as tokens, and end outside of everything. -/
def Reads (bytes : Bytes) (ts : List Token) : Prop := modeOf bytes = .code ∧ tokens bytes = ts

instance (bytes : Bytes) (ts : List Token) : Decidable (Reads bytes ts) :=
  inferInstanceAs (Decidable (_ ∧ _))

theorem Reads.append {xs ys : Bytes} {ts us : List Token} (hxs : Reads xs ts) (hys : Reads ys us) :
  Reads (xs ++ ys) (ts ++ us)
  := by
  constructor
  · rw [modeOf_append, hxs.1, ← modeOf, hys.1]
  · rw [tokens_append hxs.1, hxs.2, hys.2]

theorem reads_spaces {bytes : Bytes} (h : ∀ b ∈ bytes, isSpace b = true) : Reads bytes [] := by
  have hscan := scan_spaces h
  have hmode : modeOf bytes = .code := congrArg Prod.fst hscan
  refine ⟨hmode, ?_⟩
  rw [tokens, hmode, hscan]
  rfl

/-- Spaces between tokens change nothing. -/
theorem tokens_spaces {xs spaces : Bytes} (h : modeOf xs = .code)
    (hspaces : ∀ b ∈ spaces, isSpace b = true) :
  modeOf (xs ++ spaces) = .code ∧ tokens (xs ++ spaces) = tokens xs
  := by
  have hboth := Reads.append ⟨h, rfl⟩ (reads_spaces hspaces)
  rw [List.append_nil] at hboth
  exact hboth

/-! ### Lists -/

/-- A value is added to values behind a comma. -/
theorem commaSeparated_concat {values : List (List Token)} (h : values ≠ []) (value : List Token) :
  commaSeparated (values ++ [value]) = commaSeparated values ++ .mark (byte ',') :: value
  := by
  induction values with
  | nil => exact absurd rfl h
  | cons first values ih =>
      cases values with
      | nil =>
          simp [commaSeparated, List.intercalate]
      | cons second values =>
          have ih := ih (List.cons_ne_nil _ _)
          simp only [commaSeparated, List.intercalate, List.cons_append, List.intersperse_cons_cons,
            List.flatten_cons] at ih ⊢
          rw [ih]
          simp only [List.append_assoc, List.cons_append, List.nil_append]

/-- The tokens of groups end with a brace. -/
theorem getLast?_commaSeparated {values : List (List Token)} (h : values ≠ [])
    (hgroups : ∀ value ∈ values, IsGroup value) :
  (commaSeparated values).getLast? = some (.mark (byte '}'))
  := by
  obtain ⟨front, last, rfl⟩ : ∃ front last, values = front ++ [last] :=
    ⟨values.dropLast, values.getLast h, (List.dropLast_concat_getLast h).symm⟩
  obtain ⟨body, rfl, -⟩ := hgroups last (List.mem_append_right _ List.mem_cons_self)
  cases front with
  | nil =>
      have hvalue : commaSeparated ([] ++ [.mark (byte '{') :: (body ++ [.mark (byte '}')])]) =
          (.mark (byte '{') :: body) ++ [.mark (byte '}')] := by
        simp [commaSeparated, List.intercalate]
      rw [hvalue, List.getLast?_concat]
  | cons first front =>
      rw [commaSeparated_concat (List.cons_ne_nil _ _), ← List.cons_append, ← List.cons_append,
        ← List.append_assoc, List.getLast?_concat]

end Libconfig
