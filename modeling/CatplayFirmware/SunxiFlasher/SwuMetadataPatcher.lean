import CatplayFirmware.Support.Libconfig
import CatplayFirmware.Support.Outcome
import CatplayFirmware.Support.Pattern

/-!
# Entries of the boot environment

The patcher adds two entries to the boot environment that an update writes in its last stage: it
looks for the stage and its list with patterns, and for their ends with a matcher of brackets, which
passes over strings and over comments between marks, but not over those to the end of a line.
-/

namespace SwuMetadataPatcher

open Bytes
open Python hiding slice

def stageName : Bytes := ascii "upgrade_usr"

def counterName : Bytes := ascii "catplay_fel_attempts"

def completeName : Bytes := ascii "catplay_fel_complete"

inductive Error where
  | empty
  | alreadyPatched
  | stages (found : ℕ)
  | noBootenv
  | unterminated
  | unexpectedLayout
  | noEntries
  | notCleared (name : Bytes)
  deriving DecidableEq

/-! ### The place -/

/-- The states of `_find_matching`. -/
inductive Matcher where
  | code
  | string
  | comment

/-- The loop of `_find_matching`. With `skip` the next byte is passed over. -/
def matchFrom (opening closing : UInt8) : (skip : Bool) → Matcher → (depth : ℤ) → (index : ℕ) →
    Bytes → Option ℕ
  | _, _, _, _, [] => none
  | true, state, depth, index, _ :: s => matchFrom opening closing false state depth (index + 1) s
  | false, .comment, depth, index, current :: s =>
    if current = byte '*' ∧ s.head? = some (byte '/') then
      matchFrom opening closing true .code depth (index + 1) s
    else matchFrom opening closing false .comment depth (index + 1) s
  | false, .string, depth, index, current :: s =>
    if current = byte '\\' then matchFrom opening closing true .string depth (index + 1) s
    else if current = byte '"' then matchFrom opening closing false .code depth (index + 1) s
    else matchFrom opening closing false .string depth (index + 1) s
  | false, .code, depth, index, current :: s =>
    if current = byte '/' ∧ s.head? = some (byte '*') then
      matchFrom opening closing true .comment depth (index + 1) s
    else if current = byte '"' then matchFrom opening closing false .string depth (index + 1) s
    else if current = opening then
      matchFrom opening closing false .code (depth + 1) (index + 1) s
    else if current = closing then
      if depth - 1 = 0 then some index
      else matchFrom opening closing false .code (depth - 1) (index + 1) s
    else matchFrom opening closing false .code depth (index + 1) s

/-- `_find_matching`. -/
def findMatching (content : Bytes) (start : ℕ) (opening closing : UInt8) : Outcome Error ℕ :=
  match matchFrom opening closing false .code 0 start (content.drop start) with
  | some index => .ok index
  | none => .fail .unterminated

/-- `\b` name `\s*=\s*\{`. -/
def stagePattern (name : Bytes) : List Piece :=
  [.lit name, .spaces, .lit (ascii "="), .spaces, .lit [byte '{']]

/-- `\bbootenv\s*:\s*\(`. -/
def bootenvPattern : List Piece :=
  [.lit (ascii "bootenv"), .spaces, .lit (ascii ":"), .spaces, .lit (ascii "(")]

/-- `_find_named_block`, with the offsets of what is between the braces. -/
def findNamedBlock (content name : Bytes) : Outcome Error (ℕ × ℕ) :=
  match finditer (stagePattern name) content with
  | [start] => do
    let openOffset := find content (byte '{') start
    let closeOffset ← findMatching content openOffset (byte '{') (byte '}')
    return (openOffset + 1, closeOffset)
  | starts => .fail (.stages starts.length)

/-- The lines that `patch_fel_rearm` and `validate_fel_rearm` share: the offset of what is between
the parentheses of the list of the stage, and what it is. -/
def findBootenv (content : Bytes) : Outcome Error (ℕ × Bytes) := do
  let (stageStart, stageEnd) ← findNamedBlock content stageName
  let stage := slice content stageStart (stageEnd - stageStart)
  match finditer bootenvPattern stage with
  | [] => .fail .noBootenv
  | start :: _ => do
    let openOffset := find stage (byte '(') start
    let closeOffset ← findMatching stage openOffset (byte '(') (byte ')')
    return (stageStart + openOffset + 1,
      slice stage (openOffset + 1) (closeOffset - (openOffset + 1)))

/-! ### The entries -/

/-- The indent of a line that begins with a brace. -/
def indentOf (line : Bytes) : Option Bytes :=
  let indent := line.takeWhile fun c => c == byte ' ' || c == byte '\t'
  if (line.drop indent.length).head? = some (byte '{') then some indent else none

/-- `(?m)^([ \t]*)\{`. -/
def entryIndents (body : Bytes) : List Bytes := (body.splitOn (byte '\n')).filterMap indentOf

/-- An entry that clears a variable. -/
def clearEntry (entryIndent name : Bytes) : Bytes :=
  let fieldIndent := entryIndent ++ ascii "    "
  entryIndent ++ [byte '{', byte '\n'] ++ fieldIndent ++ ascii "name = \"" ++ name ++ ascii "\";\n" ++
    fieldIndent ++ ascii "value = \"\";\n" ++ entryIndent ++ [byte '}']

/-- The text that is inserted. -/
def injection (separator entryIndent : Bytes) : Bytes :=
  separator ++ ascii "\n" ++ clearEntry entryIndent counterName ++ ascii ",\n" ++
    clearEntry entryIndent completeName

/-- `patch_fel_rearm` up to the insertion, with its offset and its text. -/
def felInsertion (content : Bytes) : Outcome Error (ℕ × Bytes) :=
  if content = [] then .fail .empty
  else if counterName <:+: content ∨ completeName <:+: content then .fail .alreadyPatched
  else do
    let (start, body) ← findBootenv content
    match (rstrip body).getLast? with
    | none => .fail .unexpectedLayout
    | some last =>
      if last ≠ byte '}' ∧ last ≠ byte ',' then .fail .unexpectedLayout
      else
        match (entryIndents body).getLast? with
        | none => .fail .noEntries
        | some entryIndent =>
          let separator := if last = byte ',' then [] else ascii ","
          return (start + (rstrip body).length, injection separator entryIndent)

/-- `\bname\s*=\s*"` name `"\s*;\s*value\s*=\s*""\s*;`. -/
def clearPattern (name : Bytes) : List Piece :=
  [.lit (ascii "name"), .spaces, .lit (ascii "="), .spaces, .lit (ascii "\""), .lit name,
    .lit (ascii "\""), .spaces, .lit (ascii ";"), .spaces, .lit (ascii "value"), .spaces,
    .lit (ascii "="), .spaces, .lit (ascii "\"\""), .spaces, .lit (ascii ";")]

/-- `validate_fel_rearm`. -/
def validateFelRearm (content : Bytes) : Outcome Error Unit := do
  let (_, bootenv) ← findBootenv content
  if (finditer (clearPattern counterName) bootenv).length ≠ 1 then
    .fail (.notCleared counterName)
  else if (finditer (clearPattern completeName) bootenv).length ≠ 1 then
    .fail (.notCleared completeName)
  else .ok ()

/-- `patch_fel_rearm`. -/
def patchFelRearm (content : Bytes) : Outcome Error Bytes := do
  let (insertAt, text) ← felInsertion content
  let patched := content.take insertAt ++ text ++ content.drop insertAt
  validateFelRearm patched
  return patched

/-! ### What is found -/

/-- The loop ends at a closing bracket that it has not passed. -/
theorem matchFrom_ok {opening closing : UInt8} {skip : Bool} {state : Matcher} {depth : ℤ}
    {index close : ℕ} {s : Bytes}
    (h : matchFrom opening closing skip state depth index s = some close) :
  index ≤ close ∧ s[close - index]? = some closing
  := by
  -- what is found in the bytes behind the first one is found in all of them
  have hcons {current : UInt8} {s : Bytes} {index : ℕ}
      (h : index + 1 ≤ close ∧ s[close - (index + 1)]? = some closing) :
      index ≤ close ∧ (current :: s)[close - index]? = some closing := by
    have hindex : close - index = close - (index + 1) + 1 := by omega
    rw [hindex, List.getElem?_cons_succ]
    exact ⟨by omega, h.2⟩
  fun_induction matchFrom opening closing skip state depth index s with
  | case1 => cases h
  | case11 =>
      cases h
      simp
  | _ =>
      rename_i ih
      exact hcons (ih h)

/-- Between a bracket that is found and the one that closes it there are the bytes that a slice
takes. -/
theorem findMatching_ok {content : Bytes} {start close : ℕ} {opening closing : UInt8}
    (hne : opening ≠ closing)
    (h : findMatching content (find content opening start) opening closing = .ok close) :
  ∃ front back,
    content = front ++ slice content (find content opening start + 1)
      (close - (find content opening start + 1)) ++ closing :: back ∧
    front.length = find content opening start + 1
  := by
  generalize hi : find content opening start = i at h ⊢
  rw [findMatching] at h
  split at h
  next index hmatch =>
    cases h
    obtain ⟨hle, hclose⟩ := matchFrom_ok hmatch
    rw [List.getElem?_drop, Nat.add_sub_cancel' hle] at hclose
    obtain ⟨hlt, hget⟩ := List.getElem?_eq_some_iff.mp hclose
    have hopen : content[i]? = some opening := by
      subst hi
      exact getElem?_find (by omega)
    have hopen_ne : i ≠ close := by
      rintro rfl
      rw [hopen] at hclose
      exact hne (Option.some.inj hclose)
    refine ⟨content.take (i + 1), content.drop (close + 1), ?_, ?_⟩
    · have hsplit := take_append_slice_append_drop content (i + 1) (close - (i + 1))
      rw [Nat.add_sub_cancel' (by omega), List.drop_eq_getElem_cons hlt, hget] at hsplit
      exact hsplit.symm
    · rw [List.length_take]
      omega
  next => cases h

/-- The list of the stage stands in the file, and a parenthesis behind it. -/
theorem findBootenv_ok {content body : Bytes} {start : ℕ}
    (h : findBootenv content = .ok (start, body)) :
  ∃ front back, content = front ++ body ++ byte ')' :: back ∧ start = front.length
  := by
  obtain ⟨⟨stageStart, stageEnd⟩, hblock, h⟩ := Except.bind_eq_ok_iff.mp h
  rw [findNamedBlock] at hblock
  split at hblock
  next stageMatch _ =>
    obtain ⟨stageClose, hclose, hblock⟩ := Except.bind_eq_ok_iff.mp hblock
    cases hblock
    obtain ⟨front, back, hcontent, hfront⟩ := findMatching_ok (by decide) hclose
    simp only at h
    generalize slice content _ _ = stage at h hcontent
    split at h
    next => cases h
    next bootenvMatch _ _ =>
      obtain ⟨listClose, hclose, h⟩ := Except.bind_eq_ok_iff.mp h
      cases h
      obtain ⟨stageFront, stageBack, hstage, hstageFront⟩ := findMatching_ok (by decide) hclose
      refine ⟨front ++ stageFront, stageBack ++ byte '}' :: back, ?_, ?_⟩
      · rw [hcontent]
        conv_lhs => rw [hstage]
        simp only [List.append_assoc, List.cons_append]
      · rw [List.length_append]
        omega
  next => cases hblock

theorem space_of_mem_entryIndents {body indent : Bytes} (h : indent ∈ entryIndents body) :
  ∀ c ∈ indent, c = byte ' ' ∨ c = byte '\t'
  := by
  obtain ⟨line, -, hline⟩ := List.mem_filterMap.mp h
  rw [indentOf] at hline
  split at hline
  · cases hline
    intro c hc
    simpa using List.mem_takeWhile_imp hc
  · cases hline

/-- The text goes behind the last byte of the list that is no white space, a brace or a comma. -/
theorem felInsertion_ok {content text : Bytes} {insertAt : ℕ}
    (h : felInsertion content = .ok (insertAt, text)) :
  ∃ front init last spaces back indent,
    findBootenv content = .ok (front.length, init ++ [last] ++ spaces) ∧
    content = front ++ (init ++ [last] ++ spaces) ++ byte ')' :: back ∧
    rstrip (init ++ [last] ++ spaces) = init ++ [last] ∧
    (∀ c ∈ spaces, isSpace c = true) ∧
    (last = byte '}' ∨ last = byte ',') ∧
    (∀ c ∈ indent, c = byte ' ' ∨ c = byte '\t') ∧
    insertAt = (front ++ (init ++ [last])).length ∧
    text = injection (if last = byte ',' then [] else ascii ",") indent
  := by
  rw [felInsertion] at h
  split at h
  · cases h
  split at h
  · cases h
  obtain ⟨⟨start, body⟩, hfind, h⟩ := Except.bind_eq_ok_iff.mp h
  obtain ⟨front, back, hcontent, rfl⟩ := findBootenv_ok hfind
  obtain ⟨spaces, hbody, hspaces⟩ := rstrip_spaces body
  dsimp only at h
  cases hlast : (rstrip body).getLast? with
  | none =>
      rw [hlast] at h
      cases h
  | some last =>
      obtain ⟨init, hinit⟩ := List.getLast?_eq_some_iff.mp hlast
      rw [hlast] at h
      dsimp only at h
      split at h
      · cases h
      next hbrace =>
        cases hindent : (entryIndents body).getLast? with
        | none =>
            rw [hindent] at h
            cases h
        | some indent =>
            rw [hindent] at h
            cases h
            rw [hinit] at hbody
            refine ⟨front, init, last, spaces, back, indent, hbody ▸ hfind, hbody ▸ hcontent,
              hbody ▸ hinit, hspaces, ?_, ?_, ?_, rfl⟩
            · rwa [not_and_or, not_not, not_not] at hbrace
            · exact space_of_mem_entryIndents (List.mem_of_getLast? hindent)
            · rw [List.length_append, hinit]

theorem patchFelRearm_ok {content result : Bytes} (h : patchFelRearm content = .ok result) :
  ∃ insertAt text, felInsertion content = .ok (insertAt, text) ∧
    result = content.take insertAt ++ text ++ content.drop insertAt
  := by
  obtain ⟨⟨insertAt, text⟩, hinsertion, h⟩ := Except.bind_eq_ok_iff.mp h
  obtain ⟨_, -, h⟩ := Except.bind_eq_ok_iff.mp h
  cases h
  exact ⟨insertAt, text, hinsertion, rfl⟩

/-- What is patched is not patched again. -/
theorem patchFelRearm_patched {content result : Bytes} (h : patchFelRearm content = .ok result) :
  patchFelRearm result = .fail .alreadyPatched
  := by
  obtain ⟨insertAt, text, hinsertion, rfl⟩ := patchFelRearm_ok h
  obtain ⟨_, _, last, _, _, indent, -, -, -, -, -, -, -, rfl⟩ := felInsertion_ok hinsertion
  have hcounter (before separator after : Bytes) :
      counterName <:+: before ++ injection separator indent ++ after := by
    refine ⟨before ++ separator ++ ascii "\n" ++ indent ++ [byte '{', byte '\n'] ++
      (indent ++ ascii "    ") ++ ascii "name = \"", ?_⟩
    simp only [injection, clearEntry, List.append_assoc]
    exact ⟨_, rfl⟩
  have hne : ∀ before separator after, before ++ injection separator indent ++ after ≠ [] := by
    intro before separator after hnil
    have hinfix := hcounter before separator after
    rw [hnil, List.infix_nil] at hinfix
    revert hinfix
    decide
  rw [patchFelRearm, felInsertion, if_neg (hne _ _ _), if_pos (.inl (hcounter _ _ _))]
  rfl

end SwuMetadataPatcher
