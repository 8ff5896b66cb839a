import CatplayFirmware.Otalib.ModprobeUtil
import CatplayFirmware.Support.Bytes

/-!
# The lines of a file

`forEachFileLine` reads a file a chunk at a time and calls a function on each line. The line that
is being read is carried from one chunk to the next in a buffer of bounded size, so that where the
chunks end makes no difference: the function is called on the lines of the content, up to one that
the buffer is too small for.
-/

namespace ModprobeUtil

open Bytes

/-- What the reads of an open file give, one after another; one of them can fail, and behind the
last the file is at its end. -/
abbrev Reads := List (Option Bytes)

/-- The capacity of the buffer of a line. -/
def lineCap : ℕ := 2048

section

variable {σ : Type*} (f : σ → Bytes → σ)

/-- One round of the loop over the bytes of a chunk, with the line read so far and the state of
the function that is called. An error leaves the state as it is by then. -/
def feedByte : Bytes × σ → UInt8 → Except (ModprobeError × σ) (Bytes × σ)
  | (line, state), b =>
    if b = byte '\n' then
      if line.getLast? = some (byte '\r') then .ok ([], f state line.dropLast)
      else .ok ([], f state line)
    else if line.length < lineCap then .ok (line ++ [b], state)
    else .error (.pushStrFailed, state)

/-- The loop over the chunks of a file. -/
def readLoop (path : Text) : Reads → Bytes × σ → Except (ModprobeError × σ) (Bytes × σ)
  | [], st => .ok st
  | none :: _, (_, state) => .error (.moduleNotFound path, state)
  | some chunk :: reads, st =>
    if chunk = [] then .ok st
    else do
      let st ← chunk.foldlM (feedByte f) st
      readLoop path reads st

/-- What is done with a last line that no newline ends. -/
def lastLine : Bytes × σ → σ
  | (line, state) =>
    if line.getLast? = some (byte '\r') then
      if line.dropLast = [] then state else f state line.dropLast
    else if line = [] then state
    else f state line

/-- The function that is called has a state, and what it returns is not looked at. -/
def forEachFileLine (openReadonly : Text → Option Reads) (path : Text) (state : σ) :
    Except ModprobeError Unit × σ :=
  match openReadonly path with
  | none => (.error (.moduleNotFound path), state)
  | some reads =>
    match readLoop f path reads ([], state) with
    | .ok st => (.ok (), lastLine f st)
    | .error (e, state) => (.error e, state)

end

/-! ### The lines of a content -/

/-- A line without a carriage return at its end. -/
def stripCr (line : Bytes) : Bytes :=
  if line.getLast? = some (byte '\r') then line.dropLast else line

/-- The pieces of a content between its newlines. -/
def pieces (content : Bytes) : List Bytes := content.splitOn (byte '\n')

/-- The lines of pieces: the last one counts only if something is left of it. -/
def linesOf : List Bytes → List Bytes
  | [] => []
  | [line] => if stripCr line = [] then [] else [stripCr line]
  | line :: rest => stripCr line :: linesOf rest

section

variable {σ : Type*} {f : σ → Bytes → σ}

theorem feedByte_newline (line : Bytes) (state : σ) :
  feedByte f (line, state) (byte '\n') = .ok ([], f state (stripCr line))
  := by
  rw [feedByte, if_pos rfl, stripCr]
  split <;> rfl

theorem feedByte_of_ne {b : UInt8} (h : b ≠ byte '\n') (line : Bytes) (state : σ) :
  feedByte f (line, state) b =
    if line.length < lineCap then .ok (line ++ [b], state) else .error (.pushStrFailed, state)
  := by
  rw [feedByte, if_neg h]

theorem lastLine_eq (line : Bytes) (state : σ) :
  lastLine f (line, state) = if stripCr line = [] then state else f state (stripCr line)
  := by
  rw [lastLine, stripCr]
  split <;> rfl

/-- Where the chunks of a content end makes no difference. -/
theorem readLoop_eq (path : Text) {chunks : List Bytes} (h : ∀ chunk ∈ chunks, chunk ≠ [])
    (st : Bytes × σ) :
  readLoop f path (chunks.map some) st = chunks.flatten.foldlM (feedByte f) st
  := by
  induction chunks generalizing st with
  | nil => rfl
  | cons chunk chunks ih =>
      obtain ⟨hchunk, hchunks⟩ := List.forall_mem_cons.mp h
      rw [List.map_cons, readLoop, if_neg hchunk, List.flatten_cons, List.foldlM_append]
      cases chunk.foldlM (feedByte f) st with
      | error e => rfl
      | ok st' => exact ih hchunks st'

/-- The first piece goes on with what was read before. -/
theorem pieces_append {line : Bytes} (hline : byte '\n' ∉ line) (content : Bytes) :
  pieces (line ++ content) = (pieces content).modifyHead (line ++ ·)
  := by
  induction line with
  | nil =>
      rw [List.nil_append]
      cases pieces content <;> rfl
  | cons b line ih =>
      obtain ⟨hb, hline⟩ := List.ne_and_not_mem_of_not_mem_cons hline
      have hne : (b == byte '\n') = false := beq_eq_false_iff_ne.mpr hb.symm
      rw [List.cons_append, pieces, List.splitOn_cons_eq_if_modifyHead, if_neg (by simp [hne]),
        ← pieces, ih hline]
      cases pieces content <;> rfl

theorem pieces_ne_nil (content : Bytes) : pieces content ≠ [] := List.splitOn_ne_nil _ _

theorem pieces_newline {line : Bytes} (hline : byte '\n' ∉ line) (content : Bytes) :
  pieces (line ++ byte '\n' :: content) = line :: pieces content
  := List.splitOn_append_cons_self_of_not_mem hline content

theorem linesOf_cons (line : Bytes) {rest : List Bytes} (h : rest ≠ []) :
  linesOf (line :: rest) = stripCr line :: linesOf rest
  := by
  cases rest with
  | nil => contradiction
  | cons next rest => rfl

theorem notMem_concat {line : Bytes} {b : UInt8} (hline : byte '\n' ∉ line)
    (hb : b ≠ byte '\n') :
  byte '\n' ∉ line ++ [b]
  := by
  rw [List.mem_append, List.mem_singleton]
  rintro (hmem | rfl)
  · exact hline hmem
  · exact hb rfl

/-- A line that goes on makes a piece that is longer than what was read of it. -/
theorem exists_pieces_cons {line : Bytes} {b : UInt8} (hline : byte '\n' ∉ line)
    (hb : b ≠ byte '\n') (content : Bytes) :
  ∃ piece rest, pieces (line ++ b :: content) = piece :: rest ∧ line.length < piece.length
  := by
  obtain ⟨piece, rest, heq⟩ := List.exists_cons_of_ne_nil (pieces_ne_nil content)
  refine ⟨line ++ [b] ++ piece, rest, ?_, ?_⟩
  · rw [List.append_cons, pieces_append (notMem_concat hline hb), heq, List.modifyHead_cons]
  · rw [List.length_append, List.length_append, List.length_singleton]
    omega

/-- When every piece fits, the function is called on the lines. -/
theorem foldlM_feedByte_ok {line content : Bytes} (hline : byte '\n' ∉ line)
    (hfits : ∀ piece ∈ pieces (line ++ content), piece.length ≤ lineCap) (state : σ) :
  ∃ st, content.foldlM (feedByte f) (line, state) = .ok st ∧
    lastLine f st = (linesOf (pieces (line ++ content))).foldl f state
  := by
  induction content generalizing line state with
  | nil =>
      refine ⟨(line, state), rfl, ?_⟩
      rw [List.append_nil, pieces, List.splitOn_eq_singleton hline, linesOf, lastLine_eq]
      split <;> rfl
  | cons b content ih =>
      by_cases hb : b = byte '\n'
      · subst hb
        rw [pieces_newline hline] at hfits ⊢
        obtain ⟨-, hrest⟩ := List.forall_mem_cons.mp hfits
        rw [List.foldlM_cons, feedByte_newline, Except.ok_bind,
          linesOf_cons _ (pieces_ne_nil content), List.foldl_cons]
        exact ih List.not_mem_nil hrest (f state (stripCr line))
      · obtain ⟨piece, rest, heq, hlt⟩ := exists_pieces_cons hline hb content
        have hpiece : piece.length ≤ lineCap := hfits piece (heq ▸ List.mem_cons_self)
        have hroom : line.length < lineCap := by omega
        rw [List.append_cons] at hfits ⊢
        rw [List.foldlM_cons, feedByte_of_ne hb, if_pos hroom, Except.ok_bind]
        exact ih (notMem_concat hline hb) hfits state

/-- The first piece that does not fit ends the reading after the lines before it. -/
theorem foldlM_feedByte_error {line content long : Bytes} {early later : List Bytes}
    (hline : byte '\n' ∉ line) (hroom : line.length ≤ lineCap)
    (hpieces : pieces (line ++ content) = early ++ long :: later)
    (hearly : ∀ piece ∈ early, piece.length ≤ lineCap) (hlong : lineCap < long.length)
    (state : σ) :
  content.foldlM (feedByte f) (line, state) =
    .error (.pushStrFailed, (early.map stripCr).foldl f state)
  := by
  induction content generalizing line early state with
  | nil =>
      rw [List.append_nil, pieces, List.splitOn_eq_singleton hline] at hpieces
      cases early with
      | nil =>
          obtain ⟨rfl, -⟩ := List.cons.inj hpieces
          omega
      | cons piece early =>
          obtain ⟨-, hnil⟩ := List.cons.inj hpieces
          cases early <;> cases hnil
  | cons b content ih =>
      by_cases hb : b = byte '\n'
      · subst hb
        rw [pieces_newline hline] at hpieces
        cases early with
        | nil =>
            obtain ⟨rfl, -⟩ := List.cons.inj hpieces
            omega
        | cons piece early =>
            obtain ⟨rfl, hrest⟩ := List.cons.inj hpieces
            obtain ⟨-, hearly⟩ := List.forall_mem_cons.mp hearly
            rw [List.foldlM_cons, feedByte_newline, Except.ok_bind]
            exact ih List.not_mem_nil (Nat.zero_le _) hrest hearly (f state (stripCr line))
      · rw [List.foldlM_cons, feedByte_of_ne hb]
        by_cases hlt : line.length < lineCap
        · rw [List.append_cons] at hpieces
          have hlen : (line ++ [b]).length ≤ lineCap := by
            rw [List.length_append, List.length_singleton]
            omega
          rw [if_pos hlt, Except.ok_bind]
          exact ih (notMem_concat hline hb) hlen hpieces hearly state
        · rw [if_neg hlt, Except.error_bind]
          -- the piece that is being read is the first that is too long
          obtain ⟨piece, rest, heq, hpiece⟩ := exists_pieces_cons hline hb content
          cases early with
          | nil => rfl
          | cons first early =>
              rw [heq] at hpieces
              obtain ⟨rfl, -⟩ := List.cons.inj hpieces
              have hfirst := hearly piece List.mem_cons_self
              omega

/-- What is done with a file is what is done with its content in one piece. -/
theorem forEachFileLine_chunks {openReadonly : Text → Option Reads} {path : Text}
    {chunks : List Bytes} (hopen : openReadonly path = some (chunks.map some))
    (hchunks : ∀ chunk ∈ chunks, chunk ≠ []) (state : σ) :
  forEachFileLine f openReadonly path state =
    match chunks.flatten.foldlM (feedByte f) ([], state) with
    | .ok st => (.ok (), lastLine f st)
    | .error (e, state) => (.error e, state)
  := by
  rw [forEachFileLine, hopen]
  dsimp only
  rw [readLoop_eq path hchunks]

/-- The function is called on the lines of the content, however the reads cut it; a line that does
not fit is an error after the lines before it. -/
theorem forEachFileLine_eq {openReadonly : Text → Option Reads} {path : Text}
    {chunks : List Bytes} (hopen : openReadonly path = some (chunks.map some))
    (hchunks : ∀ chunk ∈ chunks, chunk ≠ []) (state : σ) :
  ((∀ piece ∈ pieces chunks.flatten, piece.length ≤ 2048) →
    forEachFileLine f openReadonly path state =
      (.ok (), (linesOf (pieces chunks.flatten)).foldl f state)) ∧
  ∀ early long later, pieces chunks.flatten = early ++ long :: later →
    (∀ piece ∈ early, piece.length ≤ 2048) → 2048 < long.length →
    forEachFileLine f openReadonly path state =
      (.error .pushStrFailed, (early.map stripCr).foldl f state)
  := by
  rw [forEachFileLine_chunks hopen hchunks]
  constructor
  · intro hfits
    obtain ⟨st, hst, hlast⟩ := foldlM_feedByte_ok (f := f) List.not_mem_nil hfits state
    rw [hst, ← List.nil_append chunks.flatten, ← hlast]
  · intro early long later hpieces hearly hlong
    rw [foldlM_feedByte_error List.not_mem_nil (Nat.zero_le _) hpieces hearly hlong state]

end

/-- A carriage return at the end of a chunk, and a last line of which nothing is left. -/
theorem forEachFileLine_twoChunks :
  forEachFileLine (fun calls line => calls ++ [line])
    (fun _ => some ([ascii "a:\r", ascii "\nb:\n\r"].map some)) "modules.dep".toList [] =
      (.ok (), [ascii "a:", ascii "b:"])
  := by
  have hchunks := @forEachFileLine_eq (List Bytes) (fun calls line => calls ++ [line])
    (fun _ => some ([ascii "a:\r", ascii "\nb:\n\r"].map some)) "modules.dep".toList
    [ascii "a:\r", ascii "\nb:\n\r"] rfl (by decide) []
  exact hchunks.1 (by decide)

end ModprobeUtil
