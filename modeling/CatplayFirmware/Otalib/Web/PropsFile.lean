import CatplayFirmware.Otalib.Web.Props
import CatplayFirmware.Support.SparseFile
import CatplayFirmware.Support.Utf8
import Mathlib.Data.PNat.Notation

/-!
# The file of the property store

A change of a value is written over the file in place: the file is opened, resized to the
length of the new text, and written from its start on, as many bytes at a time as the system
takes. When this fails the value in memory is put back, but the file is left as it is then,
with the start of the new text followed by the rest of the old one or by zeros.
-/

namespace Props

open Bytes SparseFile

/-! ### Reading the file -/

/-- The loop of `read_file_text`, from what has been read and what is left. A read gives at
least one byte before the end; those behind the ones that are given read what is left. -/
def readLoop : List ℕ+ → Bytes → Bytes → Bytes
  | [], buf, left => buf ++ left
  | n :: reads, buf, left =>
    if left = [] then buf else readLoop reads (buf ++ left.take n) (left.drop n)

/-- `read_file_text` of a file that is there and can be read, or of one that is not there. -/
def readFileText (reads : List ℕ+) (file : Option Bytes) : Except Text Text :=
  match file with
  | none => .error "failed to open fd".toList
  | some contents =>
    if contents.length = 0 then .ok []
    else
      match Utf8.decode (readLoop reads [] contents) with
      | some text => .ok text
      | none => .error "props file is not utf8".toList

/-- `load_with_paths` with the text of the definitions and the file of the values. -/
def load (bits : ℕ) (defsText : Option Text) (reads : List ℕ+) (file : Option Bytes) :
    List Property :=
  loadWithPaths bits defsText (readFileText reads file).toOption

theorem readLoop_eq (reads : List ℕ+) (buf left : Bytes) :
  readLoop reads buf left = buf ++ left
  := by
  induction reads generalizing buf left with
  | nil => rfl
  | cons n reads ih =>
      rw [readLoop]
      split
      · next hleft => rw [hleft, List.append_nil]
      · rw [ih, List.append_assoc, List.take_append_drop]

/-- How the file is read in pieces does not matter, nor whether it is empty or not there. -/
theorem load_eq (bits : ℕ) (defsText : Option Text) (reads : List ℕ+) (file : Option Bytes) :
  load bits defsText reads file = loadWithPaths bits defsText (Utf8.decode (file.getD []))
  := by
  have hempty : loadWithPaths bits defsText none = loadWithPaths bits defsText (some []) := by
    rw [loadWithPaths_eq, loadWithPaths_eq]
    rfl
  have hnil : Utf8.decode [] = some [] := Utf8.decode_encode []
  cases file with
  | none =>
      rw [Option.getD_none, hnil, ← hempty]
      rfl
  | some contents =>
      rw [load, readFileText, Option.getD_some]
      split
      · next hlen =>
        rw [List.length_eq_zero_iff.mp hlen, hnil]
        rfl
      · rw [readLoop_eq, List.nil_append]
        cases Utf8.decode contents with
        | none => rfl
        | some text => rfl

/-! ### Writing the file -/

/-- What the system answers while a file is written: whether it is opened and resized, and how
many bytes each write takes at most if it does not fail. Writes behind the ones that are given
take all that is left. -/
structure Answers where
  opens : Bool
  truncates : Bool
  writes : List (Option ℕ)

/-- The loop of `write_props_file`, from the offset `off` on. -/
def writeLoop (bytes : Bytes) : List (Option ℕ) → Bytes → ℕ → Bytes × Except Text Unit
  | [], file, off => (writeAt 0 file off (bytes.drop off), .ok ())
  | answer :: answers, file, off =>
    if off < bytes.length then
      match answer with
      | none => (file, .error "failed to write to fd".toList)
      | some most =>
        let piece := (bytes.drop off).take most
        if piece.length = 0 then (file, .error "short write".toList)
        else writeLoop bytes answers (writeAt 0 file off piece) (off + piece.length)
    else (file, .ok ())

/-- `write_props_file`, with the file it leaves. A file that is not there is created when it is
opened. -/
def writePropsFile (answers : Answers) (file : Option Bytes) (props : List Property) :
    Option Bytes × Except Text Unit :=
  let body := Utf8.encode (serializePropsFile props)
  if answers.opens then
    let opened := file.getD []
    if answers.truncates then
      let (written, result) := writeLoop body answers.writes (resize 0 opened body.length) 0
      (some written, result)
    else (some opened, .error "failed to truncate (prealloc) file".toList)
  else (file, .error "failed to open fd".toList)

/-- The offset at which the loop stops. -/
def written (len : ℕ) : List (Option ℕ) → ℕ → ℕ
  | [], _ => len
  | none :: _, off => off
  | some most :: answers, off =>
    if min most (len - off) = 0 then off else written len answers (off + min most (len - off))

/-- A piece of the new text that is written behind its start. -/
theorem writeAt_slice {bytes : Bytes} (file : Bytes) {off n : ℕ}
    (hend : off + n ≤ bytes.length) :
  writeAt 0 (bytes.take off ++ file.drop off) off (slice bytes off n) =
    bytes.take (off + n) ++ file.drop (off + n)
  := by
  have hstart : (bytes.take off).length = off := by
    rw [List.length_take, Nat.min_eq_left (Nat.le_of_add_right_le hend)]
  have hover := overwrite_append_right (bytes.take off) (file.drop off) (slice bytes off n) 0
  rw [hstart, Nat.add_zero] at hover
  rw [writeAt_eq_overwrite, hover, overwrite, List.take_zero, List.nil_append, Nat.zero_add,
    length_slice hend, List.drop_drop, ← List.append_assoc, take_append_slice]
  rw [List.length_append, hstart]
  apply Nat.le_add_right

/-- The loop leaves the start of the new text and behind it what was there, and succeeds when it
comes to the end. -/
theorem writeLoop_eq (file : Bytes) {bytes : Bytes} (answers : List (Option ℕ)) {off : ℕ}
    (hoff : off ≤ bytes.length) :
  ∃ stop ≤ bytes.length, stop = written bytes.length answers off ∧
    (writeLoop bytes answers (bytes.take off ++ file.drop off) off).1 =
      bytes.take stop ++ file.drop stop ∧
    ((writeLoop bytes answers (bytes.take off ++ file.drop off) off).2 = .ok () ↔
      stop = bytes.length)
  := by
  induction answers generalizing off with
  | nil =>
      use bytes.length, Nat.le_refl _, rfl
      rw [writeLoop]
      have hrest : bytes.drop off = slice bytes off (bytes.length - off) := by
        rw [slice, ← List.length_drop, List.take_length]
      have hsum : off + (bytes.length - off) = bytes.length := Nat.add_sub_cancel' hoff
      refine ⟨?_, by simp⟩
      rw [hrest, writeAt_slice file (Nat.le_of_eq hsum), hsum]
  | cons answer answers ih =>
      rcases Nat.lt_or_ge off bytes.length with hlt | hge
      · cases answer with
        | none =>
            use off, hoff, rfl
            rw [writeLoop, if_pos hlt]
            simp [Nat.ne_of_lt hlt]
        | some most =>
            have hpiece : (bytes.drop off).take most =
                slice bytes off (min most (bytes.length - off)) := by
              rw [slice, ← List.length_drop, List.take_eq_take_min]
            have hend : off + min most (bytes.length - off) ≤ bytes.length := by omega
            rw [writeLoop, if_pos hlt, written]
            simp only [hpiece, length_slice hend, writeAt_slice file hend]
            split
            · use off, hoff, rfl, rfl
              simp [Nat.ne_of_lt hlt]
            · apply ih hend
      · obtain rfl : off = bytes.length := Nat.le_antisymm hoff hge
        use bytes.length, Nat.le_refl _
        cases answer with
        | none => simp [written, writeLoop]
        | some most => simp [written, writeLoop]

/-! ### The store and its file -/

/-- The properties in memory, and the file they are kept in. -/
structure Store where
  props : List Property
  file : Option Bytes
  deriving DecidableEq

/-- A call of `set`, with the answers of the system. -/
structure Call where
  name : Text
  value : Text
  answers : Answers

/-- The store that is loaded from a file. -/
def Store.start (bits : ℕ) (defsText : Option Text) (reads : List ℕ+) (file : Option Bytes) :
    Store :=
  ⟨load bits defsText reads file, file⟩

/-- `PropStore::set`, with the store as it is after the call. -/
def Store.set (store : Store) (call : Call) : Store × Except Text Text :=
  match findProp call.name store.props with
  | none => (store, .error "unknown prop".toList)
  | some prop =>
    match validateValue prop.ty call.value with
    | .error error => (store, .error error)
    | .ok normalized =>
      let old := prop.value
      let props := assign call.name normalized store.props
      match writePropsFile call.answers store.file props with
      | (file, .error error) =>
        (⟨assign call.name old props, file⟩, .error ("persist failed: ".toList ++ error))
      | (file, .ok ()) => (⟨props, file⟩, .ok normalized)

def Store.step (store : Store) (call : Call) : Store := (store.set call).1

/-- The text that a call writes, if it writes one. -/
def Store.body (store : Store) (call : Call) : Option Bytes :=
  (findProp call.name store.props).bind fun prop =>
    (validateValue prop.ty call.value).toOption.map fun normalized =>
      Utf8.encode (serializePropsFile (assign call.name normalized store.props))

/-- A call does not lose what is in the file when it fails: the file is not opened or not
resized, or it is written to its end, or it has the length of the new text already and what is
written of that is what it holds. -/
def Store.Harmless (store : Store) (call : Call) : Prop :=
  ∀ body ∈ store.body call,
    call.answers.opens = false ∨ call.answers.truncates = false ∨
    written body.length call.answers.writes 0 = body.length ∨
    body.length = (store.file.getD []).length ∧
      body.take (written body.length call.answers.writes 0) =
        (store.file.getD []).take (written body.length call.answers.writes 0)

/-- A call that fails changes neither the properties in memory nor those that are loaded from
the file. -/
def Store.FailsSafely (bits : ℕ) (defsText : Option Text) (store : Store) (call : Call) : Prop :=
  ∀ error, (store.set call).2 = .error error →
    (store.set call).1.props = store.props ∧
    ∀ reads reads', load bits defsText reads (store.set call).1.file =
      load bits defsText reads' store.file

/-- Giving the first property of a name its value back. -/
theorem assign_assign_self {name : Text} {props : List Property} {prop : Property}
    (h : findProp name props = some prop) (value : Text) :
  assign name prop.value (assign name value props) = props
  := by
  obtain ⟨hprop, before, rest, rfl, hbefore⟩ := List.find?_eq_some_iff_append.mp h
  have hname : prop.name = name := by simpa using hprop
  have hbefore : ∀ p ∈ before, p.name ≠ name := by simpa using hbefore
  rw [(assign_append value rest hbefore hname).2]
  exact (@assign_append _ prop.value _ { prop with value := value } rest hbefore hname).2

/-- What `write_props_file` leaves of a file, and when it succeeds. -/
theorem writePropsFile_cases (answers : Answers) (file : Option Bytes) (props : List Property)
    {body : Bytes} (hbody : body = Utf8.encode (serializePropsFile props)) :
  ((answers.opens = false ∨ answers.truncates = false) ∧
      (writePropsFile answers file props).1.getD [] = file.getD [] ∧
      (writePropsFile answers file props).2 ≠ .ok ()) ∨
    (answers.opens = true ∧ answers.truncates = true ∧
      ∃ stop ≤ body.length, stop = written body.length answers.writes 0 ∧
        (writePropsFile answers file props).1 =
          some (body.take stop ++ (resize 0 (file.getD []) body.length).drop stop) ∧
        ((writePropsFile answers file props).2 = .ok () ↔ stop = body.length))
  := by
  rw [writePropsFile, ← hbody]
  cases hopens : answers.opens with
  | false => exact .inl ⟨.inl rfl, rfl, nofun⟩
  | true =>
      cases htruncates : answers.truncates with
      | false => exact .inl ⟨.inr rfl, rfl, nofun⟩
      | true =>
          right
          obtain ⟨stop, hle, hstop, hfile, hok⟩ := writeLoop_eq
            (resize 0 (file.getD []) body.length) answers.writes (Nat.zero_le body.length)
          rw [List.take_zero, List.nil_append, List.drop_zero] at hfile hok
          exact ⟨rfl, rfl, stop, hle, hstop, congrArg some hfile, hok⟩

/-- The part of a new text that is written leaves a file as it was exactly when the file had its
length and held that part. -/
theorem take_append_drop_resize_iff {body file : Bytes} {stop : ℕ} (hlt : stop < body.length) :
  body.take stop ++ (resize 0 file body.length).drop stop = file ↔
    body.length = file.length ∧ body.take stop = file.take stop
  := by
  have htake : (body.take stop).length = stop := by
    rw [List.length_take, Nat.min_eq_left (Nat.le_of_lt hlt)]
  constructor
  · intro h
    have hlen : body.length = file.length := by
      have hlen := congrArg List.length h
      rw [List.length_append, htake, List.length_drop, length_resize] at hlen
      omega
    use hlen
    have hstart := congrArg (List.take stop) h
    rwa [List.take_append_of_le_length (Nat.le_of_eq htake.symm), List.take_take,
      Nat.min_self] at hstart
  · rintro ⟨hlen, hstart⟩
    rw [hlen, resize_self, hstart, List.take_append_drop]

/-- A call of `set` fails before it comes to the file, or it is decided by how the file is
written. -/
theorem Store.set_cases (store : Store) (call : Call) :
  (store.body call = none ∧ (store.set call).1 = store ∧ ∃ error, (store.set call).2 = .error error) ∨
    ∃ prop normalized props, findProp call.name store.props = some prop ∧
      validateValue prop.ty call.value = .ok normalized ∧
      props = assign call.name normalized store.props ∧
      store.body call = some (Utf8.encode (serializePropsFile props)) ∧
      ((∃ error, (writePropsFile call.answers store.file props).2 = .error error ∧
        store.set call = (⟨store.props, (writePropsFile call.answers store.file props).1⟩,
          .error ("persist failed: ".toList ++ error))) ∨
      ((writePropsFile call.answers store.file props).2 = .ok () ∧
        store.set call =
          (⟨props, (writePropsFile call.answers store.file props).1⟩, .ok normalized)))
  := by
  cases hfind : findProp call.name store.props with
  | none =>
      left
      simp [Store.body, Store.set, hfind]
  | some prop =>
      cases hvalue : validateValue prop.ty call.value with
      | error error =>
          left
          simp [Store.body, Store.set, hfind, hvalue, Except.toOption]
      | ok normalized =>
          right
          use prop, normalized, assign call.name normalized store.props, rfl, hvalue, rfl
          constructor
          · simp [Store.body, hfind, hvalue, Except.toOption]
          · cases hwrite : writePropsFile call.answers store.file
                (assign call.name normalized store.props) with
            | mk file result =>
                cases result with
                | error error =>
                    left
                    simp [Store.set, hfind, hvalue, hwrite, assign_assign_self hfind]
                | ok u =>
                    right
                    simp [Store.set, hfind, hvalue, hwrite]

/-! ### Calls that fail -/

theorem Store.props_of_error {store : Store} {call : Call} {error : Text}
    (h : (store.set call).2 = .error error) :
  (store.set call).1.props = store.props
  := by
  rcases store.set_cases call with ⟨-, hsame, -⟩ |
    ⟨prop, normalized, props, -, -, -, -, ⟨error, -, hset⟩ | ⟨-, hset⟩⟩
  · rw [hsame]
  · rw [hset]
  · rw [hset] at h
    cases h

/-- A call that fails leaves the bytes of the file as they are exactly when it is harmless. -/
theorem Store.bytes_kept_iff {store : Store} {call : Call} :
  (∀ error, (store.set call).2 = .error error →
    (store.set call).1.file.getD [] = store.file.getD []) ↔ store.Harmless call
  := by
  rcases store.set_cases call with ⟨hbody, hsame, -⟩ |
    ⟨prop, normalized, props, -, -, -, hbody, hwrites⟩
  · rw [Harmless, hbody, hsame]
    simp
  obtain ⟨body, htext⟩ : ∃ body, body = Utf8.encode (serializePropsFile props) := ⟨_, rfl⟩
  rw [← htext] at hbody
  simp only [Harmless, hbody, Option.mem_def, Option.some.injEq, forall_eq']
  rcases writePropsFile_cases call.answers store.file props htext with
    ⟨hearly, hfile, hfails⟩ | ⟨hopens, htruncates, stop, hle, hstop, hfile, hok⟩
  · have hkept : (store.set call).1.file.getD [] = store.file.getD [] := by
      rcases hwrites with ⟨error, -, hset⟩ | ⟨hsucceeds, -⟩
      · rw [hset]
        exact hfile
      · exact absurd hsucceeds hfails
    apply iff_of_true (fun error herror => hkept)
    rcases hearly with hopens | htruncates
    · exact .inl hopens
    · exact .inr (.inl htruncates)
  · rw [← hstop, hopens, htruncates]
    rcases hwrites with ⟨error, hfails, hset⟩ | ⟨hsucceeds, hset⟩
    · have hne : stop ≠ body.length := by
        intro heq
        rw [hok.mpr heq] at hfails
        cases hfails
      have hlt : stop < body.length := Nat.lt_of_le_of_ne hle hne
      rw [hset, hfile, Option.getD_some, take_append_drop_resize_iff hlt]
      simp [hne]
    · rw [hset]
      simp [hok.mp hsucceeds]

theorem Store.failsSafely_of_harmless {store : Store} {call : Call} (h : store.Harmless call)
    (bits : ℕ) (defsText : Option Text) :
  store.FailsSafely bits defsText call
  := by
  intro error herror
  use props_of_error herror
  intro reads reads'
  rw [load_eq, load_eq, bytes_kept_iff.mpr h error herror]

/-- In a run in which every call is harmless, a call that fails changes neither the properties
in memory nor those that are loaded from the file. -/
theorem Store.failsSafely_of_run {bits : ℕ} {defsText : Option Text} {reads : List ℕ+}
    {file : Option Bytes} {calls : List Call}
    (h : Runs.AllAllowed step Harmless (start bits defsText reads file) calls) :
  ∀ before call after, calls = before ++ call :: after →
    (before.foldl step (start bits defsText reads file)).FailsSafely bits defsText call
  := by
  rintro before call after rfl
  obtain ⟨-, hcall, -⟩ := Runs.allAllowed_append.mp h
  apply failsSafely_of_harmless hcall

/-- The definitions of a switch and of a name. -/
def carDefs : Text := "light\tbool\t-\t0\nhost\tstring\t1:9\tcar\n".toList

/-- The switch is turned on, and a call that changes it back cannot open the file. -/
theorem failsSafely_light :
  (Store.step (Store.start 32 (some carDefs) [] none)
      ⟨"light".toList, "1".toList, ⟨true, true, []⟩⟩).FailsSafely 32 (some carDefs)
    ⟨"light".toList, "0".toList, ⟨false, true, []⟩⟩
  := by
  apply @Store.failsSafely_of_run 32 (some carDefs) [] none
    [⟨"light".toList, "1".toList, ⟨true, true, []⟩⟩,
      ⟨"light".toList, "0".toList, ⟨false, true, []⟩⟩] _ [_] _ [] rfl
  refine ⟨?_, ?_, trivial⟩
  · intro body hbody
    right
    right
    left
    rfl
  · intro body hbody
    exact .inl rfl

/-- A longer name is set when there is no room on the device: the file grows by zeros, nothing is
written, and the switch that was turned on before is off after a restart. -/
theorem not_failsSafely :
  ¬ ∀ (bits : ℕ) (defsText : Option Text) (reads : List ℕ+) (file : Option Bytes)
    (calls : List Call) (call : Call),
    (calls.foldl Store.step (Store.start bits defsText reads file)).FailsSafely bits defsText call
  := by
  intro h
  have hlost := h 32 (some carDefs) [] none [⟨"light".toList, "1".toList, ⟨true, true, []⟩⟩]
    ⟨"host".toList, "garage".toList, ⟨true, true, [none]⟩⟩
  have hlost := (hlost "persist failed: failed to write to fd".toList (by decide +kernel)).2 [] []
  revert hlost
  decide +kernel

/-! ### Memory and file -/

/-- In memory a call does what a call of `set` does with some answer to the writing. -/
theorem Store.set_refines (store : Store) (call : Call) :
  ∃ persists, Props.set store.props ⟨call.name, call.value, persists⟩ =
    ((store.set call).1.props, (store.set call).2)
  := by
  cases hfind : findProp call.name store.props with
  | none =>
      use .ok ()
      simp [Props.set, Store.set, hfind]
  | some prop =>
      cases hvalue : validateValue prop.ty call.value with
      | error error =>
          use .ok ()
          simp [Props.set, Store.set, hfind, hvalue]
      | ok normalized =>
          use (writePropsFile call.answers store.file
            (assign call.name normalized store.props)).2
          cases hwrite : writePropsFile call.answers store.file
              (assign call.name normalized store.props) with
          | mk file result =>
              cases result with
              | error error =>
                  simp [Props.set, Store.set, hfind, hvalue, hwrite, assign_assign_self hfind]
              | ok u => simp [Props.set, Store.set, hfind, hvalue, hwrite]

/-- A store whose properties in memory are those that are loaded from its file. -/
structure Store.Synced (bits : ℕ) (defsText : Text) (store : Store) : Prop where
  sound : Sound bits (parsedDefs bits (some defsText)) store.props
  kept : ∀ prop ∈ store.props, Kept prop.value
  loads : loadWithPaths bits (some defsText) (Utf8.decode (store.file.getD [])) = store.props

theorem Store.synced_start (bits : ℕ) (defsText : Text) (reads : List ℕ+) (file : Option Bytes) :
  Synced bits defsText (start bits (some defsText) reads file)
  := by
  constructor
  · apply Sound.load
  · intro prop hprop
    apply ((loadWithPaths_parsedDefs bits _ _).2 prop hprop).2
  · rw [start, load_eq]

/-- After a call that succeeds the file holds the new text. -/
theorem Store.file_of_ok {store : Store} {call : Call} {value : Text}
    (h : (store.set call).2 = .ok value) :
  ∃ prop, findProp call.name store.props = some prop ∧
    validateValue prop.ty call.value = .ok value ∧
    (store.set call).1.props = assign call.name value store.props ∧
    (store.set call).1.file =
      some (Utf8.encode (serializePropsFile (assign call.name value store.props)))
  := by
  rcases store.set_cases call with ⟨-, -, error, herror⟩ |
    ⟨prop, normalized, props, hfind, hvalue, hprops, -, ⟨error, -, hset⟩ | ⟨hsucceeds, hset⟩⟩
  · rw [herror] at h
    cases h
  · rw [hset] at h
    cases h
  · rw [hset] at h ⊢
    obtain rfl : normalized = value := Except.ok.inj h
    use prop, hfind, hvalue, hprops
    rw [← hprops]
    rcases writePropsFile_cases call.answers store.file props rfl with
      ⟨-, -, hfails⟩ | ⟨-, -, stop, -, -, hfile, hok⟩
    · exact absurd hsucceeds hfails
    · rw [hfile, hok.mp hsucceeds, List.take_length, List.drop_of_length_le, List.append_nil]
      rw [length_resize]

/-- A harmless call with a value that is kept leaves a store synced. -/
theorem Store.Synced.step {bits : ℕ} {defsText : Text} {defs : List Property}
    (hdefs : parsePropsFile bits defsText = .ok defs)
    (hnames : (defs.map Property.name).Nodup) {store : Store} (h : store.Synced bits defsText)
    {call : Call} (hharmless : store.Harmless call) (hkept : Kept call.value) :
  (store.step call).Synced bits defsText
  := by
  cases hresult : (store.set call).2 with
  | error error =>
      have hprops : (store.step call).props = store.props := props_of_error hresult
      have hfile := bytes_kept_iff.mpr hharmless error hresult
      constructor
      · rw [hprops]
        exact h.sound
      · rw [hprops]
        exact h.kept
      · rw [hprops, Store.step, hfile]
        exact h.loads
  | ok value =>
      obtain ⟨prop, hfind, hvalue, hprops, hfile⟩ := file_of_ok hresult
      have hsound : Sound bits (parsedDefs bits (some defsText)) (store.step call).props := by
        obtain ⟨persists, hset⟩ := store.set_refines call
        have hsound := h.sound.set ⟨call.name, call.value, persists⟩
        rwa [hset] at hsound
      have hkepts : ∀ prop ∈ (store.step call).props, Kept prop.value := by
        intro prop' hprop'
        rw [Store.step, hprops] at hprop'
        rcases mem_assign hprop' with hprop' | ⟨target, htarget, rfl⟩
        · apply h.kept _ hprop'
        · obtain rfl : prop = target := Option.some.inj (hfind.symm.trans htarget)
          have hvalid := h.sound.valid _ (findProp_eq_some hfind).1
          apply (validateValue_ok hvalid.ty_valid hvalue).2.2.mpr hkept
      constructor
      · exact hsound
      · exact hkepts
      · rw [Store.step, hfile, Option.getD_some, Utf8.decode_encode, ← hprops]
        apply (reload_iff_kept hdefs hnames _ hsound.valid).mpr hkepts
        rw [hsound.signature_eq, parsedDefs_ok hdefs]

/-- In every run in which the calls are harmless and the values are not empty and do not end
with white space, a restart gives the properties that are in memory. -/
theorem Store.loads_of_reaches {bits : ℕ} {defsText : Text} {defs : List Property}
    (hdefs : parsePropsFile bits defsText = .ok defs)
    (hnames : (defs.map Property.name).Nodup) {reads : List ℕ+} {file : Option Bytes}
    {store : Store}
    (h : Runs.Reaches step (fun store call => store.Harmless call ∧ Kept call.value)
      (start bits (some defsText) reads file) store) (reads' : List ℕ+) :
  load bits (some defsText) reads' store.file = store.props
  := by
  have hsynced : store.Synced bits defsText := by
    apply h.invariant
    · intro store call hstore hcall
      apply hstore.step hdefs hnames hcall.1 hcall.2
    · apply synced_start
  rw [load_eq, hsynced.loads]

end Props
