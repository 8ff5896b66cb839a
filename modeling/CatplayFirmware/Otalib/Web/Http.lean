import CatplayFirmware.Support.Bytes
import CatplayFirmware.Support.Rust
import CatplayFirmware.Support.Utf8

/-!
# Reading a request

The server reads from a client until it has found the end of the header and as many bytes after
it as the header declares, and gives up when its buffer is full or the client ends. How the
bytes of a client are split into reads makes no difference. What makes one is the header: a
length counts as none when the header is not UTF-8 or the length is no `usize`, the sum of the
header and the length may overflow, and a line that has a character across its fifteenth byte
is cut inside this character.
-/

namespace Web

open Bytes Rust Outcome

/-! ### Searching -/

/-- The loops of `find_header_terminator` and `find_crlf` over the indices from `i` on, where
the bytes from `i` on are given. -/
def findFrom (pat : Bytes) : ℕ → Bytes → Option ℕ
  | _, [] => none
  | i, b :: rest => if pat <+: b :: rest then some i else findFrom pat (i + 1) rest

def terminator : Bytes := [0x0D, 0x0A, 0x0D, 0x0A]

def crlf : Bytes := [0x0D, 0x0A]

def findHeaderTerminator (buf : Bytes) : Option ℕ :=
  if buf.length < 4 then none else findFrom terminator 0 buf

def findCrlf (buf : Bytes) : Option ℕ := findFrom crlf 0 buf

/-! ### The declared length -/

def eqIgnoreAsciiCase (a b : Text) : Bool := a.map Char.toLower == b.map Char.toLower

def contentLength : Text := "content-length:".toList

/-- The loop over the lines of `parse_content_length`. -/
def contentLengthOfLines (bits : ℕ) : List Text → Outcome Empty (Option ℕ)
  | [] => .ok none
  | line :: lines =>
    let line := line.trim
    if 15 ≤ line.byteLen then do
      let name ← strTo line 15
      if eqIgnoreAsciiCase name contentLength then do
        let value ← strFrom line 15
        return Text.parseUnsigned bits value.trim
      else contentLengthOfLines bits lines
    else contentLengthOfLines bits lines

def parseContentLength (bits : ℕ) (header : Bytes) : Outcome Empty (Option ℕ) :=
  match Utf8.decode header with
  | none => .ok none
  | some text => contentLengthOfLines bits text.lines

/-! ### Reading -/

/-- The size of the buffer of `handle_client`. -/
def capacity : ℕ := 8192

/-- A `read` of at most `room` bytes from a client that sends its bytes in some pieces; no bytes
when it has ended. -/
def read (room : ℕ) : List Bytes → Bytes × List Bytes
  | [] => ([], [])
  | piece :: pieces =>
    if piece.length ≤ room then (piece, pieces) else (piece.take room, piece.drop room :: pieces)

/-- The variables of the loop of `read_request`: the bytes read so far, `expected_total`, and
what the client has still to send. -/
structure Reader where
  got : Bytes
  expectedTotal : Option ℕ
  client : List Bytes

/-- The end of a request whose header ends at `hEnd`. -/
def totalAt (build : Build) (buf : Bytes) (hEnd : ℕ) : Outcome Empty ℕ := do
  let header ← sliceTo buf hEnd
  let bodyLen ← parseContentLength build.bits header
  let start ← build.add hEnd 4
  build.add start (bodyLen.getD 0)

/-- `expected_total` after a read. -/
def updateTotal (build : Build) (got : Bytes) : Option ℕ → Outcome Empty (Option ℕ)
  | some total => .ok (some total)
  | none =>
    match findHeaderTerminator got with
    | none => .ok none
    | some hEnd => (totalAt build got hEnd).map some

/-- One round of the loop of `read_request`. It leaves with the length of the request, if there
is one, and the buffer. -/
def readRound (build : Build) (st : Reader) : Reader ⊕ Outcome Empty (Option (ℕ × Bytes)) :=
  if st.got.length < capacity then
    let (bytes, client) := read (capacity - st.got.length) st.client
    if bytes = [] then .inr (.ok none)
    else
      let got := st.got ++ bytes
      match updateTotal build got st.expectedTotal with
      | .error fault => .inr (.error fault)
      | .ok none => .inl ⟨got, none, client⟩
      | .ok (some total) =>
        if total ≤ got.length then
          .inr (.ok (some (total, got ++ List.replicate (capacity - got.length) 0)))
        else .inl ⟨got, some total, client⟩
  else .inr (.ok none)

/-- `read_request`, with the buffer it has filled. Every round reads a byte. -/
def readRequest (build : Build) (client : List Bytes) : Outcome Empty (Option (ℕ × Bytes)) :=
  match Loop.iterate (readRound build) (capacity + 1) ⟨[], none, client⟩ with
  | some result => result
  | none => .diverges

/-! ### Parsing -/

structure HttpRequest where
  method : Text
  path : Text
  body : Bytes

/-- The method and the path of a request line. -/
def parseRequestLine (line : Bytes) : Option (Text × Text) := do
  let line ← Utf8.decode line
  match Text.splitn 3 ' ' line with
  | method :: path :: version :: _ =>
    if ¬ "HTTP/1.".toList <+: version then none
    else if ¬ path.startsWith '/' then none
    else some (method, path)
  | _ => none

def parseHttpRequest (build : Build) (buf : Bytes) : Outcome Empty (Option HttpRequest) :=
  match findHeaderTerminator buf, findCrlf buf with
  | some headerEnd, some lineEnd => do
    let line ← sliceTo buf lineEnd
    match parseRequestLine line with
    | none => return none
    | some (method, path) => do
      let start ← build.add headerEnd 4
      let body ← sliceFrom buf start
      return some ⟨method, path, body⟩
  | _, _ => .ok none

/-! ### What a request declares -/

/-- A line is the one that declares the length of the body. -/
def isContentLength (line : Text) : Bool := eqIgnoreAsciiCase (line.take 15) contentLength

/-- The line of a header that declares the length of the body. -/
def lengthLine (header : Text) : Option Text := (header.lines.map Text.trim).find? isContentLength

/-- The number that a line which declares a length declares, if it is one. -/
def lineNumber (line : Text) : Option ℕ :=
  Text.digits? (Text.stripPlus (Text.trim (line.drop 15)))

/-- The length that a header declares. -/
def declaredLength (header : Text) : ℕ := ((lengthLine header).bind lineNumber).getD 0

/-- The first occurrence of a pattern is at the index `i`. -/
def FirstAt (pat buf : Bytes) (i : ℕ) : Prop :=
  pat <+: buf.drop i ∧ ∀ j < i, ¬ pat <+: buf.drop j

/-- The length that the first header of a stream declares. -/
def bodyLength (stream : Bytes) (hEnd : ℕ) : ℕ :=
  declaredLength (Utf8.decodeLossy (stream.take hEnd))

/-- A request is the first of a stream: its header and as many bytes as the header declares have
arrived and fit the buffer. -/
def IsRequest (stream : Bytes) (total : ℕ) : Prop :=
  ∃ hEnd, FirstAt terminator stream hEnd ∧ total = hEnd + 4 + bodyLength stream hEnd ∧
    total ≤ capacity ∧ total ≤ stream.length

/-- However the bytes of a stream are split into reads, `read_request` gives the request of the
stream, if there is one, and what is parsed from the buffer has the declared bytes as its
body. -/
def Framing (build : Build) (stream : Bytes) : Prop :=
  ∀ client : List Bytes, client.flatten = stream → (∀ piece ∈ client, piece ≠ []) →
    ∃ result, readRequest build client = .ok result ∧
      (∀ total, (∃ out, result = some (total, out)) ↔ IsRequest stream total) ∧
      ∀ total out, result = some (total, out) →
        ∃ request, (sliceTo out total >>= parseHttpRequest build) = .ok request ∧
          ∀ req ∈ request, ∃ hEnd, FirstAt terminator stream hEnd ∧
            req.body = slice stream (hEnd + 4) (bodyLength stream hEnd)

/-- No line before the one that declares the length has a character across its fifteenth
byte. -/
def Uncut (header : Text) : Prop :=
  ∀ line ∈ (header.lines.map Text.trim).takeWhile fun line => !isContentLength line,
    15 ≤ line.byteLen → line.IsCharBoundary 15

instance (header : Text) : Decidable (Uncut header) :=
  inferInstanceAs (Decidable (∀ _ ∈ _, _))

/-- A header that is read as it stands: one that is not text declares no length, no line is cut
inside a character, and the end of the request is a `usize`. -/
structure HeaderOk (bits : ℕ) (stream : Bytes) (hEnd : ℕ) : Prop where
  text : Utf8.decode (stream.take hEnd) = none → bodyLength stream hEnd = 0
  uncut : ∀ header, Utf8.decode (stream.take hEnd) = some header → Uncut header
  inRange : hEnd + 4 + bodyLength stream hEnd < 2 ^ bits

/-! ### The first occurrence is found -/

theorem findFrom_eq_some_iff {pat : Bytes} (hpat : pat ≠ []) {i k : ℕ} {buf : Bytes} :
  findFrom pat i buf = some k ↔ ∃ j, k = i + j ∧ FirstAt pat buf j
  := by
  induction buf generalizing i with
  | nil =>
      rw [findFrom]
      constructor
      · rintro ⟨⟩
      · rintro ⟨j, -, hocc, -⟩
        rw [List.drop_nil] at hocc
        exact absurd (List.prefix_nil.mp hocc) hpat
  | cons b buf ih =>
      rw [findFrom]
      split
      · next hocc =>
        constructor
        · rintro ⟨⟩
          exact ⟨0, rfl, hocc, nofun⟩
        · rintro ⟨j, rfl, -, hfirst⟩
          cases j with
          | zero => rfl
          | succ j => exact absurd hocc (hfirst 0 (Nat.succ_pos j))
      · next hmiss =>
        rw [ih]
        constructor
        · rintro ⟨j, rfl, hocc, hfirst⟩
          refine ⟨j + 1, by omega, hocc, fun j' hj' => ?_⟩
          cases j' with
          | zero => exact hmiss
          | succ j' => exact hfirst j' (by omega)
        · rintro ⟨j, rfl, hocc, hfirst⟩
          cases j with
          | zero => exact absurd hocc hmiss
          | succ j => exact ⟨j, by omega, hocc, fun j' hj' => hfirst (j' + 1) (by omega)⟩

theorem FirstAt.add_length_le {pat buf : Bytes} {i : ℕ} (hpat : pat ≠ [])
    (h : FirstAt pat buf i) :
  i + pat.length ≤ buf.length
  := by
  have hle := h.1.length_le
  have hpos := List.length_pos_iff.mpr hpat
  rw [List.length_drop] at hle
  omega

theorem FirstAt.unique {pat buf : Bytes} {i j : ℕ} (hi : FirstAt pat buf i)
    (hj : FirstAt pat buf j) :
  i = j
  := by
  apply Nat.le_antisymm
  · apply Nat.le_of_not_lt
    intro hlt
    apply hi.2 j hlt hj.1
  · apply Nat.le_of_not_lt
    intro hlt
    apply hj.2 i hlt hi.1

theorem prefix_drop_take_iff {pat buf : Bytes} (hpat : pat ≠ []) {n i : ℕ} :
  pat <+: (buf.take n).drop i ↔ pat <+: buf.drop i ∧ i + pat.length ≤ n
  := by
  have hpos := List.length_pos_iff.mpr hpat
  rw [List.drop_take, List.prefix_take_iff]
  constructor
  · rintro ⟨hocc, hle⟩
    exact ⟨hocc, by omega⟩
  · rintro ⟨hocc, hle⟩
    exact ⟨hocc, by omega⟩

/-- The first occurrence in the beginning of a buffer is the first of the buffer, if the
beginning has all of it. -/
theorem firstAt_take_iff {pat buf : Bytes} (hpat : pat ≠ []) {n i : ℕ} :
  FirstAt pat (buf.take n) i ↔ FirstAt pat buf i ∧ i + pat.length ≤ n
  := by
  rw [FirstAt, FirstAt, prefix_drop_take_iff hpat]
  constructor
  · rintro ⟨⟨hocc, hle⟩, hfirst⟩
    refine ⟨⟨hocc, fun j hj hocc' => ?_⟩, hle⟩
    apply hfirst j hj
    rw [prefix_drop_take_iff hpat]
    exact ⟨hocc', by omega⟩
  · rintro ⟨⟨hocc, hfirst⟩, hle⟩
    refine ⟨⟨hocc, hle⟩, fun j hj hocc' => ?_⟩
    apply hfirst j hj
    rw [prefix_drop_take_iff hpat] at hocc'
    exact hocc'.1

theorem findHeaderTerminator_eq_some_iff {buf : Bytes} {hEnd : ℕ} :
  findHeaderTerminator buf = some hEnd ↔ FirstAt terminator buf hEnd
  := by
  have hne : terminator ≠ [] := by decide
  rw [findHeaderTerminator]
  split
  · next hshort =>
    constructor
    · rintro ⟨⟩
    · intro h
      have hle := h.add_length_le hne
      have hlen : terminator.length = 4 := rfl
      omega
  · rw [findFrom_eq_some_iff hne]
    constructor
    · rintro ⟨j, rfl, h⟩
      rwa [Nat.zero_add]
    · intro h
      exact ⟨hEnd, (Nat.zero_add _).symm, h⟩

/-- The end of the header is found in the beginning of a stream exactly when the beginning has
all of its terminator. -/
theorem findHeaderTerminator_take {stream : Bytes} {n hEnd : ℕ} :
  findHeaderTerminator (stream.take n) = some hEnd ↔
    FirstAt terminator stream hEnd ∧ hEnd + 4 ≤ n
  := by
  rw [findHeaderTerminator_eq_some_iff, firstAt_take_iff (by decide)]
  rfl

/-! ### The length is read -/

theorem utf8Size_toLower (c : Char) : c.toLower.utf8Size = c.utf8Size := by
  by_cases hupper : 'A'.val ≤ c.val ∧ c.val ≤ 'Z'.val
  · have hlower : c.toLower.val = c.val + ('a'.val - 'A'.val) := congrArg Char.val (dif_pos hupper)
    have hc : c.val.toNat ≤ 90 := hupper.2
    have hsum : c.toLower.val.toNat = c.val.toNat + 32 := by
      rw [hlower, UInt32.toNat_add]
      apply Nat.mod_eq_of_lt
      change c.val.toNat + 32 < 2 ^ 32
      omega
    rw [Char.utf8Size_eq_one_iff.mpr (UInt32.le_iff_toNat_le.mpr _),
      Char.utf8Size_eq_one_iff.mpr (UInt32.le_iff_toNat_le.mpr _)]
    · change c.val.toNat ≤ 127
      omega
    · change c.toLower.val.toNat ≤ 127
      omega
  · have hsame : c.toLower = c := dif_neg hupper
    rw [hsame]

theorem byteLen_map_toLower (s : Text) : Text.byteLen (s.map Char.toLower) = s.byteLen := by
  rw [Text.byteLen, Text.byteLen, List.map_map]
  congr 1
  apply List.map_congr_left
  intro c _
  apply utf8Size_toLower

/-- A text that spells the name of the line that declares the length has fifteen bytes. -/
theorem byteLen_of_eqIgnoreAsciiCase {s : Text} (h : eqIgnoreAsciiCase s contentLength = true) :
  s.byteLen = 15 ∧ s.length = 15
  := by
  rw [eqIgnoreAsciiCase, beq_iff_eq] at h
  constructor
  · rw [← byteLen_map_toLower, h]
    decide +kernel
  · rw [← List.length_map Char.toLower, h]
    decide +kernel

theorem splitAtByte_contentLength {line : Text} (h : isContentLength line = true) :
  line.splitAtByte 15 = some (line.take 15, line.drop 15) ∧ 15 ≤ line.byteLen
  := by
  have hlen := (byteLen_of_eqIgnoreAsciiCase h).1
  constructor
  · apply Text.splitAtByte_eq_some_iff.mpr
    exact ⟨(List.take_append_drop 15 line).symm, hlen⟩
  · rw [← List.take_append_drop 15 line, Text.byteLen_append, hlen]
    apply Nat.le_add_right

/-- The first fifteen bytes of a line spell the name of the line that declares the length
exactly when its first fifteen characters do. -/
theorem eqIgnoreAsciiCase_split {line a b : Text} (h : line.splitAtByte 15 = some (a, b)) :
  eqIgnoreAsciiCase a contentLength = isContentLength line
  := by
  rw [Bool.eq_iff_iff]
  constructor
  · intro ha
    obtain ⟨rfl, -⟩ := Text.splitAtByte_eq_some_iff.mp h
    rw [isContentLength, List.take_left' (byteLen_of_eqIgnoreAsciiCase ha).2]
    exact ha
  · intro hline
    rw [(splitAtByte_contentLength hline).1] at h
    cases h
    exact hline

/-- The lines up to the one that declares the length are gone through, if none has a character
across its fifteenth byte. -/
theorem contentLengthOfLines_ok (bits : ℕ) {lines : List Text}
    (h : ∀ line ∈ (lines.map Text.trim).takeWhile fun line => !isContentLength line,
      15 ≤ line.byteLen → line.IsCharBoundary 15) :
  contentLengthOfLines bits lines = .ok (((lines.map Text.trim).find? isContentLength).bind
    fun line => Text.parseUnsigned bits (Text.trim (line.drop 15)))
  := by
  induction lines with
  | nil => rfl
  | cons line lines ih =>
      rw [List.map_cons] at h ⊢
      rw [contentLengthOfLines]
      cases hline : isContentLength line.trim with
      | true =>
          obtain ⟨hsplit, hlong⟩ := splitAtByte_contentLength hline
          rw [if_pos hlong, strTo, hsplit]
          simp only [Except.ok_bind]
          rw [eqIgnoreAsciiCase_split hsplit, if_pos hline, strFrom, hsplit,
            List.find?_cons_of_pos hline]
          rfl
      | false =>
          have hnot : ¬ isContentLength line.trim = true := by
            rw [hline]
            exact Bool.false_ne_true
          rw [List.takeWhile_cons_of_pos (by rw [hline]; rfl)] at h
          have hrest := ih fun line' hline' => h line' (List.mem_cons_of_mem _ hline')
          rw [List.find?_cons_of_neg hnot, ← hrest]
          split
          · next hlong =>
            have hboundary := h line.trim List.mem_cons_self hlong
            obtain ⟨⟨a, b⟩, hsplit⟩ :=
              Option.isSome_iff_exists.mp (Text.isSome_splitAtByte.mpr hboundary)
            rw [strTo, hsplit]
            simp only [Except.ok_bind]
            rw [eqIgnoreAsciiCase_split hsplit, if_neg hnot]
          · rfl

/-- A line before the one that declares the length with a character across its fifteenth byte
makes the loop over the lines panic. -/
theorem contentLengthOfLines_panics (bits : ℕ) {lines : List Text}
    (h : ¬ ∀ line ∈ (lines.map Text.trim).takeWhile fun line => !isContentLength line,
      15 ≤ line.byteLen → line.IsCharBoundary 15) :
  contentLengthOfLines bits lines = .panics
  := by
  induction lines with
  | nil => exact absurd nofun h
  | cons line lines ih =>
      rw [List.map_cons] at h
      cases hline : isContentLength line.trim with
      | true =>
          rw [List.takeWhile_cons_of_neg (by rw [hline]; exact Bool.false_ne_true)] at h
          exact absurd nofun h
      | false =>
          have hnot : ¬ isContentLength line.trim = true := by
            rw [hline]
            exact Bool.false_ne_true
          rw [List.takeWhile_cons_of_pos (by rw [hline]; rfl), List.forall_mem_cons] at h
          rw [contentLengthOfLines]
          split
          · next hlong =>
            cases hsplit : line.trim.splitAtByte 15 with
            | none =>
                rw [strTo, hsplit]
                rfl
            | some ab =>
                obtain ⟨a, b⟩ := ab
                have hboundary : line.trim.IsCharBoundary 15 := by
                  rw [← Text.isSome_splitAtByte, hsplit]
                  rfl
                rw [strTo, hsplit]
                simp only [Except.ok_bind]
                rw [eqIgnoreAsciiCase_split hsplit, if_neg hnot]
                apply ih
                intro hrest
                exact h ⟨fun _ => hboundary, hrest⟩
          · next hshort =>
            apply ih
            intro hrest
            exact h ⟨fun hlong => absurd hlong hshort, hrest⟩

/-- The length that is read is the one declared, if it is a `usize`, and otherwise zero. -/
theorem parseContentLength_ok (bits : ℕ) {header : Bytes} {text : Text}
    (htext : Utf8.decode header = some text) (huncut : Uncut text) :
  ∃ len, parseContentLength bits header = .ok len ∧
    len.getD 0 = if declaredLength text < 2 ^ bits then declaredLength text else 0
  := by
  rw [parseContentLength, htext]
  refine ⟨_, contentLengthOfLines_ok bits huncut, ?_⟩
  rw [declaredLength, lengthLine]
  cases (text.lines.map Text.trim).find? isContentLength with
  | none => simp
  | some line =>
      rw [Option.bind_some, Option.bind_some, Text.parseUnsigned, lineNumber]
      cases Text.digits? (Text.stripPlus (Text.trim (line.drop 15))) with
      | none => simp
      | some n =>
          by_cases hn : n < 2 ^ bits
          · simp [Option.filter, hn]
          · simp [Option.filter, hn]

/-! ### Reads make no difference -/

/-- What a read leaves: the bytes read and those still to come are the ones that were to come,
there are not more than there is room for, and there are some unless the client has ended. -/
structure ReadOk (room : ℕ) (client : List Bytes) (read : Bytes × List Bytes) : Prop where
  bytes : read.1 ++ read.2.flatten = client.flatten
  room : read.1.length ≤ room
  pieces : ∀ piece ∈ read.2, piece ≠ []
  ended : read.1 = [] → client = []

theorem read_ok {room : ℕ} (hroom : 0 < room) {client : List Bytes}
    (hpieces : ∀ piece ∈ client, piece ≠ []) :
  ReadOk room client (read room client)
  := by
  cases client with
  | nil => exact ⟨rfl, Nat.zero_le _, nofun, fun _ => rfl⟩
  | cons piece pieces =>
      have hpiece := hpieces piece List.mem_cons_self
      have hrest : ∀ piece ∈ pieces, piece ≠ [] :=
        fun piece hmem => hpieces piece (List.mem_cons_of_mem _ hmem)
      rw [read]
      split
      · next hfits =>
        constructor
        · rw [List.flatten_cons]
        · exact hfits
        · exact hrest
        · intro hnil
          exact absurd hnil hpiece
      · next hlong =>
        rw [Nat.not_le] at hlong
        constructor
        · simp only [List.flatten_cons]
          rw [← List.append_assoc, List.take_append_drop]
        · simp only [List.length_take]
          omega
        · intro piece' hmem
          rcases List.mem_cons.mp hmem with rfl | hmem
          · rw [ne_eq, List.drop_eq_nil_iff]
            omega
          · exact hrest piece' hmem
        · intro hnil
          rw [List.take_eq_nil_iff] at hnil
          rcases hnil with hzero | hnil
          · omega
          · exact absurd hnil hpiece

theorem totalAt_append (build : Build) {got : Bytes} {hEnd : ℕ} (h : hEnd ≤ got.length)
    (bytes : Bytes) :
  totalAt build (got ++ bytes) hEnd = totalAt build got hEnd
  := by
  have hle : hEnd ≤ (got ++ bytes).length := by
    rw [List.length_append]
    omega
  rw [totalAt, totalAt, sliceTo_ok hle, sliceTo_ok h, List.take_append_of_le_length h]

/-- What has been made of the beginning of a stream is not changed by what follows. -/
theorem updateTotal_append {build : Build} {got : Bytes}
    (h : updateTotal build got none ≠ .ok none) (bytes : Bytes) :
  updateTotal build (got ++ bytes) none = updateTotal build got none
  := by
  cases hfind : findHeaderTerminator got with
  | none => exact absurd (by rw [updateTotal, hfind]) h
  | some hEnd =>
      have hfirst : FirstAt terminator ((got ++ bytes).take got.length) hEnd := by
        rw [List.take_left]
        apply findHeaderTerminator_eq_some_iff.mp hfind
      obtain ⟨hfirst, hle⟩ := (firstAt_take_iff (by decide)).mp hfirst
      rw [updateTotal, updateTotal, hfind, findHeaderTerminator_eq_some_iff.mpr hfirst]
      simp only
      rw [totalAt_append build (Nat.le_of_add_right_le hle)]

/-- What `read_request` makes of a stream: it looks at as many bytes as its buffer holds, and
there is a request if they have all of it. -/
def framed (build : Build) (stream : Bytes) : Outcome Empty (Option ℕ) :=
  (updateTotal build (stream.take capacity) none).map
    (Option.filter fun total => total ≤ (stream.take capacity).length)

/-- A result of `read_request` is what it makes of a stream, with the bytes of the request in the
buffer. -/
structure ReadsAs (build : Build) (stream : Bytes) (result : Outcome Empty (Option (ℕ × Bytes))) :
    Prop where
  length : result.map (Option.map Prod.fst) = framed build stream
  buffer : ∀ total out, result = .ok (some (total, out)) →
    total ≤ capacity ∧ total ≤ stream.length ∧ out.length = capacity ∧
      out.take total = stream.take total

/-- The loop of `read_request` over a stream: what it has read and what is to come are the
stream, and `expected_total` is what it would be if all that is read had come at once. -/
structure Reading (build : Build) (stream : Bytes) (st : Reader) : Prop where
  stream : st.got ++ st.client.flatten = stream
  room : st.got.length ≤ capacity
  pieces : ∀ piece ∈ st.client, piece ≠ []
  total : updateTotal build st.got none = .ok st.expectedTotal
  more : ∀ total ∈ st.expectedTotal, st.got.length < total

theorem Reading.updateTotal_eq {build : Build} {stream : Bytes} {st : Reader}
    (h : Reading build stream st) (bytes : Bytes) :
  updateTotal build (st.got ++ bytes) st.expectedTotal =
    updateTotal build (st.got ++ bytes) none
  := by
  have htotal := h.total
  cases hexpected : st.expectedTotal with
  | none => rfl
  | some total =>
      rw [hexpected] at htotal
      rw [updateTotal_append (by rw [htotal]; simp), htotal]
      rfl

/-- A loop that can read no more has found no request. -/
theorem Reading.ends {build : Build} {stream : Bytes} {st : Reader}
    (h : Reading build stream st) (hgot : st.got = stream.take capacity) :
  ReadsAs build stream (.ok none)
  := by
  constructor
  · rw [framed, ← hgot, h.total]
    have hnone : st.expectedTotal.filter (fun total => total ≤ st.got.length) = none := by
      rw [Option.filter_eq_none_iff]
      intro total htotal
      have hmore := h.more total htotal
      simp only [decide_eq_true_eq]
      omega
    change _ = Except.ok (Option.filter _ st.expectedTotal)
    rw [hnone]
    rfl
  · rintro total out ⟨⟩

/-- What a buffer holds of a stream, as what it has and some bytes that follow. -/
theorem take_capacity {stream got rest : Bytes} (hstream : got ++ rest = stream)
    (hroom : got.length ≤ capacity) :
  ∃ bytes, stream.take capacity = got ++ bytes
  := by
  use rest.take (capacity - got.length)
  rw [← hstream, List.take_append, List.take_of_length_le hroom]

/-- A round that leaves because it has found a request, or has not come to an end. -/
theorem readsAs_of_updateTotal {build : Build} {stream got rest : Bytes}
    (hstream : got ++ rest = stream) (hroom : got.length ≤ capacity) {total : ℕ}
    (htotal : updateTotal build got none = .ok (some total)) (hle : total ≤ got.length) :
  ReadsAs build stream
    (.ok (some (total, got ++ List.replicate (capacity - got.length) 0)))
  := by
  obtain ⟨bytes, htake⟩ := take_capacity hstream hroom
  have hfits : total ≤ (got ++ bytes).length := by
    rw [List.length_append]
    omega
  constructor
  · rw [framed, htake, updateTotal_append (by rw [htotal]; simp), htotal]
    change _ = Except.ok (Option.filter _ (some total))
    rw [Option.filter_some, if_pos (by simpa using hfits)]
    rfl
  · rintro total' out ⟨⟩
    refine ⟨Nat.le_trans hle hroom, ?_, ?_, ?_⟩
    · rw [← hstream, List.length_append]
      omega
    · rw [List.length_append, List.length_replicate]
      omega
    · rw [← hstream, List.take_append_of_le_length hle, List.take_append_of_le_length hle]

theorem readsAs_of_fault {build : Build} {stream got rest : Bytes} (hstream : got ++ rest = stream)
    (hroom : got.length ≤ capacity) {fault : Fault Empty}
    (hfault : updateTotal build got none = .error fault) :
  ReadsAs build stream (.error fault)
  := by
  obtain ⟨bytes, htake⟩ := take_capacity hstream hroom
  constructor
  · rw [framed, htake, updateTotal_append (by rw [hfault]; simp), hfault]
    rfl
  · rintro total out ⟨⟩

/-- A round goes on reading, with more in the buffer, or leaves with what is made of the
stream. -/
theorem readRound_spec {build : Build} {stream : Bytes} {st : Reader}
    (h : Reading build stream st) :
  (∀ st', readRound build st = .inl st' →
    Reading build stream st' ∧ capacity - st'.got.length < capacity - st.got.length) ∧
  (∀ result, readRound build st = .inr result → ReadsAs build stream result)
  := by
  rw [readRound]
  split
  · next hroom =>
    have hread := read_ok (Nat.sub_pos_of_lt hroom) h.pieces
    cases hcase : read (capacity - st.got.length) st.client with
    | mk bytes client =>
        rw [hcase] at hread
        obtain ⟨hbytes, hlen, hpieces, hended⟩ := hread
        simp only at hbytes hlen hpieces hended ⊢
        split
        · next hnil =>
          constructor
          · rintro st' ⟨⟩
          · rintro result ⟨⟩
            apply h.ends
            rw [← h.stream, hended hnil, List.flatten_nil, List.append_nil,
              List.take_of_length_le h.room]
        · next hsome =>
          have hstream : st.got ++ bytes ++ client.flatten = stream := by
            rw [List.append_assoc, hbytes, h.stream]
          have hgot : (st.got ++ bytes).length = st.got.length + bytes.length :=
            List.length_append
          have hpos := List.length_pos_iff.mpr hsome
          have hroom' : (st.got ++ bytes).length ≤ capacity := by omega
          rw [h.updateTotal_eq]
          split
          · next fault hfault =>
            constructor
            · rintro st' ⟨⟩
            · rintro result ⟨⟩
              apply readsAs_of_fault hstream hroom' hfault
          · next hnone =>
            constructor
            · rintro st' ⟨⟩
              exact ⟨⟨hstream, hroom', hpieces, hnone, nofun⟩, by simp only; omega⟩
            · rintro result ⟨⟩
          · next total htotal =>
            split
            · next hle =>
              constructor
              · rintro st' ⟨⟩
              · rintro result ⟨⟩
                apply readsAs_of_updateTotal hstream hroom' htotal hle
            · next hmore =>
              constructor
              · rintro st' ⟨⟩
                refine ⟨⟨hstream, hroom', hpieces, htotal, ?_⟩, by simp only; omega⟩
                rintro total' ⟨⟩
                exact Nat.not_le.mp hmore
              · rintro result ⟨⟩
  · next hfull =>
    constructor
    · rintro st' ⟨⟩
    · rintro result ⟨⟩
      apply h.ends
      rw [← h.stream, List.take_append_of_le_length, List.take_of_length_le]
      · exact h.room
      · omega

/-- However a stream is split into reads, the result is what is made of the stream. -/
theorem readRequest_readsAs (build : Build) {client : List Bytes}
    (hpieces : ∀ piece ∈ client, piece ≠ []) :
  ReadsAs build client.flatten (readRequest build client)
  := by
  have hstart : Reading build client.flatten ⟨[], none, client⟩ :=
    ⟨rfl, Nat.zero_le _, hpieces, rfl, nofun⟩
  obtain ⟨result, hresult, hreads⟩ := Loop.iterate_total (Reading build client.flatten)
    (fun st => capacity - st.got.length) (ReadsAs build client.flatten)
    (fun st st' h hround => (readRound_spec h).1 st' hround)
    (fun st result h hround => (readRound_spec h).2 result hround) hstart (Nat.lt_succ_self _)
  change Loop.iterate (readRound build) (capacity + 1) _ = some result at hresult
  rw [readRequest, hresult]
  exact hreads

/-! ### What is made of a stream -/

theorem framed_none (build : Build) {stream : Bytes}
    (h : ∀ hEnd, FirstAt terminator stream hEnd → capacity < hEnd + 4) :
  framed build stream = .ok none
  := by
  have hfind : findHeaderTerminator (stream.take capacity) = none := by
    apply Option.eq_none_iff_forall_ne_some.mpr
    intro hEnd hsome
    obtain ⟨hfirst, hle⟩ := findHeaderTerminator_take.mp hsome
    have hlt := h hEnd hfirst
    omega
  rw [framed, updateTotal, hfind]
  rfl

theorem framed_some (build : Build) {stream : Bytes} {hEnd : ℕ}
    (hfirst : FirstAt terminator stream hEnd) (hle : hEnd + 4 ≤ capacity) :
  framed build stream = (totalAt build stream hEnd).map fun total =>
    if total ≤ capacity ∧ total ≤ stream.length then some total else none
  := by
  have hlen : (stream.take capacity).length = min capacity stream.length := List.length_take
  have hstream : hEnd + 4 ≤ stream.length := hfirst.add_length_le (by decide)
  have htotal : totalAt build (stream.take capacity) hEnd = totalAt build stream hEnd := by
    conv_rhs => rw [← List.take_append_drop capacity stream]
    rw [totalAt_append]
    omega
  rw [framed, updateTotal, findHeaderTerminator_take.mpr ⟨hfirst, hle⟩]
  simp only
  rw [htotal, hlen]
  cases totalAt build stream hEnd with
  | error fault => rfl
  | ok total =>
      change Except.ok (Option.filter _ (some total)) = Except.ok _
      rw [Option.filter_some]
      simp only [decide_eq_true_eq, Nat.le_min]

theorem bodyLength_of_decode {stream : Bytes} {hEnd : ℕ} {header : Text}
    (h : Utf8.decode (stream.take hEnd) = some header) :
  bodyLength stream hEnd = declaredLength header
  := by
  rw [bodyLength, Utf8.decodeLossy_of_decode h]

/-- The end of a request as the code adds it up. -/
theorem totalAt_of_length {build : Build} {stream : Bytes} {hEnd : ℕ} {len : Option ℕ}
    (hle : hEnd ≤ stream.length) (hstart : hEnd + 4 < 2 ^ build.bits)
    (hlen : parseContentLength build.bits (stream.take hEnd) = .ok len) :
  totalAt build stream hEnd = build.add (hEnd + 4) (len.getD 0)
  := by
  rw [totalAt, sliceTo_ok hle, Except.ok_bind, hlen, Except.ok_bind, Build.add_inRange hstart,
    Except.ok_bind]

theorem parseContentLength_panics (bits : ℕ) {header : Bytes} {text : Text}
    (htext : Utf8.decode header = some text) (hcut : ¬ Uncut text) :
  parseContentLength bits header = .panics
  := by
  rw [parseContentLength, htext]
  apply contentLengthOfLines_panics bits hcut

/-- A header that is not text is taken for one that declares no length. -/
theorem totalAt_undecoded {build : Build} {stream : Bytes} {hEnd : ℕ} (hle : hEnd ≤ stream.length)
    (hstart : hEnd + 4 < 2 ^ build.bits) (htext : Utf8.decode (stream.take hEnd) = none) :
  totalAt build stream hEnd = .ok (hEnd + 4)
  := by
  have hlen : parseContentLength build.bits (stream.take hEnd) = .ok none := by
    rw [parseContentLength, htext]
  rw [totalAt_of_length hle hstart hlen, Option.getD_none, Build.add_inRange (b := 0) hstart]

/-- A header that is read as it stands gives the end of the request. -/
theorem totalAt_ok {build : Build} {stream : Bytes} {hEnd : ℕ} (hle : hEnd ≤ stream.length)
    (h : HeaderOk build.bits stream hEnd) :
  totalAt build stream hEnd = .ok (hEnd + 4 + bodyLength stream hEnd)
  := by
  have hinRange := h.inRange
  cases htext : Utf8.decode (stream.take hEnd) with
  | none =>
      rw [h.text htext] at hinRange ⊢
      rw [totalAt_undecoded hle hinRange htext]
  | some header =>
      obtain ⟨len, hlen, hvalue⟩ := parseContentLength_ok build.bits htext (h.uncut header htext)
      rw [bodyLength_of_decode htext] at hinRange ⊢
      rw [if_pos (by omega)] at hvalue
      rw [totalAt_of_length hle (by omega) hlen, hvalue, Build.add_inRange hinRange]

/-- A header that is not read as it stands gives a fault, or the end of another request, which
ends with its header or before. -/
theorem totalAt_wrong {build : Build} {stream : Bytes} {hEnd : ℕ} (hle : hEnd ≤ stream.length)
    (hstart : hEnd + 4 < 2 ^ build.bits) (h : ¬ HeaderOk build.bits stream hEnd) :
  totalAt build stream hEnd = .panics ∨
    ∃ total ≤ hEnd + 4, totalAt build stream hEnd = .ok total ∧
      total ≠ hEnd + 4 + bodyLength stream hEnd
  := by
  cases htext : Utf8.decode (stream.take hEnd) with
  | none =>
      refine .inr ⟨hEnd + 4, Nat.le_refl _, totalAt_undecoded hle hstart htext, ?_⟩
      · intro hsame
        have hzero : bodyLength stream hEnd = 0 := by omega
        apply h
        constructor
        · exact fun _ => hzero
        · rw [htext]
          exact nofun
        · rw [hzero]
          exact hstart
  | some header =>
      by_cases huncut : Uncut header
      · obtain ⟨len, hlen, hvalue⟩ := parseContentLength_ok build.bits htext huncut
        rw [bodyLength_of_decode htext]
        have hlong : 2 ^ build.bits ≤ hEnd + 4 + declaredLength header := by
          apply Nat.le_of_not_lt
          intro hlt
          apply h
          constructor
          · rw [htext]
            exact nofun
          · rw [htext]
            rintro header' ⟨⟩
            exact huncut
          · rw [bodyLength_of_decode htext]
            exact hlt
        rw [totalAt_of_length hle hstart hlen, hvalue]
        split
        · next hfits =>
          rcases Build.add_overflow hstart hfits hlong with ⟨-, hpanics⟩ | ⟨-, total, hlt, htotal⟩
          · exact .inl hpanics
          · exact .inr ⟨total, Nat.le_of_lt hlt, htotal, by omega⟩
        · next hlarge =>
          refine .inr ⟨hEnd + 4, Nat.le_refl _, ?_, by omega⟩
          rw [Build.add_inRange (b := 0) hstart]
      · left
        rw [totalAt, sliceTo_ok hle, Except.ok_bind, parseContentLength_panics _ htext huncut]
        rfl

/-! ### The parser of requests -/

/-- What is parsed from a buffer has all that follows the header as its body. -/
theorem parseHttpRequest_ok {build : Build} {buf : Bytes} (hbuf : buf.length < 2 ^ build.bits) :
  ∃ request, parseHttpRequest build buf = .ok request ∧
    ∀ req ∈ request, ∃ hEnd, FirstAt terminator buf hEnd ∧ req.body = buf.drop (hEnd + 4)
  := by
  rw [parseHttpRequest]
  cases hterminator : findHeaderTerminator buf with
  | none => exact ⟨none, rfl, nofun⟩
  | some hEnd =>
      cases hcrlf : findCrlf buf with
      | none => exact ⟨none, rfl, nofun⟩
      | some lineEnd =>
          have hfirst := findHeaderTerminator_eq_some_iff.mp hterminator
          have hhead : hEnd + 4 ≤ buf.length := hfirst.add_length_le (by decide)
          obtain ⟨j, rfl, hline⟩ := (findFrom_eq_some_iff (by decide)).mp hcrlf
          have hline := hline.add_length_le (by decide)
          simp only
          rw [sliceTo_ok (by omega), Except.ok_bind]
          cases hparsed : parseRequestLine (buf.take (0 + j)) with
          | none => exact ⟨none, rfl, nofun⟩
          | some methodPath =>
              obtain ⟨method, path⟩ := methodPath
              simp only
              rw [Build.add_inRange (by omega), Except.ok_bind, sliceFrom_ok hhead, Except.ok_bind]
              refine ⟨_, rfl, ?_⟩
              rintro req ⟨⟩
              exact ⟨hEnd, hfirst, rfl⟩

/-! ### Framing -/

theorem map_fst_eq_some_iff {result : Option (ℕ × Bytes)} {total : ℕ} :
  result.map Prod.fst = some total ↔ ∃ out, result = some (total, out)
  := by
  rw [Option.map_eq_some_iff]
  constructor
  · rintro ⟨⟨total', out⟩, hresult, rfl⟩
    exact ⟨out, hresult⟩
  · rintro ⟨out, hresult⟩
    exact ⟨(total, out), hresult, rfl⟩

theorem isRequest_iff {stream : Bytes} {hEnd total : ℕ} (hfirst : FirstAt terminator stream hEnd) :
  IsRequest stream total ↔
    total = hEnd + 4 + bodyLength stream hEnd ∧ total ≤ capacity ∧ total ≤ stream.length
  := by
  constructor
  · rintro ⟨hEnd', hfirst', h⟩
    rw [hfirst.unique hfirst']
    exact h
  · intro h
    exact ⟨hEnd, hfirst, h⟩

/-- A stream whose header is read as it stands is framed as it declares. -/
theorem framed_of_headerOk {build : Build} {stream : Bytes}
    (h : ∀ hEnd, FirstAt terminator stream hEnd → hEnd + 4 ≤ capacity →
      HeaderOk build.bits stream hEnd) :
  ∃ request, framed build stream = .ok request ∧
    ∀ total, request = some total ↔ IsRequest stream total
  := by
  by_cases hheader : ∃ hEnd, FirstAt terminator stream hEnd ∧ hEnd + 4 ≤ capacity
  · obtain ⟨hEnd, hfirst, hle⟩ := hheader
    have hstream : hEnd + 4 ≤ stream.length := hfirst.add_length_le (by decide)
    use if hEnd + 4 + bodyLength stream hEnd ≤ capacity ∧
      hEnd + 4 + bodyLength stream hEnd ≤ stream.length
      then some (hEnd + 4 + bodyLength stream hEnd) else none
    constructor
    · rw [framed_some build hfirst hle, totalAt_ok (by omega) (h hEnd hfirst hle)]
      rfl
    · intro total
      rw [isRequest_iff hfirst]
      split
      · next hfits =>
        constructor
        · rintro ⟨⟩
          exact ⟨rfl, hfits⟩
        · rintro ⟨rfl, -⟩
          rfl
      · next hmisfit =>
        constructor
        · rintro ⟨⟩
        · rintro ⟨rfl, hfits⟩
          exact absurd hfits hmisfit
  · have hlate : ∀ hEnd, FirstAt terminator stream hEnd → capacity < hEnd + 4 := by
      intro hEnd hfirst
      apply Nat.lt_of_not_le
      intro hle
      exact hheader ⟨hEnd, hfirst, hle⟩
    use none, framed_none build hlate
    intro total
    constructor
    · rintro ⟨⟩
    · rintro ⟨hEnd, hfirst, rfl, hcapacity, -⟩
      have hlt := hlate hEnd hfirst
      omega

/-- A header that is not read as it stands breaks the framing already when all bytes are read at
once. -/
theorem not_framing {build : Build} (hcapacity : capacity < 2 ^ build.bits) {stream : Bytes}
    {hEnd : ℕ} (hfirst : FirstAt terminator stream hEnd) (hle : hEnd + 4 ≤ capacity)
    (hwrong : ¬ HeaderOk build.bits stream hEnd) :
  ¬ Framing build stream
  := by
  intro hframing
  have hstream : hEnd + 4 ≤ stream.length := hfirst.add_length_le (by decide)
  have hpieces : ∀ piece ∈ [stream], piece ≠ [] := by
    intro piece hpiece
    rw [List.mem_singleton.mp hpiece, ← List.length_pos_iff]
    omega
  have hflatten : [stream].flatten = stream := List.flatten_singleton
  obtain ⟨result, hresult, hrequest, -⟩ := hframing [stream] hflatten hpieces
  have hreads := (readRequest_readsAs build hpieces).length
  rw [hresult, hflatten, framed_some build hfirst hle] at hreads
  rcases totalAt_wrong (by omega) (by omega) hwrong with hpanics | ⟨total, hshort, htotal, hne⟩
  · rw [hpanics] at hreads
    cases hreads
  · rw [htotal] at hreads
    have hsome : result.map Prod.fst = some total := by
      have hreads := Except.ok.inj hreads
      simp only at hreads
      rw [if_pos ⟨by omega, by omega⟩] at hreads
      exact hreads
    have hisRequest := (hrequest total).mp (map_fst_eq_some_iff.mp hsome)
    exact hne ((isRequest_iff hfirst).mp hisRequest).1

/-- A header that is read as it stands, if there is one that ends inside the buffer, is framed as
it declares. -/
theorem framing_of_headerOk {build : Build} (hcapacity : capacity < 2 ^ build.bits)
    {stream : Bytes}
    (h : ∀ hEnd, FirstAt terminator stream hEnd → hEnd + 4 ≤ capacity →
      HeaderOk build.bits stream hEnd) :
  Framing build stream
  := by
  rintro client rfl hpieces
  have hreads := readRequest_readsAs build hpieces
  obtain ⟨request, hframed, hrequest⟩ := framed_of_headerOk h
  have hlength := hreads.length
  rw [hframed, Except.map_eq_ok_iff] at hlength
  obtain ⟨result, hresult, rfl⟩ := hlength
  use result, hresult
  constructor
  · intro total
    rw [← hrequest total, map_fst_eq_some_iff]
  · rintro total out rfl
    obtain ⟨htotal, -, hout, htake⟩ := hreads.buffer total out hresult
    obtain ⟨hEnd, hfirst, hend, -, -⟩ := (hrequest total).mp rfl
    have hshort : (client.flatten.take total).length < 2 ^ build.bits := by
      rw [List.length_take]
      omega
    obtain ⟨parsed, hparsed, hbody⟩ := parseHttpRequest_ok hshort
    use parsed
    rw [sliceTo_ok (by omega), Except.ok_bind, htake]
    use hparsed
    intro req hreq
    obtain ⟨hEnd', hfirst', hreqBody⟩ := hbody req hreq
    obtain ⟨hfirst', -⟩ := (firstAt_take_iff (by decide)).mp hfirst'
    obtain rfl := hfirst.unique hfirst'
    use hEnd, hfirst
    rw [hreqBody, List.drop_take, slice, hend, Nat.add_sub_cancel_left]

theorem capacity_lt {build : Build} (hbits : build.bits = 32 ∨ build.bits = 64) :
  capacity < 2 ^ build.bits
  := by
  rcases hbits with hbits | hbits
  · rw [hbits]
    decide
  · rw [hbits]
    decide

/-- The framing of requests does not depend on how the bytes of a client are split into reads and
honours the declared length, exactly when the header, if it ends inside the buffer, is read as
it stands. -/
theorem framing_iff {build : Build} (hbits : build.bits = 32 ∨ build.bits = 64)
    (stream : Bytes) :
  Framing build stream ↔
    ∀ hEnd, FirstAt terminator stream hEnd → hEnd + 4 ≤ capacity →
      HeaderOk build.bits stream hEnd
  := by
  constructor
  · intro hframing hEnd hfirst hle
    by_contra hwrong
    apply not_framing (capacity_lt hbits) hfirst hle hwrong hframing
  · apply framing_of_headerOk (capacity_lt hbits)

/-- The stream of a header and some bytes after it. -/
def headerStream (header : Text) (body : Bytes) : Bytes := Utf8.encode header ++ terminator ++ body

theorem take_headerStream (header : Text) (body : Bytes) :
  (headerStream header body).take header.byteLen = Utf8.encode header
  := by
  rw [headerStream, List.append_assoc, ← Utf8.length_encode, List.take_left]

theorem bodyLength_headerStream (header : Text) (body : Bytes) :
  bodyLength (headerStream header body) header.byteLen = declaredLength header
  := by
  rw [bodyLength, take_headerStream, Utf8.decodeLossy_encode]

def putHeader : Text := "PUT /prop/a HTTP/1.1\r\nContent-Length: 1".toList

/-- A request that sets a property to a value of one byte is framed. -/
theorem framing_putHeader : Framing ⟨32, true⟩ (headerStream putHeader [0x31]) := by
  apply (framing_iff (.inl rfl) _).mpr
  intro hEnd hfirst _
  have hfind : findHeaderTerminator (headerStream putHeader [0x31]) = some putHeader.byteLen := by
    decide +kernel
  obtain rfl := hfirst.unique (findHeaderTerminator_eq_some_iff.mp hfind)
  constructor
  · rw [take_headerStream, Utf8.decode_encode]
    rintro ⟨⟩
  · rw [take_headerStream, Utf8.decode_encode]
    rintro header ⟨⟩
    decide +kernel
  · rw [bodyLength_headerStream]
    decide +kernel

def hugeHeader : Text := "PUT /prop/a HTTP/1.1\r\nContent-Length: 18446744073709551616".toList

/-- A request that declares more bytes than a `usize` can count is taken for one without a
body. -/
theorem exists_not_framing :
  ∃ stream, ∀ overflowChecks, ¬ Framing ⟨64, overflowChecks⟩ stream
  := by
  use headerStream hugeHeader []
  intro overflowChecks
  have hfind : findHeaderTerminator (headerStream hugeHeader []) = some hugeHeader.byteLen := by
    decide +kernel
  apply not_framing (capacity_lt (.inr rfl)) (findHeaderTerminator_eq_some_iff.mp hfind)
  · decide +kernel
  · intro hok
    have hinRange : hugeHeader.byteLen + 4 +
        bodyLength (headerStream hugeHeader []) hugeHeader.byteLen < 2 ^ 64 := hok.inRange
    have hdeclared : declaredLength hugeHeader = 2 ^ 64 := by decide +kernel
    rw [bodyLength_headerStream, hdeclared] at hinRange
    omega

end Web
