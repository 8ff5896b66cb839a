import CatplayFirmware.Otalib.Web.Http
import CatplayFirmware.Otalib.Web.Json

/-!
# The web server

A client is answered with the page, with the list of properties, with one property, or with
the result of setting one. The server comes back from every client, and goes on to the next,
unless reading the request panics.
-/

namespace Web

open Bytes Rust Outcome Props

/-- The bytes that `write_response` writes. A client that has gone away takes fewer, and the
error is not looked at. -/
def response (status contentType : Text) (body : Bytes) : Bytes :=
  Utf8.encode ("HTTP/1.1 ".toList ++ status ++ "\r\nContent-Type: ".toList ++ contentType ++
    "\r\nContent-Length: ".toList ++ Text.ofNat body.length ++
    "\r\nConnection: close\r\n\r\n".toList) ++ body

def plainText : Text := "text/plain; charset=utf-8".toList

/-- A response of a status and a text. -/
def answer (status body : Text) : Bytes := response status plainText (Utf8.encode body)

def badRequest (body : Text) : Bytes := answer "400 Bad Request".toList body

/-- `trim_end_matches(['\r', '\n'])`. -/
def trimLineEnd (s : Text) : Text := s.rdropWhile fun c => c == '\r' || c == '\n'

/-- The rest of `handle_client` for a path that names a property, with the properties as they
are after it; `persists` is the answer of the system to writing the file. -/
def handleProp (props : List Property) (persists : Except Text Unit) (req : HttpRequest)
    (name : Text) : List Property × Bytes :=
  if req.method = "GET".toList then
    match get props name with
    | some value => (props, answer "200 OK".toList value)
    | none => (props, answer "404 Not Found".toList "unknown prop".toList)
  else if req.method = "PUT".toList then
    match Utf8.decode req.body with
    | none => (props, badRequest "value is not utf8".toList)
    | some value =>
      match set props ⟨name, trimLineEnd value, persists⟩ with
      | (props, .ok newValue) => (props, answer "200 OK".toList newValue)
      | (props, .error msg) => (props, badRequest msg)
  else (props, answer "404 Not Found".toList "not found".toList)

/-- The rest of `handle_client` for a request, where `guiHtml` is the page. -/
def handleRequest (guiHtml : Text) (props : List Property) (persists : Except Text Unit)
    (req : HttpRequest) : List Property × Bytes :=
  if req.method = "GET".toList ∧ req.path = "/".toList then
    (props, response "200 OK".toList "text/html; charset=utf-8".toList (Utf8.encode guiHtml))
  else if req.method = "GET".toList ∧ req.path = "/props".toList then
    (props, response "200 OK".toList "application/json; charset=utf-8".toList
      (Utf8.encode (propsToJson props)))
  else
    match "/prop/".toList.isPrefixOf? req.path with
    | some name => handleProp props persists req name
    | none => (props, answer "404 Not Found".toList "not found".toList)

def handleClient (build : Build) (guiHtml : Text) (props : List Property)
    (persists : Except Text Unit) (client : List Bytes) :
    Outcome Empty (List Property × Bytes) := do
  match ← readRequest build client with
  | none => return (props, badRequest "bad request".toList)
  | some (reqLen, reqBuf) => do
    let buf ← sliceTo reqBuf reqLen
    match ← parseHttpRequest build buf with
    | none => return (props, badRequest "bad request".toList)
    | some req => return handleRequest guiHtml props persists req

/-- However the bytes of a client are split into reads and whatever the properties are, the client
is answered, also when the overflow of an addition is a panic. -/
def Answered (bits : ℕ) (guiHtml : Text) (stream : Bytes) : Prop :=
  ∀ client : List Bytes, client.flatten = stream → (∀ piece ∈ client, piece ≠ []) →
    ∀ overflowChecks props persists,
      ∃ reply, handleClient ⟨bits, overflowChecks⟩ guiHtml props persists client = .ok reply

/-- A header that does not make the server panic: no line is cut inside a character, and if the
length that is declared is a `usize`, so is the end of the request. -/
structure HeaderSafe (bits : ℕ) (hEnd : ℕ) (header : Text) : Prop where
  uncut : Uncut header
  inRange : declaredLength header < 2 ^ bits → hEnd + 4 + declaredLength header < 2 ^ bits

/-! ### Answers -/

/-- Once the request is read there is an answer. -/
theorem handleClient_ok_iff {build : Build} (hcapacity : capacity < 2 ^ build.bits)
    {guiHtml : Text} {props : List Property} {persists : Except Text Unit} {client : List Bytes}
    (hpieces : ∀ piece ∈ client, piece ≠ []) :
  (∃ reply, handleClient build guiHtml props persists client = .ok reply) ↔
    ∃ request, framed build client.flatten = .ok request
  := by
  have hreads := readRequest_readsAs build hpieces
  constructor
  · rintro ⟨reply, hreply⟩
    obtain ⟨result, hresult, -⟩ := Except.bind_eq_ok_iff.mp hreply
    use result.map Prod.fst
    rw [← hreads.length, hresult]
    rfl
  · rintro ⟨request, hrequest⟩
    have hlength := hreads.length
    rw [hrequest, Except.map_eq_ok_iff] at hlength
    obtain ⟨result, hresult, -⟩ := hlength
    rw [handleClient, hresult, Except.ok_bind]
    cases result with
    | none => exact ⟨_, rfl⟩
    | some lenBuf =>
        obtain ⟨reqLen, reqBuf⟩ := lenBuf
        obtain ⟨hlen, -, hbuf, -⟩ := hreads.buffer reqLen reqBuf hresult
        simp only
        rw [sliceTo_ok (by omega), Except.ok_bind]
        have hshort : (reqBuf.take reqLen).length < 2 ^ build.bits := by
          rw [List.length_take]
          omega
        obtain ⟨parsed, hparsed, -⟩ := parseHttpRequest_ok hshort
        rw [hparsed, Except.ok_bind]
        cases parsed with
        | none => exact ⟨_, rfl⟩
        | some req => exact ⟨_, rfl⟩

/-! ### Panics -/

theorem framed_ok_of_headerSafe {build : Build} (hcapacity : capacity < 2 ^ build.bits)
    {stream : Bytes}
    (h : ∀ hEnd, FirstAt terminator stream hEnd → hEnd + 4 ≤ capacity →
      ∀ header, Utf8.decode (stream.take hEnd) = some header →
        HeaderSafe build.bits hEnd header) :
  ∃ request, framed build stream = .ok request
  := by
  by_cases hheader : ∃ hEnd, FirstAt terminator stream hEnd ∧ hEnd + 4 ≤ capacity
  · obtain ⟨hEnd, hfirst, hle⟩ := hheader
    have hstream : hEnd + 4 ≤ stream.length := hfirst.add_length_le (by decide)
    obtain ⟨total, htotal⟩ : ∃ total, totalAt build stream hEnd = .ok total := by
      cases htext : Utf8.decode (stream.take hEnd) with
      | none =>
          use hEnd + 4
          rw [totalAt_undecoded (by omega) (by omega) htext]
      | some header =>
          obtain ⟨huncut, hinRange⟩ := h hEnd hfirst hle header htext
          obtain ⟨len, hlen, hvalue⟩ := parseContentLength_ok build.bits htext huncut
          rw [totalAt_of_length (by omega) (by omega) hlen, hvalue]
          split
          · next hfits => exact ⟨_, Build.add_inRange (hinRange hfits)⟩
          · exact ⟨_, Build.add_inRange (b := 0) (by omega)⟩
    rw [framed_some build hfirst hle, htotal]
    exact ⟨_, rfl⟩
  · use none
    apply framed_none build
    intro hEnd hfirst
    apply Nat.lt_of_not_le
    intro hle
    exact hheader ⟨hEnd, hfirst, hle⟩

/-- A header that is not safe makes the reader panic when overflows are checked. -/
theorem framed_panics {bits : ℕ} (hcapacity : capacity < 2 ^ bits) {stream : Bytes} {hEnd : ℕ}
    (hfirst : FirstAt terminator stream hEnd) (hle : hEnd + 4 ≤ capacity) {header : Text}
    (htext : Utf8.decode (stream.take hEnd) = some header)
    (hharm : ¬ HeaderSafe bits hEnd header) :
  framed ⟨bits, true⟩ stream = .panics
  := by
  have hstream : hEnd + 4 ≤ stream.length := hfirst.add_length_le (by decide)
  have hpanics : totalAt ⟨bits, true⟩ stream hEnd = .panics := by
    by_cases huncut : Uncut header
    · have hrange : declaredLength header < 2 ^ bits ∧
          2 ^ bits ≤ hEnd + 4 + declaredLength header := by
        by_contra hsafe
        apply hharm
        use huncut
        intro hfits
        by_contra hlong
        exact hsafe ⟨hfits, by omega⟩
      obtain ⟨len, hlen, hvalue⟩ := parseContentLength_ok bits htext huncut
      rw [if_pos hrange.1] at hvalue
      have hstart : hEnd + 4 < 2 ^ (⟨bits, true⟩ : Build).bits := by
        simp only
        omega
      rw [totalAt_of_length (by omega) hstart hlen, hvalue, Build.add, if_neg]
      · rfl
      · simp only
        omega
    · rw [totalAt, sliceTo_ok (by omega), Except.ok_bind,
        parseContentLength_panics _ htext huncut]
      rfl
  rw [framed_some _ hfirst hle, hpanics]
  rfl

theorem not_answered {bits : ℕ} (hcapacity : capacity < 2 ^ bits) (guiHtml : Text)
    {stream : Bytes} {hEnd : ℕ} (hfirst : FirstAt terminator stream hEnd)
    (hle : hEnd + 4 ≤ capacity) {header : Text}
    (htext : Utf8.decode (stream.take hEnd) = some header)
    (hharm : ¬ HeaderSafe bits hEnd header) :
  ¬ Answered bits guiHtml stream
  := by
  intro hanswered
  have hstream : hEnd + 4 ≤ stream.length := hfirst.add_length_le (by decide)
  have hpieces : ∀ piece ∈ [stream], piece ≠ [] := by
    intro piece hpiece
    rw [List.mem_singleton.mp hpiece, ← List.length_pos_iff]
    omega
  have hreply := hanswered [stream] List.flatten_singleton hpieces true [] (.ok ())
  obtain ⟨request, hrequest⟩ := (handleClient_ok_iff hcapacity hpieces).mp hreply
  rw [List.flatten_singleton, framed_panics hcapacity hfirst hle htext hharm] at hrequest
  cases hrequest

/-- A client is answered whatever the properties are and however its bytes are split into reads,
exactly when its header, if it is text and ends inside the buffer, is safe. -/
theorem answered_iff {bits : ℕ} (hbits : bits = 32 ∨ bits = 64) (guiHtml : Text)
    (stream : Bytes) :
  Answered bits guiHtml stream ↔
    ∀ hEnd, FirstAt terminator stream hEnd → hEnd + 4 ≤ capacity →
      ∀ header, Utf8.decode (stream.take hEnd) = some header → HeaderSafe bits hEnd header
  := by
  have hcapacity (overflowChecks : Bool) : capacity < 2 ^ (⟨bits, overflowChecks⟩ : Build).bits :=
    capacity_lt hbits
  constructor
  · intro hanswered hEnd hfirst hle header htext
    by_contra hharm
    apply not_answered (hcapacity true) guiHtml hfirst hle htext hharm hanswered
  · rintro h client rfl hpieces overflowChecks props persists
    apply (handleClient_ok_iff (hcapacity overflowChecks) hpieces).mpr
    apply framed_ok_of_headerSafe (hcapacity overflowChecks) h

/-- A request that sets a property is answered. -/
theorem answered_putHeader : Answered 32 [] (headerStream putHeader [0x31]) := by
  apply (answered_iff (.inl rfl) _ _).mpr
  intro hEnd hfirst _
  have hfind : findHeaderTerminator (headerStream putHeader [0x31]) = some putHeader.byteLen := by
    decide +kernel
  obtain rfl := hfirst.unique (findHeaderTerminator_eq_some_iff.mp hfind)
  rw [take_headerStream, Utf8.decode_encode]
  rintro header ⟨⟩
  constructor
  · decide +kernel
  · decide +kernel

def accentHeader : Text := "GET / HTTP/1.1\r\nReferer: /aaaaé".toList

/-- A line with a character of two bytes across its fifteenth byte stops the server. -/
theorem exists_not_answered : ∃ stream, ∀ guiHtml, ¬ Answered 64 guiHtml stream := by
  use headerStream accentHeader []
  intro guiHtml
  have hfind : findHeaderTerminator (headerStream accentHeader []) =
      some accentHeader.byteLen := by
    decide +kernel
  apply not_answered (by decide) guiHtml (findHeaderTerminator_eq_some_iff.mp hfind)
  · decide +kernel
  · rw [take_headerStream, Utf8.decode_encode]
  · intro hsafe
    have huncut : ¬ Uncut accentHeader := by decide +kernel
    exact huncut hsafe.uncut

end Web
