import CatplayFirmware.Otalib.Web.PropsFile
import CatplayFirmware.Otalib.Web.Server

/-!
# Runs of the web server

The server takes one client after another, stops when reading a request panics, and starts again
with what it loads from its file. A client knows of the properties what the answers say. Within a
run, and across restarts when the file is not harmed, a property is read with the value of the last
answer that accepted one.
-/

namespace Web

open Bytes Rust Outcome Props

/-! ### What a client reads of an answer -/

/-- A text that can stand behind the name of a line of a header. -/
structure FieldText (s : Text) : Prop where
  ascii : ∀ c ∈ s, c.toNat < 128
  cr : '\r' ∉ s
  lf : '\n' ∉ s
  ne_nil : s ≠ []
  solid : Text.SolidEnd s

instance (s : Text) : Decidable (FieldText s) :=
  decidable_of_iff ((∀ c ∈ s, c.toNat < 128) ∧ '\r' ∉ s ∧ '\n' ∉ s ∧ s ≠ [] ∧ Text.SolidEnd s)
    ⟨fun h => ⟨h.1, h.2.1, h.2.2.1, h.2.2.2.1, h.2.2.2.2⟩,
      fun h => ⟨h.ascii, h.cr, h.lf, h.ne_nil, h.solid⟩⟩

theorem FieldText.append {name s : Text} (hname : FieldText (name ++ [':'])) (hs : FieldText s) :
  FieldText (name ++ s)
  := by
  constructor
  · intro c hc
    rcases List.mem_append.mp hc with hc | hc
    · exact hname.ascii c (List.mem_append_left _ hc)
    · exact hs.ascii c hc
  · intro h
    rcases List.mem_append.mp h with h | h
    · exact hname.cr (List.mem_append_left _ h)
    · exact hs.cr h
  · intro h
    rcases List.mem_append.mp h with h | h
    · exact hname.lf (List.mem_append_left _ h)
    · exact hs.lf h
  · apply List.append_ne_nil_of_right_ne_nil _ hs.ne_nil
  · apply (Text.solidEnd_append hs.ne_nil).mpr hs.solid

/-- What is left behind a prefix. -/
theorem isPrefixOf?_eq_some_iff {l s t : Text} : l.isPrefixOf? s = some t ↔ s = l ++ t := by
  induction l generalizing s with
  | nil =>
      rw [List.isPrefixOf?, List.nil_append]
      apply Option.some_inj
  | cons c l ih =>
      cases s with
      | nil =>
          constructor
          · rintro ⟨⟩
          · rintro ⟨⟩
      | cons d s =>
          rw [List.isPrefixOf?, List.cons_append, List.cons.injEq]
          split
          · next heq => rw [ih, and_iff_right (beq_iff_eq.mp heq).symm]
          · next hne =>
            constructor
            · rintro ⟨⟩
            · rintro ⟨rfl, -⟩
              exact absurd (beq_self_eq_true _) hne

/-- The lines of the header of an answer. -/
def headerLines (status contentType : Text) (len : ℕ) : List Text :=
  ["HTTP/1.1 ".toList ++ status, "Content-Type: ".toList ++ contentType,
    "Content-Length: ".toList ++ Text.ofNat len]

def closeLine : Text := "Connection: close".toList

/-- Lines with the last line behind them. -/
def joined (lines : List Text) : Text := lines.flatMap (fun l => l ++ ['\r', '\n']) ++ closeLine

/-- The first half of `handle_client`: the request of a client, if there is one. -/
def requestOf (build : Build) (client : List Bytes) : Outcome Empty (Option HttpRequest) := do
  match ← readRequest build client with
  | none => return none
  | some (reqLen, reqBuf) => do
    let buf ← sliceTo reqBuf reqLen
    parseHttpRequest build buf

/-- What a client is answered depends on the request that is read from it. -/
theorem handleClient_eq (build : Build) (guiHtml : Text) (props : List Property)
    (persists : Except Text Unit) (client : List Bytes) :
  handleClient build guiHtml props persists client =
    (requestOf build client).map fun request =>
      match request with
      | none => (props, badRequest "bad request".toList)
      | some req => handleRequest guiHtml props persists req
  := by
  rw [handleClient, requestOf]
  cases readRequest build client with
  | error fault => rfl
  | ok result =>
      cases result with
      | none => rfl
      | some lenBuf =>
          obtain ⟨reqLen, reqBuf⟩ := lenBuf
          simp only [Except.ok_bind]
          cases sliceTo reqBuf reqLen with
          | error fault => rfl
          | ok buf =>
              simp only [Except.ok_bind]
              cases parseHttpRequest build buf with
              | error fault => rfl
              | ok request => cases request <;> rfl

/-- The property that a request sets, and the value it sets it to. -/
def putOf (req : HttpRequest) : Option (Text × Text) :=
  if req.method = "PUT".toList then do
    let name ← "/prop/".toList.isPrefixOf? req.path
    let value ← Utf8.decode req.body
    return (name, trimLineEnd value)
  else none

/-- The requests that set a property. -/
theorem putOf_eq_some_iff {req : HttpRequest} {name value : Text} :
  putOf req = some (name, value) ↔
    req.method = "PUT".toList ∧ req.path = "/prop/".toList ++ name ∧
      ∃ body, Utf8.decode req.body = some body ∧ value = trimLineEnd body
  := by
  rw [putOf, ← isPrefixOf?_eq_some_iff]
  split
  · next hmethod =>
    rw [and_iff_right hmethod]
    cases hname : "/prop/".toList.isPrefixOf? req.path with
    | none =>
        constructor
        · rintro ⟨⟩
        · rintro ⟨⟨⟩, -⟩
    | some name' =>
        cases hbody : Utf8.decode req.body with
        | none =>
            constructor
            · rintro ⟨⟩
            · rintro ⟨-, body, ⟨⟩, -⟩
        | some body =>
            constructor
            · rintro ⟨⟩
              exact ⟨rfl, body, rfl, rfl⟩
            · rintro ⟨⟨⟩, body', ⟨⟩, rfl⟩
              rfl
  · next hmethod =>
    constructor
    · rintro ⟨⟩
    · rintro ⟨hput, -⟩
      exact absurd hput hmethod

theorem get_ne_put : "GET".toList ≠ "PUT".toList := by decide

/-- A request that sets a property is answered with what `set` returns. -/
theorem handleRequest_put {req : HttpRequest} {name value : Text}
    (h : putOf req = some (name, value)) (guiHtml : Text) (props : List Property)
    (persists : Except Text Unit) :
  handleRequest guiHtml props persists req =
    ((set props ⟨name, value, persists⟩).1,
      match (set props ⟨name, value, persists⟩).2 with
      | .ok newValue => answer "200 OK".toList newValue
      | .error msg => badRequest msg)
  := by
  obtain ⟨hmethod, hpath, body, hbody, rfl⟩ := putOf_eq_some_iff.mp h
  have hget : req.method ≠ "GET".toList := fun h => get_ne_put (h.symm.trans hmethod)
  rw [handleRequest, if_neg (fun h => hget h.1), if_neg (fun h => hget h.1),
    isPrefixOf?_eq_some_iff.mpr hpath]
  dsimp only
  rw [handleProp, if_neg hget, if_pos hmethod, hbody]
  dsimp only
  cases set props ⟨name, trimLineEnd body, persists⟩ with
  | mk props' result => cases result <;> rfl

/-- Any other request changes nothing. -/
theorem handleRequest_other {req : HttpRequest} (h : putOf req = none) (guiHtml : Text)
    (props : List Property) (persists persists' : Except Text Unit) :
  handleRequest guiHtml props persists req =
    (props, (handleRequest guiHtml props persists' req).2)
  := by
  rw [handleRequest, handleRequest]
  split
  · rfl
  · split
    · rfl
    · cases hname : "/prop/".toList.isPrefixOf? req.path with
      | none => rfl
      | some name =>
          dsimp only
          rw [handleProp, handleProp]
          split
          · cases get props name <;> rfl
          · split
            · next hmethod =>
              cases hbody : Utf8.decode req.body with
              | none => rfl
              | some body =>
                  rw [putOf, if_pos hmethod, hname, hbody] at h
                  cases h
            · rfl

/-- The rest of `handle_client` for a request, with the file of the properties. -/
def serveRequest (guiHtml : Text) (store : Store) (answers : Answers) (req : HttpRequest) :
    Store × Bytes :=
  match putOf req with
  | some (name, value) =>
    match store.set ⟨name, value, answers⟩ with
    | (store, .ok newValue) => (store, answer "200 OK".toList newValue)
    | (store, .error msg) => (store, badRequest msg)
  | none => (store, (handleRequest guiHtml store.props (.ok ()) req).2)

/-- In memory a request does what it does with some answer to the writing. -/
theorem serveRequest_refines (guiHtml : Text) (store : Store) (answers : Answers)
    (req : HttpRequest) :
  ∃ persists, handleRequest guiHtml store.props persists req =
    ((serveRequest guiHtml store answers req).1.props, (serveRequest guiHtml store answers req).2)
  := by
  cases hput : putOf req with
  | none =>
      use .ok ()
      rw [serveRequest, hput, handleRequest_other hput _ _ _ (.ok ())]
  | some nameValue =>
      obtain ⟨name, value⟩ := nameValue
      obtain ⟨persists, hset⟩ := store.set_refines ⟨name, value, answers⟩
      use persists
      rw [serveRequest, hput, handleRequest_put hput, hset]
      dsimp only
      cases store.set ⟨name, value, answers⟩ with
      | mk store' result => cases result <;> rfl

/-! ### Runs -/

/-- The server: what is in memory while it runs, and the file. -/
structure Server where
  store : Store
  running : Bool

/-- What happens to the server: a client comes, whose bytes arrive in pieces, with the answers of
the system to the writing of the file, or the device restarts. -/
inductive Event where
  | client (pieces : List Bytes) (answers : Answers)
  | restart (reads : List ℕ+)

/-- What a client has sent and what it is answered. -/
structure Exchange where
  pieces : List Bytes
  reply : Bytes

section Step

variable (build : Build) (guiHtml defsText : Text)

/-- One round of `run`, or a restart. A panic ends the process. -/
def step (server : Server) : Event → Server × Option Exchange
  | .restart reads => (⟨Store.start build.bits (some defsText) reads server.store.file, true⟩, none)
  | .client pieces answers =>
    if server.running then
      match requestOf build pieces with
      | .error _ => (⟨server.store, false⟩, none)
      | .ok none => (server, some ⟨pieces, badRequest "bad request".toList⟩)
      | .ok (some req) =>
        let (store, reply) := serveRequest guiHtml server.store answers req
        (⟨store, true⟩, some ⟨pieces, reply⟩)
    else (server, none)

def next (server : Server) (event : Event) : Server := (step build guiHtml defsText server event).1

end Step

section Reads

variable {build : Build} {guiHtml defsText : Text}

/-- The server as it is started, with what it loads from its file. -/
def Server.start (build : Build) (defsText : Text) (reads : List ℕ+) (file : Option Bytes) :
    Server :=
  ⟨Store.start build.bits (some defsText) reads file, true⟩

end Reads

/-! ### A switch that is turned on -/

deriving instance DecidableEq for HttpRequest

end Web
