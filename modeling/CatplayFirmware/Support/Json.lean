import CatplayFirmware.Support.Hex

/-!
# JSON

The values of JSON, and a reader of its grammar. Each rule of the grammar is a function that gives
what it reads and what is left behind it. A number keeps its digits and its power of ten, and an
escaped surrogate stands for a character only together with its other half. `render` writes a
value without white space, and `parse_render` reads every value back.
-/

/-- A number, `mantissa` times ten to the power of `exponent`. -/
structure Json.Number where
  mantissa : ℤ
  exponent : ℤ
  deriving DecidableEq

/-- A value. The members of an object stand in the order of the text, and names may occur twice. -/
inductive Json where
  | null
  | bool (b : Bool)
  | number (n : Json.Number)
  | string (s : Text)
  | array (items : List Json)
  | object (members : List (Text × Json))

namespace Json

/-! ### Numbers -/

/-- A run of digits. -/
def readDigits (s : Text) : Option (Text × Text) :=
  if s.takeWhile Char.isDigit = [] then none
  else some (s.takeWhile Char.isDigit, s.dropWhile Char.isDigit)

/-- Zero, or digits of which the first is not zero. -/
def readInt : Text → Option (Text × Text)
  | '0' :: s => some (['0'], s)
  | s => readDigits s

/-- The digits behind a point, if there is a point. -/
def readFrac : Text → Option (Text × Text)
  | '.' :: s => readDigits s
  | s => some ([], s)

/-- The digits of an exponent of a given sign. -/
def readExpDigits (negative : Bool) (s : Text) : Option (ℤ × Text) :=
  (readDigits s).map fun (ds, s) =>
    (if negative then -(Nat.ofDigitChars 10 ds 0 : ℤ) else Nat.ofDigitChars 10 ds 0, s)

/-- A numeral with a sign or without one. -/
def readSigned : Text → Option (ℤ × Text)
  | '+' :: s => readExpDigits false s
  | '-' :: s => readExpDigits true s
  | s => readExpDigits false s

/-- The power of ten, or zero where none is written. -/
def readExp : Text → Option (ℤ × Text)
  | [] => some (0, [])
  | c :: s => if c = 'e' ∨ c = 'E' then readSigned s else some (0, c :: s)

/-- A number without its sign. -/
def readUnsigned (negative : Bool) (s : Text) : Option (Number × Text) := do
  let (i, s) ← readInt s
  let (f, s) ← readFrac s
  let (e, s) ← readExp s
  let n : ℤ := Nat.ofDigitChars 10 (i ++ f) 0
  return (⟨if negative then -n else n, e - f.length⟩, s)

/-- A number with its sign. -/
def readNumber : Text → Option (Number × Text)
  | '-' :: s => readUnsigned true s
  | s => readUnsigned false s

/-! ### Strings -/

/-- The characters that are escaped by one character behind a backslash. -/
def escaped (c : Char) : Option Char :=
  if c = '"' then some '"'
  else if c = '\\' then some '\\'
  else if c = '/' then some '/'
  else if c = 'b' then some '\x08'
  else if c = 'f' then some '\x0c'
  else if c = 'n' then some '\n'
  else if c = 'r' then some '\r'
  else if c = 't' then some '\t'
  else none

/-- The value of four hexadecimal digits. -/
def hex4 (a b c d : Char) : Option ℕ := Text.digits16 0 [a, b, c, d]

/-- A character before those that are read. -/
def push (c : Char) (read : Option (Text × Text)) : Option (Text × Text) :=
  read.map fun (t, s) => (c :: t, s)

/-- A string behind its first quotation mark. -/
def readString : Text → Option (Text × Text)
  | [] => none
  | c :: s =>
    if c = '"' then some ([], s)
    else if c = '\\' then
      match s with
      | [] => none
      | e :: s =>
        if e = 'u' then
          match s with
          | x :: y :: z :: w :: s =>
            match hex4 x y z w with
            | none => none
            | some high =>
              if high < 0xD800 ∨ 0xDFFF < high then push (Char.ofNat high) (readString s)
              else
                match s with
                | '\\' :: 'u' :: x :: y :: z :: w :: s =>
                  match hex4 x y z w with
                  | none => none
                  | some low =>
                    if high < 0xDC00 ∧ 0xDC00 ≤ low ∧ low < 0xE000 then
                      push (Char.ofNat (0x10000 + (high - 0xD800) * 0x400 + (low - 0xDC00)))
                        (readString s)
                    else none
                | _ => none
          | _ => none
        else
          match escaped e with
          | none => none
          | some d => push d (readString s)
    else if c.toNat < 0x20 then none
    else push c (readString s)

/-! ### Values -/

/-- The characters of white space. -/
def isWs (c : Char) : Bool := c == ' ' || c == '\t' || c == '\n' || c == '\r'

/-- A text without the white space it begins with. -/
def ws (s : Text) : Text := s.dropWhile isWs

/-- Items with commas between them, up to a closing character. -/
def readItems {α : Type*} (close : Char) (item : Text → Option (α × Text)) :
    (fuel : ℕ) → Text → Option (List α × Text)
  | 0, _ => none
  | fuel + 1, s => do
    let (x, s) ← item (ws s)
    match ws s with
    | [] => none
    | c :: s =>
      if c = ',' then (readItems close item fuel s).map fun (xs, s) => (x :: xs, s)
      else if c = close then some ([x], s)
      else none

/-- A name and a value. -/
def readMember (value : Text → Option (Json × Text)) :
    Text → Option ((Text × Json) × Text)
  | '"' :: s => do
    let (name, s) ← readString s
    match ws s with
    | ':' :: s => (value (ws s)).map fun (j, s) => ((name, j), s)
    | _ => none
  | _ => none

/-- A value that lies at most `fuel` deep. -/
def readValue : (fuel : ℕ) → Text → Option (Json × Text)
  | 0, _ => none
  | _ + 1, [] => none
  | fuel + 1, c :: s =>
    if c = '{' then
      match ws s with
      | '}' :: s => some (.object [], s)
      | s => (readItems '}' (readMember (readValue fuel)) s.length s).map
          fun (members, s) => (.object members, s)
    else if c = '[' then
      match ws s with
      | ']' :: s => some (.array [], s)
      | s => (readItems ']' (readValue fuel) s.length s).map fun (items, s) => (.array items, s)
    else if c = '"' then (readString s).map fun (t, s) => (.string t, s)
    else if "null".toList <+: c :: s then some (.null, (c :: s).drop 4)
    else if "true".toList <+: c :: s then some (.bool true, (c :: s).drop 4)
    else if "false".toList <+: c :: s then some (.bool false, (c :: s).drop 5)
    else (readNumber (c :: s)).map fun (n, s) => (.number n, s)

/-- The value that a text stands for. -/
def parse (s : Text) : Option Json :=
  match readValue (s.length + 1) (ws s) with
  | some (j, s) => if ws s = [] then some j else none
  | none => none

/-! ### Writing -/

/-- A character inside a string. -/
def escape (c : Char) : Text :=
  if c = '"' then "\\\"".toList
  else if c = '\\' then "\\\\".toList
  else if c = '\n' then "\\n".toList
  else if c = '\r' then "\\r".toList
  else if c = '\t' then "\\t".toList
  else if c.toNat < 0x20 then "\\u".toList ++ Text.hexDigits 4 c.toNat
  else [c]

/-- A text between quotation marks. -/
def quoted (s : Text) : Text := '"' :: (s.flatMap escape ++ ['"'])

/-- A power of ten is not written when it is zero. -/
def renderExp (e : ℤ) : Text := if e = 0 then [] else 'e' :: Text.ofInt e

/-- A number is written as its mantissa and its power of ten, without a point. -/
def Number.render (n : Number) : Text := Text.ofInt n.mantissa ++ renderExp n.exponent

mutual

/-- A text of a value, without white space. -/
def render : Json → Text
  | .null => "null".toList
  | .bool true => "true".toList
  | .bool false => "false".toList
  | .number n => n.render
  | .string s => quoted s
  | .array items => '[' :: ([','].intercalate (renderItems items) ++ [']'])
  | .object members => '{' :: ([','].intercalate (renderMembers members) ++ ['}'])

/-- The texts of several values. -/
def renderItems : List Json → List Text
  | [] => []
  | j :: js => render j :: renderItems js

/-- The texts of several members. -/
def renderMembers : List (Text × Json) → List Text
  | [] => []
  | m :: ms => renderMember m :: renderMembers ms

/-- The text of a member. -/
def renderMember : Text × Json → Text
  | (name, j) => quoted name ++ ':' :: render j

end

theorem render_null : render .null = "null".toList := rfl

theorem render_false : render (.bool false) = "false".toList := rfl

theorem render_true : render (.bool true) = "true".toList := rfl

theorem render_number (n : Number) : render (.number n) = n.render := rfl

theorem render_string (s : Text) : render (.string s) = quoted s := rfl

/-- The items of an array are rendered one by one. -/
theorem renderItems_eq_map (js : List Json) : renderItems js = js.map render := by
  induction js with
  | nil => rfl
  | cons j js ih => exact congrArg (render j :: ·) ih

theorem renderMembers_eq_map (ms : List (Text × Json)) :
  renderMembers ms = ms.map renderMember
  := by
  induction ms with
  | nil => rfl
  | cons m ms ih => exact congrArg (renderMember m :: ·) ih

/-- The text of an array. -/
theorem render_array (items : List Json) :
  render (.array items) = '[' :: ([','].intercalate (items.map render) ++ [']'])
  := by
  rw [← renderItems_eq_map]
  rfl

/-- The text of an object. -/
theorem render_object (members : List (Text × Json)) :
  render (.object members) = '{' :: ([','].intercalate (members.map renderMember) ++ ['}'])
  := by
  rw [← renderMembers_eq_map]
  rfl

theorem renderMember_mk (name : Text) (j : Json) :
  renderMember (name, j) = quoted name ++ ':' :: render j
  := rfl

/-! ### Numbers are read back -/

/-- A text that does not go on with a number. -/
def Apart : Text → Prop
  | [] => True
  | c :: _ => c.isDigit = false ∧ c ≠ '.' ∧ c ≠ 'e' ∧ c ≠ 'E'

/-- A text that does not go on with a digit. -/
def NoDigit (s : Text) : Prop := s.takeWhile Char.isDigit = []

/-- A character that is no digit ends a run of digits. -/
theorem noDigit_cons {c : Char} (h : c.isDigit = false) (s : Text) : NoDigit (c :: s) := by
  rw [NoDigit, List.takeWhile_cons_of_neg]
  rw [h]
  exact Bool.false_ne_true

/-- What does not go on with a number does not go on with a digit. -/
theorem Apart.noDigit {s : Text} (h : Apart s) : NoDigit s := by
  cases s with
  | nil => rfl
  | cons c s => exact noDigit_cons h.1 s

/-- A run of digits is read up to what is not a digit. -/
theorem readDigits_append {ds r : Text} (hne : ds ≠ []) (hds : ∀ c ∈ ds, c.isDigit)
    (hr : NoDigit r) :
  readDigits (ds ++ r) = some (ds, r)
  := by
  have htake : (ds ++ r).takeWhile Char.isDigit = ds := by
    rw [List.takeWhile_append_of_pos hds, hr, List.append_nil]
  have hdrop : (ds ++ r).dropWhile Char.isDigit = r := by
    have hsplit := List.takeWhile_append_dropWhile (p := Char.isDigit) (l := ds ++ r)
    rw [htake] at hsplit
    apply List.append_cancel_left hsplit
  rw [readDigits, htake, hdrop, if_neg hne]

/-- The digits of a number are read back. -/
theorem readDigits_ofNat (n : ℕ) {r : Text} (hr : NoDigit r) :
  readDigits (Text.ofNat n ++ r) = some (Text.ofNat n, r)
  := by
  apply readDigits_append (Text.ofNat_ne_nil n) _ hr
  intro c hc
  apply Text.isDigit_of_mem_ofNat hc

/-- A numeral begins with a zero only if it is zero. -/
theorem ofNat_head_ne_zero {n : ℕ} (h : 0 < n) : ∃ c s, Text.ofNat n = c :: s ∧ c ≠ '0' := by
  induction n using Nat.strongRecOn with
  | ind n ih =>
      rcases Nat.lt_or_ge n 10 with hlt | hge
      · use Nat.digitChar n, []
        rw [Text.ofNat, Nat.toDigits_of_lt_base hlt]
        refine ⟨rfl, ?_⟩
        interval_cases n <;> decide
      · obtain ⟨c, s, heq, hne⟩ := ih (n / 10) (by omega) (by omega)
        use c, s ++ [Nat.digitChar (n % 10)]
        rw [Text.ofNat] at heq ⊢
        rw [Nat.toDigits_of_base_le (by omega) hge, heq]
        exact ⟨rfl, hne⟩

/-- No numeral has a zero before its other digits, so that the rule against it does not cut any. -/
theorem readInt_ofNat (n : ℕ) {r : Text} (hr : NoDigit r) :
  readInt (Text.ofNat n ++ r) = some (Text.ofNat n, r)
  := by
  rcases Nat.eq_zero_or_pos n with rfl | hpos
  · rfl
  obtain ⟨c, s, heq, hne⟩ := ofNat_head_ne_zero hpos
  have hread : readInt (c :: (s ++ r)) = readDigits (c :: (s ++ r)) := by
    rw [readInt]
    intro s' h
    cases h
    contradiction
  rw [heq, List.cons_append, hread, ← List.cons_append, ← heq, readDigits_ofNat n hr]

/-- Behind the mantissa of a number there is no further digit. -/
theorem renderExp_noDigit (e : ℤ) {r : Text} (hr : Apart r) : NoDigit (renderExp e ++ r) := by
  rw [renderExp]
  split
  · exact hr.noDigit
  · apply noDigit_cons rfl

/-- Behind the mantissa of a number there is no point. -/
theorem readFrac_renderExp (e : ℤ) {r : Text} (hr : Apart r) :
  readFrac (renderExp e ++ r) = some ([], renderExp e ++ r)
  := by
  rw [renderExp]
  split
  · cases r with
    | nil => rfl
    | cons c r =>
        rw [List.nil_append, readFrac]
        intro s h
        cases h
        exact hr.2.1 rfl
  · rfl

/-- The digits of an exponent are read back with their sign. -/
theorem readExpDigits_ofNat (negative : Bool) (n : ℕ) {r : Text} (hr : NoDigit r) :
  readExpDigits negative (Text.ofNat n ++ r) = some (if negative then -(n : ℤ) else n, r)
  := by
  rw [readExpDigits, readDigits_ofNat n hr, Option.map_some]
  simp only [Text.ofNat, Nat.ofDigitChars_ten_toDigits]

/-- A signed numeral is read back. -/
theorem readSigned_ofInt (e : ℤ) {r : Text} (hr : NoDigit r) :
  readSigned (Text.ofInt e ++ r) = some (e, r)
  := by
  rw [Text.ofInt]
  split
  · next hneg =>
    have habs : -(e.natAbs : ℤ) = e := by omega
    rw [List.cons_append, readSigned, readExpDigits_ofNat _ _ hr, if_pos rfl, habs]
  · next hneg =>
    have habs : (e.natAbs : ℤ) = e := by omega
    have hread := readExpDigits_ofNat false e.natAbs hr
    obtain ⟨c, s, heq, hdigit⟩ := Text.exists_ofNat_eq_cons e.natAbs
    rw [heq, List.cons_append] at hread ⊢
    rw [readSigned, hread, if_neg Bool.false_ne_true, habs]
    · rintro s' ⟨⟩
      cases hdigit
    · rintro s' ⟨⟩
      cases hdigit

/-- A power of ten is read back, written or not. -/
theorem readExp_renderExp (e : ℤ) {r : Text} (hr : Apart r) :
  readExp (renderExp e ++ r) = some (e, r)
  := by
  rw [renderExp]
  split
  · next h =>
    subst h
    cases r with
    | nil => rfl
    | cons c r =>
        rw [List.nil_append, readExp, if_neg]
        rintro (rfl | rfl)
        · exact hr.2.2.1 rfl
        · exact hr.2.2.2 rfl
  · rw [List.cons_append, readExp, if_pos (.inl rfl), readSigned_ofInt e hr.noDigit]

/-- A number is read back behind its sign. -/
theorem readUnsigned_render (negative : Bool) (n : ℕ) (e : ℤ) {r : Text} (hr : Apart r) :
  readUnsigned negative (Text.ofNat n ++ (renderExp e ++ r)) =
    some (⟨if negative then -(n : ℤ) else n, e⟩, r)
  := by
  rw [readUnsigned, readInt_ofNat n (renderExp_noDigit e hr)]
  simp only [Option.bind_eq_bind, Option.bind_some, readFrac_renderExp e hr,
    readExp_renderExp e hr, List.append_nil, List.length_nil, Int.sub_zero, Nat.cast_zero]
  rw [Text.ofNat, Nat.ofDigitChars_ten_toDigits]
  rfl

/-- A number is read back from its text. -/
theorem readNumber_render (n : Number) {r : Text} (hr : Apart r) :
  readNumber (n.render ++ r) = some (n, r)
  := by
  rw [Number.render, List.append_assoc, Text.ofInt]
  split
  · next hneg =>
    have habs : -(n.mantissa.natAbs : ℤ) = n.mantissa := by omega
    rw [List.cons_append, readNumber, readUnsigned_render _ _ _ hr, if_pos rfl, habs]
  · next hneg =>
    have habs : (n.mantissa.natAbs : ℤ) = n.mantissa := by omega
    have hread := readUnsigned_render false n.mantissa.natAbs n.exponent hr
    obtain ⟨c, s, heq, hdigit⟩ := Text.exists_ofNat_eq_cons n.mantissa.natAbs
    rw [heq, List.cons_append] at hread ⊢
    rw [readNumber, hread, if_neg Bool.false_ne_true, habs]
    rintro s' ⟨⟩
    cases hdigit

/-! ### Strings are read back -/

/-- Four hexadecimal digits are read back. -/
theorem hex4_hexDigits {n : ℕ} (h : n < 0x20) (s : Text) :
  ∃ x y z w, Text.hexDigits 4 n ++ s = x :: y :: z :: w :: s ∧ hex4 x y z w = some n
  := by
  have hread := Text.digits16_hexDigits 4 n
  have hmod : n % 16 ^ 4 = n := Nat.mod_eq_of_lt (by omega)
  rw [hmod] at hread
  refine ⟨_, _, _, _, rfl, hread⟩

/-- An escape of four digits that is no surrogate stands for its character. -/
theorem readString_hex {x y z w : Char} {n : ℕ} (h : hex4 x y z w = some n) (hn : n < 0xD800)
    (s : Text) :
  readString ('\\' :: 'u' :: x :: y :: z :: w :: s) = push (Char.ofNat n) (readString s)
  := by
  rw [readString.eq_def]
  simp only [Char.reduceEq, if_true, if_false, h, hn, true_or]

/-- A character is read back from what stands for it in a string. -/
theorem readString_escape (c : Char) (s : Text) :
  readString (escape c ++ s) = push c (readString s)
  := by
  rw [escape]
  split
  · next h => subst h; rw [readString.eq_def]; rfl
  split
  · next h => subst h; rw [readString.eq_def]; rfl
  split
  · next h => subst h; rw [readString.eq_def]; rfl
  split
  · next h => subst h; rw [readString.eq_def]; rfl
  split
  · next h => subst h; rw [readString.eq_def]; rfl
  split
  · next hlt =>
    obtain ⟨x, y, z, w, heq, hhex⟩ := hex4_hexDigits hlt s
    have hchar : Char.ofNat c.toNat = c := Char.ofNat_toNat c
    have hread := readString_hex hhex (by omega) s
    rw [hchar] at hread
    rw [List.append_assoc, heq]
    exact hread
  · next hquote hback _ _ _ hctl =>
    rw [List.singleton_append, readString.eq_def]
    simp only [if_neg hquote, if_neg hback, if_neg hctl]

/-- A string is read back up to the quotation mark behind it. -/
theorem readString_flatMap (s r : Text) :
  readString (s.flatMap escape ++ '"' :: r) = some (s, r)
  := by
  induction s with
  | nil => rw [readString.eq_def]; rfl
  | cons c s ih =>
      rw [List.flatMap_cons, List.append_assoc, readString_escape, ih]
      rfl

/-! ### Values are read back -/

/-- The characters that a number begins with. -/
def Leads (c : Char) : Prop := c = '-' ∨ c.isDigit

/-- No other character begins a number. -/
theorem Leads.ne {c d : Char} (h : Leads c) (hd : d ≠ '-' ∧ d.isDigit = false) : c ≠ d := by
  rintro rfl
  rcases h with h | h
  · exact hd.1 h
  · rw [hd.2] at h
    cases h

/-- A number begins with a sign or a digit. -/
theorem Number.render_head (n : Number) : ∃ c s, n.render = c :: s ∧ Leads c := by
  rw [Number.render, Text.ofInt]
  split
  · exact ⟨_, _, rfl, .inl rfl⟩
  · obtain ⟨c, s, heq, hdigit⟩ := Text.exists_ofNat_eq_cons n.mantissa.natAbs
    rw [heq]
    exact ⟨_, _, rfl, .inr hdigit⟩

/-- A text that begins neither with white space nor with a closing character. -/
def Starts (close : Char) (t : Text) : Prop := ∃ c s, t = c :: s ∧ isWs c = false ∧ c ≠ close

/-- No value begins with white space or with the end of an array. -/
theorem starts_render (j : Json) : Starts ']' (render j) := by
  cases j with
  | null => exact ⟨_, _, render_null, rfl, by decide⟩
  | bool b =>
      cases b with
      | false => exact ⟨_, _, render_false, rfl, by decide⟩
      | true => exact ⟨_, _, render_true, rfl, by decide⟩
  | number n =>
      obtain ⟨c, s, heq, hlead⟩ := n.render_head
      refine ⟨c, s, by rw [render_number, heq], ?_, hlead.ne (by decide)⟩
      have hspace := hlead.ne (d := ' ') (by decide)
      have htab := hlead.ne (d := '\t') (by decide)
      have hnewline := hlead.ne (d := '\n') (by decide)
      have hreturn := hlead.ne (d := '\r') (by decide)
      simp [isWs, hspace, htab, hnewline, hreturn]
  | string s => exact ⟨_, _, by rw [render_string, quoted], rfl, by decide⟩
  | array items => exact ⟨_, _, render_array items, rfl, by decide⟩
  | object members => exact ⟨_, _, render_object members, rfl, by decide⟩

theorem ws_cons {c : Char} (h : isWs c = false) (s : Text) : ws (c :: s) = c :: s := by
  rw [ws, List.dropWhile_cons_of_neg]
  rw [h]
  exact Bool.false_ne_true

/-- There is no white space before a value. -/
theorem ws_render (j : Json) (r : Text) : ws (render j ++ r) = render j ++ r := by
  obtain ⟨c, s, heq, hws, -⟩ := starts_render j
  rw [heq, List.cons_append, ws_cons hws]

/-- A value is read back from its text, whatever stands behind it. -/
def Reads (j : Json) : Prop :=
  ∀ fuel r, (render j).length ≤ fuel → Apart r → readValue fuel (render j ++ r) = some (j, r)

/-- A value that is no object, no array and no string is a word or a number. -/
theorem readValue_word {c : Char} {s : Text} (fuel : ℕ) (h : c ≠ '{' ∧ c ≠ '[' ∧ c ≠ '"') :
  readValue (fuel + 1) (c :: s) =
    if "null".toList <+: c :: s then some (.null, (c :: s).drop 4)
    else if "true".toList <+: c :: s then some (.bool true, (c :: s).drop 4)
    else if "false".toList <+: c :: s then some (.bool false, (c :: s).drop 5)
    else (readNumber (c :: s)).map fun (n, s) => (.number n, s)
  := by
  rw [readValue, if_neg h.1, if_neg h.2.1, if_neg h.2.2]

theorem reads_null : Reads .null := by
  rintro (_ | fuel) r hfuel hr
  · cases hfuel
  rw [render_null]
  exact readValue_word fuel (by decide)

theorem reads_bool (b : Bool) : Reads (.bool b) := by
  rintro (_ | fuel) r hfuel hr
  · cases b <;> cases hfuel
  cases b with
  | false => rw [render_false]; exact readValue_word fuel (by decide)
  | true => rw [render_true]; exact readValue_word fuel (by decide)

/-- A word does not begin with another first character. -/
theorem not_prefix_of_ne {c d : Char} {w s : Text} (h : c ≠ d) : ¬ d :: w <+: c :: s := by
  rw [List.cons_prefix_cons]
  rintro ⟨rfl, -⟩
  contradiction

theorem reads_number (n : Number) : Reads (.number n) := by
  intro fuel r hfuel hr
  have hread := readNumber_render n hr
  obtain ⟨c, s, heq, hlead⟩ := n.render_head
  rw [render_number, heq] at hfuel ⊢
  rw [heq, List.cons_append] at hread
  cases fuel with
  | zero => cases hfuel
  | succ fuel =>
      have hnull : ¬ "null".toList <+: c :: (s ++ r) := not_prefix_of_ne (hlead.ne (by decide))
      have htrue : ¬ "true".toList <+: c :: (s ++ r) := not_prefix_of_ne (hlead.ne (by decide))
      have hfalse : ¬ "false".toList <+: c :: (s ++ r) := not_prefix_of_ne (hlead.ne (by decide))
      rw [List.cons_append, readValue_word fuel ⟨hlead.ne (by decide), hlead.ne (by decide),
        hlead.ne (by decide)⟩, if_neg hnull, if_neg htrue, if_neg hfalse, hread]
      rfl

theorem reads_string (s : Text) : Reads (.string s) := by
  rintro (_ | fuel) r hfuel hr
  · rw [render_string, quoted] at hfuel
    cases hfuel
  have hread := readString_flatMap s r
  rw [render_string, quoted, List.cons_append, List.append_assoc, readValue]
  simp only [Char.reduceEq, if_false, if_true, List.singleton_append, hread, Option.map_some]

/-! ### Items are read back -/

/-- An item is read back from its text when something stands behind it that does not go on with
a number. -/
def ReadsItem {α : Type*} (item : Text → Option (α × Text)) (text : α → Text) (x : α) : Prop :=
  ∀ r, Apart r → item (ws (text x ++ r)) = some (x, r)

section Items

variable {α : Type*} {close : Char} {item : Text → Option (α × Text)} {text : α → Text}

/-- The last item, with the closing character behind it. -/
theorem readItems_last {x : α} (hclose : close ≠ ',' ∧ isWs close = false)
    (hx : ReadsItem item text x) (hapart : ∀ r, Apart (close :: r)) (fuel : ℕ) (r : Text) :
  readItems close item (fuel + 1) (text x ++ close :: r) = some ([x], r)
  := by
  rw [readItems, hx _ (hapart r), Option.bind_eq_bind, Option.bind_some]
  simp only [ws_cons hclose.2, if_neg hclose.1, if_true]

/-- An item with a comma behind it. -/
theorem readItems_cons {x : α} (hx : ReadsItem item text x) (fuel : ℕ) (r : Text) :
  readItems close item (fuel + 1) (text x ++ ',' :: r) =
    (readItems close item fuel r).map fun (xs, s) => (x :: xs, s)
  := by
  have hws : ws (',' :: r) = ',' :: r := ws_cons rfl r
  have hapart : Apart (',' :: r) := ⟨rfl, by decide, by decide, by decide⟩
  rw [readItems, hx _ hapart, Option.bind_eq_bind, Option.bind_some]
  simp only [hws, if_true]

/-- Items are read back from their texts with commas between them. -/
theorem readItems_intercalate {x : α} {xs : List α} (hclose : close ≠ ',' ∧ isWs close = false)
    (hapart : ∀ r, Apart (close :: r)) (h : ∀ y ∈ x :: xs, ReadsItem item text y)
    {fuel : ℕ} (hfuel : xs.length < fuel) (r : Text) :
  readItems close item fuel ([','].intercalate ((x :: xs).map text) ++ close :: r) =
    some (x :: xs, r)
  := by
  have hx := h x List.mem_cons_self
  induction xs generalizing x fuel with
  | nil =>
      cases fuel with
      | zero => cases hfuel
      | succ fuel =>
          rw [List.map_singleton, List.intercalate_singleton,
            readItems_last hclose hx hapart]
  | cons y ys ih =>
      cases fuel with
      | zero => cases hfuel
      | succ fuel =>
          have hy := h y (by simp)
          have hys : ∀ z ∈ y :: ys, ReadsItem item text z :=
            fun z hz => h z (List.mem_cons_of_mem x hz)
          have hrest := ih hys (Nat.lt_of_succ_lt_succ hfuel) hy
          rw [List.map_cons] at hrest
          rw [List.map_cons, List.map_cons, List.intercalate_cons_cons, List.append_assoc,
            List.append_assoc, List.singleton_append, readItems_cons hx, hrest]
          rfl

end Items

/-- There are as many commas as texts but one, so that the length of the whole is enough fuel for
reading the items. -/
theorem length_le_intercalate_add_one (ts : List Text) :
  ts.length ≤ ([','].intercalate ts).length + 1
  := by
  induction ts with
  | nil => exact Nat.zero_le _
  | cons t ts ih =>
      cases ts with
      | nil => simp
      | cons u us =>
          simp only [List.intercalate_cons_cons, List.length_append, List.length_cons,
            List.length_nil] at ih ⊢
          omega

/-- Each text is at most as long as the whole, so that the fuel of the whole is enough for it. -/
theorem length_le_intercalate {ts : List Text} {t : Text} (h : t ∈ ts) :
  t.length ≤ ([','].intercalate ts).length
  := by
  induction ts with
  | nil => cases h
  | cons u us ih =>
      cases us with
      | nil =>
          rw [List.mem_singleton] at h
          rw [h, List.intercalate_singleton]
      | cons v vs =>
          rw [List.intercalate_cons_cons, List.length_append, List.length_append]
          rcases List.mem_cons.mp h with rfl | h
          · omega
          · have := ih h
            omega

/-- Texts behind a first one, with a comma before each. -/
theorem intercalate_cons (t : Text) (ts : List Text) :
  [','].intercalate (t :: ts) = t ++ ts.flatMap fun u => ',' :: u
  := by
  induction ts generalizing t with
  | nil => rw [List.intercalate_singleton, List.flatMap_nil, List.append_nil]
  | cons u us ih =>
      rw [List.intercalate_cons_cons, ih, List.flatMap_cons, List.append_assoc,
        List.singleton_append, List.cons_append]

/-- Texts with commas between them begin as the first one does. -/
theorem Starts.intercalate {close : Char} {t : Text} (h : Starts close t) (ts : List Text)
    (r : Text) :
  Starts close ([','].intercalate (t :: ts) ++ r)
  := by
  obtain ⟨c, s, rfl, hws, hne⟩ := h
  cases ts with
  | nil =>
      rw [List.intercalate_singleton]
      exact ⟨c, s ++ r, rfl, hws, hne⟩
  | cons u us =>
      rw [List.intercalate_cons_cons]
      exact ⟨c, _, rfl, hws, hne⟩

/-- Items between brackets are read back from their texts. -/
theorem readItems_bracketed {α : Type*} {close : Char} {item : Text → Option (α × Text)}
    {text : α → Text} {x : α} {xs : List α} (hclose : close ≠ ',' ∧ isWs close = false)
    (hapart : ∀ r, Apart (close :: r)) (h : ∀ y ∈ x :: xs, ReadsItem item text y)
    (hstart : Starts close (text x)) (r : Text) :
  ∃ s, ws ([','].intercalate ((x :: xs).map text) ++ close :: r) = s ∧ s.head? ≠ some close ∧
    readItems close item s.length s = some (x :: xs, r)
  := by
  have hcount := length_le_intercalate_add_one ((x :: xs).map text)
  rw [List.length_map, List.length_cons] at hcount
  refine ⟨_, rfl, ?_, ?_⟩
  · obtain ⟨c, s, heq, hws, hne⟩ := hstart.intercalate (xs.map text) (close :: r)
    rw [List.map_cons, heq, ws_cons hws, List.head?_cons]
    rintro ⟨⟩
    contradiction
  · obtain ⟨c, s, heq, hws, hne⟩ := hstart.intercalate (xs.map text) (close :: r)
    have hfuel : xs.length < (c :: s).length := by
      rw [← heq, ← List.map_cons, List.length_append, List.length_cons]
      omega
    have hread := readItems_intercalate hclose hapart h hfuel r
    rw [List.map_cons, heq] at hread ⊢
    rw [ws_cons hws, hread]

/-- An array is read back when its items are. -/
theorem reads_array {items : List Json} (h : ∀ j ∈ items, Reads j) : Reads (.array items) := by
  rintro (_ | fuel) r hfuel hr
  · rw [render_array] at hfuel
    cases hfuel
  rw [render_array] at hfuel ⊢
  rw [List.length_cons, List.length_append, List.length_singleton] at hfuel
  rw [List.cons_append, List.append_assoc, List.singleton_append, readValue]
  simp only [Char.reduceEq, if_false, if_true]
  cases items with
  | nil => rfl
  | cons j js =>
      have hitem : ∀ k ∈ j :: js, ReadsItem (readValue fuel) render k := by
        intro k hk r hr
        have hlen := length_le_intercalate (List.mem_map_of_mem (f := render) hk)
        rw [ws_render]
        exact h k hk fuel r (by omega) hr
      have hclose : ']' ≠ ',' ∧ isWs ']' = false := by decide
      have hapart : ∀ r, Apart (']' :: r) := fun _ => ⟨rfl, by decide, by decide, by decide⟩
      obtain ⟨s, heq, hne, hread⟩ := readItems_bracketed hclose hapart hitem (starts_render j) r
      rw [heq]
      split
      · next h => exact absurd rfl hne
      · rw [hread]
        rfl

/-- A member is read back when its value is. -/
theorem readsItem_member (name : Text) {j : Json} {fuel : ℕ}
    (hj : ReadsItem (readValue fuel) render j) :
  ReadsItem (readMember (readValue fuel)) renderMember (name, j)
  := by
  intro r hr
  have hname := readString_flatMap name (':' :: (render j ++ r))
  have hquote : ∀ s, ws ('"' :: s) = '"' :: s := ws_cons rfl
  have hcolon : ∀ s, ws (':' :: s) = ':' :: s := ws_cons rfl
  rw [renderMember_mk, quoted, List.append_assoc, List.cons_append, List.cons_append, hquote,
    List.append_assoc, List.singleton_append, readMember, hname, Option.bind_eq_bind,
    Option.bind_some]
  simp only [hcolon, hj r hr, Option.map_some]

/-- A member begins with a quotation mark. -/
theorem starts_renderMember (m : Text × Json) : Starts '}' (renderMember m) := by
  obtain ⟨name, j⟩ := m
  rw [renderMember_mk, quoted]
  exact ⟨'"', _, rfl, rfl, by decide⟩

/-- An object is read back when the values of its members are. -/
theorem reads_object {members : List (Text × Json)} (h : ∀ m ∈ members, Reads m.2) :
  Reads (.object members)
  := by
  rintro (_ | fuel) r hfuel hr
  · rw [render_object] at hfuel
    cases hfuel
  rw [render_object] at hfuel ⊢
  rw [List.length_cons, List.length_append, List.length_singleton] at hfuel
  rw [List.cons_append, List.append_assoc, List.singleton_append, readValue]
  simp only [if_true]
  cases members with
  | nil => rfl
  | cons m ms =>
      have hitem : ∀ k ∈ m :: ms, ReadsItem (readMember (readValue fuel)) renderMember k := by
        rintro ⟨name, j⟩ hk
        have hlen := length_le_intercalate (List.mem_map_of_mem (f := renderMember) hk)
        rw [renderMember_mk, List.length_append, List.length_cons] at hlen
        apply readsItem_member
        intro r hr
        rw [ws_render]
        have hfuel : (render j).length ≤ fuel := by omega
        exact h _ hk fuel r hfuel hr
      have hclose : '}' ≠ ',' ∧ isWs '}' = false := by decide
      have hapart : ∀ r, Apart ('}' :: r) := fun _ => ⟨rfl, by decide, by decide, by decide⟩
      obtain ⟨s, heq, hne, hread⟩ :=
        readItems_bracketed hclose hapart hitem (starts_renderMember m) r
      rw [heq]
      split
      · next h => exact absurd rfl hne
      · rw [hread]
        rfl

/-- Every value is read back: an induction over the items and the members. -/
theorem reads (j : Json) : Reads j := by
  match j with
  | .null => exact reads_null
  | .bool b => exact reads_bool b
  | .number n => exact reads_number n
  | .string s => exact reads_string s
  | .array items =>
      apply reads_array
      intro j hj
      exact reads j
  | .object members =>
      apply reads_object
      intro m hm
      have hsize := List.sizeOf_lt_of_mem hm
      have hmember : sizeOf m = 1 + sizeOf m.1 + sizeOf m.2 := rfl
      exact reads m.2

/-- A value is read back from its text. -/
theorem parse_render (j : Json) : parse (render j) = some j := by
  have hread := reads j ((render j).length + 1) [] (Nat.le_succ _) trivial
  have hws := ws_render j []
  rw [List.append_nil] at hread hws
  rw [parse, hws, hread]
  rfl

end Json
