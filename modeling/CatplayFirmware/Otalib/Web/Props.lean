import CatplayFirmware.Support.Except
import CatplayFirmware.Support.Runs
import CatplayFirmware.Support.Text

/-!
# The property store

Properties have a name, a type and a value. The definitions file gives them with their
default values, one line each with four fields between tabs, and every change of a value
writes the whole list to a second file of the same form, which is read back after a restart.
The reader trims each line before it splits it, so a value is read back as it was written
exactly when it is not empty and does not end with white space.
-/

namespace Props

/-! ### Types and values -/

/-- The types of properties, with what their values are bounded by. -/
inductive PropType where
  | enum (values : List Text)
  | bool
  | int (min max : ℤ)
  | string (minLen maxLen : ℕ)
  deriving DecidableEq

/-- A property, the source's `Prop`. -/
structure Property where
  name : Text
  ty : PropType
  value : Text
  deriving DecidableEq

/-- The characters that separate fields and lines. -/
def isControl (c : Char) : Bool := c == '\t' || c == '\r' || c == '\n'

/-- A token has none of the characters that separate. -/
def validateToken (value : Text) : Except Text Unit :=
  if value.any isControl then .error "value contains forbidden control char".toList else .ok ()

def validateName (name : Text) : Except Text Unit :=
  if name = [] then .error "empty prop name".toList else validateToken name

/-- The value as it is kept, if it has the type. -/
def validateValue (ty : PropType) (value : Text) : Except Text Text :=
  match ty with
  | .enum values =>
    if value ∈ values then .ok value else .error "enum value is not allowed".toList
  | .bool =>
    if value = "true".toList ∨ value = "1".toList then .ok "true".toList
    else if value = "false".toList ∨ value = "0".toList then .ok "false".toList
    else .error "bool accepts only true/false/1/0".toList
  | .int min max =>
    match Text.parseI32 value with
    | none => .error "invalid int".toList
    | some parsed =>
      if parsed < min ∨ max < parsed then .error "int out of range".toList
      else .ok (Text.ofInt parsed)
  | .string minLen maxLen => do
    validateToken value
    if value.byteLen < minLen ∨ maxLen < value.byteLen then
      throw "string length out of range".toList
    return value

/-! ### Reading -/

/-- Two bounds with a colon between them. -/
def parseRangeParts (spec : Text) : Except Text (Text × Text) :=
  match Text.splitOnce ':' spec with
  | none => .error "missing range".toList
  | some parts => .ok parts

def parseRangeI32 (spec : Text) : Except Text (ℤ × ℤ) := do
  let (minS, maxS) ← parseRangeParts spec
  match Text.parseI32 minS, Text.parseI32 maxS with
  | some min, some max =>
    if max < min then throw "invalid int range".toList
    return (min, max)
  | _, _ => throw "invalid int range".toList

/-- The range of a string's length, in the machine's `usize` of `bits` bits. -/
def parseRangeUsize (bits : ℕ) (spec : Text) : Except Text (ℕ × ℕ) := do
  let (minS, maxS) ← parseRangeParts spec
  match Text.parseUnsigned bits minS, Text.parseUnsigned bits maxS with
  | some min, some max =>
    if max < min then throw "invalid string range".toList
    return (min, max)
  | _, _ => throw "invalid string range".toList

/-- The items of an `enum`: the empty ones are left out. -/
def parseItems : List Text → Except Text (List Text)
  | [] => .ok []
  | item :: items =>
    if item = [] then parseItems items
    else do
      validateToken item
      let values ← parseItems items
      return item :: values

/-- The type of a property from its two fields. -/
def parseType (bits : ℕ) (ty spec : Text) : Except Text PropType :=
  if ty = "enum".toList then do
    let values ← parseItems (spec.splitOn ',')
    if values = [] then throw "enum requires at least one value".toList
    return .enum values
  else if ty = "bool".toList then
    if spec = "-".toList then .ok .bool else .error "bool spec must be '-'".toList
  else if ty = "int".toList then do
    let (min, max) ← parseRangeI32 spec
    return .int min max
  else if ty = "string".toList then do
    let (minLen, maxLen) ← parseRangeUsize bits spec
    return .string minLen maxLen
  else .error "unknown type".toList

/-- The four fields of a line. -/
def parseFields (line : Text) : Except Text (Text × Text × Text × Text) :=
  match Text.splitn 4 '\t' line with
  | name :: ty :: spec :: value :: _ => .ok (name, ty, spec, value)
  | [_, _, _] => .error "missing value".toList
  | [_, _] => .error "missing spec".toList
  | [_] => .error "missing type".toList
  | [] => .error "missing name".toList

/-- A line with a property. Its value is checked against its type. -/
def parseLine (bits : ℕ) (line : Text) : Except Text Property := do
  let (name, ty, spec, value) ← parseFields line
  validateName name
  let parsedType ← parseType bits ty spec
  let normalized ← validateValue parsedType value
  return ⟨name, parsedType, normalized⟩

/-- The loop of `parse_props_file`: one bad line refuses the whole file. -/
def parseLines (bits : ℕ) : List Text → Except Text (List Property)
  | [] => .ok []
  | rawLine :: rest =>
    let line := rawLine.trim
    if line = [] ∨ line.startsWith '#' then parseLines bits rest
    else do
      let prop ← parseLine bits line
      let props ← parseLines bits rest
      return prop :: props

/-- The properties of a file, or the first error. -/
def parsePropsFile (bits : ℕ) (input : Text) : Except Text (List Property) :=
  parseLines bits input.lines

/-! ### Writing -/

def typeToFields : PropType → Text × Text
  | .enum values => ("enum".toList, [','].intercalate values)
  | .bool => ("bool".toList, "-".toList)
  | .int min max => ("int".toList, Text.ofInt min ++ ':' :: Text.ofInt max)
  | .string minLen maxLen => ("string".toList, Text.ofNat minLen ++ ':' :: Text.ofNat maxLen)

/-- The line of a property, without its line feed. -/
def propLine (prop : Property) : Text :=
  let (tyStr, spec) := typeToFields prop.ty
  prop.name ++ '\t' :: (tyStr ++ '\t' :: (spec ++ '\t' :: prop.value))

def headerLine : Text := "# name\ttype\tspec\tvalue".toList

/-- The file of properties, with a line of its own at the top. -/
def serializePropsFile (props : List Property) : Text :=
  (headerLine :: props.map propLine).flatMap (· ++ ['\n'])

/-! ### The store -/

/-- Types are compared with their bounds. -/
def sameType : PropType → PropType → Bool
  | .bool, .bool => true
  | .int amin amax, .int bmin bmax => amin == bmin && amax == bmax
  | .string amin amax, .string bmin bmax => amin == bmin && amax == bmax
  | .enum a, .enum b => a == b
  | _, _ => false

/-- The first property with a name. -/
def findProp (name : Text) (props : List Property) : Option Property :=
  props.find? fun prop => prop.name == name

/-- `PropStore::get`. -/
def get (props : List Property) (name : Text) : Option Text :=
  (findProp name props).map Property.value

/-- The list with the value of the first property of a name replaced. -/
def assign (name value : Text) : List Property → List Property
  | [] => []
  | prop :: rest =>
    if prop.name = name then { prop with value := value } :: rest
    else prop :: assign name value rest

/-- One round of the loop of `apply_overrides`. -/
def applyOverride (props : List Property) (override : Property) : List Property :=
  match findProp override.name props with
  | none => props
  | some target =>
    if sameType target.ty override.ty then
      match validateValue target.ty override.value with
      | .ok normalized => assign override.name normalized props
      | .error _ => props
    else props

/-- The values of a second file, one after the other. -/
def applyOverrides (props overrides : List Property) : List Property :=
  overrides.foldl applyOverride props

def builtinPropDefs : Text := []

/-- `load_with_paths`, from the texts of the two files; a text is missing when its file cannot
be read. -/
def loadWithPaths (bits : ℕ) (defsText valuesText : Option Text) : List Property :=
  let props :=
    match parsePropsFile bits (defsText.getD builtinPropDefs) with
    | .ok props => props
    | .error _ =>
      match parsePropsFile bits builtinPropDefs with
      | .ok props => props
      | .error _ => []
  match valuesText.map (parsePropsFile bits) with
  | some (.ok overrides) => applyOverrides props overrides
  | _ => props

/-- A call of `set`, with the answer of the system to writing the file. -/
structure SetCall where
  name : Text
  value : Text
  persists : Except Text Unit

/-- `PropStore::set`, with the list as it is after the call. -/
def set (props : List Property) (call : SetCall) : List Property × Except Text Text :=
  match findProp call.name props with
  | none => (props, .error "unknown prop".toList)
  | some prop =>
    match validateValue prop.ty call.value with
    | .error error => (props, .error error)
    | .ok normalized =>
      match call.persists with
      | .error error => (props, .error ("persist failed: ".toList ++ error))
      | .ok () => (assign call.name normalized props, .ok normalized)

/-- The list after some calls of `set`. -/
def setAll (props : List Property) (calls : List SetCall) : List Property :=
  calls.foldl (fun props call => (set props call).1) props

/-! ### What is accepted is well formed -/

/-- A text without tabs, carriage returns and line feeds. -/
def Plain (s : Text) : Prop := ∀ c ∈ s, isControl c = false

instance (s : Text) : Decidable (Plain s) := inferInstanceAs (Decidable (∀ c ∈ s, _))

/-- A type as `parseType` gives it. -/
def PropType.Valid (bits : ℕ) : PropType → Prop
  | .enum values => values ≠ [] ∧ ∀ item ∈ values, item ≠ [] ∧ ',' ∉ item ∧ Plain item
  | .bool => True
  | .int min max => -2 ^ 31 ≤ min ∧ min ≤ max ∧ max < 2 ^ 31
  | .string minLen maxLen => minLen ≤ maxLen ∧ maxLen < 2 ^ bits

/-- A property that can stand in the store: its line is not a comment, its type is valid and
allows its value. -/
structure Property.Valid (bits : ℕ) (prop : Property) : Prop where
  name_ne_nil : prop.name ≠ []
  name_plain : Plain prop.name
  name_solid : Text.SolidStart prop.name
  name_not_comment : Text.startsWith prop.name '#' = false
  ty_valid : prop.ty.Valid bits
  value_valid : validateValue prop.ty prop.value = .ok prop.value

/-- A value that is read back as it was written: one that is not empty and does not end with
white space. -/
def Kept (value : Text) : Prop := value ≠ [] ∧ Text.SolidEnd value

instance (value : Text) : Decidable (Kept value) := inferInstanceAs (Decidable (_ ∧ _))

/-- An accepted token is plain. -/
theorem validateToken_ok {value : Text} {u : Unit} (h : validateToken value = .ok u) :
  Plain value
  := by
  rw [validateToken] at h
  split at h
  · cases h
  · next hcontrol =>
    intro c hc
    rw [Bool.not_eq_true, List.any_eq_false] at hcontrol
    simpa using hcontrol c hc

theorem validateToken_of_plain {value : Text} (h : Plain value) :
  validateToken value = .ok ()
  := by
  rw [validateToken, if_neg]
  rw [Bool.not_eq_true, List.any_eq_false]
  intro c hc
  simp [h c hc]

theorem plain_append {s t : Text} : Plain (s ++ t) ↔ Plain s ∧ Plain t := by
  simp [Plain, or_imp, forall_and]

/-- The control characters are white space. -/
theorem plain_of_solid {s : Text} (h : ∀ c ∈ s, Text.isWhitespace c = false) : Plain s := by
  intro c hc
  rw [Bool.eq_false_iff]
  intro hcontrol
  rw [isControl, Bool.or_eq_true, Bool.or_eq_true, beq_iff_eq, beq_iff_eq, beq_iff_eq] at hcontrol
  have hsolid := h c hc
  rcases hcontrol with (rfl | rfl) | rfl
  · cases hsolid
  · cases hsolid
  · cases hsolid

/-- A numeral is plain, and is kept as a value. -/
theorem plain_of_numeral {s : Text} (h : ∀ c ∈ s, Text.IsNumeral c) : Plain s :=
  plain_of_solid fun c hc => (h c hc).isWhitespace

/-- A numeral is kept by trimming. -/
theorem kept_of_numeral {s : Text} (hne : s ≠ []) (h : ∀ c ∈ s, Text.IsNumeral c) : Kept s :=
  ⟨hne, Text.solidEnd_of_forall fun c hc => (h c hc).isWhitespace⟩

/-- A value that a valid type allows is allowed again, as it was normalized. It is plain, and it
is kept exactly when the value given was. -/
theorem validateValue_ok {bits : ℕ} {ty : PropType} (hty : ty.Valid bits) {value normalized : Text}
    (h : validateValue ty value = .ok normalized) :
  validateValue ty normalized = .ok normalized ∧ Plain normalized ∧
    (Kept normalized ↔ Kept value)
  := by
  cases ty with
  | enum values =>
      rw [validateValue] at h
      split at h
      · next hmem =>
        obtain rfl := Except.ok.inj h
        refine ⟨?_, (hty.2 _ hmem).2.2, Iff.rfl⟩
        rw [validateValue, if_pos hmem]
      · cases h
  | bool =>
      rw [validateValue] at h
      split at h
      · next hvalue =>
        obtain rfl := Except.ok.inj h
        refine ⟨by decide, by decide, ?_⟩
        rcases hvalue with rfl | rfl
        · rfl
        · decide
      · split at h
        · next hvalue =>
          obtain rfl := Except.ok.inj h
          refine ⟨by decide, by decide, ?_⟩
          rcases hvalue with rfl | rfl
          · rfl
          · decide
        · cases h
  | int min max =>
      rw [validateValue] at h
      split at h
      · cases h
      · next parsed hparsed =>
        obtain ⟨⟨hne, hnumeral⟩, hlow, hhigh⟩ := Text.parseI32_eq_some hparsed
        split at h
        · cases h
        · next hrange =>
          obtain rfl := Except.ok.inj h
          have hofInt : ∀ c ∈ Text.ofInt parsed, Text.IsNumeral c :=
            fun c => Text.isNumeral_of_mem_ofInt
          refine ⟨?_, plain_of_numeral hofInt, ?_⟩
          · rw [validateValue, Text.parseI32_ofInt hlow hhigh]
            simp only [if_neg hrange]
          · exact iff_of_true (kept_of_numeral (Text.ofInt_ne_nil parsed) hofInt)
              (kept_of_numeral hne hnumeral)
  | string minLen maxLen =>
      have hstring := h
      rw [validateValue] at h
      obtain ⟨u, htoken, h⟩ := Except.bind_eq_ok_iff.mp h
      split at h
      · cases h
      · obtain rfl : value = normalized := Except.ok.inj h
        exact ⟨hstring, validateToken_ok htoken, Iff.rfl⟩

/-! ### Types are read back -/

/-- What the items of an enumeration are made sure to be. -/
theorem parseItems_ok {items values : List Text} (h : parseItems items = .ok values)
    (hitems : ∀ item ∈ items, ',' ∉ item) :
  ∀ value ∈ values, value ≠ [] ∧ ',' ∉ value ∧ Plain value
  := by
  induction items generalizing values with
  | nil =>
      cases h
      simp
  | cons item items ih =>
      have hrest : ∀ item ∈ items, ',' ∉ item :=
        fun item hitem => hitems item (List.mem_cons_of_mem _ hitem)
      rw [parseItems] at h
      split at h
      · apply ih h hrest
      · next hne =>
        obtain ⟨u, htoken, h⟩ := Except.bind_eq_ok_iff.mp h
        obtain ⟨rest, hparse, h⟩ := Except.bind_eq_ok_iff.mp h
        obtain rfl : item :: rest = values := Except.ok.inj h
        intro value hvalue
        rcases List.mem_cons.mp hvalue with rfl | hvalue
        · exact ⟨hne, hitems value List.mem_cons_self, validateToken_ok htoken⟩
        · apply ih hparse hrest value hvalue

/-- Items that are in order are read as they are. -/
theorem parseItems_of_valid {values : List Text}
    (h : ∀ value ∈ values, value ≠ [] ∧ ',' ∉ value ∧ Plain value) :
  parseItems values = .ok values
  := by
  induction values with
  | nil => rfl
  | cons value values ih =>
      obtain ⟨hne, -, hplain⟩ := h value List.mem_cons_self
      have ih := ih fun value hvalue => h value (List.mem_cons_of_mem _ hvalue)
      rw [parseItems, if_neg hne, validateToken_of_plain hplain, ih]
      rfl

/-- A range that is accepted is one of 32 bits, and its bounds are in order. -/
theorem parseRangeI32_ok {spec : Text} {min max : ℤ} (h : parseRangeI32 spec = .ok (min, max)) :
  -2 ^ 31 ≤ min ∧ min ≤ max ∧ max < 2 ^ 31
  := by
  obtain ⟨⟨minS, maxS⟩, -, h⟩ := Except.bind_eq_ok_iff.mp h
  simp only at h
  split at h
  · next lo hi hlo hhi =>
    split at h
    · cases h
    · next hrange =>
      cases h
      exact ⟨(Text.parseI32_eq_some hlo).2.1, Int.not_lt.mp hrange,
        (Text.parseI32_eq_some hhi).2.2⟩
  · cases h

/-- A range of lengths fits a word of the processor. -/
theorem parseRangeUsize_ok {bits : ℕ} {spec : Text} {minLen maxLen : ℕ}
    (h : parseRangeUsize bits spec = .ok (minLen, maxLen)) :
  minLen ≤ maxLen ∧ maxLen < 2 ^ bits
  := by
  obtain ⟨⟨minS, maxS⟩, -, h⟩ := Except.bind_eq_ok_iff.mp h
  simp only at h
  split at h
  · next lo hi hlo hhi =>
    split at h
    · cases h
    · next hrange =>
      cases h
      exact ⟨Nat.not_lt.mp hrange, Text.parseUnsigned_lt hhi⟩
  · cases h

/-- A type that is read is valid. -/
theorem parseType_ok {bits : ℕ} {tyStr spec : Text} {ty : PropType}
    (h : parseType bits tyStr spec = .ok ty) :
  ty.Valid bits
  := by
  rw [parseType] at h
  split at h
  · obtain ⟨values, hitems, h⟩ := Except.bind_eq_ok_iff.mp h
    split at h
    · cases h
    · next hne =>
      cases h
      exact ⟨hne, parseItems_ok hitems fun item => Text.notMem_of_mem_splitOn⟩
  · split at h
    · split at h
      · cases h
        trivial
      · cases h
    · split at h
      · obtain ⟨⟨min, max⟩, hrange, h⟩ := Except.bind_eq_ok_iff.mp h
        cases h
        apply parseRangeI32_ok hrange
      · split at h
        · obtain ⟨⟨minLen, maxLen⟩, hrange, h⟩ := Except.bind_eq_ok_iff.mp h
          cases h
          apply parseRangeUsize_ok hrange
        · cases h

theorem colon_notMem_of_numeral {s : Text} (h : ∀ c ∈ s, Text.IsNumeral c) : ':' ∉ s := by
  intro hc
  have hcolon : ¬ Text.IsNumeral ':' := by
    unfold Text.IsNumeral
    decide
  apply hcolon (h _ hc)

/-- A range has a colon, but nothing that separates. -/
theorem plain_range {s t : Text} (hs : ∀ c ∈ s, Text.IsNumeral c)
    (ht : ∀ c ∈ t, Text.IsNumeral c) :
  Plain (s ++ ':' :: t)
  := by
  apply plain_of_solid
  intro c hc
  rcases List.mem_append.mp hc with hc | hc
  · apply (hs c hc).isWhitespace
  · rcases List.mem_cons.mp hc with rfl | hc
    · rfl
    · apply (ht c hc).isWhitespace

/-- Items with commas between them have nothing that separates. -/
theorem plain_intercalate {values : List Text} (h : ∀ value ∈ values, Plain value) :
  Plain ([','].intercalate values)
  := by
  induction values with
  | nil =>
      intro c hc
      cases hc
  | cons value values ih =>
      have hvalue := h value List.mem_cons_self
      have hvalues := ih fun value hvalue => h value (List.mem_cons_of_mem _ hvalue)
      cases values with
      | nil =>
          rw [List.intercalate_singleton]
          exact hvalue
      | cons value' values =>
          rw [List.intercalate_cons_cons, plain_append, plain_append]
          exact ⟨⟨hvalue, by decide⟩, hvalues⟩

/-- The fields of a type are plain. -/
theorem plain_typeToFields {bits : ℕ} {ty : PropType} (hty : ty.Valid bits) :
  Plain (typeToFields ty).1 ∧ Plain (typeToFields ty).2
  := by
  cases ty with
  | enum values =>
      refine ⟨show Plain "enum".toList by decide, ?_⟩
      apply plain_intercalate fun value hvalue => (hty.2 value hvalue).2.2
  | bool => exact ⟨show Plain "bool".toList by decide, show Plain "-".toList by decide⟩
  | int min max =>
      refine ⟨show Plain "int".toList by decide, ?_⟩
      apply plain_range (fun c => Text.isNumeral_of_mem_ofInt) fun c => Text.isNumeral_of_mem_ofInt
  | string minLen maxLen =>
      refine ⟨show Plain "string".toList by decide, ?_⟩
      apply plain_range (fun c => Text.isNumeral_of_mem_ofNat) fun c => Text.isNumeral_of_mem_ofNat

/-- A range is read back. -/
theorem parseRangeI32_ofInt {min max : ℤ} (hmin : -2 ^ 31 ≤ min) (hle : min ≤ max)
    (hmax : max < 2 ^ 31) :
  parseRangeI32 (Text.ofInt min ++ ':' :: Text.ofInt max) = .ok (min, max)
  := by
  have hcolon : ':' ∉ Text.ofInt min :=
    colon_notMem_of_numeral fun c => Text.isNumeral_of_mem_ofInt
  rw [parseRangeI32, parseRangeParts, Text.splitOnce_append_cons hcolon, Except.ok_bind]
  simp only [Text.parseI32_ofInt hmin (by omega), Text.parseI32_ofInt (by omega) hmax,
    if_neg (Int.not_lt.mpr hle)]
  rfl

/-- A range of lengths is read back. -/
theorem parseRangeUsize_ofNat {bits minLen maxLen : ℕ} (hle : minLen ≤ maxLen)
    (hmax : maxLen < 2 ^ bits) :
  parseRangeUsize bits (Text.ofNat minLen ++ ':' :: Text.ofNat maxLen) = .ok (minLen, maxLen)
  := by
  have hcolon : ':' ∉ Text.ofNat minLen :=
    colon_notMem_of_numeral fun c => Text.isNumeral_of_mem_ofNat
  rw [parseRangeUsize, parseRangeParts, Text.splitOnce_append_cons hcolon, Except.ok_bind]
  simp only [Text.parseUnsigned_ofNat (Nat.lt_of_le_of_lt hle hmax),
    Text.parseUnsigned_ofNat hmax, if_neg (Nat.not_lt.mpr hle)]
  rfl

/-- A valid type is read back from its fields. -/
theorem parseType_typeToFields {bits : ℕ} {ty : PropType} (hty : ty.Valid bits) :
  parseType bits (typeToFields ty).1 (typeToFields ty).2 = .ok ty
  := by
  cases ty with
  | enum values =>
      obtain ⟨hne, hvalues⟩ := hty
      have hsplit : ([','].intercalate values).splitOn ',' = values :=
        List.splitOn_intercalate ',' (fun value hvalue => (hvalues value hvalue).2.1) hne
      change parseType bits "enum".toList ([','].intercalate values) = _
      rw [parseType, if_pos rfl, hsplit, parseItems_of_valid hvalues]
      simp only [Except.ok_bind, if_neg hne]
      rfl
  | bool => rfl
  | int min max =>
      change parseType bits "int".toList (Text.ofInt min ++ ':' :: Text.ofInt max) = _
      rw [parseType, if_neg (by decide), if_neg (by decide), if_pos rfl,
        parseRangeI32_ofInt hty.1 hty.2.1 hty.2.2]
      rfl
  | string minLen maxLen =>
      change parseType bits "string".toList (Text.ofNat minLen ++ ':' :: Text.ofNat maxLen) = _
      rw [parseType, if_neg (by decide), if_neg (by decide), if_neg (by decide), if_pos rfl,
        parseRangeUsize_ofNat hty.1 hty.2]
      rfl

/-! ### Lines and files are read back -/

/-- A line is its fields with tabs between them. -/
theorem parseFields_ok {line name ty spec value : Text}
    (h : parseFields line = .ok (name, ty, spec, value)) :
  line = name ++ '\t' :: (ty ++ '\t' :: (spec ++ '\t' :: value))
  := by
  rw [parseFields] at h
  split at h
  · next name' ty' spec' value' rest hsplit =>
    cases h
    obtain ⟨afterName, rfl, hty⟩ := Text.splitn_eq_cons_cons hsplit
    obtain ⟨afterTy, rfl, hspec⟩ := Text.splitn_eq_cons_cons hty
    obtain ⟨afterSpec, rfl, hvalue⟩ := Text.splitn_eq_cons_cons hspec
    obtain ⟨rfl, -⟩ := List.cons.inj hvalue
    rfl
  · cases h
  · cases h
  · cases h
  · cases h

theorem tab_notMem {s : Text} (h : Plain s) : '\t' ∉ s := fun ht => by cases h _ ht

/-- The fields of a line are read back, and the value may have tabs of its own. -/
theorem parseFields_of_plain {name ty spec : Text} (hname : Plain name) (hty : Plain ty)
    (hspec : Plain spec) (value : Text) :
  parseFields (name ++ '\t' :: (ty ++ '\t' :: (spec ++ '\t' :: value))) =
    .ok (name, ty, spec, value)
  := by
  rw [parseFields, Text.splitn_append_cons (tab_notMem hname),
    Text.splitn_append_cons (tab_notMem hty), Text.splitn_append_cons (tab_notMem hspec)]
  rfl

theorem validateName_ok {name : Text} {u : Unit} (h : validateName name = .ok u) :
  name ≠ [] ∧ Plain name
  := by
  rw [validateName] at h
  split at h
  · cases h
  · next hne => exact ⟨hne, validateToken_ok h⟩

theorem validateName_of_plain {name : Text} (hne : name ≠ []) (h : Plain name) :
  validateName name = .ok ()
  := by
  rw [validateName, if_neg hne, validateToken_of_plain h]

/-- The property of a trimmed line is valid, and its value is kept. -/
theorem parseLine_ok {bits : ℕ} {line : Text} {prop : Property} (hstart : Text.SolidStart line)
    (hend : Text.SolidEnd line) (hcomment : Text.startsWith line '#' = false)
    (h : parseLine bits line = .ok prop) :
  prop.Valid bits ∧ Kept prop.value
  := by
  obtain ⟨⟨name, tyStr, spec, value⟩, hfields, h⟩ := Except.bind_eq_ok_iff.mp h
  obtain ⟨u, hname, h⟩ := Except.bind_eq_ok_iff.mp h
  obtain ⟨ty, hty, h⟩ := Except.bind_eq_ok_iff.mp h
  obtain ⟨normalized, hvalue, h⟩ := Except.bind_eq_ok_iff.mp h
  cases h
  obtain rfl := parseFields_ok hfields
  obtain ⟨hne, hplain⟩ := validateName_ok hname
  obtain ⟨hagain, -, hkept⟩ := validateValue_ok (parseType_ok hty) hvalue
  have hsolid : Kept value := by
    -- an empty value would leave the line ending with a tab
    have hlast : Text.SolidEnd ('\t' :: value) := by
      have hline : name ++ '\t' :: (tyStr ++ '\t' :: (spec ++ '\t' :: value)) =
          (name ++ '\t' :: (tyStr ++ '\t' :: spec)) ++ '\t' :: value := by simp
      rw [hline] at hend
      exact (Text.solidEnd_append (List.cons_ne_nil _ _)).mp hend
    have hvalue_ne : value ≠ [] := by
      rintro rfl
      cases hlast '\t' rfl
    exact ⟨hvalue_ne, (Text.solidEnd_append (s := ['\t']) hvalue_ne).mp hlast⟩
  have hname_line : name <+: name ++ '\t' :: (tyStr ++ '\t' :: (spec ++ '\t' :: value)) :=
    List.prefix_append _ _
  refine ⟨⟨hne, hplain, Text.solidStart_of_prefix hstart hname_line, ?_, parseType_ok hty, hagain⟩,
    hkept.mpr hsolid⟩
  obtain ⟨c, rest, rfl⟩ := List.exists_cons_of_ne_nil hne
  exact hcomment

/-- The line of a valid property is one line, and the property is read back from it. -/
theorem parseLine_propLine {bits : ℕ} {prop : Property} (h : prop.Valid bits) :
  Plain prop.value ∧ parseLine bits (propLine prop) = .ok prop
  := by
  obtain ⟨-, hvalue, -⟩ := validateValue_ok h.ty_valid h.value_valid
  obtain ⟨hty, hspec⟩ := plain_typeToFields h.ty_valid
  refine ⟨hvalue, ?_⟩
  have hfields : parseFields (propLine prop) =
      .ok (prop.name, (typeToFields prop.ty).1, (typeToFields prop.ty).2, prop.value) :=
    parseFields_of_plain h.name_plain hty hspec prop.value
  rw [parseLine, hfields, Except.ok_bind]
  simp only [validateName_of_plain h.name_ne_nil h.name_plain, parseType_typeToFields h.ty_valid,
    h.value_valid, Except.ok_bind]
  rfl

theorem lineFeed_notMem {s : Text} (h : Plain s) : '\n' ∉ s ∧ '\r' ∉ s := by
  constructor
  · intro hc
    cases h _ hc
  · intro hc
    cases h _ hc

/-- The lines of a written file. -/
theorem lines_serialize {bits : ℕ} {props : List Property} (h : ∀ prop ∈ props, prop.Valid bits) :
  (serializePropsFile props).lines = headerLine :: props.map propLine
  := by
  have hlines : ∀ line ∈ headerLine :: props.map propLine, '\n' ∉ line ∧ '\r' ∉ line := by
    intro line hline
    rcases List.mem_cons.mp hline with rfl | hline
    · decide
    · obtain ⟨prop, hprop, rfl⟩ := List.mem_map.mp hline
      have hvalid := h prop hprop
      obtain ⟨hty, hspec⟩ := plain_typeToFields hvalid.ty_valid
      have hname := lineFeed_notMem hvalid.name_plain
      have hvalue := lineFeed_notMem (parseLine_propLine hvalid).1
      have hty := lineFeed_notMem hty
      have hspec := lineFeed_notMem hspec
      simp [propLine, hname, hvalue, hty, hspec]
  have hread := Text.lines_flatMap hlines []
  rw [List.append_nil] at hread
  rw [serializePropsFile, hread, Text.lines_nil, List.append_nil]

/-- The line of a valid property whose value is kept is not changed by trimming, and is neither
empty nor a comment. -/
theorem trim_propLine {bits : ℕ} {prop : Property} (h : prop.Valid bits) (hkept : Kept prop.value) :
  (propLine prop).trim = propLine prop ∧ propLine prop ≠ [] ∧
    Text.startsWith (propLine prop) '#' = false
  := by
  have hend : Text.SolidEnd ('\t' :: ((typeToFields prop.ty).1 ++
      '\t' :: ((typeToFields prop.ty).2 ++ '\t' :: prop.value))) := by
    have hsplit : '\t' :: ((typeToFields prop.ty).1 ++
        '\t' :: ((typeToFields prop.ty).2 ++ '\t' :: prop.value)) =
        ('\t' :: ((typeToFields prop.ty).1 ++ '\t' :: ((typeToFields prop.ty).2 ++ ['\t']))) ++
          prop.value := by simp
    rw [hsplit, Text.solidEnd_append hkept.1]
    exact hkept.2
  obtain ⟨c, rest, hname⟩ := List.exists_cons_of_ne_nil h.name_ne_nil
  refine ⟨?_, ?_, ?_⟩
  · exact Text.trim_append_of_solid h.name_solid h.name_ne_nil (List.cons_ne_nil _ _) hend
  · rw [propLine, hname]
    apply List.cons_ne_nil
  · have hcomment := h.name_not_comment
    rw [hname] at hcomment
    rw [propLine, hname]
    exact hcomment

/-- The lines of a file are read back. -/
theorem parseLines_propLine {bits : ℕ} {props : List Property}
    (h : ∀ prop ∈ props, prop.Valid bits) (hkept : ∀ prop ∈ props, Kept prop.value) :
  parseLines bits (props.map propLine) = .ok props
  := by
  induction props with
  | nil => rfl
  | cons prop props ih =>
      have hvalid := h prop List.mem_cons_self
      obtain ⟨htrim, hne, hcomment⟩ := trim_propLine hvalid (hkept prop List.mem_cons_self)
      have ih := ih (fun prop hprop => h prop (List.mem_cons_of_mem _ hprop))
        fun prop hprop => hkept prop (List.mem_cons_of_mem _ hprop)
      rw [List.map_cons, parseLines, htrim]
      simp only [hne, hcomment, (parseLine_propLine hvalid).2, ih, Except.ok_bind]
      rfl

/-- A written file with kept values is read back. -/
theorem parsePropsFile_serialize {bits : ℕ} {props : List Property}
    (h : ∀ prop ∈ props, prop.Valid bits) (hkept : ∀ prop ∈ props, Kept prop.value) :
  parsePropsFile bits (serializePropsFile props) = .ok props
  := by
  rw [parsePropsFile, lines_serialize h, parseLines]
  exact parseLines_propLine h hkept

/-- All properties of a file are in order. -/
theorem parseLines_ok {bits : ℕ} {lines : List Text} {props : List Property}
    (h : parseLines bits lines = .ok props) :
  ∀ prop ∈ props, prop.Valid bits ∧ Kept prop.value
  := by
  induction lines generalizing props with
  | nil =>
      cases h
      simp
  | cons rawLine rest ih =>
      rw [parseLines] at h
      split at h
      · apply ih h
      · next hline =>
        obtain ⟨prop, hprop, h⟩ := Except.bind_eq_ok_iff.mp h
        obtain ⟨props', hrest, h⟩ := Except.bind_eq_ok_iff.mp h
        obtain rfl : prop :: props' = props := Except.ok.inj h
        intro prop' hmem
        rcases List.mem_cons.mp hmem with rfl | hmem
        · rw [not_or, Bool.not_eq_true] at hline
          apply parseLine_ok (Text.solidStart_trim rawLine) (Text.solidEnd_trim rawLine) hline.2
            hprop
        · apply ih hrest _ hmem

/-- What is read from a file is valid, and its values are kept. -/
theorem parsePropsFile_ok {bits : ℕ} {input : Text} {props : List Property}
    (h : parsePropsFile bits input = .ok props) :
  ∀ prop ∈ props, prop.Valid bits ∧ Kept prop.value
  := parseLines_ok h

/-! ### The store keeps its definitions -/

/-- The name and the type of each property. -/
def signature (props : List Property) : List (Text × PropType) :=
  props.map fun prop => (prop.name, prop.ty)

/-- Types are the same exactly when they are equal. -/
theorem sameType_iff {a b : PropType} : sameType a b = true ↔ a = b := by
  cases a with
  | enum values => cases b <;> simp [sameType]
  | bool => cases b <;> simp [sameType]
  | int min max => cases b <;> simp [sameType]
  | string minLen maxLen => cases b <;> simp [sameType]

/-- The property that is found has the name. -/
theorem findProp_eq_some {name : Text} {props : List Property} {prop : Property}
    (h : findProp name props = some prop) :
  prop ∈ props ∧ prop.name = name
  := ⟨List.mem_of_find?_eq_some h, by simpa using List.find?_some h⟩

/-- What holds of all names and types of one list holds of those of a list with the same. -/
theorem forall_of_signature {P : Text → PropType → Prop} {props props' : List Property}
    (h : signature props = signature props') (hprops : ∀ prop ∈ props, P prop.name prop.ty) :
  ∀ prop ∈ props', P prop.name prop.ty
  := by
  intro prop hprop
  have hmem : (prop.name, prop.ty) ∈ signature props := by
    rw [h]
    apply List.mem_map_of_mem hprop
  obtain ⟨prop', hprop', heq⟩ := List.mem_map.mp hmem
  obtain ⟨hname, hty⟩ := Prod.mk.inj heq
  rw [← hname, ← hty]
  apply hprops prop' hprop'

/-- The names are a part of the signature. -/
theorem names_of_signature {props props' : List Property} (h : signature props = signature props') :
  props.map Property.name = props'.map Property.name
  := by
  have hsame := congrArg (List.map Prod.fst) h
  rw [signature, signature, List.map_map, List.map_map] at hsame
  exact hsame

/-- A new value changes neither names nor types. -/
theorem signature_assign (name value : Text) (props : List Property) :
  signature (assign name value props) = signature props
  := by
  induction props with
  | nil => rfl
  | cons prop props ih =>
      rw [assign]
      split
      · rfl
      · exact congrArg ((prop.name, prop.ty) :: ·) ih

/-- What is in a list after an assignment: what was in it, or the first property of that name
with its new value. -/
theorem mem_assign {name value : Text} {props : List Property} {prop : Property}
    (h : prop ∈ assign name value props) :
  prop ∈ props ∨ ∃ target, findProp name props = some target ∧
    prop = { target with value := value }
  := by
  induction props with
  | nil => cases h
  | cons first props ih =>
      rw [assign] at h
      split at h
      · next hname =>
        rcases List.mem_cons.mp h with rfl | h
        · right
          use first
          simp [findProp, hname]
        · exact .inl (List.mem_cons_of_mem _ h)
      · next hname =>
        rcases List.mem_cons.mp h with rfl | h
        · exact .inl List.mem_cons_self
        · rcases ih h with h | ⟨target, htarget, hprop⟩
          · exact .inl (List.mem_cons_of_mem _ h)
          · right
            use target
            refine ⟨?_, hprop⟩
            rw [findProp, List.find?_cons_of_neg (by simpa using hname)]
            exact htarget

theorem assign_append {name : Text} (value : Text) {before : List Property} {prop : Property}
    (rest : List Property) (hbefore : ∀ p ∈ before, p.name ≠ name) (hname : prop.name = name) :
  findProp name (before ++ prop :: rest) = some prop ∧
    assign name value (before ++ prop :: rest) =
      before ++ { prop with value := value } :: rest
  := by
  induction before with
  | nil => simp [findProp, assign, hname]
  | cons first before ih =>
      obtain ⟨hfind, hassign⟩ := ih fun p hp => hbefore p (List.mem_cons_of_mem _ hp)
      have hfirst : first.name ≠ name := hbefore first List.mem_cons_self
      constructor
      · rw [findProp, List.cons_append, List.find?_cons_of_neg (by simpa using hfirst)]
        exact hfind
      · rw [List.cons_append, assign, if_neg hfirst, hassign, List.cons_append]

/-- A property with a value that has been checked is in order. -/
theorem Property.Valid.assign {bits : ℕ} {prop : Property} (h : prop.Valid bits)
    {value normalized : Text} (hvalue : validateValue prop.ty value = .ok normalized) :
  Property.Valid bits { prop with value := normalized }
  := ⟨h.name_ne_nil, h.name_plain, h.name_solid, h.name_not_comment, h.ty_valid,
    (validateValue_ok h.ty_valid hvalue).1⟩

/-! ### What is loaded is kept -/

/-- An override changes neither the names and types nor that all is valid and kept. -/
theorem applyOverride_kept {bits : ℕ} {props : List Property} {override : Property}
    (hprops : ∀ prop ∈ props, prop.Valid bits ∧ Kept prop.value) (hoverride : Kept override.value) :
  signature (applyOverride props override) = signature props ∧
    ∀ prop ∈ applyOverride props override, prop.Valid bits ∧ Kept prop.value
  := by
  rw [applyOverride]
  split
  · exact ⟨rfl, hprops⟩
  · next target htarget =>
    split
    · split
      · next normalized hvalue =>
        refine ⟨signature_assign _ _ _, fun prop hprop => ?_⟩
        rcases mem_assign hprop with hprop | ⟨target', htarget', rfl⟩
        · apply hprops prop hprop
        · rw [htarget] at htarget'
          cases htarget'
          have hvalid := (hprops target (findProp_eq_some htarget).1).1
          obtain ⟨-, -, hkept⟩ := validateValue_ok hvalid.ty_valid hvalue
          exact ⟨hvalid.assign hvalue, hkept.mpr hoverride⟩
      · exact ⟨rfl, hprops⟩
    · exact ⟨rfl, hprops⟩

/-- Values of a second file leave the definitions in order. -/
theorem applyOverrides_kept {bits : ℕ} {props overrides : List Property}
    (hprops : ∀ prop ∈ props, prop.Valid bits ∧ Kept prop.value)
    (hoverrides : ∀ override ∈ overrides, Kept override.value) :
  signature (applyOverrides props overrides) = signature props ∧
    ∀ prop ∈ applyOverrides props overrides, prop.Valid bits ∧ Kept prop.value
  := by
  induction overrides generalizing props with
  | nil => exact ⟨rfl, hprops⟩
  | cons override overrides ih =>
      obtain ⟨hsig, hkept⟩ := applyOverride_kept hprops (hoverrides override List.mem_cons_self)
      obtain ⟨hsig', hkept'⟩ := ih hkept fun o ho => hoverrides o (List.mem_cons_of_mem _ ho)
      exact ⟨hsig'.trans hsig, hkept'⟩

/-- The definitions that are loaded: those of the text, or the built-in ones when the text is
missing or refused. -/
def parsedDefs (bits : ℕ) (defsText : Option Text) : List Property :=
  match parsePropsFile bits (defsText.getD builtinPropDefs) with
  | .ok props => props
  | .error _ => []

theorem parsedDefs_ok {bits : ℕ} {defsText : Text} {defs : List Property}
    (hdefs : parsePropsFile bits defsText = .ok defs) :
  parsedDefs bits (some defsText) = defs
  := by
  rw [parsedDefs, Option.getD_some, hdefs]

/-- Definitions that cannot be read are none, so that those there are in order. -/
theorem parsedDefs_kept (bits : ℕ) (defsText : Option Text) :
  ∀ prop ∈ parsedDefs bits defsText, prop.Valid bits ∧ Kept prop.value
  := by
  rw [parsedDefs]
  split
  · next props hprops =>
    apply parsePropsFile_ok hprops
  · simp

/-- The overrides are applied to the definitions when they are read. -/
theorem loadWithPaths_eq (bits : ℕ) (defsText valuesText : Option Text) :
  loadWithPaths bits defsText valuesText =
    match valuesText.map (parsePropsFile bits) with
    | some (.ok overrides) => applyOverrides (parsedDefs bits defsText) overrides
    | _ => parsedDefs bits defsText
  := by
  have hbuiltin : parsePropsFile bits builtinPropDefs = .ok [] := rfl
  rw [loadWithPaths, parsedDefs]
  cases parsePropsFile bits (defsText.getD builtinPropDefs) with
  | ok props => rfl
  | error error => rw [hbuiltin]

/-- The store that is loaded has the names and types of the definitions; its properties are
valid, and their values are kept. -/
theorem loadWithPaths_parsedDefs (bits : ℕ) (defsText valuesText : Option Text) :
  signature (loadWithPaths bits defsText valuesText) = signature (parsedDefs bits defsText) ∧
    ∀ prop ∈ loadWithPaths bits defsText valuesText, prop.Valid bits ∧ Kept prop.value
  := by
  rw [loadWithPaths_eq]
  split
  · next overrides hvalues =>
    obtain ⟨text, -, htext⟩ := Option.map_eq_some_iff.mp hvalues
    apply applyOverrides_kept (parsedDefs_kept bits defsText)
    intro override hoverride
    apply (parsePropsFile_ok htext override hoverride).2
  · exact ⟨rfl, parsedDefs_kept bits defsText⟩

theorem loadWithPaths_kept {bits : ℕ} {defsText : Text} {defs : List Property}
    (hdefs : parsePropsFile bits defsText = .ok defs) (valuesText : Option Text) :
  signature (loadWithPaths bits (some defsText) valuesText) = signature defs ∧
    ∀ prop ∈ loadWithPaths bits (some defsText) valuesText, prop.Valid bits ∧ Kept prop.value
  := by
  have hloaded := loadWithPaths_parsedDefs bits (some defsText) valuesText
  rw [parsedDefs_ok hdefs] at hloaded
  exact hloaded

/-- Overriding properties of distinct names with valid ones of the same names and types gives
the overriding ones. -/
theorem applyOverrides_self {bits : ℕ} {before defs props : List Property}
    (hsig : signature defs = signature props)
    (hnames : ((before ++ props).map Property.name).Nodup)
    (hprops : ∀ prop ∈ props, prop.Valid bits) :
  applyOverrides (before ++ defs) props = before ++ props
  := by
  induction props generalizing before defs with
  | nil =>
      obtain rfl : defs = [] := List.map_eq_nil_iff.mp hsig
      rfl
  | cons prop props ih =>
      obtain ⟨target, defs, rfl⟩ : ∃ target defs', defs = target :: defs' := by
        cases defs with
        | nil => cases hsig
        | cons target defs => exact ⟨target, defs, rfl⟩
      obtain ⟨hhead, hsig⟩ := List.cons.inj hsig
      obtain ⟨hname, hty⟩ := Prod.mk.inj hhead
      have hbefore : ∀ p ∈ before, p.name ≠ prop.name := by
        intro p hp heq
        rw [List.map_append, List.nodup_append] at hnames
        apply hnames.2.2 p.name (List.mem_map_of_mem hp) prop.name _ heq
        apply List.mem_map_of_mem List.mem_cons_self
      have hvalid := hprops prop List.mem_cons_self
      obtain ⟨hfind, hassign⟩ := assign_append prop.value defs hbefore hname
      have hstep : applyOverride (before ++ target :: defs) prop = (before ++ [prop]) ++ defs := by
        have htarget : { target with value := prop.value } = prop := by
          rw [hname, hty]
        rw [htarget] at hassign
        rw [applyOverride, hfind]
        simp only [hty, sameType_iff.mpr, hvalid.value_valid, hassign, if_true]
        simp
      change applyOverrides (applyOverride (before ++ target :: defs) prop) props = _
      rw [hstep, ih hsig (by simpa using hnames) fun p hp =>
        hprops p (List.mem_cons_of_mem _ hp)]
      simp

/-- A list of valid properties with the names and types of the definitions is read back exactly
when all its values are kept. -/
theorem reload_iff_kept {bits : ℕ} {defsText : Text} {defs props : List Property}
    (hdefs : parsePropsFile bits defsText = .ok defs)
    (hnames : (defs.map Property.name).Nodup) (hsig : signature defs = signature props)
    (hprops : ∀ prop ∈ props, prop.Valid bits) :
  loadWithPaths bits (some defsText) (some (serializePropsFile props)) = props ↔
    ∀ prop ∈ props, Kept prop.value
  := by
  constructor
  · intro hload
    rw [← hload]
    intro prop hprop
    apply ((loadWithPaths_kept hdefs _).2 prop hprop).2
  · intro hkept
    have hnames' : (props.map Property.name).Nodup := names_of_signature hsig ▸ hnames
    rw [loadWithPaths, Option.getD_some, hdefs, Option.map_some,
      parsePropsFile_serialize hprops hkept]
    rw [← List.nil_append props] at hnames'
    exact applyOverrides_self hsig hnames' hprops

/-! ### Every stored property is valid -/

/-- Two lists are the same except for the value of the first property of a name. -/
def DifferAtFirst (name : Text) (props props' : List Property) : Prop :=
  ∃ before prop rest value, props = before ++ prop :: rest ∧ prop.name = name ∧
    (∀ p ∈ before, p.name ≠ name) ∧ props' = before ++ { prop with value := value } :: rest

/-- What a call of `set` does: it fails and changes nothing, or it gives the first property of
that name the value in the form that its type allows. -/
theorem set_cases (props : List Property) (call : SetCall) :
  ((set props call).1 = props ∧ ∃ error, (set props call).2 = .error error) ∨
    ∃ before prop rest normalized, props = before ++ prop :: rest ∧ prop.name = call.name ∧
      (∀ p ∈ before, p.name ≠ call.name) ∧ validateValue prop.ty call.value = .ok normalized ∧
      set props call = (before ++ { prop with value := normalized } :: rest, .ok normalized)
  := by
  cases hfind : findProp call.name props with
  | none =>
      left
      rw [set, hfind]
      exact ⟨rfl, _, rfl⟩
  | some prop =>
      obtain ⟨hprop, before, rest, hprops, hbefore⟩ := List.find?_eq_some_iff_append.mp hfind
      have hname : prop.name = call.name := by simpa using hprop
      have hbefore : ∀ p ∈ before, p.name ≠ call.name := by simpa using hbefore
      cases hvalue : validateValue prop.ty call.value with
      | error error =>
          left
          rw [set, hfind]
          simp only [hvalue]
          exact ⟨trivial, _, rfl⟩
      | ok normalized =>
          cases hpersists : call.persists with
          | error error =>
              left
              rw [set, hfind]
              simp only [hvalue, hpersists]
              exact ⟨trivial, _, rfl⟩
          | ok u =>
              right
              use before, prop, rest, normalized, hprops, hname, hbefore, hvalue
              rw [set, hfind, hprops]
              simp only [hvalue, hpersists, (assign_append normalized rest hbefore hname).2]

/-- A store with the names and types of the definitions, in which every property is valid. -/
structure Sound (bits : ℕ) (defs props : List Property) : Prop where
  signature_eq : signature props = signature defs
  valid : ∀ prop ∈ props, prop.Valid bits

/-- What is loaded is sound, whatever stands in the two files. -/
theorem Sound.load (bits : ℕ) (defsText valuesText : Option Text) :
  Sound bits (parsedDefs bits defsText) (loadWithPaths bits defsText valuesText)
  := by
  obtain ⟨hsig, hkept⟩ := loadWithPaths_parsedDefs bits defsText valuesText
  exact ⟨hsig, fun prop hprop => (hkept prop hprop).1⟩

/-- A call that sets a property keeps all of them sound, also when it fails. -/
theorem Sound.set {bits : ℕ} {defs props : List Property} (h : Sound bits defs props)
    (call : SetCall) :
  Sound bits defs (set props call).1
  := by
  rcases set_cases props call with ⟨hsame, -⟩ |
    ⟨before, prop, rest, normalized, rfl, -, -, hvalue, hset⟩
  · rw [hsame]
    exact h
  · rw [hset]
    constructor
    · rw [← h.signature_eq]
      simp [signature]
    · intro prop' hprop'
      rcases List.mem_append.mp hprop' with hbefore | hrest
      · apply h.valid _ (List.mem_append_left _ hbefore)
      · rcases List.mem_cons.mp hrest with rfl | hrest
        · apply Property.Valid.assign _ hvalue
          apply h.valid _ (List.mem_append_right _ List.mem_cons_self)
        · apply h.valid _ (List.mem_append_right _ (List.mem_cons_of_mem _ hrest))

/-- So do several calls. -/
theorem Sound.setAll {bits : ℕ} {defs props : List Property} (h : Sound bits defs props)
    (calls : List SetCall) :
  Sound bits defs (setAll props calls)
  := Runs.invariant_foldl (P := Sound bits defs) (fun _ call hprops => hprops.set call) h calls

/-- What a call of `set` returns is what is stored. -/
theorem get_set {props : List Property} {call : SetCall} {value : Text}
    (h : (set props call).2 = .ok value) :
  get (set props call).1 call.name = some value
  := by
  rcases set_cases props call with ⟨-, error, herror⟩ |
    ⟨before, prop, rest, normalized, rfl, hname, hbefore, -, hset⟩
  · rw [herror] at h
    cases h
  · rw [hset] at h ⊢
    obtain rfl : normalized = value := Except.ok.inj h
    have hfind := (@assign_append _ normalized _ { prop with value := normalized } rest
      hbefore hname).1
    rw [get, hfind]
    rfl

/-- After every sequence of calls, whatever the texts that were loaded, the stored values are the
normal forms of themselves and the names and types are those of the definitions; a call changes
at most the value of the first property of its name, and returns what is then stored. -/
theorem stored_valid (bits : ℕ) (defsText valuesText : Option Text) (calls : List SetCall)
    (call : SetCall) :
  let props := setAll (loadWithPaths bits defsText valuesText) calls
  (∀ prop ∈ props, validateValue prop.ty prop.value = .ok prop.value) ∧
  signature props = signature (parsedDefs bits defsText) ∧
  ((set props call).1 = props ∨ DifferAtFirst call.name props (set props call).1) ∧
  ∀ value, (set props call).2 = .ok value → get (set props call).1 call.name = some value
  := by
  intro props
  have hsound : Sound bits (parsedDefs bits defsText) props :=
    (Sound.load bits defsText valuesText).setAll calls
  refine ⟨fun prop hprop => (hsound.valid prop hprop).value_valid, hsound.signature_eq, ?_,
    fun value h => get_set h⟩
  rcases set_cases props call with ⟨hsame, -⟩ |
    ⟨before, prop, rest, normalized, hprops, hname, hbefore, -, hset⟩
  · exact .inl hsame
  · right
    use before, prop, rest, normalized, hprops, hname, hbefore
    rw [hset]

/-! ### What the calls leave in the store -/

/-- The property takes the value of the call: its name is called, the value is allowed, and the
list can be written. -/
def Property.Accepts (prop : Property) (call : SetCall) : Bool :=
  call.name == prop.name && (validateValue prop.ty call.value).isOk && call.persists.isOk

/-- The property after a call. -/
def Property.after (prop : Property) (call : SetCall) : Property :=
  if prop.Accepts call then
    { prop with value := (validateValue prop.ty call.value).toOption.getD [] }
  else prop

theorem Property.after_signature (prop : Property) (call : SetCall) :
  (prop.after call).name = prop.name ∧ (prop.after call).ty = prop.ty
  := by
  rw [after]
  split
  · exact ⟨rfl, rfl⟩
  · exact ⟨rfl, rfl⟩

theorem Property.after_of_ne {prop : Property} {call : SetCall} (h : prop.name ≠ call.name) :
  prop.after call = prop
  := by
  rw [after, if_neg]
  simp [Accepts, h.symm]

/-- A call of `set` changes each property by itself. -/
theorem set_eq_map {props : List Property} (hnames : (props.map Property.name).Nodup)
    (call : SetCall) :
  (set props call).1 = props.map (·.after call)
  := by
  cases hfind : findProp call.name props with
  | none =>
      have hother : ∀ prop ∈ props, prop.after call = prop := by
        intro prop hprop
        apply Property.after_of_ne
        simpa using List.find?_eq_none.mp hfind prop hprop
      rw [set, hfind, List.map_congr_left hother, List.map_id']
  | some target =>
      obtain ⟨htarget, before, rest, rfl, hbefore⟩ := List.find?_eq_some_iff_append.mp hfind
      have hname : target.name = call.name := by simpa using htarget
      have hbefore : ∀ prop ∈ before, prop.name ≠ call.name := by simpa using hbefore
      have hrest : ∀ prop ∈ rest, prop.name ≠ call.name := by
        intro prop hprop heq
        rw [List.map_append, List.map_cons] at hnames
        have hnodup := List.nodup_cons.mp (List.nodup_append.mp hnames).2.1
        apply hnodup.1
        rw [hname, ← heq]
        apply List.mem_map_of_mem hprop
      have hmap : (before ++ target :: rest).map (·.after call) =
          before ++ target.after call :: rest := by
        rw [List.map_append, List.map_cons,
          List.map_congr_left fun prop hprop => Property.after_of_ne (hbefore prop hprop),
          List.map_congr_left fun prop hprop => Property.after_of_ne (hrest prop hprop),
          List.map_id', List.map_id']
      rw [hmap, set, hfind]
      cases hvalue : validateValue target.ty call.value with
      | error error => simp [Property.after, Property.Accepts, hvalue, Except.isOk, Except.toBool]
      | ok normalized =>
          cases hpersists : call.persists with
          | error error =>
              simp [Property.after, Property.Accepts, hvalue, hpersists, Except.isOk, Except.toBool]
          | ok u =>
              have hassign := (assign_append normalized rest hbefore hname).2
              simp [hassign, Property.after, Property.Accepts, hname, hvalue, hpersists,
                Except.isOk, Except.toBool, Except.toOption]

/-- Calls of `set` change each property by itself. -/
theorem setAll_eq_map {props : List Property} (hnames : (props.map Property.name).Nodup)
    (calls : List SetCall) :
  setAll props calls = props.map fun prop => calls.foldl Property.after prop
  := by
  induction calls generalizing props with
  | nil => simp [setAll]
  | cons call calls ih =>
      have hnames' : ((props.map (·.after call)).map Property.name).Nodup := by
        rw [List.map_map]
        have hsame : Property.name ∘ (·.after call) = Property.name := by
          funext prop
          apply (prop.after_signature call).1
        rwa [hsame]
      change setAll (set props call).1 calls = _
      rw [set_eq_map hnames, ih hnames', List.map_map]
      rfl

/-- After some calls a property has its name and type, is valid, and its value is kept exactly
when the last value it took is. -/
theorem Property.foldl_after {bits : ℕ} {prop : Property} (h : prop.Valid bits)
    (hkept : Kept prop.value) (calls : List SetCall) :
  (calls.foldl after prop).name = prop.name ∧ (calls.foldl after prop).ty = prop.ty ∧
  (calls.foldl after prop).Valid bits ∧
  (Kept (calls.foldl after prop).value ↔
    ∀ call ∈ (calls.filter prop.Accepts).getLast?, Kept call.value)
  := by
  induction calls using List.reverseRecOn with
  | nil =>
      refine ⟨rfl, rfl, h, ?_⟩
      simpa using hkept
  | append_singleton calls call ih =>
      obtain ⟨hname, hty, hvalid, hlast⟩ := ih
      rw [List.foldl_append, List.filter_append]
      obtain ⟨hname', hty'⟩ := (calls.foldl after prop).after_signature call
      have haccepts : (calls.foldl after prop).Accepts call = prop.Accepts call := by
        rw [Accepts, hname, hty]
        rfl
      refine ⟨hname'.trans hname, hty'.trans hty, ?_⟩
      change Valid bits ((calls.foldl after prop).after call) ∧
        (Kept ((calls.foldl after prop).after call).value ↔ _)
      rw [after, haccepts]
      by_cases hcall : prop.Accepts call = true
      · obtain ⟨normalized, hvalue⟩ : ∃ normalized,
            validateValue prop.ty call.value = .ok normalized := by
          rw [Accepts] at hcall
          cases hvalue : validateValue prop.ty call.value with
          | error error => simp [hvalue, Except.isOk, Except.toBool] at hcall
          | ok normalized => exact ⟨normalized, rfl⟩
        have hvalue' := hvalue
        rw [← hty] at hvalue'
        obtain ⟨-, -, hiff⟩ := validateValue_ok hvalid.ty_valid hvalue'
        rw [if_pos hcall, hvalue']
        refine ⟨hvalid.assign hvalue', ?_⟩
        simp only [List.filter_cons_of_pos hcall, List.filter_nil, List.getLast?_concat,
          Option.mem_def, Option.some.injEq, forall_eq']
        exact hiff
      · rw [if_neg hcall, List.filter_cons_of_neg hcall, List.filter_nil, List.append_nil]
        exact ⟨hvalid, hlast⟩

/-! ### After a restart -/

/-- The store is read back after a restart exactly when, of each property, the last value that
was set is not empty and does not end with white space. -/
theorem reload_iff {bits : ℕ} {defsText : Text} {defs : List Property}
    (hdefs : parsePropsFile bits defsText = .ok defs)
    (hnames : (defs.map Property.name).Nodup) (valuesText : Option Text)
    (calls : List SetCall) :
  loadWithPaths bits (some defsText)
      (some (serializePropsFile
        (setAll (loadWithPaths bits (some defsText) valuesText) calls))) =
    setAll (loadWithPaths bits (some defsText) valuesText) calls ↔
  ∀ prop ∈ defs, ∀ call ∈ (calls.filter prop.Accepts).getLast?, Kept call.value
  := by
  obtain ⟨hsig, hloaded⟩ := loadWithPaths_kept hdefs valuesText
  obtain ⟨loaded, hloaded_eq⟩ : ∃ loaded, loaded = loadWithPaths bits (some defsText) valuesText :=
    ⟨_, rfl⟩
  rw [← hloaded_eq] at hsig hloaded ⊢
  have hnames' : (loaded.map Property.name).Nodup := names_of_signature hsig ▸ hnames
  have hafter (prop : Property) (hprop : prop ∈ loaded) :=
    Property.foldl_after (hloaded prop hprop).1 (hloaded prop hprop).2 calls
  rw [setAll_eq_map hnames', reload_iff_kept hdefs hnames]
  · rw [List.forall_mem_map]
    let lastKept (name : Text) (ty : PropType) : Prop :=
      ∀ call ∈ (calls.filter (Property.Accepts ⟨name, ty, []⟩)).getLast?, Kept call.value
    constructor
    · intro hkept
      apply forall_of_signature (P := lastKept) hsig
      intro prop hprop
      apply (hafter prop hprop).2.2.2.mp (hkept prop hprop)
    · intro hlast prop hprop
      apply (hafter prop hprop).2.2.2.mpr
      exact forall_of_signature (P := lastKept) hsig.symm hlast prop hprop
  · rw [← hsig, signature, signature, List.map_map]
    apply List.map_congr_left
    intro prop hprop
    rw [Function.comp_apply, (hafter prop hprop).1, (hafter prop hprop).2.1]
  · rw [List.forall_mem_map]
    intro prop hprop
    apply (hafter prop hprop).2.2.1

/-- A name that is set, and a property whose last value is set to a text with a space in it. -/
theorem reload_iff_hostname :
  loadWithPaths 32 (some "host\tstring\t1:9\tcar\nlight\tbool\t-\t1\n".toList)
      (some (serializePropsFile
        (setAll (loadWithPaths 32 (some "host\tstring\t1:9\tcar\nlight\tbool\t-\t1\n".toList) none)
          [⟨"light".toList, "0".toList, .ok ()⟩, ⟨"host".toList, " my car".toList, .ok ()⟩]))) =
    [⟨"host".toList, .string 1 9, " my car".toList⟩, ⟨"light".toList, .bool, "false".toList⟩]
  := by
  have hdefs : parsePropsFile 32 "host\tstring\t1:9\tcar\nlight\tbool\t-\t1\n".toList =
      .ok [⟨"host".toList, .string 1 9, "car".toList⟩, ⟨"light".toList, .bool, "true".toList⟩] := by
    decide +kernel
  refine ((reload_iff hdefs (by decide) none _).mpr ?_).trans (by decide +kernel)
  decide +kernel

/-- A restart can lose what was set: after an empty value is set, the whole file is refused. -/
theorem not_reload :
  ¬ ∀ (defsText : Text) (defs : List Property) (valuesText : Option Text) (calls : List SetCall),
    parsePropsFile 64 defsText = .ok defs → (defs.map Property.name).Nodup →
    loadWithPaths 64 (some defsText)
        (some (serializePropsFile
          (setAll (loadWithPaths 64 (some defsText) valuesText) calls))) =
      setAll (loadWithPaths 64 (some defsText) valuesText) calls
  := by
  intro h
  have hdefs : parsePropsFile 64 "host\tstring\t0:9\tcar\n".toList =
      .ok [⟨"host".toList, .string 0 9, "car".toList⟩] := by
    decide +kernel
  have hreload := h _ _ none [⟨"host".toList, [], .ok ()⟩] hdefs (by decide)
  revert hreload
  decide +kernel

end Props
