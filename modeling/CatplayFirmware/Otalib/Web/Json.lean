import CatplayFirmware.Otalib.Web.Props
import CatplayFirmware.Support.Json

/-!
# The list of properties in JSON

`propsToJson` is what the server answers to a request for all properties. It is a text in JSON of
the properties as `described` has them, with a question mark for each control character that the
source has no escape for.
-/

namespace Props

/-- `char::is_control`. -/
def isControlChar (c : Char) : Bool := c.toNat < 0x20 || (0x7F ≤ c.toNat && c.toNat < 0xA0)

/-- One round of the loop of `push_json_escaped`. -/
def jsonEscape (c : Char) : Text :=
  if c = '"' then "\\\"".toList
  else if c = '\\' then "\\\\".toList
  else if c = '\n' then "\\n".toList
  else if c = '\r' then "\\r".toList
  else if c = '\t' then "\\t".toList
  else if isControlChar c then ['?']
  else [c]

/-- What `push_json_escaped` pushes. -/
def jsonEscaped (input : Text) : Text := input.flatMap jsonEscape

/-- A text between quotation marks, escaped. -/
def jsonString (input : Text) : Text := '"' :: (jsonEscaped input ++ ['"'])

/-- Items with a comma before each but the first. -/
def jsonItems (items : List Text) : Text := [','].intercalate items

/-- The members of an object that tell the type of a property. -/
def jsonType : PropType → Text
  | .enum values =>
    ",\"type\":\"enum\",\"values\":[".toList ++ jsonItems (values.map jsonString) ++ [']']
  | .bool => ",\"type\":\"bool\"".toList
  | .int min max =>
    ",\"type\":\"int\",\"min\":".toList ++ Text.ofInt min ++ ",\"max\":".toList ++ Text.ofInt max
  | .string minLen maxLen =>
    ",\"type\":\"string\",\"min_len\":".toList ++ Text.ofNat minLen ++ ",\"max_len\":".toList ++
      Text.ofNat maxLen

/-- The object of a property. -/
def jsonProp (prop : Property) : Text :=
  "\x7b\"name\":".toList ++ jsonString prop.name ++ ",\"value\":".toList ++
    jsonString prop.value ++ jsonType prop.ty ++ "\x7d".toList

/-- The array of all properties. -/
def propsToJson (props : List Property) : Text := '[' :: (jsonItems (props.map jsonProp) ++ [']'])

example : propsToJson [⟨"a\n".toList, .bool, "true".toList⟩] =
    "[\x7b\"name\":\"a\\n\",\"value\":\"true\",\"type\":\"bool\"\x7d]".toList := by
  decide +kernel

/-! ### What the text stands for -/

/-- What is shown for a character. -/
def shownChar (c : Char) : Char :=
  if isControlChar c ∧ c ≠ '\n' ∧ c ≠ '\r' ∧ c ≠ '\t' then '?' else c

/-- A text as it is shown, character by character. -/
def shown (input : Text) : Text := input.map shownChar

/-- The members that tell the type of a property. -/
def describedType : PropType → List (Text × Json)
  | .enum values =>
    [("type".toList, .string "enum".toList),
      ("values".toList, .array (values.map fun value => .string (shown value)))]
  | .bool => [("type".toList, .string "bool".toList)]
  | .int min max =>
    [("type".toList, .string "int".toList), ("min".toList, .number ⟨min, 0⟩),
      ("max".toList, .number ⟨max, 0⟩)]
  | .string minLen maxLen =>
    [("type".toList, .string "string".toList), ("min_len".toList, .number ⟨minLen, 0⟩),
      ("max_len".toList, .number ⟨maxLen, 0⟩)]

/-- The object of a property. -/
def described (prop : Property) : Json :=
  .object (("name".toList, .string (shown prop.name)) ::
    ("value".toList, .string (shown prop.value)) :: describedType prop.ty)

/-- The escapes of the server are those of the grammar. -/
theorem jsonEscape_eq (c : Char) : jsonEscape c = Json.escape (shownChar c) := by
  by_cases hquote : c = '"'
  · subst hquote
    rfl
  by_cases hback : c = '\\'
  · subst hback
    rfl
  by_cases hnewline : c = '\n'
  · subst hnewline
    rfl
  by_cases hreturn : c = '\r'
  · subst hreturn
    rfl
  by_cases htab : c = '\t'
  · subst htab
    rfl
  rw [jsonEscape, if_neg hquote, if_neg hback, if_neg hnewline, if_neg hreturn, if_neg htab,
    shownChar]
  by_cases hctl : isControlChar c
  · rw [if_pos hctl, if_pos ⟨hctl, hnewline, hreturn, htab⟩]
    rfl
  · have hlow : ¬ c.toNat < 0x20 := by
      intro hlow
      apply hctl
      rw [isControlChar, decide_eq_true hlow, Bool.true_or]
    rw [if_neg hctl, if_neg fun h => hctl h.1, Json.escape, if_neg hquote, if_neg hback,
      if_neg hnewline, if_neg hreturn, if_neg htab, if_neg hlow]

theorem jsonString_eq (input : Text) : jsonString input = Json.quoted (shown input) := by
  have hescape : jsonEscape = fun c => Json.escape (shownChar c) := funext jsonEscape_eq
  rw [jsonString, Json.quoted, jsonEscaped, shown, List.flatMap_map, hescape]

/-- An array of strings. -/
theorem jsonItems_strings (values : List Text) :
  '[' :: (jsonItems (values.map jsonString) ++ [']']) =
    (Json.array (values.map fun value => .string (shown value))).render
  := by
  rw [Json.render_array, List.map_map, jsonItems]
  congr 4
  funext value
  rw [jsonString_eq, Function.comp_apply, Json.render_string]

theorem ofInt_eq_render (n : ℤ) : Text.ofInt n = (Json.number ⟨n, 0⟩).render := by
  rw [Json.render_number, Json.Number.render, Json.renderExp, if_pos rfl, List.append_nil]

theorem ofNat_eq_render (n : ℕ) : Text.ofNat n = (Json.number ⟨n, 0⟩).render := by
  rw [← ofInt_eq_render, Text.ofInt, if_neg (Int.not_lt.mpr (Int.natCast_nonneg n)),
    Int.natAbs_natCast]

/-- The members that describe a type. -/
theorem jsonType_eq (ty : PropType) :
  jsonType ty = (describedType ty).flatMap fun m => ',' :: Json.renderMember m
  := by
  cases ty with
  | enum values =>
      have htext : ",\"type\":\"enum\",\"values\":[".toList =
          ',' :: (Json.quoted "type".toList ++ ':' :: (Json.quoted "enum".toList ++
            ',' :: (Json.quoted "values".toList ++ [':', '[']))) := by decide +kernel
      unfold jsonType describedType
      simp only [htext, List.flatMap_cons, List.flatMap_nil, Json.renderMember_mk,
        ← jsonItems_strings, Json.render_string, List.append_assoc, List.cons_append,
        List.nil_append, List.append_nil]
  | bool =>
      have htext : ",\"type\":\"bool\"".toList =
          ',' :: (Json.quoted "type".toList ++ ':' :: Json.quoted "bool".toList) := by
        decide +kernel
      unfold jsonType describedType
      simp only [htext, List.flatMap_cons, List.flatMap_nil, Json.renderMember_mk,
        Json.render_string, List.append_nil]
  | int min max =>
      have hmin : ",\"type\":\"int\",\"min\":".toList =
          ',' :: (Json.quoted "type".toList ++ ':' :: (Json.quoted "int".toList ++
            ',' :: (Json.quoted "min".toList ++ [':']))) := by decide +kernel
      have hmax : ",\"max\":".toList = ',' :: (Json.quoted "max".toList ++ [':']) := by
        decide +kernel
      unfold jsonType describedType
      simp only [hmin, hmax, List.flatMap_cons, List.flatMap_nil, Json.renderMember_mk,
        ← ofInt_eq_render, Json.render_string, List.append_assoc, List.cons_append,
        List.nil_append, List.append_nil]
  | string minLen maxLen =>
      have hmin : ",\"type\":\"string\",\"min_len\":".toList =
          ',' :: (Json.quoted "type".toList ++ ':' :: (Json.quoted "string".toList ++
            ',' :: (Json.quoted "min_len".toList ++ [':']))) := by decide +kernel
      have hmax : ",\"max_len\":".toList = ',' :: (Json.quoted "max_len".toList ++ [':']) := by
        decide +kernel
      unfold jsonType describedType
      simp only [hmin, hmax, List.flatMap_cons, List.flatMap_nil, Json.renderMember_mk,
        ← ofNat_eq_render, Json.render_string, List.append_assoc, List.cons_append,
        List.nil_append, List.append_nil]

/-- A property is written as the object that describes it. -/
theorem jsonProp_eq (prop : Property) : jsonProp prop = (described prop).render := by
  have hname : "\x7b\"name\":".toList = '{' :: (Json.quoted "name".toList ++ [':']) := by
    decide +kernel
  have hvalue : ",\"value\":".toList = ',' :: (Json.quoted "value".toList ++ [':']) := by
    decide +kernel
  have hclose : "\x7d".toList = ['}'] := rfl
  rw [described, Json.render_object, List.map_cons, List.map_cons,
    Json.intercalate_cons, List.flatMap_cons, List.flatMap_map, ← jsonType_eq]
  unfold jsonProp
  simp only [hname, hvalue, hclose, jsonString_eq, Json.renderMember_mk, Json.render_string,
    List.append_assoc, List.cons_append, List.nil_append]

/-- The properties are written as an array of objects. -/
theorem propsToJson_eq (props : List Property) :
  propsToJson props = (Json.array (props.map described)).render
  := by
  rw [propsToJson, jsonItems, Json.render_array, List.map_map]
  congr 4
  funext prop
  apply jsonProp_eq

/-- The list of properties is a text in JSON of an array with one object for each property. -/
theorem parse_propsToJson (props : List Property) :
  Json.parse (propsToJson props) = some (.array (props.map described))
  := by
  rw [propsToJson_eq, Json.parse_render]

end Props
