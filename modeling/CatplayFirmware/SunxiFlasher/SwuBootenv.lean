import CatplayFirmware.SunxiFlasher.SwuMetadataPatcher
import Mathlib.Tactic.FinCases

/-!
# The list of the boot environment

What the patcher does to a file as its grammar reads it. The text goes into the list `bootenv` of
the only stage, and extends it by two entries, exactly if the parenthesis that ends the list for the
matcher ends it in the grammar too, and no comment to the end of a line has the last byte before it
that is no white space.
-/

namespace SwuMetadataPatcher

open Bytes Brackets Libconfig
open Python hiding slice isSpace

/-! ### The grammar -/

/-- The groups that are the value of a setting `upgrade_usr`. -/
def stages (content : Bytes) : List (Frame Token Kind) :=
  (openers side (tokens content)).filter fun frame => IsValueOf stageName .group frame

/-- The innermost open bracket is the list `bootenv` of the only stage. -/
def InList (content : Bytes) : List (Frame Token Kind) → Prop
  | list :: stage :: _ =>
    IsValueOf (ascii "bootenv") .list list ∧ IsValueOf stageName .group stage ∧
      stages content = [stage]
  | _ => False

instance (content : Bytes) : DecidablePred (InList content)
  | _ :: _ :: _ => inferInstanceAs (Decidable (_ ∧ _))
  | [_] => inferInstanceAs (Decidable False)
  | [] => inferInstanceAs (Decidable False)

/-- Behind the tokens `before` the file is directly in the list `bootenv` of the only stage. -/
def InBootenv (content : Bytes) (before : List Token) : Prop :=
  ∃ brackets ∈ stack side before, InList content brackets

instance (content : Bytes) (before : List Token) : Decidable (InBootenv content before) :=
  inferInstanceAs (Decidable (∃ _ ∈ _, _))

/-- An entry that clears a variable. -/
def entryTokens (name : Bytes) : List Token :=
  [.mark (byte '{'), .word (ascii "name"), .mark (byte '='), .string name, .mark (byte ';'),
    .word (ascii "value"), .mark (byte '='), .string [], .mark (byte ';'), .mark (byte '}')]

/-- The entries that the patcher adds. -/
def addedEntries : List (List Token) := [entryTokens counterName, entryTokens completeName]

/-- The parentheses of a list have groups between them, one behind the other. -/
def IsListOf (groups : List (List Token)) (body : List Token) : Prop :=
  (∀ group ∈ groups, IsGroup group) ∧
    (body = commaSeparated groups ∨ body = commaSeparated groups ++ [.mark (byte ',')])

/-- One list `bootenv` becomes longer by the two entries: there is a comma before them, and a list
of groups stays one. -/
def Extends (before after : List Token) : Prop :=
  ∃ front body separator back,
    before = front ++ .mark (byte '(') :: (body ++ .mark (byte ')') :: back) ∧
    after = front ++ .mark (byte '(') ::
      (body ++ separator ++ commaSeparated addedEntries ++ .mark (byte ')') :: back) ∧
    nameBehind front = some (ascii "bootenv") ∧ Balanced side body ∧
    separator = (if body.getLast? = some (.mark (byte ',')) then [] else [.mark (byte ',')]) ∧
    ∀ groups, groups ≠ [] → IsListOf groups body →
      IsListOf (groups ++ addedEntries) (body ++ separator ++ commaSeparated addedEntries)

/-- A text is inserted at one place of a file, which is in the list of the only stage and neither in
a string nor in a comment; the list becomes longer by the two entries, and what results is not
patched again. -/
structure WellPatched (content result : Bytes) (insertAt : ℕ) (text : Bytes) : Prop where
  le : insertAt ≤ content.length
  inserted : result = content.take insertAt ++ text ++ content.drop insertAt
  outside : (modeOf (content.take insertAt)).Plain
  inside : InBootenv content (tokens (content.take insertAt))
  extended : Extends (tokens content) (tokens result)
  refused : ∃ e, patchFelRearm result = .fail e

/-- The parenthesis that ends the list for the matcher is read outside of strings and comments, and
ends the list `bootenv` of the only stage; the last byte before it that is no white space is not in
a comment to the end of a line. -/
def Agrees (content : Bytes) : Prop :=
  ∃ start body, findBootenv content = .ok (start, body) ∧
    (modeOf (content.take (start + body.length))).Plain ∧
    InBootenv content (tokens (content.take (start + body.length))) ∧
    modeOf (content.take (start + (rstrip body).length)) ≠ .line

/-! ### The text -/

theorem isSpace_eq (c : UInt8) : Python.isSpace c = Libconfig.isSpace c := by
  rw [Python.isSpace, Libconfig.isSpace, Bool.eq_iff_iff]
  simp

/-- An entry is read as its tokens. -/
theorem reads_clearEntry {indent : Bytes} (h : ∀ c ∈ indent, Libconfig.isSpace c = true)
    {name : Bytes} (hname : Reads (ascii "name = \"" ++ name ++ ascii "\";\n")
      [.word (ascii "name"), .mark (byte '='), .string name, .mark (byte ';')]) :
  Reads (clearEntry indent name) (entryTokens name)
  := by
  have hindent : Reads indent [] := reads_spaces h
  have hfield : Reads (indent ++ ascii "    ") [] := hindent.append (by decide)
  have hopen : Reads [byte '{', byte '\n'] [.mark (byte '{')] := by decide
  have hvalue : Reads (ascii "value = \"\";\n")
      [.word (ascii "value"), .mark (byte '='), .string [], .mark (byte ';')] := by decide
  have hclose : Reads [byte '}'] [.mark (byte '}')] := by decide
  have hentry := (((((hindent.append hopen).append hfield).append hname).append
    (hfield.append hvalue)).append hindent).append hclose
  simpa only [clearEntry, entryTokens, List.append_assoc, List.cons_append, List.nil_append]
    using hentry

/-- The text is read as the two entries, behind a comma if there is one in it. -/
theorem reads_injection {indent : Bytes} (h : ∀ c ∈ indent, Libconfig.isSpace c = true)
    {separator : Bytes} {ts : List Token} (hseparator : Reads separator ts) :
  Reads (injection separator indent) (ts ++ commaSeparated addedEntries)
  := by
  have hcounter : Reads (clearEntry indent counterName) (entryTokens counterName) :=
    reads_clearEntry h (by decide)
  have hcomplete : Reads (clearEntry indent completeName) (entryTokens completeName) :=
    reads_clearEntry h (by decide)
  have hlf : Reads (ascii "\n") [] := by decide
  have hcomma : Reads (ascii ",\n") [.mark (byte ',')] := by decide
  have hboth := (((hseparator.append hlf).append hcounter).append hcomma).append hcomplete
  have hadded : commaSeparated addedEntries =
      entryTokens counterName ++ .mark (byte ',') :: entryTokens completeName := rfl
  rw [hadded]
  simpa only [injection, List.append_assoc, List.cons_append, List.nil_append] using hboth

theorem isGroup_entryTokens (name : Bytes) : IsGroup (entryTokens name) := by
  refine ⟨(entryTokens name).tail.dropLast, rfl, balanced_of_plain ?_⟩
  intro t ht
  fin_cases ht <;> rfl

/-- A list of groups is extended by the entries. -/
theorem isListOf_extended {groups : List (List Token)} {body separator : List Token}
    (hne : groups ≠ []) (hbody : IsListOf groups body)
    (hseparator : separator =
      if body.getLast? = some (.mark (byte ',')) then [] else [.mark (byte ',')]) :
  IsListOf (groups ++ addedEntries) (body ++ separator ++ commaSeparated addedEntries)
  := by
  obtain ⟨hgroups, hbody⟩ := hbody
  constructor
  · intro group hgroup
    rcases List.mem_append.mp hgroup with hgroup | hgroup
    · exact hgroups group hgroup
    · obtain ⟨name, -, rfl⟩ : ∃ name ∈ [counterName, completeName], entryTokens name = group :=
        List.mem_map.mp hgroup
      exact isGroup_entryTokens name
  · left
    have hcomma : body ++ separator = commaSeparated groups ++ [.mark (byte ',')] := by
      rcases hbody with rfl | rfl
      · rw [getLast?_commaSeparated hne hgroups, if_neg (by decide)] at hseparator
        rw [hseparator]
      · rw [List.getLast?_concat, if_pos rfl] at hseparator
        rw [hseparator, List.append_nil]
    have hadded : groups ++ addedEntries =
        groups ++ [entryTokens counterName] ++ [entryTokens completeName] := by
      rw [List.append_assoc]
      rfl
    rw [hadded, commaSeparated_concat (List.append_ne_nil_of_left_ne_nil hne _),
      commaSeparated_concat hne, hcomma, List.append_assoc, List.append_assoc]
    rfl

/-! ### The insertion -/

theorem eq_of_side_opening {t : Token} (h : side t = .opening .list) : t = .mark (byte '(') := by
  cases t with
  | mark b =>
      simp only [side] at h
      split at h
      · cases h
      split at h
      · cases h
      split at h
      · next hb => rw [hb]
      split at h
      · cases h
      split at h
      · cases h
      split at h
      · cases h
      · cases h
  | word w => cases h
  | string s => cases h

/-- What is put behind the last byte of the list, before its spaces and its parenthesis, is put
behind the tokens of the list. -/
theorem extends_of_inBootenv {content pre spaces back indent : Bytes} {last : UInt8}
    (hspaces : ∀ c ∈ spaces, Libconfig.isSpace c = true)
    (hindent : ∀ c ∈ indent, Libconfig.isSpace c = true)
    (hlast : last = byte '}' ∨ last = byte ',') (hcode : modeOf (pre ++ [last]) = .code)
    (hin : InBootenv content (tokens (pre ++ [last]))) :
  Extends (tokens (pre ++ [last] ++ spaces ++ byte ')' :: back))
    (tokens (pre ++ [last] ++ injection (if last = byte ',' then [] else ascii ",") indent ++
      spaces ++ byte ')' :: back))
  := by
  have hmark : isMark last = true := by rcases hlast with rfl | rfl <;> decide
  have hparen : isMark (byte ')') = true := by decide
  obtain ⟨brackets, hstack, hlist⟩ := hin
  obtain - | ⟨list, - | ⟨stage, outer⟩⟩ := brackets
  · exact hlist.elim
  · exact hlist.elim
  obtain ⟨⟨hkind, hname⟩, -, -⟩ := hlist
  obtain ⟨o, body, htokens, hopen, hbody, -⟩ := open_of_stack (Option.mem_def.mp hstack)
  rw [hkind] at hopen
  obtain rfl := eq_of_side_opening hopen
  -- the last byte of the list is its last token
  have hgetLast : body.getLast? = some (.mark last) := by
    rcases modeOf_concat pre hmark with ⟨hplain, -⟩ | hhidden
    · rw [(modeOf_mark hplain hmark).2] at htokens
      have hgetLast := congrArg List.getLast? htokens
      rw [List.getLast?_concat, List.getLast?_append_cons, List.getLast?_cons] at hgetLast
      cases hbody_last : body.getLast? with
      | none =>
          rw [hbody_last, Option.getD_none] at hgetLast
          rcases hlast with rfl | rfl <;> revert hgetLast <;> decide
      | some t =>
          rw [hbody_last, Option.getD_some] at hgetLast
          exact hgetLast.symm
    · rw [hcode] at hhidden
      exact hhidden.elim
  have hseparator : Reads (if last = byte ',' then [] else ascii ",")
      (if last = byte ',' then [] else [.mark (byte ',')]) := by
    split <;> decide
  obtain ⟨hmode, htext⟩ := Reads.append ⟨hcode, rfl⟩ (reads_injection hindent hseparator)
  obtain ⟨hbefore, hbeforeTokens⟩ := tokens_spaces hcode hspaces
  obtain ⟨hafter, hafterTokens⟩ := tokens_spaces hmode hspaces
  have hcomma : (if last = byte ',' then [] else [Token.mark (byte ',')]) =
      if body.getLast? = some (.mark (byte ',')) then [] else [.mark (byte ',')] := by
    simp only [hgetLast, Option.some.injEq, Token.mark.injEq]
  refine ⟨list.before, body, if last = byte ',' then [] else [.mark (byte ',')], tokens back,
    ?_, ?_, hname, hbody, hcomma, fun groups hne hgroups => isListOf_extended hne hgroups hcomma⟩
  · rw [tokens_mark (by rw [hbefore]; trivial) hparen, hbeforeTokens, htokens, List.append_assoc,
      List.cons_append]
  · rw [tokens_mark (by rw [hafter]; trivial) hparen, hafterTokens, htext, htokens]
    simp only [List.append_assoc, List.cons_append]

/-- The views agree exactly if the lexer is between tokens behind the last byte of the list, and in
the list. -/
theorem agrees_iff {content front init spaces back : Bytes} {last : UInt8}
    (hfind : findBootenv content = .ok (front.length, init ++ [last] ++ spaces))
    (hcontent : content = front ++ (init ++ [last] ++ spaces) ++ byte ')' :: back)
    (hstrip : rstrip (init ++ [last] ++ spaces) = init ++ [last])
    (hspaces : ∀ c ∈ spaces, Libconfig.isSpace c = true)
    (hlast : last = byte '}' ∨ last = byte ',') :
  Agrees content ↔
    modeOf (front ++ (init ++ [last])) = .code ∧
      InBootenv content (tokens (front ++ (init ++ [last])))
  := by
  have hmark : isMark last = true := by rcases hlast with rfl | rfl <;> decide
  have hclose : content.take (front.length + (init ++ [last] ++ spaces).length) =
      front ++ (init ++ [last]) ++ spaces := by
    rw [hcontent, ← List.length_append, List.take_left, List.append_assoc front]
  have hend : content.take (front.length + (init ++ [last]).length) =
      front ++ (init ++ [last]) := by
    have hsplit : content = front ++ (init ++ [last]) ++ (spaces ++ byte ')' :: back) := by
      rw [hcontent]
      simp only [List.append_assoc]
    rw [hsplit, ← List.length_append, List.take_left]
  constructor
  · rintro ⟨start, body, hfind', hplain, hin, hline⟩
    obtain ⟨rfl, rfl⟩ : front.length = start ∧ init ++ [last] ++ spaces = body := by
      rw [hfind] at hfind'
      cases hfind'
      exact ⟨rfl, rfl⟩
    rw [hclose] at hplain hin
    rw [hstrip, hend] at hline
    have hcode : modeOf (front ++ (init ++ [last])) = .code := by
      rw [← List.append_assoc] at hplain hline ⊢
      exact (modeOf_of_spaces hmark hspaces hplain).resolve_right hline
    rw [(tokens_spaces hcode hspaces).2] at hin
    exact ⟨hcode, hin⟩
  · rintro ⟨hcode, hin⟩
    obtain ⟨hmode, htokens⟩ := tokens_spaces hcode hspaces
    refine ⟨_, _, hfind, ?_, ?_, ?_⟩
    · rw [hclose, hmode]
      trivial
    · rwa [hclose, htokens]
    · rw [hstrip, hend, hcode]
      exact Mode.noConfusion

/-- A file is patched in the right place, by an insertion that keeps its list one, exactly if the
matcher and the grammar agree on the end of the list. -/
theorem wellPatched_iff {content result : Bytes} (h : patchFelRearm content = .ok result) :
  (∃ insertAt text, felInsertion content = .ok (insertAt, text) ∧
    WellPatched content result insertAt text) ↔ Agrees content
  := by
  obtain ⟨insertAt, text, hinsertion, hresult⟩ := patchFelRearm_ok h
  obtain ⟨front, init, last, spaces, back, indent, hfind, hcontent, hstrip, hspaces, hlast,
    hindent, hinsertAt, htext⟩ := felInsertion_ok hinsertion
  have hmark : isMark last = true := by rcases hlast with rfl | rfl <;> decide
  have hspaces : ∀ c ∈ spaces, Libconfig.isSpace c = true := by
    intro c hc
    rw [← isSpace_eq, hspaces c hc]
  have hindent : ∀ c ∈ indent, Libconfig.isSpace c = true := by
    intro c hc
    rcases hindent c hc with rfl | rfl <;> decide
  have hsplit : content = front ++ (init ++ [last]) ++ (spaces ++ byte ')' :: back) := by
    rw [hcontent]
    simp only [List.append_assoc]
  have htake : content.take insertAt = front ++ (init ++ [last]) := by
    rw [hsplit, hinsertAt, List.take_left]
  have hdrop : content.drop insertAt = spaces ++ byte ')' :: back := by
    rw [hsplit, hinsertAt, List.drop_left]
  rw [agrees_iff hfind hcontent hstrip hspaces hlast]
  constructor
  · rintro ⟨insertAt', text', hinsertion', hpatched⟩
    obtain rfl : insertAt = insertAt' := by
      rw [hinsertion] at hinsertion'
      cases hinsertion'
      rfl
    have houtside := hpatched.outside
    have hinside := hpatched.inside
    rw [htake] at houtside hinside
    refine ⟨?_, hinside⟩
    rw [← List.append_assoc] at houtside ⊢
    rcases modeOf_concat (front ++ init) hmark with ⟨-, hcode⟩ | hhidden
    · exact hcode
    · exact absurd houtside hhidden.not_plain
  · rintro ⟨hcode, hin⟩
    refine ⟨insertAt, text, hinsertion, ?_, hresult, ?_, ?_, ?_, ⟨_, patchFelRearm_patched h⟩⟩
    · have hlength := congrArg List.length hsplit
      rw [List.length_append] at hlength
      omega
    · rw [htake, hcode]
      trivial
    · rwa [htake]
    · rw [← List.append_assoc] at hcode hin
      have hextends := @extends_of_inBootenv content (front ++ init) spaces back indent last
        hspaces hindent hlast hcode hin
      rw [hresult, htake, hdrop, htext]
      conv_lhs => rw [hsplit]
      simpa only [List.append_assoc] using hextends

/-- A file whose list has one entry. -/
def bootenvFile : Bytes :=
  ascii "upgrade_usr = \x7b\n  bootenv: (\n  \x7b name = \"a\"; value = \"b\"; \x7d\n  );\n\x7d\n"

theorem wellPatched_bootenvFile :
  ∃ result, patchFelRearm bootenvFile = .ok result ∧
    ∃ insertAt text, felInsertion bootenvFile = .ok (insertAt, text) ∧
      WellPatched bootenvFile result insertAt text
  := by
  have hok : patchFelRearm bootenvFile = .ok (bootenvFile.take 59 ++
      injection (ascii ",") (ascii "  ") ++ bootenvFile.drop 59) := by decide +kernel
  have hagrees : Agrees bootenvFile :=
    ⟨28, ascii "\n  \x7b name = \"a\"; value = \"b\"; \x7d\n  ", by decide +kernel⟩
  exact ⟨_, hok, (wellPatched_iff hok).mpr hagrees⟩

/-- Without a comma before the entries a list does not become longer by them. -/
theorem Extends.length {before after : List Token} (h : Extends before after)
    (hcomma : .mark (byte ',') ∉ before) :
  after.length = before.length + 1 + (commaSeparated addedEntries).length
  := by
  obtain ⟨front, body, separator, back, rfl, rfl, -, -, hseparator, -⟩ := h
  have hbody : body.getLast? ≠ some (.mark (byte ',')) := by
    intro hlast
    have hmem := List.mem_of_getLast? hlast
    exact hcomma (List.mem_append_right _ (List.mem_cons_of_mem _ (List.mem_append_left _ hmem)))
  rw [if_neg hbody] at hseparator
  subst hseparator
  simp only [List.length_append, List.length_cons, List.length_nil]
  omega

/-- A file whose list ends with a comment, which has the form of an entry. -/
def commentedFile : Bytes :=
  ascii "upgrade_usr = \x7b\n  bootenv: (\n  \x7b name = \"a\"; \x7d\n  # \x7b name = \"b\"; \x7d\n  );\n\x7d\n"

/-- The comma goes into the comment. -/
theorem not_wellPatched :
  ∃ content result, patchFelRearm content = .ok result ∧
    ¬ ∃ insertAt text, WellPatched content result insertAt text
  := by
  have hok : patchFelRearm commentedFile = .ok (commentedFile.take 66 ++
      injection (ascii ",") (ascii "  ") ++ commentedFile.drop 66) := by decide +kernel
  refine ⟨commentedFile, _, hok, ?_⟩
  rintro ⟨insertAt, text, hpatched⟩
  have hlength := hpatched.extended.length (by decide +kernel)
  revert hlength
  decide +kernel

end SwuMetadataPatcher
