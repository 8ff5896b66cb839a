import CatplayFirmware.Otalib.Mini.Ota
import CatplayFirmware.Support.HString
import Mathlib.Data.List.DropRight
import Mathlib.Algebra.Group.Nat.Even

/-!
# Sanitizing file names

The name of a section becomes the name of a file: separators are left out, and so are two dots
that follow each other. The loop compares a dot with the character that follows it in the
input, not with the one that was written before it, so dots that had something between them
that is left out can come together, and a name of one dot stays what it is.
-/

namespace Sanitizer

variable {cap : ℕ}

/-- `out.push(c)`, whose result is dropped: a character for which there is no room is left
out. -/
def pushed (out : HString cap) (c : Char) : HString cap := (out.pushStr [c]).getD out

/-- The characters that separate the parts of a path. -/
def isSeparator (c : Char) : Bool := c == '/' || c == '\\'

/-- The loop of `sanitize_filename`: a separator is left out, and a dot is left out together with
the dot that follows it. -/
def sanitizeLoop : Text → HString cap → HString cap
  | [], out => out
  | '.' :: '.' :: rest, out => sanitizeLoop rest out
  | c :: rest, out =>
    if isSeparator c then sanitizeLoop rest out else sanitizeLoop rest (pushed out c)

def sanitizeFilename (cap : ℕ) (input : Text) : HString cap :=
  let out := sanitizeLoop input HString.new
  if out.text = [] then (out.pushStr "unnamed".toList).getD out else out

/-! ### What is left out -/

/-- The room that is left behind a text. -/
def roomAfter : Text → ℕ → ℕ
  | [], room => room
  | '.' :: '.' :: rest, room => roomAfter rest room
  | c :: rest, room =>
    if isSeparator c ∨ room < c.utf8Size then roomAfter rest room
    else roomAfter rest (room - c.utf8Size)

/-- Nothing of a text is kept while there is room for `room` bytes: it is made of separators,
pairs of dots, and characters that are too large. -/
inductive Vanishes (room : ℕ) : Text → Prop where
  | nil : Vanishes room []
  | separator {c : Char} {rest : Text} : isSeparator c = true → Vanishes room rest →
      Vanishes room (c :: rest)
  | pair {rest : Text} : Vanishes room rest → Vanishes room ('.' :: '.' :: rest)
  | large {c : Char} {rest : Text} : room < c.utf8Size → Vanishes room rest →
      Vanishes room (c :: rest)

/-- The dots at the end of a text come in pairs. -/
def PairedDots (a : Text) : Prop := Even (a.rtakeWhile (· == '.')).length

instance (a : Text) : Decidable (PairedDots a) := inferInstanceAs (Decidable (Even _))

/-- The first character of a text that is kept is `d`, and `behind` is what follows it. -/
def Next (d : Char) (room : ℕ) (input behind : Text) : Prop :=
  1 ≤ room ∧ (d = '.' → behind.head? ≠ some '.') ∧ ∃ before, Vanishes room before ∧
    input = before ++ d :: behind

def DotNext : ℕ → Text → Text → Prop := Next '.'

/-- A dot that is kept is followed by one that is kept with nothing between them that is. -/
def DotsMeet (room : ℕ) (input : Text) : Prop :=
  ∃ before between behind, input = before ++ '.' :: between ∧ PairedDots before ∧
    between.head? ≠ some '.' ∧ 1 ≤ roomAfter before room ∧
    DotNext (roomAfter before room - 1) between behind

/-- The first character that is kept is a dot, and what follows it meets a condition. -/
def DotThen (E : ℕ → Text → Prop) (room : ℕ) (input : Text) : Prop :=
  ∃ behind, DotNext room input behind ∧ E (room - 1) behind

/-- All that is kept is one dot. -/
def LoneDot : ℕ → Text → Prop := DotThen Vanishes

/-- Nothing is kept before a NUL. -/
def NulNext (room : ℕ) (input : Text) : Prop := ∃ behind, Next '\x00' room input behind

/-- Nothing is kept, or nothing before a NUL. -/
def CutEnd (room : ℕ) (input : Text) : Prop := Vanishes room input ∨ NulNext room input

/-- All that is kept is one dot, or all before a NUL. -/
def CutDot : ℕ → Text → Prop := DotThen CutEnd

/-- All that is kept is two dots, or all before a NUL. -/
def CutDots : ℕ → Text → Prop := DotThen CutDot

/-! ### Steps of the loop -/

/-- A text as the loop reads it: a separator, a pair of dots, or a character that is pushed. -/
@[elab_as_elim]
theorem scanInduction {P : Text → Prop} (nil : P [])
    (separator : ∀ c rest, isSeparator c = true → P rest → P (c :: rest))
    (pair : ∀ rest, P rest → P ('.' :: '.' :: rest))
    (char : ∀ c rest, isSeparator c = false → (c = '.' → rest.head? ≠ some '.') → P rest →
      P (c :: rest))
    (input : Text) :
  P input
  := by
  induction hlen : input.length using Nat.strongRecOn generalizing input with
  | ind n ih =>
      have hrec (rest : Text) (hlt : rest.length < input.length) : P rest :=
        ih rest.length (hlen ▸ hlt) rest rfl
      match input with
      | [] => exact nil
      | c :: rest =>
          have hrest : P rest := hrec rest (Nat.lt_succ_self _)
          cases hc : isSeparator c with
          | true => apply separator c rest hc hrest
          | false =>
              by_cases hpair : c = '.' ∧ rest.head? = some '.'
              · obtain ⟨rfl, hhead⟩ := hpair
                obtain ⟨rest', rfl⟩ := List.head?_eq_some_iff.mp hhead
                apply pair
                apply hrec
                exact Nat.lt_succ_of_lt (Nat.lt_succ_self _)
              · apply char c rest hc _ hrest
                intro hdot hhead
                exact hpair ⟨hdot, hhead⟩

theorem sanitizeLoop_separator {c : Char} (hc : isSeparator c = true) (rest : Text)
    (out : HString cap) :
  sanitizeLoop (c :: rest) out = sanitizeLoop rest out
  := by
  rw [sanitizeLoop, if_pos hc]
  rintro rest' rfl
  cases hc

theorem sanitizeLoop_char {c : Char} {rest : Text} (hc : isSeparator c = false)
    (hdot : c = '.' → rest.head? ≠ some '.') (out : HString cap) :
  sanitizeLoop (c :: rest) out = sanitizeLoop rest (pushed out c)
  := by
  rw [sanitizeLoop, if_neg (Bool.eq_false_iff.mp hc)]
  rintro rest' rfl rfl
  exact hdot rfl rfl

theorem roomAfter_separator {c : Char} (hc : isSeparator c = true) (rest : Text) (room : ℕ) :
  roomAfter (c :: rest) room = roomAfter rest room
  := by
  rw [roomAfter, if_pos (.inl hc)]
  rintro rest' rfl
  cases hc

theorem roomAfter_char {c : Char} {rest : Text} (hc : isSeparator c = false)
    (hdot : c = '.' → rest.head? ≠ some '.') (room : ℕ) :
  roomAfter (c :: rest) room =
    roomAfter rest (if room < c.utf8Size then room else room - c.utf8Size)
  := by
  rw [roomAfter]
  · simp only [hc, Bool.false_eq_true, false_or]
    split
    · rfl
    · rfl
  · rintro rest' rfl rfl
    exact hdot rfl rfl

/-- The room that is left in a name. -/
def room (out : HString cap) : ℕ := cap - out.text.byteLen

/-- A character is pushed when there is room for it. -/
theorem pushed_of_fits {out : HString cap} {c : Char} (h : c.utf8Size ≤ room out) :
  (pushed out c).text = out.text ++ [c] ∧ room (pushed out c) = room out - c.utf8Size
  := by
  have hfits : (out.text ++ [c]).byteLen ≤ cap := by
    have := out.fits
    rw [Text.byteLen_append, Text.byteLen_cons, Text.byteLen_nil]
    rw [room] at h
    omega
  have htext : (pushed out c).text = out.text ++ [c] := by
    rw [pushed, HString.pushStr, dif_pos hfits]
    rfl
  use htext
  rw [room, room, htext, Text.byteLen_append, Text.byteLen_cons, Text.byteLen_nil]
  omega

theorem pushed_of_large {out : HString cap} {c : Char} (h : room out < c.utf8Size) :
  pushed out c = out
  := by
  rw [pushed, HString.pushStr, dif_neg]
  · rfl
  · have := out.fits
    rw [Text.byteLen_append, Text.byteLen_cons, Text.byteLen_nil]
    rw [room] at h
    omega

/-- What is kept is behind what was kept before. -/
theorem prefix_sanitizeLoop (input : Text) (out : HString cap) :
  out.text <+: (sanitizeLoop input out).text
  := by
  induction input using scanInduction generalizing out with
  | nil => exact List.prefix_rfl
  | separator c rest hc ih =>
      rw [sanitizeLoop_separator hc]
      apply ih
  | pair rest ih => apply ih
  | char c rest hc hdot ih =>
      rw [sanitizeLoop_char hc hdot]
      apply List.IsPrefix.trans _ (ih _)
      rcases Nat.lt_or_ge (room out) c.utf8Size with hlarge | hfits
      · rw [pushed_of_large hlarge]
      · rw [(pushed_of_fits hfits).1]
        apply List.prefix_append

/-- What is kept has no separator in it. -/
theorem separator_notMem (input : Text) (out : HString cap)
    (hout : ∀ c ∈ out.text, isSeparator c = false) :
  ∀ c ∈ (sanitizeLoop input out).text, isSeparator c = false
  := by
  induction input using scanInduction generalizing out with
  | nil => exact hout
  | separator c rest hc ih =>
      rw [sanitizeLoop_separator hc]
      apply ih out hout
  | pair rest ih => apply ih out hout
  | char c rest hc hdot ih =>
      rw [sanitizeLoop_char hc hdot]
      apply ih
      rcases Nat.lt_or_ge (room out) c.utf8Size with hlarge | hfits
      · rw [pushed_of_large hlarge]
        exact hout
      · rw [(pushed_of_fits hfits).1]
        simpa [or_imp, forall_and, hc] using hout

/-! ### What vanishes -/

theorem char_of_large {c : Char} (h : 1 < c.utf8Size) : isSeparator c = false ∧ c ≠ '.' := by
  constructor
  · rw [Bool.eq_false_iff]
    intro hc
    rw [isSeparator, Bool.or_eq_true, beq_iff_eq, beq_iff_eq] at hc
    rcases hc with rfl | rfl
    · revert h
      decide
    · revert h
      decide
  · rintro rfl
    revert h
    decide

/-- What vanishes is passed over. -/
theorem Vanishes.sanitizeLoop_append {before : Text} {out : HString cap}
    (h : Vanishes (room out) before) (hroom : 1 ≤ room out) (rest : Text) :
  sanitizeLoop (before ++ rest) out = sanitizeLoop rest out
  := by
  induction h with
  | nil => rfl
  | separator hc hrest ih => rw [List.cons_append, sanitizeLoop_separator hc, ih]
  | pair hrest ih => exact ih
  | large hlarge hrest ih =>
      obtain ⟨hc, hdot⟩ := char_of_large (Nat.lt_of_le_of_lt hroom hlarge)
      rw [List.cons_append, sanitizeLoop_char hc fun h => absurd h hdot, pushed_of_large hlarge, ih]

theorem sanitizeLoop_of_full {out : HString cap} (h : room out = 0) (input : Text) :
  sanitizeLoop input out = out
  := by
  induction input using scanInduction with
  | nil => rfl
  | separator c rest hc ih => rw [sanitizeLoop_separator hc, ih]
  | pair rest ih => exact ih
  | char c rest hc hdot ih =>
      rw [sanitizeLoop_char hc hdot, pushed_of_large, ih]
      rw [h]
      apply Char.utf8Size_pos

theorem Vanishes.sanitizeLoop_eq {input : Text} {out : HString cap}
    (h : Vanishes (room out) input) :
  sanitizeLoop input out = out
  := by
  rcases Nat.eq_zero_or_pos (room out) with hfull | hroom
  · apply sanitizeLoop_of_full hfull
  · have hrest := h.sanitizeLoop_append hroom []
    rwa [List.append_nil] at hrest

/-- What changes nothing vanishes. -/
theorem vanishes_of_sanitizeLoop {input : Text} {out : HString cap}
    (h : (sanitizeLoop input out).text = out.text) :
  Vanishes (room out) input
  := by
  induction input using scanInduction generalizing out with
  | nil => exact .nil
  | separator c rest hc ih =>
      rw [sanitizeLoop_separator hc] at h
      apply Vanishes.separator hc (ih h)
  | pair rest ih => apply Vanishes.pair (ih h)
  | char c rest hc hdot ih =>
      rw [sanitizeLoop_char hc hdot] at h
      rcases Nat.lt_or_ge (room out) c.utf8Size with hlarge | hfits
      · rw [pushed_of_large hlarge] at h
        apply Vanishes.large hlarge (ih h)
      · have hprefix := prefix_sanitizeLoop rest (pushed out c)
        rw [h, (pushed_of_fits hfits).1] at hprefix
        have hlen := hprefix.length_le
        simp at hlen

/-! ### The next dot -/

theorem one_le_of_dot {out : HString cap} (h : 1 ≤ room out) : '.'.utf8Size ≤ room out := h

/-- The loop comes to the next dot and pushes it. -/
theorem DotNext.sanitizeLoop_eq {out : HString cap} {input behind : Text}
    (h : DotNext (room out) input behind) :
  sanitizeLoop input out = sanitizeLoop behind (pushed out '.')
  := by
  obtain ⟨hroom, hbehind, before, hbefore, rfl⟩ := h
  rw [hbefore.sanitizeLoop_append hroom, sanitizeLoop_char rfl hbehind]

section Next

variable {d : Char}

theorem Next.separator {n : ℕ} {c : Char} {rest behind : Text} (hc : isSeparator c = true)
    (h : Next d n rest behind) :
  Next d n (c :: rest) behind
  := by
  obtain ⟨hroom, hbehind, before, hbefore, rfl⟩ := h
  exact ⟨hroom, hbehind, c :: before, .separator hc hbefore, rfl⟩

theorem Next.pair {n : ℕ} {rest behind : Text} (h : Next d n rest behind) :
  Next d n ('.' :: '.' :: rest) behind
  := by
  obtain ⟨hroom, hbehind, before, hbefore, rfl⟩ := h
  exact ⟨hroom, hbehind, '.' :: '.' :: before, .pair hbefore, rfl⟩

theorem Next.large {n : ℕ} {c : Char} {rest behind : Text} (hc : n < c.utf8Size)
    (h : Next d n rest behind) :
  Next d n (c :: rest) behind
  := by
  obtain ⟨hroom, hbehind, before, hbefore, rfl⟩ := h
  exact ⟨hroom, hbehind, c :: before, .large hc hbefore, rfl⟩

theorem next_self {n : ℕ} {rest : Text} (hroom : 1 ≤ n) (hrest : d = '.' → rest.head? ≠ some '.') :
  Next d n (d :: rest) rest
  := ⟨hroom, hrest, [], .nil, rfl⟩

/-- When a character is what the loop adds first, it is the next one. -/
theorem exists_next {input s : Text} {out : HString cap}
    (h : (sanitizeLoop input out).text = out.text ++ d :: s) :
  ∃ behind, Next d (room out) input behind
  := by
  induction input using scanInduction generalizing out with
  | nil => simp [sanitizeLoop] at h
  | separator c rest hc ih =>
      rw [sanitizeLoop_separator hc] at h
      obtain ⟨behind, hbehind⟩ := ih h
      use behind
      apply hbehind.separator hc
  | pair rest ih =>
      obtain ⟨behind, hbehind⟩ := ih h
      use behind
      apply hbehind.pair
  | char c rest hc hdot ih =>
      rw [sanitizeLoop_char hc hdot] at h
      rcases Nat.lt_or_ge (room out) c.utf8Size with hlarge | hfits
      · rw [pushed_of_large hlarge] at h
        obtain ⟨behind, hbehind⟩ := ih h
        use behind
        apply hbehind.large hlarge
      · have hprefix := prefix_sanitizeLoop rest (pushed out c)
        rw [h, (pushed_of_fits hfits).1, List.prefix_append_right_inj] at hprefix
        obtain rfl : c = d := (List.cons_prefix_cons.mp hprefix).1
        use rest
        apply next_self (Nat.le_trans (Char.utf8Size_pos c) hfits) hdot

end Next

/-- What the loop adds meets a condition. -/
def Adds (Q : Text → Prop) (input : Text) (out : HString cap) : Prop :=
  ∃ s, (sanitizeLoop input out).text = out.text ++ s ∧ Q s

/-- A dot is added before what meets a condition exactly when it is the next one. -/
theorem adds_dot_iff {Q Q' : Text → Prop} {E : ℕ → Text → Prop}
    (hQ : ∀ s, Q' s ↔ ∃ s', s = '.' :: s' ∧ Q s')
    (h : ∀ (input : Text) (out : HString cap), Adds Q input out ↔ E (room out) input) (input : Text)
    (out : HString cap) :
  Adds Q' input out ↔ DotThen E (room out) input
  := by
  constructor
  · rintro ⟨s, htext, hs⟩
    obtain ⟨s', rfl, hs'⟩ := (hQ s).mp hs
    obtain ⟨behind, hnext⟩ := exists_next htext
    obtain ⟨hpushed, hroom⟩ := pushed_of_fits (one_le_of_dot hnext.1)
    use behind, hnext
    rw [DotNext.sanitizeLoop_eq hnext, List.append_cons, ← hpushed] at htext
    have hbehind := (h behind (pushed out '.')).mp ⟨s', htext, hs'⟩
    rwa [hroom] at hbehind
  · rintro ⟨behind, hnext, hbehind⟩
    obtain ⟨hpushed, hroom⟩ := pushed_of_fits (one_le_of_dot hnext.1)
    have hone : room out - 1 = room (pushed out '.') := hroom.symm
    rw [hone] at hbehind
    obtain ⟨s, htext, hs⟩ := (h behind (pushed out '.')).mpr hbehind
    refine ⟨'.' :: s, ?_, (hQ _).mpr ⟨s, rfl, hs⟩⟩
    rw [hnext.sanitizeLoop_eq, List.append_cons, ← hpushed, htext]

theorem adds_nil_iff (input : Text) (out : HString cap) :
  Adds (· = []) input out ↔ Vanishes (room out) input
  := by
  constructor
  · rintro ⟨_, htext, rfl⟩
    rw [List.append_nil] at htext
    exact vanishes_of_sanitizeLoop htext
  · intro h
    refine ⟨[], ?_, rfl⟩
    rw [h.sanitizeLoop_eq, List.append_nil]

/-- What is kept is one dot exactly when the next dot is followed by nothing that is kept. -/
theorem adds_loneDot_iff (input : Text) (out : HString cap) :
  Adds (· = ['.']) input out ↔ LoneDot (room out) input
  := by
  apply adds_dot_iff _ adds_nil_iff
  intro s
  constructor
  · rintro rfl
    exact ⟨[], rfl, rfl⟩
  · rintro ⟨_, rfl, rfl⟩
    rfl

/-! ### C strings -/

theorem cString_cons {c : Char} (hc : c ≠ '\x00') (s : Text) :
  Text.cString (c :: s) = c :: Text.cString s
  := List.takeWhile_cons_of_pos (decide_eq_true hc)

theorem cString_eq_nil_iff {s : Text} : s.cString = [] ↔ s = [] ∨ ∃ s', s = '\x00' :: s' := by
  cases s with
  | nil => exact iff_of_true rfl (.inl rfl)
  | cons c s =>
      by_cases hc : c = '\x00'
      · rw [hc]
        exact iff_of_true rfl (.inr ⟨s, rfl⟩)
      · rw [cString_cons hc]
        simp [hc]

theorem cString_eq_cons_iff {c : Char} (hc : c ≠ '\x00') {s t : Text} :
  s.cString = c :: t ↔ ∃ s', s = c :: s' ∧ Text.cString s' = t
  := by
  cases s with
  | nil => simp [Text.cString]
  | cons d s =>
      by_cases hd : d = '\x00'
      · rw [hd]
        simp [Text.cString, hc.symm]
      · rw [cString_cons hd]
        simp only [List.cons.injEq]
        constructor
        · rintro ⟨rfl, ht⟩
          exact ⟨s, ⟨rfl, rfl⟩, ht⟩
        · rintro ⟨_, ⟨rfl, rfl⟩, ht⟩
          exact ⟨rfl, ht⟩

/-- A NUL is added first exactly when it is the next character that is kept. -/
theorem adds_nul_iff (input : Text) (out : HString cap) :
  Adds (fun s => ∃ s', s = '\x00' :: s') input out ↔ NulNext (room out) input
  := by
  constructor
  · rintro ⟨_, htext, s, rfl⟩
    exact exists_next htext
  · rintro ⟨behind, hroom, hbehind, before, hbefore, rfl⟩
    have hpushed := (pushed_of_fits (c := '\x00') hroom).1
    obtain ⟨s, hs⟩ := prefix_sanitizeLoop behind (pushed out '\x00')
    refine ⟨'\x00' :: s, ?_, s, rfl⟩
    rw [hbefore.sanitizeLoop_append hroom, sanitizeLoop_char rfl hbehind, List.append_cons,
      ← hpushed, hs]

theorem adds_cutEnd_iff (input : Text) (out : HString cap) :
  Adds (Text.cString · = []) input out ↔ CutEnd (room out) input
  := by
  rw [CutEnd, ← adds_nil_iff, ← adds_nul_iff]
  constructor
  · rintro ⟨s, htext, hs⟩
    rcases cString_eq_nil_iff.mp hs with hnil | hnul
    · exact .inl ⟨s, htext, hnil⟩
    · exact .inr ⟨s, htext, hnul⟩
  · rintro (⟨s, htext, hs⟩ | ⟨s, htext, hs⟩)
    · exact ⟨s, htext, cString_eq_nil_iff.mpr (.inl hs)⟩
    · exact ⟨s, htext, cString_eq_nil_iff.mpr (.inr hs)⟩

theorem adds_cutDot_iff (input : Text) (out : HString cap) :
  Adds (Text.cString · = ['.']) input out ↔ CutDot (room out) input
  := adds_dot_iff (fun _ => cString_eq_cons_iff (by decide)) adds_cutEnd_iff input out

theorem adds_cutDots_iff (input : Text) (out : HString cap) :
  Adds (Text.cString · = ['.', '.']) input out ↔ CutDots (room out) input
  := adds_dot_iff (fun _ => cString_eq_cons_iff (by decide)) adds_cutDot_iff input out

/-! ### Dots that meet -/

theorem length_rtakeWhile_cons (p : Char → Bool) (c : Char) (a : Text) :
  ((c :: a).rtakeWhile p).length =
    if p c ∧ ∀ d ∈ a, p d then a.length + 1 else (a.rtakeWhile p).length
  := by
  have hall : (a.reverse.takeWhile p).length = a.reverse.length ↔ ∀ d ∈ a, p d := by
    rw [← List.rtakeWhile_eq_self_iff, List.rtakeWhile]
    constructor
    · intro h
      rw [(List.takeWhile_prefix p).eq_of_length h, List.reverse_reverse]
    · intro h
      conv_rhs => rw [← h]
      simp
  rw [List.rtakeWhile, List.rtakeWhile, List.length_reverse, List.length_reverse,
    List.reverse_cons, List.takeWhile_append]
  by_cases ha : ∀ d ∈ a, p d
  · rw [if_pos (hall.mpr ha)]
    cases hc : p c with
    | true =>
        rw [if_pos ⟨rfl, ha⟩]
        simp [hc]
    | false =>
        rw [if_neg fun h => nomatch h.1]
        simpa [hc] using (hall.mpr ha).symm
  · rw [if_neg fun h => ha (hall.mp h), if_neg fun h => ha h.2]

theorem pairedDots_char {c : Char} {a : Text} (hdot : c = '.' → a ≠ [] ∧ a.head? ≠ some '.') :
  PairedDots (c :: a) ↔ PairedDots a
  := by
  rw [PairedDots, PairedDots, length_rtakeWhile_cons, if_neg]
  rintro ⟨hc, ha⟩
  obtain ⟨hne, hhead⟩ := hdot (by simpa using hc)
  obtain ⟨d, rest, rfl⟩ := List.exists_cons_of_ne_nil hne
  apply hhead
  simpa using ha d List.mem_cons_self

theorem pairedDots_pair (a : Text) :
  PairedDots ('.' :: '.' :: a) ↔ PairedDots a
  := by
  rw [PairedDots, PairedDots, length_rtakeWhile_cons, length_rtakeWhile_cons]
  by_cases ha : ∀ d ∈ a, d = '.'
  · have hall : a.rtakeWhile (· == '.') = a :=
      List.rtakeWhile_eq_self_iff.mpr fun d hd => by simpa using ha d hd
    have hdots : ∀ d ∈ '.' :: a, (d == '.') = true := by simpa using ha
    rw [if_pos ⟨rfl, hdots⟩, hall, List.length_cons, Nat.even_add_one, Nat.even_add_one, not_not]
  · simp [ha]

/-- What comes before a dot that is kept is read by itself. -/
theorem PairedDots.sanitizeLoop_append {before : Text} (h : PairedDots before) (rest : Text)
    (out : HString cap) :
  sanitizeLoop (before ++ rest) out = sanitizeLoop rest (sanitizeLoop before out) ∧
    room (sanitizeLoop before out) = roomAfter before (room out)
  := by
  induction before using scanInduction generalizing out with
  | nil => exact ⟨rfl, rfl⟩
  | separator c before hc ih =>
      rw [List.cons_append, sanitizeLoop_separator hc, sanitizeLoop_separator hc,
        roomAfter_separator hc]
      apply ih
      rwa [pairedDots_char] at h
      rintro rfl
      cases hc
  | pair before ih =>
      apply ih
      rwa [pairedDots_pair] at h
  | char c before hc hdot ih =>
      have hne : c = '.' → before ≠ [] ∧ before.head? ≠ some '.' := by
        rintro rfl
        refine ⟨?_, hdot rfl⟩
        rintro rfl
        revert h
        decide
      have hdot' : c = '.' → (before ++ rest).head? ≠ some '.' := by
        intro heq
        obtain ⟨hne, hhead⟩ := hne heq
        rwa [List.head?_append_of_ne_nil _ hne]
      rw [List.cons_append, sanitizeLoop_char hc hdot', sanitizeLoop_char hc hdot,
        roomAfter_char hc hdot]
      have hroom : room (pushed out c) =
          if room out < c.utf8Size then room out else room out - c.utf8Size := by
        split
        · next hlarge => rw [pushed_of_large hlarge]
        · next hfits => rw [(pushed_of_fits (Nat.not_lt.mp hfits)).2]
      rw [← hroom]
      apply ih
      rwa [pairedDots_char hne] at h

theorem DotsMeet.separator {n : ℕ} {c : Char} {rest : Text} (hc : isSeparator c = true)
    (h : DotsMeet n rest) :
  DotsMeet n (c :: rest)
  := by
  obtain ⟨before, between, behind, rfl, hpaired, h⟩ := h
  use c :: before, between, behind, rfl
  rw [roomAfter_separator hc, pairedDots_char]
  · exact ⟨hpaired, h⟩
  · rintro rfl
    cases hc

theorem DotsMeet.pair {n : ℕ} {rest : Text} (h : DotsMeet n rest) :
  DotsMeet n ('.' :: '.' :: rest)
  := by
  obtain ⟨before, between, behind, rfl, hpaired, h⟩ := h
  exact ⟨'.' :: '.' :: before, between, behind, rfl, (pairedDots_pair before).mpr hpaired, h⟩

theorem DotsMeet.char {n : ℕ} {c : Char} {rest : Text} (hc : isSeparator c = false)
    (hdot : c = '.' → rest.head? ≠ some '.')
    (h : DotsMeet (if n < c.utf8Size then n else n - c.utf8Size) rest) :
  DotsMeet n (c :: rest)
  := by
  obtain ⟨before, between, behind, rfl, hpaired, h⟩ := h
  have hne : c = '.' → before ≠ [] ∧ before.head? ≠ some '.' := by
    intro heq
    cases before with
    | nil => exact absurd rfl (hdot heq)
    | cons d before => exact ⟨List.cons_ne_nil _ _, hdot heq⟩
  use c :: before, between, behind, rfl, (pairedDots_char hne).mpr hpaired
  rw [roomAfter_char hc]
  · exact h
  · intro heq
    exact (hne heq).2

/-- Two dots stand together in what is kept exactly when two dots meet in the input. -/
theorem infix_sanitizeLoop {input : Text} {out : HString cap}
    (h : ['.', '.'] <:+: (sanitizeLoop input out).text) :
  ['.', '.'] <:+: out.text ∨
    (['.'] <:+ out.text ∧ ∃ behind, DotNext (room out) input behind) ∨
    DotsMeet (room out) input
  := by
  induction input using scanInduction generalizing out with
  | nil => exact .inl h
  | separator c rest hc ih =>
      rw [sanitizeLoop_separator hc] at h
      rcases ih h with hold | ⟨hlast, behind, hnext⟩ | hmeet
      · exact .inl hold
      · exact .inr (.inl ⟨hlast, behind, hnext.separator hc⟩)
      · exact .inr (.inr (hmeet.separator hc))
  | pair rest ih =>
      rcases ih h with hold | ⟨hlast, behind, hnext⟩ | hmeet
      · exact .inl hold
      · exact .inr (.inl ⟨hlast, behind, hnext.pair⟩)
      · exact .inr (.inr hmeet.pair)
  | char c rest hc hdot ih =>
      rw [sanitizeLoop_char hc hdot] at h
      rcases Nat.lt_or_ge (room out) c.utf8Size with hlarge | hfits
      · rw [pushed_of_large hlarge] at h
        rcases ih h with hold | ⟨hlast, behind, hnext⟩ | hmeet
        · exact .inl hold
        · exact .inr (.inl ⟨hlast, behind, hnext.large hlarge⟩)
        · right
          right
          apply DotsMeet.char hc hdot
          rwa [if_pos hlarge]
      · obtain ⟨htext, hroom⟩ := pushed_of_fits hfits
        rcases ih h with hold | ⟨hlast, behind, hnext⟩ | hmeet
        · rw [htext, List.infix_concat_iff] at hold
          rcases hold with hend | hold
          · obtain ⟨last, hdots, hlast⟩ := (List.suffix_concat_iff.mp hend).resolve_left
              (List.cons_ne_nil _ _)
            have hdots : ['.'] ++ ['.'] = last ++ [c] := hdots
            obtain ⟨rfl, hc⟩ := List.append_inj' hdots rfl
            obtain rfl : '.' = c := (List.cons.inj hc).1
            exact .inr (.inl ⟨hlast, rest, next_self hfits hdot⟩)
          · exact .inl hold
        · right
          right
          rw [htext] at hlast
          obtain rfl : c = '.' := by
            obtain ⟨before, hbefore⟩ := hlast
            obtain ⟨-, hc⟩ := List.append_inj' hbefore rfl
            exact (List.cons.inj hc).1.symm
          rw [hroom] at hnext
          exact ⟨[], rest, behind, rfl, by decide, hdot rfl, hfits, hnext⟩
        · right
          right
          apply DotsMeet.char hc hdot
          rwa [if_neg (Nat.not_lt.mpr hfits), ← hroom]

theorem DotsMeet.infix_sanitizeLoop {input : Text} {out : HString cap}
    (h : DotsMeet (room out) input) :
  ['.', '.'] <:+: (sanitizeLoop input out).text
  := by
  obtain ⟨before, between, behind, rfl, hpaired, hbetween, hroom, hnext⟩ := h
  obtain ⟨hloop, hafter⟩ := hpaired.sanitizeLoop_append ('.' :: between) out
  rw [← hafter] at hroom hnext
  obtain ⟨htext, hfirst⟩ := pushed_of_fits (one_le_of_dot hroom)
  rw [hloop, sanitizeLoop_char rfl fun _ => hbetween]
  have hfirst' : DotNext (room (pushed (sanitizeLoop before out) '.')) between behind := by
    rw [hfirst]
    exact hnext
  obtain ⟨htext', -⟩ := pushed_of_fits (one_le_of_dot hfirst'.1)
  rw [hfirst'.sanitizeLoop_eq]
  apply List.IsInfix.trans _ (prefix_sanitizeLoop _ _).isInfix
  rw [htext', htext, List.append_assoc]
  apply (List.suffix_append _ _).isInfix

/-! ### Clean names -/

/-- A name that no part of a path but the last can be. -/
structure Clean (name : Text) : Prop where
  no_slash : '/' ∉ name
  no_backslash : '\\' ∉ name
  no_dots : ¬ ['.', '.'] <:+: name
  ne_nil : name ≠ []
  ne_dot : name ≠ ['.']
  ne_dots : name ≠ ['.', '.']

/-- A name is what the loop keeps, or `unnamed` when it keeps nothing. -/
theorem sanitizeFilename_text (hcap : 7 ≤ cap) (input : Text) :
  (sanitizeFilename cap input).text =
    if (sanitizeLoop input (HString.new : HString cap)).text = [] then "unnamed".toList
    else (sanitizeLoop input (HString.new : HString cap)).text
  := by
  by_cases hempty : (sanitizeLoop input (HString.new : HString cap)).text = []
  · have hfits : ((sanitizeLoop input (HString.new : HString cap)).text ++
        "unnamed".toList).byteLen ≤ cap := by
      rw [hempty]
      exact hcap
    rw [if_pos hempty]
    simp only [sanitizeFilename, if_pos hempty]
    rw [HString.pushStr, dif_pos hfits, Option.getD_some]
    simp only [hempty, List.nil_append]
  · rw [if_neg hempty]
    simp only [sanitizeFilename, if_neg hempty]

/-- The name has no separator, and is not empty. -/
theorem sanitizeFilename_separators (hcap : 7 ≤ cap) (input : Text) :
  '/' ∉ (sanitizeFilename cap input).text ∧ '\\' ∉ (sanitizeFilename cap input).text ∧
    (sanitizeFilename cap input).text ≠ []
  := by
  have hkept := separator_notMem input (HString.new : HString cap) (by simp [HString.new])
  rw [sanitizeFilename_text hcap]
  split
  · decide
  · next hne =>
    refine ⟨fun hmem => ?_, fun hmem => ?_, hne⟩
    · cases hkept _ hmem
    · cases hkept _ hmem

/-- Two dots stand together in the name exactly when two dots meet in the input. -/
theorem sanitizeFilename_dots_iff (hcap : 7 ≤ cap) (input : Text) :
  ['.', '.'] <:+: (sanitizeFilename cap input).text ↔ DotsMeet cap input
  := by
  have hloop : ['.', '.'] <:+: (sanitizeLoop input (HString.new : HString cap)).text ↔
      DotsMeet cap input := by
    constructor
    · intro h
      rcases infix_sanitizeLoop h with hnew | ⟨hnew, -⟩ | hmeet
      · simp [HString.new] at hnew
      · simp [HString.new] at hnew
      · exact hmeet
    · intro h
      have hmeet : DotsMeet (room (HString.new : HString cap)) input := h
      apply hmeet.infix_sanitizeLoop
  rw [← hloop, sanitizeFilename_text hcap]
  split
  · next hempty =>
    rw [hempty]
    decide
  · rfl

/-- What a name meets is what the loop adds, unless it is met by what a name cannot be. -/
theorem sanitizeFilename_iff (hcap : 7 ≤ cap) (input : Text) {Q : Text → Prop}
    (hunnamed : Q [] ↔ Q "unnamed".toList) :
  Q (sanitizeFilename cap input).text ↔ Adds Q input (HString.new : HString cap)
  := by
  have hadds : Adds Q input (HString.new : HString cap) ↔
      Q (sanitizeLoop input (HString.new : HString cap)).text := by
    constructor
    · rintro ⟨s, htext, hs⟩
      rwa [htext]
    · intro h
      exact ⟨_, rfl, h⟩
  rw [hadds, sanitizeFilename_text hcap]
  split
  · next hempty => rw [hempty, hunnamed]
  · rfl

theorem sanitizeFilename_eq_dot (hcap : 7 ≤ cap) (input : Text) :
  (sanitizeFilename cap input).text = ['.'] ↔ LoneDot cap input
  := (sanitizeFilename_iff hcap input (by decide)).trans (adds_loneDot_iff _ _)

/-- What is opened of a name is nothing, one dot or two. -/
theorem sanitizeFilename_cString (hcap : 7 ≤ cap) (input : Text) :
  ((sanitizeFilename cap input).text.cString = [] ↔ NulNext cap input) ∧
  ((sanitizeFilename cap input).text.cString = ['.'] ↔ CutDot cap input) ∧
  ((sanitizeFilename cap input).text.cString = ['.', '.'] ↔ CutDots cap input)
  := by
  refine ⟨?_, ?_, ?_⟩
  · have hne := (sanitizeFilename_separators hcap input).2.2
    rw [cString_eq_nil_iff, or_iff_right hne]
    have hadds := @sanitizeFilename_iff cap hcap input (fun s => ∃ s', s = '\x00' :: s') (by simp)
    exact hadds.trans (adds_nul_iff _ _)
  · exact (sanitizeFilename_iff (Q := (Text.cString · = ['.'])) hcap input (by decide)).trans
      (adds_cutDot_iff _ _)
  · exact (sanitizeFilename_iff (Q := (Text.cString · = ['.', '.'])) hcap input (by decide)).trans
      (adds_cutDots_iff _ _)

/-- A sanitized name is clean exactly when no two dots meet in the input and what is kept is not
one dot. -/
theorem clean_iff (hcap : 7 ≤ cap) (input : Text) :
  Clean (sanitizeFilename cap input).text ↔ ¬ DotsMeet cap input ∧ ¬ LoneDot cap input
  := by
  rw [← sanitizeFilename_eq_dot hcap, ← sanitizeFilename_dots_iff hcap]
  obtain ⟨hslash, hbackslash, hne⟩ := sanitizeFilename_separators hcap input
  constructor
  · intro h
    exact ⟨h.no_dots, h.ne_dot⟩
  · rintro ⟨hdots, hdot⟩
    refine ⟨hslash, hbackslash, hdots, hne, hdot, fun heq => ?_⟩
    apply hdots
    rw [heq]

/-! ### Unpacking -/

/-- The text of a path that `format!("{outfolder}/{name}").unwrap()` makes, which has room for
1024 bytes. -/
def outputPath (outfolder name : Text) : Outcome Text Text :=
  if (outfolder ++ '/' :: name).byteLen ≤ 1024 then .ok (outfolder ++ '/' :: name) else .panics

/-- The file that `SmallFd::create` opens. A path is copied to 1024 bytes, and a NUL has to stand
behind it. -/
def create (path : Text) : Outcome Text Text :=
  if path.byteLen < 1024 then .ok path.cString else .panics

/-- The loop of `mini_unpack`: the files that it opens with what they are to hold, and how it ends.
What the system answers is whether a file can be opened and written. -/
def unpackSections (writes : Text → Bytes → Bool) (outfolder : Text) :
    List Ota.OtaImageSection → List (Text × Bytes) × Outcome Text Unit
  | [] => ([], .ok ())
  | image :: images =>
    match outputPath outfolder (sanitizeFilename 1024 image.name).text >>= create with
    | .ok file =>
      if writes file image.data then
        let (files, ending) := unpackSections writes outfolder images
        ((file, image.data) :: files, ending)
      else ([(file, image.data)], .panics)
    | .error fault => ([], .error fault)

/-- `mini_unpack` of a file into a folder, which panics when the folder is no C string or the file
is not accepted. -/
def miniUnpack (hasher : Md5Hasher) (bits : ℕ) (writes : Text → Bytes → Bool) (outfolder : Text)
    (buf : Bytes) : List (Text × Bytes) × Outcome Text Unit :=
  match CString.extendFromBytes 1024 outfolder with
  | none => ([], .panics)
  | some _ =>
    match Ota.parse hasher bits buf with
    | .ok (images, _) => unpackSections writes outfolder images
    | .error _ => ([], .panics)

/-- A path leads to an entry of a folder. -/
def DirectChild (folder path : Text) : Prop :=
  ∃ name, path = folder ++ '/' :: name ∧ '/' ∉ name ∧ name ≠ [] ∧ name ≠ ['.'] ∧ name ≠ ['.', '.']

/-- What is kept of a name before a NUL is nothing, one dot or two. -/
def Escapes (input : Text) : Prop := NulNext 1024 input ∨ CutDot 1024 input ∨ CutDots 1024 input

theorem mem_unpackSections {writes : Text → Bytes → Bool} {outfolder : Text}
    {images : List Ota.OtaImageSection} {file : Text × Bytes}
    (h : file ∈ (unpackSections writes outfolder images).1) :
  ∃ image ∈ images, file =
    (Text.cString (outfolder ++ '/' :: (sanitizeFilename 1024 image.name).text), image.data)
  := by
  induction images with
  | nil => cases h
  | cons image images ih =>
      have hopened {opened : Text} (hopen :
          outputPath outfolder (sanitizeFilename 1024 image.name).text >>= create = .ok opened) :
          opened = Text.cString (outfolder ++ '/' :: (sanitizeFilename 1024 image.name).text) := by
        obtain ⟨path, hpath, hcreate⟩ := Except.bind_eq_ok_iff.mp hopen
        rw [outputPath] at hpath
        split at hpath
        · obtain rfl := Except.ok.inj hpath
          rw [create] at hcreate
          split at hcreate
          · exact (Except.ok.inj hcreate).symm
          · cases hcreate
        · cases hpath
      rw [unpackSections] at h
      split at h
      · next opened hopen =>
        obtain rfl := hopened hopen
        split at h
        · rcases List.mem_cons.mp h with rfl | h
          · exact ⟨image, List.mem_cons_self, rfl⟩
          · obtain ⟨image', hmem, hfile⟩ := ih h
            exact ⟨image', List.mem_cons_of_mem _ hmem, hfile⟩
        · exact ⟨image, List.mem_cons_self, List.mem_singleton.mp h⟩
      · cases h

/-- The path of a file in a folder ends before the first NUL of the folder, or of the file. -/
theorem cString_path (outfolder name : Text) :
  Text.cString (outfolder ++ '/' :: name) =
    if '\x00' ∈ outfolder then outfolder.cString else outfolder ++ '/' :: name.cString
  := by
  induction outfolder with
  | nil => exact cString_cons (by decide) name
  | cons c outfolder ih =>
      by_cases hc : c = '\x00'
      · rw [hc, if_pos List.mem_cons_self]
        rfl
      · rw [List.cons_append, cString_cons hc, cString_cons hc, ih]
        simp only [List.mem_cons, Ne.symm hc, false_or]
        split
        · rfl
        · rfl

/-- A file that is opened is an entry of the folder exactly when the folder has no NUL, and what is
kept of the name of its section before a NUL is not nothing, one dot or two. -/
theorem directChild_iff (outfolder input : Text) :
  DirectChild outfolder
      (Text.cString (outfolder ++ '/' :: (sanitizeFilename 1024 input).text)) ↔
    '\x00' ∉ outfolder ∧ ¬ Escapes input
  := by
  obtain ⟨hnil, hdot, hdots⟩ := @sanitizeFilename_cString 1024 (by decide) input
  rw [cString_path, Escapes, ← hnil, ← hdot, ← hdots, not_or, not_or]
  by_cases hnul : '\x00' ∈ outfolder
  · rw [if_pos hnul]
    refine iff_of_false ?_ fun h => h.1 hnul
    rintro ⟨name, hname, -⟩
    have hlen : outfolder.cString.length ≤ outfolder.length :=
      (List.takeWhile_prefix _).length_le
    rw [hname, List.length_append, List.length_cons] at hlen
    omega
  · rw [if_neg hnul]
    constructor
    · rintro ⟨name, hname, -, hne⟩
      obtain ⟨-, hcons⟩ := List.append_inj hname rfl
      obtain rfl := (List.cons.inj hcons).2
      exact ⟨hnul, hne⟩
    · rintro ⟨-, hne⟩
      have hslash := (@sanitizeFilename_separators 1024 (by decide) input).1
      exact ⟨_, rfl, fun hmem => hslash ((List.takeWhile_prefix _).subset hmem), hne⟩

/-- A sanitized name is clean exactly when no two dots meet in the input and what is kept is not
one dot, and a file that is unpacked is an entry of the folder exactly when the folder has no NUL,
and what is kept of the name of its section before a NUL is not nothing, one dot or two. -/
theorem confined_iff (hcap : 7 ≤ cap) (input : Text) (hasher : Md5Hasher) (bits : ℕ)
    (writes : Text → Bytes → Bool) (outfolder : Text) (buf : Bytes) :
  (Clean (sanitizeFilename cap input).text ↔ ¬ DotsMeet cap input ∧ ¬ LoneDot cap input) ∧
  ∀ file ∈ (miniUnpack hasher bits writes outfolder buf).1,
    ∃ images globals, Ota.parse hasher bits buf = .ok (images, globals) ∧ ∃ image ∈ images,
      file.2 = image.data ∧
      (DirectChild outfolder file.1 ↔ '\x00' ∉ outfolder ∧ ¬ Escapes image.name)
  := by
  use clean_iff hcap input
  intro file hfile
  rw [miniUnpack] at hfile
  split at hfile
  · cases hfile
  · split at hfile
    · next images globals hparse =>
      obtain ⟨image, himage, rfl⟩ := mem_unpackSections hfile
      exact ⟨images, globals, hparse, image, himage, rfl, directChild_iff _ _⟩
    · cases hfile

/-- The header of a file with one section, of no bytes, whose name begins with a step to the folder
above. -/
def rootfsParts : List (List Text) := [["img_name=../rootfs.squashfs".toList]]

def rootfsFile : Bytes := Ota.padHeader (Ota.partsText rootfsParts)

theorem parse_rootfsFile :
  ∃ image globals, Ota.parse .rfc1321 64 rootfsFile = .ok ([image], globals) ∧
    image.name = "../rootfs.squashfs".toList ∧ image.data = []
  := by
  have hfits : (Ota.partsText rootfsParts).byteLen ≤ Ota.headerSize := by decide +kernel
  have hparts : ∀ ls ∈ rootfsParts, ls ≠ [] ∧ ∀ l ∈ ls, '\n' ∉ l ∧ l ≠ [] := by decide +kernel
  have hlen : rootfsFile.length = Ota.headerSize := Ota.length_padHeader hfits
  have hbuf : rootfsFile.length < 2 ^ 64 := by
    rw [hlen]
    decide
  obtain ⟨n, htext⟩ := Ota.decode_headerOf hfits []
  rw [List.append_nil] at htext
  have hfields : Ota.declaredFields (Ota.partsText rootfsParts ++ List.replicate n '\x00') =
      [⟨"../rootfs.squashfs".toList, "?".toList, 0, [], 0⟩] := by
    rw [Ota.declaredFields, Ota.declaredParts_partsText hparts]
    decide +kernel
  have hplaced : Ota.placed rootfsFile.length Ota.headerSize
      (Ota.declaredFields (Ota.partsText rootfsParts ++ List.replicate n '\x00')) =
      [(Ota.headerSize, ⟨"../rootfs.squashfs".toList, "?".toList, 0, [], 0⟩)] := by
    rw [hfields, hlen]
    decide
  have hacc : Ota.Accepted .rfc1321 64 rootfsFile
      (Ota.partsText rootfsParts ++ List.replicate n '\x00') := by
    constructor
    case placed_ne_nil =>
      rw [hplaced]
      exact List.cons_ne_nil _ _
    case passes =>
      rw [hplaced]
      intro place hplace
      rw [List.mem_singleton.mp hplace]
      apply Ota.passes_unchecked
    case noOverflow =>
      rw [Ota.NoOverflow, hplaced, hfields]
      intro next hnext
      cases hnext
    case packet =>
      intro _ v hv
      rw [Ota.lastValue, Ota.keyValues_partsText hparts n] at hv
      cases hv
  refine ⟨Ota.imageAt rootfsFile (Ota.headerSize, ⟨"../rootfs.squashfs".toList, "?".toList, 0,
    [], 0⟩), _, (Ota.parse_iff hbuf).mpr ⟨_, htext, hacc, ?_, rfl⟩, rfl, rfl⟩
  rw [hplaced, List.map_singleton]

/-- A step to the folder above is left out of a name, so that the file is unpacked into the folder. -/
theorem not_dotsMeet_rootfs :
  (¬ DotsMeet 1024 "../rootfs.squashfs".toList ∧ ¬ LoneDot 1024 "../rootfs.squashfs".toList) ∧
  (miniUnpack .rfc1321 64 (fun _ _ => true) "/tmp".toList rootfsFile).1 =
    [("/tmp/rootfs.squashfs".toList, [])] ∧
  DirectChild "/tmp".toList "/tmp/rootfs.squashfs".toList
  := by
  have hconfined := @confined_iff 1024 (by decide) "../rootfs.squashfs".toList .rfc1321 64
    (fun _ _ => true) "/tmp".toList rootfsFile
  have hname : (sanitizeFilename 1024 "../rootfs.squashfs".toList).text =
      "rootfs.squashfs".toList := by
    decide +kernel
  obtain ⟨image, globals, hparse, himage, hdata⟩ := parse_rootfsFile
  have hfiles : (miniUnpack .rfc1321 64 (fun _ _ => true) "/tmp".toList rootfsFile).1 =
      [("/tmp/rootfs.squashfs".toList, [])] := by
    have hfolder : (CString.extendFromBytes 1024 "/tmp".toList).isSome := by decide +kernel
    obtain ⟨folder, hfolder⟩ := Option.isSome_iff_exists.mp hfolder
    have hopened : outputPath "/tmp".toList "rootfs.squashfs".toList >>= create =
        .ok "/tmp/rootfs.squashfs".toList := by rfl
    rw [miniUnpack, hfolder, hparse]
    dsimp only
    rw [unpackSections, himage, hname, hopened, hdata]
    rfl
  refine ⟨?_, hfiles, ?_⟩
  · apply hconfined.1.mp
    rw [hname]
    exact ⟨by decide, by decide, by decide, by decide, by decide, by decide⟩
  · obtain ⟨images, globals', hparse', image', himage', -, hchild⟩ :=
      hconfined.2 ("/tmp/rootfs.squashfs".toList, []) (by rw [hfiles]; exact List.mem_cons_self)
    obtain ⟨hnil, hdot, hdots⟩ :=
      @sanitizeFilename_cString 1024 (by decide) "../rootfs.squashfs".toList
    rw [hname] at hnil hdot hdots
    rw [hparse] at hparse'
    cases hparse'
    rw [List.mem_singleton.mp himage', himage] at hchild
    refine hchild.mpr ⟨by decide, ?_⟩
    rw [Escapes, ← hnil, ← hdot, ← hdots]
    decide

/-- A separator between two dots lets them come together. -/
theorem not_clean :
  ¬ ∀ cap, 7 ≤ cap → ∀ input, Clean (sanitizeFilename cap input).text
  := by
  intro h
  apply (h 1024 (by decide) "./.".toList).ne_dots
  decide +kernel

end Sanitizer
