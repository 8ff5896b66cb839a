import CatplayFirmware.Support.Except
import CatplayFirmware.Support.Hex
import CatplayFirmware.Support.HString
import CatplayFirmware.Support.Rust

/-!
# Hardware identifiers

An identifier is printed as four groups of eight hexadecimal digits with dashes between them. What
is printed is read back. A text of 35 bytes is read without its dashes, wherever they are: with
fewer than three of them the rest does not fit, and with more of them, or with characters of
several bytes, a group may end outside of the rest or inside a character.
-/

/-- The identifiers of a device: the fuses `0x01`, `0x02`, `0x22` and `0x23`. -/
structure Hwid where
  cfg0 : UInt32
  cfg1 : UInt32
  mac0 : UInt32
  mac1 : UInt32
  deriving DecidableEq

namespace Hwid

/-- `fmt`. -/
def display (h : Hwid) : Text :=
  Text.hexDigits 8 h.cfg0.toNat ++ '-' :: (Text.hexDigits 8 h.cfg1.toNat ++
    '-' :: (Text.hexDigits 8 h.mac0.toNat ++ '-' :: Text.hexDigits 8 h.mac1.toNat))

def withoutDashes (s : Text) : Text := s.filter (· ≠ '-')

/-- `from_str_radix` with the error of `try_from`. -/
def number (s : Text) : Outcome Text UInt32 :=
  match Text.fromStrRadix16 s with
  | some n => .ok n
  | none => .fail "failed to decode hwid string".toList

def tryFrom (s : Text) : Outcome Text Hwid :=
  if s.byteLen ≠ 35 then .fail "hwid should be exactly 35 chars".toList
  else do
    let raw ← HString.collect 32 (withoutDashes s)
    let cfg0 ← number (← Rust.strRange raw.text 0 8)
    let cfg1 ← number (← Rust.strRange raw.text 8 16)
    let mac0 ← number (← Rust.strRange raw.text 16 24)
    let mac1 ← number (← Rust.strRange raw.text 24 32)
    return ⟨cfg0, cfg1, mac0, mac1⟩

/-! ### What is asked of it -/

/-- What is printed is read back. -/
def ReadsBack : Prop := ∀ h : Hwid, tryFrom (display h) = .ok h

/-- A text is read without a panic, and only as the identifier that it shows. -/
def ReadsSafely (s : Text) : Prop :=
  (tryFrom s).Settles ∧ ∀ h, tryFrom s = .ok h → s.map Char.toLower = display h

/-- A text can be cut into groups of eight bytes until one is no number. -/
def Grouped : (groups : ℕ) → Text → Prop
  | 0, _ => True
  | groups + 1, raw =>
    ∃ a b, raw = a ++ b ∧ a.byteLen = 8 ∧ ((Text.fromStrRadix16 a).isSome → Grouped groups b)

/-- A text begins with groups of eight bytes that are numbers. -/
def Numbers : (groups : ℕ) → Text → Prop
  | 0, _ => True
  | groups + 1, raw =>
    ∃ a b, raw = a ++ b ∧ a.byteLen = 8 ∧ (Text.fromStrRadix16 a).isSome ∧ Numbers groups b

/-- The dashes stand behind the groups, and no group has a plus sign. -/
def Spelled (s : Text) : Prop :=
  s[8]? = some '-' ∧ s[17]? = some '-' ∧ s[26]? = some '-' ∧ '+' ∉ s

/-- A text of 35 bytes has three dashes at least, the rest can be cut into groups, and is spelled
like an identifier if all four groups are numbers. -/
def WellCut (s : Text) : Prop :=
  s.byteLen = 35 →
    (withoutDashes s).byteLen ≤ 32 ∧ Grouped 4 (withoutDashes s) ∧
      (Numbers 4 (withoutDashes s) → Spelled s)

/-! ### Groups -/

/-- The numbers of the ranges of eight bytes from an offset on. -/
def readRanges : (groups start : ℕ) → Text → Outcome Text (List UInt32)
  | 0, _, _ => .ok []
  | groups + 1, start, raw => do
    let n ← number (← Rust.strRange raw start (start + 8))
    let ns ← readRanges groups (start + 8) raw
    return n :: ns

/-- The numbers of groups of eight bytes. -/
def readGroups : (groups : ℕ) → Text → Outcome Text (List UInt32)
  | 0, _ => .ok []
  | groups + 1, raw =>
    match raw.splitAtByte 8 with
    | none => .panics
    | some (a, b) => do
      let n ← number a
      let ns ← readGroups groups b
      return n :: ns

/-- The identifier of four numbers. -/
def ofNumbers : List UInt32 → Hwid
  | [cfg0, cfg1, mac0, mac1] => ⟨cfg0, cfg1, mac0, mac1⟩
  | _ => ⟨0, 0, 0, 0⟩

theorem readRanges_append (groups : ℕ) (a b : Text) :
  readRanges groups a.byteLen (a ++ b) = readGroups groups b
  := by
  induction groups generalizing a b with
  | zero => rfl
  | succ groups ih =>
      rw [readRanges, readGroups, Rust.strRange_append, Rust.strTo]
      cases hsplit : b.splitAtByte 8 with
      | none => rfl
      | some pieces =>
          obtain ⟨c, d⟩ := pieces
          obtain ⟨rfl, hlen⟩ := Text.splitAtByte_eq_some_iff.mp hsplit
          have hrest := ih (a ++ c) d
          rw [Text.byteLen_append, hlen, List.append_assoc] at hrest
          rw [hrest]
          rfl

/-- The ranges of the text are its groups. -/
theorem tryFrom_eq {s : Text} (hlen : s.byteLen = 35) (hfits : (withoutDashes s).byteLen ≤ 32) :
  tryFrom s = ofNumbers <$> readGroups 4 (withoutDashes s)
  := by
  rw [tryFrom, if_neg (not_not_intro hlen), HString.collect_eq, dif_pos hfits,
    ← readRanges_append 4 []]
  simp only [readRanges, map_eq_pure_bind, bind_assoc, pure_bind, ofNumbers, Except.ok_bind]
  rfl

/-- The groups are read without a panic exactly if the text can be cut into them. -/
theorem readGroups_settles_iff {groups : ℕ} {raw : Text} :
  (readGroups groups raw).Settles ↔ Grouped groups raw
  := by
  induction groups generalizing raw with
  | zero => exact iff_of_true (Outcome.settles_ok _) trivial
  | succ groups ih =>
      rw [readGroups, Grouped]
      cases hsplit : raw.splitAtByte 8 with
      | none =>
          refine iff_of_false Outcome.not_settles_panics ?_
          rintro ⟨a, b, hraw, hlen, -⟩
          rw [Text.splitAtByte_eq_some_iff.mpr ⟨hraw, hlen⟩] at hsplit
          cases hsplit
      | some pieces =>
          obtain ⟨a, b⟩ := pieces
          have hcut := Text.splitAtByte_eq_some_iff.mp hsplit
          have hgroup : (∃ a b, raw = a ++ b ∧ a.byteLen = 8 ∧
              ((Text.fromStrRadix16 a).isSome → Grouped groups b)) ↔
                ((Text.fromStrRadix16 a).isSome → Grouped groups b) := by
            constructor
            · rintro ⟨a', b', hraw, hlen, hrest⟩
              rw [Text.splitAtByte_eq_some_iff.mpr ⟨hraw, hlen⟩] at hsplit
              cases hsplit
              exact hrest
            · exact fun hrest => ⟨a, b, hcut.1, hcut.2, hrest⟩
          rw [hgroup, ← ih]
          dsimp only
          cases hnumber : Text.fromStrRadix16 a with
          | none =>
              rw [number, hnumber]
              exact iff_of_true (Outcome.settles_fail _) fun h => Bool.noConfusion h
          | some n =>
              rw [number, hnumber, Except.ok_bind]
              constructor
              · intro h _
                exact h.of_bind
              · intro h
                exact (h rfl).bind fun ns _ => Outcome.settles_ok _

theorem readGroups_succ_ok_iff {groups : ℕ} {raw : Text} {ns : List UInt32} :
  readGroups (groups + 1) raw = .ok ns ↔
    ∃ a b n ns', raw = a ++ b ∧ a.byteLen = 8 ∧ Text.fromStrRadix16 a = some n ∧
      readGroups groups b = .ok ns' ∧ ns = n :: ns'
  := by
  rw [readGroups]
  constructor
  · intro h
    split at h
    · cases h
    next a b hsplit =>
      obtain ⟨hraw, hlen⟩ := Text.splitAtByte_eq_some_iff.mp hsplit
      obtain ⟨n, hnumber, h⟩ := Except.bind_eq_ok_iff.mp h
      obtain ⟨ns', hrest, h⟩ := Except.bind_eq_ok_iff.mp h
      rw [number] at hnumber
      split at hnumber
      · next hn =>
        cases hnumber
        cases h
        exact ⟨a, b, n, ns', hraw, hlen, hn, hrest, rfl⟩
      · cases hnumber
  · rintro ⟨a, b, n, ns', hraw, hlen, hn, hrest, rfl⟩
    rw [Text.splitAtByte_eq_some_iff.mpr ⟨hraw, hlen⟩]
    simp only [number, hn, hrest, Except.ok_bind]
    rfl

/-- Numbers are what is read to the end. -/
theorem numbers_iff {groups : ℕ} {raw : Text} :
  Numbers groups raw ↔ ∃ ns, readGroups groups raw = .ok ns
  := by
  induction groups generalizing raw with
  | zero => exact iff_of_true trivial ⟨[], rfl⟩
  | succ groups ih =>
      simp only [Numbers, ih, readGroups_succ_ok_iff]
      constructor
      · rintro ⟨a, b, hraw, hlen, hnumber, ns, hns⟩
        obtain ⟨n, hn⟩ := Option.isSome_iff_exists.mp hnumber
        exact ⟨n :: ns, a, b, n, ns, hraw, hlen, hn, hns, rfl⟩
      · rintro ⟨-, a, b, n, ns, hraw, hlen, hn, hns, rfl⟩
        exact ⟨a, b, hraw, hlen, Option.isSome_iff_exists.mpr ⟨n, hn⟩, ns, hns⟩

/-- The groups of numbers, printed one behind the other. -/
def printed (ns : List UInt32) : Text := ns.flatMap fun n => Text.hexDigits 8 n.toNat

theorem stripPlus_of_notMem {a : Text} (h : '+' ∉ a) : Text.stripPlus a = a := by
  cases a with
  | nil => rfl
  | cons c a =>
      apply Text.stripPlus_cons
      rintro rfl
      exact h List.mem_cons_self

/-- A number of eight bytes without a plus sign consists of the digits that are printed for it. -/
theorem map_toLower_of_fromStrRadix16 {a : Text} {n : UInt32} (hlen : a.byteLen = 8)
    (hplus : '+' ∉ a) (h : Text.fromStrRadix16 a = some n) :
  a.map Char.toLower = Text.hexDigits 8 n.toNat
  := by
  rw [Text.fromStrRadix16, stripPlus_of_notMem hplus] at h
  split at h
  · cases h
  · obtain ⟨m, hm, rfl⟩ := Option.map_eq_some_iff.mp h
    obtain ⟨hdigits, hlt⟩ := Option.filter_eq_some_iff.mp hm
    obtain ⟨-, hlower, hsize⟩ := Text.map_toLower_of_digits16 hdigits
    have hlt := of_decide_eq_true hlt
    rw [hlower, ← hsize, hlen, UInt32.toNat_ofNat', Nat.mod_eq_of_lt (by omega)]

/-- Groups without a plus sign are what is printed for them. -/
theorem map_toLower_of_readGroups {groups : ℕ} {raw : Text} {ns : List UInt32}
    (h : readGroups groups raw = .ok ns) (hfits : raw.byteLen ≤ 8 * groups) (hplus : '+' ∉ raw) :
  raw.map Char.toLower = printed ns
  := by
  induction groups generalizing raw ns with
  | zero =>
      cases h
      cases raw with
      | nil => rfl
      | cons c raw =>
          have hpos := Char.utf8Size_pos c
          rw [Text.byteLen_cons] at hfits
          omega
  | succ groups ih =>
      obtain ⟨a, b, n, ns, rfl, hlen, hn, hrest, rfl⟩ := readGroups_succ_ok_iff.mp h
      rw [List.mem_append, not_or] at hplus
      rw [Text.byteLen_append] at hfits
      rw [List.map_append, map_toLower_of_fromStrRadix16 hlen hplus.1 hn,
        ih hrest (by omega) hplus.2]
      rfl

/-! ### Dashes -/

theorem mem_display {h : Hwid} {c : Char} (hc : c ∈ display h) :
  c = '-' ∨ ∃ d < 16, c = Nat.digitChar d
  := by
  simp only [display, List.mem_append, List.mem_cons] at hc
  rcases hc with hc | rfl | hc | rfl | hc | rfl | hc
  · exact .inr (Text.digit_of_mem_hexDigits hc)
  · exact .inl rfl
  · exact .inr (Text.digit_of_mem_hexDigits hc)
  · exact .inl rfl
  · exact .inr (Text.digit_of_mem_hexDigits hc)
  · exact .inl rfl
  · exact .inr (Text.digit_of_mem_hexDigits hc)

theorem eq_dash_of_toLower {c : Char} (h : c.toLower = '-') : c = '-' := by
  unfold Char.toLower at h
  split at h
  · next hupper =>
    have hval := congrArg Char.val h
    have h₁ := UInt32.le_iff_toNat_le.mp hupper.1
    have h₂ := congrArg UInt32.toNat hval
    have h₃ := UInt32.le_iff_toNat_le.mp hupper.2
    rw [UInt32.toNat_add] at h₂
    simp at h₁ h₂ h₃
    omega
  · exact h

/-- What is the text of an identifier in any case is spelled like one. -/
theorem spelled_of_display {s : Text} {h : Hwid} (hs : s.map Char.toLower = display h) :
  Spelled s
  := by
  have hdash {i : ℕ} (hi : (display h)[i]? = some '-') : s[i]? = some '-' := by
    rw [← hs, List.getElem?_map, Option.map_eq_some_iff] at hi
    obtain ⟨c, hc, hlower⟩ := hi
    rw [hc, eq_dash_of_toLower hlower]
  refine ⟨hdash ?_, hdash ?_, hdash ?_, ?_⟩
  · simp [display, Text.length_hexDigits]
  · simp [display, Text.length_hexDigits]
  · simp [display, Text.length_hexDigits]
  · intro hplus
    have hmem : '+' ∈ display h := by
      rw [← hs]
      exact List.mem_map.mpr ⟨'+', hplus, by decide⟩
    rcases mem_display hmem with hdash | ⟨d, hd, hdigit⟩
    · cases hdash
    · interval_cases d <;> cases hdigit

theorem length_of_readGroups {groups : ℕ} {raw : Text} {ns : List UInt32}
    (h : readGroups groups raw = .ok ns) :
  ns.length = groups
  := by
  induction groups generalizing raw ns with
  | zero =>
      cases h
      rfl
  | succ groups ih =>
      obtain ⟨_, _, _, ns', -, -, -, hrest, rfl⟩ := readGroups_succ_ok_iff.mp h
      rw [List.length_cons, ih hrest]

theorem length_withoutDashes (s : Text) :
  s.length = (withoutDashes s).length + s.count '-' ∧
    s.byteLen = (withoutDashes s).byteLen + s.count '-'
  := by
  induction s with
  | nil => exact ⟨rfl, rfl⟩
  | cons c s ih =>
      by_cases hc : c = '-'
      · subst hc
        have hfilter : withoutDashes ('-' :: s) = withoutDashes s := rfl
        have hsize : ('-').utf8Size = 1 := rfl
        rw [hfilter, List.length_cons, List.count_cons_self, Text.byteLen_cons, hsize]
        omega
      · have hfilter : withoutDashes (c :: s) = c :: withoutDashes s :=
          List.filter_cons_of_pos (decide_eq_true hc)
        rw [hfilter, List.length_cons, List.length_cons, List.count_cons_of_ne hc,
          Text.byteLen_cons, Text.byteLen_cons]
        omega

theorem length_le_byteLen (s : Text) : s.length ≤ s.byteLen := by
  induction s with
  | nil => exact Nat.le_refl _
  | cons c s ih =>
      have hpos := Char.utf8Size_pos c
      rw [List.length_cons, Text.byteLen_cons]
      omega

/-- A text with a character at a place is cut there. -/
theorem eq_append_cons {s : Text} {c : Char} {i : ℕ} (h : s[i]? = some c) :
  ∃ a b, s = a ++ c :: b ∧ a.length = i ∧ b = s.drop (i + 1)
  := by
  obtain ⟨hlt, hget⟩ := List.getElem?_eq_some_iff.mp h
  refine ⟨s.take i, s.drop (i + 1), ?_, List.length_take_of_le (Nat.le_of_lt hlt), rfl⟩
  rw [← hget, List.getElem_cons_drop, List.take_append_drop]

/-- Three dashes at their places make four groups. -/
theorem exists_groups {s : Text} (h₀ : s[8]? = some '-') (h₁ : s[17]? = some '-')
    (h₂ : s[26]? = some '-') (hlen : s.length = 35) :
  ∃ t₀ t₁ t₂ t₃, s = t₀ ++ '-' :: (t₁ ++ '-' :: (t₂ ++ '-' :: t₃)) ∧
    t₀.length = 8 ∧ t₁.length = 8 ∧ t₂.length = 8 ∧ t₃.length = 8
  := by
  obtain ⟨t₀, u₀, hs, ht₀, hu₀⟩ := eq_append_cons h₀
  have h₁ : u₀[8]? = some '-' := by rw [hu₀, List.getElem?_drop, h₁]
  have h₂ : u₀[17]? = some '-' := by rw [hu₀, List.getElem?_drop, h₂]
  obtain ⟨t₁, u₁, hs₁, ht₁, hu₁⟩ := eq_append_cons h₁
  have h₂ : u₁[8]? = some '-' := by rw [hu₁, List.getElem?_drop, h₂]
  obtain ⟨t₂, t₃, hs₂, ht₂, hu₂⟩ := eq_append_cons h₂
  subst hs₂ hs₁ hs
  refine ⟨t₀, t₁, t₂, t₃, rfl, ht₀, ht₁, ht₂, ?_⟩
  simp only [List.length_append, List.length_cons] at hlen
  omega

/-- A text that loses no character with its dashes has none. -/
theorem withoutDashes_eq_self {s : Text} (h : s.length ≤ (withoutDashes s).length) :
  withoutDashes s = s
  := List.Sublist.eq_of_length_le List.filter_sublist h

/-- A text that is spelled like an identifier and has four numbers is that of the numbers. -/
theorem display_of_spelled {s : Text} {ns : List UInt32} (hs : Spelled s) (hlen : s.byteLen = 35)
    (hfits : (withoutDashes s).byteLen ≤ 32)
    (hgroups : readGroups 4 (withoutDashes s) = .ok ns) :
  s.map Char.toLower = display (ofNumbers ns)
  := by
  obtain ⟨h₀, h₁, h₂, hplus⟩ := hs
  have hplus : '+' ∉ withoutDashes s := fun hmem => hplus (List.mem_of_mem_filter hmem)
  have hprinted := map_toLower_of_readGroups hgroups hfits hplus
  obtain ⟨n₀, n₁, n₂, n₃, rfl⟩ : ∃ n₀ n₁ n₂ n₃, ns = [n₀, n₁, n₂, n₃] := by
    have hcount := length_of_readGroups hgroups
    match ns, hcount with
    | [n₀, n₁, n₂, n₃], _ => exact ⟨n₀, n₁, n₂, n₃, rfl⟩
  have hraw : (withoutDashes s).length = 32 := by
    rw [← List.length_map Char.toLower, hprinted]
    simp [printed, Text.length_hexDigits]
  obtain ⟨hlength, hbytes⟩ := length_withoutDashes s
  have hle := length_le_byteLen (withoutDashes s)
  have hlong : s.length = 35 := by omega
  obtain ⟨t₀, t₁, t₂, t₃, rfl, ht₀, ht₁, ht₂, ht₃⟩ := exists_groups h₀ h₁ h₂ hlong
  -- these three are all dashes that there are
  have hparts : withoutDashes (t₀ ++ '-' :: (t₁ ++ '-' :: (t₂ ++ '-' :: t₃))) =
      withoutDashes t₀ ++ (withoutDashes t₁ ++ (withoutDashes t₂ ++ withoutDashes t₃)) := by
    simp [withoutDashes]
  have hle₀ : (withoutDashes t₀).length ≤ t₀.length := List.length_filter_le _ _
  have hle₁ : (withoutDashes t₁).length ≤ t₁.length := List.length_filter_le _ _
  have hle₂ : (withoutDashes t₂).length ≤ t₂.length := List.length_filter_le _ _
  have hle₃ : (withoutDashes t₃).length ≤ t₃.length := List.length_filter_le _ _
  rw [hparts] at hraw hprinted
  simp only [List.length_append] at hraw
  rw [withoutDashes_eq_self (by omega), withoutDashes_eq_self (by omega),
    withoutDashes_eq_self (by omega), withoutDashes_eq_self (by omega)] at hprinted
  simp only [printed, List.map_append, List.flatMap_cons, List.flatMap_nil, List.append_nil]
    at hprinted
  obtain ⟨hd₀, hprinted⟩ := List.append_inj hprinted (by simp [ht₀, Text.length_hexDigits])
  obtain ⟨hd₁, hprinted⟩ := List.append_inj hprinted (by simp [ht₁, Text.length_hexDigits])
  obtain ⟨hd₂, hd₃⟩ := List.append_inj hprinted (by simp [ht₂, Text.length_hexDigits])
  have hdash : Char.toLower '-' = '-' := by decide
  simp only [display, ofNumbers, List.map_append, List.map_cons, hd₀, hd₁, hd₂, hd₃, hdash]

/-! ### Reading -/

theorem tryFrom_eq_ok_iff {s : Text} (hlen : s.byteLen = 35)
    (hfits : (withoutDashes s).byteLen ≤ 32) {h : Hwid} :
  tryFrom s = .ok h ↔ ∃ ns, readGroups 4 (withoutDashes s) = .ok ns ∧ ofNumbers ns = h
  := by
  rw [tryFrom_eq hlen hfits]
  exact Except.map_eq_ok_iff

theorem tryFrom_settles_iff {s : Text} (hlen : s.byteLen = 35)
    (hfits : (withoutDashes s).byteLen ≤ 32) :
  (tryFrom s).Settles ↔ Grouped 4 (withoutDashes s)
  := by
  rw [tryFrom_eq hlen hfits, ← readGroups_settles_iff, map_eq_pure_bind]
  constructor
  · exact Outcome.Settles.of_bind
  · exact fun h => h.bind fun ns _ => Outcome.settles_ok _

/-- A text is read safely exactly if it has another length or is well cut. -/
theorem readsSafely_iff (s : Text) : ReadsSafely s ↔ WellCut s := by
  by_cases hlen : s.byteLen = 35
  · by_cases hfits : (withoutDashes s).byteLen ≤ 32
    · rw [ReadsSafely, WellCut, tryFrom_settles_iff hlen hfits]
      constructor
      · rintro ⟨hgrouped, hread⟩ -
        refine ⟨hfits, hgrouped, fun hnumbers => ?_⟩
        obtain ⟨ns, hns⟩ := numbers_iff.mp hnumbers
        exact spelled_of_display (hread _ ((tryFrom_eq_ok_iff hlen hfits).mpr ⟨ns, hns, rfl⟩))
      · intro h
        obtain ⟨-, hgrouped, hspelled⟩ := h hlen
        refine ⟨hgrouped, fun h hok => ?_⟩
        obtain ⟨ns, hns, rfl⟩ := (tryFrom_eq_ok_iff hlen hfits).mp hok
        exact display_of_spelled (hspelled (numbers_iff.mpr ⟨ns, hns⟩)) hlen hfits hns
    · have hpanics : tryFrom s = .panics := by
        rw [tryFrom, if_neg (not_not_intro hlen), HString.collect_eq, dif_neg hfits]
        rfl
      refine iff_of_false ?_ fun h => hfits (h hlen).1
      rw [ReadsSafely, hpanics]
      exact fun h => Outcome.not_settles_panics h.1
  · have hfail : tryFrom s = .fail "hwid should be exactly 35 chars".toList := by
      rw [tryFrom, if_pos hlen]
    refine iff_of_true ?_ fun h => absurd h hlen
    rw [ReadsSafely, hfail]
    exact ⟨Outcome.settles_fail _, fun h hok => absurd hok Outcome.fail_ne_ok⟩

/-- What is printed is read back. -/
theorem readsBack : ReadsBack := by
  intro h
  have hdigits (n : ℕ) : (Text.hexDigits 8 n).filter (· ≠ '-') = Text.hexDigits 8 n := by
    apply List.filter_eq_self.mpr
    intro c hc
    obtain ⟨d, hd, rfl⟩ := Text.digit_of_mem_hexDigits hc
    interval_cases d <;> decide
  have hparts : withoutDashes (display h) =
      Text.hexDigits 8 h.cfg0.toNat ++ (Text.hexDigits 8 h.cfg1.toNat ++
        (Text.hexDigits 8 h.mac0.toNat ++ Text.hexDigits 8 h.mac1.toNat)) := by
    have hdash (t : Text) : ('-' :: t).filter (· ≠ '-') = t.filter (· ≠ '-') := rfl
    simp only [withoutDashes, display, List.filter_append, hdash, hdigits]
  have hlen : (display h).byteLen = 35 := by
    have hdash : ('-').utf8Size = 1 := rfl
    simp only [display, Text.byteLen_append, Text.byteLen_cons, Text.byteLen_hexDigits, hdash]
  have hfits : (withoutDashes (display h)).byteLen ≤ 32 := by
    rw [hparts]
    simp only [Text.byteLen_append, Text.byteLen_hexDigits]
    omega
  have hgroup (groups : ℕ) (n : UInt32) (rest : Text) (ns : List UInt32)
      (hrest : readGroups groups rest = .ok ns) :
      readGroups (groups + 1) (Text.hexDigits 8 n.toNat ++ rest) = .ok (n :: ns) :=
    readGroups_succ_ok_iff.mpr ⟨_, rest, n, ns, rfl, Text.byteLen_hexDigits 8 _,
      Text.fromStrRadix16_hexDigits n, hrest, rfl⟩
  have hread : readGroups 4 (withoutDashes (display h)) =
      .ok [h.cfg0, h.cfg1, h.mac0, h.mac1] := by
    rw [hparts, ← List.append_nil (Text.hexDigits 8 h.mac1.toNat)]
    exact hgroup 3 _ _ _ (hgroup 2 _ _ _ (hgroup 1 _ _ _ (hgroup 0 _ _ _ rfl)))
  exact (tryFrom_eq_ok_iff hlen hfits).mpr ⟨_, hread, rfl⟩

/-- Identifiers are read back, and a text is read safely exactly if it is well cut. -/
theorem wellCut_iff (s : Text) : ReadsBack ∧ ReadsSafely s ↔ WellCut s := by
  rw [readsSafely_iff]
  exact and_iff_right readsBack

/-- Without dashes a text of 35 digits does not fit; with the dashes at its start a text is read. -/
theorem not_readsSafely :
  tryFrom "00000000000000000000000000000000000".toList = .panics ∧
    tryFrom "---00000000000000000000000000000000".toList = .ok ⟨0, 0, 0, 0⟩ ∧
    ¬ ∀ s, ReadsBack ∧ ReadsSafely s
  := by
  have hpanics : tryFrom "00000000000000000000000000000000000".toList = .panics := by
    decide +kernel
  refine ⟨hpanics, by decide +kernel, fun h => ?_⟩
  have hsettles := (h "00000000000000000000000000000000000".toList).2.1
  rw [hpanics] at hsettles
  exact Outcome.not_settles_panics hsettles

end Hwid
