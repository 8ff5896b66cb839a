import CatplayFirmware.Otalib.FileLines
import CatplayFirmware.Support.Runs
import CatplayFirmware.Support.Utf8
import Mathlib.Data.List.DropRight

/-!
# Loading modules on a system

The tables are read from `modules.dep` and `modules.builtin`, a line at a time, and a module is
loaded after everything that it depends on. What the files of a tree of modules are read as is the
tree, however the reads cut them; and in a run of `modprobe` no module is loaded before what it
depends on in the tree, whatever fails.
-/

namespace ModulesInfo

open Bytes

/-! ### The lines of the tables -/

def new : ModulesInfo := ⟨∅, ∅, ∅⟩

/-- The bytes before the first `.ko`, or all of them. -/
def beforeKo : Bytes → Bytes
  | [] => []
  | b :: rest => if (ascii ".ko").isPrefixOf (b :: rest) then [] else b :: beforeKo rest

/-- The name of a module: its file without the directory and without what begins with `.ko`. -/
def shortName (path : Bytes) : Text :=
  Utf8.fromUtf8Lossy (beforeKo (path.rtakeWhile (· ≠ byte '/')))

/-- One line of `modules.dep`: a path, a colon, and the paths it depends on. -/
def feedModulesDepLine (info : ModulesInfo) (line : Bytes) : ModulesInfo :=
  if byte ':' ∉ line then info
  else
    let modPath := line.takeWhile (· ≠ byte ':')
    let depsPart := line.drop (modPath.length + 1)
    let name := shortName modPath
    let words := (depsPart.splitOnP fun b => b = byte ' ' || b = byte '\t').filter (· ≠ [])
    { info with
      deps := info.deps.insert name ((words.map shortName).filter (· ≠ []))
      paths := info.paths.insert name (Utf8.fromUtf8Lossy modPath) }

/-- One line of `modules.builtin`: a path. -/
def feedModulesBuiltinLine (info : ModulesInfo) (line : Bytes) : ModulesInfo :=
  let name := shortName line
  if name = [] then info else { info with builtin := insert name info.builtin }

end ModulesInfo

namespace ModprobeUtil

open Bytes ModulesInfo

/-- The tables of a tree of modules. A tree without `modules.builtin` has nothing built in. -/
def loadModulesInfo (sys : System) (openReadonly : Text → Option Reads) (modulesRoot : Text) :
    Except ModprobeError ModulesInfo := do
  let depPath ← joinPath 320 modulesRoot "modules.dep".toList
  let builtinPath ← joinPath 320 modulesRoot "modules.builtin".toList
  let (result, info) := forEachFileLine feedModulesDepLine openReadonly depPath.text .new
  result
  if ← pathExists sys builtinPath.text then
    let (result, info) := forEachFileLine feedModulesBuiltinLine openReadonly builtinPath.text info
    result
    return info
  return info

/-- The system with its tables read from files. -/
def System.withFiles (sys : System) (openReadonly : Text → Option Reads) : System :=
  { sys with loadModulesInfo := ModprobeUtil.loadModulesInfo sys openReadonly }

/-! ### The files of a tree of modules -/

/-- The file of a module: its directory, its name, and what stands behind `.ko`. -/
structure ModuleFile where
  dir : Text
  name : Text
  suffix : Text
  dir_end : dir = [] ∨ dir.getLast? = some '/'
  name_ne : name ≠ []
  name_stem : ¬ ['.', 'k', 'o'] <:+: name ∧ '/' ∉ name
  suffix_end : '/' ∉ suffix
  plain : ∀ c ∈ [':', ' ', '\t', '\n', '\r'], c ∉ dir ∧ c ∉ name ∧ c ∉ suffix

/-- The path of a module below the root of the tree. -/
def ModuleFile.path (file : ModuleFile) : Text :=
  file.dir ++ (file.name ++ ('.' :: 'k' :: 'o' :: file.suffix))

/-- A module with what it depends on. -/
structure TreeEntry where
  file : ModuleFile
  deps : List ModuleFile

/-- The modules of a kernel, and those that are built in. -/
structure Tree where
  entries : List TreeEntry
  builtin : List ModuleFile

/-- The line of an entry in `modules.dep`. -/
def TreeEntry.line (entry : TreeEntry) : Bytes :=
  Utf8.encode entry.file.path ++
    byte ':' :: entry.deps.flatMap fun file => byte ' ' :: Utf8.encode file.path

/-- Lines, each with a newline behind it. -/
def closed (lines : List Bytes) : Bytes := lines.flatMap (· ++ [byte '\n'])

namespace Tree

def modulesDep (tree : Tree) : List Bytes := tree.entries.map TreeEntry.line

def modulesBuiltin (tree : Tree) : List Bytes :=
  tree.builtin.map fun file => Utf8.encode file.path

/-- The entry that counts for a name: the last one. -/
def entryOf (tree : Tree) (name : Text) : Option TreeEntry :=
  tree.entries.reverse.find? fun entry => entry.file.name = name

/-- A module that is part of the kernel. -/
def IsBuiltin (tree : Tree) (name : Text) : Prop := name ∈ tree.builtin.map ModuleFile.name

/-- A module depends on another, and neither is built in. -/
def Needs (tree : Tree) (a b : Text) : Prop :=
  ¬ tree.IsBuiltin a ∧ ¬ tree.IsBuiltin b ∧
    ∃ entry, tree.entryOf a = some entry ∧ b ∈ entry.deps.map ModuleFile.name

/-- The tables say what the tree says. -/
structure ReadAs (tree : Tree) (info : ModulesInfo) : Prop where
  deps : ∀ name, info.depsOf name =
    (tree.entryOf name).map fun entry => entry.deps.map ModuleFile.name
  path : ∀ name, info.resolvePath name = (tree.entryOf name).map fun entry => entry.file.path
  builtin : ∀ name, info.isBuiltin name = true ↔ tree.IsBuiltin name

end Tree

/-! ### Names -/

/-- The first `.ko` behind bytes that have none is the one that begins there. -/
theorem beforeKo_append {stem : Bytes} (hstem : ¬ ascii ".ko" <:+: stem) (rest : Bytes) :
  beforeKo (stem ++ (ascii ".ko" ++ rest)) = stem
  := by
  induction stem with
  | nil => rfl
  | cons b stem ih =>
      have hprefix : ¬ ascii ".ko" <+: b :: (stem ++ (ascii ".ko" ++ rest)) := by
        intro h
        rcases stem with _ | ⟨c, _ | ⟨d, stem⟩⟩
        · exact absurd (List.cons_prefix_cons.mp (List.cons_prefix_cons.mp h).2).1 (by decide)
        · have hbehind := (List.cons_prefix_cons.mp (List.cons_prefix_cons.mp h).2).2
          exact absurd (List.cons_prefix_cons.mp hbehind).1 (by decide)
        · apply hstem
          apply List.IsPrefix.isInfix
          apply List.prefix_of_prefix_length_le h ⟨ascii ".ko" ++ rest, rfl⟩
          exact Nat.le_add_left 3 stem.length
      have hstem : ¬ ascii ".ko" <:+: stem := fun h => hstem (List.infix_cons h)
      rw [List.cons_append, beforeKo, if_neg (by rwa [List.isPrefixOf_iff_prefix]), ih hstem]

/-- Bytes up to a separator that they do not contain. -/
theorem decide_ne_of_notMem {c : UInt8} {bs : Bytes} (h : c ∉ bs) :
  ∀ b ∈ bs, decide (b ≠ c) = true
  := by
  intro b hb
  rw [decide_eq_true_eq]
  rintro rfl
  exact h hb

/-- What stands behind the last separator. -/
theorem rtakeWhile_append {dir : Bytes} (hdir : dir = [] ∨ dir.getLast? = some (byte '/'))
    {rest : Bytes} (hrest : byte '/' ∉ rest) :
  (dir ++ rest).rtakeWhile (· ≠ byte '/') = rest
  := by
  have hrest : byte '/' ∉ rest.reverse := by rwa [List.mem_reverse]
  rw [List.rtakeWhile, List.reverse_append,
    List.takeWhile_append_of_pos (decide_ne_of_notMem hrest)]
  have hend : dir.reverse.takeWhile (fun b => decide (b ≠ byte '/')) = [] := by
    rcases hdir with rfl | hlast
    · rfl
    · obtain ⟨front, rfl⟩ := List.getLast?_eq_some_iff.mp hlast
      rw [List.reverse_append, List.reverse_singleton, List.singleton_append,
        List.takeWhile_cons_of_neg (by simp)]
  rw [hend, List.append_nil, List.reverse_reverse]

/-- The bytes of a path, part by part. -/
theorem encode_path (file : ModuleFile) :
  Utf8.encode file.path =
    Utf8.encode file.dir ++ (Utf8.encode file.name ++ (ascii ".ko" ++ Utf8.encode file.suffix))
  := by
  rw [ModuleFile.path, Utf8.encode_append, Utf8.encode_append, Utf8.encode_cons, Utf8.encode_cons,
    Utf8.encode_cons]
  rfl

/-- An ASCII character that a text does not have is not a byte of it either. -/
theorem byte_notMem_encode {c : Char} (hc : c.toNat < 128) {t : Text} (h : c ∉ t) :
  byte c ∉ Utf8.encode t
  := fun hmem => h (Utf8.mem_of_byte_mem_encode hc hmem)

/-- The bytes that separate things in the files do not stand in a path. -/
theorem notMem_encode_path (file : ModuleFile) {c : Char} (hc : c ∈ [':', ' ', '\t', '\n', '\r']) :
  byte c ∉ Utf8.encode file.path
  := by
  obtain ⟨hdir, hname, hsuffix⟩ := file.plain c hc
  have hbounds : c.toNat < 128 ∧ c ∉ ['.', 'k', 'o'] := by
    simp only [List.mem_cons, List.not_mem_nil, or_false] at hc
    rcases hc with rfl | rfl | rfl | rfl | rfl <;> decide
  apply byte_notMem_encode hbounds.1
  rw [ModuleFile.path]
  have := hbounds.2
  simp only [List.mem_append, List.mem_cons, List.not_mem_nil, or_false, not_or] at this ⊢
  exact ⟨hdir, hname, this.1, this.2.1, this.2.2, hsuffix⟩

/-- The name of a module is read back from its path. -/
theorem shortName_path (file : ModuleFile) : shortName (Utf8.encode file.path) = file.name := by
  have hdir : Utf8.encode file.dir = [] ∨ (Utf8.encode file.dir).getLast? = some (byte '/') := by
    rcases file.dir_end with hdir | hdir
    · left
      rw [hdir, Utf8.encode_nil]
    · right
      obtain ⟨front, hfront⟩ := List.getLast?_eq_some_iff.mp hdir
      rw [hfront, Utf8.encode_append]
      exact List.getLast?_concat
  have hrest : byte '/' ∉
      Utf8.encode file.name ++ (ascii ".ko" ++ Utf8.encode file.suffix) := by
    have hname := byte_notMem_encode (by decide) file.name_stem.2
    have hsuffix := byte_notMem_encode (by decide) file.suffix_end
    rw [List.mem_append, List.mem_append, not_or, not_or]
    exact ⟨hname, by decide, hsuffix⟩
  have hstem : ¬ ascii ".ko" <:+: Utf8.encode file.name :=
    fun h => file.name_stem.1 (Utf8.infix_of_encode_infix (by decide) h)
  rw [shortName, encode_path, rtakeWhile_append hdir hrest, beforeKo_append hstem,
    Utf8.fromUtf8Lossy_encode]

/-- No path is empty. -/
theorem encode_path_ne (file : ModuleFile) : Utf8.encode file.path ≠ [] := by
  intro h
  apply file.name_ne
  rw [← shortName_path file, h]
  exact Utf8.fromUtf8Lossy_encode []

/-! ### What a line adds -/

/-- Words with a blank before each. -/
theorem words_eq (files : List ModuleFile) :
  ((files.flatMap fun file => byte ' ' :: Utf8.encode file.path).splitOnP
      fun b => b = byte ' ' || b = byte '\t') =
    [] :: files.map fun file => Utf8.encode file.path
  := by
  suffices h : ∀ front : Bytes, (∀ b ∈ front, (b = byte ' ' || b = byte '\t') = false) →
      ((front ++ files.flatMap fun file => byte ' ' :: Utf8.encode file.path).splitOnP
        fun b => b = byte ' ' || b = byte '\t') =
        front :: files.map fun file => Utf8.encode file.path by
    exact h [] (by simp)
  induction files with
  | nil =>
      intro front hfront
      rw [List.flatMap_nil, List.append_nil, List.splitOnP_eq_singleton hfront, List.map_nil]
  | cons file files ih =>
      intro front hfront
      have hpath : ∀ b ∈ Utf8.encode file.path, (b = byte ' ' || b = byte '\t') = false := by
        intro b hb
        rw [Bool.or_eq_false_iff, decide_eq_false_iff_not, decide_eq_false_iff_not]
        constructor
        · rintro rfl
          exact notMem_encode_path file (by simp) hb
        · rintro rfl
          exact notMem_encode_path file (by simp) hb
      rw [List.flatMap_cons, List.cons_append,
        List.splitOnP_append_cons_of_forall_mem hfront _ rfl, ih _ hpath, List.map_cons]

/-- The path of an entry stands before the colon. -/
theorem takeWhile_line (entry : TreeEntry) :
  entry.line.takeWhile (· ≠ byte ':') = Utf8.encode entry.file.path
  := by
  have hpath : byte ':' ∉ Utf8.encode entry.file.path := notMem_encode_path _ (by simp)
  rw [TreeEntry.line, List.takeWhile_append_of_pos (decide_ne_of_notMem hpath),
    List.takeWhile_cons_of_neg (by simp), List.append_nil]

/-- What stands behind the colon. -/
theorem drop_line (entry : TreeEntry) :
  entry.line.drop ((Utf8.encode entry.file.path).length + 1) =
    entry.deps.flatMap fun file => byte ' ' :: Utf8.encode file.path
  := by rw [TreeEntry.line, ← List.drop_drop, List.drop_left, List.drop_one, List.tail_cons]

/-- The names in what stands behind the colon. -/
theorem names_words (files : List ModuleFile) :
  (((([] : Bytes) :: files.map fun file => Utf8.encode file.path).filter (· ≠ [])).map
      shortName).filter (· ≠ []) =
    files.map ModuleFile.name
  := by
  have hwords : (([] : Bytes) :: files.map fun file => Utf8.encode file.path).filter (· ≠ []) =
      files.map fun file => Utf8.encode file.path := by
    rw [List.filter_cons_of_neg (by simp), List.filter_eq_self]
    intro word hword
    obtain ⟨file, -, rfl⟩ := List.mem_map.mp hword
    rw [decide_eq_true_eq]
    exact encode_path_ne file
  have hshort : (shortName ∘ fun file : ModuleFile => Utf8.encode file.path) =
      ModuleFile.name := funext shortName_path
  rw [hwords, List.map_map, hshort, List.filter_eq_self]
  intro name hname
  obtain ⟨file, -, rfl⟩ := List.mem_map.mp hname
  rw [decide_eq_true_eq]
  exact file.name_ne

/-- A line adds its entry, over an entry of the same name. -/
theorem feedModulesDepLine_line (info : ModulesInfo) (entry : TreeEntry) :
  feedModulesDepLine info entry.line =
    { info with
      deps := info.deps.insert entry.file.name (entry.deps.map ModuleFile.name)
      paths := info.paths.insert entry.file.name entry.file.path }
  := by
  have hcolon : byte ':' ∈ entry.line := by
    rw [TreeEntry.line, List.mem_append]
    right
    apply List.mem_cons_self
  rw [feedModulesDepLine, if_neg (not_not.mpr hcolon)]
  simp only [takeWhile_line, drop_line, words_eq, names_words, shortName_path,
    Utf8.fromUtf8Lossy_encode]

/-- A path adds its name to the modules that are built in. -/
theorem feedModulesBuiltinLine_path (info : ModulesInfo) (file : ModuleFile) :
  feedModulesBuiltinLine info (Utf8.encode file.path) =
    { info with builtin := insert file.name info.builtin }
  := by
  rw [feedModulesBuiltinLine, shortName_path, if_neg file.name_ne]

/-! ### What the files are read as -/

/-- The lines of `modules.dep`. The induction takes the last line off, since the last entry of a
name counts. -/
theorem readAs_deps (entries : List TreeEntry) :
  Tree.ReadAs ⟨entries, []⟩ ((entries.map TreeEntry.line).foldl feedModulesDepLine .new)
  := by
  induction entries using List.reverseRecOn with
  | nil =>
      constructor
      case deps => exact fun _ => rfl
      case path => exact fun _ => rfl
      case builtin => exact fun _ => by simp [Tree.IsBuiltin, isBuiltin, ModulesInfo.new]
  | append_singleton entries entry ih =>
      have hentry (name : Text) : Tree.entryOf ⟨entries ++ [entry], []⟩ name =
          if entry.file.name = name then some entry else Tree.entryOf ⟨entries, []⟩ name := by
        rw [Tree.entryOf, List.reverse_append, List.reverse_singleton, List.singleton_append,
          List.find?_cons]
        by_cases h : entry.file.name = name <;> simp [h, Tree.entryOf]
      rw [List.map_append, List.foldl_append, List.map_singleton, List.foldl_cons, List.foldl_nil,
        feedModulesDepLine_line]
      constructor
      case deps =>
        intro name
        rw [hentry, depsOf]
        split
        · next h =>
            subst h
            exact AList.lookup_insert _
        · next h =>
            rw [AList.lookup_insert_ne (Ne.symm h)]
            exact ih.deps name
      case path =>
        intro name
        rw [hentry, resolvePath]
        split
        · next h =>
            subst h
            exact AList.lookup_insert _
        · next h =>
            rw [AList.lookup_insert_ne (Ne.symm h)]
            exact ih.path name
      case builtin => exact ih.builtin

/-- The lines of `modules.builtin` change nothing in the other tables. -/
theorem readAs_builtin {entries : List TreeEntry} {info : ModulesInfo}
    (h : Tree.ReadAs ⟨entries, []⟩ info) (builtin : List ModuleFile) :
  Tree.ReadAs ⟨entries, builtin⟩
    ((builtin.map fun file => Utf8.encode file.path).foldl feedModulesBuiltinLine info)
  := by
  induction builtin using List.reverseRecOn with
  | nil => exact h
  | append_singleton builtin file ih =>
      rw [List.map_append, List.foldl_append, List.map_singleton, List.foldl_cons, List.foldl_nil,
        feedModulesBuiltinLine_path]
      constructor
      case deps => exact ih.deps
      case path => exact ih.path
      case builtin =>
        intro name
        have hname := ih.builtin name
        rw [isBuiltin, decide_eq_true_eq, Tree.IsBuiltin] at hname ⊢
        rw [Finset.mem_insert, hname, List.map_append, List.mem_append, List.map_singleton,
          List.mem_singleton, or_comm]

/-- Closed lines are the pieces of the file, with nothing behind the last newline. -/
theorem pieces_closed {lines : List Bytes} (h : ∀ line ∈ lines, byte '\n' ∉ line) :
  pieces (closed lines) = lines ++ [[]]
  := by
  induction lines with
  | nil => rfl
  | cons line lines ih =>
      obtain ⟨hline, hlines⟩ := List.forall_mem_cons.mp h
      rw [closed, List.flatMap_cons, List.append_assoc, List.singleton_append,
        pieces_newline hline, ← closed, ih hlines, List.cons_append]

theorem linesOf_concat_nil (lines : List Bytes) : linesOf (lines ++ [[]]) = lines.map stripCr := by
  induction lines with
  | nil => rfl
  | cons line lines ih => rw [List.cons_append, linesOf_cons line (by simp), ih, List.map_cons]

/-- A line without a carriage return is kept. -/
theorem stripCr_of_notMem {line : Bytes} (h : byte '\r' ∉ line) : stripCr line = line := by
  rw [stripCr, if_neg]
  exact fun hlast => h (List.mem_of_getLast? hlast)

/-- A file holds lines, however the reads cut it, and each fits the buffer. -/
def Holds (openReadonly : Text → Option Reads) (path : Text) (lines : List Bytes) : Prop :=
  (∀ line ∈ lines, line.length ≤ lineCap) ∧
  ∃ chunks : List Bytes, openReadonly path = some (chunks.map some) ∧
    (∀ chunk ∈ chunks, chunk ≠ []) ∧ chunks.flatten = closed lines

/-- A file with plain lines is read a line at a time, however the reads cut it. -/
theorem forEachFileLine_holds {σ : Type*} {f : σ → Bytes → σ}
    {openReadonly : Text → Option Reads} {path : Text} {lines : List Bytes}
    (h : Holds openReadonly path lines)
    (hplain : ∀ line ∈ lines, byte '\n' ∉ line ∧ byte '\r' ∉ line) (state : σ) :
  forEachFileLine f openReadonly path state = (.ok (), lines.foldl f state)
  := by
  obtain ⟨hfits, chunks, hopen, hchunks, hcontent⟩ := h
  have hpieces : pieces (closed lines) = lines ++ [[]] :=
    pieces_closed fun line hline => (hplain line hline).1
  have hstrip : lines.map stripCr = lines := by
    rw [List.map_congr_left fun line hline => stripCr_of_notMem (hplain line hline).2, List.map_id']
  have hall : ∀ piece ∈ pieces ([] ++ closed lines), piece.length ≤ lineCap := by
    rw [List.nil_append, hpieces]
    intro piece hpiece
    rcases List.mem_append.mp hpiece with hpiece | hpiece
    · exact hfits piece hpiece
    · rw [List.mem_singleton.mp hpiece]
      exact Nat.zero_le _
  obtain ⟨st, hst, hlast⟩ := foldlM_feedByte_ok (f := f) List.not_mem_nil hall state
  rw [List.nil_append, hpieces, linesOf_concat_nil, hstrip] at hlast
  rw [forEachFileLine_chunks hopen hchunks, hcontent, hst, ← hlast]

/-- No path puts a line break into `modules.dep`. -/
theorem plain_modulesDep (tree : Tree) :
  ∀ line ∈ tree.modulesDep, byte '\n' ∉ line ∧ byte '\r' ∉ line
  := by
  intro line hline
  obtain ⟨entry, -, rfl⟩ := List.mem_map.mp hline
  have hnotMem : ∀ c ∈ ['\n', '\r'], byte c ∉ entry.line := by
    intro c hc
    have hmem : c ∈ [':', ' ', '\t', '\n', '\r'] := by
      simp only [List.mem_cons, List.not_mem_nil, or_false] at hc ⊢
      simp only [hc, or_true]
    have hne : byte c ≠ byte ':' ∧ byte c ≠ byte ' ' := by
      simp only [List.mem_cons, List.not_mem_nil, or_false] at hc
      rcases hc with rfl | rfl <;> decide
    rw [TreeEntry.line, List.mem_append, List.mem_cons, List.mem_flatMap]
    rintro (hpath | hcolon | ⟨file, -, hfile⟩)
    · exact notMem_encode_path _ hmem hpath
    · exact hne.1 hcolon
    · rcases List.mem_cons.mp hfile with hblank | hpath
      · exact hne.2 hblank
      · exact notMem_encode_path _ hmem hpath
  exact ⟨hnotMem '\n' (by simp), hnotMem '\r' (by simp)⟩

/-- No path puts a line break into `modules.builtin`. -/
theorem plain_modulesBuiltin (tree : Tree) :
  ∀ line ∈ tree.modulesBuiltin, byte '\n' ∉ line ∧ byte '\r' ∉ line
  := by
  intro line hline
  obtain ⟨file, -, rfl⟩ := List.mem_map.mp hline
  exact ⟨notMem_encode_path file (by simp), notMem_encode_path file (by simp)⟩

/-- The files of a tree stand in a directory. There need be none for the modules that are built in
if there are no such modules. -/
structure Tree.OnDisk (tree : Tree) (sys : System) (openReadonly : Text → Option Reads)
    (modulesRoot : Text) : Prop where
  dep : ∀ path, joinPath 320 modulesRoot "modules.dep".toList = .ok path →
    Holds openReadonly path.text tree.modulesDep
  builtin : ∀ path, joinPath 320 modulesRoot "modules.builtin".toList = .ok path →
    sys.access path.text = true ∧ Holds openReadonly path.text tree.modulesBuiltin ∨
    sys.access path.text = false ∧ tree.builtin = []

def crcFile : ModuleFile where
  dir := "kernel/".toList
  name := "crc7".toList
  suffix := []
  dir_end := .inr rfl
  name_ne := List.cons_ne_nil _ _
  name_stem := by decide
  suffix_end := List.not_mem_nil
  plain := by decide

def mulFile : ModuleFile where
  dir := "kernel/".toList
  name := "gf128mul".toList
  suffix := []
  dir_end := .inr rfl
  name_ne := List.cons_ne_nil _ _
  name_stem := by decide
  suffix_end := List.not_mem_nil
  plain := by decide

/-- One module depends on another. -/
def smallTree : Tree := ⟨[⟨crcFile, []⟩, ⟨mulFile, [crcFile]⟩], []⟩

/-- A system with a table of what depends on what, but none of what is built in. -/
def smallSystem : System where
  uname := .ok (some "6.1".toList)
  access path := decide (path ≠ "/lib/modules/6.1/modules.builtin".toList)
  loadModulesInfo _ := .ok .new

/-- The files of the tree, and those of its modules. -/
def smallFiles (path : Text) : Option Reads :=
  if path = "/lib/modules/6.1/modules.dep".toList then some [some (closed smallTree.modulesDep)]
  else if path = "/lib/modules/6.1/modules.builtin".toList then none
  else some []

/-- The small tree is on the disk of the small system. -/
theorem onDisk_small : smallTree.OnDisk smallSystem smallFiles "/lib/modules/6.1".toList := by
  have hjoin : (joinPath 320 "/lib/modules/6.1".toList "modules.dep".toList).map HString.text =
      .ok "/lib/modules/6.1/modules.dep".toList := by rfl
  have hjoin' : (joinPath 320 "/lib/modules/6.1".toList "modules.builtin".toList).map
      HString.text = .ok "/lib/modules/6.1/modules.builtin".toList := by rfl
  constructor
  case dep =>
    intro path hpath
    rw [hpath] at hjoin
    have htext : path.text = "/lib/modules/6.1/modules.dep".toList := Except.ok.inj hjoin
    rw [htext]
    refine ⟨by decide, [closed smallTree.modulesDep], if_pos rfl, ?_, List.append_nil _⟩
    intro chunk hchunk
    rw [List.mem_singleton.mp hchunk]
    decide
  case builtin =>
    intro path hpath
    rw [hpath] at hjoin'
    have htext : path.text = "/lib/modules/6.1/modules.builtin".toList := Except.ok.inj hjoin'
    right
    rw [htext]
    exact ⟨rfl, rfl⟩

section Load

variable {tree : Tree} {sys : System} {openReadonly : Text → Option Reads} {modulesRoot : Text}

/-- The tables are those of the lines, once the paths of the two files fit. -/
theorem loadModulesInfo_eq (h : tree.OnDisk sys openReadonly modulesRoot)
    {depPath builtinPath : HString 320}
    (hdep : joinPath 320 modulesRoot "modules.dep".toList = .ok depPath)
    (hbuiltin : joinPath 320 modulesRoot "modules.builtin".toList = .ok builtinPath)
    (hfits : builtinPath.text.byteLen + 1 ≤ 256) :
  loadModulesInfo sys openReadonly modulesRoot =
    .ok (tree.modulesBuiltin.foldl feedModulesBuiltinLine
      (tree.modulesDep.foldl feedModulesDepLine .new))
  := by
  have hlines := forEachFileLine_holds (f := feedModulesDepLine) (h.dep _ hdep)
    (plain_modulesDep tree) .new
  rw [loadModulesInfo, hdep, Except.ok_bind, hbuiltin, Except.ok_bind, hlines]
  dsimp only
  rw [Except.ok_bind, pathExists, if_pos hfits, Except.ok_bind]
  rcases h.builtin _ hbuiltin with ⟨haccess, hholds⟩ | ⟨haccess, hnone⟩
  · rw [haccess, if_pos rfl, forEachFileLine_holds hholds (plain_modulesBuiltin tree)]
    rfl
  · rw [haccess, if_neg Bool.false_ne_true, Tree.modulesBuiltin, hnone, List.map_nil,
      List.foldl_nil]
    rfl

/-- The lines of both files are read as the tree. -/
theorem readAs_lines (tree : Tree) :
  tree.ReadAs (tree.modulesBuiltin.foldl feedModulesBuiltinLine
    (tree.modulesDep.foldl feedModulesDepLine .new))
  := readAs_builtin (readAs_deps tree.entries) tree.builtin

/-- Paths that fit are joined. -/
theorem exists_joinPath {cap : ℕ} {base name : Text} (h : base.byteLen + 1 + name.byteLen ≤ cap) :
  ∃ path, joinPath cap base name = .ok path ∧
    path.text.byteLen ≤ base.byteLen + 1 + name.byteLen
  := by
  have hpush {out : HString cap} {s : Text} (hs : out.text.byteLen + s.byteLen ≤ cap) :
      ∃ out', out.pushStr s = some out' ∧ out'.text.byteLen = out.text.byteLen + s.byteLen := by
    obtain ⟨out', hout⟩ := Option.isSome_iff_exists.mp (HString.pushStr_isSome.mpr hs)
    refine ⟨out', hout, ?_⟩
    rw [HString.pushStr_text hout, Text.byteLen_append]
  have hnew : (HString.new : HString cap).text.byteLen = 0 := rfl
  have hslash : Text.byteLen ['/'] = 1 := rfl
  obtain ⟨out, hout, hlen⟩ := @hpush .new base (by omega)
  cases hend : base.endsWith '/' with
  | true =>
      obtain ⟨out', hout', hlen'⟩ := @hpush out name (by omega)
      refine ⟨out', ?_, by omega⟩
      simp only [joinPath, hout, hend, hout', if_true, Option.bind_eq_bind, Option.bind_some]
  | false =>
      obtain ⟨out', hout', hlen'⟩ := @hpush out ['/'] (by omega)
      obtain ⟨out'', hout'', hlen''⟩ := @hpush out' name (by omega)
      refine ⟨out'', ?_, by omega⟩
      simp only [joinPath, hout, hend, hout', hout'', Bool.false_eq_true, if_false,
        Option.bind_eq_bind, Option.bind_some]

/-- What the files of a tree are read as is the tree, however the reads cut them. -/
theorem loadModulesInfo_onDisk (h : tree.OnDisk sys openReadonly modulesRoot)
    (hroot : modulesRoot.byteLen ≤ 239) :
  ∃ info, loadModulesInfo sys openReadonly modulesRoot = .ok info ∧ tree.ReadAs info
  := by
  have hdep : Text.byteLen "modules.dep".toList = 11 := by decide
  have hbuiltin : Text.byteLen "modules.builtin".toList = 15 := by decide
  obtain ⟨depPath, hdepPath, -⟩ := @exists_joinPath 320 modulesRoot "modules.dep".toList (by omega)
  obtain ⟨builtinPath, hbuiltinPath, hlen⟩ :=
    @exists_joinPath 320 modulesRoot "modules.builtin".toList (by omega)
  exact ⟨_, loadModulesInfo_eq h hdepPath hbuiltinPath (by omega), readAs_lines tree⟩

theorem loadModulesInfo_onDisk_small :
  ∃ info, loadModulesInfo smallSystem smallFiles "/lib/modules/6.1".toList = .ok info ∧
    smallTree.ReadAs info
  := loadModulesInfo_onDisk onDisk_small (by decide)

/-- Tables that are loaded from the files of a tree say what the tree says. -/
theorem readAs_of_load (h : tree.OnDisk sys openReadonly modulesRoot) {info : ModulesInfo}
    (hload : loadModulesInfo sys openReadonly modulesRoot = .ok info) :
  tree.ReadAs info
  := by
  have hpaths := hload
  simp only [loadModulesInfo, Except.bind_eq_ok_iff] at hpaths
  obtain ⟨depPath, hdep, builtinPath, hbuiltin, -, -, exists', hexists, -⟩ := hpaths
  have hfits : builtinPath.text.byteLen + 1 ≤ 256 := by
    by_contra hlong
    rw [pathExists, if_neg hlong] at hexists
    cases hexists
  rw [loadModulesInfo_eq h hdep hbuiltin hfits] at hload
  cases hload
  exact readAs_lines tree

end Load

/-! ### Loading -/

/-- `to_cstring`: the text may have its NUL already, and has to fit with it. -/
def toCstring (cap : ℕ) (s : Text) : Except ModprobeError Text :=
  match CString.extendFromBytes cap s with
  | none => .error .pushStrFailed
  | some text => .ok text

/-- The kernel answers with it when a module is loaded already. -/
def eexist : ℤ := 17

/-- `finit_module`, where `finit` is what the system call returns for a path and parameters:
nothing, or an error number. -/
def finitModule (openReadonly : Text → Option Reads) (strerror : ℤ → Text)
    (finit : Text → Text → Option ℤ) (moduleName path params : Text) :
    Except ModprobeError Unit :=
  match openReadonly path with
  | none => .error (.moduleNotFound path)
  | some _ => do
    let paramsC ← toCstring 512 params
    match finit path paramsC with
    | none => return
    | some errno =>
      if errno = eexist then return
      throw (.moduleLoadFailed moduleName (strerror errno))

/-- The arguments of `modprobe_with_params`, with what the kernel returns, by the modules that are
loaded, the path and the parameters. -/
structure Request where
  module : Text
  params : Text
  finit : List Text → Text → Text → Option ℤ

/-- The modules that a call has loaded. One that the kernel refuses is the last. -/
def Outcome.accepted (o : Outcome) : List Text :=
  match o.result with
  | .error (.callback _) => (o.calls.map Prod.fst).dropLast
  | _ => o.calls.map Prod.fst

section Runs

variable (sys : System) (openReadonly : Text → Option Reads) (strerror : ℤ → Text)

/-- One request in a kernel that has some modules already. -/
def modprobeWithParams (loaded : List Text) (r : Request) : Outcome :=
  match normalizeModuleName r.module with
  | .error e => ⟨[], .error (.own e)⟩
  | .ok moduleName =>
    forEachDependencyModule (sys.withFiles openReadonly) r.module fun calls depName absPath =>
      finitModule openReadonly strerror (r.finit (loaded ++ calls.map Prod.fst)) depName absPath
        (if depName = moduleName.text then r.params else [])

/-- The modules that are loaded after a call, in the order in which they were. -/
def next (loaded : List Text) (r : Request) : List Text :=
  loaded ++ (modprobeWithParams sys openReadonly strerror loaded r).accepted

/-- The modules that a list of requests loads, in their order. -/
def run (requests : List Request) : List Text :=
  requests.foldl (next sys openReadonly strerror) []

end Runs

/-- What a load loop has loaded is a front of the order, and all of it when the loop succeeds. -/
theorem loadEach_accepted {info : ModulesInfo} {modulesRoot : Text} {f : Callback}
    {order : List Text} {calls : List (Text × Text)}
    (hb : ∀ x ∈ order, info.isBuiltin x = false) :
  ∃ front, front <+: order ∧
    (loadEach info modulesRoot f order calls).accepted = calls.map Prod.fst ++ front ∧
    ((loadEach info modulesRoot f order calls).result = .ok () → front = order)
  := by
  induction order generalizing calls with
  | nil => exact ⟨[], List.prefix_refl _, (List.append_nil _).symm, fun _ => rfl⟩
  | cons x order ih =>
      obtain ⟨hx, hb⟩ := List.forall_mem_cons.mp hb
      rw [loadEach, hx, if_neg Bool.false_ne_true]
      split
      · exact ⟨[], List.nil_prefix, (List.append_nil _).symm, fun h => by cases h⟩
      · next absPath hpath =>
          split
          · refine ⟨[], List.nil_prefix, ?_, fun h => by cases h⟩
            rw [Outcome.accepted, List.map_append, List.map_singleton, List.dropLast_concat,
              List.append_nil]
          · obtain ⟨front, hprefix, haccepted, hall⟩ := @ih (calls ++ [(x, absPath.text)]) hb
            refine ⟨x :: front, List.cons_prefix_cons.mpr ⟨rfl, hprefix⟩, ?_, ?_⟩
            · rw [haccepted, List.map_append, List.map_singleton, List.append_assoc,
                List.singleton_append]
            · intro hok
              rw [hall hok]

/-- There is nothing to load for a module that is built in, and else a load order. -/
theorem loadOrder_cases {info : ModulesInfo} {name : Text} {order : List Text}
    (h : loadOrder info name = .ok order) :
  info.isBuiltin name = true ∧ order = [] ∨
    info.isBuiltin name = false ∧ info.IsLoadOrder name order
  := by
  cases hb : info.isBuiltin name with
  | true =>
      left
      rw [loadOrder, hb, if_pos rfl] at h
      cases h
      exact ⟨rfl, rfl⟩
  | false =>
      right
      refine ⟨rfl, ?_⟩
      rw [loadOrder, hb, if_neg Bool.false_ne_true] at h
      split at h
      · cases h
      · split at h
        · cases h
        · cases h
        · split at h
          · cases h
          · cases h
          · next order' hr =>
              cases h
              rcases resolveLoadOrder_spec hr with ⟨⟨⟩, -⟩ | ⟨_, ⟨⟩, horder⟩
              exact horder

/-- What needs what is the same in the tables and in the tree. -/
theorem Tree.ReadAs.needs_iff {tree : Tree} {info : ModulesInfo} (h : tree.ReadAs info)
    (a b : Text) :
  info.Needs a b ↔ tree.Needs a b
  := by
  have hbuiltin (name : Text) : info.isBuiltin name = false ↔ ¬ tree.IsBuiltin name := by
    rw [← h.builtin name, Bool.not_eq_true]
  rw [ModulesInfo.Needs, Tree.Needs, hbuiltin, hbuiltin, needsOf, h.deps]
  cases hentry : tree.entryOf a <;> simp

section Runs

variable {tree : Tree} {sys : System} {openReadonly : Text → Option Reads}
  {strerror : ℤ → Text}

/-- A call loads modules in dependency order, and when it succeeds the module that is asked for is
built in, or all that it depends on has been loaded. -/
theorem modprobeWithParams_spec
    (hdisk : ∀ root, modulesRootDir sys = .ok root → tree.OnDisk sys openReadonly root.text)
    (loaded : List Text) (r : Request) :
  Dependency.Ordered tree.Needs (modprobeWithParams sys openReadonly strerror loaded r).accepted ∧
  ((modprobeWithParams sys openReadonly strerror loaded r).result = .ok () →
    ∀ name, normalizeModuleName r.module = .ok name → tree.IsBuiltin name.text ∨
      ∀ x, Relation.ReflTransGen tree.Needs name.text x →
        x ∈ (modprobeWithParams sys openReadonly strerror loaded r).accepted)
  := by
  rw [modprobeWithParams]
  cases hname : normalizeModuleName r.module with
  | error e => exact ⟨Dependency.Ordered.nil, fun h => by cases h⟩
  | ok name =>
      dsimp only
      rw [forEachDependencyModule]
      split
      · next stop hprep =>
          refine ⟨?_, fun h => by cases h⟩
          cases stop <;> exact Dependency.Ordered.nil
      · next info root order hprep =>
          obtain ⟨name', root', hloaded, rfl, horder⟩ := prepare_ok_iff.mp hprep
          have hsame := hloaded.name_eq
          rw [hname] at hsame
          cases hsame
          have hread : tree.ReadAs info :=
            readAs_of_load (hdisk root' hloaded.modulesRoot_eq) hloaded.info_eq
          rcases loadOrder_cases horder with ⟨hb, rfl⟩ | ⟨hb, hload⟩
          · refine ⟨Dependency.Ordered.nil, ?_⟩
            rintro - name ⟨⟩
            left
            exact (hread.builtin _).mp hb
          · obtain ⟨front, hprefix, haccepted, hall⟩ :=
              @loadEach_accepted info root'.text _ order [] hload.not_builtin
            rw [haccepted, List.map_nil, List.nil_append]
            constructor
            · intro early x late heq y hy
              have hneeds := (hread.needs_iff x y).mpr hy
              exact hload.ordered.of_prefix hprefix early x late heq y hneeds
            · rintro hok name ⟨⟩
              right
              intro x hx
              rw [hall hok, hload.mem_iff]
              exact ⟨hb, Relation.ReflTransGen.mono (fun a b => (hread.needs_iff a b).mpr) _ _ hx⟩

/-- Whatever modules are asked for and whatever the kernel answers, no module is loaded before what
it depends on in the tree; and what a call that succeeds was asked for is built in, or is loaded
with all that it depends on. -/
theorem run_loads
    (hdisk : ∀ root, modulesRootDir sys = .ok root → tree.OnDisk sys openReadonly root.text)
    (requests : List Request) :
  Dependency.Ordered tree.Needs (run sys openReadonly strerror requests) ∧
  ∀ front r back, requests = front ++ r :: back →
    (modprobeWithParams sys openReadonly strerror (run sys openReadonly strerror front) r).result =
      .ok () →
    ∀ name, normalizeModuleName r.module = .ok name → tree.IsBuiltin name.text ∨
      ∀ x, Relation.ReflTransGen tree.Needs name.text x →
        x ∈ run sys openReadonly strerror requests
  := by
  constructor
  · apply Runs.invariant_foldl _ Dependency.Ordered.nil
    intro loaded r hloaded
    exact hloaded.append (modprobeWithParams_spec hdisk loaded r).1
  · rintro front r back rfl hok name hname
    rcases (modprobeWithParams_spec hdisk _ r).2 hok name hname with hb | hall
    · left
      exact hb
    · right
      intro x hx
      rw [run, List.foldl_append, List.foldl_cons]
      -- what is loaded stays loaded
      apply Runs.invariant_foldl (P := (x ∈ ·))
      · intro loaded r hmem
        exact List.mem_append_left _ hmem
      · exact List.mem_append_right _ (hall x hx)

theorem modulesRootDir_small :
  ∃ root, modulesRootDir smallSystem = .ok root ∧ root.text = "/lib/modules/6.1".toList
  := by
  have hroot : (modulesRootDir smallSystem).map HString.text =
      .ok "/lib/modules/6.1".toList := by rfl
  exact Except.map_eq_ok_iff.mp hroot

theorem normalizeModuleName_small :
  ∃ name, normalizeModuleName "gf128mul".toList = .ok name ∧ name.text = "gf128mul".toList
  := by
  have hname : (normalizeModuleName "gf128mul".toList).map HString.text =
      .ok "gf128mul".toList := by rfl
  exact Except.map_eq_ok_iff.mp hname

theorem onDisk_root :
  ∀ root, modulesRootDir smallSystem = .ok root →
    smallTree.OnDisk smallSystem smallFiles root.text
  := by
  intro root h
  obtain ⟨root', hroot, htext⟩ := modulesRootDir_small
  obtain rfl := Except.ok.inj (h.symm.trans hroot)
  rw [htext]
  exact onDisk_small

/-- The tables of the small tree. -/
def smallInfo : ModulesInfo where
  deps := ((∅ : AList fun _ : Text => List Text).insert "crc7".toList []).insert
    "gf128mul".toList ["crc7".toList]
  builtin := ∅
  paths := ((∅ : AList fun _ : Text => Text).insert "crc7".toList "kernel/crc7.ko".toList).insert
    "gf128mul".toList "kernel/gf128mul.ko".toList

theorem loadModulesInfo_smallInfo :
  loadModulesInfo smallSystem smallFiles "/lib/modules/6.1".toList = .ok smallInfo
  := by
  obtain ⟨depPath, hdep, -⟩ := @exists_joinPath 320 "/lib/modules/6.1".toList
    "modules.dep".toList (by decide)
  obtain ⟨builtinPath, hbuiltin, hlen⟩ := @exists_joinPath 320 "/lib/modules/6.1".toList
    "modules.builtin".toList (by decide)
  have hfits : builtinPath.text.byteLen + 1 ≤ 256 := by
    have hbound : Text.byteLen "/lib/modules/6.1".toList + 1 +
        Text.byteLen "modules.builtin".toList < 256 := by decide
    omega
  rw [loadModulesInfo_eq onDisk_small hdep hbuiltin hfits]
  have hlines : smallTree.modulesDep =
      [TreeEntry.line ⟨crcFile, []⟩, TreeEntry.line ⟨mulFile, [crcFile]⟩] := rfl
  rw [hlines, List.foldl_cons, List.foldl_cons, List.foldl_nil, feedModulesDepLine_line,
    feedModulesDepLine_line]
  rfl

/-- The kernel refuses a module at first, and takes what it is given later. -/
def smallRequests : List Request :=
  [⟨"crc7".toList, [], fun _ _ _ => some 12⟩,
    ⟨"gf128mul".toList, "debug=1".toList, fun _ _ _ => none⟩]

theorem prepare_small :
  prepare (smallSystem.withFiles smallFiles) "gf128mul".toList =
    .ok (smallInfo, "/lib/modules/6.1".toList, ["crc7".toList, "gf128mul".toList])
  := by
  obtain ⟨name, hmodule, htext⟩ := normalizeModuleName_small
  obtain ⟨root, hdir, hpath⟩ := modulesRootDir_small
  have hinfo : (smallSystem.withFiles smallFiles).loadModulesInfo root.text = .ok smallInfo := by
    rw [hpath]
    exact loadModulesInfo_smallInfo
  refine prepare_ok_iff.mpr ⟨name, root, ⟨hmodule, hdir, hinfo⟩, hpath, ?_⟩
  rw [htext]
  decide +kernel

/-- A call succeeds when the kernel takes what it is given. -/
theorem modprobeWithParams_small (loaded : List Text) :
  (modprobeWithParams smallSystem smallFiles (fun _ => []) loaded
    ⟨"gf128mul".toList, "debug=1".toList, fun _ _ _ => none⟩).result = .ok ()
  := by
  obtain ⟨name, hmodule, htext⟩ := normalizeModuleName_small
  rw [modprobeWithParams, hmodule]
  change (forEachDependencyModule _ _ _).result = _
  rw [forEachDependencyModule, prepare_small, htext]
  dsimp only
  decide +kernel

theorem run_loads_small :
  Dependency.Ordered smallTree.Needs (run smallSystem smallFiles (fun _ => []) smallRequests) ∧
  ∀ x, Relation.ReflTransGen smallTree.Needs "gf128mul".toList x →
    x ∈ run smallSystem smallFiles (fun _ => []) smallRequests
  := by
  have hloads := @run_loads _ _ _ (fun _ => []) onDisk_root smallRequests
  refine ⟨hloads.1, ?_⟩
  obtain ⟨name, hmodule, htext⟩ := normalizeModuleName_small
  rcases hloads.2 [_] _ [] rfl (modprobeWithParams_small _) name hmodule with hbuiltin | hall
  · cases hbuiltin
  · rwa [htext] at hall

end Runs

end ModprobeUtil
