import CatplayFirmware.Support.Bytes
import Mathlib.Data.Int.Notation
import Mathlib.Data.List.TakeWhile
import Mathlib.Data.Option.Basic

/-!
# The copy of a directory

Without an overlay the start of the system copies `/etc` file by file. The copy returns 0 also when
it has left something out: sockets and device nodes are passed over, and an error of `readdir` is
taken for the end of a directory. A regular file gets its owner after its mode, which takes its
set-user-ID and set-group-ID bits away.
-/

namespace C2aOverlayInit

open Bytes

/-! ### Trees -/

abbrev Name := Bytes

abbrev Path := List Name

/-- The bits of a mode below `07777`, and the owner. -/
structure Stat where
  mode : BitVec 12
  uid : ℕ
  gid : ℕ
  deriving DecidableEq

/-- `PATH_MAX`. -/
def pathMax : ℕ := 4096

/-- What a symbolic link points to: a path with its NUL fits into `PATH_MAX` bytes. -/
structure LinkTarget where
  bytes : Bytes
  length_lt : bytes.length < pathMax
  nul_notMem : 0 ∉ bytes

/-- A file. The entries of a directory are in the order in which `readdir` gives them, which passes
over `.` and `..`. -/
inductive Node where
  | regular (st : Stat) (content : Bytes)
  | directory (st : Stat) (entries : List (Name × Node))
  | symlink (uid gid : ℕ) (target : LinkTarget)
  | fifo (st : Stat)
  | socket (st : Stat)
  | device (st : Stat) (block : Bool) (rdev : ℕ)

abbrev Entries := List (Name × Node)

/-! ### The system -/

inductive Errno where
  | eintr
  | eperm
  | eexist
  | eopnotsupp
  | other (code : ℕ)
  deriving DecidableEq

/-- The calls that are made at most once for a path. -/
inductive Syscall where
  | openSource
  | openTarget
  | fdopendir
  | fstatat
  | closedir
  | openIn
  | openOut
  | fchmod
  | fchown
  | readlinkat
  | symlinkat
  | mkdirat
  | mkfifoat
  | fchmodat
  | fchownat
  deriving DecidableEq

/-- What a call of `read` or `write` answers: how many bytes it is ready to move, or an error. -/
inductive Transfer where
  | ready (n : ℕ)
  | failed (errno : Errno)

/-- The system that the copy runs on, as root: no change of an owner is refused, and no change of a
mode is unsupported. -/
structure Linux where
  umask : BitVec 12
  /-- The mode of a FIFO after a change of its owner. -/
  chownFifo : BitVec 12 → BitVec 12
  fails : Syscall → Path → Option Errno
  readdirFails : Path → (call : ℕ) → Bool
  read : Path → (call : ℕ) → Transfer
  write : Path → (call : ℕ) → Transfer
  fchown_ne : ∀ path, fails .fchown path ≠ some .eperm
  fchownat_ne : ∀ path, fails .fchownat path ≠ some .eperm
  fchmodat_ne : ∀ path, fails .fchmodat path ≠ some .eopnotsupp

/-- The set-user-ID and set-group-ID bits. -/
def setIdBits : BitVec 12 := 0o6000

/-- The mode of a regular file after a change of its owner. -/
def chownRegular (mode : BitVec 12) : BitVec 12 := mode &&& ~~~setIdBits

/-- What a new file has. -/
def Linux.created (sys : Linux) (mode : BitVec 12) : Stat := ⟨mode &&& ~~~sys.umask, 0, 0⟩

/-! ### The copy -/

/-- `copy_metadata` of a file that is not a symbolic link, with what the file in the target has
then; `chown` is what a change of the owner does to its mode. -/
def copyMetadata (sys : Linux) (path : Path) (chown : BitVec 12 → BitVec 12) (st made : Stat) :
    ℤ × Stat :=
  let chmodErrno := sys.fails .fchmodat path
  if chmodErrno ≠ none ∧ chmodErrno ≠ some .eopnotsupp then (-1, made)
  else
    let made := if chmodErrno = none then { made with mode := st.mode } else made
    let chownErrno := sys.fails .fchownat path
    let made := if chownErrno = none then ⟨chown made.mode, st.uid, st.gid⟩ else made
    if chownErrno ≠ none ∧ chownErrno ≠ some .eperm then (-1, made) else (0, made)

/-- The inner loop of `copy_regular`, from the call `call` of `write` on, with what is left of the
buffer and what has been written. -/
def writeAll (write : ℕ → Transfer) : (fuel call : ℕ) → (buf out : Bytes) → Option (ℤ × ℕ × Bytes)
  | _, call, [], out => some (0, call, out)
  | 0, _, _ :: _, _ => none
  | fuel + 1, call, b :: buf, out =>
    match write call with
    | .failed .eintr => writeAll write fuel (call + 1) (b :: buf) out
    | .failed _ => some (-1, call + 1, out)
    | .ready n =>
      writeAll write fuel (call + 1) ((b :: buf).drop n) (out ++ (b :: buf).take n)

def bufSize : ℕ := 16384

/-- The outer loop of `copy_regular`, with what is left of the source. A call of `read` moves at
least one byte before the end. -/
def copyData (read write : ℕ → Transfer) : (fuel readCall writeCall : ℕ) → (rest out : Bytes) →
    Option (ℤ × Bytes)
  | 0, _, _, _, _ => none
  | fuel + 1, readCall, writeCall, rest, out =>
    match read readCall with
    | .failed .eintr => copyData read write fuel (readCall + 1) writeCall rest out
    | .failed _ => some (-1, out)
    | .ready n =>
      let buf := rest.take (min (max n 1) bufSize)
      if buf = [] then some (0, out)
      else
        match writeAll write fuel writeCall buf out with
        | none => none
        | some (result, writeCall, out) =>
          if result ≠ 0 then some (-1, out)
          else copyData read write fuel (readCall + 1) writeCall (rest.drop buf.length) out

/-- `copy_regular`, with what is then in the target. -/
def copyRegular (sys : Linux) (fuel : ℕ) (path : Path) (st : Stat) (content : Bytes) :
    Option (ℤ × Option Node) :=
  if sys.fails .openIn path ≠ none then some (-1, none)
  else if sys.fails .openOut path ≠ none then some (-1, none)
  else
    match copyData (sys.read path) (sys.write path) fuel 0 0 content [] with
    | none => none
    | some (result, out) =>
      let made := sys.created st.mode
      let chmodErrno := sys.fails .fchmod path
      let result := if chmodErrno ≠ none then -1 else result
      let made := if chmodErrno = none then { made with mode := st.mode } else made
      let chownErrno := sys.fails .fchown path
      let result := if chownErrno ≠ none ∧ chownErrno ≠ some .eperm then -1 else result
      let made := if chownErrno = none then ⟨chownRegular made.mode, st.uid, st.gid⟩ else made
      some (result, some (.regular made out))

/-- What `readlinkat` puts into the buffer, up to the NUL behind it. -/
def readlinkat (target : LinkTarget) : LinkTarget where
  bytes := (target.bytes.take (pathMax - 1)).takeWhile (· ≠ 0)
  length_lt := by
    have hwhile := (List.takeWhile_prefix (· ≠ 0) (l := target.bytes.take (pathMax - 1))).length_le
    have htake := List.length_take_le (pathMax - 1) target.bytes
    have hmax : pathMax - 1 < pathMax := by decide
    omega
  nul_notMem h := by
    have hne := List.mem_takeWhile_imp h
    revert hne
    decide

/-- The branch of `copy_node` for symbolic links. -/
def copySymlink (sys : Linux) (path : Path) (uid gid : ℕ) (target : LinkTarget) : ℤ × Option Node :=
  if sys.fails .readlinkat path ≠ none then (-1, none)
  else if sys.fails .symlinkat path ≠ none then (-1, none)
  else
    let target := readlinkat target
    match sys.fails .fchownat path with
    | none => (0, some (.symlink uid gid target))
    | some errno => (if errno ≠ .eperm then -1 else 0, some (.symlink 0 0 target))

/-- The branch of `copy_node` for FIFOs. -/
def copyFifo (sys : Linux) (path : Path) (st : Stat) : ℤ × Option Node :=
  if sys.fails .mkfifoat path ≠ none then (-1, none)
  else
    let (result, made) := copyMetadata sys path sys.chownFifo st (sys.created st.mode)
    (result, some (.fifo made))

/-- `copy_directory` around its loop. -/
def withDirectory (sys : Linux) (path : Path) (loop : Option (ℤ × Entries)) :
    Option (ℤ × Entries) :=
  if sys.fails .fdopendir path ≠ none then some (-1, [])
  else
    match loop with
    | none => none
    | some (result, copied) =>
      some (if sys.fails .closedir path ≠ none then -1 else result, copied)

mutual

/-- `copy_node`, with what is then in the target, where the name is not in use before. -/
def copyNode (sys : Linux) (fuel : ℕ) (path : Path) : Node → Option (ℤ × Option Node)
  | .regular st content => copyRegular sys fuel path st content
  | .symlink uid gid target => some (copySymlink sys path uid gid target)
  | .directory st entries =>
    let mkdirErrno := sys.fails .mkdirat path
    if mkdirErrno ≠ none ∧ mkdirErrno ≠ some .eexist then some (-1, none)
    -- the name is not in use, so behind `EEXIST` there is nothing to open
    else if mkdirErrno ≠ none then some (-1, none)
    else
      let made := sys.created st.mode
      if sys.fails .openSource path ≠ none ∨ sys.fails .openTarget path ≠ none then
        some (-1, some (.directory made []))
      else
        match withDirectory sys path (copyEntries sys fuel path 0 0 entries) with
        | none => none
        | some (result, copied) =>
          let (metadataResult, made) := copyMetadata sys path id st made
          some (if metadataResult ≠ 0 then -1 else result, some (.directory made copied))
  | .fifo st => some (copyFifo sys path st)
  | .socket _ => some (0, none)
  | .device _ _ _ => some (0, none)

/-- The loop of `copy_directory`, from the call `call` of `readdir` on. -/
def copyEntries (sys : Linux) (fuel : ℕ) (path : Path) : (call : ℕ) → (result : ℤ) → Entries →
    Option (ℤ × Entries)
  | _, result, [] => some (result, [])
  | call, result, (name, node) :: rest =>
    if sys.readdirFails path call then some (result, [])
    else if sys.fails .fstatat (path ++ [name]) ≠ none then
      copyEntries sys fuel path (call + 1) (-1) rest
    else
      match copyNode sys fuel (path ++ [name]) node with
      | none => none
      | some (status, copy) =>
        match copyEntries sys fuel path (call + 1) (if status ≠ 0 then -1 else result) rest with
        | none => none
        | some (result, copied) => some (result, (copy.map (name, ·)).toList ++ copied)

end

/-- `copy_directory`. -/
def copyDirectory (sys : Linux) (fuel : ℕ) (path : Path) (entries : Entries) :
    Option (ℤ × Entries) :=
  withDirectory sys path (copyEntries sys fuel path 0 0 entries)

/-- `copy_dir_contents` into an empty directory, with what the directory has then. -/
def copyDirContents (sys : Linux) (fuel : ℕ) (source : Entries) : Option (ℤ × Entries) :=
  if sys.fails .openSource [] ≠ none ∨ sys.fails .openTarget [] ≠ none then some (-1, [])
  else copyDirectory sys fuel [] source

/-! ### What the copy leaves -/

mutual

/-- What a copy with status 0 leaves of a file. -/
def copyOf (sys : Linux) (path : Path) : Node → Option Node
  | .regular st content => some (.regular { st with mode := chownRegular st.mode } content)
  | .directory st entries => some (.directory st (copiesOf sys path 0 entries))
  | .symlink uid gid target => some (.symlink uid gid target)
  | .fifo st => some (.fifo { st with mode := sys.chownFifo st.mode })
  | .socket _ => none
  | .device _ _ _ => none

/-- What a copy with status 0 leaves of the entries of a directory. -/
def copiesOf (sys : Linux) (path : Path) : (call : ℕ) → Entries → Entries
  | _, [] => []
  | call, (name, node) :: rest =>
    if sys.readdirFails path call then []
    else
      ((copyOf sys (path ++ [name]) node).map (name, ·)).toList ++
        copiesOf sys path (call + 1) rest

end

mutual

/-- Nothing is lost of a file: it is neither a socket nor a device node, it has no bits that the
change of its owner takes away, and no call of `readdir` fails before the end of a directory. -/
def Kept (sys : Linux) (path : Path) : Node → Prop
  | .regular st _ => st.mode &&& setIdBits = 0
  | .directory _ entries => KeptEntries sys path 0 entries
  | .symlink _ _ _ => True
  | .fifo st => sys.chownFifo st.mode = st.mode
  | .socket _ => False
  | .device _ _ _ => False

/-- Nothing is lost of the entries of a directory. -/
def KeptEntries (sys : Linux) (path : Path) : (call : ℕ) → Entries → Prop
  | _, [] => True
  | call, (name, node) :: rest =>
    sys.readdirFails path call = false ∧ Kept sys (path ++ [name]) node ∧
      KeptEntries sys path (call + 1) rest

end

/-! ### Files -/

theorem writeAll_ok {write : ℕ → Transfer} {fuel call call' : ℕ} {buf out out' : Bytes}
    (h : writeAll write fuel call buf out = some (0, call', out')) :
  out' = out ++ buf
  := by
  induction fuel generalizing call buf out with
  | zero =>
      cases buf with
      | nil =>
          cases h
          rw [List.append_nil]
      | cons b buf => cases h
  | succ fuel ih =>
      cases buf with
      | nil =>
          cases h
          rw [List.append_nil]
      | cons b buf =>
          rw [writeAll] at h
          split at h
          · exact ih h
          · cases h
          · rw [ih h, List.append_assoc, List.take_append_drop]

/-- What is written are the bytes that are read, however they are read and written. -/
theorem copyData_ok {read write : ℕ → Transfer} {fuel readCall writeCall : ℕ}
    {rest out out' : Bytes}
    (h : copyData read write fuel readCall writeCall rest out = some (0, out')) :
  out' = out ++ rest
  := by
  induction fuel generalizing readCall writeCall rest out with
  | zero => cases h
  | succ fuel ih =>
      rw [copyData] at h
      split at h
      · exact ih h
      · cases h
      · next n _ =>
        dsimp only at h
        split at h
        · next hbuf =>
          cases h
          have hpos : min (max n 1) bufSize ≠ 0 := by
            rw [bufSize]
            omega
          rw [(List.take_eq_nil_iff.mp hbuf).resolve_left hpos, List.append_nil]
        · split at h
          · cases h
          · next result writeCall' written hwrite =>
            split at h
            · cases h
            · next hresult =>
              rw [not_not] at hresult
              subst hresult
              rw [ih h, writeAll_ok hwrite, List.append_assoc,
                List.prefix_iff_eq_append.mp (List.take_prefix _ _)]

theorem copyMetadata_ok {sys : Linux} {path : Path} {chown : BitVec 12 → BitVec 12}
    {st made : Stat} (h : (copyMetadata sys path chown st made).1 = 0) :
  (copyMetadata sys path chown st made).2 = { st with mode := chown st.mode }
  := by
  have hchmod := sys.fchmodat_ne path
  have hchown := sys.fchownat_ne path
  simp only [copyMetadata] at h ⊢
  cases hmode : sys.fails .fchmodat path with
  | some errno => simp [hmode, hmode ▸ hchmod] at h
  | none =>
      cases howner : sys.fails .fchownat path with
      | some errno => simp [hmode, howner, howner ▸ hchown] at h
      | none => simp

theorem copyRegular_ok {sys : Linux} {fuel : ℕ} {path : Path} {st : Stat} {content : Bytes}
    {copy : Option Node} (h : copyRegular sys fuel path st content = some (0, copy)) :
  copy = some (.regular { st with mode := chownRegular st.mode } content)
  := by
  have hchown := sys.fchown_ne path
  rw [copyRegular] at h
  split at h
  · cases h
  split at h
  · cases h
  split at h
  · cases h
  next result out hdata =>
    cases hmode : sys.fails .fchmod path with
    | some errno => simp [hmode] at h
    | none =>
        cases howner : sys.fails .fchown path with
        | some errno => simp [hmode, howner, howner ▸ hchown] at h
        | none =>
            simp [hmode, howner] at h
            obtain ⟨rfl, rfl⟩ := h
            rw [copyData_ok hdata, List.nil_append]

theorem readlinkat_eq (target : LinkTarget) : readlinkat target = target := by
  obtain ⟨bytes, hlength, hnul⟩ := target
  have htake : bytes.take (pathMax - 1) = bytes := List.take_of_length_le (by omega)
  simp only [readlinkat, htake, LinkTarget.mk.injEq]
  rw [List.takeWhile_eq_self_iff]
  intro b hb
  rw [decide_eq_true_iff]
  rintro rfl
  exact hnul hb

theorem copySymlink_ok {sys : Linux} {path : Path} {uid gid : ℕ} {target : LinkTarget}
    (h : (copySymlink sys path uid gid target).1 = 0) :
  (copySymlink sys path uid gid target).2 = some (.symlink uid gid target)
  := by
  have hchown := sys.fchownat_ne path
  rw [copySymlink, readlinkat_eq] at h ⊢
  split at h
  · cases h
  next hreadlink =>
    split at h
    · cases h
    next hsymlink =>
      rw [if_neg hreadlink, if_neg hsymlink]
      cases howner : sys.fails .fchownat path with
      | some errno =>
          have hperm : errno = .eperm := by simpa [howner] using h
          rw [howner, hperm] at hchown
          exact absurd rfl hchown
      | none => rfl

theorem copyFifo_ok {sys : Linux} {path : Path} {st : Stat}
    (h : (copyFifo sys path st).1 = 0) :
  (copyFifo sys path st).2 = some (.fifo { st with mode := sys.chownFifo st.mode })
  := by
  rw [copyFifo] at h ⊢
  split at h
  · cases h
  · next hmkfifo =>
    rw [if_neg hmkfifo]
    exact congrArg (fun made => some (Node.fifo made)) (copyMetadata_ok h)

/-! ### Trees -/

theorem withDirectory_ok {sys : Linux} {path : Path} {loop : Option (ℤ × Entries)}
    {copied : Entries} (h : withDirectory sys path loop = some (0, copied)) :
  loop = some (0, copied)
  := by
  unfold withDirectory at h
  split at h
  · cases h
  split at h
  · cases h
  · rw [Option.some.injEq, Prod.ext_iff] at h
    obtain ⟨hresult, rfl⟩ := h
    dsimp only at hresult
    split at hresult
    · cases hresult
    · rw [hresult]

/-- An error is kept to the end of the loop. -/
theorem copyEntries_error {sys : Linux} {fuel : ℕ} {path : Path} {call : ℕ}
    {entries copied : Entries}
    {result : ℤ} (h : copyEntries sys fuel path call (-1) entries = some (result, copied)) :
  result = -1
  := by
  induction entries generalizing call copied with
  | nil =>
      rw [copyEntries] at h
      cases h
      rfl
  | cons entry rest ih =>
      obtain ⟨name, node⟩ := entry
      rw [copyEntries] at h
      split at h
      · cases h
        rfl
      split at h
      · exact ih h
      split at h
      · cases h
      next status copy _ =>
        split at h
        · cases h
        next hrest =>
          rw [ite_self] at hrest
          cases h
          exact ih hrest

mutual

/-- A copy of a file with status 0 leaves what it leaves. -/
theorem copyNode_ok {sys : Linux} {fuel : ℕ} {path : Path} : (node : Node) → {copy : Option Node} →
    (h : copyNode sys fuel path node = some (0, copy)) → copy = copyOf sys path node
  | .regular st content, _, h => by
    rw [copyNode] at h
    rw [copyOf, copyRegular_ok h]
  | .symlink uid gid target, _, h => by
    rw [copyNode, Option.some.injEq, Prod.ext_iff] at h
    rw [copyOf]
    exact h.2.symm.trans (copySymlink_ok h.1)
  | .fifo st, _, h => by
    rw [copyNode, Option.some.injEq, Prod.ext_iff] at h
    rw [copyOf]
    exact h.2.symm.trans (copyFifo_ok h.1)
  | .socket _, _, h => by
    rw [copyNode] at h
    cases h
    rw [copyOf]
  | .device _ _ _, _, h => by
    rw [copyNode] at h
    cases h
    rw [copyOf]
  | .directory st entries, _, h => by
    rw [copyNode] at h
    dsimp only at h
    split at h
    · cases h
    split at h
    · cases h
    split at h
    · cases h
    split at h
    · cases h
    next result copied hdirectory =>
      rw [Option.some.injEq, Prod.ext_iff] at h
      obtain ⟨hstatus, rfl⟩ := h
      dsimp only at hstatus
      split at hstatus
      · cases hstatus
      next hmetadata =>
        rw [not_not] at hmetadata
        subst hstatus
        rw [copyOf, ← copyEntries_ok entries (withDirectory_ok hdirectory)]
        exact congrArg (fun made => some (Node.directory made copied)) (copyMetadata_ok hmetadata)

/-- A loop with status 0 leaves what it leaves of the entries. -/
theorem copyEntries_ok {sys : Linux} {fuel : ℕ} {path : Path} {call : ℕ} : (entries : Entries) →
    {copied : Entries} → (h : copyEntries sys fuel path call 0 entries = some (0, copied)) →
    copied = copiesOf sys path call entries
  | [], _, h => by
    rw [copyEntries] at h
    cases h
    rw [copiesOf]
  | (name, node) :: rest, _, h => by
    rw [copyEntries] at h
    rw [copiesOf]
    split at h
    · next hreaddir =>
      cases h
      rw [if_pos hreaddir]
    next hreaddir =>
      rw [if_neg hreaddir]
      split at h
      · cases copyEntries_error h
      split at h
      · cases h
      next status copy hnode =>
        split at h
        · cases h
        next result copied hrest =>
          cases h
          split at hrest
          · cases copyEntries_error hrest
          next hstatus =>
            rw [not_not] at hstatus
            subst hstatus
            rw [copyNode_ok node hnode, copyEntries_ok rest hrest]

end

theorem length_copiesOf_le (sys : Linux) (path : Path) (call : ℕ) (entries : Entries) :
  (copiesOf sys path call entries).length ≤ entries.length
  := by
  induction entries generalizing call with
  | nil => rw [copiesOf]
  | cons entry rest ih =>
      obtain ⟨name, node⟩ := entry
      have ih := ih (call + 1)
      rw [copiesOf]
      split
      · exact Nat.zero_le _
      · rw [List.length_append, List.length_cons]
        cases copyOf sys (path ++ [name]) node with
        | none =>
            simp only [Option.map_none, Option.toList_none, List.length_nil]
            omega
        | some copy =>
            simp only [Option.map_some, Option.toList_some, List.length_singleton]
            omega

theorem chownRegular_eq_iff {mode : BitVec 12} :
  chownRegular mode = mode ↔ mode &&& setIdBits = 0
  := by
  rw [chownRegular]
  constructor
  · intro h
    rw [← h]
    ext i hi
    simp
  · intro h
    ext i hi
    have hbit : (mode &&& setIdBits)[i] = false := by
      rw [h]
      exact BitVec.getElem_zero hi
    rw [BitVec.getElem_and] at hbit
    rw [BitVec.getElem_and, BitVec.getElem_not]
    cases hmode : mode[i] with
    | false => rfl
    | true =>
        rw [hmode, Bool.true_and] at hbit
        rw [hbit]
        rfl

mutual

/-- What a copy leaves of a file is the file exactly if nothing is lost of it. -/
theorem copyOf_eq_iff {sys : Linux} {path : Path} : (node : Node) →
    (copyOf sys path node = some node ↔ Kept sys path node)
  | .regular st content => by
    rw [copyOf, Kept, ← chownRegular_eq_iff, Option.some.injEq, Node.regular.injEq]
    exact ⟨fun h => congrArg Stat.mode h.1, fun h => ⟨by rw [h], rfl⟩⟩
  | .symlink uid gid target => by
    rw [copyOf, Kept]
    exact iff_of_true rfl trivial
  | .fifo st => by
    rw [copyOf, Kept, Option.some.injEq, Node.fifo.injEq]
    exact ⟨fun h => congrArg Stat.mode h, fun h => by rw [h]⟩
  | .socket _ => by
    rw [copyOf, Kept]
    exact iff_of_false (Option.some_ne_none _).symm id
  | .device _ _ _ => by
    rw [copyOf, Kept]
    exact iff_of_false (Option.some_ne_none _).symm id
  | .directory st entries => by
    rw [copyOf, Kept, ← copiesOf_eq_iff entries, Option.some.injEq, Node.directory.injEq]
    exact and_iff_right rfl

/-- What a copy leaves of the entries of a directory are the entries exactly if nothing is lost of
them. -/
theorem copiesOf_eq_iff {sys : Linux} {path : Path} {call : ℕ} : (entries : Entries) →
    (copiesOf sys path call entries = entries ↔ KeptEntries sys path call entries)
  | [] => by
    rw [copiesOf, KeptEntries]
    exact iff_of_true rfl trivial
  | (name, node) :: rest => by
    rw [copiesOf, KeptEntries, ← copyOf_eq_iff node, ← copiesOf_eq_iff rest]
    split
    · next hreaddir =>
      rw [hreaddir]
      exact iff_of_false (List.cons_ne_nil _ _).symm fun h => Bool.noConfusion h.1
    next hreaddir =>
      rw [Bool.not_eq_true] at hreaddir
      rw [hreaddir]
      cases hcopy : copyOf sys (path ++ [name]) node with
      | none =>
          -- the entry has been left out, and nothing makes up for it
          refine iff_of_false ?_ fun h => Option.some_ne_none node h.2.1.symm
          intro h
          have hlength := congrArg List.length h
          have hle := length_copiesOf_le sys path (call + 1) rest
          simp only [Option.map_none, Option.toList_none, List.nil_append, List.length_cons]
            at hlength
          omega
      | some copy => simp

end

/-- A copy that returns 0 reproduces the tree exactly if nothing is lost of it. -/
theorem copyDirContents_iff {sys : Linux} {fuel : ℕ} {source target : Entries}
    (h : copyDirContents sys fuel source = some (0, target)) :
  target = source ↔ KeptEntries sys [] 0 source
  := by
  rw [copyDirContents] at h
  split at h
  · cases h
  · rw [copyEntries_ok source (withDirectory_ok h), copiesOf_eq_iff]

/-- A system without errors. -/
def calm : Linux where
  umask := 0o022
  chownFifo := chownRegular
  fails _ _ := none
  readdirFails _ _ := false
  read _ _ := .ready 2
  write _ _ := .ready 1
  fchown_ne _ := by decide
  fchownat_ne _ := by decide
  fchmodat_ne _ := by decide

/-- A directory with a file and a link to it. -/
def plainTree : Entries :=
  [(ascii "ssh", .directory ⟨0o2755, 0, 10⟩
    [(ascii "key", .regular ⟨0o600, 0, 10⟩ (ascii "abc")),
      (ascii "link", .symlink 0 0 ⟨ascii "key", by decide, by decide⟩)])]

theorem copyDirContents_plainTree :
  ∃ target, copyDirContents calm 8 plainTree = some (0, target) ∧ target = plainTree
  := by
  have hcopy : copyDirContents calm 8 plainTree = some (0, plainTree) := by rfl
  have hkey : (0o600 : BitVec 12) &&& setIdBits = 0 := by decide
  have hkept : KeptEntries calm [] 0 plainTree :=
    ⟨rfl, ⟨rfl, hkey, rfl, trivial, trivial⟩, trivial⟩
  exact ⟨plainTree, hcopy, (copyDirContents_iff hcopy).mpr hkept⟩

/-- A program with the set-user-ID bit, and the node of a device. -/
def specialTree : Entries :=
  [(ascii "su", .regular ⟨0o4755, 0, 0⟩ [1]), (ascii "log", .socket ⟨0o666, 0, 0⟩)]

/-- The copy returns 0 without the bit and without the node. -/
theorem not_copied :
  ∃ sys fuel source target, copyDirContents sys fuel source = some (0, target) ∧ target ≠ source
  := by
  have hcopy : copyDirContents calm 8 specialTree =
      some (0, [(ascii "su", .regular ⟨0o755, 0, 0⟩ [1])]) := by rfl
  refine ⟨calm, 8, specialTree, _, hcopy, ?_⟩
  intro h
  cases congrArg List.length h

end C2aOverlayInit
