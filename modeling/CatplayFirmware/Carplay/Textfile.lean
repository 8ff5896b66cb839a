import CatplayFirmware.Support.Runs
import Mathlib.Data.Int.Notation
import Mathlib.Tactic.Common

/-!
# Writing a file of the storage

The new contents go to a temporary file, which is renamed over the target. Every system call is one
step, whose outcome comes from outside, so that the state between any two of them is the state
after some steps.
-/

namespace Textfile

/-- What a system call returns: a number that is not negative, or an error. -/
abbrev Outcome := Except ℤ ℕ

def enoent : ℤ := 2

def eintr : ℤ := 4

def eio : ℤ := 5

def pathMax : ℕ := 4096

structure File where
  contents : List UInt8
  mode : ℕ
  deriving DecidableEq

/-- The target, the temporary file, and whether the directories have been created. -/
structure Fs where
  target : Option File
  temp : Option File
  dirs : Bool
  deriving DecidableEq

/-- The errors. The first is that of `g_file_get_contents`, and the others are `Filename is too
long`, `Failed to sync %s: %s` and `Failed to write %s: %s`. -/
inductive GError where
  | read (errno : ℤ)
  | nameTooLong
  | sync (dirname : List UInt8) (errno : ℤ)
  | write (filename : List UInt8) (errno : ℤ)
  deriving DecidableEq

/-- The arguments of `btd_file_set_contents`. -/
structure Call where
  filename : List UInt8
  contents : List UInt8
  length : ℤ

/-- The bytes that are written: a negative length stands for that of a string. -/
def Call.payload (c : Call) : List UInt8 :=
  if c.length < 0 then c.contents.takeWhile (· ≠ 0) else c.contents.take c.length.toNat

def slash : UInt8 := 47

def dot : UInt8 := 46

/-- The name behind the last slash. -/
def Call.base (c : Call) : List UInt8 := (c.filename.reverse.takeWhile (· ≠ slash)).reverse

/-- The name before the last slash, or a dot if there is none. -/
def Call.dirname (c : Call) : List UInt8 :=
  match c.filename.reverse.dropWhile (· ≠ slash) with
  | [] => [dot]
  | _ :: dir => dir.reverse

/-- The format `%s/.%s.XXXXXX`. -/
def Call.tmpname (c : Call) : List UInt8 :=
  c.dirname ++ [slash, dot] ++ c.base ++ [dot] ++ List.replicate 6 88

/-- The name does not fit in the buffers. -/
def Call.nameTooLong (c : Call) : Bool :=
  decide (pathMax ≤ c.dirname.length) || decide (pathMax ≤ c.tmpname.length)

/-- The system call that comes next. What has been returned is the error, or none for `TRUE`. -/
inductive Pc where
  | getContents
  | createDirs
  | mkstemp
  | stat
  | fchmod (mode : ℕ)
  | write (pos : ℕ)
  | fsync
  | close
  | rename
  | openDir
  | fsyncDir
  | closeDir (error : Option GError)
  | failClose (err : ℤ)
  | failUnlink (err : ℤ)
  | returned (error : Option GError)
  deriving DecidableEq

/-- The state between two system calls. A temporary file that could not be removed is left over. -/
structure State where
  fs : Fs
  pc : Pc
  leftOver : Bool
  deriving DecidableEq

def State.goto (s : State) (pc : Pc) : State := { s with pc }

/-- What comes after the outcome of a call. -/
def State.check (s : State) (o : Outcome) (ok : State) (error : ℤ → Pc) : State :=
  match o with
  | .ok _ => ok
  | .error errno => s.goto (error errno)

/-- `g_file_get_contents`, which finds a file that exists, and reports one that does not. -/
def getContents (c : Call) (s : State) (o : Outcome) : State :=
  match s.fs.target, o with
  | some old, .ok _ =>
    if old.contents = c.payload then s.goto (.returned none) else s.goto .createDirs
  | some _, .error errno =>
    if errno = enoent then s else s.goto (.returned (some (.read errno)))
  | none, .ok _ => s
  | none, .error errno =>
    if errno = enoent then s.goto .createDirs else s.goto (.returned (some (.read errno)))

/-- `create_dirs`, whose errors are ignored, and the names. -/
def createDirs (c : Call) (s : State) : State :=
  { s with
    fs := { s.fs with dirs := true }
    pc := if c.nameTooLong then .returned (some .nameTooLong) else .mkstemp }

/-- `stat` on the target, which has to exist. -/
def stat (s : State) (o : Outcome) : State :=
  match s.fs.target, o with
  | some target, .ok _ => s.goto (.fchmod (target.mode &&& 0o777))
  | none, .ok _ => s
  | _, .error _ => s.goto (.fchmod 0o600)

/-- The head of the loop that writes. -/
def writeFrom (c : Call) (pos : ℕ) : Pc := if pos < c.payload.length then .write pos else .fsync

/-- One `write`, which writes at most what is asked for. -/
def write (c : Call) (pos : ℕ) (s : State) (o : Outcome) : State :=
  match o with
  | .error errno => if errno = eintr then s else s.goto (.failClose errno)
  | .ok written =>
    if c.payload.length - pos < written then s
    else if written = 0 then s.goto (.failClose eio)
    else
      let append (f : File) : File :=
        { f with contents := f.contents ++ (c.payload.drop pos).take written }
      { s with fs := { s.fs with temp := s.fs.temp.map append }, pc := writeFrom c (pos + written) }

/-- The next system call of `btd_file_set_contents`. -/
def step (c : Call) (s : State) (o : Outcome) : State :=
  match s.pc with
  | .getContents => getContents c s o
  | .createDirs => createDirs c s
  | .mkstemp =>
    s.check o { s with fs := { s.fs with temp := some ⟨[], 0o600⟩ }, pc := .stat } .failUnlink
  | .stat => stat s o
  | .fchmod mode =>
    s.check o
      { s with
        fs := { s.fs with temp := s.fs.temp.map ({ · with mode }) }
        pc := writeFrom c 0 }
      .failClose
  | .write pos => write c pos s o
  | .fsync => s.check o (s.goto .close) .failClose
  | .close => s.check o (s.goto .rename) .failUnlink
  | .rename =>
    s.check o { s with fs := { s.fs with target := s.fs.temp, temp := none }, pc := .openDir }
      .failUnlink
  | .openDir => s.check o (s.goto .fsyncDir) fun _ => .returned none
  | .fsyncDir =>
    s.check o (s.goto (.closeDir none)) fun errno => .closeDir (some (.sync c.dirname errno))
  | .closeDir error => s.goto (.returned error)
  | .failClose err => s.goto (.failUnlink err)
  | .failUnlink err =>
    let failed := Pc.returned (some (.write c.filename err))
    match o with
    | .ok _ => { s with fs := { s.fs with temp := none }, pc := failed }
    | .error _ => { s with pc := failed, leftOver := true }
  | .returned _ => s

/-- The state at the call of `btd_file_set_contents`. -/
def start (old : Option File) : State := ⟨⟨old, none, false⟩, .getContents, false⟩

/-! ### Before and after the rename -/

/-- The target is in its old state, and there is no temporary file. -/
structure Before (old : Option File) (fs : Fs) : Prop where
  target : fs.target = old
  temp : fs.temp = none

/-- The target is in its old state, and some of the new contents are in the temporary file. -/
structure Writing (c : Call) (old : Option File) (pos : ℕ) (fs : Fs) : Prop where
  target : fs.target = old
  temp : ∃ mode, fs.temp = some ⟨c.payload.take pos, mode⟩

/-- The target has the new contents, and there is no temporary file. -/
structure After (c : Call) (fs : Fs) : Prop where
  target : ∃ mode, fs.target = some ⟨c.payload, mode⟩
  temp : fs.temp = none

/-- The error of the `fsync` of the directory comes after the rename. All others leave the target as
it was, and a temporary file only if it could not be removed. -/
def Failed (c : Call) (old : Option File) (s : State) : GError → Prop
  | .sync _ _ => After c s.fs
  | _ => s.fs.target = old ∧ (s.fs.temp = none ∨ s.leftOver = true)

/-- What holds before each system call. -/
def Sound (c : Call) (old : Option File) (s : State) : Prop :=
  match s.pc with
  | .getContents | .createDirs | .mkstemp => Before old s.fs
  | .stat | .fchmod _ => Writing c old 0 s.fs
  | .write pos => Writing c old pos s.fs
  | .fsync | .close | .rename => Writing c old c.payload.length s.fs
  | .openDir | .fsyncDir => After c s.fs
  | .closeDir error => After c s.fs ∧ ∀ e, error = some e → ∃ errno, e = .sync c.dirname errno
  | .failClose _ | .failUnlink _ => s.fs.target = old
  | .returned none => After c s.fs
  | .returned (some e) => Failed c old s e

section

variable {c : Call} {old : Option File} {s : State}

theorem sound_start (c : Call) (old : Option File) : Sound c old (start old) := ⟨rfl, rfl⟩

theorem Sound.check (o : Outcome) {ok : State} {error : ℤ → Pc} (hok : Sound c old ok)
    (herror : ∀ errno, Sound c old (s.goto (error errno))) :
  Sound c old (s.check o ok error)
  := by
  cases o with
  | ok n => exact hok
  | error errno => exact herror errno

/-- The new contents have been written up to some position. -/
theorem sound_writeFrom {pos : ℕ} {fs : Fs} (leftOver : Bool) (h : Writing c old pos fs) :
  Sound c old ⟨fs, writeFrom c pos, leftOver⟩
  := by
  rw [writeFrom]
  split
  · exact h
  · next hend =>
    use h.target
    rw [List.take_length, ← List.take_of_length_le (Nat.not_lt.mp hend)]
    exact h.temp

theorem sound_getContents (h : Before old s.fs) (hpc : s.pc = .getContents) (o : Outcome) :
  Sound c old (getContents c s o)
  := by
  have hstays : Sound c old s := by
    rw [Sound, hpc]
    exact h
  have hfailed : ∀ errno, Sound c old (s.goto (.returned (some (.read errno)))) :=
    fun _ => ⟨h.target, .inl h.temp⟩
  rw [getContents.eq_def]
  split
  · next file n htarget =>
    split
    · next hsame =>
      constructor
      · use file.mode
        rw [← hsame]
        exact htarget
      · exact h.temp
    · exact h
  · split
    · exact hstays
    · apply hfailed
  · exact hstays
  · split
    · exact h
    · apply hfailed

theorem sound_createDirs (h : Before old s.fs) : Sound c old (createDirs c s) := by
  rw [createDirs]
  split
  · exact ⟨h.target, .inl h.temp⟩
  · exact ⟨h.target, h.temp⟩

theorem sound_stat (h : Writing c old 0 s.fs) (hpc : s.pc = .stat) (o : Outcome) :
  Sound c old (stat s o)
  := by
  rw [stat.eq_def]
  split
  · exact h
  · rw [Sound, hpc]
    exact h
  · exact h

theorem sound_write {pos : ℕ} (h : Writing c old pos s.fs) (hpc : s.pc = .write pos)
    (o : Outcome) :
  Sound c old (write c pos s o)
  := by
  have hstays : Sound c old s := by
    rw [Sound, hpc]
    exact h
  cases o with
  | error errno =>
      simp only [write]
      split
      · exact hstays
      · exact h.target
  | ok written =>
      simp only [write]
      split
      · exact hstays
      · split
        · exact h.target
        · apply sound_writeFrom
          use h.target
          obtain ⟨mode, htemp⟩ := h.temp
          use mode
          rw [htemp, List.take_add]
          rfl

theorem sound_step (h : Sound c old s) (o : Outcome) : Sound c old (step c s o) := by
  rw [Sound] at h
  cases hpc : s.pc with
  | getContents =>
      rw [hpc] at h
      simp only [step, hpc]
      apply sound_getContents h hpc
  | createDirs =>
      rw [hpc] at h
      simp only [step, hpc]
      apply sound_createDirs h
  | mkstemp =>
      rw [hpc] at h
      simp only [step, hpc]
      apply Sound.check
      · use h.target, 0o600
        rfl
      · intro errno
        exact h.target
  | stat =>
      rw [hpc] at h
      simp only [step, hpc]
      apply sound_stat h hpc
  | fchmod mode =>
      rw [hpc] at h
      simp only [step, hpc]
      apply Sound.check
      · apply sound_writeFrom
        use h.target, mode
        obtain ⟨_, htemp⟩ := h.temp
        rw [htemp]
        rfl
      · intro errno
        exact h.target
  | write pos =>
      rw [hpc] at h
      simp only [step, hpc]
      apply sound_write h hpc
  | fsync =>
      rw [hpc] at h
      simp only [step, hpc]
      apply Sound.check
      · exact h
      · intro errno
        exact h.target
  | close =>
      rw [hpc] at h
      simp only [step, hpc]
      apply Sound.check
      · exact h
      · intro errno
        exact h.target
  | rename =>
      rw [hpc] at h
      simp only [step, hpc]
      apply Sound.check
      · obtain ⟨mode, htemp⟩ := h.temp
        constructor
        · use mode
          rw [List.take_length] at htemp
          exact htemp
        · rfl
      · intro errno
        exact h.target
  | openDir =>
      rw [hpc] at h
      simp only [step, hpc]
      apply Sound.check
      · exact h
      · intro errno
        exact h
  | fsyncDir =>
      rw [hpc] at h
      simp only [step, hpc]
      apply Sound.check
      · exact ⟨h, nofun⟩
      · intro errno
        use h
        rintro _ ⟨⟩
        exact ⟨errno, rfl⟩
  | closeDir error =>
      rw [hpc] at h
      simp only [step, hpc]
      cases error with
      | none => exact h.1
      | some e =>
          obtain ⟨errno, rfl⟩ := h.2 e rfl
          exact h.1
  | failClose err =>
      rw [hpc] at h
      simp only [step, hpc]
      exact h
  | failUnlink err =>
      rw [hpc] at h
      simp only [step, hpc]
      cases o with
      | ok n => exact ⟨h, .inl rfl⟩
      | error errno => exact ⟨h, .inr rfl⟩
  | returned error =>
      simp only [step, hpc]
      rw [Sound]
      exact h

/-- The target is always in its old state or has all of the new contents. -/
theorem Sound.target (h : Sound c old s) :
  s.fs.target = old ∨ ∃ mode, s.fs.target = some ⟨c.payload, mode⟩
  := by
  rw [Sound] at h
  split at h
  · exact .inl h.target
  · exact .inl h.target
  · exact .inl h.target
  · exact .inl h.target
  · exact .inl h.target
  · exact .inl h.target
  · exact .inl h.target
  · exact .inl h.target
  · exact .inl h.target
  · exact .inr h.target
  · exact .inr h.target
  · exact .inr h.1.target
  · exact .inl h
  · exact .inl h
  · exact .inr h.target
  · next e _ =>
    cases e with
    | read errno => exact .inl h.1
    | nameTooLong => exact .inl h.1
    | sync dirname errno => exact .inr h.target
    | write filename errno => exact .inl h.1

/-- A target that has the new contents already is not touched. -/
def Untouched (s : State) (old : Option File) : Prop :=
  s.fs = (start old).fs ∧
    (s.pc = .getContents ∨ ∃ error, s.pc = .returned error)

theorem untouched_step {mode : ℕ} (hold : old = some ⟨c.payload, mode⟩) (h : Untouched s old)
    (o : Outcome) :
  Untouched (step c s o) old
  := by
  obtain ⟨hfs, hpc | ⟨error, hpc⟩⟩ := h
  · have htarget : s.fs.target = some ⟨c.payload, mode⟩ := by
      rw [hfs]
      exact hold
    simp only [step, hpc, getContents, htarget]
    cases o with
    | ok n =>
        simp only [if_true]
        exact ⟨hfs, .inr ⟨none, rfl⟩⟩
    | error errno =>
        simp only
        split
        · exact ⟨hfs, .inl hpc⟩
        · exact ⟨hfs, .inr ⟨_, rfl⟩⟩
  · simp only [step, hpc]
    exact ⟨hfs, .inr ⟨error, hpc⟩⟩

end

/-- After any outcomes of the system calls the target is in its old state or has all of the new
contents. `TRUE` says that it has the new contents. `FALSE` says that it is in its old state and
that there is no temporary file that could be removed, or that the directory could not be synced
after the rename. A target that has the new contents already is not touched. -/
theorem replaces (c : Call) (old : Option File) (outcomes : List Outcome) :
  let s := outcomes.foldl (step c) (start old)
  (s.fs.target = old ∨ ∃ mode, s.fs.target = some ⟨c.payload, mode⟩) ∧
    (s.pc = .returned none → ∃ mode, s.fs.target = some ⟨c.payload, mode⟩) ∧
    (∀ e, s.pc = .returned (some e) → Failed c old s e) ∧
    (∀ mode, old = some ⟨c.payload, mode⟩ → s.fs = (start old).fs)
  := by
  intro s
  have hsound : Sound c old s :=
    @Runs.invariant_foldl _ _ (step c) (Sound c old) (fun _ o h => sound_step h o) _
      (sound_start c old) outcomes
  refine ⟨hsound.target, ?_, ?_, ?_⟩
  · intro hpc
    rw [Sound, hpc] at hsound
    exact hsound.target
  · intro e hpc
    rw [Sound, hpc] at hsound
    exact hsound
  · intro mode hold
    have huntouched : Untouched s old :=
      @Runs.invariant_foldl _ _ (step c) (Untouched · old)
        (fun _ o h => untouched_step hold h o) _ ⟨rfl, .inl rfl⟩ outcomes
    exact huntouched.1

/-- The contents `1` for the file `/d/a`. -/
def exampleCall : Call := ⟨[slash, 100, slash, 97], [1], 1⟩

/-- When the directory cannot be synced, `FALSE` comes with the new contents in the target. -/
theorem not_old_of_false :
  ¬ ∀ (c : Call) (old : Option File) (outcomes : List Outcome) (e : GError),
    (outcomes.foldl (step c) (start old)).pc = .returned (some e) →
      (outcomes.foldl (step c) (start old)).fs.target = old ∧
        (outcomes.foldl (step c) (start old)).fs.temp = none
  := by
  intro h
  have hfalse := h exampleCall none
    [.error enoent, .ok 0, .ok 3, .error enoent, .ok 0, .ok 1, .ok 0, .ok 0, .ok 0, .ok 3,
      .error eio, .ok 0]
    (.sync [slash, 100] eio) rfl
  exact nomatch hfalse.1

end Textfile
