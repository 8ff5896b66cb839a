import CatplayFirmware.Otalib.Flash
import CatplayFirmware.Otalib.Imx.Hwid
import CatplayFirmware.Otalib.Imx.Signer.Sign
import CatplayFirmware.Support.SparseFile
import Mathlib.Logic.Function.Basic

/-!
# The commands on the flash

The tool saves the flash to a file, signs a file, and flashes a file, with or without signing it.
However often commands fail, the flash is what it was with a prefix of what each of them was to
write over it, and what succeeds is written whole. What has been saved from a device that was
flashed flashes another device as the first image does.
-/

namespace FlashTool

open Bytes Outcome Flash Sign

/-! ### The flash -/

/-- `Flash::size`. -/
def size (sys : System) (dev : Device) : ℕ :=
  if sys.isUltra ∧ layout sys dev = .legacyUltraNand then ultraNandFlashSize else flashSize

/-- `Flash::backup`, with the buffer as it is after the call. -/
def backup (sys : System) (dev : Device) (buf : Bytes) : Bytes × Outcome Text Unit :=
  if buf.length ≠ flashSize then (buf, .fail "invalid buffer size for backup".toList)
  else read sys dev 0 buf

/-- `Flash::flash_nosign`. -/
def flashNosign (sys : System) (dev : Device) (buf : Bytes) : Device × Outcome Text Unit :=
  if buf.length ≠ flashSize then (dev, .fail "invalid file size for flashing".toList)
  else write sys dev 0 buf

/-- `Flash::softbrick`. -/
def softbrick (sys : System) (dev : Device) : Device × Outcome Text Unit :=
  write sys dev 0 (List.replicate 131072 0)

section Sign

variable (crates : Env.Crates) (build : Rust.Build) (signer : Bool)

/-- `Flash::flash_sign`. -/
def flashSign (sys : System) (dev : Device) (buf : Bytes) (hwid : Hwid) :
    Device × Outcome Text Unit :=
  if buf.length ≠ flashSize then (dev, .fail "invalid file size for flashing".toList)
  else
    match signWic crates build signer buf hwid with
    | (_, .error fault) => (dev, .error fault)
    | (buf, .ok ()) => write sys dev 0 buf

/-- `Flash::flash_autosign`, with the answers of `is_ultra` and `Hwid::detect`. -/
def flashAutosign (ultra : Bool) (hwid : Except Text Hwid) (sys : System) (dev : Device)
    (buf : Bytes) : Device × Outcome Text Unit :=
  if ultra then flashNosign sys dev buf
  else
    match hwid with
    | .error e => (dev, .fail e)
    | .ok hwid => flashSign crates build signer sys dev buf hwid

end Sign

/-! ### A write that fails -/

/-- A write has put a prefix of the data in place, and nothing else has changed. -/
def Prefixed (dev : Device) (offset : ℕ) (data : Bytes) (dev' : Device) : Prop :=
  dev'.sizes = dev.sizes ∧
    ∃ n ≤ data.length, dev'.flat = overwrite dev.flat offset (data.take n)

/-- Nothing has been written. -/
theorem prefixed_refl (dev : Device) (offset : ℕ) (data : Bytes) :
  Prefixed dev offset data dev
  := by
  use rfl, 0, Nat.zero_le _
  rw [List.take_zero, overwrite_nil]

/-- A write to a partition may end early, and then a part has been written. -/
theorem writePartition_prefixed (sys : System) {dev : Device} {i len off : ℕ} {data : Bytes}
    (hi : i < 4) (hlen : len = dev.partitions[i].length) (hfit : off + data.length ≤ len) :
  Prefixed dev (dev.start i + off) data (writePartition sys dev ⟨i, hi⟩ len off data).1
  := by
  rw [writePartition]
  change len = dev.partitions[(⟨i, hi⟩ : Fin 4)].length at hlen
  cases hmap : openMap sys dev ⟨i, hi⟩ len with
  | error fault => apply prefixed_refl
  | ok mem =>
      obtain rfl := openMap_ok hlen hmap
      rw [hlen] at hfit
      have hspec := (writeIfDifferent_spec (sys.writerSyncs i) hfit flashBlockSize_pos).1
      obtain ⟨hsizes, hflat⟩ := dev.store_overwrite ⟨i, hi⟩ hfit
      dsimp only
      rw [hspec]
      use hsizes, data.length, Nat.le_refl _
      rw [hflat, List.take_length]

/-- The write of a walk, also when it fails. -/
theorem prefixed_of_walk (sys : System) {dev : Device} {offset : ℕ} {data : Bytes}
    {st : WriteState} (hinv : WriteInv dev offset data st)
    (hfit : offset + data.length ≤ dev.sizes.sum) (hi : st.i < 4)
    (hoff : st.off < dev.sizes[st.i]) {n : ℕ}
    (hn : n = min (dev.sizes[st.i] - st.off) (data.length - st.written)) :
  Prefixed dev offset data
    (writePartition sys st.dev ⟨st.i, hi⟩ dev.sizes[st.i] st.off (slice data st.written n)).1
  := by
  have hwritten := hinv.written_le
  have hslice : (slice data st.written n).length = n := length_slice (by omega)
  have hlen : dev.sizes[st.i] = st.dev.partitions[st.i].length := by
    rw [← st.dev.getElem_sizes hi]
    simp only [hinv.sizes_eq]
  have htake : (data.take st.written).length = st.written := List.length_take_of_le hwritten
  have hchunk : st.off + (slice data st.written n).length ≤ dev.sizes[st.i] := by omega
  obtain ⟨hsizes, k, hk, hflat⟩ := writePartition_prefixed sys hi hlen hchunk
  rw [hslice] at hk
  use hsizes.trans hinv.sizes_eq, st.written + k, by omega
  have hstart : st.dev.start st.i + st.off = offset + (data.take st.written).length := by
    rw [Device.start_congr hinv.sizes_eq, hinv.position, htake]
  have hle : offset ≤ dev.flat.length := by
    rw [dev.length_flat]
    omega
  have hpiece : (slice data st.written n).take k = slice data st.written k := by
    rw [slice, slice, List.take_take, Nat.min_eq_left hk]
  rw [hflat, hstart, hinv.flat_eq, overwrite_overwrite hle, hpiece, take_append_slice]

/-- A round that ends the loop. -/
theorem prefixed_of_leave {sys : System} {dev : Device} {offset : ℕ} {data : Bytes}
    {st : WriteState} {r : Device × Outcome Text Unit}
    (hfit : offset + data.length ≤ dev.sizes.sum) (hinv : WriteInv dev offset data st)
    (hstep : writeRound sys dev.sizes data st = .inr r) :
  Prefixed dev offset data r.1
  := by
  rw [writeRound] at hstep
  split at hstep
  · next hi =>
    split at hstep
    · cases hstep
    · next hoff =>
      have hwalk := prefixed_of_walk sys hinv hfit hi (Nat.not_le.mp hoff) rfl
      dsimp only at hstep
      split at hstep
      · next dev' fault hwrite =>
        cases hstep
        rwa [hwrite] at hwalk
      · next dev' hwrite =>
        rw [hwrite] at hwalk
        split at hstep
        · cases hstep
          exact hwalk
        · split at hstep
          · cases hstep
            exact hwalk
          · cases hstep
  · cases hstep
    exact ⟨hinv.sizes_eq, st.written, hinv.written_le, hinv.flat_eq⟩

/-- However the loop ends, the device has a part of the data. -/
theorem writeWalk_prefixed (sys : System) (dev : Device) (offset : ℕ) (data : Bytes) :
  Prefixed dev offset data (writeWalk sys dev offset data).1
  := by
  rw [writeWalk]
  split
  · apply prefixed_refl
  · next sizes hsizes =>
    obtain rfl := walkSizes_ok hsizes
    split
    · apply prefixed_refl
    · next hfit =>
      have hfit := Nat.not_lt.mp hfit
      obtain ⟨r, hr, hpost⟩ : ∃ r,
          Loop.iterate (writeRound sys dev.sizes data) 5 ⟨dev, 0, offset, 0⟩ = some r ∧
            Prefixed dev offset data r.1 := by
        apply Loop.iterate_total (WriteInv dev offset data) (fun st => 4 - st.i)
        · intro st st' hinv
          apply hinv.round hfit
        · intro st r hinv
          apply prefixed_of_leave hfit hinv
        · exact ⟨Nat.zero_le _, Nat.zero_le _, Nat.eq_zero_or_pos _, by simp [Device.start], rfl,
            by simp⟩
        · apply Nat.lt_succ_self
      rw [hr]
      exact hpost

/-- Whatever fails, a write leaves the flash with a prefix of the data written over it. -/
theorem write_prefixed (sys : System) (dev : Device) (offset : ℕ) (data : Bytes) :
  Prefixed dev offset data (write sys dev offset data).1
  := by
  rw [write]
  split
  · apply prefixed_refl
  · next hfit =>
    have hfit := Nat.not_lt.mp hfit
    split
    · next hlayout =>
      have hwrite := writePartition_prefixed sys (Nat.succ_pos 3) (layout_modern hlayout) hfit
      have hstart : dev.start 0 + offset = offset := Nat.zero_add offset
      rwa [hstart] at hwrite
    · apply writeWalk_prefixed
    · apply writeWalk_prefixed
    · apply prefixed_refl
    · apply prefixed_refl

/-! ### The commands -/

/-- What the system answers to the calls on a file. -/
structure FileAnswers where
  opens : Bool
  creates : Bool
  stats : Bool
  truncates : Bool
  maps : Bool
  syncs : Bool

/-- A command of `main` on the flash, with what the system answers: the calls of `size` see one
state of the system, and the read or the write another. -/
inductive Command where
  | backup (path : Text) (answers : FileAnswers) (sizeSys sys : System)
  | sign (path hwid : Text) (answers : FileAnswers) (sizeSys : System)
  | flash (path : Text) (answers : FileAnswers) (sizeSys : System) (ultra : Bool)
      (hwid : Except Text Hwid) (sys : System)
  | flashNosign (path : Text) (answers : FileAnswers) (sizeSys sys : System)
  | softbrick (ultra : Bool) (sys : System)

/-- A device and the files that the tool is called with. -/
structure Machine where
  dev : Device
  files : Text → Option Bytes

/-- A file with other contents. -/
def Machine.put (m : Machine) (path : Text) (contents : Bytes) : Machine :=
  { m with files := Function.update m.files path (some contents) }

/-- An error becomes a panic. -/
def unwrap {α : Type} : Outcome Text α → Outcome Text α
  | .ok a => .ok a
  | .error .diverges => .diverges
  | .error _ => .panics

/-- An input file that has the size of the flash, mapped. -/
def mapInput (answers : FileAnswers) (len : ℕ) (file : Option Bytes) : Outcome Text Bytes :=
  match file with
  | none => .panics
  | some contents =>
    if answers.opens = false ∨ answers.stats = false ∨ contents.length ≠ len ∨
      answers.maps = false then .panics
    else .ok contents

/-- `msync().unwrap()` of a mapped file, after a call. -/
def synced (answers : FileAnswers) (result : Outcome Text Unit) : Outcome Text Unit :=
  unwrap result >>= fun _ => if answers.syncs then .ok () else .panics

/-- The command `backup`. -/
def backupFile (m : Machine) (path : Text) (answers : FileAnswers) (sizeSys sys : System) :
    Machine × Outcome Text Unit :=
  if (m.files path).isSome ∧ answers.opens then (m, .panics)
  else if answers.creates = false then (m, .panics)
  else
    let created := (m.files path).getD []
    if answers.truncates = false then (m.put path created, .panics)
    else
      let sized := SparseFile.resize 0 created (size sizeSys m.dev)
      if answers.maps = false then (m.put path sized, .panics)
      else
        let (buf, result) := backup sys m.dev sized
        (m.put path buf, synced answers result)

section Run

variable (crates : Env.Crates) (build : Rust.Build) (signer : Bool)

/-- The command `sign`. -/
def signFile (m : Machine) (path hwid : Text) (answers : FileAnswers) (sizeSys : System) :
    Machine × Outcome Text Unit :=
  match mapInput answers (size sizeSys m.dev) (m.files path) with
  | .error fault => (m, .error fault)
  | .ok buf =>
    match unwrap (Hwid.tryFrom hwid) with
    | .error fault => (m, .error fault)
    | .ok hwid =>
      let (buf, result) := signWic crates build signer buf hwid
      (m.put path buf, synced answers result)

/-- What a command does to the files and the device. -/
def step (m : Machine) : Command → Machine × Outcome Text Unit
  | .backup path answers sizeSys sys => backupFile m path answers sizeSys sys
  | .sign path hwid answers sizeSys => signFile crates build signer m path hwid answers sizeSys
  | .flash path answers sizeSys ultra hwid sys =>
    match mapInput answers (size sizeSys m.dev) (m.files path) with
    | .error fault => (m, .error fault)
    | .ok buf =>
      let (dev, result) := flashAutosign crates build signer ultra hwid sys m.dev buf
      ({ m with dev := dev }, unwrap result)
  | .flashNosign path answers sizeSys sys =>
    match mapInput answers (size sizeSys m.dev) (m.files path) with
    | .error fault => (m, .error fault)
    | .ok buf =>
      let (dev, result) := flashNosign sys m.dev buf
      ({ m with dev := dev }, unwrap result)
  | .softbrick ultra sys =>
    if ultra then
      let (dev, result) := softbrick sys m.dev
      ({ m with dev := dev }, unwrap result)
    else (m, .panics)

/-- The image that `flash_autosign` is to write. -/
def autosigned (ultra : Bool) (hwid : Except Text Hwid) (buf : Bytes) : Bytes :=
  if ultra then buf
  else
    match hwid with
    | .error _ => []
    | .ok hwid => (signWic crates build signer buf hwid).1

/-- What a command is to write to the flash. -/
def Command.data (m : Machine) : Command → Bytes
  | .backup .. => []
  | .sign .. => []
  | .flash path answers sizeSys ultra hwid _ =>
    match mapInput answers (size sizeSys m.dev) (m.files path) with
    | .error _ => []
    | .ok buf => autosigned crates build signer ultra hwid buf
  | .flashNosign path answers sizeSys _ =>
    match mapInput answers (size sizeSys m.dev) (m.files path) with
    | .error _ => []
    | .ok buf => buf
  | .softbrick ultra _ => if ultra then List.replicate 131072 0 else []

end Run

/-! ### Runs of commands -/

/-- A call leaves a prefix of the data on the flash, and all of it when it succeeds. -/
structure Flashes (dev : Device) (data : Bytes) (r : Device × Outcome Text Unit) : Prop where
  prefixed : Prefixed dev 0 data r.1
  whole : r.2 = .ok () → r.1.flat = overwrite dev.flat 0 data

theorem flashes_error (dev : Device) (data : Bytes) (fault : Fault Text) :
  Flashes dev data (dev, .error fault)
  := ⟨prefixed_refl dev 0 data, nofun⟩

theorem unwrap_eq_ok {α : Type} {r : Outcome Text α} {a : α} (h : unwrap r = .ok a) :
  r = .ok a
  := by
  match r with
  | .ok b => exact h
  | .error (.error _) => cases h
  | .error .panic => cases h
  | .error .diverges => cases h

/-- A panic has written what the error would have. -/
theorem Flashes.unwrap {dev : Device} {data : Bytes} {r : Device × Outcome Text Unit}
    (h : Flashes dev data r) :
  Flashes dev data (r.1, FlashTool.unwrap r.2)
  := ⟨h.prefixed, fun hok => h.whole (unwrap_eq_ok hok)⟩

/-- The write itself. -/
theorem flashes_write (sys : System) (dev : Device) (data : Bytes) :
  Flashes dev data (write sys dev 0 data)
  := ⟨write_prefixed sys dev 0 data, fun hok => (write_ok (Prod.ext rfl hok)).2⟩

/-- Without a signature the buffer is written as it is. -/
theorem flashes_flashNosign (sys : System) (dev : Device) (buf : Bytes) :
  Flashes dev buf (flashNosign sys dev buf)
  := by
  rw [flashNosign]
  split
  · exact flashes_error dev buf _
  · apply flashes_write

/-- With a signature the signed buffer is written, or nothing. -/
theorem flashes_flashSign (crates : Env.Crates) (build : Rust.Build) (signer : Bool)
    (sys : System) (dev : Device) (buf : Bytes) (hwid : Hwid) :
  Flashes dev (signWic crates build signer buf hwid).1
    (flashSign crates build signer sys dev buf hwid)
  := by
  rw [flashSign]
  split
  · exact flashes_error dev _ _
  · cases hsign : signWic crates build signer buf hwid with
    | mk signed result =>
        cases result with
        | error fault => exact flashes_error dev _ _
        | ok u => apply flashes_write

section Run

variable {crates : Env.Crates} {build : Rust.Build} {signer : Bool}

theorem flashes_flashAutosign (ultra : Bool) (hwid : Except Text Hwid) (sys : System)
    (dev : Device) (buf : Bytes) :
  Flashes dev (autosigned crates build signer ultra hwid buf)
    (flashAutosign crates build signer ultra hwid sys dev buf)
  := by
  cases ultra with
  | true => exact flashes_flashNosign sys dev buf
  | false =>
      cases hwid with
      | ok hwid => exact flashes_flashSign crates build signer sys dev buf hwid
      | error e => exact flashes_error dev [] _

variable (crates build signer) in
/-- The commands of a run, each as what it is to write to the flash and what it comes to. -/
def attempts (m : Machine) : List Command → List (Bytes × Outcome Text Unit)
  | [] => []
  | c :: cs =>
    let (m', result) := step crates build signer m c
    (c.data crates build signer m, result) :: attempts m' cs

variable (crates build signer) in
/-- Some commands, one after the other. -/
def run (m : Machine) (cs : List Command) : Machine :=
  cs.foldl (fun m c => (step crates build signer m c).1) m

end Run

/-! ### A flash that is saved -/

/-- A file is mapped whole. -/
theorem mapInput_eq_ok {answers : FileAnswers} {len : ℕ} {contents buf : Bytes}
    (h : mapInput answers len (some contents) = .ok buf) :
  buf = contents
  := by
  rw [mapInput] at h
  split at h
  · cases h
  · exact (Except.ok.inj h).symm

/-- Files of one length are mapped alike. -/
theorem mapInput_congr (answers : FileAnswers) (len : ℕ) {contents contents' : Bytes}
    (h : contents'.length = contents.length) :
  mapInput answers len (some contents') =
    (mapInput answers len (some contents)).map fun _ => contents'
  := by
  rw [mapInput, mapInput, h]
  split
  · rfl
  · rfl

section Save

variable {crates : Env.Crates} {build : Rust.Build} {signer : Bool}

/-- What has been flashed is an image of the size of the flash, signed unless the device is an
ultra. -/
theorem flashAutosign_ok {ultra : Bool} {hwid : Except Text Hwid} {sys : System} {dev : Device}
    {buf : Bytes} (h : (flashAutosign crates build signer ultra hwid sys dev buf).2 = .ok ()) :
  buf.length = flashSize ∧ (ultra = true ∨ ∃ h, hwid = .ok h ∧
    signWic crates build signer buf h = (autosigned crates build signer ultra hwid buf, .ok ()))
  := by
  cases ultra with
  | true =>
      change (flashNosign sys dev buf).2 = .ok () at h
      rw [flashNosign] at h
      split at h
      · cases h
      · next hlen => exact ⟨not_not.mp hlen, .inl rfl⟩
  | false =>
      cases hwid with
      | error e => cases h
      | ok hwid =>
          change (flashSign crates build signer sys dev buf hwid).2 = .ok () at h
          rw [flashSign] at h
          split at h
          · cases h
          · next hlen =>
            refine ⟨not_not.mp hlen, .inr ⟨hwid, rfl, ?_⟩⟩
            cases hsign : signWic crates build signer buf hwid with
            | mk signed result =>
                rw [hsign] at h
                cases result with
                | error fault => cases h
                | ok u =>
                    change _ = ((signWic crates build signer buf hwid).1, _)
                    rw [hsign]

/-- An image has the blocks that are signed. -/
theorem flashSize_ge : 0x40000 ≤ flashSize := by decide

/-- The image that has been flashed is as long as the one it was signed from, and is signed for
another device as that one is. -/
theorem autosigned_spec {ultra : Bool} {hwid : Except Text Hwid} {sys : System} {dev : Device}
    {buf : Bytes} (h : (flashAutosign crates build signer ultra hwid sys dev buf).2 = .ok ()) :
  (autosigned crates build signer ultra hwid buf).length = flashSize ∧
    ∀ hwid', signWic crates build signer (autosigned crates build signer ultra hwid buf) hwid' =
      signWic crates build signer buf hwid'
  := by
  obtain ⟨hlen, rfl | ⟨hwid, rfl, hsign⟩⟩ := flashAutosign_ok h
  · exact ⟨hlen, fun hwid' => rfl⟩
  · have hlong : 0x40000 ≤ buf.length := hlen ▸ flashSize_ge
    constructor
    · exact (length_signWic hlong hsign).trans hlen
    · apply signWic_signed hlong hsign

/-- A backup that succeeds is what the flash holds. -/
theorem backupFile_ok {m : Machine} {path : Text} {answers : FileAnswers} {sizeSys sys : System}
    (h : (backupFile m path answers sizeSys sys).2 = .ok ()) :
  (backupFile m path answers sizeSys sys).1.files path = some (slice m.dev.flat 0 flashSize)
  := by
  rw [backupFile] at h ⊢
  split at h
  · cases h
  · next hexists =>
    rw [if_neg hexists]
    split at h
    · cases h
    · next hcreates =>
      rw [if_neg hcreates]
      dsimp only at h ⊢
      split at h
      · cases h
      · next htruncates =>
        rw [if_neg htruncates]
        split at h
        · cases h
        · next hmaps =>
          rw [if_neg hmaps]
          generalize SparseFile.resize 0 ((m.files path).getD []) (size sizeSys m.dev) = sized
            at h ⊢
          dsimp only at h ⊢
          rw [synced] at h
          obtain ⟨u, hresult, -⟩ := Except.bind_eq_ok_iff.mp h
          have hresult := unwrap_eq_ok hresult
          rw [Machine.put]
          dsimp only
          rw [Function.update_self]
          rw [backup] at hresult ⊢
          split at hresult
          · cases hresult
          · next hlen =>
            have hread : (read sys m.dev 0 sized).1 = slice m.dev.flat 0 sized.length :=
              read_ok (Prod.ext rfl hresult)
            rw [if_neg hlen]
            exact congrArg some (hread.trans (congrArg _ (not_not.mp hlen)))

/-- Images of one length that are signed alike flash a device alike. -/
theorem flash_congr {image saved : Bytes} (hlen : saved.length = image.length)
    (hsigned : ∀ hwid, signWic crates build signer saved hwid =
      signWic crates build signer image hwid)
    (other : Machine) (file : Text) (answers : FileAnswers) (sizeSys sys : System)
    (hwid : Except Text Hwid) :
  (step crates build signer (other.put file saved)
      (.flash file answers sizeSys false hwid sys)).1.dev =
    (step crates build signer (other.put file image)
      (.flash file answers sizeSys false hwid sys)).1.dev ∧
  (step crates build signer (other.put file saved)
      (.flash file answers sizeSys false hwid sys)).2 =
    (step crates build signer (other.put file image)
      (.flash file answers sizeSys false hwid sys)).2
  := by
  have hfile (contents : Bytes) : (other.put file contents).files file = some contents :=
    Function.update_self _ _ _
  have hauto : flashAutosign crates build signer false hwid sys other.dev saved =
      flashAutosign crates build signer false hwid sys other.dev image := by
    cases hwid with
    | error e => rfl
    | ok hwid =>
        change flashSign crates build signer sys other.dev saved hwid =
          flashSign crates build signer sys other.dev image hwid
        rw [flashSign, flashSign, hlen, hsigned]
  have hdev (contents : Bytes) : (other.put file contents).dev = other.dev := rfl
  rw [step, step, hfile, hfile, hdev, hdev, mapInput_congr answers _ hlen]
  cases hmap : mapInput answers (size sizeSys other.dev) (some image) with
  | error fault => exact ⟨rfl, rfl⟩
  | ok buf =>
      obtain rfl := mapInput_eq_ok hmap
      rw [Except.map]
      dsimp only
      rw [hauto]
      exact ⟨rfl, rfl⟩

/-- What is saved from a device that has just been flashed flashes any device that is signed for as
the first image does, with the same result. -/
theorem flash_backup {m : Machine} {path path' : Text} {image : Bytes}
    (himage : m.files path = some image) {answers answers' : FileAnswers}
    {sizeSys sys sizeSys' sys' : System} {ultra : Bool} {hwid : Except Text Hwid} {flashed : Machine}
    (hflash : step crates build signer m (.flash path answers sizeSys ultra hwid sys) =
      (flashed, .ok ()))
    {done : Machine}
    (hbackup : step crates build signer flashed (.backup path' answers' sizeSys' sys') =
      (done, .ok ())) :
  ∃ saved, done.files path' = some saved ∧
    ∀ (other : Machine) (file : Text) (fileAnswers : FileAnswers) (sizeSys sys : System)
      (hwid : Except Text Hwid),
      let command := Command.flash file fileAnswers sizeSys false hwid sys
      (step crates build signer (other.put file saved) command).1.dev =
          (step crates build signer (other.put file image) command).1.dev ∧
        (step crates build signer (other.put file saved) command).2 =
          (step crates build signer (other.put file image) command).2
  := by
  rw [step, himage] at hflash
  cases hmap : mapInput answers (size sizeSys m.dev) (some image) with
  | error fault =>
      rw [hmap] at hflash
      cases hflash
  | ok buf =>
      obtain rfl := mapInput_eq_ok hmap
      rw [hmap] at hflash
      dsimp only at hflash
      obtain ⟨rfl, hresult⟩ := Prod.mk.inj hflash
      have hok := unwrap_eq_ok hresult
      obtain ⟨hlen, hsigned⟩ := autosigned_spec hok
      have hflat := (flashes_flashAutosign ultra hwid sys m.dev buf).whole hok
      have hsame := (flashAutosign_ok hok).1
      have hsaved := backupFile_ok (congrArg Prod.snd hbackup)
      change (step crates build signer _ (.backup path' answers' sizeSys' sys')).1.files path' = _
        at hsaved
      rw [hbackup] at hsaved
      dsimp only at hsaved
      rw [hflat, ← hlen, slice_overwrite_self _ (Nat.zero_le _)] at hsaved
      refine ⟨_, hsaved, ?_⟩
      intro other file fileAnswers sizeSys sys hwid'
      apply flash_congr
      · rw [hlen, hsame]
      · exact hsigned

end Save

/-! ### A blank device -/

/-- A device whose flash is one partition of zeros. -/
def blank : Device := ⟨#v[List.replicate flashSize 0, [], [], []]⟩

def answering : System := ⟨true, fun _ => true, fun _ => true, fun _ => true, fun _ => true,
  fun _ => true, fun _ => true⟩

def fileAnswers : FileAnswers := ⟨true, true, true, true, true, true⟩

theorem layout_blank (dev : Device) (hsizes : dev.sizes = blank.sizes) :
  layout answering dev = .modern
  := by
  have hlen (i : ℕ) (hi : i < 4) : dev.partitions[i].length = blank.sizes[i] := by
    rw [← dev.getElem_sizes hi]
    simp only [hsizes]
  have hfound : (Vector.ofFn fun i : Fin 4 =>
      if answering.detects i then dev.partitions[i].length else 0) = #v[flashSize, 0, 0, 0] := by
    ext i hi
    rw [Vector.getElem_ofFn]
    change dev.partitions[i].length = _
    rw [hlen i hi, blank.getElem_sizes hi]
    obtain rfl | rfl | rfl | rfl : i = 0 ∨ i = 1 ∨ i = 2 ∨ i = 3 := by omega
    · exact List.length_replicate
    · rfl
    · rfl
    · rfl
  rw [layout, hfound]
  decide

/-- A write to the blank device succeeds. -/
theorem write_blank {data : Bytes} (hlen : data.length = flashSize) :
  (write answering blank 0 data).2 = .ok ()
  := by
  apply Serves.of_answers
  · apply write_serves (.inl (layout_blank blank rfl)) (.inl (layout_blank blank rfl))
    rw [hlen, Nat.zero_add]
  · exact ⟨fun _ => rfl, fun _ => rfl, fun _ => rfl, fun _ => rfl, fun _ => rfl, fun _ => rfl⟩

theorem size_of_modern {sys : System} {dev : Device} (h : layout sys dev = .modern) :
  size sys dev = flashSize
  := by
  rw [size, h, if_neg]
  rintro ⟨-, ⟨⟩⟩

theorem mapInput_fileAnswers (contents : Bytes) :
  mapInput fileAnswers contents.length (some contents) = .ok contents
  := by
  rw [mapInput, if_neg]
  rintro (h | h | h | h)
  · cases h
  · cases h
  · exact h rfl
  · cases h

/-- The blank device, and an image in a file. -/
def bench (image : Bytes) : Machine :=
  ⟨blank, fun path => if path = "image".toList then some image else none⟩

theorem bench_image (image : Bytes) : (bench image).files "image".toList = some image := by
  rw [bench]
  dsimp only
  rw [if_pos rfl]

theorem bench_new (image : Bytes) : (bench image).files "new".toList = none := by
  rw [bench]
  dsimp only
  rw [if_neg (by decide)]

/-- An image is signed and flashed to the blank device. -/
theorem flash_bench {crates : Env.Crates} {image signed : Bytes} (himage : image.length = flashSize)
    {hwid : Hwid} (hsign : signWic crates ⟨64, false⟩ true image hwid = (signed, .ok ())) :
  step crates ⟨64, false⟩ true (bench image)
      (.flash "image".toList fileAnswers answering false (.ok hwid) answering) =
    ({ bench image with dev := (write answering blank 0 signed).1 }, .ok ())
  := by
  have hsigned : signed.length = flashSize :=
    (length_signWic (himage ▸ flashSize_ge) hsign).trans himage
  have hauto : flashAutosign crates ⟨64, false⟩ true false (.ok hwid) answering blank image =
      write answering blank 0 signed := by
    change flashSign crates ⟨64, false⟩ true answering blank image hwid = _
    rw [flashSign, if_neg (not_not.mpr himage), hsign]
  have hmap := mapInput_fileAnswers image
  rw [himage, ← size_of_modern (layout_blank blank rfl)] at hmap
  have hfile := bench_image image
  have hdev : (bench image).dev = blank := rfl
  rw [step, hfile, hdev, hmap]
  dsimp only
  rw [hauto, write_blank hsigned]
  rfl

/-- A device with the layout of the blank one is saved. -/
theorem backup_bench (crates : Env.Crates) (m : Machine) (hsizes : m.dev.sizes = blank.sizes)
    (hnew : m.files "new".toList = none) :
  (step crates ⟨64, false⟩ true m (.backup "new".toList fileAnswers answering answering)).2 = .ok ()
  := by
  have hmodern := layout_blank m.dev hsizes
  rw [step, backupFile, hnew, if_neg (by simp), if_neg (by decide)]
  dsimp only
  rw [if_neg (by decide), if_neg (by decide), size_of_modern hmodern]
  have hlen := @SparseFile.length_resize _ (0 : UInt8) (Option.getD none []) flashSize
  generalize SparseFile.resize (0 : UInt8) (Option.getD none []) flashSize = sized at hlen ⊢
  have hread : (read answering m.dev 0 sized).2 = .ok () := by
    apply Serves.of_answers
    · apply read_serves (.inl hmodern) (.inl hmodern)
      rw [hlen, Nat.zero_add]
    · exact ⟨fun _ => rfl, fun _ => rfl, fun _ => rfl, fun _ => rfl, fun _ => rfl, fun _ => rfl⟩
  rw [backup, if_neg (not_not.mpr hlen)]
  dsimp only
  rw [hread]
  rfl

theorem eq_mk_of_snd {α β : Type} {p : α × β} {b : β} (h : p.2 = b) : p = (p.1, b) := by rw [← h]

/-- An image with the known boot loader, as long as the flash. -/
def benchImage : Bytes := oldImage (List.replicate (flashSize - 0x20000) 1)

theorem length_benchImage : benchImage.length = flashSize := by
  rw [benchImage, length_oldImage, List.length_replicate]
  decide

/-- An image is signed for a device, flashed to it and saved again. -/
theorem flash_backup_bench :
  let crates : Env.Crates := ⟨Cbc.vernam, .squeezed Env.envTotal, .ieee⟩
  ∃ flashed done saved, step crates ⟨64, false⟩ true (bench benchImage)
      (.flash "image".toList fileAnswers answering false (.ok ⟨1, 2, 3, 4⟩) answering) =
        (flashed, .ok ()) ∧
    step crates ⟨64, false⟩ true flashed (.backup "new".toList fileAnswers answering answering) =
      (done, .ok ()) ∧
    done.files "new".toList = some saved ∧
    ∀ (other : Machine) (file : Text) (answers : FileAnswers) (sizeSys sys : System)
      (hwid : Except Text Hwid),
      let command := Command.flash file answers sizeSys false hwid sys
      (step crates ⟨64, false⟩ true (other.put file saved) command).1.dev =
          (step crates ⟨64, false⟩ true (other.put file benchImage) command).1.dev ∧
        (step crates ⟨64, false⟩ true (other.put file saved) command).2 =
          (step crates ⟨64, false⟩ true (other.put file benchImage) command).2
  := by
  intro crates
  have hrest : 0x20000 ≤ (List.replicate (flashSize - 0x20000) 1 : Bytes).length := by
    rw [List.length_replicate]
    decide
  obtain ⟨signed, hsign⟩ : ∃ signed, signWic crates ⟨64, false⟩ true benchImage ⟨1, 2, 3, 4⟩ =
      (signed, .ok ()) := signWic_oldImage hrest ⟨1, 2, 3, 4⟩
  obtain ⟨image, himage⟩ : ∃ image, image = benchImage := ⟨_, rfl⟩
  rw [← himage] at hsign ⊢
  have hflash := flash_bench (himage ▸ length_benchImage) hsign
  have hback := backup_bench crates { bench image with dev := (write answering blank 0 signed).1 }
    (write_prefixed answering blank 0 signed).1 (bench_new image)
  obtain ⟨saved, hsaved, hsame⟩ := flash_backup (bench_image image) hflash (eq_mk_of_snd hback)
  exact ⟨_, _, saved, hflash, eq_mk_of_snd hback, hsaved, hsame⟩

end FlashTool
