import CatplayFirmware.LinuxLetux.IngenicAes.Ctr

/-!
# ECB and CBC requests

A request is cut into chunks that are copied through one pair of buffers. The engine is told the
mode, the direction, the key and the vector once, and keeps the chaining between the chunks itself.
The driver leaves the last block that is encrypted as the vector of the next request; when it
decrypts in place, it has to save it before it is overwritten.
-/

namespace IngenicAes.Crypt

open Bytes

/-! ### Copying -/

/-- The loop of `sg_copy_buffer` that copies `len` bytes into a buffer. -/
def copyOut (m : Memory) : List Piece → ℕ → Bytes
  | [], _ => []
  | p :: ps, len =>
    let n := min p.len len
    load m p.addr n ++ copyOut m ps (len - n)

/-- The loop that copies a buffer into the pieces, with the number of bytes that are copied. -/
def copyIn (m : Memory) : List Piece → Bytes → Memory × ℕ
  | [], _ => (m, 0)
  | p :: ps, buf =>
    let n := min p.len buf.length
    let (m, copied) := copyIn (store m p.addr (buf.take n)) ps (buf.drop n)
    (m, n + copied)

/-- `sg_pcopy_to_buffer`, with the bytes that are copied. -/
def pcopyToBuffer (m : Memory) (sg : List Entry) (nents len skip : ℕ) : Bytes :=
  match miterSkip skip (miterStart sg nents) with
  | none => []
  | some ps => copyOut m ps len

/-- `sg_pcopy_from_buffer`. -/
def pcopyFromBuffer (m : Memory) (sg : List Entry) (nents : ℕ) (buf : Bytes) (skip : ℕ) :
    Memory × ℕ :=
  match miterSkip skip (miterStart sg nents) with
  | none => (m, 0)
  | some ps => copyIn m ps buf

/-! ### The engine -/

/-- The algorithm of the engine, with the vector that is loaded for it. -/
inductive Alg where
  | ecb
  | cbc (iv : Bytes)
  deriving DecidableEq

inductive Dir where
  | encrypt
  | decrypt
  deriving DecidableEq

/-- What the engine is prepared with. -/
structure Config where
  keyl : ℕ
  alg : Alg
  dir : Dir
  key : Bytes
  deriving DecidableEq

/-- An engine that is prepared, and then takes one buffer after the other. -/
structure Engine (σ : Type) where
  prepare : Config → σ
  dma : σ → Bytes → Bytes × σ

/-- What a driver runs on: what the calls into the kernel return, and the engine. -/
structure Env (σ : Type) where
  present : Bool
  clkAes : ℤ
  clkPdma : ℤ
  waitKey : ℤ
  /-- What the waits for the engine return. -/
  dmaWait : ℕ → ℤ
  engine : Engine σ

/-- What a request works on: the memory, its vector, the one on the stack, the buffers, and the
engine once it is prepared. -/
structure Machine (σ : Type) where
  mem : Memory
  iv : Bytes
  nextIv : Bytes
  bufIn : Bytes
  bufOut : Bytes
  engine : Option σ
  waits : ℕ

/-- `INGENIC_AES_MODE_CBC`. -/
def modeCbc : ℕ := 1

/-- `INGENIC_AES_DECRYPT`. -/
def modeDecrypt : ℕ := 2

def isCbc (mode : ℕ) : Bool := mode &&& modeCbc != 0

def isDecrypt (mode : ℕ) : Bool := mode &&& modeDecrypt != 0

/-- `ingenic_aes_setkey_common`. -/
def setkeyCommon (key : Bytes) : ℤ :=
  if key.length ≠ 16 ∧ key.length ≠ 24 ∧ key.length ≠ 32 then einval else 0

/-- The length of a key in the register. -/
def keylOf : ℕ → Option ℕ
  | 16 => some 0
  | 24 => some 1
  | 32 => some 2
  | _ => none

section

variable {σ : Type} (env : Env σ) (req : Request) (mode : ℕ)

/-- `ingenic_aes_prepare`. The vector is loaded in CBC mode only. -/
def prepare (m : Machine σ) : Machine σ × ℤ :=
  match keylOf req.key.length with
  | none => (m, einval)
  | some keyl =>
    let alg := if isCbc mode then .cbc m.iv else .ecb
    let dir := if isDecrypt mode then .decrypt else .encrypt
    ({ m with engine := some (env.engine.prepare ⟨keyl, alg, dir, req.key⟩) }, env.waitKey)

/-- `ingenic_aes_dma_crypt`. -/
def dmaCrypt (m : Machine σ) (len : ℕ) : Machine σ × ℤ :=
  if len = 0 then (m, einval)
  else if len % 16 ≠ 0 then (m, einval)
  else if bufSize < len then (m, einval)
  else if env.dmaWait m.waits ≠ 0 then ({ m with waits := m.waits + 1 }, env.dmaWait m.waits)
  else
    match m.engine with
    | none => ({ m with waits := m.waits + 1 }, etimedout)
    | some s =>
      let (out, s) := env.engine.dma s (m.bufIn.take len)
      ({ m with
        bufOut := overwrite m.bufOut 0 out
        engine := some s
        waits := m.waits + 1 }, 0)

/-- When it decrypts in CBC mode, the driver saves the last block of a chunk. -/
def saveIv (srcNents : ℕ) (m : Machine σ) (done chunk : ℕ) : Machine σ :=
  if isCbc mode && isDecrypt mode then
    let block := pcopyToBuffer m.mem req.src srcNents 16 (done + chunk - 16)
    { m with nextIv := overwrite m.nextIv 0 block }
  else m

/-- In CBC mode the last block that is encrypted becomes the vector of the request. -/
def updateIv (m : Machine σ) (chunk : ℕ) : Machine σ :=
  if isCbc mode then
    let nextIv := if !isDecrypt mode then overwrite m.nextIv 0 (slice m.bufOut (chunk - 16) 16)
      else m.nextIv
    { m with nextIv, iv := nextIv.take 16 }
  else m

/-- The body of the loop, for the chunk at an offset. -/
def cryptChunk (srcNents dstNents : ℕ) (m : Machine σ) (done chunk : ℕ) : Machine σ × ℤ :=
  let m := saveIv req mode srcNents m done chunk
  let input := pcopyToBuffer m.mem req.src srcNents chunk done
  let m := { m with bufIn := overwrite m.bufIn 0 input }
  if input.length ≠ chunk then (m, einval)
  else
    let (m, err) := dmaCrypt env m chunk
    if err ≠ 0 then (m, err)
    else
      let (mem, copied) := pcopyFromBuffer m.mem req.dst dstNents (m.bufOut.take chunk) done
      let m := { m with mem }
      if copied ≠ chunk then (m, einval)
      else (updateIv mode m chunk, 0)

/-- The loop of `ingenic_aes_crypt`. -/
def cryptLoop (srcNents dstNents : ℕ) (m : Machine σ) (done : ℕ) : Machine σ × ℤ :=
  if _h : done < req.cryptlen then
    let chunk := min (req.cryptlen - done) bufSize / 16 * 16
    if _hchunk : chunk = 0 then (m, einval)
    else
      let (m, err) := cryptChunk env req mode srcNents dstNents m done chunk
      if err ≠ 0 then (m, err) else cryptLoop srcNents dstNents m (done + chunk)
  else (m, 0)
termination_by req.cryptlen - done
decreasing_by omega

/-- `ingenic_aes_crypt`, with what it works on after the call. -/
def crypt (m : Machine σ) : Machine σ × ℤ :=
  if !env.present then (m, enodev)
  else if req.cryptlen % 16 ≠ 0 then (m, einval)
  else if req.cryptlen = 0 then (m, 0)
  else
    match nentsForLen req.src req.cryptlen with
    | none => (m, einval)
    | some srcNents =>
      match nentsForLen req.dst req.cryptlen with
      | none => (m, einval)
      | some dstNents =>
        if env.clkAes ≠ 0 then (m, env.clkAes)
        else if env.clkPdma ≠ 0 then (m, env.clkPdma)
        else
          let (m, err) := prepare env req mode m
          let (m, err) := if err ≠ 0 then (m, err)
            else cryptLoop env req mode srcNents dstNents m 0
          -- `ingenic_aes_stop`
          ({ m with engine := none }, err)

end

/-! ### The one-shot operation -/

/-- The standard operation on all of the data at once. -/
def oneShot (cipher : BlockCipher) (c : Config) (data : Bytes) : Bytes :=
  match c.alg, c.dir with
  | .ecb, .encrypt => ecb (cipher.encrypt c.key) (data.length / 16) data
  | .ecb, .decrypt => ecb (cipher.decrypt c.key) (data.length / 16) data
  | .cbc iv, .encrypt => Cbc.encrypt cipher c.key iv (data.length / 16) data
  | .cbc iv, .decrypt => Cbc.decrypt cipher c.key iv (data.length / 16) data

/-- A configuration that the registers can hold: the key has its length, and the vector is a
block. -/
structure Config.Valid (c : Config) : Prop where
  keyl : keylOf c.key.length = some c.keyl
  vector : ∀ iv, c.alg = .cbc iv → iv.length = 16

/-- What an engine makes of one buffer after the other. -/
def Engine.run {σ : Type} (e : Engine σ) (s : σ) : List Bytes → Bytes
  | [] => []
  | buf :: bufs => (e.dma s buf).1 ++ e.run (e.dma s buf).2 bufs

/-- A buffer that the driver hands to the engine. -/
def IsChunk (buf : Bytes) : Prop := 0 < buf.length ∧ 16 ∣ buf.length ∧ buf.length ≤ bufSize

/-- Once it is prepared, an engine takes the buffers as one stream. -/
def Engine.Continuous {σ : Type} (e : Engine σ) (cipher : BlockCipher) : Prop :=
  ∀ c : Config, c.Valid → ∀ bufs : List Bytes, (∀ buf ∈ bufs, IsChunk buf) →
    e.run (e.prepare c) bufs = oneShot cipher c bufs.flatten

/-! ### What is copied -/

/-- Bytes are written at some addresses, one after the other. -/
def writeAt (m : Memory) : List ℕ → Bytes → Memory
  | a :: as, b :: bs => writeAt (Function.update m a b) as bs
  | _, _ => m

@[simp] theorem writeAt_nil (m : Memory) (as : List ℕ) : writeAt m as [] = m := by
  cases as <;> rfl

theorem writeAt_append (m : Memory) {as : List ℕ} {bs : Bytes} (h : as.length = bs.length)
    (as' : List ℕ) (bs' : Bytes) :
  writeAt m (as ++ as') (bs ++ bs') = writeAt (writeAt m as bs) as' bs'
  := by
  induction bs generalizing m as with
  | nil =>
      obtain rfl := List.length_eq_zero_iff.mp h
      rfl
  | cons b bs ih =>
      obtain ⟨a, as, rfl⟩ := List.exists_cons_of_length_eq_add_one h
      exact ih _ (Nat.succ.inj h)

/-- Nothing is written at other addresses. -/
theorem writeAt_of_not_mem {m : Memory} {as : List ℕ} {bs : Bytes} {a : ℕ} (h : a ∉ as) :
  writeAt m as bs a = m a
  := by
  induction bs generalizing m as with
  | nil => rw [writeAt_nil]
  | cons b bs ih =>
      cases as with
      | nil => rfl
      | cons a' as =>
          rw [writeAt, ih (List.not_mem_of_not_mem_cons h),
            Function.update_of_ne (List.ne_of_not_mem_cons h)]

/-- What is written at different addresses is read there. -/
theorem map_writeAt {m : Memory} {as : List ℕ} {bs : Bytes} (hnodup : as.Nodup)
    (h : as.length = bs.length) :
  as.map (writeAt m as bs) = bs
  := by
  induction bs generalizing m as with
  | nil =>
      obtain rfl := List.length_eq_zero_iff.mp h
      rfl
  | cons b bs ih =>
      obtain ⟨a, as, rfl⟩ := List.exists_cons_of_length_eq_add_one h
      obtain ⟨hmem, hnodup⟩ := List.nodup_cons.mp hnodup
      rw [writeAt, List.map_cons, writeAt_of_not_mem hmem, Function.update_self,
        ih hnodup (Nat.succ.inj h)]

theorem load_eq_map (m : Memory) (addr n : ℕ) : load m addr n = (List.range' addr n).map m := by
  induction n generalizing addr with
  | zero => rfl
  | succ n ih => rw [load, ih, List.range'_succ, List.map_cons]

theorem store_eq_writeAt (m : Memory) (addr : ℕ) (bs : Bytes) :
  store m addr bs = writeAt m (List.range' addr bs.length) bs
  := by
  induction bs generalizing m addr with
  | nil => rfl
  | cons b bs ih => rw [store, ih, List.length_cons, List.range'_succ, writeAt]

/-- The first addresses of pieces. -/
theorem take_pieceAddrs_cons (p : Piece) (ps : List Piece) (len : ℕ) :
  (pieceAddrs (p :: ps)).take len =
    List.range' p.addr (min p.len len) ++ (pieceAddrs ps).take (len - min p.len len)
  := by
  have hrest : len - p.len = len - min p.len len := by omega
  have hfirst : (List.range' p.addr p.len).take len = List.range' p.addr (min p.len len) := by
    rcases Nat.le_total p.len len with hall | hpart
    · rw [Nat.min_eq_left hall, List.take_of_length_le (by rwa [List.length_range'])]
    · rw [Nat.min_eq_right hpart, range'_split p.addr hpart, List.take_left' List.length_range']
  rw [pieceAddrs_cons, List.take_append, List.length_range', hfirst, hrest]

theorem copyOut_eq (m : Memory) (ps : List Piece) (len : ℕ) :
  copyOut m ps len = ((pieceAddrs ps).take len).map m
  := by
  induction ps generalizing len with
  | nil => rw [copyOut, pieceAddrs, List.flatMap_nil, List.take_nil, List.map_nil]
  | cons p ps ih =>
      rw [copyOut, take_pieceAddrs_cons, List.map_append, ih, load_eq_map]

theorem copyIn_eq (m : Memory) {ps : List Piece} {buf : Bytes}
    (h : buf.length ≤ (pieceAddrs ps).length) :
  copyIn m ps buf = (writeAt m ((pieceAddrs ps).take buf.length) buf, buf.length)
  := by
  induction ps generalizing m buf with
  | nil =>
      obtain rfl := List.length_eq_zero_iff.mp (Nat.le_zero.mp h)
      rfl
  | cons p ps ih =>
      obtain ⟨n, hn⟩ : ∃ n, n = min p.len buf.length := ⟨_, rfl⟩
      have htake : (buf.take n).length = n := by
        rw [List.length_take]
        omega
      have hrest : (buf.drop n).length = buf.length - n := List.length_drop
      rw [pieceAddrs_cons, List.length_append, List.length_range'] at h
      have hwrite : writeAt m
          (List.range' p.addr n ++ (pieceAddrs ps).take (buf.length - n)) buf =
            writeAt (writeAt m (List.range' p.addr n) (buf.take n))
              ((pieceAddrs ps).take (buf.length - n)) (buf.drop n) := by
        rw [← writeAt_append, List.take_append_drop]
        rw [List.length_range', htake]
      rw [copyIn, take_pieceAddrs_cons, ← hn, ih _ (by omega), store_eq_writeAt, htake, hrest,
        hwrite]
      exact congrArg (Prod.mk _) (Nat.add_sub_cancel' (by omega))

section

variable {sg : List Entry} {nents skip : ℕ}

/-- The pieces that are left when the first bytes of a list are skipped. -/
theorem miterSkip_start {len : ℕ} (h : skip + len ≤ (addrs (sg.take nents)).length) :
  ∃ ps, miterSkip skip (miterStart sg nents) = some ps ∧ len ≤ (pieceAddrs ps).length ∧
    (pieceAddrs ps).take len = slice (addrs sg) skip len
  := by
  have htail : TailPos (miterStart sg nents) :=
    fun p hp => pos_of_mem_miterStart (List.mem_of_mem_tail hp)
  have hle : skip ≤ (pieceAddrs (miterStart sg nents)).length := by
    rw [pieceAddrs_miterStart]
    omega
  obtain ⟨ps, hps, haddrs, -⟩ := miterSkip_addrs htail hle
  obtain ⟨rest, hrest⟩ := addrs_take_prefix sg nents
  rw [pieceAddrs_miterStart] at haddrs
  refine ⟨ps, hps, ?_, ?_⟩
  · rw [haddrs, List.length_drop]
    omega
  · rw [hrest, slice_append_left _ h, slice, haddrs]

theorem pcopyToBuffer_eq (m : Memory) {len : ℕ} (h : skip + len ≤ (addrs (sg.take nents)).length) :
  pcopyToBuffer m sg nents len skip = (slice (addrs sg) skip len).map m
  := by
  obtain ⟨ps, hps, -, htake⟩ := miterSkip_start h
  rw [pcopyToBuffer, hps]
  simp only
  rw [copyOut_eq, htake]

theorem pcopyFromBuffer_eq (m : Memory) {buf : Bytes}
    (h : skip + buf.length ≤ (addrs (sg.take nents)).length) :
  pcopyFromBuffer m sg nents buf skip =
    (writeAt m (slice (addrs sg) skip buf.length) buf, buf.length)
  := by
  obtain ⟨ps, hps, hlen, htake⟩ := miterSkip_start h
  rw [pcopyFromBuffer, hps]
  simp only
  rw [copyIn_eq _ hlen, htake]

end

/-- What is written at the first addresses of a request is not read behind them. -/
theorem map_writeAt_behind (req : ScatteredRequest) (m : Memory) (out : Bytes) {done off len : ℕ}
    (hoff : done ≤ off) (hlen : off + len ≤ req.cryptlen) :
  (slice (addrs req.src) off len).map (writeAt m ((addrs req.dst).take done) out) =
    (slice (addrs req.src) off len).map m
  := by
  apply List.map_congr_left
  intro a ha
  apply writeAt_of_not_mem
  intro hmem
  obtain ⟨i, hi⟩ := List.mem_iff_getElem?.mp hmem
  obtain ⟨j, hj⟩ := List.mem_iff_getElem?.mp ha
  have hilt := (List.getElem?_eq_some_iff.mp hi).1
  have hjlt := (List.getElem?_eq_some_iff.mp hj).1
  rw [List.length_take] at hilt
  rw [slice, List.length_take] at hjlt
  rw [List.getElem?_take_of_lt (by omega)] at hi
  rw [slice, List.getElem?_take_of_lt (by omega), List.getElem?_drop] at hj
  apply req.noClobber i (off + j) a (by omega)
  · rw [List.getElem?_take_of_lt (by omega), hi]
  · rw [List.getElem?_take_of_lt (by omega), hj]

/-! ### Streams -/

theorem length_ecb {encrypt : Bytes → Bytes}
    (hencrypt : ∀ block, block.length = 16 → (encrypt block).length = 16) {n : ℕ} {data : Bytes}
    (h : data.length = 16 * n) :
  (ecb encrypt n data).length = data.length
  := by
  induction n generalizing data with
  | zero => rw [ecb, List.length_nil, h]
  | succ n ih =>
      have htake : (data.take 16).length = 16 := by
        rw [List.length_take]
        omega
      have hdrop : (data.drop 16).length = 16 * n := by
        rw [List.length_drop]
        omega
      rw [ecb, List.length_append, hencrypt _ htake, ih hdrop, hdrop]
      omega

theorem ecb_append (encrypt : Bytes → Bytes) {k : ℕ} {data : Bytes} (h : data.length = 16 * k)
    (n : ℕ) (data' : Bytes) :
  ecb encrypt (k + n) (data ++ data') = ecb encrypt k data ++ ecb encrypt n data'
  := by
  induction k generalizing data with
  | zero =>
      obtain rfl := List.length_eq_zero_iff.mp h
      rw [Nat.zero_add, List.nil_append, ecb, List.nil_append]
  | succ k ih =>
      have hdrop : (data.drop 16).length = 16 * k := by
        rw [List.length_drop]
        omega
      rw [Nat.add_right_comm, ecb, ecb, List.take_append_of_le_length (by omega),
        List.drop_append_of_le_length (by omega), ih hdrop, List.append_assoc]

theorem length_oneShot (cipher : BlockCipher) {c : Config} (hc : c.Valid) {data : Bytes}
    (h : 16 ∣ data.length) :
  (oneShot cipher c data).length = data.length
  := by
  have hblocks : data.length = 16 * (data.length / 16) := (Nat.mul_div_cancel' h).symm
  obtain ⟨keyl, alg, dir, key⟩ := c
  rcases alg with _ | iv <;> rcases dir with _ | _
  · exact length_ecb (cipher.length_encrypt key) hblocks
  · exact length_ecb (fun _ => cipher.length_decrypt key) hblocks
  · exact Cbc.length_encrypt (hc.vector iv rfl) hblocks.ge
  · exact Cbc.length_decrypt (hc.vector iv rfl) hblocks

variable {σ : Type}

/-- The engine behind buffers. -/
def Engine.after (e : Engine σ) (s : σ) (bufs : List Bytes) : σ :=
  bufs.foldl (fun s buf => (e.dma s buf).2) s

theorem Engine.run_append (e : Engine σ) (s : σ) (bufs : List Bytes) (buf : Bytes) :
  e.run s (bufs ++ [buf]) = e.run s bufs ++ (e.dma (e.after s bufs) buf).1
  := by
  induction bufs generalizing s with
  | nil =>
      rw [List.nil_append, run, run, run, List.append_nil, List.nil_append]
      rfl
  | cons buf' bufs ih =>
      rw [List.cons_append, run, run, ih, List.append_assoc]
      rfl

theorem Engine.after_append (e : Engine σ) (s : σ) (bufs : List Bytes) (buf : Bytes) :
  e.after s (bufs ++ [buf]) = (e.dma (e.after s bufs) buf).2
  := by
  rw [after, List.foldl_append]
  rfl

theorem dvd_length_flatten {bufs : List Bytes} (h : ∀ buf ∈ bufs, IsChunk buf) :
  16 ∣ bufs.flatten.length
  := by
  induction bufs with
  | nil => exact Nat.dvd_zero 16
  | cons buf bufs ih =>
      obtain ⟨hbuf, hbufs⟩ := List.forall_mem_cons.mp h
      rw [List.flatten_cons, List.length_append]
      exact Nat.dvd_add hbuf.2.1 (ih hbufs)

/-- A continuous engine makes of the next buffer what is next in the stream. -/
theorem Engine.Continuous.next {e : Engine σ} {cipher : BlockCipher} (he : e.Continuous cipher)
    {c : Config} (hc : c.Valid) {bufs : List Bytes} (hbufs : ∀ buf ∈ bufs, IsChunk buf)
    {buf : Bytes} (hbuf : IsChunk buf) :
  oneShot cipher c (bufs.flatten ++ buf) =
      oneShot cipher c bufs.flatten ++ (e.dma (e.after (e.prepare c) bufs) buf).1 ∧
    (e.dma (e.after (e.prepare c) bufs) buf).1.length = buf.length
  := by
  have hall : ∀ b ∈ bufs ++ [buf], IsChunk b := by
    intro b hb
    rcases List.mem_append.mp hb with hfront | hlast
    · exact hbufs b hfront
    · rw [List.mem_singleton.mp hlast]
      exact hbuf
  have hflat : (bufs ++ [buf]).flatten = bufs.flatten ++ buf := by
    rw [List.flatten_append, List.flatten_singleton]
  have hstream := he c hc (bufs ++ [buf]) hall
  rw [e.run_append, he c hc bufs hbufs, hflat] at hstream
  have hfront := length_oneShot cipher hc (dvd_length_flatten hbufs)
  have hwhole := length_oneShot cipher hc (dvd_length_flatten hall)
  rw [hflat, ← hstream, List.length_append, List.length_append, hfront] at hwhole
  exact ⟨hstream.symm, Nat.add_left_cancel hwhole⟩

/-! ### Chunks -/

/-- The bytes that a request reads from the memory. -/
def source (req : Request) (mem : Memory) : Bytes := ((addrs req.src).take req.cryptlen).map mem

/-- What is encrypted, of what is read and what is written. -/
def ciphertext (mode : ℕ) (input output : Bytes) : Bytes :=
  if isDecrypt mode then input else output

/-- The first bytes of a request have been handed to the engine, and what it has made of them is
written. -/
structure Streaming (env : Env σ) (cipher : BlockCipher) (c : Config) (req : Request) (mode : ℕ)
    (mem : Memory) (iv : Bytes) (m : Machine σ) (bufs : List Bytes) (done : ℕ) : Prop where
  chunks : ∀ buf ∈ bufs, IsChunk buf
  stream : bufs.flatten = (source req mem).take done
  engine : m.engine = some (env.engine.after (env.engine.prepare c) bufs)
  mem : m.mem = writeAt mem ((addrs req.dst).take done) (oneShot cipher c bufs.flatten)
  vector : m.iv = if isCbc mode then
    Cbc.chain iv (ciphertext mode bufs.flatten (oneShot cipher c bufs.flatten)) else iv

section

variable {env : Env σ} {req : ScatteredRequest} {mode : ℕ} {mem : Memory}

theorem length_source (req : ScatteredRequest) (mem : Memory) :
  (source req.toRequest mem).length = req.cryptlen
  := by
  rw [source, List.length_map, List.length_take, Nat.min_eq_left req.srcLong]

theorem slice_source {off len : ℕ} (h : off + len ≤ req.cryptlen) :
  slice (source req.toRequest mem) off len = (slice (addrs req.src) off len).map mem
  := by
  rw [source, slice, slice, ← List.map_drop, ← List.map_take, List.drop_take, List.take_take,
    Nat.min_eq_left (by omega)]

theorem dmaCrypt_ok (hwait : ∀ n, env.dmaWait n = 0) {m : Machine σ} {buf : Bytes} {len : ℕ}
    {s : σ} (hbuf : IsChunk buf) (hlen : buf.length = len) (hin : m.bufIn.take len = buf)
    (hengine : m.engine = some s) :
  dmaCrypt env m len =
    ({ m with
      bufOut := overwrite m.bufOut 0 (env.engine.dma s buf).1
      engine := some (env.engine.dma s buf).2
      waits := m.waits + 1 }, 0)
  := by
  subst hlen
  obtain ⟨hpos, hdvd, hle⟩ := hbuf
  rw [dmaCrypt, if_neg (Nat.ne_of_gt hpos), if_neg (not_not.mpr (Nat.mod_eq_zero_of_dvd hdvd)),
    if_neg (Nat.not_lt.mpr hle), if_neg (not_not.mpr (hwait _)), hengine]
  simp only
  rw [hin]

/-- The last block of the first bytes of a list. -/
theorem slice_last (xs : Bytes) {len : ℕ} (h : 16 ≤ len) :
  slice xs (len - 16) 16 = (xs.take len).drop (len - 16)
  := by
  have hblock : len - (len - 16) = 16 := by omega
  rw [List.drop_take, hblock, slice]

/-- The block that is saved, before the chunk is overwritten. -/
theorem saveIv_ok {srcNents : ℕ} (hsrc : req.cryptlen ≤ (addrs (req.src.take srcNents)).length)
    {m : Machine σ} {out : Bytes} {done chunk : ℕ}
    (hmem : m.mem = writeAt mem ((addrs req.dst).take done) out) (hchunk : 16 ≤ chunk)
    (hle : done + chunk ≤ req.cryptlen) :
  ∃ nextIv, saveIv req.toRequest mode srcNents m done chunk = { m with nextIv } ∧
    (isCbc mode = true → isDecrypt mode = true →
      nextIv.take 16 = slice (source req.toRequest mem) (done + chunk - 16) 16)
  := by
  rw [saveIv]
  split
  · have hblock : pcopyToBuffer m.mem req.src srcNents 16 (done + chunk - 16) =
        slice (source req.toRequest mem) (done + chunk - 16) 16 := by
      rw [pcopyToBuffer_eq _ (by omega), hmem, map_writeAt_behind req _ _ (by omega) (by omega),
        slice_source (by omega)]
    have hlen : (slice (source req.toRequest mem) (done + chunk - 16) 16).length = 16 := by
      rw [length_slice]
      rw [length_source]
      omega
    refine ⟨_, rfl, fun _ _ => ?_⟩
    rw [hblock]
    nth_rewrite 1 [← hlen]
    apply take_overwrite_zero
  · next hother =>
    refine ⟨m.nextIv, rfl, fun hcbc hdecrypt => ?_⟩
    rw [hcbc, hdecrypt] at hother
    exact absurd rfl hother

/-- Only vectors are updated. -/
theorem updateIv_frame (mode : ℕ) (m : Machine σ) (chunk : ℕ) :
  (updateIv mode m chunk).mem = m.mem ∧ (updateIv mode m chunk).engine = m.engine
  := by
  rw [updateIv]
  split <;> exact ⟨rfl, rfl⟩

/-- The vector that a chunk leaves is the last block of what is encrypted so far. -/
theorem vector_updateIv {m : Machine σ} {iv input input' output output' : Bytes} {chunk : ℕ}
    (hiv : iv.length = 16) (hchunk : 16 ≤ chunk) (hinput : input'.length = chunk)
    (houtput : m.bufOut.take chunk = output') (hlen : output'.length = chunk)
    (hvector : m.iv = if isCbc mode then Cbc.chain iv (ciphertext mode input output) else iv)
    (hsaved : isCbc mode = true → isDecrypt mode = true →
      m.nextIv.take 16 = input'.drop (chunk - 16)) :
  (updateIv mode m chunk).iv = if isCbc mode then
    Cbc.chain iv (ciphertext mode (input ++ input') (output ++ output')) else iv
  := by
  have hlast {data data' : Bytes} (h : data'.length = chunk) :
      Cbc.chain iv (data ++ data') = data'.drop (chunk - 16) := by
    have hprev := Cbc.length_chain iv data
    rw [Cbc.chain_append, Cbc.chain_eq_drop (by omega), hprev, hiv, h]
  rw [updateIv]
  cases hcbc : isCbc mode with
  | false =>
      rw [hcbc] at hvector
      exact hvector
  | true =>
      rw [if_pos rfl, if_pos rfl, ciphertext]
      cases hdecrypt : isDecrypt mode with
      | false =>
          have hblock : (slice m.bufOut (chunk - 16) 16).length = 16 := by
            rw [slice_last _ hchunk, houtput, List.length_drop]
            omega
          rw [if_neg Bool.false_ne_true, hlast hlen, ← houtput, ← slice_last _ hchunk]
          simp only [Bool.not_false, if_true]
          nth_rewrite 1 [← hblock]
          apply take_overwrite_zero
      | true =>
          rw [if_pos rfl, hlast hinput]
          exact hsaved hcbc hdecrypt

section

variable {cipher : BlockCipher} {c : Config} {iv : Bytes} {srcNents dstNents : ℕ}
  (hsrc : req.cryptlen ≤ (addrs (req.src.take srcNents)).length)
  (hdst : req.cryptlen ≤ (addrs (req.dst.take dstNents)).length)
  (hwait : ∀ n, env.dmaWait n = 0) (he : env.engine.Continuous cipher) (hc : c.Valid)
  (hiv : iv.length = 16)

include hsrc hdst hwait he hc hiv

/-- A chunk is handed to the engine and written. -/
theorem cryptChunk_ok {m : Machine σ} {bufs : List Bytes} {done chunk : ℕ}
    (h : Streaming env cipher c req.toRequest mode mem iv m bufs done)
    (hpos : 0 < chunk) (hdvd : 16 ∣ chunk) (hsize : chunk ≤ bufSize)
    (hle : done + chunk ≤ req.cryptlen) :
  ∃ m' bufs', cryptChunk env req.toRequest mode srcNents dstNents m done chunk = (m', 0) ∧
    Streaming env cipher c req.toRequest mode mem iv m' bufs' (done + chunk)
  := by
  obtain ⟨buf, hbuf⟩ : ∃ buf, buf = slice (source req.toRequest mem) done chunk := ⟨_, rfl⟩
  have hlen : buf.length = chunk := by
    rw [hbuf, length_slice]
    rwa [length_source]
  have hblock : 16 ≤ chunk := Nat.le_of_dvd hpos hdvd
  have hischunk : IsChunk buf := by
    rw [IsChunk, hlen]
    exact ⟨hpos, hdvd, hsize⟩
  have hfront : bufs.flatten.length = done := by
    rw [h.stream, List.length_take, length_source]
    omega
  have hflat : (bufs ++ [buf]).flatten = bufs.flatten ++ buf := by
    rw [List.flatten_append, List.flatten_singleton]
  have hinput : pcopyToBuffer m.mem req.src srcNents chunk done = buf := by
    rw [pcopyToBuffer_eq _ (by omega), h.mem, map_writeAt_behind req _ _ le_rfl hle,
      ← slice_source hle, hbuf]
  obtain ⟨hnext, hout⟩ := he.next hc h.chunks hischunk
  obtain ⟨nextIv, hsave, hsaved⟩ := @saveIv_ok _ req mode _ _ hsrc _ _ _ _ h.mem hblock hle
  obtain ⟨out, hdma⟩ : ∃ out,
    out = (env.engine.dma (env.engine.after (env.engine.prepare c) bufs) buf).1 := ⟨_, rfl⟩
  rw [← hdma] at hnext hout
  have houtput : (overwrite m.bufOut 0 out).take chunk = out := by
    rw [← hlen, ← hout]
    apply take_overwrite_zero
  have hbufIn : (overwrite m.bufIn 0 buf).take chunk = buf := by
    rw [← hlen]
    apply take_overwrite_zero
  have hwritten : writeAt m.mem (slice (addrs req.dst) done chunk) out =
      writeAt mem ((addrs req.dst).take (done + chunk))
        (oneShot cipher c (bufs ++ [buf]).flatten) := by
    have hdstLen := req.dstLong
    rw [h.mem, hflat, hnext, ← take_append_slice, writeAt_append]
    rw [List.length_take, length_oneShot cipher hc (dvd_length_flatten h.chunks), hfront]
    omega
  rw [cryptChunk, hsave]
  simp only
  rw [hinput, if_neg (not_not.mpr hlen)]
  rw [@dmaCrypt_ok σ env hwait { m with nextIv, bufIn := overwrite m.bufIn 0 buf } buf chunk _
    hischunk hlen hbufIn h.engine, ← hdma]
  simp only [ne_eq, not_true_eq_false, if_false]
  rw [houtput, pcopyFromBuffer_eq _ (by omega), hout, hlen, hwritten]
  simp only [not_true_eq_false, if_false]
  refine ⟨_, bufs ++ [buf], rfl, ?_⟩
  constructor
  · intro b hb
    rcases List.mem_append.mp hb with hb | hb
    · exact h.chunks b hb
    · rw [List.mem_singleton.mp hb]
      exact hischunk
  · rw [hflat, h.stream, hbuf, take_append_slice]
  · rw [(updateIv_frame mode _ chunk).2, env.engine.after_append]
  · rw [(updateIv_frame mode _ chunk).1]
  · rw [hflat, hnext]
    refine vector_updateIv hiv hblock hlen houtput (hout.trans hlen) ?_ ?_
    · exact h.vector
    intro hcbc hdecrypt
    have hfirst : done + chunk - 16 = done + (chunk - 16) := by omega
    have hblock' : chunk - (chunk - 16) = 16 := by omega
    rw [hsaved hcbc hdecrypt, hbuf, slice, slice, List.drop_take, List.drop_drop, hfirst, hblock']

/-- The loop hands all chunks to the engine, one after the other. -/
theorem cryptLoop_ok (hblocks : 16 ∣ req.cryptlen) {m : Machine σ} {bufs : List Bytes} {done : ℕ}
    (h : Streaming env cipher c req.toRequest mode mem iv m bufs done) (hdone : 16 ∣ done)
    (hle : done ≤ req.cryptlen) :
  ∃ m' bufs', cryptLoop env req.toRequest mode srcNents dstNents m done = (m', 0) ∧
    Streaming env cipher c req.toRequest mode mem iv m' bufs' req.cryptlen
  := by
  obtain ⟨left, hleft⟩ : ∃ left, left = req.cryptlen - done := ⟨_, rfl⟩
  induction left using Nat.strongRecOn generalizing m bufs done with
  | _ left ih =>
      rw [cryptLoop]
      split
      · next hmore =>
        have hsize : bufSize = 16384 := rfl
        obtain ⟨chunk, hchunk⟩ : ∃ chunk,
          chunk = min (req.cryptlen - done) bufSize / 16 * 16 := ⟨_, rfl⟩
        rw [← hchunk]
        have hpos : 0 < chunk := by omega
        have hdvd : 16 ∣ chunk := by omega
        have hfits : done + chunk ≤ req.cryptlen := by omega
        obtain ⟨m', bufs', hm', hstreaming⟩ :=
          cryptChunk_ok hsrc hdst hwait he hc hiv h hpos hdvd (by omega) hfits
        rw [dif_neg (Nat.ne_of_gt hpos), hm']
        simp only [ne_eq, not_true_eq_false, if_false]
        exact ih (req.cryptlen - (done + chunk)) (by omega) hstreaming (by omega) hfits rfl
      · next hend =>
        obtain rfl : done = req.cryptlen := by omega
        exact ⟨m, bufs, rfl, h⟩

end

end

/-! ### The whole request -/

/-- A key that has been set has a length that the engine knows. -/
theorem keylOf_of_setkeyCommon {key : Bytes} (h : setkeyCommon key = 0) :
  ∃ keyl, keylOf key.length = some keyl
  := by
  rw [setkeyCommon] at h
  split at h
  · cases h
  · next hlen =>
    have hcases : key.length = 16 ∨ key.length = 24 ∨ key.length = 32 := by omega
    rcases hcases with hlen | hlen | hlen <;> rw [hlen] <;> exact ⟨_, rfl⟩

/-- What a request prepares the engine with. -/
def configOf (keyl mode : ℕ) (iv key : Bytes) : Config where
  keyl
  alg := if isCbc mode then .cbc iv else .ecb
  dir := if isDecrypt mode then .decrypt else .encrypt
  key

/-- What the calls of a driver that works return. -/
structure Env.Works (env : Env σ) : Prop where
  present : env.present = true
  clkAes : env.clkAes = 0
  clkPdma : env.clkPdma = 0
  waitKey : env.waitKey = 0
  dmaWait : ∀ n, env.dmaWait n = 0

/-- With an engine that takes the chunks as one stream, a request whose key has been set writes
the one-shot operation on all that it reads, and nothing else, and in CBC mode leaves the last
block that is encrypted as its vector. -/
theorem crypt_oneShot {env : Env σ} {cipher : BlockCipher} (hworks : env.Works)
    (he : env.engine.Continuous cipher) (req : ScatteredRequest) (mode : ℕ)
    (hblocks : 16 ∣ req.cryptlen) (hkey : setkeyCommon req.key = 0) (m : Machine σ)
    (hiv : m.iv.length = 16) :
  ∃ m' keyl output, crypt env req.toRequest mode m = (m', 0) ∧
    keylOf req.key.length = some keyl ∧
    output = oneShot cipher (configOf keyl mode m.iv req.key) (source req.toRequest m.mem) ∧
    ((addrs req.dst).take req.cryptlen).map m'.mem = output ∧
    (∀ a, a ∉ (addrs req.dst).take req.cryptlen → m'.mem a = m.mem a) ∧
    m'.iv = if isCbc mode then
      (ciphertext mode (source req.toRequest m.mem) output).drop (req.cryptlen - 16) else m.iv
  := by
  obtain ⟨keyl, hkeyl⟩ := keylOf_of_setkeyCommon hkey
  have hpos := req.pos
  have hblock : 16 ≤ req.cryptlen := Nat.le_of_dvd hpos hblocks
  have hvalid : (configOf keyl mode m.iv req.key).Valid := by
    constructor
    · exact hkeyl
    · intro iv h
      rw [configOf] at h
      simp only at h
      split at h
      · cases h
        exact hiv
      · cases h
  obtain ⟨srcNents, hsrcNents, hsrc⟩ := nentsForLen_addrs req.srcLong
  obtain ⟨dstNents, hdstNents, hdst⟩ := nentsForLen_addrs req.dstLong
  obtain ⟨m₀, hm₀⟩ : ∃ m₀, m₀ = { m with
    engine := some (env.engine.prepare (configOf keyl mode m.iv req.key)) } := ⟨_, rfl⟩
  have hprepare : prepare env req.toRequest mode m = (m₀, 0) := by
    rw [prepare, hkeyl, hm₀, hworks.waitKey]
    rfl
  have hstart : Streaming env cipher (configOf keyl mode m.iv req.key) req.toRequest mode m.mem
      m.iv m₀ [] 0 := by
    rw [hm₀]
    constructor
    · intro buf hbuf
      cases hbuf
    · rfl
    · rfl
    · rfl
    · have hnil : oneShot cipher (configOf keyl mode m.iv req.key) [] = [] :=
        List.length_eq_zero_iff.mp (length_oneShot cipher hvalid (Nat.dvd_zero 16))
      rw [List.flatten_nil, hnil, ciphertext, ite_self, Cbc.chain_nil, ite_self]
  obtain ⟨m', bufs, hm', hend⟩ := cryptLoop_ok hsrc hdst hworks.dmaWait he hvalid hiv hblocks
    hstart (Nat.dvd_zero 16) (Nat.zero_le _)
  have hsource := length_source req m.mem
  have hall : bufs.flatten = source req.toRequest m.mem := by
    rw [hend.stream, List.take_of_length_le hsource.le]
  obtain ⟨output, houtput⟩ : ∃ output, output =
    oneShot cipher (configOf keyl mode m.iv req.key) (source req.toRequest m.mem) := ⟨_, rfl⟩
  have hlen : output.length = req.cryptlen := by
    rw [houtput, length_oneShot cipher hvalid (by rwa [hsource]), hsource]
  have hmem := hend.mem
  have hvector := hend.vector
  rw [hall, ← houtput] at hmem hvector
  refine ⟨{ m' with engine := none }, keyl, output, ?_, hkeyl, houtput, ?_, ?_, ?_⟩
  · rw [crypt, hworks.present, Bool.not_true, if_neg Bool.false_ne_true,
      if_neg (not_not.mpr (Nat.mod_eq_zero_of_dvd hblocks)), if_neg (Nat.ne_of_gt hpos), hsrcNents]
    simp only
    rw [hdstNents]
    simp only
    rw [if_neg (not_not.mpr hworks.clkAes), if_neg (not_not.mpr hworks.clkPdma), hprepare]
    simp only [ne_eq, not_true_eq_false, if_false]
    rw [hm']
  · simp only
    rw [hmem, map_writeAt req.nodup]
    rw [List.length_take, Nat.min_eq_left req.dstLong, hlen]
  · intro a ha
    simp only
    rw [hmem, writeAt_of_not_mem ha]
  · simp only
    have hciphertext : (ciphertext mode (source req.toRequest m.mem) output).length =
        req.cryptlen := by
      rw [ciphertext]
      split
      · exact hsource
      · exact hlen
    rw [hvector, Cbc.chain_eq_drop (by omega), hciphertext, hiv]

/-! ### An engine that keeps the vector -/

/-- An engine whose vector becomes the last block that is encrypted. -/
def chaining (cipher : BlockCipher) : Engine Config where
  prepare c := c
  dma c buf :=
    let out := oneShot cipher c buf
    let alg := match c.alg, c.dir with
      | .ecb, _ => .ecb
      | .cbc iv, .encrypt => .cbc (Cbc.chain iv out)
      | .cbc iv, .decrypt => .cbc (Cbc.chain iv buf)
    (out, { c with alg })

theorem valid_chaining (cipher : BlockCipher) {c : Config} (hc : c.Valid) (buf : Bytes) :
  ((chaining cipher).dma c buf).2.Valid
  := by
  obtain ⟨keyl, alg, dir, key⟩ := c
  constructor
  · exact hc.keyl
  · intro iv h
    rcases alg with _ | iv₀
    · cases h
    · have hiv := hc.vector iv₀ rfl
      rcases dir with _ | _ <;> cases h <;> rwa [Cbc.length_chain]

/-- The operation on two parts of the data. -/
theorem oneShot_append (cipher : BlockCipher) {c : Config} (hc : c.Valid) {data : Bytes}
    (h : 16 ∣ data.length) (data' : Bytes) :
  oneShot cipher c (data ++ data') =
    oneShot cipher c data ++ oneShot cipher ((chaining cipher).dma c data).2 data'
  := by
  have hblocks : data.length = 16 * (data.length / 16) := (Nat.mul_div_cancel' h).symm
  have hsum : (data ++ data').length / 16 = data.length / 16 + data'.length / 16 := by
    rw [List.length_append]
    omega
  obtain ⟨keyl, alg, dir, key⟩ := c
  rcases alg with _ | iv <;> rcases dir with _ | _
  all_goals simp only [oneShot, chaining, hsum]
  · exact ecb_append _ hblocks _ data'
  · exact ecb_append _ hblocks _ data'
  · exact Cbc.encrypt_append (hc.vector iv rfl) hblocks _ data'
  · exact Cbc.decrypt_append (hc.vector iv rfl) hblocks _ data'

/-- Such an engine takes the buffers as one stream. -/
theorem continuous_chaining (cipher : BlockCipher) : (chaining cipher).Continuous cipher := by
  intro c hc bufs hbufs
  change (chaining cipher).run c bufs = _
  induction bufs generalizing c with
  | nil =>
      have hlen := @length_oneShot cipher c hc [] (Nat.dvd_zero 16)
      exact (List.length_eq_zero_iff.mp hlen).symm
  | cons buf bufs ih =>
      obtain ⟨hbuf, hbufs⟩ := List.forall_mem_cons.mp hbufs
      rw [Engine.run, ih _ (valid_chaining cipher hc buf) hbufs, List.flatten_cons,
        oneShot_append cipher hc hbuf.2.1]
      rfl

/-- A request of two chunks of which the second has one block. -/
def twoChunks : ScatteredRequest where
  src := [⟨0, 16400, by decide⟩]
  dst := [⟨0, 16400, by decide⟩]
  cryptlen := 16400
  key := List.replicate 16 1
  pos := by decide
  srcLong := by
    rw [addrs, List.flatMap_cons, List.length_append, List.length_range']
    exact Nat.le_add_right _ _
  dstLong := by
    rw [addrs, List.flatMap_cons, List.length_append, List.length_range']
    exact Nat.le_add_right _ _
  nodup := by
    rw [addrs, List.flatMap_singleton]
    exact (List.nodup_range').sublist (List.take_sublist _ _)
  inPlace := .inl rfl

/-- A driver that works on an engine that keeps the vector. -/
def working (cipher : BlockCipher) : Env Config where
  present := true
  clkAes := 0
  clkPdma := 0
  waitKey := 0
  dmaWait _ := 0
  engine := chaining cipher

theorem works_working (cipher : BlockCipher) : (working cipher).Works :=
  ⟨rfl, rfl, rfl, rfl, fun _ => rfl⟩

/-- A memory and buffers of zeros. -/
def zeroed : Machine Config where
  mem _ := 0
  iv := List.replicate 16 7
  nextIv := List.replicate 16 0
  bufIn := List.replicate bufSize 0
  bufOut := List.replicate bufSize 0
  engine := none
  waits := 0

/-- Two chunks decrypted in place. -/
theorem crypt_twoChunks :
  ∃ m' keyl output, crypt (working Cbc.vernam) twoChunks.toRequest 3 zeroed = (m', 0) ∧
    keylOf twoChunks.key.length = some keyl ∧
    output = oneShot Cbc.vernam (configOf keyl 3 zeroed.iv twoChunks.key)
      (source twoChunks.toRequest zeroed.mem) ∧
    ((addrs twoChunks.dst).take twoChunks.cryptlen).map m'.mem = output ∧
    (∀ a, a ∉ (addrs twoChunks.dst).take twoChunks.cryptlen → m'.mem a = zeroed.mem a) ∧
    m'.iv = if isCbc 3 then
      (ciphertext 3 (source twoChunks.toRequest zeroed.mem) output).drop (twoChunks.cryptlen - 16)
      else zeroed.iv
  := crypt_oneShot (works_working Cbc.vernam) (continuous_chaining Cbc.vernam) twoChunks 3
    (by decide) (by decide) zeroed (by decide)

end IngenicAes.Crypt
