import CatplayFirmware.Support.Endian

/-!
# Counter blocks

The counter of a request is a number of 128 bits, the most significant byte first. The driver
writes runs of counter blocks word by word, in the byte order of the CPU: in a run the lowest byte
of the counter does not overflow, so that the last word is increased as it stands in memory.
-/

namespace IngenicAes

open Bytes

/-- The byte order of the CPU. -/
inductive ByteOrder
  | little
  | big

/-- The word that four bytes are to the CPU. -/
def load32 : ByteOrder → Bytes → UInt32
  | .little, bytes => UInt32.ofNat (leNat bytes)
  | .big, bytes => UInt32.ofNat (beNat bytes)

/-- The bytes of a word in memory. -/
def store32 : ByteOrder → UInt32 → Bytes
  | .little, w => leBytes 4 w.toNat
  | .big, w => beBytes 4 w.toNat

/-- `cpu_to_be32`: the word whose bytes in memory are those of `w`, the most significant first. -/
def cpuToBe32 (order : ByteOrder) (w : UInt32) : UInt32 := load32 order (beBytes 4 w.toNat)

/-- `get_unaligned_be32`. -/
def getBe32 (bytes : Bytes) : UInt32 := UInt32.ofNat (beNat bytes)

def putBe32 (w : UInt32) : Bytes := beBytes 4 w.toNat

/-- The rounds of `crypto_inc` from the last byte on. -/
def increase : Bytes → Bytes
  | [] => []
  | b :: bs => if b + 1 ≠ 0 then (b + 1) :: bs else (b + 1) :: increase bs

/-- `crypto_inc`, which goes from the last byte to the first. -/
def cryptoInc (bytes : Bytes) : Bytes := (increase bytes.reverse).reverse

/-! ### Filling -/

/-- The four words of a counter block in memory. -/
def block (order : ByteOrder) (w0 w1 w2 c : UInt32) : Bytes :=
  store32 order w0 ++ store32 order w1 ++ store32 order w2 ++ store32 order c

/-- The loop that writes four blocks in a round. -/
def fillFours (put : UInt32 → Bytes) (inc : UInt32) :
    ℕ → UInt32 → UInt32 → UInt32 → UInt32 → Bytes
  | 0, _, _, _, _ => []
  | n + 1, c0, c1, c2, c3 =>
    put c0 ++ put c1 ++ put c2 ++ put c3 ++
      fillFours put inc n (c0 + inc) (c1 + inc) (c2 + inc) (c3 + inc)

/-- The loop that writes one block in a round. -/
def fillOnes (put : UInt32 → Bytes) (inc : UInt32) : ℕ → UInt32 → Bytes
  | 0, _ => []
  | n + 1, c => put c ++ fillOnes put inc n (c + inc)

/-- The blocks up to the next overflow of the lowest byte of the counter. -/
def fillRun (order : ByteOrder) (put : UInt32 → Bytes) (ctr : UInt32) (n : ℕ) : Bytes :=
  fillFours put (cpuToBe32 order 4) (n / 4) (cpuToBe32 order ctr) (cpuToBe32 order (ctr + 1))
      (cpuToBe32 order (ctr + 2)) (cpuToBe32 order (ctr + 3)) ++
    fillOnes put (cpuToBe32 order 1) (n % 4) (cpuToBe32 order (ctr + UInt32.ofNat (n / 4 * 4)))

/-- The loop over the runs: what is written, and the counter behind it. -/
def fillRuns (order : ByteOrder) (put : UInt32 → Bytes) (ctr : UInt32) (blocks : ℕ) :
    Bytes × UInt32 :=
  if _h : blocks = 0 then ([], ctr)
  else
    let n := min blocks (256 - ctr.toNat % 256)
    let (rest, last) := fillRuns order put (ctr + UInt32.ofNat n) (blocks - n)
    (fillRun order put ctr n ++ rest, last)
termination_by blocks
decreasing_by
  have hlow : ctr.toNat % 256 < 256 := Nat.mod_lt _ (by decide)
  omega

/-- The loop that is taken when the last word of the counter overflows. -/
def fillSlowly : ℕ → Bytes → Bytes × Bytes
  | 0, iv => ([], iv)
  | n + 1, iv =>
    let (rest, last) := fillSlowly n (cryptoInc iv)
    (iv ++ rest, last)

/-- `ingenic_aes_ctr_fill_counter_blocks`: what is written to `dst`, and `iv` after the call. -/
def fillCounterBlocks (order : ByteOrder) (iv : Bytes) (len : ℕ) : Bytes × Bytes :=
  let blocks := len / 16
  let w0 := load32 order (slice iv 0 4)
  let w1 := load32 order (slice iv 4 4)
  let w2 := load32 order (slice iv 8 4)
  let ctr := getBe32 (slice iv 12 4)
  if 2 ^ 32 - 1 - ctr.toNat < blocks then fillSlowly ((len + 15) / 16) iv
  else
    let (out, ctr) := fillRuns order (block order w0 w1 w2) ctr blocks
    (out, overwrite iv 12 (putBe32 ctr))

/-! ### Words -/

/-- A word is stored as it was loaded, in either order of bytes. -/
theorem store32_load32 (order : ByteOrder) {bytes : Bytes} (h : bytes.length = 4) :
  store32 order (load32 order bytes) = bytes
  := by
  have hlt : leNat bytes < 2 ^ 32 := leNat_lt_of_length h
  have hlt' : leNat bytes.reverse < 2 ^ 32 := leNat_lt_of_length (List.length_reverse.trans h)
  cases order with
  | little =>
      rw [store32, load32, UInt32.toNat_ofNat', Nat.mod_eq_of_lt hlt, ← h, leBytes_leNat]
  | big =>
      rw [store32, load32, UInt32.toNat_ofNat', beNat, Nat.mod_eq_of_lt hlt', ← h]
      apply beBytes_beNat

/-- In either order the last byte of a counter is the lowest. -/
theorem store32_cpuToBe32 (order : ByteOrder) (w : UInt32) :
  store32 order (cpuToBe32 order w) = beBytes 4 w.toNat
  := store32_load32 order (length_beBytes 4 _)

/-- Without an overflow of its lowest byte a word is increased as it stands in memory. -/
theorem cpuToBe32_add (order : ByteOrder) {w k : UInt32} (h : w.toNat % 256 + k.toNat < 256) :
  cpuToBe32 order w + cpuToBe32 order k = cpuToBe32 order (w + k)
  := by
  have hw := w.toNat_lt
  cases order with
  | little =>
      have hsum : (w + k).toNat = w.toNat + k.toNat := by
        rw [UInt32.toNat_add]
        omega
      have hdiv : (w.toNat + k.toNat) / 256 = w.toNat / 256 := by omega
      have hmod : (w.toNat + k.toNat) % 256 = w.toNat % 256 + k.toNat := by omega
      have hzero : k.toNat / 256 = 0 := by omega
      have hsame : k.toNat % 256 = k.toNat := by omega
      rw [← UInt32.toNat_inj]
      simp only [cpuToBe32, load32, beBytes, leBytes, List.reverse_cons, List.reverse_nil,
        List.nil_append, List.cons_append, leNat, UInt32.toNat_add, UInt32.toNat_ofNat',
        UInt8.toNat_ofNat', hsum, hdiv, hmod, hzero, hsame]
      omega
  | big =>
      have hsame (x : UInt32) : load32 .big (beBytes 4 x.toNat) = x := by
        rw [load32, beNat_beBytes x.toNat_lt, UInt32.ofNat_toNat]
      rw [cpuToBe32, cpuToBe32, cpuToBe32, hsame, hsame, hsame]

/-! ### What is written -/

/-- The blocks that `f` has for `count` numbers from `start` on. -/
def blocksFrom (f : ℕ → Bytes) (start : ℕ) : ℕ → Bytes
  | 0 => []
  | count + 1 => f start ++ blocksFrom f (start + 1) count

/-- The counter blocks from a number on. -/
def counters (start count : ℕ) : Bytes := blocksFrom (beBytes 16) start count

/-- Blocks behind blocks. -/
theorem blocksFrom_add (f : ℕ → Bytes) (start a b : ℕ) :
  blocksFrom f start (a + b) = blocksFrom f start a ++ blocksFrom f (start + a) b
  := by
  induction a generalizing start with
  | zero => rw [Nat.zero_add, Nat.add_zero, blocksFrom, List.nil_append]
  | succ a ih =>
      rw [Nat.add_right_comm, blocksFrom, ih, blocksFrom, List.append_assoc, Nat.add_assoc,
        Nat.add_comm 1 a]

theorem blocksFrom_congr {f f' : ℕ → Bytes} {start start' count : ℕ}
    (h : ∀ i < count, f (start + i) = f' (start' + i)) :
  blocksFrom f start count = blocksFrom f' start' count
  := by
  induction count generalizing start start' with
  | zero => rfl
  | succ count ih =>
      have hfirst := h 0 (Nat.succ_pos count)
      rw [Nat.add_zero, Nat.add_zero] at hfirst
      rw [blocksFrom, blocksFrom, hfirst, ih]
      intro i hi
      have hnext := h (i + 1) (Nat.succ_lt_succ hi)
      rwa [← Nat.add_assoc, ← Nat.add_assoc, Nat.add_right_comm, Nat.add_right_comm start'] at hnext

theorem length_blocksFrom {f : ℕ → Bytes} (h : ∀ n, (f n).length = 16) (start count : ℕ) :
  (blocksFrom f start count).length = 16 * count
  := by
  induction count generalizing start with
  | zero => rfl
  | succ count ih =>
      rw [blocksFrom, List.length_append, h, ih]
      omega

/-- The carry is that of the number. -/
theorem increase_leBytes (k n : ℕ) : increase (leBytes k n) = leBytes k (n + 1) := by
  induction k generalizing n with
  | zero => rfl
  | succ k ih =>
      have hbyte : UInt8.ofNat n + 1 = UInt8.ofNat (n + 1) := by
        rw [UInt8.ofNat_add]
        rfl
      rw [leBytes, increase, hbyte, ih, leBytes]
      split
      · next hne =>
        have hlow : (n + 1) % 256 ≠ 0 := by
          intro hzero
          apply hne
          rw [← UInt8.toNat_inj, UInt8.toNat_ofNat']
          exact hzero
        have hdiv : (n + 1) / 256 = n / 256 := by omega
        rw [hdiv]
      · next hzero =>
        have hlow : (n + 1) % 256 = 0 := by
          have hcast := congrArg UInt8.toNat (not_not.mp hzero)
          rwa [UInt8.toNat_ofNat'] at hcast
        have hdiv : (n + 1) / 256 = n / 256 + 1 := by omega
        rw [hdiv]

/-- `crypto_inc` increases a number. -/
theorem cryptoInc_beBytes (k n : ℕ) : cryptoInc (beBytes k n) = beBytes k (n + 1) := by
  rw [cryptoInc, beBytes, List.reverse_reverse, increase_leBytes, beBytes]

/-- The slow loop is `crypto_inc`, block after block. -/
theorem fillSlowly_eq (count n : ℕ) :
  fillSlowly count (beBytes 16 n) = (counters n count, beBytes 16 (n + count))
  := by
  induction count generalizing n with
  | zero => rfl
  | succ count ih =>
      rw [fillSlowly, cryptoInc_beBytes, ih, counters, counters, blocksFrom, Nat.add_assoc,
        Nat.add_comm 1 count]

/-- The word in memory of the lowest 32 bits of a counter. -/
def word (order : ByteOrder) (n : ℕ) : UInt32 := cpuToBe32 order (UInt32.ofNat n)

/-- A sum of words has no carry as long as the lowest byte has none. -/
theorem word_add (order : ByteOrder) {n k : ℕ} (h : n % 256 + k < 256) :
  word order n + word order k = word order (n + k)
  := by
  rw [word, word, word, UInt32.ofNat_add]
  apply cpuToBe32_add
  rw [UInt32.toNat_ofNat', UInt32.toNat_ofNat']
  omega

section

variable (order : ByteOrder) (put : UInt32 → Bytes)

/-- The loop over single blocks. -/
theorem fillOnes_eq {n count : ℕ} (h : n % 256 + count ≤ 256) :
  fillOnes put (word order 1) count (word order n) =
    blocksFrom (fun i => put (word order i)) n count
  := by
  induction count generalizing n with
  | zero => rfl
  | succ count ih =>
      rw [fillOnes, blocksFrom]
      cases count with
      | zero => rfl
      | succ count =>
          rw [word_add order (by omega), ih]
          omega

/-- The loop over four blocks at a time. -/
theorem fillFours_eq {n count : ℕ} (h : n % 256 + 4 * count ≤ 256) :
  fillFours put (word order 4) count (word order n) (word order (n + 1)) (word order (n + 2))
    (word order (n + 3)) = blocksFrom (fun i => put (word order i)) n (4 * count)
  := by
  induction count generalizing n with
  | zero => rfl
  | succ count ih =>
      have hfour : 4 * (count + 1) = 4 + 4 * count := by omega
      have hfirst : blocksFrom (fun i => put (word order i)) n 4 = put (word order n) ++
          put (word order (n + 1)) ++ put (word order (n + 2)) ++ put (word order (n + 3)) := by
        simp only [blocksFrom, List.append_nil, List.append_assoc]
      rw [fillFours, hfour, blocksFrom_add, hfirst]
      cases count with
      | zero => rfl
      | succ count =>
          have hnext (k : ℕ) (hk : k < 4) :
              word order (n + k) + word order 4 = word order (n + 4 + k) := by
            rw [word_add order (by omega), Nat.add_right_comm]
          have hzero := hnext 0 (by omega)
          rw [Nat.add_zero, Nat.add_zero] at hzero
          rw [hzero, hnext 1 (by omega), hnext 2 (by omega), hnext 3 (by omega), ih]
          omega

/-- A run up to the carry of the lowest byte. -/
theorem fillRun_eq {n count : ℕ} (h : n % 256 + count ≤ 256) :
  fillRun order put (UInt32.ofNat n) count = blocksFrom (fun i => put (word order i)) n count
  := by
  have hsplit : count = 4 * (count / 4) + count % 4 := (Nat.div_add_mod count 4).symm
  have hcast (k : ℕ) : cpuToBe32 order (UInt32.ofNat n + UInt32.ofNat k) = word order (n + k) := by
    rw [word, UInt32.ofNat_add]
  have hfours := @fillFours_eq order put n (count / 4) (by omega)
  have hones := @fillOnes_eq order put (n + count / 4 * 4) (count % 4) (by omega)
  rw [fillRun]
  refine Eq.trans ?_ (congrArg (blocksFrom _ n) hsplit.symm)
  rw [blocksFrom_add, Nat.mul_comm 4, ← Nat.mul_comm 4, ← hfours, Nat.mul_comm 4, ← hones, hcast]
  congr 1
  rw [← hcast 1, ← hcast 2, ← hcast 3]
  rfl

/-- The runs up to the end, by induction on how many blocks are left. -/
theorem fillRuns_eq {n count : ℕ} :
  fillRuns order put (UInt32.ofNat n) count =
    (blocksFrom (fun i => put (word order i)) n count, UInt32.ofNat (n + count))
  := by
  induction count using Nat.strong_induction_on generalizing n with
  | _ count ih =>
      rw [fillRuns]
      split
      · next hzero =>
        rw [hzero]
        rfl
      · next hne =>
        have hlow : (UInt32.ofNat n).toNat % 256 = n % 256 := by
          rw [UInt32.toNat_ofNat']
          omega
        rw [hlow]
        simp only
        obtain ⟨k, hk⟩ : ∃ k, k = min count (256 - n % 256) := ⟨_, rfl⟩
        rw [← hk, ← UInt32.ofNat_add, ih (count - k) (by omega), fillRun_eq order put (by omega)]
        have hsum : count = k + (count - k) := by omega
        simp only
        rw [← blocksFrom_add, ← hsum, Nat.add_assoc, ← hsum]

end

/-- A counter is three words that are kept and one that is counted. -/
theorem beBytes_sixteen (n : ℕ) :
  beBytes 16 n = beBytes 12 (n / 2 ^ 32) ++ beBytes 4 n
  := beBytes_add 4 12 n

theorem take_beBytes_sixteen (n : ℕ) :
  (beBytes 16 n).take 12 = beBytes 12 (n / 2 ^ 32)
  := by
  rw [beBytes_sixteen, List.take_left' (length_beBytes 12 _)]

theorem beBytes_low (n : ℕ) : beBytes 4 (n % 2 ^ 32) = beBytes 4 n := beBytes_mod 4 n

/-- A counter whose last word does not overflow. -/
theorem beBytes_counter {n i : ℕ} (h : n % 2 ^ 32 + i < 2 ^ 32) :
  beBytes 12 (n / 2 ^ 32) ++ beBytes 4 (n % 2 ^ 32 + i) = beBytes 16 (n + i)
  := by
  have hdiv : (n + i) / 2 ^ 32 = n / 2 ^ 32 := by omega
  have hmod : n % 2 ^ 32 + i = (n + i) % 2 ^ 32 := by omega
  rw [beBytes_sixteen, hmod, hdiv, beBytes_low]

/-- The words of a counter block in memory. -/
theorem block_eq (order : ByteOrder) {n i : ℕ} (h : n % 2 ^ 32 + i < 2 ^ 32) :
  block order (load32 order (slice (beBytes 16 n) 0 4)) (load32 order (slice (beBytes 16 n) 4 4))
    (load32 order (slice (beBytes 16 n) 8 4)) (word order (n % 2 ^ 32 + i)) = beBytes 16 (n + i)
  := by
  have hlen (off : ℕ) (hoff : off + 4 ≤ 16) : (slice (beBytes 16 n) off 4).length = 4 := by
    apply length_slice
    rw [length_beBytes]
    exact hoff
  have hwords : slice (beBytes 16 n) 0 4 ++ slice (beBytes 16 n) 4 4 ++ slice (beBytes 16 n) 8 4 =
      beBytes 12 (n / 2 ^ 32) := by
    rw [← take_beBytes_sixteen, ← slice_add, ← slice_add]
    rfl
  have hsmall : (UInt32.ofNat (n % 2 ^ 32 + i)).toNat = n % 2 ^ 32 + i := by
    rw [UInt32.toNat_ofNat', Nat.mod_eq_of_lt h]
  rw [block, store32_load32 order (hlen 0 (by omega)), store32_load32 order (hlen 4 (by omega)),
    store32_load32 order (hlen 8 (by omega)), word, store32_cpuToBe32, hsmall, hwords,
    beBytes_counter h]

/-- The driver writes the counter blocks from the counter on, in either byte order, and leaves
the counter behind them. -/
theorem fillCounterBlocks_eq (order : ByteOrder) (n count : ℕ) :
  fillCounterBlocks order (beBytes 16 n) (16 * count) =
    (counters n count, beBytes 16 (n + count))
  := by
  have hlast : slice (beBytes 16 n) 12 4 = beBytes 4 (n % 2 ^ 32) := by
    rw [beBytes_sixteen, slice, List.drop_left' (length_beBytes 12 _), List.take_of_length_le,
      beBytes_low]
    rw [length_beBytes]
  have hctr : getBe32 (slice (beBytes 16 n) 12 4) = UInt32.ofNat (n % 2 ^ 32) := by
    have hlow : n % 2 ^ 32 < 256 ^ 4 := Nat.mod_lt _ (by norm_num)
    rw [hlast, getBe32, beNat_beBytes hlow]
  have hblocks : 16 * count / 16 = count := by omega
  have hrounds : (16 * count + 15) / 16 = count := by omega
  rw [fillCounterBlocks, hctr, hblocks, hrounds]
  simp only
  split
  · apply fillSlowly_eq
  · next hfits =>
    rw [UInt32.toNat_ofNat', Nat.mod_mod] at hfits
    rw [fillRuns_eq]
    simp only
    congr 1
    · apply blocksFrom_congr
      intro i hi
      apply block_eq order
      omega
    · have hsmall : (UInt32.ofNat (n % 2 ^ 32 + count)).toNat = n % 2 ^ 32 + count := by
        rw [UInt32.toNat_ofNat', Nat.mod_eq_of_lt]
        omega
      rw [overwrite, putBe32, hsmall, length_beBytes, List.drop_of_length_le, List.append_nil,
        take_beBytes_sixteen, beBytes_counter]
      · omega
      · rw [length_beBytes]

theorem length_counters (start count : ℕ) : (counters start count).length = 16 * count :=
  length_blocksFrom (length_beBytes 16) start count

/-! ### The plain generator -/

/-- `crypto_inc` called again and again adds to a counter. -/
theorem iterate_cryptoInc {iv : Bytes} (h : iv.length = 16) (i : ℕ) :
  cryptoInc^[i] iv = beBytes 16 (beNat iv + i)
  := by
  induction i with
  | zero => rw [Function.iterate_zero, id, Nat.add_zero, ← h, beBytes_beNat]
  | succ i ih => rw [Function.iterate_succ_apply', ih, cryptoInc_beBytes, Nat.add_assoc]

theorem blocksFrom_eq_flatMap (f : ℕ → Bytes) (start count : ℕ) :
  blocksFrom f start count = (List.range count).flatMap fun i => f (start + i)
  := by
  induction count with
  | zero => rfl
  | succ count ih =>
      rw [blocksFrom_add f start count 1, ih, List.range_succ, List.flatMap_append,
        List.flatMap_singleton, blocksFrom, blocksFrom, List.append_nil]

/-- The fast generator does what the plain one does: it writes the counter and those that
`crypto_inc` makes of it, and leaves the next one. -/
theorem fillCounterBlocks_eq_cryptoInc (order : ByteOrder) {iv : Bytes} (hiv : iv.length = 16)
    {len : ℕ} (hlen : 16 ∣ len) :
  fillCounterBlocks order iv len =
      ((List.range (len / 16)).flatMap fun i => cryptoInc^[i] iv, cryptoInc^[len / 16] iv) ∧
    ∀ i, cryptoInc^[i] iv = beBytes 16 ((beNat iv + i) % 2 ^ 128)
  := by
  obtain ⟨count, rfl⟩ := hlen
  have hcount : 16 * count / 16 = count := Nat.mul_div_cancel_left count (by decide)
  have hstart : iv = beBytes 16 (beNat iv) := iterate_cryptoInc hiv 0
  have hblock : (fun i => cryptoInc^[i] iv) = fun i => beBytes 16 (beNat iv + i) :=
    funext (iterate_cryptoInc hiv)
  constructor
  · have hfill := fillCounterBlocks_eq order (beNat iv) count
    rw [← hstart] at hfill
    rw [hcount, hblock, iterate_cryptoInc hiv, hfill, counters, blocksFrom_eq_flatMap]
  · intro i
    rw [iterate_cryptoInc hiv]
    exact (beBytes_mod 16 (beNat iv + i)).symm

/-- The counter overflows in the second of three blocks. -/
theorem fillCounterBlocks_overflow :
  fillCounterBlocks .little (List.replicate 16 0xFF) 48 =
      ((List.range 3).flatMap fun i => cryptoInc^[i] (List.replicate 16 0xFF),
        cryptoInc^[3] (List.replicate 16 0xFF)) ∧
    ∀ i, cryptoInc^[i] (List.replicate 16 0xFF) =
      beBytes 16 ((beNat (List.replicate 16 0xFF) + i) % 2 ^ 128)
  := fillCounterBlocks_eq_cryptoInc .little List.length_replicate (by decide)

end IngenicAes
