import CatplayFirmware.Support.Bytes
import Mathlib.Data.Set.Finite.List

/-!
# Cipher block chaining

A block cipher takes blocks of 16 bytes to blocks of 16 bytes, and takes them back. In CBC mode
every block is combined with the encryption of the one before it, and the first with an
initialization vector.
-/

/-- A cipher of blocks of 16 bytes, with its inverse. -/
structure BlockCipher where
  encrypt : Bytes → Bytes → Bytes
  decrypt : Bytes → Bytes → Bytes
  length_encrypt : ∀ key block, block.length = 16 → (encrypt key block).length = 16
  decrypt_encrypt : ∀ key block, block.length = 16 → decrypt key (encrypt key block) = block

/-- The blocks are finitely many, so that every one of them is an encryption. -/
theorem BlockCipher.encrypt_surjective (cipher : BlockCipher) (key : Bytes) {block : Bytes}
    (h : block.length = 16) :
  ∃ plain, plain.length = 16 ∧ cipher.encrypt key plain = block
  := by
  let f (b : {b : Bytes // b.length = 16}) : {b : Bytes // b.length = 16} :=
    ⟨cipher.encrypt key b.val, cipher.length_encrypt key b.val b.property⟩
  have hbyte : Finite UInt8 := Finite.of_injective UInt8.toFin fun a b => UInt8.toFin_inj.mp
  have hfinite : Finite {b : Bytes // b.length = 16} := List.finite_length_eq UInt8 16
  have hinj : Function.Injective f := by
    intro a b hab
    have heq : cipher.encrypt key a.val = cipher.encrypt key b.val := congrArg Subtype.val hab
    apply Subtype.ext
    rw [← cipher.decrypt_encrypt key a.val a.property, heq,
      cipher.decrypt_encrypt key b.val b.property]
  obtain ⟨⟨plain, hplain⟩, hblock⟩ := Finite.surjective_of_injective hinj ⟨block, h⟩
  exact ⟨plain, hplain, congrArg Subtype.val hblock⟩

theorem BlockCipher.length_decrypt (cipher : BlockCipher) (key : Bytes) {block : Bytes}
    (h : block.length = 16) :
  (cipher.decrypt key block).length = 16
  := by
  obtain ⟨plain, hplain, rfl⟩ := cipher.encrypt_surjective key h
  rw [cipher.decrypt_encrypt key plain hplain, hplain]

namespace Cbc

/-- The bytes of two blocks combined. -/
def xor (a b : Bytes) : Bytes := List.zipWith (· ^^^ ·) a b

theorem length_xor {a b : Bytes} (h : a.length = b.length) : (xor a b).length = a.length := by
  rw [xor, List.length_zipWith, h, Nat.min_self]

theorem xor_xor {a b : Bytes} (h : a.length = b.length) : xor (xor a b) b = a := by
  induction a generalizing b with
  | nil => rw [xor, xor, List.zipWith_nil_left, List.zipWith_nil_left]
  | cons x a ih =>
      cases b with
      | nil => cases h
      | cons y b =>
          have ih := ih (Nat.succ.inj h)
          rw [xor, xor] at ih ⊢
          rw [List.zipWith_cons_cons, List.zipWith_cons_cons, ih, UInt8.xor_assoc, UInt8.xor_self,
            UInt8.xor_zero]

/-- The cipher that combines every block with the key, if the key is a block. -/
def vernam : BlockCipher where
  encrypt key block := if key.length = 16 then xor block key else block
  decrypt key block := if key.length = 16 then xor block key else block
  length_encrypt key block h := by
    split
    · next hkey => rw [length_xor (h.trans hkey.symm), h]
    · exact h
  decrypt_encrypt key block h := by
    split
    · next hkey => rw [xor_xor (h.trans hkey.symm)]
    · rfl

variable (cipher : BlockCipher) (key : Bytes)

/-- The first `n` blocks of `data` encrypted, where `prev` is the encryption of the block before,
and what follows them as it is. -/
def encrypt (prev : Bytes) : ℕ → Bytes → Bytes
  | 0, data => data
  | n + 1, data =>
    let block := cipher.encrypt key (xor (data.take 16) prev)
    block ++ encrypt block n (data.drop 16)

/-- The first `n` blocks of `data` decrypted, where `prev` is the block before. -/
def decrypt (prev : Bytes) : ℕ → Bytes → Bytes
  | 0, data => data
  | n + 1, data =>
    xor (cipher.decrypt key (data.take 16)) prev ++ decrypt (data.take 16) n (data.drop 16)

variable {cipher key}

theorem length_encrypt {n : ℕ} {prev data : Bytes} (hprev : prev.length = 16)
    (h : 16 * n ≤ data.length) :
  (encrypt cipher key prev n data).length = data.length
  := by
  induction n generalizing prev data with
  | zero => rfl
  | succ n ih =>
      have hblock : (cipher.encrypt key (xor (data.take 16) prev)).length = 16 := by
        apply cipher.length_encrypt
        rw [length_xor, List.length_take]
        · omega
        · rw [List.length_take]
          omega
      rw [encrypt, List.length_append, hblock, ih hblock]
      · rw [List.length_drop]
        omega
      · rw [List.length_drop]
        omega

/-- What is encrypted is decrypted. -/
theorem decrypt_encrypt {n : ℕ} {prev data : Bytes} (hprev : prev.length = 16)
    (h : 16 * n ≤ data.length) :
  decrypt cipher key prev n (encrypt cipher key prev n data) = data
  := by
  induction n generalizing prev data with
  | zero => rfl
  | succ n ih =>
      have htake : (data.take 16).length = 16 := by
        rw [List.length_take]
        omega
      have hxor : (xor (data.take 16) prev).length = 16 := by
        rw [length_xor (by omega), htake]
      have hblock := cipher.length_encrypt key _ hxor
      rw [encrypt, decrypt, List.take_left' hblock, List.drop_left' hblock,
        cipher.decrypt_encrypt _ _ hxor, xor_xor (by omega), ih hblock, List.take_append_drop]
      rw [List.length_drop]
      omega

/-! ### Streams -/

/-- The last block of what is behind a vector, or the vector. -/
def chain (prev data : Bytes) : Bytes := (prev ++ data).drop data.length

@[simp] theorem chain_nil (prev : Bytes) : chain prev [] = prev := by
  rw [chain, List.append_nil, List.length_nil, List.drop_zero]

theorem chain_append (prev data data' : Bytes) :
  chain prev (data ++ data') = chain (chain prev data) data'
  := by
  have hle : data.length ≤ (prev ++ data).length := by
    rw [List.length_append]
    omega
  rw [chain, chain, chain, List.length_append, ← List.drop_drop, ← List.append_assoc,
    List.drop_append_of_le_length hle]

/-- The last block of data that is not shorter than the vector. -/
theorem chain_eq_drop {prev data : Bytes} (h : prev.length ≤ data.length) :
  chain prev data = data.drop (data.length - prev.length)
  := by
  obtain ⟨k, hk⟩ := Nat.exists_eq_add_of_le h
  rw [chain, hk, ← List.drop_drop, List.drop_left, Nat.add_sub_cancel_left]

theorem length_chain (prev data : Bytes) : (chain prev data).length = prev.length := by
  rw [chain, List.length_drop, List.length_append]
  omega

/-- Data that is encrypted in two parts: the second begins with the last block of the first. -/
theorem encrypt_append {k : ℕ} {prev data : Bytes} (hprev : prev.length = 16)
    (h : data.length = 16 * k) (n : ℕ) (data' : Bytes) :
  encrypt cipher key prev (k + n) (data ++ data') =
    encrypt cipher key prev k data ++
      encrypt cipher key (chain prev (encrypt cipher key prev k data)) n data'
  := by
  induction k generalizing prev data with
  | zero =>
      obtain rfl := List.length_eq_zero_iff.mp h
      rw [Nat.zero_add, List.nil_append, encrypt, chain_nil, List.nil_append]
  | succ k ih =>
      have htake : (data.take 16).length = 16 := by
        rw [List.length_take]
        omega
      have hblock : (cipher.encrypt key (xor (data.take 16) prev)).length = 16 := by
        apply cipher.length_encrypt
        rw [length_xor (by omega), htake]
      have hdrop : (data.drop 16).length = 16 * k := by
        rw [List.length_drop]
        omega
      have hchain : chain prev (cipher.encrypt key (xor (data.take 16) prev)) =
          cipher.encrypt key (xor (data.take 16) prev) := by
        rw [chain_eq_drop (by omega), hblock, hprev, Nat.sub_self, List.drop_zero]
      rw [Nat.add_right_comm, encrypt, encrypt, List.take_append_of_le_length (by omega),
        List.drop_append_of_le_length (by omega), ih hblock hdrop, chain_append, hchain,
        List.append_assoc]

/-- Data that is decrypted in two parts. -/
theorem decrypt_append {k : ℕ} {prev data : Bytes} (hprev : prev.length = 16)
    (h : data.length = 16 * k) (n : ℕ) (data' : Bytes) :
  decrypt cipher key prev (k + n) (data ++ data') =
    decrypt cipher key prev k data ++ decrypt cipher key (chain prev data) n data'
  := by
  induction k generalizing prev data with
  | zero =>
      obtain rfl := List.length_eq_zero_iff.mp h
      rw [Nat.zero_add, List.nil_append, decrypt, chain_nil, List.nil_append]
  | succ k ih =>
      have htake : (data.take 16).length = 16 := by
        rw [List.length_take]
        omega
      have hdrop : (data.drop 16).length = 16 * k := by
        rw [List.length_drop]
        omega
      have hchain : chain prev data = chain (data.take 16) (data.drop 16) := by
        have hblock : chain prev (data.take 16) = data.take 16 := by
          rw [chain_eq_drop (by omega), htake, hprev, Nat.sub_self, List.drop_zero]
        nth_rewrite 1 [← List.take_append_drop 16 data]
        rw [chain_append, hblock]
      rw [Nat.add_right_comm, decrypt, decrypt, List.take_append_of_le_length (by omega),
        List.drop_append_of_le_length (by omega), ih htake hdrop, ← hchain, List.append_assoc]

theorem length_decrypt {n : ℕ} {prev data : Bytes} (hprev : prev.length = 16)
    (h : data.length = 16 * n) :
  (decrypt cipher key prev n data).length = data.length
  := by
  induction n generalizing prev data with
  | zero => rfl
  | succ n ih =>
      have htake : (data.take 16).length = 16 := by
        rw [List.length_take]
        omega
      have hdrop : (data.drop 16).length = 16 * n := by
        rw [List.length_drop]
        omega
      have hblock := cipher.length_decrypt key htake
      rw [decrypt, List.length_append, ih htake hdrop, length_xor (by omega), hblock, hdrop]
      omega

end Cbc
