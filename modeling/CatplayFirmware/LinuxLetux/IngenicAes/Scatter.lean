import CatplayFirmware.LinuxLetux.IngenicAes.XorCopy

/-!
# Scattered requests

A request reads and writes the bytes of two scatterlists. An iterator hands out the bytes of a
list in pieces that do not cross the border of a page; the driver combines as many bytes at once
as are left of the two pieces and of the key stream. However the lists are cut into entries, this
combines the bytes of one with those of the other at the same position.
-/

namespace IngenicAes

open Bytes

/-- An entry of a scatterlist, which is not empty. -/
structure Entry where
  addr : ℕ
  len : ℕ
  pos : 0 < len

/-- What an iterator hands out, or what is left of it. -/
structure Piece where
  addr : ℕ
  len : ℕ

def pageSize : ℕ := 4096

/-- The parts of `len` bytes from an address on that the pages cut them into. -/
def pagePieces (addr len : ℕ) : List Piece :=
  if _h : len = 0 then []
  else
    let n := min len (pageSize - addr % pageSize)
    ⟨addr, n⟩ :: pagePieces (addr + n) (len - n)
termination_by len
decreasing_by
  have hlow : addr % pageSize < pageSize := Nat.mod_lt _ (by decide)
  omega

/-- `sg_nents_for_len`: how many entries hold `len` bytes, if there are enough. -/
def nentsForLen : List Entry → ℕ → Option ℕ
  | _, 0 => some 0
  | [], _ + 1 => none
  | e :: sg, len + 1 =>
    if len + 1 ≤ e.len then some 1 else (nentsForLen sg (len + 1 - e.len)).map (· + 1)

/-- `sg_miter_start`: the pieces of the first `nents` entries. -/
def miterStart (sg : List Entry) (nents : ℕ) : List Piece :=
  (sg.take nents).flatMap fun e => pagePieces e.addr e.len

/-- `sg_miter_skip`. -/
def miterSkip : ℕ → List Piece → Option (List Piece)
  | 0, ps => some ps
  | _ + 1, [] => none
  | off + 1, p :: ps =>
    if off + 1 ≤ p.len then some (⟨p.addr + (off + 1), p.len - (off + 1)⟩ :: ps)
    else miterSkip (off + 1 - p.len) ps

/-- `sg_miter_next`: what is left of the current piece, or the next one, and those behind it. -/
def miterNext : List Piece → Option (Piece × List Piece)
  | [] => none
  | p :: ps =>
    if p.len = 0 then
      match ps with
      | [] => none
      | q :: ps => some (q, ps)
    else some (p, ps)

/-- What is left of a piece of which `n` bytes are consumed. -/
def Piece.consume (p : Piece) (n : ℕ) : Piece := ⟨p.addr + n, p.len - n⟩

/-- The loop of `ingenic_aes_ctr_xor_sg` over what is left of the key stream. -/
def xorLoop (mips : Bool) (m : Memory) (src dst : List Piece) (ksAddr : ℕ) (ks : Bytes) :
    Memory × ℤ :=
  if _h : ks = [] then (m, 0)
  else
    match miterNext src, miterNext dst with
    | some (p, ps), some (q, qs) =>
      let n := min p.len (min q.len ks.length)
      if _hn : n = 0 then (m, eio)
      else
        xorLoop mips (xorCopy mips m q.addr p.addr ksAddr (ks.take n)) (p.consume n :: ps)
          (q.consume n :: qs) (ksAddr + n) (ks.drop n)
    | _, _ => (m, einval)
termination_by ks.length
decreasing_by
  rw [List.length_drop]
  have hpos : 0 < ks.length := List.length_pos_of_ne_nil _h
  omega

/-- `ingenic_aes_ctr_xor_sg`, with the memory after the call. -/
def ctrXorSg (mips : Bool) (m : Memory) (src dst : List Entry) (srcNents dstNents ksAddr : ℕ)
    (ks : Bytes) (offset : ℕ) : Memory × ℤ :=
  match miterSkip offset (miterStart src srcNents) with
  | none => (m, einval)
  | some ps =>
    match miterSkip offset (miterStart dst dstNents) with
    | none => (m, einval)
    | some qs => xorLoop mips m ps qs ksAddr ks

/-! ### Addresses -/

/-- The addresses of the bytes of pieces. -/
def pieceAddrs (ps : List Piece) : List ℕ := ps.flatMap fun p => List.range' p.addr p.len

/-- The addresses of the bytes of a scatterlist. -/
def addrs (sg : List Entry) : List ℕ := sg.flatMap fun e => List.range' e.addr e.len

theorem pieceAddrs_cons (p : Piece) (ps : List Piece) :
  pieceAddrs (p :: ps) = List.range' p.addr p.len ++ pieceAddrs ps
  := List.flatMap_cons

/-- A range of addresses that begins with a shorter one. -/
theorem range'_split (addr : ℕ) {n len : ℕ} (h : n ≤ len) :
  List.range' addr len = List.range' addr n ++ List.range' (addr + n) (len - n)
  := by
  rw [List.range'_append_1, Nat.add_sub_cancel' h]

theorem pieceAddrs_pagePieces (addr len : ℕ) :
  pieceAddrs (pagePieces addr len) = List.range' addr len
  := by
  induction addr, len using pagePieces.induct with
  | case1 addr =>
      rw [pagePieces, dif_pos rfl]
      rfl
  | case2 addr len hne n ih =>
      rw [pagePieces, dif_neg hne]
      simp only
      rw [pieceAddrs_cons, ih]
      exact (range'_split addr (Nat.min_le_left _ _)).symm

theorem pos_of_mem_pagePieces {addr len : ℕ} {p : Piece} (h : p ∈ pagePieces addr len) :
  0 < p.len
  := by
  induction addr, len using pagePieces.induct with
  | case1 addr =>
      rw [pagePieces, dif_pos rfl] at h
      cases h
  | case2 addr len hne n ih =>
      have hlow : addr % pageSize < pageSize := Nat.mod_lt _ (by decide)
      rw [pagePieces, dif_neg hne] at h
      rcases List.mem_cons.mp h with rfl | hrest
      · simp only
        omega
      · apply ih hrest

theorem pieceAddrs_miterStart (sg : List Entry) (nents : ℕ) :
  pieceAddrs (miterStart sg nents) = addrs (sg.take nents)
  := by
  rw [miterStart, pieceAddrs, List.flatMap_assoc, addrs]
  congr 1
  funext e
  apply pieceAddrs_pagePieces

theorem pos_of_mem_miterStart {sg : List Entry} {nents : ℕ} {p : Piece}
    (h : p ∈ miterStart sg nents) :
  0 < p.len
  := by
  obtain ⟨e, -, hp⟩ := List.mem_flatMap.mp h
  apply pos_of_mem_pagePieces hp

/-- The entries that are counted hold the first bytes of the list. -/
theorem nentsForLen_addrs {sg : List Entry} {len : ℕ} (h : len ≤ (addrs sg).length) :
  ∃ nents, nentsForLen sg len = some nents ∧ len ≤ (addrs (sg.take nents)).length
  := by
  induction sg generalizing len with
  | nil =>
      obtain rfl := Nat.le_zero.mp h
      exact ⟨0, by rw [nentsForLen], h⟩
  | cons e sg ih =>
      cases len with
      | zero => exact ⟨0, by rw [nentsForLen], Nat.zero_le _⟩
      | succ len =>
          rw [nentsForLen]
          split
          · next hfits =>
            refine ⟨1, rfl, ?_⟩
            rw [List.take_succ_cons, List.take_zero, addrs, List.flatMap_cons, List.length_append,
              List.length_range']
            omega
          · next hmore =>
            rw [addrs, List.flatMap_cons, List.length_append, List.length_range', ← addrs] at h
            obtain ⟨nents, hnents, hlen⟩ := @ih (len + 1 - e.len) (by omega)
            refine ⟨nents + 1, by rw [hnents, Option.map_some], ?_⟩
            rw [List.take_succ_cons, addrs, List.flatMap_cons, List.length_append,
              List.length_range', ← addrs]
            omega

theorem addrs_take_prefix (sg : List Entry) (nents : ℕ) :
  ∃ rest, addrs sg = addrs (sg.take nents) ++ rest
  := by
  refine ⟨addrs (sg.drop nents), ?_⟩
  rw [addrs, addrs, addrs, ← List.flatMap_append, List.take_append_drop]

/-! ### Iterators -/

/-- The pieces behind the current one are not empty. -/
def TailPos (ps : List Piece) : Prop := ∀ p ∈ ps.tail, 0 < p.len

/-- Skipping drops the first addresses. -/
theorem miterSkip_addrs {off : ℕ} {ps : List Piece} (htail : TailPos ps)
    (h : off ≤ (pieceAddrs ps).length) :
  ∃ qs, miterSkip off ps = some qs ∧ pieceAddrs qs = (pieceAddrs ps).drop off ∧ TailPos qs
  := by
  induction ps generalizing off with
  | nil =>
      obtain rfl := Nat.le_zero.mp h
      exact ⟨[], by rw [miterSkip], rfl, htail⟩
  | cons p ps ih =>
      cases off with
      | zero => exact ⟨p :: ps, by rw [miterSkip], rfl, htail⟩
      | succ off =>
          rw [miterSkip]
          split
          · next hfits =>
            refine ⟨_, rfl, ?_, htail⟩
            have hlen : (List.range' p.addr (off + 1)).length = off + 1 := List.length_range'
            rw [pieceAddrs_cons, pieceAddrs_cons, range'_split p.addr hfits, List.append_assoc,
              List.drop_left' hlen]
          · next hmore =>
            have hlen : (List.range' p.addr p.len).length = p.len := List.length_range'
            rw [pieceAddrs_cons, List.length_append, hlen] at h
            obtain ⟨qs, hqs, haddrs, hpos⟩ := @ih (off + 1 - p.len)
              (fun q hq => htail q (List.mem_of_mem_tail hq)) (by omega)
            refine ⟨qs, hqs, ?_, hpos⟩
            have hsum : off + 1 = p.len + (off + 1 - p.len) := by omega
            rw [haddrs, pieceAddrs_cons, hsum, ← List.drop_drop, List.drop_left' hlen]
            congr 1
            omega

/-- While addresses are left, the iterator hands out a piece that is not empty. -/
theorem miterNext_addrs {ps : List Piece} (htail : TailPos ps) (h : 0 < (pieceAddrs ps).length) :
  ∃ p qs, miterNext ps = some (p, qs) ∧ 0 < p.len ∧ (∀ q ∈ qs, 0 < q.len) ∧
    pieceAddrs ps = List.range' p.addr p.len ++ pieceAddrs qs
  := by
  cases ps with
  | nil => exact absurd h (Nat.lt_irrefl 0)
  | cons p ps =>
      by_cases hzero : p.len = 0
      · cases ps with
        | nil =>
            rw [pieceAddrs_cons, hzero] at h
            exact absurd h (Nat.lt_irrefl 0)
        | cons q qs =>
            refine ⟨q, qs, if_pos hzero, htail q List.mem_cons_self, ?_, ?_⟩
            · intro r hr
              apply htail r (List.mem_cons_of_mem q hr)
            · rw [pieceAddrs_cons, hzero, pieceAddrs_cons]
              rfl
      · exact ⟨p, ps, if_neg hzero, Nat.pos_of_ne_zero hzero, htail, pieceAddrs_cons p ps⟩

/-- What is left when bytes of the first piece are consumed. -/
theorem pieceAddrs_consume {p : Piece} {ps : List Piece} {n : ℕ} (h : n ≤ p.len) :
  List.range' p.addr n ++ pieceAddrs (p.consume n :: ps) =
    List.range' p.addr p.len ++ pieceAddrs ps
  := by
  rw [pieceAddrs_cons, Piece.consume, ← List.append_assoc, range'_split p.addr h]

/-! ### What is combined -/

/-- The bytes at some addresses become those at others combined with the key stream, one after
the other. -/
def xorAt (m : Memory) : List ℕ → List ℕ → Bytes → Memory
  | d :: ds, s :: ss, k :: ks => xorAt (Function.update m d (m s ^^^ k)) ds ss ks
  | _, _, _ => m

theorem xorAt_append (m : Memory) {ds ss : List ℕ} {ks : Bytes} (hds : ds.length = ks.length)
    (hss : ss.length = ks.length) (ds' ss' : List ℕ) (ks' : Bytes) :
  xorAt m (ds ++ ds') (ss ++ ss') (ks ++ ks') = xorAt (xorAt m ds ss ks) ds' ss' ks'
  := by
  induction ks generalizing m ds ss with
  | nil =>
      obtain rfl := List.length_eq_zero_iff.mp hds
      obtain rfl := List.length_eq_zero_iff.mp hss
      rfl
  | cons k ks ih =>
      obtain ⟨d, ds, rfl⟩ := List.exists_cons_of_length_eq_add_one hds
      obtain ⟨s, ss, rfl⟩ := List.exists_cons_of_length_eq_add_one hss
      exact ih _ (Nat.succ.inj hds) (Nat.succ.inj hss)

theorem xorBytes_eq_xorAt (m : Memory) (dst src : ℕ) (ks : Bytes) :
  xorBytes m dst src ks = xorAt m (List.range' dst ks.length) (List.range' src ks.length) ks
  := by
  induction ks generalizing m dst src with
  | nil => rfl
  | cons k ks ih =>
      rw [xorBytes, ih]
      rfl

/-- No address that is written is read at a later position. -/
def NoClobber (ds ss : List ℕ) : Prop :=
  ∀ i j a : ℕ, i < j → ds[i]? = some a → ss[j]? ≠ some a

theorem NoClobber.drop {ds ss : List ℕ} (h : NoClobber ds ss) (n : ℕ) :
  NoClobber (ds.drop n) (ss.drop n)
  := by
  intro i j a hij hi hj
  rw [List.getElem?_drop] at hi hj
  exact h (n + i) (n + j) a (Nat.add_lt_add_left hij n) hi hj

theorem NoClobber.take {ds ss : List ℕ} (h : NoClobber ds ss) (n : ℕ) :
  NoClobber (ds.take n) (ss.take n)
  := by
  intro i j a hij hi hj
  obtain ⟨rest, hrest⟩ := List.take_prefix n ds
  obtain ⟨rest', hrest'⟩ := List.take_prefix n ss
  apply h i j a hij
  · rw [← hrest, List.getElem?_append_left (List.getElem?_eq_some_iff.mp hi).1, hi]
  · rw [← hrest', List.getElem?_append_left (List.getElem?_eq_some_iff.mp hj).1, hj]

/-- A piece of a list whose addresses are not clobbered is clear. -/
theorem NoClobber.clear {dst src n : ℕ} {ds ss : List ℕ}
    (h : NoClobber (List.range' dst n ++ ds) (List.range' src n ++ ss)) :
  Clear dst src n
  := by
  by_contra hnot
  rw [Clear, not_or, Nat.not_le, Nat.not_le] at hnot
  obtain ⟨hlt, hin⟩ := hnot
  apply h 0 (dst - src) dst (by omega)
  · rw [List.getElem?_append_left, List.getElem?_range']
    · rw [Nat.mul_zero, Nat.add_zero]
    · omega
    · rw [List.length_range']
      omega
  · have hback : src + 1 * (dst - src) = dst := by omega
    rw [List.getElem?_append_left, List.getElem?_range', hback]
    · omega
    · rw [List.length_range']
      omega

/-- The loop combines the bytes at the first addresses that are left. -/
theorem xorLoop_eq (mips : Bool) {m : Memory} {src dst : List Piece} {ksAddr : ℕ} {ks : Bytes}
    (hsrc : TailPos src) (hdst : TailPos dst) (hsrcLen : ks.length ≤ (pieceAddrs src).length)
    (hdstLen : ks.length ≤ (pieceAddrs dst).length)
    (hclobber : NoClobber ((pieceAddrs dst).take ks.length) ((pieceAddrs src).take ks.length)) :
  xorLoop mips m src dst ksAddr ks =
    (xorAt m ((pieceAddrs dst).take ks.length) ((pieceAddrs src).take ks.length) ks, 0)
  := by
  obtain ⟨len, hlen⟩ : ∃ len, len = ks.length := ⟨_, rfl⟩
  induction len using Nat.strongRecOn generalizing m src dst ksAddr ks with
  | _ len ih =>
      rw [xorLoop]
      split
      · next hnil =>
        rw [hnil]
        rfl
      · next hne =>
        have hpos : 0 < ks.length := List.length_pos_of_ne_nil hne
        obtain ⟨p, ps, hnext, hp, hps, haddrs⟩ := miterNext_addrs hsrc (by omega)
        obtain ⟨q, qs, hnext', hq, hqs, haddrs'⟩ := miterNext_addrs hdst (by omega)
        rw [hnext, hnext']
        simp only
        obtain ⟨n, hn⟩ : ∃ n, n = min p.len (min q.len ks.length) := ⟨_, rfl⟩
        rw [← hn, dif_neg (by omega)]
        have htake : (ks.take n).length = n := by
          rw [List.length_take]
          omega
        have hrange (addr : ℕ) : (List.range' addr n).length = n := List.length_range'
        have hleft : pieceAddrs src = List.range' p.addr n ++ pieceAddrs (p.consume n :: ps) := by
          rw [haddrs, pieceAddrs_consume (by omega)]
        have hleft' : pieceAddrs dst = List.range' q.addr n ++ pieceAddrs (q.consume n :: qs) := by
          rw [haddrs', pieceAddrs_consume (by omega)]
        have htail : TailPos (p.consume n :: ps) := hps
        have htail' : TailPos (q.consume n :: qs) := hqs
        have hsum : ks.length = n + (ks.drop n).length := by
          rw [List.length_drop]
          omega
        have hshort : (ks.drop n).length ≤ (pieceAddrs (p.consume n :: ps)).length := by
          rw [hleft, List.length_append, hrange] at hsrcLen
          omega
        have hshort' : (ks.drop n).length ≤ (pieceAddrs (q.consume n :: qs)).length := by
          rw [hleft', List.length_append, hrange] at hdstLen
          omega
        have hsplit (addr : ℕ) (rest : List ℕ) : (List.range' addr n ++ rest).take ks.length =
            List.range' addr n ++ rest.take (ks.drop n).length := by
          have htaken := @List.take_length_add_append _ (List.range' addr n) rest
            (ks.drop n).length
          rwa [hrange, ← hsum] at htaken
        rw [hleft, hleft', hsplit, hsplit] at hclobber
        have hclear : Clear q.addr p.addr (ks.take n).length := htake.symm ▸ hclobber.clear
        have hrest := hclobber.drop n
        rw [List.drop_left' (hrange _), List.drop_left' (hrange _)] at hrest
        rw [xorCopy_eq mips ksAddr hclear, xorBytes_eq_xorAt, htake,
          ih (ks.drop n).length (by omega) htail htail' hshort hshort' hrest rfl, hleft, hleft',
          hsplit, hsplit, ← xorAt_append m (by rw [hrange, htake]) (by rw [hrange, htake]),
          List.take_append_drop]

/-- The driver combines the bytes of the two lists from an offset on. -/
theorem ctrXorSg_eq (mips : Bool) {m : Memory} {src dst : List Entry} {srcNents dstNents : ℕ}
    (ksAddr : ℕ) {ks : Bytes} {offset : ℕ}
    (hsrc : offset + ks.length ≤ (addrs (src.take srcNents)).length)
    (hdst : offset + ks.length ≤ (addrs (dst.take dstNents)).length)
    (hclobber : NoClobber (slice (addrs dst) offset ks.length)
      (slice (addrs src) offset ks.length)) :
  ctrXorSg mips m src dst srcNents dstNents ksAddr ks offset =
    (xorAt m (slice (addrs dst) offset ks.length) (slice (addrs src) offset ks.length) ks, 0)
  := by
  have htail (sg : List Entry) (nents : ℕ) : TailPos (miterStart sg nents) := by
    intro p hp
    apply pos_of_mem_miterStart (List.mem_of_mem_tail hp)
  obtain ⟨ps, hps, haddrs, hpos⟩ := @miterSkip_addrs offset (miterStart src srcNents) (htail _ _)
    (by rw [pieceAddrs_miterStart]; omega)
  obtain ⟨qs, hqs, haddrs', hpos'⟩ := @miterSkip_addrs offset (miterStart dst dstNents) (htail _ _)
    (by rw [pieceAddrs_miterStart]; omega)
  rw [pieceAddrs_miterStart] at haddrs haddrs'
  obtain ⟨rest, hrest⟩ := addrs_take_prefix src srcNents
  obtain ⟨rest', hrest'⟩ := addrs_take_prefix dst dstNents
  have hslice : slice (addrs src) offset ks.length = (pieceAddrs ps).take ks.length := by
    rw [hrest, slice_append_left _ hsrc, slice, haddrs]
  have hslice' : slice (addrs dst) offset ks.length = (pieceAddrs qs).take ks.length := by
    rw [hrest', slice_append_left _ hdst, slice, haddrs']
  rw [hslice, hslice'] at hclobber
  rw [ctrXorSg, hps, hqs]
  simp only
  rw [xorLoop_eq mips hpos hpos' _ _ hclobber, hslice, hslice']
  · rw [haddrs, List.length_drop]
    omega
  · rw [haddrs', List.length_drop]
    omega

/-- The bytes that are combined, when no address is written twice and none is read after it is
written. -/
theorem xorAt_spec {m : Memory} {ds ss : List ℕ} {ks : Bytes} (hds : ds.length = ks.length)
    (hss : ss.length = ks.length) (hnodup : ds.Nodup) (hclobber : NoClobber ds ss) :
  (∀ (i d s : ℕ) (k : UInt8), ds[i]? = some d → ss[i]? = some s → ks[i]? = some k →
    xorAt m ds ss ks d = m s ^^^ k) ∧
  ∀ a, a ∉ ds → xorAt m ds ss ks a = m a
  := by
  induction ks generalizing m ds ss with
  | nil =>
      obtain rfl := List.length_eq_zero_iff.mp hds
      obtain rfl := List.length_eq_zero_iff.mp hss
      constructor
      · intro i d s k hd
        cases hd
      · intro a _
        rfl
  | cons k ks ih =>
      obtain ⟨d, ds, rfl⟩ := List.exists_cons_of_length_eq_add_one hds
      obtain ⟨s, ss, rfl⟩ := List.exists_cons_of_length_eq_add_one hss
      obtain ⟨hmem, hnodup⟩ := List.nodup_cons.mp hnodup
      obtain ⟨hread, hframe⟩ := @ih (Function.update m d (m s ^^^ k)) ds ss (Nat.succ.inj hds)
        (Nat.succ.inj hss) hnodup (hclobber.drop 1)
      rw [xorAt]
      constructor
      · intro i d' s' k' hd hs hk
        cases i with
        | zero =>
            cases hd
            cases hs
            cases hk
            rw [hframe d hmem, Function.update_self]
        | succ i =>
            have hne : s' ≠ d := by
              rintro rfl
              exact hclobber 0 (i + 1) s' (Nat.succ_pos i) rfl hs
            rw [hread i d' s' k' hd hs hk, Function.update_of_ne hne]
      · intro a ha
        rw [hframe a (List.not_mem_of_not_mem_cons ha),
          Function.update_of_ne (List.ne_of_not_mem_cons ha)]

end IngenicAes
