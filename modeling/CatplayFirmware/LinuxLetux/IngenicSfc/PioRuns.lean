import CatplayFirmware.LinuxLetux.IngenicSfc.PioHandler

/-!
# Runs of programmed transfers

However the controller runs and whenever it interrupts, the handler pushes or pops the words of the
buffer in order, and each of them once. A transfer that returns without an error has moved all of
them.
-/

namespace IngenicSfc

open Bytes FlatMemory Controller

section

variable {t : Transfer} {m : Machine} {p q : ℕ}

/-- The transfer is complete. -/
def Done (t : Transfer) (m : Machine) (q : ℕ) : Prop :=
  Clean m.hw ∧ (t.dir = .dataIn → q = t.len)

/-- What the thread relies on where it is. -/
def Relies (t : Transfer) (m : Machine) (q : ℕ) : Thread → Prop
  | .waiting =>
    m.sfc.active = !m.sfc.completed ∧ (t.dir = .dataIn → m.sfc.rxBuf ≠ none) ∧
      (m.sfc.completed = true → m.sfc.lastError = 0 → Done t m q)
  | .cleaning ret n =>
    (0 < n → m.sfc.txBuf = none) ∧ (3 < n → m.sfc.rxBuf = none) ∧ (6 < n → m.sfc.active = false) ∧
      (ret = 0 → m.sfc.active = false ∧ Done t m q)
  | .returned ret => m.sfc.active = false ∧ (ret = 0 → Done t m q)

/-- The invariant of runs. -/
def Good (t : Transfer) (s : System) : Prop :=
  ∃ p q, Between t s.m p q ∧ Relies t s.m q s.thread

/-- Nothing that the thread relies on changes when the fields of the driver do not. -/
theorem Relies.of_sfc {m' : Machine} {thread : Thread} (h : Relies t m q thread)
    (hsfc : m'.sfc = m.sfc) (hclean : Clean m.hw → Clean m'.hw) :
  Relies t m' q thread
  := by
  have hdone (hd : Done t m q) : Done t m' q := ⟨hclean hd.1, hd.2⟩
  cases thread with
  | waiting =>
      rw [Relies, hsfc]
      exact ⟨h.1, h.2.1, fun hcompleted hzero => hdone (h.2.2 hcompleted hzero)⟩
  | cleaning ret n =>
      rw [Relies, hsfc]
      exact ⟨h.1, h.2.1, h.2.2.1, fun hzero => (h.2.2.2 hzero).imp id hdone⟩
  | returned ret =>
      rw [Relies, hsfc]
      exact ⟨h.1, fun hzero => hdone (h.2 hzero)⟩

/-- Whatever the handler has done is what the thread relies on. -/
theorem Relies.handled {m' : Machine} {q' : ℕ} {thread : Thread} (h : Relies t m q thread)
    (houtcome : Outcome t m m' q q') :
  Relies t m' q' thread
  := by
  cases houtcome with
  | inactive hactive hsfc hpos hclean =>
      rw [hpos]
      exact h.of_sfc hsfc hclean
  | goesOn hbefore hactive hcompleted htx hrx =>
      cases thread with
      | waiting =>
          obtain ⟨hwaits, hsome, hresult⟩ := h
          have hnot : m.sfc.completed = false := by
            rw [hbefore] at hwaits
            exact (Bool.not_eq_true' _).mp hwaits.symm
          refine ⟨by rw [hactive, hcompleted, hnot]; rfl, hrx ▸ hsome, fun hdone => ?_⟩
          rw [hcompleted, hnot] at hdone
          cases hdone
      | cleaning ret n =>
          obtain ⟨htxNone, hrxNone, hinactive, hzero⟩ := h
          refine ⟨htx ▸ htxNone, hrx ▸ hrxNone, fun hn => ?_, fun hret => ?_⟩
          · rw [hinactive hn] at hbefore
            cases hbefore
          · rw [(hzero hret).1] at hbefore
            cases hbefore
      | returned ret =>
          rw [h.1] at hbefore
          cases hbefore
  | terminal hbefore hactive hcompleted htx hrx hok =>
      cases thread with
      | waiting =>
          obtain ⟨_, hsome, _⟩ := h
          refine ⟨by rw [hactive, hcompleted]; rfl, hrx ▸ hsome, fun _ hzero => ?_⟩
          obtain ⟨hclean, hall⟩ := hok hzero
          exact ⟨hclean, fun hin => hall (hsome hin)⟩
      | cleaning ret n =>
          obtain ⟨htxNone, hrxNone, hinactive, hzero⟩ := h
          refine ⟨htx ▸ htxNone, hrx ▸ hrxNone, fun _ => hactive, fun hret => ?_⟩
          rw [(hzero hret).1] at hbefore
          cases hbefore
      | returned ret =>
          rw [h.1] at hbefore
          cases hbefore

/-- Fields of the driver are cleared. -/
theorem Between.withSfc (h : Between t m p q) {sfc : Sfc} (hfields : Fields t sfc p q)
    (hactive : sfc.active = true → m.sfc.active = true) :
  Between t { m with sfc } p q
  := ⟨h.place.withSfc sfc, hfields, h.room, fun hon => h.alert (hactive hon)⟩

/-- Each buffer is cleared before its length and its position. -/
theorem cleanStep_between (h : Between t m p q) {n : ℕ} (htx : 0 < n → m.sfc.txBuf = none)
    (hrx : 3 < n → m.sfc.rxBuf = none) (hinactive : 6 < n → m.sfc.active = false) :
  Between t (cleanStep m n) p q
  := by
  have hnoTx (hn : 0 < n) (buf : BitVec 32) : ¬ m.sfc.txBuf = some buf := by
    rw [htx hn]
    exact Option.some_ne_none buf ∘ Eq.symm
  have hnoRx (hn : 3 < n) (buf : BitVec 32) : ¬ m.sfc.rxBuf = some buf := by
    rw [hrx hn]
    exact Option.some_ne_none buf ∘ Eq.symm
  match n with
  | 0 => exact h.withSfc ⟨fun b hbuf => absurd hbuf.symm (Option.some_ne_none b), h.fields.rx⟩ id
  | 1 => exact h.withSfc ⟨fun b hbuf => absurd hbuf (hnoTx (by omega) b), h.fields.rx⟩ id
  | 2 => exact h.withSfc ⟨fun b hbuf => absurd hbuf (hnoTx (by omega) b), h.fields.rx⟩ id
  | 3 => exact h.withSfc ⟨h.fields.tx, fun b hbuf => absurd hbuf.symm (Option.some_ne_none b)⟩ id
  | 4 => exact h.withSfc ⟨h.fields.tx, fun b hbuf => absurd hbuf (hnoRx (by omega) b)⟩ id
  | 5 => exact h.withSfc ⟨h.fields.tx, fun b hbuf => absurd hbuf (hnoRx (by omega) b)⟩ id
  | 6 => exact h.withSfc ⟨h.fields.tx, h.fields.rx⟩ fun hon => Bool.noConfusion hon
  | 7 =>
      have hticked := h.ticked
      exact ⟨writeIntc_at h.place .all, hticked.fields, hticked.room, hticked.alert⟩
  | 8 =>
      have hticked := h.ticked
      refine ⟨writeScr_at h.place .all, hticked.fields, fun hwrite hagain => ?_, fun hon => ?_⟩
      · exact hticked.room hwrite (Bool.and_eq_true_iff.mp hagain).1
      · have hoff : (tick m).sfc.active = false := by
          rw [tick_sfc]
          exact hinactive (by omega)
        exact absurd (hon.symm.trans hoff) Bool.noConfusion
  | _ + 9 => exact h

theorem cleanStep_txBuf {n : ℕ} (h : 0 < n → m.sfc.txBuf = none) :
  (cleanStep m n).sfc.txBuf = none
  := by
  match n with
  | 0 => rfl
  | 7 | 8 => exact (congrArg Sfc.txBuf (tick_sfc m)).trans (h (by omega))
  | 1 | 2 | 3 | 4 | 5 | 6 | _ + 9 => exact h (by omega)

theorem cleanStep_rxBuf {n : ℕ} (hn : 3 ≤ n) (h : 3 < n → m.sfc.rxBuf = none) :
  (cleanStep m n).sfc.rxBuf = none
  := by
  match n with
  | 0 | 1 | 2 => omega
  | 3 => rfl
  | 7 | 8 => exact (congrArg Sfc.rxBuf (tick_sfc m)).trans (h (by omega))
  | 4 | 5 | 6 | _ + 9 => exact h (by omega)

theorem cleanStep_active {n : ℕ} (h : m.sfc.active = false ∨ n = 6) :
  (cleanStep m n).sfc.active = false
  := by
  rcases h with hoff | rfl
  · match n with
    | 6 => rfl
    | 7 | 8 => exact (congrArg Sfc.active (tick_sfc m)).trans hoff
    | 0 | 1 | 2 | 3 | 4 | 5 | _ + 9 => exact hoff
  · rfl

theorem cleanStep_clean (h : Clean m.hw) (n : ℕ) : Clean (cleanStep m n).hw := by
  match n with
  | 7 | 8 => exact @tick_of_step Clean (fun _ _ hstep => Clean.step hstep) m h
  | 0 | 1 | 2 | 3 | 4 | 5 | 6 | _ + 9 => exact h

/-- What a step of the thread clears it does not rely on. -/
theorem Relies.cleaned {ret : ℤ} {n : ℕ} (h : Relies t m q (.cleaning ret n)) :
  Relies t (cleanStep m n) q (.cleaning ret (n + 1))
  := by
  obtain ⟨htx, hrx, hinactive, hzero⟩ := h
  refine ⟨fun _ => cleanStep_txBuf htx, fun hn => cleanStep_rxBuf (by omega) hrx, fun hn => ?_,
    fun hret => ?_⟩
  · apply cleanStep_active
    rcases Nat.lt_or_ge 6 n with hlt | hle
    · exact .inl (hinactive hlt)
    · exact .inr (by omega)
  · obtain ⟨hoff, hclean, hall⟩ := hzero hret
    exact ⟨cleanStep_active (.inl hoff), cleanStep_clean hclean n, hall⟩

end

section

variable {t : Transfer} {s : System}

/-- The controller runs. -/
theorem Good.device (h : Good t s) (events : List Event) :
  Good t { s with m := { s.m with hw := s.m.hw.run events } }
  := by
  obtain ⟨p, q, hbetween, hrelies⟩ := h
  have hbatch : Between t { s.m with batches := [events] } p q :=
    ⟨hbetween.place.withBatches _, hbetween.fields, hbetween.room, hbetween.alert⟩
  have hticked := hbatch.ticked
  refine ⟨p, q, ⟨hticked.place.withBatches _, hticked.fields, hticked.room, hticked.alert⟩, ?_⟩
  exact Relies.of_sfc hrelies rfl
    fun hclean => run_of_step (fun _ _ hstep => Clean.step hstep) hclean events

/-- The handler runs. -/
theorem Good.interrupt (h : Good t s) (batches : List (List Event)) :
  Good t { s with m := { irqHandler { s.m with batches } with batches := [] } }
  := by
  obtain ⟨p, q, hbetween, hrelies⟩ := h
  have hbatch : Between t { s.m with batches } p q :=
    ⟨hbetween.place.withBatches _, hbetween.fields, hbetween.room, hbetween.alert⟩
  obtain ⟨p', q', hafter, houtcome⟩ := irqHandler_ok hbatch
  have hbefore : Relies t { s.m with batches } q s.thread := hrelies.of_sfc rfl id
  have hrelies' : Relies t (irqHandler { s.m with batches }) q' s.thread :=
    hbefore.handled houtcome
  exact ⟨p', q', ⟨hafter.place.withBatches _, hafter.fields, hafter.room, hafter.alert⟩,
    hrelies'.of_sfc rfl id⟩

theorem Good.step (h : Good t s) (moment : Moment) : Good t (step s moment) := by
  obtain ⟨m, thread⟩ := s
  cases moment with
  | device events => exact h.device events
  | interrupt batches => exact h.interrupt batches
  | thread =>
      obtain ⟨p, q, hbetween, hrelies⟩ := h
      cases thread with
      | waiting =>
          obtain ⟨hwaits, hsome, hresult⟩ := hrelies
          simp only [IngenicSfc.step]
          split
          · next hcompleted =>
            refine ⟨p, q, hbetween, fun hn => absurd hn (by omega), fun hn => absurd hn (by omega),
              fun hn => absurd hn (by omega), fun hzero => ⟨?_, hresult hcompleted hzero⟩⟩
            rw [hwaits, hcompleted]
            rfl
          · exact ⟨p, q, hbetween, hwaits, hsome, hresult⟩
      | cleaning ret n =>
          simp only [IngenicSfc.step]
          split
          · exact ⟨p, q, cleanStep_between hbetween hrelies.1 hrelies.2.1 hrelies.2.2.1,
              Relies.cleaned hrelies⟩
          · next hn =>
            exact ⟨p, q, hbetween, hrelies.2.2.1 (by omega), fun hzero => (hrelies.2.2.2 hzero).2⟩
      | returned ret => exact ⟨p, q, hbetween, hrelies⟩
  | timeout =>
      obtain ⟨p, q, hbetween, hrelies⟩ := h
      cases thread with
      | waiting =>
          simp only [IngenicSfc.step]
          split
          · exact ⟨p, q, hbetween, hrelies⟩
          · refine ⟨p, q, hbetween, fun hn => absurd hn (by omega), fun hn => absurd hn (by omega),
              fun hn => absurd hn (by omega), fun hzero => ?_⟩
            cases hzero
      | cleaning ret n => exact ⟨p, q, hbetween, hrelies⟩
      | returned ret => exact ⟨p, q, hbetween, hrelies⟩

theorem Good.run (h : Good t s) (moments : List Moment) :
  Good t (moments.foldl IngenicSfc.step s) :=
  @Runs.invariant_foldl _ _ _ (Good t) (fun _ moment hs => Good.step hs moment) s h moments

end

/-! ### A transfer to the flash can complete -/

/-- While the controller does nothing on its own, a register is accessed at once. -/
theorem tick_quiet {m : Machine} (h : m.batches = []) : tick m = m := by rw [tick, h]

/-- The controller takes what is in the FIFO. -/
theorem run_take {c : Controller} (hdir : c.dir = .write) {n : ℕ} (hn : c.fifo.length ≤ n)
    (hcount : c.taken.length + c.fifo.length ≤ c.wordCount) :
  c.run (List.replicate n .take) = { c with fifo := [], taken := c.taken ++ c.fifo }
  := by
  induction n generalizing c with
  | zero =>
      have hfifo : c.fifo = [] := List.length_eq_zero_iff.mp (Nat.le_zero.mp hn)
      rw [hfifo, List.append_nil, ← hfifo]
      rfl
  | succ n ih =>
      rw [List.replicate_succ, Controller.run, List.foldl_cons, ← Controller.run]
      cases hfifo : c.fifo with
      | nil =>
          have hsame : c.apply .take = c := by
            rw [Controller.apply, hdir, hfifo]
          rw [hsame, ih hdir (hfifo ▸ Nat.zero_le n) hcount, hfifo]
      | cons w fifo =>
          rw [hfifo, List.length_cons] at hn hcount
          have hmoved : c.moved = false := by
            rw [moved, hdir]
            exact beq_eq_false_iff_ne.mpr (by omega)
          have htaken : c.apply .take = { c with fifo, taken := c.taken ++ [w] } := by
            rw [Controller.apply, hdir, hfifo]
            simp only
            rw [hmoved, if_neg Bool.false_ne_true]
          have hcount' : (c.taken ++ [w]).length + fifo.length ≤ c.wordCount := by
            rw [List.length_append, List.length_singleton]
            omega
          rw [htaken, @ih { c with fifo, taken := c.taken ++ [w] } hdir
            (Nat.le_of_succ_le_succ hn) hcount', List.append_assoc, List.singleton_append]

/-- Words that are pushed while the controller does nothing do not change its status. -/
theorem writeWords_quiet {m : Machine} (h : m.batches = []) (n : ℕ) (src : BitVec 32) (len : ℕ) :
  (writeWords n m src len).batches = [] ∧ (writeWords n m src len).hw.sr = m.hw.sr
  := by
  induction n generalizing m src len with
  | zero => exact ⟨h, rfl⟩
  | succ n ih =>
      have hpushed (m : Machine) (hm : m.batches = []) (w : Word) :
          (writeDr m w).batches = [] ∧ (writeDr m w).hw.sr = m.hw.sr := by
        rw [writeDr, tick_quiet hm]
        exact ⟨hm, rfl⟩
      rw [writeWords]
      simp only
      obtain ⟨hbatches, hsr⟩ := hpushed
        { m with touched := m.touched ++ addresses src (min 4 len) } h
        (wordOf (load m.mem src (min 4 len)))
      rw [← hsr]
      exact ih hbatches _ _

/-- A status with nothing but a request for words. -/
def Status.request : Status := { Status.none with tranReq := true }

/-- What a request does while the controller does nothing: as many bytes as fit are pushed. -/
theorem serveTx_quiet {m : Machine} (h : m.batches = []) {buf : BitVec 32}
    (hbuf : m.sfc.txBuf = some buf) (hmore : m.sfc.txPos < m.sfc.txLen) :
  (serveTx m).batches = [] ∧ (serveTx m).hw.sr = m.hw.sr ∧
    (serveTx m).sfc =
      { m.sfc with txPos := m.sfc.txPos + min (m.sfc.txLen - m.sfc.txPos) ((maxFifoWords - 1) * 4) }
  := by
  have hpushed : (pushRequested m).batches = [] ∧ (pushRequested m).hw.sr = m.hw.sr ∧
      (pushRequested m).sfc =
        { m.sfc with txPos := m.sfc.txPos + min (m.sfc.txLen - m.sfc.txPos) ((maxFifoWords - 1) * 4) }
      := by
    rw [pushRequested, hbuf]
    simp only
    rw [if_pos hmore]
    obtain ⟨hbatches, hsr⟩ := writeWords_quiet h (wordsFor (min (m.sfc.txLen - m.sfc.txPos)
      ((maxFifoWords - 1) * 4))) (buf + BitVec.ofNat 32 m.sfc.txPos) (min (m.sfc.txLen - m.sfc.txPos)
      ((maxFifoWords - 1) * 4))
    refine ⟨hbatches, hsr, ?_⟩
    rw [writeTxfifo, writeWords_sfc]
  obtain ⟨hbatches, hsr, hsfc⟩ := hpushed
  rw [serveTx]
  split
  · rw [updateIntc_sfc, updateIntc, readIntc]
    simp only
    rw [writeIntc, tick_quiet hbatches, tick_quiet hbatches]
    exact ⟨hbatches, hsr, hsfc⟩
  · exact ⟨hbatches, hsr, hsfc⟩

/-- The handler on a request for words. -/
theorem irqHandler_request {m : Machine} (h : m.batches = []) (hsr : m.hw.sr = .request)
    (hactive : m.sfc.active = true) {buf : BitVec 32} (hbuf : m.sfc.txBuf = some buf)
    (hmore : m.sfc.txPos < m.sfc.txLen) :
  (irqHandler m).hw.sr = .none ∧
    (irqHandler m).sfc =
      { m.sfc with txPos := m.sfc.txPos + min (m.sfc.txLen - m.sfc.txPos) ((maxFifoWords - 1) * 4) }
  := by
  obtain ⟨hbatches, hstatus, hsfc⟩ := @serveTx_quiet (noteEnd m) h buf hbuf hmore
  have hirq : irqHandler m = finish (serveTx (noteEnd m)) .request false := by
    have hsr' : (noteEnd m).hw.sr = .request := hsr
    have hactive' : (noteEnd m).sfc.active = true := hactive
    rw [irqHandler, readSr, tick_quiet h]
    simp only
    rw [hsr', hactive']
    rfl
  rw [hirq, finish_sfc, finish_hw]
  refine ⟨?_, hsfc⟩
  simp only [Bool.false_eq_true, if_false]
  have hcleared : (writeScr (serveTx (noteEnd m)) .request).batches = [] := by
    rw [writeScr, tick_quiet hbatches]
    exact hbatches
  rw [tick_quiet hcleared, tick_quiet hcleared, writeScr, tick_quiet hbatches, hstatus]
  simp only
  rw [show (noteEnd m).hw.sr = .request from hsr]
  rfl

section

variable {t : Transfer} {s : System}

/-- A transfer to the flash that waits for the next request, with nothing in the FIFO. -/
structure Sending (t : Transfer) (s : System) : Prop where
  good : Good t s
  dir : t.dir = .dataOut
  thread : s.thread = .waiting
  active : s.m.sfc.active = true
  txBuf : s.m.sfc.txBuf = some t.buf
  sr : s.m.hw.sr = .none
  fifo : s.m.hw.fifo = []

/-- A request, the interrupt for it, and the words that the controller takes. -/
def sendRound : List Moment :=
  [.device [.tranReq], .interrupt [], .device (List.replicate maxFifoWords .take)]

theorem Sending.positions (h : Sending t s) : s.m.sfc.txLen = t.len ∧ s.m.sfc.txPos ≤ t.len := by
  obtain ⟨p, q, hbetween, -⟩ := h.good
  obtain ⟨-, -, hlen, hpos⟩ := hbetween.fields.tx t.buf h.txBuf
  exact ⟨hlen, hpos ▸ hbetween.place.tx.1⟩

/-- What has been pushed and is not in the FIFO has been taken. -/
theorem Good.taken_add (h : Good t s) (hdir : t.dir = .dataOut) {buf : BitVec 32}
    (hbuf : s.m.sfc.txBuf = some buf) :
  s.m.hw.dir = .write ∧
    s.m.hw.taken.length + s.m.hw.fifo.length = (s.m.sfc.txPos + 3) / 4 ∧
    s.m.hw.wordCount = (t.len + 3) / 4
  := by
  obtain ⟨p, q, hbetween, -⟩ := h
  obtain ⟨-, -, hlen, hpos⟩ := hbetween.fields.tx buf hbuf
  have hwrite : s.m.hw.dir = .write := by rw [hbetween.place.dir, hdir]; rfl
  refine ⟨hwrite, ?_, by rw [wordCount, hbetween.place.len]⟩
  have hle := hbetween.place.tx.1
  rw [← List.length_append, ← hbetween.place.flow.write hwrite, hbetween.place.pushed, words,
    length_wordsOf, List.length_take_of_le (by rwa [t.length_bytes]), hpos]

/-- A round sends as many bytes as fit. -/
theorem Sending.round (h : Sending t s) (hmore : s.m.sfc.txPos < t.len) :
  Sending t (sendRound.foldl step s) ∧
    (sendRound.foldl step s).m.sfc.txPos =
      s.m.sfc.txPos + min (t.len - s.m.sfc.txPos) ((maxFifoWords - 1) * 4)
  := by
  obtain ⟨s₁, hs₁⟩ : ∃ s₁, s₁ = step s (.device [.tranReq]) := ⟨_, rfl⟩
  obtain ⟨s₂, hs₂⟩ : ∃ s₂, s₂ = step s₁ (.interrupt []) := ⟨_, rfl⟩
  have hround : sendRound.foldl step s =
      step s₂ (.device (List.replicate maxFifoWords .take)) := by
    rw [hs₂, hs₁]
    rfl
  have hgood₂ : Good t s₂ := by
    rw [hs₂, hs₁]
    exact (h.good.step _).step _
  -- The request is raised, since the FIFO is empty.
  have hrequest : s₁.m.hw.sr = .request ∧ s₁.m.sfc = s.m.sfc ∧ s₁.thread = s.thread := by
    rw [hs₁, step, Controller.run, List.foldl_cons, List.foldl_nil, Controller.apply, h.fifo]
    refine ⟨?_, rfl, rfl⟩
    rw [if_pos (by decide)]
    simp only
    rw [h.sr]
    rfl
  obtain ⟨hsr₁, hsfc₁, hthread₁⟩ := hrequest
  obtain ⟨hlen, -⟩ := h.positions
  -- The handler pushes.
  have hserved : s₂.m.hw.sr = .none ∧ s₂.m.sfc = { s.m.sfc with
      txPos := s.m.sfc.txPos + min (t.len - s.m.sfc.txPos) ((maxFifoWords - 1) * 4) } ∧
      s₂.thread = s.thread := by
    have hirq := @irqHandler_request { s₁.m with batches := [] } rfl hsr₁
      (by rw [hsfc₁]; exact h.active) t.buf (by rw [hsfc₁]; exact h.txBuf)
      (by rw [hsfc₁, hlen]; exact hmore)
    have hsfc : s₂.m.sfc = (irqHandler { s₁.m with batches := [] }).sfc := by rw [hs₂]; rfl
    have hsr : s₂.m.hw.sr = (irqHandler { s₁.m with batches := [] }).hw.sr := by rw [hs₂]; rfl
    have hthread : s₂.thread = s₁.thread := by rw [hs₂]; rfl
    refine ⟨hsr.trans hirq.1, ?_, hthread.trans hthread₁⟩
    rw [hsfc, hirq.2]
    simp only
    rw [hsfc₁, hlen]
  obtain ⟨hsr₂, hsfc₂, hthread₂⟩ := hserved
  have htxBuf₂ : s₂.m.sfc.txBuf = some t.buf := by
    rw [hsfc₂]
    exact h.txBuf
  -- The controller takes what was pushed.
  obtain ⟨hwrite, hcount, hwords⟩ := hgood₂.taken_add h.dir htxBuf₂
  have hlevel : s₂.m.hw.fifo.length ≤ maxFifoWords := by
    obtain ⟨_, _, hbetween, -⟩ := hgood₂
    exact hbetween.place.flow.level
  have hpos₂ : s₂.m.sfc.txPos ≤ t.len := by
    rw [hsfc₂]
    simp only
    omega
  have htaken := run_take hwrite hlevel (by omega)
  rw [hround]
  have hsfc₃ : (step s₂ (.device (List.replicate maxFifoWords .take))).m.sfc = s₂.m.sfc := rfl
  refine ⟨⟨hgood₂.step _, h.dir, ?_, ?_, ?_, ?_, ?_⟩, ?_⟩
  · exact hthread₂.trans h.thread
  · rw [hsfc₃, hsfc₂]
    exact h.active
  · rw [hsfc₃, htxBuf₂]
  · rw [step, htaken]
    exact hsr₂
  · rw [step, htaken]
  · rw [hsfc₃, hsfc₂]

/-- Rounds send the rest. -/
theorem Sending.sent (h : Sending t s) :
  ∃ moments : List Moment,
    Sending t (moments.foldl step s) ∧ (moments.foldl step s).m.sfc.txPos = t.len
  := by
  obtain ⟨n, hn⟩ : ∃ n, n = t.len - s.m.sfc.txPos := ⟨_, rfl⟩
  induction n using Nat.strongRecOn generalizing s with
  | ind n ih =>
      obtain ⟨-, hle⟩ := h.positions
      rcases Nat.eq_or_lt_of_le hle with hall | hmore
      · exact ⟨[], h, hall⟩
      · have hwords : maxFifoWords = 64 := rfl
        obtain ⟨hround, hpos⟩ := h.round hmore
        obtain ⟨moments, hsent, hall⟩ := ih _ (by omega) hround rfl
        use sendRound ++ moments
        rw [List.foldl_append]
        exact ⟨hsent, hall⟩

/-- The handler on the end of a transfer to the flash. -/
theorem irqHandler_end {m : Machine} (h : m.batches = [])
    (hsr : m.hw.sr = { Status.none with ends := true }) (hactive : m.sfc.active = true)
    (hbuf : m.sfc.rxBuf = none) :
  (irqHandler m).sfc = { m.sfc with lastError := 0, active := false, completed := true }
  := by
  have hirq : irqHandler m =
      finish (serveEnd (noteEnd m)) { Status.none with ends := true } true := by
    have hsr' : (noteEnd m).hw.sr = { Status.none with ends := true } := hsr
    have hactive' : (noteEnd m).sfc.active = true := hactive
    rw [irqHandler, readSr, tick_quiet h]
    simp only
    rw [hsr', hactive']
    rfl
  have hrest : popRest (noteEnd m) = noteEnd m := by
    have hbuf' : (noteEnd m).sfc.rxBuf = none := hbuf
    rw [popRest, hbuf']
  rw [hirq, finish_sfc, serveEnd, hrest]
  rfl

/-- The thread returns what the handler left. -/
theorem thread_returns {s : System} (h : s.thread = .waiting) (hdone : s.m.sfc.completed = true) :
  ((List.replicate 11 Moment.thread).foldl step s).thread = .returned s.m.sfc.lastError
  := by
  obtain ⟨m, thread⟩ := s
  obtain rfl : thread = .waiting := h
  have hfirst : step ⟨m, .waiting⟩ .thread = ⟨m, .cleaning m.sfc.lastError 0⟩ := by
    rw [step]
    simp only
    rw [if_pos hdone]
  rw [List.replicate_succ, List.foldl_cons, hfirst]
  rfl

/-- When all bytes are sent, the transfer ends without an error. -/
theorem Sending.ends (h : Sending t s) (hall : s.m.sfc.txPos = t.len) :
  ((([.device [.ends], .interrupt []] : List Moment) ++
    List.replicate 11 Moment.thread).foldl step s).thread = .returned 0
  := by
  obtain ⟨hwrite, hcount, hwords⟩ := h.good.taken_add h.dir h.txBuf
  rw [h.fifo, List.length_nil, Nat.add_zero, hall] at hcount
  have hmoved : s.m.hw.moved = true := by
    rw [moved, hwrite]
    exact beq_iff_eq.mpr (hcount.trans hwords.symm)
  have hrxBuf : s.m.sfc.rxBuf = none := by
    obtain ⟨_, _, hbetween, -⟩ := h.good
    by_contra hsome
    obtain ⟨buf, hbuf⟩ := Option.ne_none_iff_exists'.mp hsome
    have hin := (hbetween.fields.rx buf hbuf).1
    rw [h.dir] at hin
    cases hin
  obtain ⟨s₁, hs₁⟩ : ∃ s₁, s₁ = step s (.device [.ends]) := ⟨_, rfl⟩
  obtain ⟨s₂, hs₂⟩ : ∃ s₂, s₂ = step s₁ (.interrupt []) := ⟨_, rfl⟩
  have hraised : s₁.m.hw.sr = { Status.none with ends := true } ∧ s₁.m.sfc = s.m.sfc := by
    rw [hs₁, step, Controller.run, List.foldl_cons, List.foldl_nil, Controller.apply, if_pos hmoved]
    refine ⟨?_, rfl⟩
    simp only
    rw [h.sr]
  obtain ⟨hsr₁, hsfc₁⟩ := hraised
  have hirq := @irqHandler_end { s₁.m with batches := [] } rfl hsr₁ (by rw [hsfc₁]; exact h.active)
    (by rw [hsfc₁]; exact hrxBuf)
  have hsfc₂ : s₂.m.sfc = { s₁.m.sfc with lastError := 0, active := false, completed := true } := by
    rw [hs₂, step]
    exact hirq
  have hthread₂ : s₂.thread = .waiting := by
    rw [hs₂, hs₁, step, step]
    exact h.thread
  have hreturns := thread_returns hthread₂ (by rw [hsfc₂])
  rw [hsfc₂] at hreturns
  rw [List.foldl_append, List.foldl_cons, List.foldl_cons, List.foldl_nil, ← hs₁, ← hs₂]
  exact hreturns

end

/-! ### The whole transfer -/

/-- Where the buffer of an operation is. -/
def Op.addr (op : Op) : BitVec 32 := op.buf.getD 0

/-- What holds of a transfer at any time: positions stay within their lengths, nothing outside the
buffer is touched, and words are pushed or popped once and in order, and when it has returned 0, all
bytes have been transferred, and there was no fault before the handler read the end. -/
structure Exact (op : Op) (mem : Memory) (line : List Word) (s : System) : Prop where
  positions : ∀ batches, NotPast s.m.sfc (irqHandler { s.m with batches }).sfc
  touched : ∀ a ∈ s.m.touched, op.dir ≠ .noData ∧ ∃ i < op.nbytes, a = op.addr + BitVec.ofNat 32 i
  frame : ∀ x, (op.dir = .dataIn → op.nbytes ≤ (x - op.addr).toNat) → s.m.mem x = mem x
  pushed : s.m.hw.pushed <+: words (load mem op.addr op.nbytes) ∧
    (op.dir ≠ .dataOut → s.m.hw.pushed = []) ∧
    (s.m.hw.dir = .write → s.m.hw.pushed = s.m.hw.taken ++ s.m.hw.fifo)
  popped : s.m.hw.popped <+: s.m.hw.placed ∧
    (op.dir ≠ .dataIn → s.m.hw.popped = []) ∧
    (s.m.hw.dir = .read → s.m.hw.placed = s.m.hw.popped ++ s.m.hw.fifo) ∧
    ∃ q ≤ op.nbytes, s.m.hw.popped.length = (q + 3) / 4 ∧
      load s.m.mem op.addr q = (bytesOfWords s.m.hw.popped).take q
  returned : s.thread = .returned 0 → s.m.hw.faulted = false ∧
    (op.dir = .dataOut → s.m.hw.taken = words (load mem op.addr op.nbytes) ∧
      (bytesOfWords s.m.hw.taken).take op.nbytes = load mem op.addr op.nbytes) ∧
    (op.dir = .dataIn →
      load s.m.mem op.addr op.nbytes = (bytesOfWords line).take op.nbytes)

section

variable {t : Transfer} {m : Machine} {p q : ℕ}

/-- Behind the end of a transfer to the flash, all words of the buffer have been taken. -/
theorem At.taken (h : At t m p q) (hclean : Clean m.hw) (hdir : t.dir = .dataOut) :
  m.hw.taken = words t.bytes
  := by
  have hwrite : m.hw.dir = .write := by rw [h.dir, hdir]; rfl
  have hmoved := hclean.2.1
  rw [moved, hwrite, wordCount, h.len] at hmoved
  obtain ⟨hle, hwhole, _⟩ := h.tx
  have hpushed := h.flow.write hwrite
  have hcount : m.hw.taken.length + m.hw.fifo.length = (p + 3) / 4 := by
    rw [← List.length_append, ← hpushed, h.pushed, words, length_wordsOf, List.length_take_of_le]
    rwa [t.length_bytes]
  rw [eq_of_beq hmoved] at hcount
  have hall : t.len = p := by omega
  have hfifo : m.hw.fifo = [] := List.length_eq_zero_iff.mp (by omega)
  rw [hfifo, List.append_nil, h.pushed, ← hall, ← t.length_bytes, List.take_length] at hpushed
  exact hpushed.symm

/-- Behind the end of a transfer from the flash, all words of it have been popped. -/
theorem At.given (h : At t m p q) (hclean : Clean m.hw) (hdir : t.dir = .dataIn)
    (hall : q = t.len) :
  m.hw.popped = t.data
  := by
  have hread : m.hw.dir = .read := by rw [h.dir, hdir]; rfl
  have hmoved := hclean.2.1
  rw [moved, hread, wordCount, h.len] at hmoved
  have hplaced := h.flow.read hread
  have hintact := h.flow.intact hread hclean.2.2
  have hcount := congrArg List.length hplaced
  rw [List.length_append, eq_of_beq hmoved, h.popped, hall] at hcount
  have hfifo : m.hw.fifo = [] := List.length_eq_zero_iff.mp (by omega)
  have hdata := congrArg List.length hintact
  rw [List.length_append, eq_of_beq hmoved, t.data_length hdir] at hdata
  have hline : m.hw.line = [] := List.length_eq_zero_iff.mp (by omega)
  rw [hfifo, List.append_nil] at hplaced
  rw [← hintact, hline, List.append_nil, hplaced]

end
/-- Before a transfer nothing has been moved. -/
theorem idle_flow (mem : Memory) (stale : Word) (data : List Word) (dir : TranDir) (len : ℕ)
    (intc : Status) :
  Flow data { (idle mem stale).hw with dir, len, intc, line := data }
  := by
  constructor
  · exact Nat.zero_le _
  · exact fun _ => rfl
  · exact fun _ => rfl
  · exact fun _ _ => rfl
  · exact fun hends => absurd hends Bool.false_ne_true

theorem whole_zero (t : Transfer) (dir : Dir) : t.Whole dir 0 :=
  ⟨Nat.zero_le _, .inl (Nat.dvd_zero 4), fun _ => rfl⟩

theorem words_take_zero (bytes : Bytes) : words (bytes.take 0) = [] := by
  rw [List.take_zero]
  rfl

theorem startTransfer_between (t : Transfer) (op : Op) (stale : Word) (hdir : t.dir = op.dir)
    (hbuf : t.buf = op.addr) (hlen : t.len = op.nbytes) :
  Between t (startTransfer (idle t.mem stale) op t.data) 0 0
  := by
  refine ⟨⟨?_, hlen.symm, idle_flow t.mem stale t.data _ _ _, fun a ha => ?_, fun _ _ => rfl,
    whole_zero t _, (words_take_zero _).symm, whole_zero t _, rfl, rfl⟩, ⟨?_, ?_⟩, ?_, ?_⟩
  · rw [hdir]
    rfl
  · cases ha
  · intro buf hsome
    have hout : op.dir = .dataOut := by
      by_contra hnot
      rw [startTransfer, if_neg hnot] at hsome
      cases hsome
    rw [startTransfer, if_pos hout] at hsome ⊢
    simp only at hsome ⊢
    rw [if_pos hout, hbuf, Op.addr, hsome]
    exact ⟨hdir.trans hout, rfl, hlen.symm, trivial⟩
  · intro buf hsome
    have hin : op.dir = .dataIn := by
      by_contra hnot
      simp only [startTransfer] at hsome
      rw [if_neg hnot] at hsome
      cases hsome
    simp only [startTransfer] at hsome ⊢
    rw [if_pos hin] at hsome ⊢
    rw [hbuf, Op.addr, hsome]
    exact ⟨hdir.trans hin, rfl, hlen.symm, trivial⟩
  · intro _ hrequested
    exact absurd hrequested Bool.false_ne_true
  · intro _ hfaulted
    exact absurd hfaulted Bool.false_ne_true

/-- A transfer that starts. -/
theorem good_start (t : Transfer) (op : Op) (stale : Word) (hdir : t.dir = op.dir)
    (hbuf : t.buf = op.addr) (hlen : t.len = op.nbytes) (heligible : pioEligible op = true) :
  Good t (start op t.mem t.data stale)
  := by
  rw [start, if_pos heligible]
  refine ⟨0, 0, startTransfer_between t op stale hdir hbuf hlen, rfl, fun hin => ?_,
    fun hdone => ?_⟩
  · have hsome : op.buf.isSome = true := by
      rw [hdir] at hin
      rw [pioEligible, hin] at heligible
      exact heligible
    have hrx : (startTransfer (idle t.mem stale) op t.data).sfc.rxBuf = op.buf :=
      if_pos (hdir.symm.trans hin)
    rw [hrx]
    exact Option.isSome_iff_ne_none.mp hsome
  · exact absurd hdone Bool.false_ne_true

/-- The transfer of an operation that is refused. -/
def refused (mem : Memory) : Transfer := ⟨.noData, 0, 0, mem, [], by decide, fun _ => rfl⟩

theorem good_refused {op : Op} (mem : Memory) (line : List Word) (stale : Word)
    (h : ¬ pioEligible op = true) :
  Good (refused mem) (start op mem line stale)
  := by
  rw [start, if_neg h]
  refine ⟨0, 0, ⟨⟨rfl, rfl, idle_flow mem stale [] _ _ _, fun a ha => ?_, fun _ _ => rfl,
    whole_zero _ _, (words_take_zero _).symm, whole_zero _ _, rfl, rfl⟩, ⟨?_, ?_⟩, ?_, ?_⟩, rfl,
    fun hzero => ?_⟩
  · cases ha
  · intro buf hsome
    cases hsome
  · intro buf hsome
    cases hsome
  · intro _ hrequested
    exact absurd hrequested Bool.false_ne_true
  · intro hactive
    exact absurd hactive Bool.false_ne_true
  · cases hzero

/-- What the invariant of runs says of an operation whose transfer it is. -/
theorem Good.exact {t : Transfer} {s : System} (h : Good t s) {op : Op} (hdir : t.dir = op.dir)
    (hbuf : t.buf = op.addr) (hlen : t.len = op.nbytes) :
  Exact op t.mem t.data s
  := by
  obtain ⟨p, q, ⟨hat, _, _, _⟩, hrelies⟩ := h
  obtain ⟨hp, hpWhole, hpStill⟩ := hat.tx
  obtain ⟨hq, _, hqStill⟩ := hat.rx
  have hbytes : t.bytes = load t.mem op.addr op.nbytes := by rw [Transfer.bytes, hbuf, hlen]
  constructor
  · exact fun batches => irqHandler_notPast { s.m with batches }
  · rw [← hdir, ← hbuf, ← hlen]
    exact hat.touched
  · rw [← hdir, ← hbuf, ← hlen]
    exact hat.frame
  · refine ⟨?_, fun hnot => ?_, hat.flow.write⟩
    · rw [hat.pushed, ← hbytes]
      exact words_take_prefix (by rwa [t.length_bytes]) (by rwa [t.length_bytes])
    · rw [hat.pushed, hpStill (hdir ▸ hnot), words_take_zero]
  · have hnone (hnot : op.dir ≠ .dataIn) : s.m.hw.popped = [] := by
      have hcount := hat.popped
      rw [hqStill (hdir ▸ hnot)] at hcount
      exact List.length_eq_zero_iff.mp hcount
    refine ⟨?_, hnone, hat.flow.read, q, hlen ▸ hq, hat.popped, hbuf ▸ hat.read⟩
    by_cases hin : op.dir = .dataIn
    · have hread : s.m.hw.dir = .read := by
        rw [hat.dir, hdir, hin]
        rfl
      rw [hat.flow.read hread]
      exact List.prefix_append _ _
    · rw [hnone hin]
      exact List.nil_prefix
  · intro hreturned
    rw [hreturned] at hrelies
    obtain ⟨hclean, hall⟩ := hrelies.2 rfl
    refine ⟨hclean.2.2, fun hout => ?_, fun hin => ?_⟩
    · rw [← hbytes, hat.taken hclean (hdir.trans hout), ← hlen, ← t.length_bytes]
      exact ⟨rfl, take_bytesOfWords_words t.bytes⟩
    · have hq' := hall (hdir.trans hin)
      have hread := hat.read
      rw [hat.given hclean (hdir.trans hin) hq', hq', hbuf, hlen] at hread
      exact hread

theorem returned_run {s : System} {ret : ℤ} (h : s.thread = .returned ret) (moments : List Moment) :
  (moments.foldl step s).thread = .returned ret
  := by
  apply @Runs.invariant_foldl _ _ _ (fun s => s.thread = .returned ret) _ s h moments
  intro s moment hs
  cases moment with
  | device events => exact hs
  | interrupt batches => exact hs
  | thread =>
      rw [step, hs]
      exact hs
  | timeout =>
      rw [step, hs]
      exact hs

/-- Nothing is transferred for an operation that is refused. -/
theorem refused_exact {op : Op} {mem : Memory} {line : List Word} {stale : Word}
    (h : ¬ pioEligible op = true) (moments : List Moment) :
  Exact op mem line (execOpPio op mem line stale moments)
  := by
  have hgood : Good (refused mem) (execOpPio op mem line stale moments) :=
    (good_refused mem line stale h).run moments
  have hthread : (execOpPio op mem line stale moments).thread = .returned eopnotsupp := by
    apply returned_run
    rw [start, if_neg h]
  have hexact : Exact ⟨.noData, 0, none⟩ mem [] (execOpPio op mem line stale moments) :=
    hgood.exact rfl rfl rfl
  have hpushed := hexact.pushed.2.1 (by decide)
  have hpopped := hexact.popped.2.1 (by decide)
  constructor
  · exact hexact.positions
  · exact fun a ha => absurd rfl (hexact.touched a ha).1
  · exact fun x _ => hexact.frame x fun hin => by cases hin
  · rw [hpushed]
    exact ⟨List.nil_prefix, fun _ => rfl, hpushed ▸ hexact.pushed.2.2⟩
  · rw [hpopped]
    exact ⟨List.nil_prefix, fun _ => rfl, hpopped ▸ hexact.popped.2.2.1, 0, Nat.zero_le _, rfl, rfl⟩
  · intro hreturned
    rw [hthread] at hreturned
    cases hreturned

/-- A transfer to the flash can complete. -/
theorem dataOut_completes {op : Op} (hdir : op.dir = .dataOut) (hbuf : op.buf ≠ none)
    (hlen : op.nbytes < 2 ^ 32) (mem : Memory) (line : List Word) (stale : Word) :
  ∃ moments, (execOpPio op mem line stale moments).thread = .returned 0
  := by
  obtain ⟨buf, hsome⟩ := Option.ne_none_iff_exists'.mp hbuf
  have heligible : pioEligible op = true := by
    rw [pioEligible, hsome]
    apply Bool.or_true
  obtain ⟨t, htdir, htbuf, htlen, rfl, rfl⟩ : ∃ t : Transfer, t.dir = op.dir ∧ t.buf = op.addr ∧
      t.len = op.nbytes ∧ t.mem = mem ∧ t.data = line := by
    refine ⟨⟨op.dir, op.addr, op.nbytes, mem, line, hlen, fun hin => ?_⟩, rfl, rfl, rfl, rfl, rfl⟩
    rw [hdir] at hin
    cases hin
  have hgood := good_start t op stale htdir htbuf htlen heligible
  have hstart : start op t.mem t.data stale =
      ⟨startTransfer (idle t.mem stale) op t.data, .waiting⟩ := if_pos heligible
  have hsending : Sending t (start op t.mem t.data stale) := by
    refine ⟨hgood, htdir.trans hdir, ?_, ?_, ?_, ?_, ?_⟩ <;> rw [hstart]
    · rfl
    · rw [htbuf, Op.addr, hsome, startTransfer]
      exact (if_pos hdir).trans hsome
    · rfl
    · rfl
  obtain ⟨moments, hsent, hall⟩ := hsending.sent
  use moments ++ ([.device [.ends], .interrupt []] ++ List.replicate 11 .thread)
  rw [execOpPio, List.foldl_append]
  exact hsent.ends hall

/-- Every word of a transfer is pushed or popped once and in order, whatever its length and its
buffer, however the controller runs and whenever it interrupts, and a transfer to the flash can
complete. -/
theorem execOpPio_exact (op : Op) (mem : Memory) (line : List Word) (stale : Word)
    (moments : List Moment) (hlen : op.nbytes < 2 ^ 32)
    (hline : op.dir = .dataIn → line.length = (op.nbytes + 3) / 4) :
  Exact op mem line (execOpPio op mem line stale moments) ∧
  (op.dir = .dataOut → op.buf ≠ none →
    ∃ moments, (execOpPio op mem line stale moments).thread = .returned 0)
  := by
  refine ⟨?_, fun hdir hbuf => dataOut_completes hdir hbuf hlen mem line stale⟩
  by_cases heligible : pioEligible op = true
  · have hgood := @good_start ⟨op.dir, op.addr, op.nbytes, mem, line, hlen, hline⟩ op stale rfl rfl
      rfl heligible
    exact (hgood.run moments).exact rfl rfl rfl
  · exact refused_exact heligible moments

/-- A read of five bytes to an address that is not aligned. -/
def readFive : Op := ⟨.dataIn, 5, some 0x80001001⟩

/-- One word is popped on request, and the partial one at the end. -/
def readFiveMoments : List Moment :=
  [.device [.place, .receReq], .interrupt [[], [.place]], .device [.ends], .interrupt []] ++
    List.replicate 11 .thread

theorem execOpPio_fiveBytes :
  let s := execOpPio readFive (fun _ => 0) [0x44332211, 0x55] 0 readFiveMoments
  s.thread = .returned 0 ∧ Exact readFive (fun _ => 0) [0x44332211, 0x55] s ∧
    load s.m.mem 0x80001001 5 = [0x11, 0x22, 0x33, 0x44, 0x55]
  := by
  obtain ⟨hexact, -⟩ := execOpPio_exact readFive (fun _ => 0) [0x44332211, 0x55] 0 readFiveMoments
    (by decide) fun _ => rfl
  have hreturned : (execOpPio readFive (fun _ => 0) [0x44332211, 0x55] 0
      readFiveMoments).thread = .returned 0 := by decide
  refine ⟨hreturned, hexact, ?_⟩
  have hread := (hexact.returned hreturned).2.2 rfl
  exact hread.trans (by decide)

/-- An overrun that is raised while the handler serves the end, behind its reading of the status,
is not told: 0 is returned. -/
theorem not_faultless :
  ¬ ∀ (op : Op) (mem : Memory) (line : List Word) (stale : Word) (front back : List Moment),
    op.nbytes < 2 ^ 32 → (op.dir = .dataIn → line.length = (op.nbytes + 3) / 4) →
    (execOpPio op mem line stale front).thread = .waiting →
    (execOpPio op mem line stale (front ++ back)).thread = .returned 0 →
      (execOpPio op mem line stale front).m.hw.sr.overrun = false ∧
      (execOpPio op mem line stale front).m.hw.sr.underrun = false
  := by
  intro h
  have hnone := h readFive (fun _ => 0) [0x44332211, 0x55] 0
    [.device [.place, .receReq], .interrupt [[], [.place]], .device [.ends],
      .interrupt [[], [], [.overrun]]] (List.replicate 11 .thread) (by decide) (fun _ => rfl)
    (by decide) (by decide)
  exact absurd hnone.1 (by decide)

end IngenicSfc
