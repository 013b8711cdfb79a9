import Mathlib.Data.Fin.VecNotation
import Mathlib.Tactic.FinCases
import Scope.ForStd.Run
import Scope.ForStd.BitVec
import Scope.Native.AdcQpdScanner

/-!
# Which channel a scanned sample belongs to

The scanner is composed with an abstract LTC2308.  The converter works one
configuration behind: a conversion uses the word shifted in during the previous
transfer, and its result is shifted out during the next one.  A round of the
scanner (start, convert, transfer, acquire) takes 160 clocks; `InRound` says what
the system looks like at each offset in a round, and one step lemma for each
phase carries it on.

## Key results

- `round_run`: round follows round, each configuring the conversion of the next
- `inRound_stores`: when a quadrant register is written
- `sample_association`: when each register is written, and with what
-/

namespace Scope.Native

open Sync

/-! ## The converter -/

/-- An abstract LTC2308.  `result` shifts out, most significant bit first. -/
structure Ltc2308 where
  /-- The channel of the last complete configuration word. -/
  channel : BitVec 3
  /-- Configuration bits, as captured so far. -/
  word : BitVec 6
  /-- Rising edges of `sck` since the last rising `convst`. -/
  edges : ℕ
  /-- How many conversions have been started. -/
  conversion : ℕ
  /-- The channel the last conversion was started for. -/
  source : BitVec 3
  result : BitVec 12

namespace Ltc2308

/-- `{S1, S0, O/S}` of a configuration word S/D, O/S, S1, S0, UNI, SLP. -/
def decode (word : BitVec 6) : BitVec 3 := word.extractLsb' 2 2 ++ word.extractLsb' 4 1

def sdo (a : Ltc2308) : Bool := a.result.getLsbD 11

/-- One of the first six rising edges of `sck` captures `sdi`. -/
def capture (sdi : Bool) (a : Ltc2308) : Ltc2308 :=
  if a.edges < 6 then
    { a with
      word := BitVec.shiftIn a.word sdi
      edges := a.edges + 1
      channel := if a.edges = 5 then decode (BitVec.shiftIn a.word sdi) else a.channel }
  else { a with edges := a.edges + 1 }

/-- The converter's reaction when the scanner's outputs change from those of `s`
    to those of `n`.  Conversion number `k` of channel `c` gives `analog k c`. -/
def step (analog : ℕ → BitVec 3 → BitVec 12) (s n : AdcQpdScanner) (a : Ltc2308) : Ltc2308 :=
  if !s.convst && n.convst then
    { a with
      edges := 0
      conversion := a.conversion + 1
      source := a.channel
      result := analog (a.conversion + 1) a.channel }
  else if !s.sck && n.sck then a.capture n.sdi
  else if s.sck && !n.sck then { a with result := a.result <<< 1 }
  else a

end Ltc2308

namespace AdcQpdScanner

private theorem store_outputs (s n : AdcQpdScanner) :
    (s.store n).convst = n.convst ∧ (s.store n).sck = n.sck := by
  unfold store
  split_ifs <;> exact ⟨rfl, rfl⟩

/-- `convst` is high while the next state is `START`. -/
theorem step_convst (i : Input) (s : AdcQpdScanner) :
    (s.step i).convst = decide ((s.next i.reset).1 = .start) := by
  unfold AdcQpdScanner.step quadrants channels
  simp only
  split_ifs <;> simp [store_outputs]

/-- `sck` is high in the even cycles of a transfer. -/
private theorem step_sck (i : Input) (s : AdcQpdScanner) :
    (s.step i).sck =
      (decide ((s.next i.reset).1 = .transfer) && !(s.next i.reset).2.getLsbD 0) := by
  unfold AdcQpdScanner.step quadrants channels
  simp only
  split_ifs <;> simp [store_outputs]

/-- The two serial outputs are never high together. -/
theorem step_sck_of_convst {i : Input} {s : AdcQpdScanner} (h : (s.step i).convst = true) :
    (s.step i).sck = false := by
  have hstart : (s.next i.reset).1 = .start := by simpa [step_convst] using h
  simp [step_sck, hstart]

end AdcQpdScanner

/-- The converter counts no clock edge while `convst` is high. -/
theorem Ltc2308.step_edges (analog : ℕ → BitVec 3 → BitVec 12) {s : AdcQpdScanner}
    {a : Ltc2308} (h : s.convst = true → a.edges = 0) (i : AdcQpdScanner.Input)
    (hconvst : (s.step i).convst = true) : (a.step analog s (s.step i)).edges = 0 := by
  have hsck := AdcQpdScanner.step_sck_of_convst hconvst
  unfold Ltc2308.step
  -- while `convst` stays high there is no clock edge; its rising edge clears the count
  by_cases hold : s.convst = true
  · simp only [hold, hsck, hconvst]
    split_ifs <;> simp_all
  · simp [hold, hconvst]

/-- Scanner and converter. -/
structure AdcSystem where
  scanner : AdcQpdScanner
  adc : Ltc2308
  /-- No clock edge has come since a `convst` that is still high. -/
  fresh : scanner.convst = true → adc.edges = 0

namespace AdcSystem

/-- One clock edge. -/
def step (analog : ℕ → BitVec 3 → BitVec 12) (reset : Bool) (s : AdcSystem) : AdcSystem where
  scanner := s.scanner.step { reset, sdo := s.adc.sdo }
  adc := s.adc.step analog s.scanner (s.scanner.step { reset, sdo := s.adc.sdo })
  fresh := Ltc2308.step_edges analog s.fresh _

theorem step_scanner (analog : ℕ → BitVec 3 → BitVec 12) (reset : Bool) (s : AdcSystem) :
    (s.step analog reset).scanner = s.scanner.step { reset, sdo := s.adc.sdo } := rfl

private theorem step_adc (analog : ℕ → BitVec 3 → BitVec 12) (reset : Bool) (s : AdcSystem) :
    (s.step analog reset).adc = s.adc.step analog s.scanner (s.step analog reset).scanner := rfl

end AdcSystem

/-- The quadrant registers by number. -/
def AdcQpdScanner.quad (s : AdcQpdScanner) : Fin 4 → BitVec 12 := ![s.q0, s.q1, s.q2, s.q3]

/-- The channel code of a quadrant. -/
def chan (c : Fin 4) : BitVec 3 := BitVec.ofNat 3 c

namespace AdcSystem

open AdcQpdScanner

/-- Behind the last channel comes the first. -/
private theorem chan_succ (c : Fin 4) :
    (if chan c = lastch then firstch else chan c + 1) = chan (c + 1) := by
  fin_cases c <;> rfl

/-- The configuration word for a channel decodes to that channel. -/
private theorem decode_adccfg (ch : BitVec 3) (word : BitVec 6)
    (h : BitVec.TopBits word (adccfg ch) 6) : Ltc2308.decode word = ch := by
  -- six captured bits are the upper half of the word
  have hword : word = (adccfg ch).extractLsb' 6 6 := by
    apply BitVec.eq_of_getLsbD_eq
    intro i hi
    rw [h i hi, BitVec.getLsbD_extractLsb', decide_eq_true hi, Bool.true_and]
  have hall : ∀ c : BitVec 3, Ltc2308.decode ((adccfg c).extractLsb' 6 6) = c := by decide
  rw [hword, hall]

/-- A sample goes to the register of the channel before. -/
private theorem store_quad (s n : AdcQpdScanner) (c : Fin 4) (h : s.prevch = chan c) :
    (s.store n).quad = Function.update n.quad c s.sample := by
  funext j
  unfold store
  fin_cases c <;> fin_cases j <;> simp [h, chan, quad, Function.update]

/-! ## One round of the scanner -/

/-- What stays the same for a whole round: quadrant `c` is being read, `v` is the
    result of conversion `k`, started for channel `src`; the quadrant registers
    hold `q`. -/
structure Context where
  c : Fin 4
  v : BitVec 12
  k : ℕ
  src : BitVec 3
  q : Fin 4 → BitVec 12

/-- The two clocks of `start`. -/
structure InStart (x : Context) (t : ℕ) (s : AdcSystem) : Prop where
  state : s.scanner.state = .start
  count : s.scanner.count.toNat = 1 - t
  convst : s.scanner.convst = true
  sck : s.scanner.sck = false
  ch : s.scanner.ch = chan x.c
  quad : s.scanner.quad = x.q
  edges : s.adc.edges = 0
  result : s.adc.result = x.v
  conversion : s.adc.conversion = x.k
  source : s.adc.source = x.src

/-- The 126 clocks of `convert`; the channel registers move on with the last one. -/
structure InConvert (x : Context) (t : ℕ) (s : AdcSystem) : Prop where
  state : s.scanner.state = .convert
  count : s.scanner.count.toNat = 125 - t
  convst : s.scanner.convst = false
  sck : s.scanner.sck = false
  ch : s.scanner.ch = chan (if t = 125 then x.c + 1 else x.c)
  prevch : t = 125 → s.scanner.prevch = chan x.c
  quad : s.scanner.quad = x.q
  edges : s.adc.edges = 0
  result : s.adc.result = x.v
  conversion : s.adc.conversion = x.k
  source : s.adc.source = x.src

/-- The 24 clocks of `transfer`, two for each bit. -/
structure InTransfer (x : Context) (t : ℕ) (s : AdcSystem) : Prop where
  state : s.scanner.state = .transfer
  count : s.scanner.count.toNat = 23 - t
  convst : s.scanner.convst = false
  sck : s.scanner.sck = decide (t % 2 = 1)
  ch : s.scanner.ch = chan (x.c + 1)
  prevch : s.scanner.prevch = chan x.c
  quad : s.scanner.quad = x.q
  sample : BitVec.TopBits s.scanner.sample x.v ((t + 1) / 2)
  edges : s.adc.edges = (t + 1) / 2
  result : s.adc.result = x.v <<< (t / 2)
  word : (t + 1) / 2 ≤ 6 → BitVec.TopBits s.adc.word (adccfg (chan (x.c + 1))) ((t + 1) / 2)
  channel : 6 ≤ (t + 1) / 2 → s.adc.channel = chan (x.c + 1)
  conversion : s.adc.conversion = x.k
  source : s.adc.source = x.src

/-- The eight clocks of `acquire`, with the sample stored. -/
structure InAcquire (x : Context) (t : ℕ) (s : AdcSystem) : Prop where
  state : s.scanner.state = .acquire
  count : s.scanner.count.toNat = 7 - t
  convst : s.scanner.convst = false
  sck : s.scanner.sck = false
  ch : s.scanner.ch = chan (x.c + 1)
  quad : s.scanner.quad = Function.update x.q x.c x.v
  channel : s.adc.channel = chan (x.c + 1)
  conversion : s.adc.conversion = x.k
  source : s.adc.source = x.src

/-- The outputs and registers of the scanner after an edge without reset. -/
theorem scanner_step (s : AdcQpdScanner) (sdo : Bool) (st : State) (cn : BitVec 7)
    (hn : s.next false = (st, cn)) :
    s.step { reset := false, sdo } =
      s.quadrants false st (s.channels false cn { s with
        state := st
        count := cn
        convst := decide (st = .start)
        sck := decide (st = .transfer) && !cn.getLsbD 0
        sdi := decide (st = .transfer) && (adccfg s.ch).getLsbD (cn >>> 1).toNat
        sample :=
          if s.state = .transfer ∧ s.sck = false then (s.sample.setWidth 11).concat sdo
          else s.sample }) := by
  simp only [AdcQpdScanner.step, hn]

/-- Inside a phase the counter counts down. -/
theorem next_count {s : AdcQpdScanner} (h : 0 < s.count.toNat) :
    s.next false = (s.state, s.count - 1) := by
  have hne : s.count ≠ 0 := by
    intro h0
    rw [h0] at h
    exact absurd h (by decide)
  rw [next, if_neg (by simp), if_pos hne, setNext]

/-- At zero the next phase begins. -/
theorem next_phase {s : AdcQpdScanner} (h : s.count.toNat = 0) :
    s.next false =
      match s.state with
      | .start => (.convert, 125)
      | .convert => (.transfer, 23)
      | .transfer => (.acquire, 7)
      | .acquire => (.start, 1)
      | .unused _ => (.start, 1) := by
  have h0 : s.count = 0 := BitVec.eq_of_toNat_eq h
  cases hs : s.state <;> simp [next, h0, hs, setNext]

section Phases

variable {analog : ℕ → BitVec 3 → BitVec 12} {x : Context} {t : ℕ} {s : AdcSystem}

private theorem step_start (h : InStart x 0 s) : InStart x 1 (s.step analog false) := by
  have hcount := h.count
  have hs := scanner_step s.scanner s.adc.sdo _ _ (next_count (by omega))
  constructor <;>
    simp [AdcSystem.step, hs, quadrants, channels, Ltc2308.step, h.state, h.convst, h.sck, h.ch,
      h.edges, h.result, h.conversion, h.source, hcount]
  exact h.quad

/-- A conversion begins when `convst` falls. -/
private theorem start_convert (h : InStart x 1 s) : InConvert x 0 (s.step analog false) := by
  have hcount := h.count
  have hs := scanner_step s.scanner s.adc.sdo _ _ (next_phase (by omega))
  simp only [h.state] at hs
  constructor <;>
    simp [AdcSystem.step, hs, quadrants, channels, Ltc2308.step, h.state, h.convst, h.sck, h.ch,
      h.edges, h.result, h.conversion, h.source]
  exact h.quad

private theorem step_convert (h : InConvert x t s) (ht : t < 125) :
    InConvert x (t + 1) (s.step analog false) := by
  have hcount := h.count
  have hs := scanner_step s.scanner s.adc.sdo _ _ (next_count (by omega))
  have hc := BitVec.toNat_sub_one (x := s.scanner.count) (by omega)
  -- the channel registers move with the clock that takes `count` to 0
  have hz : s.scanner.count - 1 = 0 ↔ t = 124 := by
    rw [← BitVec.toNat_inj, hc]
    simp
    omega
  have hch : s.scanner.ch = chan x.c := by rw [h.ch, if_neg (by omega)]
  have hlast := chan_succ x.c
  by_cases h124 : t = 124
  · constructor <;>
      simp_all [AdcSystem.step, quadrants, channels, Ltc2308.step, h.state, h.convst, h.sck,
        h.edges, h.result, h.conversion, h.source]
    exact h.quad
  · constructor <;>
      simp_all [AdcSystem.step, quadrants, channels, Ltc2308.step, h.state, h.convst, h.sck,
        h.edges, h.result, h.conversion, h.source]
    · omega
    · exact h.quad

private theorem convert_transfer (h : InConvert x 125 s) :
    InTransfer x 0 (s.step analog false) := by
  have hcount := h.count
  have hs := scanner_step s.scanner s.adc.sdo _ _ (next_phase (by omega))
  simp only [h.state] at hs
  have hprev := h.prevch rfl
  have hch : s.scanner.ch = chan (x.c + 1) := h.ch
  constructor <;>
    simp [AdcSystem.step, hs, quadrants, channels, Ltc2308.step, h.state, h.convst, h.sck, hch,
      hprev, h.edges, h.result, h.conversion, h.source, BitVec.TopBits.zero]
  exact h.quad

/-- The first clock of a bit: `sck` rises, the sample takes the bit in and the
    converter captures one of its own. -/
private theorem step_transfer_rise {j : ℕ} (h : InTransfer x (2 * j) s) (hj : j < 12) :
    InTransfer x (2 * j + 1) (s.step analog false) := by
  have hcount := h.count
  have hc := BitVec.toNat_sub_one (x := s.scanner.count) (by omega)
  have hsck : s.scanner.sck = false := by rw [h.sck]; simp
  have hlow : (s.scanner.count - 1).getLsbD 0 = false := by
    rw [BitVec.getLsbD, hc, Nat.testBit_zero]
    exact decide_eq_false (by omega)
  -- `sdi` shows bit `count >> 1` of the new count
  have hindex : ((s.scanner.count - 1) >>> 1).toNat = 11 - j := by
    rw [BitVec.toNat_ushiftRight, hc, Nat.shiftRight_eq_div_pow]
    omega
  have hscan : (s.step analog false).scanner =
      { s.scanner with
        count := s.scanner.count - 1
        sck := true
        sdi := (adccfg (chan (x.c + 1))).getLsbD (11 - j)
        sample := BitVec.shiftIn s.scanner.sample s.adc.sdo } := by
    rw [step_scanner, scanner_step s.scanner s.adc.sdo _ _ (next_count (by omega)), hlow, hindex,
      h.ch]
    simp [quadrants, channels, h.state, h.convst, hsck, h.ch, BitVec.shiftIn]
  have hadc : (s.step analog false).adc =
      s.adc.capture ((adccfg (chan (x.c + 1))).getLsbD (11 - j)) := by
    simp [step_adc, hscan, Ltc2308.step, h.convst, hsck]
  have hhalf : (2 * j + 1) / 2 = j := by omega
  have hhalf' : 2 * j / 2 = j := by omega
  have hnext : (2 * j + 1 + 1) / 2 = j + 1 := by omega
  have hedges : s.adc.edges = j := by rw [h.edges, hhalf]
  have hword := h.word
  have hchannel := h.channel
  rw [hhalf] at hword hchannel
  -- the converter has shifted its result `j` times
  have hsdo : s.adc.sdo = x.v.getLsbD (11 - j) := by
    rw [Ltc2308.sdo, h.result, hhalf', BitVec.getLsbD_shiftLeft]
    simp [show ¬ 11 < j by omega]
  -- the first six bits go into the configuration word of the converter
  have htop : j < 6 → BitVec.TopBits (BitVec.shiftIn s.adc.word
      ((adccfg (chan (x.c + 1))).getLsbD (11 - j))) (adccfg (chan (x.c + 1))) (j + 1) :=
    fun h6 => (hword h6.le).shiftIn (by omega) (by omega) rfl
  constructor
  case state => rw [hscan]; exact h.state
  case count => simp only [hscan, hc]; omega
  case convst => rw [hscan]; exact h.convst
  case sck => rw [hscan]; exact (decide_eq_true (by omega)).symm
  case ch => rw [hscan]; exact h.ch
  case prevch => rw [hscan]; exact h.prevch
  case quad => rw [hscan]; exact h.quad
  case sample =>
    have hsample := h.sample
    rw [hhalf] at hsample
    rw [hscan, hnext]
    exact hsample.shiftIn (by omega) (by omega) hsdo
  case edges => rw [hadc, hnext]; unfold Ltc2308.capture; split <;> simp [hedges]
  case result => rw [hadc, hhalf, ← hhalf', ← h.result]; unfold Ltc2308.capture; split <;> rfl
  case word =>
    rw [hadc, hnext]
    intro h6
    simpa [Ltc2308.capture, hedges, show j < 6 by omega] using htop (by omega)
  case channel =>
    rw [hadc, hnext]
    intro h6
    -- with the sixth bit the word is complete and names the channel
    by_cases h5 : j = 5
    · subst h5
      simp only [Ltc2308.capture, hedges]
      exact decode_adccfg _ _ (htop (by omega))
    · simpa [Ltc2308.capture, hedges, show ¬ j < 6 by omega] using hchannel (by omega)
  case conversion => rw [hadc, ← h.conversion]; unfold Ltc2308.capture; split <;> rfl
  case source => rw [hadc, ← h.source]; unfold Ltc2308.capture; split <;> rfl

/-- The second clock of a bit: `sck` falls and the converter moves on to the next
    bit of its result. -/
private theorem step_transfer_fall {j : ℕ} (h : InTransfer x (2 * j + 1) s) (hj : j < 11) :
    InTransfer x (2 * j + 2) (s.step analog false) := by
  have hcount := h.count
  have hc := BitVec.toNat_sub_one (x := s.scanner.count) (by omega)
  have hsck : s.scanner.sck = true := by rw [h.sck]; exact decide_eq_true (by omega)
  -- the next count is odd, which takes `sck` down
  have hlow : (s.scanner.count - 1).getLsbD 0 = true := by
    rw [BitVec.getLsbD, hc, Nat.testBit_zero]
    exact decide_eq_true (by omega)
  have hscan : (s.step analog false).scanner =
      { s.scanner with
        count := s.scanner.count - 1
        sck := false
        sdi := (adccfg s.scanner.ch).getLsbD ((s.scanner.count - 1) >>> 1).toNat } := by
    rw [step_scanner, scanner_step s.scanner s.adc.sdo _ _ (next_count (by omega)), hlow]
    simp [quadrants, channels, h.state, h.convst, hsck]
  have hhalf : (2 * j + 1) / 2 = j := by omega
  have hnext : (2 * j + 1 + 1) / 2 = j + 1 := by omega
  have hnext' : (2 * j + 2 + 1) / 2 = j + 1 := by omega
  -- a falling edge of `sck` shifts the result of the conversion
  have hadc : (s.step analog false).adc =
      { s.adc with result := s.adc.result <<< 1 } := by
    simp [step_adc, hscan, Ltc2308.step, h.convst, hsck]
  constructor
  case state => rw [hscan]; exact h.state
  case count => simp only [hscan, hc]; omega
  case convst => rw [hscan]; exact h.convst
  case sck => rw [hscan]; exact (decide_eq_false (by omega)).symm
  case ch => rw [hscan]; exact h.ch
  case prevch => rw [hscan]; exact h.prevch
  case quad => rw [hscan]; exact h.quad
  case sample => rw [hscan, hnext', ← hnext]; exact h.sample
  case edges => rw [hadc, hnext', ← hnext]; exact h.edges
  case result =>
    rw [hadc]
    change s.adc.result <<< 1 = _
    -- one shift more than before
    rw [h.result, hhalf, ← BitVec.shiftLeft_add]
    congr 1
    omega
  case word => rw [hadc, hnext', ← hnext]; exact h.word
  case channel => rw [hadc, hnext', ← hnext]; exact h.channel
  case conversion => rw [hadc]; exact h.conversion
  case source => rw [hadc]; exact h.source

private theorem step_transfer (h : InTransfer x t s) (ht : t < 23) :
    InTransfer x (t + 1) (s.step analog false) := by
  obtain ⟨j, rfl | rfl⟩ := Nat.even_or_odd' t
  · exact step_transfer_rise h (by omega)
  · exact step_transfer_fall h (by omega)

/-- After the last bit the sample is complete and goes to quadrant `c`. -/
private theorem transfer_acquire (h : InTransfer x 23 s) : InAcquire x 0 (s.step analog false) := by
  have hcount := h.count
  have hs := scanner_step s.scanner s.adc.sdo _ _ (next_phase (by omega))
  simp only [h.state] at hs
  have hsck : s.scanner.sck = true := by rw [h.sck]; rfl
  have hsample : s.scanner.sample = x.v := BitVec.TopBits.eq h.sample
  -- `prevch` names the channel that is being read, `ch` the one just configured
  have hquad : ∀ n : AdcQpdScanner, (s.scanner.store n).quad =
      Function.update n.quad x.c x.v := by
    intro n
    rw [store_quad _ _ x.c h.prevch, hsample]
  have hstore : ∀ n : AdcQpdScanner, (s.scanner.store n).state = n.state ∧
      (s.scanner.store n).count = n.count ∧ (s.scanner.store n).convst = n.convst ∧
      (s.scanner.store n).sck = n.sck ∧ (s.scanner.store n).ch = n.ch := by
    intro n
    unfold store
    split_ifs <;> simp
  constructor <;>
    simp [AdcSystem.step, hs, quadrants, channels, Ltc2308.step, h.state, h.convst, hsck, h.ch,
      h.channel, h.conversion, h.source, hstore, hquad]
  exact congrArg (fun q => Function.update q x.c x.v) h.quad

private theorem step_acquire (h : InAcquire x t s) (ht : t < 7) :
    InAcquire x (t + 1) (s.step analog false) := by
  have hcount := h.count
  have hs := scanner_step s.scanner s.adc.sdo _ _ (next_count (by omega))
  have hc := BitVec.toNat_sub_one (x := s.scanner.count) (by omega)
  constructor <;>
    simp [AdcSystem.step, hs, quadrants, channels, Ltc2308.step, h.state, h.convst, h.sck, h.ch,
      h.channel, h.conversion, h.source]
  · omega
  · exact h.quad

/-- The next round starts a conversion of the channel that was just configured. -/
private theorem acquire_start (h : InAcquire x 7 s) :
    InStart { c := x.c + 1, v := analog (x.k + 1) (chan (x.c + 1)), k := x.k + 1,
              src := chan (x.c + 1), q := Function.update x.q x.c x.v } 0
      (s.step analog false) := by
  -- `convst` rises with the new phase: the converter samples what it was configured for
  have hcount := h.count
  have hs := scanner_step s.scanner s.adc.sdo _ _ (next_phase (by omega))
  simp only [h.state] at hs
  constructor <;>
    simp [AdcSystem.step, hs, quadrants, channels, Ltc2308.step, h.state, h.convst, h.sck, h.ch,
      h.channel, h.conversion]
  exact h.quad

end Phases

/-! ## Rounds -/

/-- The system `o` clocks into a round. -/
def InRound (x : Context) (o : ℕ) (s : AdcSystem) : Prop :=
  if o < 2 then InStart x o s
  else if o < 128 then InConvert x (o - 2) s
  else if o < 152 then InTransfer x (o - 128) s
  else InAcquire x (o - 152) s

/-- What the next round reads. -/
def Context.next (analog : ℕ → BitVec 3 → BitVec 12) (x : Context) : Context where
  c := x.c + 1
  v := analog (x.k + 1) (chan (x.c + 1))
  k := x.k + 1
  src := chan (x.c + 1)
  q := Function.update x.q x.c x.v

/-- Round number `r`. -/
def Context.round (analog : ℕ → BitVec 3 → BitVec 12) (x : Context) : ℕ → Context
  | 0 => x
  | r + 1 => (x.round analog r).next analog

section Rounds

variable {analog : ℕ → BitVec 3 → BitVec 12} {x : Context} {o : ℕ} {s : AdcSystem}

variable (analog) in
/-- Any cycle of a round but the last. -/
private theorem inRound_step (h : InRound x o s) (ho : o < 159) :
    InRound x (o + 1) (s.step analog false) := by
  unfold InRound at h ⊢
  -- a phase hands on with its last clock: 2, 126, 24 and 8 clocks
  by_cases h1 : o + 1 < 2
  · obtain rfl : o = 0 := by omega
    exact step_start h
  by_cases h2 : o + 1 < 128
  · rw [if_neg h1, if_pos h2]
    by_cases h3 : o < 2
    · obtain rfl : o = 1 := by omega
      exact start_convert h
    · rw [if_neg h3, if_pos (by omega)] at h
      rw [show o + 1 - 2 = o - 2 + 1 by omega]
      exact step_convert h (by omega)
  by_cases h3 : o + 1 < 152
  · rw [if_neg h1, if_neg h2, if_pos h3]
    by_cases h4 : o < 128
    · obtain rfl : o = 127 := by omega
      exact convert_transfer h
    · rw [if_neg (by omega), if_neg h4, if_pos (by omega)] at h
      rw [show o + 1 - 128 = o - 128 + 1 by omega]
      exact step_transfer h (by omega)
  · rw [if_neg h1, if_neg h2, if_neg h3]
    by_cases h4 : o < 152
    · obtain rfl : o = 151 := by omega
      exact transfer_acquire h
    · rw [if_neg (by omega), if_neg (by omega), if_neg h4] at h
      rw [show o + 1 - 152 = o - 152 + 1 by omega]
      exact step_acquire h (by omega)

variable (analog) in
/-- Behind the last cycle the next round begins. -/
private theorem inRound_last (h : InRound x 159 s) :
    InRound (x.next analog) 0 (s.step analog false) :=
  acquire_start h

/-- Rounds follow each other for as long as reset stays low. -/
theorem round_run (h : InRound x 0 s) (m : ℕ) :
    InRound (x.round analog (m / 160)) (m % 160) (run (step analog) s (fun _ => false) m) := by
  induction m with
  | zero => exact h
  | succ m ih =>
    -- clock 159 of a round leads into the next one
    by_cases hm : m % 160 = 159
    · rw [hm] at ih
      rw [show (m + 1) / 160 = m / 160 + 1 by omega, show (m + 1) % 160 = 0 by omega]
      exact inRound_last analog ih
    · rw [show (m + 1) / 160 = m / 160 by omega, show (m + 1) % 160 = m % 160 + 1 by omega]
      exact inRound_step analog ih (by omega)

/-! ## What a round stores -/

/-- The edge behind cycle `s` writes the register of quadrant `c`. -/
def Stores (s : AdcQpdScanner) (c : Fin 4) : Prop :=
  s.state = .transfer ∧ (s.next false).1 = .acquire ∧ s.prevch = chan c

/-- Two quadrants have two channels. -/
private theorem chan_injective : Function.Injective chan := by decide

/-- A register is written in one cycle of the round of its channel. -/
theorem inRound_stores (h : InRound x o s) (ho : o < 160) (c : Fin 4) :
    Stores s.scanner c ↔ o = 151 ∧ x.c = c := by
  unfold InRound at h
  split_ifs at h with h1 h2 h3
  · simp [Stores, h.state]
    omega
  · simp [Stores, h.state]
    omega
  · have hcount := h.count
    by_cases h4 : o = 151
    · have hn := next_phase (s := s.scanner) (by omega)
      simp [Stores, hn, h.state, h.prevch, h4, chan_injective.eq_iff]
    · have hn := next_count (s := s.scanner) (by omega)
      simp [Stores, hn, h.state, h4]
  · simp [Stores, h.state]
    omega

/-- What the registers hold in a round. -/
theorem inRound_quad (h : InRound x o s) :
    s.scanner.quad = if o < 152 then x.q else Function.update x.q x.c x.v := by
  unfold InRound at h
  split_ifs at h ⊢ with h1 h2 h3 <;> first | exact h.quad | omega

variable (analog) in
/-- Only the last clock of `transfer` changes the quadrant registers. -/
private theorem inRound_quad_step (h : InRound x o s) (ho : o < 160) :
    (s.step analog false).scanner.quad =
      if o = 151 then Function.update x.q x.c x.v else s.scanner.quad := by
  have hnow := inRound_quad h
  by_cases hlast : o = 159
  · subst hlast
    have hnext := inRound_quad (inRound_last analog h)
    rw [hnext, hnow]
    simp [Context.next]
  · have hnext := inRound_quad (inRound_step analog h (by omega))
    rw [hnext, hnow]
    split_ifs <;> first | rfl | omega

/-- There is one conversion in a round. -/
theorem inRound_conversion (h : InRound x o s) :
    s.adc.conversion = x.k ∧ s.adc.source = x.src := by
  unfold InRound at h
  split_ifs at h <;> exact ⟨h.conversion, h.source⟩

/-- Round by round the channels take turns. -/
theorem round_c (r : ℕ) : (x.round analog r).c = x.c + Fin.ofNat 4 r := by
  induction r with
  | zero => simp [Context.round]
  | succ r ih =>
    simp only [Context.round, Context.next, ih, add_assoc]
    congr 1
    ext
    simp [Fin.val_add]

/-- Every round starts a conversion. -/
theorem round_k (r : ℕ) : (x.round analog r).k = x.k + r := by
  induction r with
  | zero => rfl
  | succ r ih => simp only [Context.round, Context.next, ih, add_assoc]

variable (analog x) in
/-- From the second round on the sample is the result of a conversion for the
    quadrant it is stored to. -/
theorem round_v {r : ℕ} (hr : 0 < r) :
    (x.round analog r).src = chan (x.round analog r).c ∧
      (x.round analog r).v = analog (x.round analog r).k (x.round analog r).src := by
  obtain ⟨r, rfl⟩ := Nat.exists_eq_succ_of_ne_zero hr.ne'
  exact ⟨rfl, rfl⟩

end Rounds

/-! ## From reset -/

section Reset

variable {analog : ℕ → BitVec 3 → BitVec 12} {s : AdcSystem} {reset : ℕ → Bool}

variable (analog s) in
/-- A clock with reset asserted leaves the scanner at the start of the first round. -/
theorem reset_round :
    ∃ x : Context, x.c = 0 ∧ x.k = (s.step analog true).adc.conversion ∧
      InRound x 0 (s.step analog true) := by
  refine ⟨⟨0, (s.step analog true).adc.result, _, (s.step analog true).adc.source,
    (s.step analog true).scanner.quad⟩, rfl, rfl, ?_⟩
  have hconvst : (s.step analog true).scanner.convst = true := by
    simp [AdcSystem.step, step_convst, next, setNext]
  constructor
  case convst => exact hconvst
  case edges => exact (s.step analog true).fresh hconvst
  all_goals simp [AdcSystem.step, AdcQpdScanner.step, quadrants, channels, next, setNext, chan,
    firstch]

variable (analog s) in
/-- After the last cycle with reset asserted, round follows round. -/
theorem released {N : ℕ} (hreset : reset N = true) (hfree : ∀ n > N, reset n = false) :
    ∃ x : Context, x.c = 0 ∧
      x.k = (run (step analog) s reset (N + 1)).adc.conversion ∧
      ∀ m, InRound (x.round analog (m / 160)) (m % 160)
        (run (step analog) s reset (N + 1 + m)) := by
  obtain ⟨x, hc, hk, hx⟩ := reset_round analog (run (step analog) s reset N)
  refine ⟨x, hc, ?_, fun m => ?_⟩
  · rw [hk, run_succ, hreset]
  · have hlow : (fun k => reset (N + 1 + k)) = fun _ => false := by
      funext k
      exact hfree _ (by omega)
    rw [run_add, hlow, run_succ, hreset]
    exact round_run hx m

end Reset

/-- **Sample association.**  Counting `m` from the clock behind the last reset:
    quadrant register `c` is written by clock `160 * c + 151` of every 640 and by
    no other.  From the second transfer on it takes the result of the conversion
    that was started last, and that one was started for channel `c`; a new
    conversion is started every 160 clocks. -/
theorem sample_association (analog : ℕ → BitVec 3 → BitVec 12) (s : AdcSystem)
    (reset : ℕ → Bool) (N : ℕ) (hreset : reset N = true) (hfree : ∀ n > N, reset n = false)
    (m : ℕ) (c : Fin 4) :
    let start := run (step analog) s reset (N + 1)
    let now := run (step analog) s reset (N + 1 + m)
    let after := run (step analog) s reset (N + 1 + m + 1)
    (Stores now.scanner c ↔ m % 640 = 160 * c + 151) ∧
      (Stores now.scanner c → 160 ≤ m → now.adc.source = chan c ∧
        after.scanner.quad c = analog now.adc.conversion now.adc.source) ∧
      (¬ Stores now.scanner c → after.scanner.quad c = now.scanner.quad c) ∧
      now.adc.conversion = start.adc.conversion + m / 160 := by
  intro start now after
  obtain ⟨x, hc, hk, hx⟩ := released analog s hreset hfree
  have hnow : InRound (x.round analog (m / 160)) (m % 160) now := hx m
  have hlast : m % 160 < 160 := Nat.mod_lt _ (by omega)
  -- the clock and the channel of the store, in this round
  have hstores := inRound_stores hnow hlast c
  -- round `r` reads quadrant `r % 4`
  have hctx : (x.round analog (m / 160)).c = Fin.ofNat 4 (m / 160) := by
    rw [round_c, hc, zero_add]
  obtain ⟨hconv, hsource⟩ := inRound_conversion hnow
  have hstep : after = now.step analog false := by
    change run _ _ _ (N + 1 + m + 1) = _
    rw [run_succ, hfree _ (by omega)]
  have hafter := inRound_quad_step analog hnow hlast
  rw [← hstep] at hafter
  refine ⟨?_, ?_, ?_, ?_⟩
  · rw [hstores, hctx, Fin.ext_iff]
    simp only [Fin.ofNat, Fin.val_mk]
    omega
  · intro h hm
    -- from the second round on the value is that of the round before
    obtain ⟨h151, hcc⟩ := hstores.1 h
    obtain ⟨hsrc, hv⟩ := round_v analog x (r := m / 160) (by omega)
    rw [hafter, if_pos h151, hconv, hsource, ← hv, hsrc, hcc, Function.update_self]
    exact ⟨rfl, rfl⟩
  · intro h
    rw [hafter]
    split_ifs with h151
    · rw [Function.update_of_ne, inRound_quad hnow, if_pos (by omega)]
      exact fun hcc => h (hstores.2 ⟨h151, hcc.symm⟩)
    · rfl
  · rw [hconv, round_k, hk]

/-- The scanner right after power-up, with the converter idle. -/
def powerUp : AdcSystem where
  scanner :=
    { state := .start, count := 0, convst := false, sck := false, sdi := false, ch := 0,
      prevch := 0, sample := 0, q0 := 0, q1 := 0, q2 := 0, q3 := 0 }
  adc := { channel := 0, word := 0, edges := 0, conversion := 0, source := 0, result := 0 }
  fresh := fun _ => rfl

/-- Quadrant 2 in its second pass takes the result of conversion 7. -/
theorem sample_association_second_pass :
    let analog : ℕ → BitVec 3 → BitVec 12 := fun k c => BitVec.ofNat 12 (16 * k + c.toNat)
    let reset : ℕ → Bool := fun n => decide (n = 0)
    Stores (run (step analog) powerUp reset (1 + 1111)).scanner 2 ∧
      (run (step analog) powerUp reset (1 + 1112)).scanner.quad 2 = 16 * 7 + 2 := by
  intro analog reset
  have h := sample_association analog powerUp reset 0 rfl
    (fun n hn => decide_eq_false (by omega)) 1111 2
  obtain ⟨hstores, hvalue, -, hconversion⟩ := h
  have hfirst : (run (step analog) powerUp reset 1).adc.conversion = 1 := rfl
  have hs := hstores.2 (by decide)
  obtain ⟨hsource, hquad⟩ := hvalue hs (by omega)
  rw [hfirst] at hconversion
  refine ⟨hs, hquad.trans ?_⟩
  rw [hsource, hconversion]
  rfl

end AdcSystem

end Scope.Native
