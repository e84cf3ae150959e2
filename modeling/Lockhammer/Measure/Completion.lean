import Lockhammer.Measure.Cancellation

/-!
# A worker thread that is not cancelled (measure.c)

What `hmr` records when it comes to the end: how many acquires the loop has done, the sum of the
depths that they returned, and times of this measurement only. The counted loop comes to its end
whatever the thread reads.
-/
namespace Lockhammer.Cancellation

variable {x : ThreadArgs} {s : Hmr}

section Rounds

/-- How the end of the counted or of the timed loop is reached. -/
structure Ended (x : ThreadArgs) (s : Hmr) : Prop where
  counted : x.runLimitTicks = 0 → x.numAcquires ≠ 0 ∧ s.depths.length = x.numAcquires.toNat
  timed : x.runLimitTicks ≠ 0 → (∃ passes, 1 ≤ passes ∧
      s.depths.length = passes * x.runLimitInnerLoopIters.toNat) ∧
    s.ticksEnd.fresh = true ∧ x.runLimitTicks ≤ s.ticksEnd.value - s.ticksStart.value

/-- The acquires done so far, at each place of the two loops. -/
def Rounds (x : ThreadArgs) (s : Hmr) : Prop :=
  match s.pc with
  | .timedFor i => x.runLimitTicks ≠ 0 ∧ i ≤ x.runLimitInnerLoopIters ∧
    ∃ passes, s.depths.length = passes * x.runLimitInnerLoopIters.toNat + i.toNat
  | .timedCount i => x.runLimitTicks ≠ 0 ∧ i < x.runLimitInnerLoopIters ∧
    ∃ passes, s.depths.length = passes * x.runLimitInnerLoopIters.toNat + i.toNat + 1
  | .timedDepth | .timedAcquires | .timedWhile => x.runLimitTicks ≠ 0 ∧ s.ticksEnd.fresh = true ∧
    ∃ passes, 1 ≤ passes ∧ s.depths.length = passes * x.runLimitInnerLoopIters.toNat
  | .countedWhile => x.runLimitTicks = 0 ∧ (x.numAcquires ≠ 0 → s.depths.length ≤ x.numAcquires.toNat)
  | .countedCount | .countedAcquires | .countedDepth =>
    x.runLimitTicks = 0 ∧ (x.numAcquires ≠ 0 → s.depths.length ≤ x.numAcquires.toNat)
  | .countedEnd => x.runLimitTicks = 0 ∧ Ended x s
  | .endMonot | .endCputime | .storeStartNs | .storeAcquires | .storeCputime | .storeWalltime | .storeDepth
  | .storeStart | .storeEnd | .popped => (x.runLimitTicks = 0 → s.ticksEnd.fresh = true) ∧ Ended x s
  | _ => s.depths = []

/-- The counter of the thread tells the rounds as long as it does not wrap. -/
lemma lockAcquires_lt_iff (hcount : s.lockAcquires = BitVec.ofNat 64 s.depths.length)
    (hle : s.depths.length ≤ x.numAcquires.toNat) :
    s.lockAcquires < x.numAcquires ↔ s.depths.length < x.numAcquires.toNat := by
  have hlt := x.numAcquires.isLt
  rw [BitVec.lt_def, hcount, toNat_ofNat_of_le hle hlt]

lemma toNat_succ_of_lt {i iters : BitVec 64} (h : i < iters) : (i + 1).toNat = i.toNat + 1 := by
  have hi : i.toNat < iters.toNat := h
  have hlt := iters.isLt
  rw [BitVec.toNat_add]
  exact Nat.mod_eq_of_lt (by change i.toNat + 1 < 2 ^ 64; omega)

theorem Rounds.step (h : Rounds x s) (hc : Counted s) (input : BitVec 64) : Rounds x (step x s input) := by
  have htold := hc.told
  unfold Told at htold
  unfold Rounds at h
  unfold Cancellation.step
  cases hpc : s.pc with
  | publishStart =>
    rw [hpc] at h
    have hnil : s.depths = [] := h
    dsimp only [ThreadArgs.loop]
    by_cases hticks : x.runLimitTicks = 0
    · rw [if_neg (not_not.mpr hticks)]
      exact ⟨hticks, fun _ => by simp [hnil]⟩
    · rw [if_pos hticks]
      exact ⟨hticks, by simp [BitVec.le_def], 0, by simp [hnil]⟩
  | timedFor i =>
    rw [hpc] at h
    obtain ⟨hticks, hle, passes, hlen⟩ := h
    dsimp only
    split
    · next hlt => exact ⟨hticks, hlt, passes, by rw [List.length_append, hlen, List.length_singleton]⟩
    · next hge =>
      have hi : i = x.runLimitInnerLoopIters := BitVec.le_antisymm hle (BitVec.not_lt.mp hge)
      refine ⟨hticks, rfl, passes + 1, by omega, ?_⟩
      change s.depths.length = _
      rw [hlen, hi, Nat.succ_mul]
  | timedCount i =>
    rw [hpc] at h
    obtain ⟨hticks, hlt, passes, hlen⟩ := h
    have hsucc := toNat_succ_of_lt hlt
    refine ⟨hticks, ?_, passes, ?_⟩
    · rw [BitVec.le_def, hsucc]
      exact hlt
    · rw [hsucc]
      exact hlen
  | timedWhile =>
    rw [hpc] at h
    obtain ⟨hticks, hfresh, passes, hpos, hlen⟩ := h
    dsimp only
    split
    · exact ⟨hticks, by simp [BitVec.le_def], passes, by simpa using hlen⟩
    · next hge =>
      exact ⟨fun h0 => absurd h0 hticks, fun h0 => absurd h0 hticks,
        fun _ => ⟨⟨passes, hpos, hlen⟩, hfresh, BitVec.not_lt.mp hge⟩⟩
  | countedWhile =>
    rw [hpc] at h htold
    obtain ⟨hticks, hle⟩ := h
    dsimp only
    split
    · next hgo =>
      refine ⟨hticks, fun hn => ?_⟩
      have hlt := (lockAcquires_lt_iff htold.1 (hle hn)).mp (hgo.resolve_left hn)
      rw [List.length_append, List.length_singleton]
      exact hlt
    · next hstop =>
      obtain ⟨hn, hnot⟩ := not_or.mp hstop
      refine ⟨hticks, fun _ => ⟨hn, ?_⟩, fun h0 => absurd hticks h0⟩
      have hge := mt (lockAcquires_lt_iff htold.1 (hle hn)).mpr hnot
      exact le_antisymm (hle hn) (not_lt.mp hge)
  | countedEnd =>
    rw [hpc] at h
    obtain ⟨hticks, hended⟩ := h
    exact ⟨fun _ => rfl, hended.counted, fun h0 => absurd hticks h0⟩
  | timedDepth | timedAcquires =>
    rw [hpc] at h
    exact h
  | countedCount | countedAcquires | countedDepth =>
    rw [hpc] at h
    exact h
  | endMonot | endCputime | storeStartNs | storeAcquires | storeCputime | storeWalltime | storeDepth
  | storeStart | storeEnd =>
    rw [hpc] at h
    exact ⟨h.1, h.2.counted, h.2.timed⟩
  | popped =>
    rw [hpc] at h
    simpa [Rounds, hpc] using h
  | _ =>
    rw [hpc] at h
    exact h

end Rounds

section Record

/-- How far the record has got. -/
def Pc.stores : Pc → ℕ
  | .endCputime => 1
  | .storeStartNs => 2
  | .storeAcquires => 3
  | .storeCputime => 4
  | .storeWalltime => 5
  | .storeDepth => 6
  | .storeStart => 7
  | .storeEnd => 8
  | .popped => 9
  | _ => 0

/-- Each field has its value from its own store on. -/
structure Recorded (x : ThreadArgs) (s : Hmr) : Prop where
  tvMonotEnd : 0 < s.pc.stores → s.tvMonotEnd.fresh = true
  tvCputimeEnd : 1 < s.pc.stores → s.tvCputimeEnd.fresh = true
  pStartNs : 2 < s.pc.stores → x.thread = 0 → s.pStartNs = s.tvMonotStart
  lockAcquires : 3 < s.pc.stores → s.results.lockAcquires = s.lockAcquires
  cputimeNs : 4 < s.pc.stores → s.results.cputimeNs = s.tvCputimeEnd.since s.tvCputimeStart
  walltimeNs : 5 < s.pc.stores → s.results.walltimeNs = s.tvMonotEnd.since s.tvMonotStart
  hmrdepth : 6 < s.pc.stores → s.results.hmrdepth = s.totalDepth
  hwtimerStart : 7 < s.pc.stores → s.results.hwtimerStart = s.ticksStart
  hwtimerEnd : 8 < s.pc.stores → s.results.hwtimerEnd = s.ticksEnd

/-- Nothing is asked before the first store. -/
lemma Recorded.of_stores (h : s.pc.stores = 0) : Recorded x s := by
  constructor <;> simp [h]

lemma stores_loop (x : ThreadArgs) : x.loop.stores = 0 := by
  unfold ThreadArgs.loop
  split <;> rfl

theorem Recorded.step (h : Recorded x s) (input : BitVec 64) : Recorded x (step x s input) := by
  obtain ⟨h₁, h₂, h₃, h₄, h₅, h₆, h₇, h₈, h₉⟩ := h
  unfold Cancellation.step
  cases hpc : s.pc with
  | publishStart => exact .of_stores (stores_loop x)
  | timedFor i =>
    dsimp only
    split <;> exact .of_stores rfl
  | timedWhile =>
    refine .of_stores ?_
    dsimp only
    split <;> rfl
  | countedWhile =>
    dsimp only
    split <;> exact .of_stores rfl
  | endMonot | endCputime | storeAcquires | storeCputime | storeWalltime | storeDepth | storeStart | storeEnd =>
    simp only [hpc, Pc.stores] at h₁ h₂ h₃ h₄ h₅ h₆ h₇ h₈
    constructor <;> simp +contextual [Pc.stores, Stamp.read, *]
  | storeStartNs =>
    simp only [hpc, Pc.stores] at h₁ h₂
    constructor
    case pStartNs => exact fun _ h0 => if_pos h0
    all_goals simp [Pc.stores, h₁, h₂]
  | popped =>
    simp only [hpc] at h₁ h₂ h₃ h₄ h₅ h₆ h₇ h₈ h₉
    constructor <;> simp +contextual [*]
  | _ => exact .of_stores rfl

end Record

section Length

/-- The steps that a counted run still takes. -/
def remaining (x : ThreadArgs) (s : Hmr) : ℕ :=
  match s.pc with
  | .setup | .measureHold | .measurePost | .storeHold | .storePost | .startMonot | .startCputime
  | .startTicks | .publishStart => 20 - s.pc.rank + 4 * x.numAcquires.toNat
  | .countedWhile => 11 + 4 * (x.numAcquires.toNat - s.depths.length)
  | .countedCount => 14 + 4 * (x.numAcquires.toNat - s.depths.length)
  | .countedAcquires => 13 + 4 * (x.numAcquires.toNat - s.depths.length)
  | .countedDepth => 12 + 4 * (x.numAcquires.toNat - s.depths.length)
  | .countedEnd => 10
  | pc => 9 - pc.stores

lemma step_remaining (h : Rounds x s) (hc : Counted s) (hticks : x.runLimitTicks = 0) (hn : x.numAcquires ≠ 0)
    (hpc : s.pc ≠ .popped) (input : BitVec 64) : remaining x (step x s input) < remaining x s := by
  have htold := hc.told
  unfold Told at htold
  unfold Rounds at h
  unfold remaining Cancellation.step
  cases hs : s.pc with
  | publishStart =>
    rw [hs] at h
    have hnil : s.depths = [] := h
    simp [ThreadArgs.loop, hticks, hnil, Pc.rank]
  | timedFor i | timedCount i | timedDepth | timedAcquires | timedWhile =>
    rw [hs] at h
    exact absurd hticks h.1
  | countedWhile =>
    rw [hs] at h htold
    have hle := h.2 hn
    by_cases hgo : x.numAcquires = 0 ∨ s.lockAcquires < x.numAcquires
    · have hlt := (lockAcquires_lt_iff htold.1 hle).mp (hgo.resolve_left hn)
      simp only [if_pos hgo, List.length_append, List.length_singleton]
      omega
    · simp only [if_neg hgo]
      omega
  | popped => exact absurd hs hpc
  | countedCount | countedAcquires | countedDepth => simp
  | countedEnd => simp [Pc.stores]
  | _ => simp [Pc.rank, Pc.stores]

end Length

section Complete

lemma Armed.rounds (h : Armed s) (x : ThreadArgs) : Rounds x s := by
  unfold Rounds
  rw [h.pc]
  exact h.counts.2.2

lemma Armed.recorded (h : Armed s) (x : ThreadArgs) : Recorded x s := .of_stores (by rw [h.pc]; rfl)

/-- What every step keeps. -/
structure Sound (x : ThreadArgs) (s : Hmr) : Prop where
  fresh : Fresh s
  counted : Counted s
  rounds : Rounds x s
  recorded : Recorded x s

lemma Armed.sound (h : Armed s) (x : ThreadArgs) : Sound x s :=
  ⟨h.fresh, h.counted, h.rounds x, h.recorded x⟩

lemma Sound.step (h : Sound x s) (input : BitVec 64) : Sound x (step x s input) :=
  ⟨h.fresh.step x input, h.counted.step x input, h.rounds.step h.counted input, h.recorded.step input⟩

lemma Sound.run (h : Sound x s) (inputs : List (BitVec 64)) : Sound x (run x s inputs) := by
  induction inputs generalizing s with
  | nil => exact h
  | cons input inputs ih => exact ih (h.step input)

/-- A counted run that is long enough comes to its end. -/
lemma Sound.popped (h : Sound x s) (hticks : x.runLimitTicks = 0) (hn : x.numAcquires ≠ 0)
    {inputs : List (BitVec 64)} (hlen : remaining x s ≤ inputs.length) : (Cancellation.run x s inputs).pc = .popped := by
  induction inputs generalizing s with
  | nil =>
    by_contra hpc
    have hless := step_remaining h.rounds h.counted hticks hn hpc 0
    rw [List.length_nil] at hlen
    omega
  | cons input inputs ih =>
    refine ih (h.step input) ?_
    rw [List.length_cons] at hlen
    by_cases hpc : s.pc = .popped
    · have hstay : Cancellation.step x s input = s := by
        unfold Cancellation.step
        rw [hpc]
      rw [hstay]
      simp [remaining, hpc, Pc.stores]
    · have hless := step_remaining h.rounds h.counted hticks hn hpc input
      omega

/-- The record of a whole measurement. -/
structure Complete (x : ThreadArgs) (depths : List (BitVec 64)) (r : Report) : Prop where
  acquires : r.results.lockAcquires = BitVec.ofNat 64 depths.length
  depth : r.results.hmrdepth = depths.sum
  counted : x.runLimitTicks = 0 → depths.length = x.numAcquires.toNat
  timed : x.runLimitTicks ≠ 0 →
    (∃ passes, 1 ≤ passes ∧ depths.length = passes * x.runLimitInnerLoopIters.toNat) ∧
    x.runLimitTicks ≤ r.results.hwtimerEnd.value - r.results.hwtimerStart.value
  hwtimer : r.results.hwtimerStart.fresh = true ∧ r.results.hwtimerEnd.fresh = true
  times : r.results.cputimeNs.fresh = true ∧ r.results.walltimeNs.fresh = true
  calibrated : r.results.holdNs.fresh = true ∧ r.results.postNs.fresh = true
  startNs : x.thread = 0 → r.pStartNs.fresh = true

lemma Sound.complete (h : Sound x s) (hpc : s.pc = .popped) : Complete x s.depths ⟨s.results, s.pStartNs⟩ := by
  obtain ⟨⟨-, -, hhold, hpost, hmonot, hcputime, hticks, -⟩, ⟨htotal, htold⟩, hrounds, hrecorded⟩ := h
  obtain ⟨hmonotEnd, hcputimeEnd, hstart, hacquires, hcpu, hwall, hdepth, hfirst, hlast⟩ := hrecorded
  unfold Told at htold
  unfold Rounds at hrounds
  rw [hpc] at hhold hpost hmonot hcputime hticks htold hrounds
  rw [hpc] at hmonotEnd hcputimeEnd hstart hacquires hcpu hwall hdepth hfirst hlast
  have hend : s.ticksEnd.fresh = true := by
    by_cases h0 : x.runLimitTicks = 0
    · exact hrounds.1 h0
    · exact (hrounds.2.timed h0).2.1
  refine ⟨?_, ?_, fun h0 => (hrounds.2.counted h0).2, fun h0 => ⟨(hrounds.2.timed h0).1, ?_⟩, ⟨?_, ?_⟩, ⟨?_, ?_⟩,
    ⟨hhold, hpost⟩, fun h0 => ?_⟩
  · exact (hacquires (by decide)).trans htold.1
  · exact (hdepth (by decide)).trans htotal
  · change x.runLimitTicks ≤ s.results.hwtimerEnd.value - s.results.hwtimerStart.value
    rw [hlast (by decide), hfirst (by decide)]
    exact (hrounds.2.timed h0).2.2
  · change s.results.hwtimerStart.fresh = true
    rw [hfirst (by decide)]
    exact hticks
  · change s.results.hwtimerEnd.fresh = true
    rw [hlast (by decide)]
    exact hend
  · change s.results.cputimeNs.fresh = true
    simp [hcpu (by decide), Stamp.since, hcputimeEnd (by decide), hcputime, Pc.rank]
  · change s.results.walltimeNs.fresh = true
    simp [hwall (by decide), Stamp.since, hmonotEnd (by decide), hmonot, Pc.rank]
  · change s.pStartNs.fresh = true
    rw [hstart (by decide) h0]
    exact hmonot

/-- A thread that is not cancelled records the number of its acquires, the sum of their depths and
times of this measurement. In the counted loop the number is the one asked for, and the thread is
done after that many rounds. In the timed loop it is that of whole passes, and the time is up. -/
theorem hmr_records_measurement (h : Armed s) (x : ThreadArgs) (inputs : List (BitVec 64)) :
    ((run x s inputs).pc = .popped →
      Complete x (run x s inputs).depths ⟨(run x s inputs).results, (run x s inputs).pStartNs⟩) ∧
    (x.runLimitTicks = 0 → x.numAcquires ≠ 0 → 20 + 4 * x.numAcquires.toNat ≤ inputs.length →
      (run x s inputs).pc = .popped) := by
  refine ⟨fun hpc => ((h.sound x).run inputs).complete hpc, fun hticks hn hlen => ?_⟩
  refine (h.sound x).popped hticks hn (le_trans ?_ hlen)
  simp [remaining, h.pc, Pc.rank]

/-- Two acquires of depth 3 and 4 -/
def twoAcquires : List (BitVec 64) := [0, 0, 0, 0, 0, 0, 0, 0, 0, 3, 0, 0, 0, 4] ++ List.replicate 14 0

theorem hmr_records_measurement_two :
    (run ⟨1, 2, 0, 10⟩ firstThread twoAcquires).pc = .popped ∧
      (run ⟨1, 2, 0, 10⟩ firstThread twoAcquires).depths = [3, 4] ∧
      Complete ⟨1, 2, 0, 10⟩ [3, 4]
        ⟨(run ⟨1, 2, 0, 10⟩ firstThread twoAcquires).results, (run ⟨1, 2, 0, 10⟩ firstThread twoAcquires).pStartNs⟩ := by
  obtain ⟨hcomplete, hends⟩ := hmr_records_measurement firstThread_armed ⟨1, 2, 0, 10⟩ twoAcquires
  have hpc := hends rfl (by decide) (by decide)
  have hdepths : (run ⟨1, 2, 0, 10⟩ firstThread twoAcquires).depths = [3, 4] := by decide
  exact ⟨hpc, hdepths, hdepths ▸ hcomplete hpc⟩

end Complete

end Lockhammer.Cancellation
