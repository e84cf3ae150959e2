import Lockhammer.Measure.StartHandshake
import Lockhammer.Interleaving.Fairness

/-!
# The start handshake of hmr under a fair schedule

A step is work on the way to `calibrate_timer`, or it is a poll that fails. There is always a
worker that is not at such a poll, so all of them get there.
-/
namespace Lockhammer.StartHandshake
open Interleaving

/-- The steps of a worker to its `calibrate_timer`. -/
def Pc.toCalibration : Pc → ℕ
  | .entry => 5
  | .setCpuAffinity => 4
  | .waitReady => 3
  | .setLsb | .addReady => 2
  | .checkSync _ | .waitSync => 1
  | .unexpected | .calibrateTimer => 0

/-- A worker that is neither at a failing poll nor at an end. -/
def Pc.Works (numThreads : Word) (l : Locks) (p : Pc) : Prop :=
  ¬ p.FailingPoll numThreads l ∧ p ≠ .unexpected ∧ p ≠ .calibrateTimer

variable {ddebug b : Bool} {n : ℕ} {c : Config (Fin n) Locks Pc}

lemma fire_toCalibration {t : Fin n} (h : (c.loc t).Works (BitVec.ofNat 64 n) c.shared) :
    (((machine ddebug n).fire t () c).loc t).toCalibration < (c.loc t).toCalibration := by
  rw [Machine.fire_loc_self]
  change (step ddebug (BitVec.ofNat 64 n) t c.shared (c.loc t)).2.toCalibration < _
  obtain ⟨hpoll, hbad, hend⟩ := h
  cases hpc : c.loc t with
  | entry => simp [step, Pc.toCalibration]
  | setCpuAffinity =>
    simp only [step]
    split <;> simp [Pc.toCalibration]
  | waitReady =>
    rw [hpc] at hpoll
    simp [step, not_not.mp hpoll, Pc.toCalibration]
  | setLsb => simp [step, Pc.toCalibration]
  | checkSync value =>
    simp only [step]
    split <;> simp [Pc.toCalibration]
  | unexpected => exact absurd hpc hbad
  | addReady => simp [step, Pc.toCalibration]
  | waitSync =>
    rw [hpc] at hpoll
    simp [step, not_not.mp hpoll, Pc.toCalibration]
  | calibrateTimer => exact absurd hpc hend

/-- All others change nothing. -/
lemma fire_same {t : Fin n} (h : ¬ (c.loc t).Works (BitVec.ofNat 64 n) c.shared) :
    (machine ddebug n).fire t () c = c := by
  have hs : (machine ddebug n).step t () c.shared (c.loc t) = (c.shared, c.loc t) := by
    change step ddebug (BitVec.ofNat 64 n) t c.shared (c.loc t) = _
    cases hpc : c.loc t with
    | waitReady =>
      rw [hpc] at h
      have hw : c.shared.readyLock ≠ BitVec.ofNat 64 n - 1 := by
        rintro hw
        exact h ⟨not_not_intro hw, by simp, by simp⟩
      simp only [step, if_neg hw]
    | waitSync =>
      rw [hpc] at h
      have hw : c.shared.syncLock ≠ BitVec.ofNat 64 n * 2 ||| 1 := by
        rintro hw
        exact h ⟨not_not_intro hw, by simp, by simp⟩
      simp only [step, if_neg hw]
    | unexpected => rfl
    | calibrateTimer => rfl
    | _ =>
      rw [hpc] at h
      exact absurd ⟨not_false, by simp, by simp⟩ h
  rw [(machine ddebug n).fire_eq hs, Function.update_eq_self]

/-- Until all have come to their `calibrate_timer`, somebody works. -/
lemma Inv.works (h : Inv b c) (h1 : 1 ≤ n) (hsome : ∃ t, c.loc t ≠ .calibrateTimer) :
    ∃ t, (c.loc t).Works (BitVec.ofNat 64 n) c.shared := by
  have hbad (u : Fin n) : c.loc u ≠ .unexpected := by
    intro hu
    have hp := h.placed u
    rw [hu] at hp
    exact hp
  cases b with
  | false =>
    obtain ⟨t, ht, hpoll⟩ := h.not_stuck h1
    refine ⟨t, hpoll, hbad t, ?_⟩
    rintro hend
    rw [hend] at ht
    cases ht
  | true =>
    obtain ⟨t, ht⟩ := hsome
    refine ⟨t, ?_, hbad t, ht⟩
    have hp := h.placed t
    have hzero := h.pinned ⟨0, h1⟩
    have hword : c.shared.syncLock = BitVec.ofNat 64 n * 2 ||| 1 := by
      rw [mul_two_or_one]
      refine h.sync_of_full (Or.inr rfl) (t := ⟨0, h1⟩) rfl ?_
      revert hzero
      cases c.loc ⟨0, h1⟩ <;> simp [Pc.pinned, Pc.arrived]
    revert hp
    cases c.loc t <;> simp [Placed, Pc.FailingPoll]
    exact fun _ => hword

/-- Under a fair schedule the handshake ends: from some time on all `n` workers have come to
their `calibrate_timer`. -/
theorem hmr_handshake_ends {schedule : ℕ → Fin n × Unit} (h1 : 1 ≤ n) (hn : n < 2^64)
    (hfair : Fair schedule) : ∃ k, ∀ l, k ≤ l → ∀ t,
      ((machine ddebug n).states (start n) schedule l).loc t = .calibrateTimer := by
  -- the last one comes
  obtain ⟨k, -, hk⟩ : ∃ k, 0 ≤ k ∧ ∀ t, ((machine ddebug n).states (start n) schedule k).loc t = .calibrateTimer := by
    by_cases hdone : ∀ t, ((machine ddebug n).states (start n) schedule 0).loc t = .calibrateTimer
    · exact ⟨0, le_rfl, hdone⟩
    refine Machine.eventually_of_work (G := fun c => ∀ t, c.loc t = .calibrateTimer) (w := Pc.toCalibration)
      (I := fun c => (∃ b, Inv b c) ∧ ∃ t, c.loc t ≠ .calibrateTimer) ?_ ?_ hfair
      ⟨⟨false, start_inv n⟩, not_forall.mp hdone⟩
    · rintro c j k ⟨⟨b, hi⟩, -⟩
      by_cases hall : ∀ t, ((machine ddebug n).fire j () c).loc t = .calibrateTimer
      · exact Or.inl hall
      refine Or.inr ⟨⟨step_inv h1 hn hi j, not_forall.mp hall⟩, ?_⟩
      by_cases hworks : (c.loc j).Works (BitVec.ofNat 64 n) c.shared
      · exact Or.inl (fire_toCalibration hworks)
      · exact Or.inr (fire_same hworks)
    · rintro c ⟨⟨b, hi⟩, hsome⟩
      obtain ⟨t, ht⟩ := hi.works h1 hsome
      exact ⟨t, fun _ => Or.inr (fire_toCalibration ht)⟩
  -- and stay there
  refine ⟨k, fun l hl => ?_⟩
  induction l, hl using Nat.le_induction with
  | base => exact hk
  | succ l _ ih =>
    have hsame : (machine ddebug n).states (start n) schedule (l + 1) =
        (machine ddebug n).states (start n) schedule l :=
      fire_same fun hworks => hworks.2.2 (ih _)
    rw [hsame]
    exact ih

/-- Two workers in turn. -/
theorem hmr_handshake_ends_two : ∃ k, ∀ l, k ≤ l → ∀ t,
    ((machine true 2).states (start 2) (fun m => (Fin.ofNat 2 m, ())) l).loc t = .calibrateTimer :=
  hmr_handshake_ends (by decide) (by decide) (fair_roundRobin 1 ())

end Lockhammer.StartHandshake
