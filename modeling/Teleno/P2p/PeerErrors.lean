import Mathlib.Logic.Function.Basic
import Mathlib.Algebra.Ring.Nat

/-! # Peer error scores

A peer's score decays when an error is recorded. The two readings answer from the stored score.
-/

namespace Teleno.P2p

/-- The decay of a score in some time. In the source it is exponential in whole seconds. -/
structure Decay where
  apply : UInt64 → ℕ → UInt64
  antitone : ∀ score {elapsed later : ℕ}, elapsed ≤ later → apply score later ≤ apply score elapsed
  vanishes : ∀ score threshold, 0 < threshold → ∃ elapsed, apply score elapsed < threshold

/-- Half a score is left after each unit of time. -/
def Decay.halving : Decay where
  apply score elapsed := UInt64.ofNat (score.toNat / 2 ^ elapsed)
  antitone score elapsed later longer := by
    have fits (n : ℕ) : (UInt64.ofNat (score.toNat / 2 ^ n)).toNat = score.toNat / 2 ^ n :=
      UInt64.toNat_ofNat_of_lt' (Nat.lt_of_le_of_lt (Nat.div_le_self _ _) score.toNat_lt)
    rw [UInt64.le_iff_toNat_le, fits, fits]
    exact Nat.div_le_div_left (Nat.pow_le_pow_right (by omega) longer) (Nat.two_pow_pos elapsed)
  vanishes score threshold positive := by
    refine ⟨64, ?_⟩
    rw [Nat.div_eq_of_lt score.toNat_lt]
    exact positive

/-- The options that the error handler reads. -/
structure ErrorOptions where
  decay : Decay
  errorScoreDisconnectThreshold : UInt64
  errorScoreReconnectThreshold : UInt64

structure ScoreRecord where
  score : UInt64
  lastUpdate : ℕ

/-- `PeerErrorHandler`: the records by peer address. -/
structure PeerErrorHandler where
  scores : String → Option ScoreRecord := fun _ => none

namespace PeerErrorHandler

variable (opts : ErrorOptions) (h : PeerErrorHandler) (peer : String)

/-- The answer is whether to disconnect the peer. -/
def recordError (score : UInt64) (now : ℕ) : Bool × PeerErrorHandler :=
  let record := (h.scores peer).getD ⟨0, now⟩
  let decayed := if record.score > 0 then opts.decay.apply record.score (now - record.lastUpdate) else record.score
  let record : ScoreRecord := ⟨decayed + score, now⟩
  (record.score ≥ opts.errorScoreDisconnectThreshold, ⟨Function.update h.scores peer (some record)⟩)

def canConnect : Bool :=
  match h.scores peer with
  | none => true
  | some record => record.score < opts.errorScoreReconnectThreshold

def getScore : UInt64 := ((h.scores peer).map ScoreRecord.score).getD 0

end PeerErrorHandler

inductive PeerCall where
  | recordError (peer : String) (score : UInt64)
  | canConnect (peer : String)
  | getScore (peer : String)

/-- Calls one after the other from an empty handler, each with the time since the one before; the result has the
time of the last one. -/
def runPeerCalls (opts : ErrorOptions) (calls : List (ℕ × PeerCall)) : PeerErrorHandler × ℕ :=
  calls.foldl (fun state call =>
    let now := state.2 + call.1
    match call.2 with
    | .recordError peer score => ((state.1.recordError opts peer score now).2, now)
    | _ => (state.1, now)) ({}, 0)

/-- From now on the readings of a peer are those of a handler that records an error of score 0 first. A peer without
new errors may connect at some time. -/
structure ReadsDecayed (opts : ErrorOptions) (h : PeerErrorHandler) (now : ℕ) (peer : String) : Prop where
  score : ∀ t ≥ now, h.getScore peer = (h.recordError opts peer 0 t).2.getScore peer
  connects : ∀ t ≥ now, h.canConnect opts peer = (h.recordError opts peer 0 t).2.canConnect opts peer
  recovers : 0 < opts.errorScoreReconnectThreshold → h.canConnect opts peer = true

/-- The stored score is zero. Without a record the peer may connect, as it might with one of score 0. -/
def NothingToDecay (opts : ErrorOptions) (h : PeerErrorHandler) (peer : String) : Prop :=
  match h.scores peer with
  | none => 0 < opts.errorScoreReconnectThreshold
  | some record => record.score = 0

section Readings

variable {opts : ErrorOptions} {h : PeerErrorHandler} {peer : String} {record : ScoreRecord}

theorem scores_recordError_zero (t : ℕ) : (h.recordError opts peer 0 t).2.scores peer =
    some ⟨((h.scores peer).map fun record => if record.score > 0 then
      opts.decay.apply record.score (t - record.lastUpdate) else record.score).getD 0, t⟩ := by
  dsimp only [PeerErrorHandler.recordError]
  rw [Function.update_self]
  cases h.scores peer <;> simp

/-- A positive score is lower after some time. -/
theorem exists_lower (positive : 0 < record.score) (now : ℕ) :
    ∃ t ≥ now, opts.decay.apply record.score (t - record.lastUpdate) < record.score := by
  obtain ⟨elapsed, lower⟩ := opts.decay.vanishes record.score record.score positive
  refine ⟨now + record.lastUpdate + elapsed, by omega, ?_⟩
  have longer : elapsed ≤ now + record.lastUpdate + elapsed - record.lastUpdate := by omega
  exact UInt64.lt_of_le_of_lt (opts.decay.antitone record.score longer) lower

theorem readsDecayed_iff (now : ℕ) : ReadsDecayed opts h now peer ↔ NothingToDecay opts h peer := by
  rw [NothingToDecay]
  cases stored : h.scores peer with
  | none =>
    constructor
    · intro reads
      have connects := reads.connects now le_rfl
      rw [PeerErrorHandler.canConnect, PeerErrorHandler.canConnect, scores_recordError_zero, stored] at connects
      exact of_decide_eq_true connects.symm
    · intro positive
      constructor
      · intro t _
        rw [PeerErrorHandler.getScore, PeerErrorHandler.getScore, scores_recordError_zero, stored]
        rfl
      · intro t _
        rw [PeerErrorHandler.canConnect, PeerErrorHandler.canConnect, scores_recordError_zero, stored]
        exact (decide_eq_true positive).symm
      · intro _
        rw [PeerErrorHandler.canConnect, stored]
  | some record =>
    dsimp only
    constructor
    · intro reads
      by_contra nonzero
      have positive : 0 < record.score := UInt64.pos_iff_ne_zero.mpr nonzero
      obtain ⟨t, later, lower⟩ := exists_lower positive now
      have same := reads.score t later
      rw [PeerErrorHandler.getScore, PeerErrorHandler.getScore, scores_recordError_zero, stored] at same
      simp only [Option.map_some, Option.getD_some, if_pos positive] at same
      rw [← same] at lower
      exact UInt64.lt_irrefl _ lower
    · intro zero
      have kept (t : ℕ) : (h.recordError opts peer 0 t).2.scores peer = some ⟨0, t⟩ := by
        rw [scores_recordError_zero, stored]
        simp [zero]
      constructor
      · intro t _
        rw [PeerErrorHandler.getScore, PeerErrorHandler.getScore, kept, stored]
        exact zero
      · intro t _
        simp [PeerErrorHandler.canConnect, kept, stored, zero]
      · intro positive
        simp only [PeerErrorHandler.canConnect, stored, zero]
        exact decide_eq_true positive

end Readings

/-- After any calls, the readings of a peer decay exactly if there is nothing to decay. -/
theorem readings_decay_iff (opts : ErrorOptions) (calls : List (ℕ × PeerCall)) (peer : String) :
    ReadsDecayed opts (runPeerCalls opts calls).1 (runPeerCalls opts calls).2 peer ↔
      NothingToDecay opts (runPeerCalls opts calls).1 peer :=
  readsDecayed_iff _

/-- A single error of score 8 blocks the peer for good. -/
theorem readings_keep_score :
    ¬ ReadsDecayed ⟨.halving, 100, 5⟩ (runPeerCalls ⟨.halving, 100, 5⟩ [(0, .recordError "peer" 8)]).1
      (runPeerCalls ⟨.halving, 100, 5⟩ [(0, .recordError "peer" 8)]).2 "peer" := by
  intro reads
  exact absurd (reads.recovers (by decide)) (by decide)

end Teleno.P2p
