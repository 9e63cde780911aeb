import OslabProfiler.Lib.Command

/-! # Loops that ask a command

`while (body());` runs a command until it answers `false`, or until it stops. The loop itself
is run for a number of rounds; a run of it that comes to an end is described without that
number. Such a run is unique, and there is one from every state if something gets smaller in
every round after which the loop goes on.
-/

namespace Lib.Command

variable {σ ε : Type}

/-- At most `n` rounds of the loop; `false` if it goes on after them. -/
def loop (body : Command σ ε Bool) : Nat → Command σ ε Bool
  | 0 => pure false
  | n + 1 => do if ← body then loop body n else pure true

/-- The loop comes to an end in `t`: it ends, or it stops for a reason. -/
inductive LoopRuns (body : Command σ ε Bool) : σ → Except ε Unit → σ → Prop where
  | ended {s t : σ} : Ends body s false t → LoopRuns body s (.ok ()) t
  | stopped {s t : σ} {e : ε} : body s = (.error e, t) → LoopRuns body s (.error e) t
  | again {s t u : σ} {r : Except ε Unit} :
      Ends body s true t → LoopRuns body t r u → LoopRuns body s r u

variable {body : Command σ ε Bool} {s t u : σ} {r r' : Except ε Unit} {e : ε}

theorem loop_succ_of_ends {a : Bool} (run : Ends body s a t) (n : Nat) :
    loop body (n + 1) s = if a then loop body n t else (.ok true, t) := by
  simp only [loop, bind, show body s = (.ok a, t) from run]
  cases a <;> rfl

theorem loop_succ_of_stops (run : body s = (.error e, t)) (n : Nat) :
    loop body (n + 1) s = (.error e, t) := by
  simp only [loop, bind, run]

/-- A run is what the loop does in enough rounds. -/
theorem loopRuns_iff :
    LoopRuns body s r t ↔ ∃ n, loop body n s = (r.map fun _ => true, t) := by
  constructor
  · intro run
    induction run with
    | ended last => exact ⟨1, loop_succ_of_ends last 0⟩
    | stopped halt => exact ⟨1, loop_succ_of_stops halt 0⟩
    | again next _ ih =>
        obtain ⟨n, rest⟩ := ih
        exact ⟨n + 1, (loop_succ_of_ends next n).trans rest⟩
  · rintro ⟨n, run⟩
    induction n generalizing s with
    | zero => cases r <;> cases run
    | succ n ih =>
        cases round : body s with
        | mk result next =>
            cases result with
            | error e =>
                rw [loop_succ_of_stops round] at run
                cases r with
                | error e' =>
                    cases run
                    exact .stopped round
                | ok _ => cases run
            | ok goOn =>
                rw [loop_succ_of_ends round] at run
                cases goOn with
                | true => exact .again round (ih run)
                | false =>
                    cases r with
                    | error e' => cases run
                    | ok _ =>
                        cases run
                        exact .ended round

theorem loopRuns_again (run : Ends body s true t) : LoopRuns body s r u ↔ LoopRuns body t r u := by
  constructor
  · intro whole
    cases whole with
    | ended last => rw [Ends, show body s = _ from run] at last; cases last
    | stopped halt => rw [show body s = _ from run] at halt; cases halt
    | again next rest =>
        rw [Ends, show body s = _ from run] at next
        cases next
        exact rest
  · exact .again run

theorem loopRuns_ended (run : Ends body s false t) :
    LoopRuns body s r u ↔ r = .ok () ∧ u = t := by
  constructor
  · intro whole
    cases whole with
    | ended last => rw [Ends, show body s = _ from run] at last; cases last; exact ⟨rfl, rfl⟩
    | stopped halt => rw [show body s = _ from run] at halt; cases halt
    | again next rest => rw [Ends, show body s = _ from run] at next; cases next
  · rintro ⟨rfl, rfl⟩
    exact .ended run

theorem loopRuns_stopped (run : body s = (.error e, t)) :
    LoopRuns body s r u ↔ r = .error e ∧ u = t := by
  constructor
  · intro whole
    cases whole with
    | ended last => rw [Ends, run] at last; cases last
    | stopped halt => rw [run] at halt; cases halt; exact ⟨rfl, rfl⟩
    | again next rest => rw [Ends, run] at next; cases next
  · rintro ⟨rfl, rfl⟩
    exact .stopped run

theorem LoopRuns.unique (first : LoopRuns body s r t) (second : LoopRuns body s r' u) :
    r = r' ∧ t = u := by
  induction first with
  | ended last =>
      obtain ⟨rfl, rfl⟩ := (loopRuns_ended last).mp second
      exact ⟨rfl, rfl⟩
  | stopped halt =>
      obtain ⟨rfl, rfl⟩ := (loopRuns_stopped halt).mp second
      exact ⟨rfl, rfl⟩
  | again next _ ih => exact ih ((loopRuns_again next).mp second)

/-- A loop comes to an end if every round after which it goes on makes something smaller. -/
theorem LoopRuns.total (size : σ → Nat)
    (smaller : ∀ s t, Ends body s true t → size t < size s) (s : σ) :
    ∃ r t, LoopRuns body s r t := by
  induction bound : size s using Nat.strong_induction_on generalizing s with
  | _ n ih =>
      cases round : body s with
      | mk result next =>
          cases result with
          | error e => exact ⟨_, next, .stopped round⟩
          | ok goOn =>
              cases goOn with
              | false => exact ⟨_, next, .ended round⟩
              | true =>
                  obtain ⟨r, t, rest⟩ := ih _ (bound ▸ smaller s next round) next rfl
                  exact ⟨r, t, .again round rest⟩

end Lib.Command
