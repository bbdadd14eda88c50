import Transportation.Proofs.Schedules
/-!
# Racers one after another

A race in which each racer ends before the next one starts is a race under one of the schedules.
-/
namespace Transportation

namespace Racer

def walk (r : Racer) (flag : Bool) : Nat → Racer × Bool
  | 0 => (r, flag)
  | n + 1 => walk (r.move flag).1 (r.move flag).2 n

section Walk

open Solver SolverM

variable {p : Problem} {settings : SolverSettings} {s s' : Solver} {flag : Bool} {turns : Nat}
  {solution : Solution}

private theorem leave_of_finish {status : Ending} {won : Bool}
    (h : s.finish status = .ok solution) : leave s status won = .done (.ok ⟨solution, won⟩) := by
  rw [leave, h]
  rfl

private theorem walk_of_run {status : Ending} (hrun : run flag turns s = .ok (some status) s')
    (hfinish : s'.finish status = .ok solution) : ∃ n, (ready s).walk flag n =
      (.done (.ok ⟨solution, solution.isOptimal && !flag⟩),
        flag || (solution.isOptimal && !flag)) := by
  have hstatus := status_of_finish hfinish
  induction turns generalizing s with
  | zero => cases hrun
  | succ turns ih =>
      rw [run] at hrun
      obtain ⟨ending, t, hturn, hrest⟩ := eq_ok_of_bind hrun
      cases flag with
      | true =>
          rw [turn_true] at hturn
          cases hturn
          cases hrest
          refine ⟨1, ?_⟩
          change (leave s' .cancelled false, true) = _
          rw [leave_of_finish hfinish, Solution.isOptimal, hstatus]
          rfl
      | false =>
          have hready : ∀ n, (ready s).walk false (n + 2) =
              (ofTurn (turn false s)).walk false n := fun _ => rfl
          rw [hturn] at hready
          cases ending with
          | none =>
              obtain ⟨n, hn⟩ := ih hrest
              exact ⟨n + 2, (hready n).trans hn⟩
          | some ending =>
              cases hrest
              cases status with
              | optimal =>
                  refine ⟨3, (hready 1).trans ?_⟩
                  change (leave s' .optimal true, true) = _
                  rw [leave_of_finish hfinish, Solution.isOptimal, hstatus]
                  rfl
              | cancelled =>
                  refine ⟨2, (hready 0).trans ?_⟩
                  change (leave s' .cancelled false, false) = _
                  rw [leave_of_finish hfinish, Solution.isOptimal, hstatus]
                  rfl
              | limitReached =>
                  refine ⟨2, (hready 0).trans ?_⟩
                  change (leave s' .limitReached false, false) = _
                  rw [leave_of_finish hfinish, Solution.isOptimal, hstatus]
                  rfl

theorem walk_of_solve (h : solve p settings flag turns = .ok (some solution)) :
    ∃ n, (start p settings).walk flag n =
      (.done (.ok ⟨solution, solution.isOptimal && !flag⟩),
        flag || (solution.isOptimal && !flag)) := by
  obtain ⟨s, status, s', hs, hrun, hfinish⟩ := solve_eq_ok_iff.mp h
  rw [Racer.start, hs]
  exact walk_of_run hrun hfinish

end Walk

end Racer

namespace RaceState

theorem play_replicate {st : RaceState} {k : Nat} {r : Racer} (hr : st.Has k r) (n : Nat) :
    st.play (List.replicate n (.racer k)) =
      ⟨(r.walk st.flag n).2, st.racers.set k (r.walk st.flag n).1⟩ := by
  induction n generalizing st r with
  | zero =>
      obtain ⟨hlt, rfl⟩ := List.getElem?_eq_some_iff.mp hr
      change st = ⟨st.flag, st.racers.set k st.racers[k]⟩
      rw [List.set_getElem_self]
  | succ n ih =>
      have hrest := ih (has_moved hr)
      rw [List.replicate_succ, play, List.foldl_cons]
      refine hrest.trans ?_
      rw [move_racer hr, List.set_set]
      rfl

end RaceState

namespace Race

variable {p : Problem} {settings : RaceSettings} {turns : Nat}

private theorem play_runInTurn {corners : List Corner} {flag flag' : Bool} {finishes : List Finish}
    (h : runInTurn p settings turns corners flag = .ok (some (finishes, flag')))
    (before : List Racer) :
    ∃ moves, RaceMove.outside ∉ moves ∧
      RaceState.play ⟨flag, before ++ corners.map fun c => .start p (settings.racer c)⟩ moves =
        ⟨flag', before ++ finishes.map fun f => .done (.ok f)⟩ := by
  induction corners generalizing flag finishes before with
  | nil =>
      cases h
      exact ⟨[], by simp, rfl⟩
  | cons corner rest ih =>
      obtain ⟨result, hsolve, h⟩ := bind_eq_ok_iff.mp h
      cases result with
      | none => cases h
      | some solution =>
          obtain ⟨result, hrest, h⟩ := bind_eq_ok_iff.mp h
          cases result with
          | none => cases h
          | some result =>
              cases h
              obtain ⟨n, hwalk⟩ := Racer.walk_of_solve hsolve
              have hhas : RaceState.Has ⟨flag, before ++ (corner :: rest).map fun c =>
                  .start p (settings.racer c)⟩ before.length
                  (.start p (settings.racer corner)) := by
                rw [RaceState.Has, List.getElem?_append_right le_rfl]
                simp
              have hfirst := RaceState.play_replicate hhas n
              dsimp only at hfirst
              rw [hwalk, List.set_append_right _ _ le_rfl, Nat.sub_self, List.map_cons,
                List.set_cons_zero] at hfirst
              let f : Finish := ⟨solution, solution.isOptimal && !flag⟩
              obtain ⟨moves, houtside, hplay⟩ := ih hrest (before ++ [.done (.ok f)])
              refine ⟨List.replicate n (.racer before.length) ++ moves, ?_, ?_⟩
              · rw [List.mem_append, not_or]
                refine ⟨fun hmem => ?_, houtside⟩
                cases List.eq_of_mem_replicate hmem
              · rw [List.append_assoc, List.append_assoc] at hplay
                rw [RaceState.play, List.foldl_append]
                exact (congrArg (fun st => st.play moves) hfirst).trans hplay

/-- A race in turn is a race under a schedule, without a move from outside. -/
theorem runInTurn_scheduled {flag flag' : Bool} {finishes : List Finish}
    (h : runInTurn p settings turns settings.corners flag = .ok (some (finishes, flag'))) :
    ∃ moves, RaceMove.outside ∉ moves ∧
      ((RaceState.start p settings flag).play moves).finishes? = some finishes ∧
      ((RaceState.start p settings flag).play moves).flag = flag' := by
  obtain ⟨moves, houtside, hplay⟩ := play_runInTurn h []
  have hend : (RaceState.start p settings flag).play moves =
      ⟨flag', finishes.map fun f => .done (.ok f)⟩ := hplay
  refine ⟨moves, houtside, ?_, ?_⟩
  · rw [RaceState.finishes?_eq_some_iff, hend]
  · rw [hend]

end Race

end Transportation
