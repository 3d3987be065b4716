import Signoff.Evaluation
import Signoff.Proofs.Roster.Forecast
import Signoff.Proofs.Roster.Table

/-!
# What comes of a resolution

A resolution foretells all that it does from its first state on, and there
nothing is in flight, so the forecast is the schedule of all teams. What is left
of it is what the schedule allows before the cut: a team has its own answer if
the schedule is done with it before the cut, the directory is asked about it if
the schedule begins it before the cut, and the resolution ends with the schedule
or at the cut, whichever is first.

Without a deadline and a cancellation the cut never comes, so the schedule is
what the unlimited resolution does (`entries_resolve_of_unbounded`).
-/

namespace Signoff

namespace Resolution

open Roster (Status)

variable {b : Bounds} {directory : Directory} {teams : List String}

theorem orderly_initial
    (hquiet : ∀ team ∈ teams, (directory team).cancels = false) :
    (State.initial b teams).Orderly b directory := by
  refine ⟨?_, zero_le, ?_, Nat.zero_le _, ?_, ?_⟩
  · rw [State.Synced, State.initial]
    cases b.cancelAt? with
    | none => rfl
    | some t =>
        rw [Bool.eq_iff_iff]
        simp
  · intro f hf
    cases hf
  · intro f hf
    cases hf
  · intro team hteam
    exact hquiet team (mem_ascending.1 hteam)

theorem forecast_initial (b : Bounds) (directory : Directory)
    (teams : List String) :
    (State.initial b teams).forecast b directory =
      Schedule.ofTeams b.slots directory teams := rfl

/-- The last state comes of the first, and nothing is left to do in it. -/
theorem final_keeps
    (hquiet : ∀ team ∈ teams, (directory team).cancels = false) :
    (final b directory teams).Orderly b directory ∧
      State.Agrees b directory (State.initial b teams)
        (final b directory teams) ∧
      (final b directory teams).inFlight = [] ∧
      (final b directory teams).waiting = [] := by
  obtain ⟨hfill, hbegin⟩ :=
    State.fill_keeps (orderly_initial hquiet) fun _ => rfl
  obtain ⟨hend, hrun, hover⟩ := State.run_keeps hfill (State.full_startAll _)
  exact ⟨hend, hbegin.trans hrun, hover⟩

theorem settled_final
    (hquiet : ∀ team ∈ teams, (directory team).cancels = false) :
    (final b directory teams).settled.Perm
      ((Schedule.ofTeams b.slots directory teams).map fun k =>
        (k.team, b.status k.finish (directory k.team))) := by
  obtain ⟨_, hagrees, hidle, hnone⟩ := final_keeps (b := b) hquiet
  have houtcome := hagrees.outcome.symm
  rw [State.outcome, State.outcome, forecast_initial, State.forecast, hidle,
    hnone, Schedule.book] at houtcome
  simpa [State.initial] using houtcome

theorem begun_final
    (hquiet : ∀ team ∈ teams, (directory team).cancels = false) :
    (final b directory teams).begun =
      ((Schedule.ofTeams b.slots directory teams).filter
        fun k => k.start < b.cut).map fun k => (k.team, k.start) := by
  obtain ⟨_, hagrees, _, hnone⟩ := final_keeps (b := b) hquiet
  have hquestions := hagrees.questions.symm
  rw [State.questions, State.questions, forecast_initial, State.forecast,
    hnone, Schedule.book] at hquestions
  simpa [State.initial] using hquestions

theorem now_final
    (hquiet : ∀ team ∈ teams, (directory team).cancels = false) :
    (final b directory teams).now =
      min b.cut
        (Schedule.makespan (Schedule.ofTeams b.slots directory teams)) := by
  obtain ⟨hend, hagrees, hidle, hnone⟩ := final_keeps (b := b) hquiet
  have hover : ∀ time : Nat, time < b.cut →
      (Schedule.makespan (Schedule.ofTeams b.slots directory teams) ≤ time ↔
        (final b directory teams).now ≤ time) := by
    intro time hlt
    have hiff := hagrees.overBy time hlt
    rw [State.OverBy, State.OverBy, forecast_initial, State.forecast, hidle,
      hnone, Schedule.book] at hiff
    rw [Schedule.makespan_le_iff]
    simpa [State.initial] using hiff
  apply le_antisymm
  · refine le_min hend.now_le_cut ?_
    rcases lt_or_ge
      (Schedule.makespan (Schedule.ofTeams b.slots directory teams) : ℕ∞)
      b.cut with hlt | hge
    · exact Nat.cast_le.2 ((hover _ hlt).1 (Nat.le_refl _))
    · exact hend.now_le_cut.trans hge
  · rcases lt_or_eq_of_le hend.now_le_cut with hlt | heq
    · have hspan := (hover _ hlt).2 (Nat.le_refl _)
      exact (min_le_right _ _).trans (Nat.cast_le.2 hspan)
    · rw [heq]
      exact min_le_left _ _

theorem entries_resolve
    (hquiet : ∀ team ∈ teams, (directory team).cancels = false) :
    (resolve b directory teams).table.entries =
      (Schedule.ofTeams b.slots directory teams).map fun k =>
        (k.team, b.status k.finish (directory k.team)) := by
  refine RosterTable.entries_ofList (settled_final hquiet) ?_
  have hascending := isAscending_ascending teams
  rw [← Schedule.map_team_ofTeams b.slots directory, IsAscending,
    List.pairwise_map] at hascending
  exact List.pairwise_map.2 hascending

/-- What nothing cuts short tells what the directory says about each team, when
and in however many slots it is asked. -/
theorem entries_resolve_of_unbounded
    (hquiet : ∀ team ∈ teams, (directory team).cancels = false)
    (hdeadline : b.deadline? = none) (hcancel : b.cancelAt? = none) :
    (resolve b directory teams).table.entries =
      (ascending teams).map fun team =>
        (team, .ofAnswer (directory team).answer) := by
  have hcut : b.cut = ⊤ := by
    rw [Bounds.cut_eq_min, hdeadline, hcancel]
    exact min_self ⊤
  have hanswered : ∀ k : Booking, (k.finish : ℕ∞) < b.cut := by
    intro k
    rw [hcut]
    exact ENat.natCast_lt_top k.finish
  rw [entries_resolve hquiet, ← Schedule.map_team_ofTeams b.slots directory,
    List.map_map]
  refine List.map_congr_left fun k _ => ?_
  rw [Bounds.status_of_lt (hanswered k)]
  rfl

theorem Bounds.ofLimits_eq_ok [Clock] {limits : Limits} {c : Option Nat}
    (hclock : ∀ span ∈ limits.timeout?, Clock.Reaches span) :
    Bounds.ofLimits limits c =
      .ok ⟨limits.slots, Nat.le_max_right _ _,
        limits.timeout?.map Span.milliseconds, c⟩ := by
  have hdeadline :
      limits.deadline? = .ok (limits.timeout?.map Span.milliseconds) := by
    rw [Limits.deadline?]
    cases htimeout : limits.timeout? with
    | none => rfl
    | some span => exact if_pos (hclock span htimeout)
  rw [Bounds.ofLimits, hdeadline]
  rfl

end Resolution

namespace Directory

open Resolution (instant)

theorem lookUp_eq_ok [Clock] {limits : Limits}
    (hclock : ∀ span ∈ limits.timeout?, Clock.Reaches span)
    (directory : Directory) (cancelAt? : Option Nat) (teams : List String) :
    lookUp (some directory) limits cancelAt? teams =
      .ok (some (Resolution.resolve ⟨limits.slots, Nat.le_max_right _ _,
        limits.timeout?.map Span.milliseconds, cancelAt?⟩ directory
          teams)) := by
  rw [lookUp, Resolution.Bounds.ofLimits_eq_ok hclock]
  rfl

/-- A look-up follows the schedule up to the cut, settles all other teams there
for the reason that comes first, and ends. -/
theorem lookUp_eq_schedule_until_cut [Clock] {directory : Directory}
    {limits : Limits} {cancelAt? : Option Nat} {teams : List String}
    (hquiet : ∀ team ∈ teams, (directory team).cancels = false)
    (hclock : ∀ span ∈ limits.timeout?, Clock.Reaches span) :
    let schedule := Schedule.ofTeams limits.slots directory teams
    let cancellation := instant cancelAt?
    let deadline := instant (limits.timeout?.map Span.milliseconds)
    let cut := min cancellation deadline
    ∃ r, lookUp (some directory) limits cancelAt? teams = .ok (some r) ∧
      schedule.map Booking.team = ascending teams ∧
      r.table.entries = (schedule.map fun k =>
        (k.team, if k.finish < cut then .ofAnswer (directory k.team).answer
          else .unknown (if cancellation ≤ deadline then .cancelled
            else .deadlineExceeded))) ∧
      r.begun = ((schedule.filter fun k => k.start < cut).map fun k =>
        (k.team, k.start)) ∧
      r.elapsed = min cut (Schedule.makespan schedule) := by
  intro schedule cancellation deadline cut
  let b : Resolution.Bounds := ⟨limits.slots, Nat.le_max_right _ _,
    limits.timeout?.map Span.milliseconds, cancelAt?⟩
  have hcut : b.cut = cut := b.cut_eq_min
  refine ⟨Resolution.resolve b directory teams, ?_,
    Schedule.map_team_ofTeams _ _ _, ?_, ?_, ?_⟩
  · rw [lookUp, Resolution.Bounds.ofLimits_eq_ok hclock]
    rfl
  · rw [← hcut]
    exact Resolution.entries_resolve hquiet
  · rw [← hcut]
    exact Resolution.begun_final hquiet
  · rw [← hcut]
    exact Resolution.now_final hquiet

/-- With one slot, five milliseconds for each reply and a deadline after 7.5,
the first of two teams is answered for, and the second is given up halfway. -/
theorem lookUp_one_slot :
    let slow : Directory := fun team => .after 5 (.ok ⟨team, ["ann"]⟩) false
    let limits : Limits := ⟨0, some ⟨0, 7500000⟩⟩
    (∀ team ∈ ["web", "core"], (slow team).cancels = false) ∧
      (∀ span ∈ limits.timeout?, Clock.Reaches span) ∧
      ∃ r, lookUp (some slow) limits none ["web", "core"] = .ok (some r) ∧
        r.table.entries =
          [("core", .known ["ann"]), ("web", .unknown .deadlineExceeded)] ∧
        r.begun = [("core", 0), ("web", 5)] ∧ r.elapsed = 8 := by
  intro slow limits
  have hquiet : ∀ team ∈ ["web", "core"], (slow team).cancels = false :=
    fun _ _ => rfl
  have hclock : ∀ span ∈ limits.timeout?, Clock.Reaches span := by
    decide
  obtain ⟨r, hr, _, hentries, hbegun, helapsed⟩ :=
    @lookUp_eq_schedule_until_cut _ slow limits none _ hquiet hclock
  have hschedule : Schedule.ofTeams limits.slots slow ["web", "core"] =
      [⟨"core", 0, 5⟩, ⟨"web", 5, 10⟩] := by
    decide
  rw [hschedule] at hentries hbegun helapsed
  refine ⟨hquiet, hclock, r, hr, ?_, ?_, ?_⟩
  · rw [hentries]
    decide
  · rw [hbegun]
    decide
  · have hlast : (r.elapsed : ℕ∞) = (8 : ℕ) := by
      rw [helapsed]
      decide
    exact Nat.cast_inj.1 hlast

end Directory

end Signoff
