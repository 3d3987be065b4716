import Signoff.Json.Records
import Signoff.Proofs.Roster.Moments
import Signoff.Proofs.Roster.Resolution

/-!
# Every team gets a status

Whatever a directory replies, how long it takes and whether it calls off the
resolution, a resolution ends with nothing in flight and nobody waiting. All
teams are accounted for then by their statuses, so these are the statuses of all
teams, once each (`teams_resolve`).

So a look-up has a result whenever it can begin. The one thing in the way is a
timeout that takes the deadline out of reach of the clock: such limits are read
like any others, and with them a look-up fails before any team is asked about
(`lookUp_ok_iff`).
-/

namespace Signoff

namespace Resolution

variable {b : Bounds} {directory : Directory} {teams : List String}

theorem State.advance_run (b : Bounds) (directory : Directory) (s : State) :
    (s.run b directory).advance b directory = none := by
  fun_induction run with
  | case1 s hend => exact hend
  | case2 s later hstep ih => exact ih

theorem inFlight_final (b : Bounds) (directory : Directory)
    (teams : List String) : (final b directory teams).inFlight = [] :=
  State.inFlight_of_advance (State.advance_run b directory _)

theorem waiting_final (b : Bounds) (directory : Directory)
    (teams : List String) : (final b directory teams).waiting = [] := by
  rcases (State.rests_final b directory teams).full with hnone | hbusy
  · exact hnone
  · rw [inFlight_final] at hbusy
    exact absurd b.slots_pos (Nat.not_lt.2 hbusy)

theorem settled_final_perm (b : Bounds) (directory : Directory)
    (teams : List String) :
    ((final b directory teams).settled.map Prod.fst).Perm
      (ascending teams) := by
  have hperm := (State.rests_final b directory teams).moment.accounted.perm
  simpa [State.taken, inFlight_final, waiting_final] using hperm

/-- The table has the statuses of the last state, which are of distinct teams.
-/
theorem entries_resolve_perm (b : Bounds) (directory : Directory)
    (teams : List String) :
    (resolve b directory teams).table.entries.Perm
      (final b directory teams).settled := by
  refine RosterTable.perm_entries_ofList ?_
  rw [(settled_final_perm b directory teams).nodup_iff]
  exact nodup_of_isAscending (isAscending_ascending teams)

theorem teams_resolve (b : Bounds) (directory : Directory)
    (teams : List String) :
    (resolve b directory teams).table.teams = ascending teams := by
  refine eq_of_ascending (RosterTable.isAscending_teams _)
    (isAscending_ascending teams) fun team => ?_
  rw [RosterTable.teams,
    ((entries_resolve_perm b directory teams).map Prod.fst).mem_iff,
    (settled_final_perm b directory teams).mem_iff]

theorem Bounds.ofLimits_eq_error [Clock] {limits : Limits} {c : Option Nat}
    {span : Span} (htimeout : limits.timeout? = some span)
    (hclock : ¬ Clock.Reaches span) :
    Bounds.ofLimits limits c = .error .deadlineOverflow := by
  have hdeadline : limits.deadline? = .error .deadlineOverflow := by
    rw [Limits.deadline?, htimeout]
    exact if_neg hclock
  rw [Bounds.ofLimits, hdeadline]
  rfl

end Resolution

/-! ## Deadlines -/

namespace Clock

/-- Nanoseconds are carried over, so all that counts is whether the reading and
the span are less together than what the clock counts up to. -/
theorem reaches_iff [Clock] {span : Span} :
    Reaches span ↔
      (reading.seconds + span.seconds) * Span.nanosecondsPerSecond +
          (reading.nanoseconds + span.nanoseconds) <
        (lastSecond + 1) * Span.nanosecondsPerSecond := by
  simp only [Reaches, Span.plus, Span.normalized, Span.nanosecondsPerSecond]
  omega

/-- The last nanosecond of the clock, and the one that would come next. -/
example : let clock : Clock := ⟨⟨9223372036854775806, 600000000⟩⟩
    @Reaches clock ⟨1, 399999999⟩ ∧ ¬ @Reaches clock ⟨1, 400000000⟩ := by
  decide

theorem not_reaches_of_lastSecond_lt [Clock] {span : Span}
    (h : lastSecond < span.seconds) : ¬ Reaches span := by
  rw [reaches_iff, Span.nanosecondsPerSecond]
  omega

end Clock

namespace Directory

open Resolution (Bounds)

section

variable [Clock] {directory : Directory} {limits : Limits}
  {cancelAt? : Option Nat} {teams : List String}

theorem lookUp_of_reachable
    (hclock : ∀ span ∈ limits.timeout?, Clock.Reaches span) :
    ∃ r, lookUp (some directory) limits cancelAt? teams = .ok (some r) ∧
      r.table.teams = ascending teams :=
  ⟨_, lookUp_eq_ok hclock directory cancelAt? teams,
    Resolution.teams_resolve _ directory teams⟩

theorem lookUp_of_unreachable {span : Span}
    (htimeout : limits.timeout? = some span)
    (hclock : ¬ Clock.Reaches span) :
    lookUp (some directory) limits cancelAt? teams =
      .error .deadlineOverflow := by
  rw [lookUp, Bounds.ofLimits_eq_error htimeout hclock]
  rfl

/-- A look-up has a status for each of the teams, and for nobody else, unless
its timeout leads from the reading of the clock past the last second, and then
it fails for that reason. -/
theorem lookUp_ok_iff :
    ((∃ r, lookUp (some directory) limits cancelAt? teams = .ok (some r) ∧
        r.table.teams = ascending teams) ↔
      ∀ span ∈ limits.timeout?, Clock.Reaches span) ∧
    (lookUp (some directory) limits cancelAt? teams = .error .deadlineOverflow ↔
      ∃ span ∈ limits.timeout?, ¬ Clock.Reaches span) := by
  by_cases hclock : ∀ span ∈ limits.timeout?, Clock.Reaches span
  · have hfound : ∃ r,
        lookUp (some directory) limits cancelAt? teams = .ok (some r) ∧
          r.table.teams = ascending teams :=
      lookUp_of_reachable hclock
    refine ⟨iff_of_true hfound hclock, iff_of_false ?_ ?_⟩
    · obtain ⟨r, hr, _⟩ := hfound
      simp [hr]
    · intro hfar
      obtain ⟨span, hspan, hfar⟩ := hfar
      exact hfar (hclock span hspan)
  · have hfar : ∃ span ∈ limits.timeout?, ¬ Clock.Reaches span := by
      simpa using hclock
    obtain ⟨span, htimeout, hspan⟩ := hfar
    have hfails : lookUp (some directory) limits cancelAt? teams =
        .error .deadlineOverflow :=
      lookUp_of_unreachable htimeout hspan
    refine ⟨iff_of_false ?_ hclock, iff_of_true hfails ⟨span, htimeout, hspan⟩⟩
    intro hfound
    obtain ⟨r, hr, _⟩ := hfound
    rw [hfails] at hr
    cases hr

end

/-- The longest timeout that limits can be read with is too long, whatever the
clock shows. -/
theorem lookUp_longest_timeout_fails :
    let limits : Limits := ⟨8, some ⟨18446744073709551615, 0⟩⟩
    let timeout : Json := .object
      [("secs", .integer 18446744073709551615), ("nanos", .integer 0)]
    Limits.ofJson? (.object [("timeout", timeout)]) = some limits ∧
      ∀ [Clock],
        lookUp (some (ofRosters [("org/web", ["ann"])])) limits none
            ["org/web"] = .error .deadlineOverflow ∧
          ¬ ∃ r, lookUp (some (ofRosters [("org/web", ["ann"])])) limits none
              ["org/web"] = .ok (some r) ∧
            r.table.teams = ["org/web"] := by
  intro limits timeout
  refine ⟨by rfl, fun {_} => ?_⟩
  have hfails : lookUp (some (ofRosters [("org/web", ["ann"])])) limits none
      ["org/web"] = .error .deadlineOverflow :=
    lookUp_of_unreachable rfl
      (Clock.not_reaches_of_lastSecond_lt (by decide))
  refine ⟨hfails, fun hfound => ?_⟩
  obtain ⟨r, hr, _⟩ := hfound
  rw [hfails] at hr
  cases hr

end Directory

end Signoff
