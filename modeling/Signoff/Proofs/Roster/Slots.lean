import Signoff.Proofs.Roster.Moments
import Signoff.Proofs.Roster.Resolution

/-!
# Slots

However many teams there are, no more questions are open at a time than there
are slots, and none of the slots is left idle while a team waits for its turn
(`busy_slots`).

The bound is kept at every moment, in the middle of an instant too: a question
is only asked when fewer are open, so it has a slot even if it is answered at
once. Slots are busy whenever time leaps. At the moments of one instant they
need not be, since some questions have been settled and others are still to be
asked.
-/

namespace Signoff.Resolution

namespace State

variable {b : Bounds} {directory : Directory} {s t : State}
  {teams : List String}

/-- The teams that the directory has been asked about and that have no status.
-/
def unanswered (s : State) : List String :=
  (s.begun.map Prod.fst).filter fun team => team ∉ s.settled.map Prod.fst

namespace Accounted

theorem begun_prefix (h : s.Accounted b teams) :
    s.begun.map Prod.fst <+: ascending teams := by
  obtain ⟨_, _, horder⟩ := h.order
  exact ⟨_, horder⟩

theorem isAscending_begun (h : s.Accounted b teams) :
    IsAscending (s.begun.map Prod.fst) :=
  (isAscending_ascending teams).sublist h.begun_prefix.sublist

/-- Questions that have not been answered are in flight, and nothing else is. -/
theorem unanswered_perm (h : s.Accounted b teams) :
    s.unanswered.Perm (s.inFlight.map Flight.team) := by
  have hteams := nodup_of_isAscending (isAscending_ascending teams)
  obtain ⟨skipped, _, horder⟩ := h.order
  have hbegun : (s.begun.map Prod.fst).Nodup :=
    nodup_of_isAscending h.isAscending_begun
  have htaken : s.taken.Nodup :=
    (List.nodup_append.1 (h.perm.nodup_iff.2 hteams)).1
  have hwaiting : ∀ team ∈ s.begun.map Prod.fst, team ∉ s.waiting := by
    rw [← horder] at hteams
    intro team hteam hwaits
    exact (List.nodup_append.1 hteams).2.2 team hteam team
      (List.mem_append_right skipped hwaits) rfl
  refine (List.perm_ext_iff_of_nodup (hbegun.filter _)
    (List.nodup_append.1 htaken).2.1).2 fun team => ?_
  rw [List.mem_filter, decide_eq_true_eq]
  refine ⟨fun hopen => ?_, fun hflies => ⟨?_, fun hsettled => ?_⟩⟩
  · have hall : team ∈ s.taken ++ s.waiting :=
      h.perm.mem_iff.2 (h.begun_prefix.subset hopen.1)
    rcases List.mem_append.1 hall with htaken | hwaits
    · exact (List.mem_append.1 htaken).resolve_left hopen.2
    · exact absurd hwaits (hwaiting team hopen.1)
  · obtain ⟨f, hf, rfl⟩ := List.mem_map.1 hflies
    exact h.asked f hf
  · exact (List.nodup_append.1 htaken).2.2 team hsettled team hflies rfl

theorem length_unanswered (h : s.Accounted b teams) :
    s.unanswered.length = s.inFlight.length := by
  rw [h.unanswered_perm.length_eq, List.length_map]

/-- While anything is in flight, a team that the directory has not been asked
about is still waiting. -/
theorem waiting_ne_nil (h : s.Accounted b teams) (hs : s.inFlight ≠ [])
    {team : String} (hteam : team ∈ teams)
    (hnew : team ∉ s.begun.map Prod.fst) : s.waiting ≠ [] := by
  obtain ⟨skipped, hskipped, horder⟩ := h.order
  have hnone : skipped = [] := by
    by_contra hne
    exact hs (h.inFlight_of_closed (hskipped hne))
  rw [hnone, List.nil_append] at horder
  have hmem := mem_ascending.2 hteam
  rw [← horder, List.mem_append] at hmem
  exact List.ne_nil_of_mem (hmem.resolve_left hnew)

end Accounted

/-- A question is asked only when there is a slot for it. -/
theorem Move.length_unanswered_lt (hmove : Move b directory s t)
    (h : s.Accounted b teams) (hasked : t.begun ≠ s.begun) :
    s.unanswered.length < b.slots := by
  rw [h.length_unanswered]
  cases hmove with
  | start _ hroom => exact hroom
  | leap _ => exact absurd (begun_settle b _) hasked

theorem Rests.length_unanswered (h : Rests b directory teams s)
    (hstep : s.advance b directory = some t) {team : String}
    (hteam : team ∈ teams) (hnew : team ∉ s.begun.map Prod.fst) :
    s.unanswered.length = b.slots := by
  have haccount := h.moment.accounted
  have hs : s.inFlight ≠ [] := by
    intro hidle
    unfold advance at hstep
    rw [hidle] at hstep
    cases hstep
  have hwaits := haccount.waiting_ne_nil hs hteam hnew
  rw [haccount.length_unanswered]
  exact Nat.le_antisymm haccount.length_le (h.full.resolve_left hwaits)

end State

open State (Move Moment Rests)

/-- At no moment are more questions open than there are slots, and a question is
asked only while fewer are. Whenever time leaps from where a resolution rests,
all slots are taken, unless the directory has been asked about every team. In
the end it has been asked about the first of them, in order and once each. -/
theorem busy_slots [Clock] {directory : Directory} {limits : Limits}
    {cancelAt? : Option Nat} {teams : List String}
    (hclock : ∀ span ∈ limits.timeout?, Clock.Reaches span) :
    let slots := max limits.concurrency 1
    ∃ b, Bounds.ofLimits limits cancelAt? = .ok b ∧
      (∀ s, Moment b directory teams s →
        s.unanswered.length ≤ slots ∧
        ∀ t, Move b directory s t → t.begun ≠ s.begun →
          s.unanswered.length < slots) ∧
      (∀ s, Rests b directory teams s → Moment b directory teams s ∧
        ∀ t, s.advance b directory = some t →
          (∃ team ∈ teams, team ∉ s.begun.map Prod.fst) →
          s.unanswered.length = slots) ∧
      Rests b directory teams (final b directory teams) ∧
      (resolve b directory teams).begun.map Prod.fst <+: ascending teams ∧
      IsAscending ((resolve b directory teams).begun.map Prod.fst) := by
  intro slots
  have hend := (State.rests_final ⟨limits.slots, Nat.le_max_right _ _,
    limits.timeout?.map Span.milliseconds, cancelAt?⟩ directory teams)
  refine ⟨_, Bounds.ofLimits_eq_ok hclock, fun s hs => ⟨?_, ?_⟩,
    fun s hs => ⟨hs.moment, ?_⟩, hend, ?_, ?_⟩
  · rw [hs.accounted.length_unanswered]
    exact hs.accounted.length_le
  · intro t hmove hasked
    exact hmove.length_unanswered_lt hs.accounted hasked
  · intro t hstep hnew
    obtain ⟨team, hteam, hnew⟩ := hnew
    exact hs.length_unanswered hstep hteam hnew
  · exact hend.moment.accounted.begun_prefix
  · exact hend.moment.accounted.isAscending_begun

/-- With one slot, and teams that take five milliseconds each up to a deadline
after 7.5, time leaps from the first of three teams with its question open. -/
theorem busy_slots_one_slot :
    let slow : Directory := fun team => .after 5 (.ok ⟨team, []⟩) false
    let limits : Limits := ⟨0, some ⟨0, 7500000⟩⟩
    let teams := ["web", "core", "docs", "core"]
    (∀ span ∈ limits.timeout?, Clock.Reaches span) ∧
      ∃ b, Bounds.ofLimits limits none = .ok b ∧
        ((State.initial b teams).fill b slow).begun = [("core", 0)] ∧
        ((State.initial b teams).fill b slow).unanswered.length = 1 ∧
        (resolve b slow teams).begun = [("core", 0), ("docs", 5)] ∧
        (resolve b slow teams).begun.map Prod.fst <+: ascending teams := by
  intro slow limits teams
  have hclock : ∀ span ∈ limits.timeout?, Clock.Reaches span := by
    decide
  obtain ⟨b, hb, _, hbusy, _, hfirst, _⟩ :=
    @busy_slots _ slow limits none teams hclock
  obtain rfl : _ = b := Except.ok.inj hb
  obtain ⟨_, hleap⟩ := hbusy _ .first
  refine ⟨hclock, _, hb, by decide, ?_, ?_, hfirst⟩
  · exact hleap _ rfl ⟨"web", by decide, by decide⟩
  · show (final _ slow teams).begun = _
    rw [begun_final fun _ _ => rfl]
    decide

end Signoff.Resolution
