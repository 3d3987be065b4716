import Signoff.Proofs.Roster.Schedule
import Signoff.Proofs.Roster.Steps

/-!
# What a state has in store

From any state on, what a resolution is going to do is settled: the open
questions know when they are due, and the waiting teams can be booked on the
slots that these leave free. So a state foretells which status every team gets
and which questions are asked when, and, short of the cut, when all is over.

The work of one instant and the leap to the next fulfil a part of what a state
foretells and change none of it (`Agrees`). That is shown for each of them
separately, in states that are `Orderly`, and carried through a whole run.

There are two reasons why it holds. Before the cut, a flight that ends now
leaves its slot free from now on, which is when its booking said it would, and a
team that starts now takes a slot that no other is free before. At the cut
nothing booked can have been over yet, and nothing booked has begun.
-/

namespace Signoff.Resolution.State

open Roster (Status)

variable {b : Bounds} {directory : Directory} {s t u : State}
  {team : String} {teams : List String}

/-! ## What is foretold -/

/-- The times at which the slots become free of what is in flight. -/
def free (b : Bounds) (s : State) : List Nat :=
  s.inFlight.map Flight.due ++
    List.replicate (b.slots - s.inFlight.length) s.now

/-- The bookings of the waiting teams. -/
def forecast (b : Bounds) (directory : Directory) (s : State) : List Booking :=
  Schedule.book (fun team => (directory team).delay) (s.free b) s.waiting

/-- The statuses that all teams have in the end. -/
def outcome (b : Bounds) (directory : Directory) (s : State) :
    List (String × Status) :=
  s.settled ++ (s.inFlight.map fun f => (f.team, b.status f.due f.reply)) ++
    (s.forecast b directory).map fun k =>
      (k.team, b.status k.finish (directory k.team))

/-- The questions that have been asked in the end. -/
def questions (b : Bounds) (directory : Directory) (s : State) :
    List (String × Nat) :=
  s.begun ++ ((s.forecast b directory).filter fun k => k.start < b.cut).map
    fun k => (k.team, k.start)

/-- All is over by a time, if nothing is cut off. -/
def OverBy (b : Bounds) (directory : Directory) (s : State) (time : Nat) :
    Prop :=
  s.now ≤ time ∧ (∀ f ∈ s.inFlight, f.due ≤ time) ∧
    ∀ k ∈ s.forecast b directory, k.finish ≤ time

/-- Two states foretell the same. -/
structure Agrees (b : Bounds) (directory : Directory) (s t : State) : Prop where
  outcome : (s.outcome b directory).Perm (t.outcome b directory)
  questions : s.questions b directory = t.questions b directory
  overBy : ∀ time : Nat, time < b.cut →
    (s.OverBy b directory time ↔ t.OverBy b directory time)

theorem Agrees.refl (s : State) : Agrees b directory s s :=
  ⟨.refl _, rfl, fun _ _ => Iff.rfl⟩

theorem Agrees.trans (h : Agrees b directory s t)
    (h' : Agrees b directory t u) : Agrees b directory s u :=
  ⟨h.outcome.trans h'.outcome, h.questions.trans h'.questions,
    fun time ht => (h.overBy time ht).trans (h'.overBy time ht)⟩

/-- No team waits while a slot is free. -/
def Full (b : Bounds) (s : State) : Prop :=
  s.waiting = [] ∨ b.slots ≤ s.inFlight.length

namespace Orderly

theorem now_le_free (h : s.Orderly b directory) :
    ∀ t ∈ s.free b, s.now ≤ t := by
  intro t ht
  rw [free, List.mem_append, List.mem_map] at ht
  rcases ht with ⟨f, hf, rfl⟩ | ht
  · exact h.now_le_due f hf
  · exact Nat.le_of_eq (List.eq_of_mem_replicate ht).symm

theorem free_ne_nil (h : s.Orderly b directory) : s.free b ≠ [] := by
  intro hnil
  have hlen := congrArg List.length hnil
  have hle := h.length_le
  have hpos := b.slots_pos
  simp only [free, List.length_append, List.length_map, List.length_replicate,
    List.length_nil] at hlen
  omega

/-- What is booked lies ahead. -/
theorem now_le_start (h : s.Orderly b directory) {k : Booking}
    (hk : k ∈ s.forecast b directory) : s.now ≤ k.start :=
  Schedule.le_start_of_mem_book h.free_ne_nil h.now_le_free hk

theorem now_le_finish (h : s.Orderly b directory) {k : Booking}
    (hk : k ∈ s.forecast b directory) : s.now ≤ k.finish := by
  rw [Schedule.finish_of_mem_book hk]
  exact Nat.le_add_right_of_le (h.now_le_start hk)

end Orderly

/-! ## From one instant to the next -/

theorem le_foldl_min_iff {l : List Nat} {a n : Nat} :
    n ≤ l.foldl min a ↔ n ≤ a ∧ ∀ m ∈ l, n ≤ m := by
  induction l generalizing a with
  | nil => simp
  | cons m l ih =>
      rw [List.foldl_cons, ih, Nat.le_min, List.forall_mem_cons, and_assoc]

theorem le_nextInstant_iff {f : Flight} {others : List Flight} {n : Nat} :
    n ≤ nextInstant b f others ↔
      (∀ g ∈ f :: others, n ≤ g.due) ∧ n ≤ b.cut := by
  rw [nextInstant, le_foldl_min_iff, Bounds.cut_eq_min, le_min_iff,
    le_instant_iff, le_instant_iff]
  simp only [List.forall_mem_append, List.forall_mem_map, Option.mem_toList,
    List.forall_mem_cons]
  tauto

theorem now_le_nextInstant (h : s.Orderly b directory) {f : Flight}
    {others : List Flight} (hs : s.inFlight = f :: others) :
    s.now ≤ nextInstant b f others := by
  rw [le_nextInstant_iff, ← hs]
  exact ⟨h.now_le_due, h.now_le_cut⟩

theorem orderly_leap (h : s.Orderly b directory) {f : Flight}
    {others : List Flight} (hs : s.inFlight = f :: others) :
    (s.leap b (nextInstant b f others)).Orderly b directory := by
  obtain ⟨hdue, hcut⟩ := (le_nextInstant_iff (b := b)).1
    (Nat.le_refl (nextInstant b f others))
  rw [← hs] at hdue
  refine ⟨?_, hcut, hdue, h.length_le, h.quiet_inFlight, h.quiet_waiting⟩
  -- A cancellation that had come by the instant before has come by this one.
  have hlater : b.cancelAt?.any (· ≤ s.now) = true →
      b.cancelAt?.any (· ≤ nextInstant b f others) = true := by
    rw [← instant_le_iff, ← instant_le_iff]
    intro hc
    exact hc.trans (Nat.cast_le.2 (now_le_nextInstant h hs))
  have hsync := h.synced
  rw [Synced] at hsync
  rw [Synced, leap, hsync]
  simpa using hlater

/-- Time leaps only when no team can start, so the free slots are of no account
and the rest of a forecast does not depend on the time. -/
theorem agrees_leap (h : s.Orderly b directory) {f : Flight}
    {others : List Flight} (hs : s.inFlight = f :: others) (hfull : s.Full b) :
    Agrees b directory s (s.leap b (nextInstant b f others)) := by
  have hforecast : (s.leap b (nextInstant b f others)).forecast b directory =
      s.forecast b directory := by
    rcases hfull with hidle | hbusy
    · simp [forecast, leap, hidle, Schedule.book]
    · simp [forecast, free, leap, Nat.sub_eq_zero_of_le hbusy]
  refine ⟨?_, ?_, ?_⟩
  · rw [outcome, outcome, hforecast]
    rfl
  · rw [questions, questions, hforecast]
    rfl
  · intro time _
    have hf : f ∈ s.inFlight := hs ▸ List.mem_cons_self
    have hdue := (orderly_leap h hs).now_le_due f hf
    have hnow := now_le_nextInstant h hs
    simp only [OverBy, hforecast]
    refine ⟨fun hover => ?_, fun hover => ?_⟩
    · exact ⟨hdue.trans (hover.2.1 f hf), hover.2⟩
    · exact ⟨hnow.trans hover.1, hover.2⟩

/-! ## Settling -/

theorem forecast_congr (directory : Directory)
    (hfree : (s.free b).Perm (t.free b)) (hwaiting : s.waiting = t.waiting) :
    s.forecast b directory = t.forecast b directory := by
  rw [forecast, forecast, hwaiting, Schedule.book_perm hfree]

/-- A flight that lands leaves its slot free from now on. -/
theorem map_due_landed (h : s.Orderly b directory) :
    s.landed.map Flight.due = List.replicate s.landed.length s.now := by
  rw [List.eq_replicate_iff]
  refine ⟨List.length_map _, ?_⟩
  intro t ht
  obtain ⟨f, hf, rfl⟩ := List.mem_map.1 ht
  obtain ⟨hmem, hdue⟩ := mem_landed_iff.1 hf
  exact Nat.le_antisymm hdue (h.now_le_due f hmem)

theorem free_settle_before (h : s.Orderly b directory) :
    (s.free b).Perm (free b { s with inFlight := s.aloft }) := by
  have hsplit := perm_inFlight s
  have hlen := hsplit.length_eq
  rw [List.length_append] at hlen
  have hle := h.length_le
  have hslots : s.landed.length + (b.slots - s.inFlight.length) =
      b.slots - s.aloft.length := by
    omega
  refine ((hsplit.map Flight.due).append_right _).trans ?_
  rw [List.map_append, map_due_landed h]
  refine (List.perm_append_comm.append_right _).trans ?_
  rw [List.append_assoc, List.replicate_append_replicate, hslots]
  exact .refl _

theorem orderly_settle (h : s.Orderly b directory) :
    (s.settle b).Orderly b directory := by
  rcases lt_or_eq_of_le h.now_le_cut with hlt | heq
  · rw [settle_before h hlt]
    refine ⟨h.synced, h.now_le_cut, ?_, ?_, ?_, h.quiet_waiting⟩
    · intro f hf
      exact h.now_le_due f (mem_aloft_iff.1 hf).1
    · exact (List.length_filter_le _ _).trans h.length_le
    · intro f hf
      exact h.quiet_inFlight f (mem_aloft_iff.1 hf).1
  · rw [settle_cut h.synced heq]
    refine ⟨h.synced, h.now_le_cut, ?_, Nat.zero_le _, ?_, h.quiet_waiting⟩
    · intro f hf
      cases hf
    · intro f hf
      cases hf

theorem agrees_settle_before (h : s.Orderly b directory) (hlt : s.now < b.cut) :
    Agrees b directory s (s.settle b) := by
  rw [settle_before h hlt]
  have hforecast := forecast_congr directory (free_settle_before h) rfl
  refine ⟨?_, ?_, ?_⟩
  · have hanswers : (s.landed.map fun f => (f.team, b.status f.due f.reply)) =
        s.landed.map fun f => (f.team, Status.ofAnswer f.reply.answer) := by
      apply List.map_congr_left
      intro f hf
      have hdue := (mem_landed_iff.1 hf).2
      rw [Bounds.status_of_lt (lt_of_le_of_lt (Nat.cast_le.2 hdue) hlt)]
    rw [outcome, hforecast, outcome]
    refine List.Perm.append_right _ ?_
    rw [← hanswers, List.append_assoc, ← List.map_append]
    exact ((perm_inFlight s).map _).append_left _
  · rw [questions, hforecast]
    rfl
  · intro time _
    rw [OverBy, hforecast, OverBy]
    refine and_congr_right fun hnow => and_congr_left fun _ => ?_
    refine ⟨fun hdue f hf => hdue f (mem_aloft_iff.1 hf).1, fun hdue f hf => ?_⟩
    by_cases hlater : s.now < f.due
    · exact hdue f (mem_aloft_iff.2 ⟨hf, hlater⟩)
    · exact (Nat.le_of_not_lt hlater).trans hnow

/-! ## At the cut -/

/-- The statuses that all teams have if no more replies count. -/
def cutOff (b : Bounds) (s : State) : List (String × Status) :=
  s.settled ++ (s.inFlight.map Flight.team ++ s.waiting).map
    fun team => (team, .unknown b.gap)

theorem outcome_cut (h : s.Orderly b directory) (heq : s.now = b.cut) :
    s.outcome b directory = s.cutOff b := by
  have hflights : (s.inFlight.map fun f => (f.team, b.status f.due f.reply)) =
      (s.inFlight.map Flight.team).map fun team => (team, .unknown b.gap) := by
    rw [List.map_map]
    apply List.map_congr_left
    intro f hf
    have hdue : b.cut ≤ f.due := heq ▸ Nat.cast_le.2 (h.now_le_due f hf)
    rw [Bounds.status_of_le hdue]
    rfl
  have hbookings : ((s.forecast b directory).map fun k =>
        (k.team, b.status k.finish (directory k.team))) =
      ((s.forecast b directory).map Booking.team).map
        fun team => (team, .unknown b.gap) := by
    rw [List.map_map]
    apply List.map_congr_left
    intro k hk
    have hfinish : b.cut ≤ k.finish := heq ▸ Nat.cast_le.2 (h.now_le_finish hk)
    rw [Bounds.status_of_le hfinish]
    rfl
  have hteams : (s.forecast b directory).map Booking.team = s.waiting :=
    Schedule.map_team_book _
  rw [outcome, hflights, hbookings, hteams, cutOff, List.map_append,
    List.append_assoc]

theorem questions_cut (h : s.Orderly b directory) (heq : s.now = b.cut) :
    s.questions b directory = s.begun := by
  have hnone :
      (s.forecast b directory).filter (fun k => k.start < b.cut) = [] := by
    rw [List.filter_eq_nil_iff]
    intro k hk
    rw [← heq, decide_eq_true_eq, Nat.cast_lt]
    exact Nat.not_lt.2 (h.now_le_start hk)
  rw [questions, hnone, List.map_nil, List.append_nil]

/-- At the cut all that counts is which teams are still to be settled. -/
theorem agrees_cut (hs : s.Orderly b directory) (ht : t.Orderly b directory)
    (heq : s.now = b.cut) (hnow : t.now = s.now) (hbegun : t.begun = s.begun)
    (hcutOff : s.cutOff b = t.cutOff b) : Agrees b directory s t := by
  have heq' : t.now = b.cut := by rw [hnow, heq]
  refine ⟨?_, ?_, ?_⟩
  · rw [outcome_cut hs heq, outcome_cut ht heq', hcutOff]
  · rw [questions_cut hs heq, questions_cut ht heq', hbegun]
  · intro time hlt
    rw [← heq, Nat.cast_lt] at hlt
    have hlate : ∀ {u : State}, u.now = s.now →
        ¬ u.OverBy b directory time := by
      intro u hu hover
      have hle := hover.1
      omega
    exact iff_of_false (hlate rfl) (hlate hnow)

/-- Nothing is in flight any more after the work of the cut. -/
theorem inFlight_settle_cut (h : s.Orderly b directory)
    (hcut : (s.settle b).now = b.cut) : (s.settle b).inFlight = [] := by
  rcases lt_or_eq_of_le h.now_le_cut with hlt | heq
  · rw [settle_before h hlt] at hcut
    exact absurd hcut (ne_of_lt hlt)
  · rw [settle_cut h.synced heq]

theorem agrees_settle (h : s.Orderly b directory) :
    Agrees b directory s (s.settle b) := by
  rcases lt_or_eq_of_le h.now_le_cut with hlt | heq
  · exact agrees_settle_before h hlt
  · have hafter := orderly_settle h
    rw [settle_cut h.synced heq] at hafter ⊢
    refine agrees_cut h hafter heq rfl rfl ?_
    simp [cutOff]

/-! ## Starting -/

theorem orderly_start
    (h : Orderly b directory { s with waiting := team :: teams })
    (hlt : s.now < b.cut) (hroom : s.inFlight.length < b.slots) :
    Orderly b directory { s.start b directory team with waiting := teams } := by
  rw [start_before h hlt]
  have hquiet : ∀ other ∈ teams, (directory other).cancels = false :=
    fun other hother => h.quiet_waiting other (List.mem_cons_of_mem team hother)
  split
  · exact ⟨h.synced, h.now_le_cut, h.now_le_due, h.length_le, h.quiet_inFlight,
      hquiet⟩
  · refine ⟨h.synced, h.now_le_cut, ?_, ?_, ?_, hquiet⟩
    · intro f hf
      rcases List.mem_append.1 hf with hf | hf
      · exact h.now_le_due f hf
      · rw [List.mem_singleton.1 hf]
        exact Nat.le_add_right _ _
    · rw [List.length_append]
      exact hroom
    · intro f hf
      rcases List.mem_append.1 hf with hf | hf
      · exact h.quiet_inFlight f hf
      · rw [List.mem_singleton.1 hf]
        exact h.quiet_waiting team List.mem_cons_self

/-- A team that starts takes a slot that is free now until its reply is due. -/
theorem free_start (h : Orderly b directory { s with waiting := team :: teams })
    (hlt : s.now < b.cut) (hroom : s.inFlight.length < b.slots) :
    ((s.now + (directory team).delay) :: (s.free b).erase s.now).Perm
      ((s.start b directory team).free b) := by
  obtain ⟨spare, hspare⟩ : ∃ spare, b.slots - s.inFlight.length = spare + 1 :=
    ⟨b.slots - s.inFlight.length - 1, by omega⟩
  have hfree : s.free b =
      s.inFlight.map Flight.due ++ s.now :: List.replicate spare s.now := by
    rw [free, hspare, List.replicate_succ]
  have hmem : s.now ∈ s.free b := by
    rw [hfree]
    exact List.mem_append_right _ List.mem_cons_self
  rw [start_before h hlt]
  split
  · next hdelay =>
      rw [hdelay, Nat.add_zero]
      exact (List.perm_cons_erase hmem).symm
  · have hother : ((s.free b).erase s.now).Perm
        (s.inFlight.map Flight.due ++ List.replicate spare s.now) := by
      have hmiddle : (s.free b).Perm (s.now ::
          (s.inFlight.map Flight.due ++ List.replicate spare s.now)) := by
        rw [hfree]
        exact List.perm_middle
      have hcons := (List.perm_cons_erase hmem).symm.trans hmiddle
      exact (List.perm_cons _).1 hcons
    refine (hother.cons _).trans ?_
    rw [free]
    dsimp only
    rw [List.map_append, List.length_append, List.length_singleton,
      ← Nat.sub_sub, hspare, Nat.add_sub_cancel, List.append_assoc]
    exact List.perm_middle.symm

theorem forecast_start
    (h : Orderly b directory { s with waiting := team :: teams })
    (hlt : s.now < b.cut) (hroom : s.inFlight.length < b.slots) :
    forecast b directory { s with waiting := team :: teams } =
      ⟨team, s.now, s.now + (directory team).delay⟩ ::
        forecast b directory
          { s.start b directory team with waiting := teams } := by
  have hmem : s.now ∈ s.free b := by
    rw [free, List.mem_append, List.mem_replicate]
    exact Or.inr ⟨by omega, rfl⟩
  have hbook : forecast b directory { s with waiting := team :: teams } = _ :=
    Schedule.book_cons hmem h.now_le_free team teams
  rw [Schedule.book_perm (free_start h hlt hroom)] at hbook
  exact hbook

theorem agrees_start
    (h : Orderly b directory { s with waiting := team :: teams })
    (hlt : s.now < b.cut) (hroom : s.inFlight.length < b.slots) :
    Agrees b directory { s with waiting := team :: teams }
      { s.start b directory team with waiting := teams } := by
  have hforecast := forecast_start h hlt hroom
  have hstart := start_before h hlt
  refine ⟨?_, ?_, ?_⟩
  · rw [outcome, hforecast, outcome, hstart]
    split
    · next hdelay =>
        rw [List.map_cons, hdelay, Nat.add_zero, Bounds.status_of_lt hlt]
        dsimp only
        refine List.perm_middle.trans ?_
        simp only [List.append_assoc, List.singleton_append]
        exact List.perm_middle.symm
    · simp
  · rw [questions, hforecast, questions, hstart]
    split <;> simp [hlt]
  · intro time _
    rw [OverBy, hforecast, OverBy, hstart, List.forall_mem_cons]
    split
    · next hdelay =>
        dsimp only
        rw [hdelay, Nat.add_zero]
        tauto
    · dsimp only
      rw [List.forall_mem_append, List.forall_mem_singleton]
      have hstarted : s.now + (directory team).delay ≤ time → s.now ≤ time :=
        (Nat.le_add_right _ _).trans
      tauto

theorem full_startAll (teams : List String) :
    (s.startAll b directory teams).Full b := by
  induction teams generalizing s with
  | nil => exact Or.inl rfl
  | cons team teams ih =>
      rw [startAll]
      split
      · exact ih
      · next hroom => exact Or.inr (Nat.le_of_not_lt hroom)

theorem startAll_before (h : Orderly b directory { s with waiting := teams })
    (hlt : s.now < b.cut) :
    (s.startAll b directory teams).Orderly b directory ∧
      Agrees b directory { s with waiting := teams }
        (s.startAll b directory teams) := by
  induction teams generalizing s with
  | nil => exact ⟨h, .refl _⟩
  | cons team teams ih =>
      rw [startAll]
      split
      · next hroom =>
          have hnow : (s.start b directory team).now = s.now := by
            rw [start_before h hlt]
            split <;> rfl
          have hstart := orderly_start h hlt hroom
          obtain ⟨horderly, hagrees⟩ := ih hstart (hnow ▸ hlt)
          exact ⟨horderly, (agrees_start h hlt hroom).trans hagrees⟩
      · exact ⟨h, .refl _⟩

theorem fill_keeps (h : s.Orderly b directory)
    (hidle : s.now = b.cut → s.inFlight = []) :
    (s.fill b directory).Orderly b directory ∧
      Agrees b directory s (s.fill b directory) := by
  rcases lt_or_eq_of_le h.now_le_cut with hlt | heq
  · exact startAll_before h hlt
  · have horderly : (s.fill b directory).Orderly b directory := by
      rw [fill, startAll_cut h.synced heq (hidle heq)]
      refine ⟨h.synced, h.now_le_cut, h.now_le_due, h.length_le,
        h.quiet_inFlight, ?_⟩
      intro team hteam
      cases hteam
    refine ⟨horderly, ?_⟩
    rw [fill, startAll_cut h.synced heq (hidle heq)] at horderly ⊢
    refine agrees_cut h horderly heq rfl rfl ?_
    simp [cutOff, hidle heq]

/-! ## A whole run -/

theorem advance_keeps (h : s.Orderly b directory) (hfull : s.Full b)
    (hstep : s.advance b directory = some t) :
    t.Orderly b directory ∧ t.Full b ∧ Agrees b directory s t := by
  unfold advance at hstep
  split at hstep
  · cases hstep
  · next f others hs =>
      obtain rfl := Option.some.inj hstep
      have hleap := orderly_leap h hs
      have hsettle := orderly_settle hleap
      obtain ⟨hfill, hagrees⟩ := fill_keeps hsettle (inFlight_settle_cut hleap)
      refine ⟨hfill, full_startAll _, ?_⟩
      exact ((agrees_leap h hs hfull).trans (agrees_settle hleap)).trans hagrees

theorem inFlight_of_advance (h : s.advance b directory = none) :
    s.inFlight = [] := by
  unfold advance at h
  split at h
  · next hs => exact hs
  · cases h

/-- A run ends with nothing left to foretell. -/
theorem run_keeps (h : s.Orderly b directory) (hfull : s.Full b) :
    (s.run b directory).Orderly b directory ∧
      Agrees b directory s (s.run b directory) ∧
      (s.run b directory).inFlight = [] ∧ (s.run b directory).waiting = [] := by
  fun_induction run with
  | case1 s hend =>
      have hidle := inFlight_of_advance hend
      refine ⟨h, .refl _, hidle, ?_⟩
      rcases hfull with hnone | hbusy
      · exact hnone
      · rw [hidle] at hbusy
        exact absurd b.slots_pos (Nat.not_lt.2 hbusy)
  | case2 s later hstep ih =>
      obtain ⟨horderly, hfull', hagrees⟩ := advance_keeps h hfull hstep
      obtain ⟨hend, hrest, hover⟩ := ih horderly hfull'
      exact ⟨hend, hagrees.trans hrest, hover⟩

end Signoff.Resolution.State
