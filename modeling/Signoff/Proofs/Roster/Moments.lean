import Mathlib.Logic.Relation
import Signoff.Proofs.Roster.Forecast

/-!
# All teams are accounted for

A resolution is made of two kinds of moves. The turn of a team comes, or time
leaps and what is due is settled. Nothing is assumed here about directories, so
a reply may also call off the resolution in the middle of a move.

Through all moves the teams stay accounted for (`Accounted`): each has a status,
or is in flight, or waits for its turn, and just one of these. Turns come in
ascending order. As long as a resolution is open, each turn is a question to the
directory. Once it is closed, by a cancellation or for the deadline, nothing is
in flight any more, and whoever still waits is passed over. So the directory is
asked about the first teams in that order, each once.

A resolution rests when an instant has nothing more to do. The program knows of
no moves and goes from rest to rest, but it gets there by moves
(`Rests.moment`), so what holds at all moments holds wherever it rests.
-/

namespace Signoff.Resolution.State

open Roster (Status Gap)

variable {b : Bounds} {directory : Directory} {s t : State} {f g : Flight}
  {team : String} {teams rest : List String}

/-! ## The teams whose turn has come -/

/-- The teams that have a status or are in flight. -/
def taken (s : State) : List String :=
  s.settled.map Prod.fst ++ s.inFlight.map Flight.team

theorem taken_record (s : State) (team : String) (status : Status) :
    (s.record team status).taken.Perm (team :: s.taken) := by
  show ((s.settled ++ [(team, status)]).map Prod.fst ++ _).Perm _
  rw [List.map_append, List.append_assoc]
  exact List.perm_middle

theorem taken_complete (s : State) (team : String) (reply : Reply) :
    (s.complete team reply).taken.Perm (team :: s.taken) :=
  taken_record s team _

theorem taken_board (s : State) (f : Flight) :
    taken { s with inFlight := s.inFlight ++ [f] } |>.Perm
      (f.team :: s.taken) := by
  show (_ ++ (s.inFlight ++ [f]).map Flight.team).Perm _
  rw [List.map_append, ← List.append_assoc]
  exact List.perm_append_comm

theorem taken_poll (b : Bounds) (s : State) (f : Flight) :
    (s.poll b f).taken.Perm (f.team :: s.taken) := by
  rw [poll]
  split
  · exact taken_record s _ _
  · split
    · exact taken_record s _ _
    · split
      · exact taken_complete s _ _
      · exact taken_board s f

theorem taken_sweep (s : State) : s.sweep.taken = s.taken := by
  rw [sweep]
  split
  · simp [taken, Function.comp_def]
  · rfl

theorem taken_foldl_poll (b : Bounds) (s : State) (flights : List Flight) :
    (flights.foldl (poll b) s).taken.Perm
      (flights.map Flight.team ++ s.taken) := by
  induction flights generalizing s with
  | nil => exact .refl _
  | cons f flights ih =>
      rw [List.foldl_cons]
      refine (ih _).trans ?_
      exact ((taken_poll b s f).append_left _).trans List.perm_middle

theorem taken_settle (b : Bounds) (s : State) :
    (s.settle b).taken.Perm s.taken := by
  rw [settle, taken_sweep]
  refine (taken_foldl_poll b _ s.inFlight).trans ?_
  show (s.inFlight.map Flight.team ++ (s.settled.map Prod.fst ++ [])).Perm _
  rw [List.append_nil]
  exact List.perm_append_comm

theorem taken_start (b : Bounds) (directory : Directory) (s : State)
    (team : String) :
    (s.start b directory team).taken.Perm (team :: s.taken) := by
  rw [start]
  split
  · exact taken_record s _ _
  · split
    · exact taken_record s _ _
    · dsimp only
      split
      · rw [taken_sweep]
        exact taken_complete { s with begun := s.begun ++ [(team, s.now)] } _ _
      · exact taken_board { s with begun := s.begun ++ [(team, s.now)] }
          ⟨team, s.now + (directory team).delay, directory team⟩

/-! ## Questions -/

theorem begun_poll (b : Bounds) (s : State) (f : Flight) :
    (s.poll b f).begun = s.begun := by
  unfold poll
  repeat' split
  all_goals rfl

theorem begun_sweep (s : State) : s.sweep.begun = s.begun := by
  unfold sweep
  split <;> rfl

/-- What polling one flight leaves alone, polling many does. -/
theorem foldl_poll_eq {α : Type} {f : State → α}
    (hpoll : ∀ s g, f (s.poll b g) = f s) (s : State) (flights : List Flight) :
    f (flights.foldl (poll b) s) = f s := by
  induction flights generalizing s with
  | nil => rfl
  | cons g flights ih => rw [List.foldl_cons, ih, hpoll]

theorem begun_settle (b : Bounds) (s : State) :
    (s.settle b).begun = s.begun := by
  rw [settle, begun_sweep, foldl_poll_eq (begun_poll b)]

theorem waiting_settle (b : Bounds) (s : State) :
    (s.settle b).waiting = s.waiting := by
  rw [settle, waiting_sweep, waiting_foldl_poll]

/-! ## What stays in flight -/

/-- The resolution is cancelled, or its deadline has come. -/
def Closed (b : Bounds) (s : State) : Prop :=
  s.cancelled = true ∨ s.expired b = true

theorem mem_inFlight_sweep (h : g ∈ s.sweep.inFlight) : g ∈ s.inFlight := by
  unfold sweep at h
  split at h
  · cases h
  · exact h

theorem mem_inFlight_poll (h : g ∈ (s.poll b f).inFlight) :
    g ∈ s.inFlight ∨ g = f := by
  unfold poll at h
  split at h
  · exact Or.inl h
  · split at h
    · exact Or.inl h
    · split at h
      · exact Or.inl h
      · exact (List.mem_append.1 h).imp_right List.mem_singleton.1

theorem mem_inFlight_foldl_poll {flights : List Flight}
    (h : g ∈ (flights.foldl (poll b) s).inFlight) :
    g ∈ s.inFlight ∨ g ∈ flights := by
  induction flights generalizing s with
  | nil => exact Or.inl h
  | cons f flights ih =>
      rw [List.foldl_cons] at h
      rcases ih h with h | h
      · exact (mem_inFlight_poll h).imp_right fun heq => by simp [heq]
      · exact Or.inr (List.mem_cons_of_mem f h)

theorem mem_inFlight_settle (h : g ∈ (s.settle b).inFlight) :
    g ∈ s.inFlight := by
  rcases mem_inFlight_foldl_poll (mem_inFlight_sweep h) with h | h
  · cases h
  · exact h

theorem length_inFlight_settle_le (b : Bounds) (s : State) :
    (s.settle b).inFlight.length ≤ s.inFlight.length := by
  refine (length_inFlight_sweep_le _).trans ?_
  have hpolled := length_foldl_poll_le b { s with inFlight := [] } s.inFlight
  rwa [List.length_nil, Nat.zero_add] at hpolled

/-- From the deadline on no flight stays. -/
theorem inFlight_foldl_poll_of_expired {flights : List Flight}
    (h : s.expired b = true) :
    (flights.foldl (poll b) s).inFlight = s.inFlight := by
  induction flights generalizing s with
  | nil => rfl
  | cons f flights ih =>
      have hsame : (s.poll b f).inFlight = s.inFlight := by
        rw [poll, if_pos h]
        split <;> rfl
      rw [List.foldl_cons, ← hsame]
      refine ih ?_
      rw [expired, now_poll]
      exact h

theorem inFlight_sweep_of_closed (hsweep : s.sweep.Closed b)
    (hexpired : s.expired b = true → s.inFlight = []) :
    s.sweep.inFlight = [] := by
  unfold sweep at hsweep ⊢
  split
  · rfl
  · next hc =>
      rw [if_neg hc] at hsweep
      exact hexpired (hsweep.resolve_left hc)

theorem inFlight_settle_of_closed (h : (s.settle b).Closed b) :
    (s.settle b).inFlight = [] := by
  refine inFlight_sweep_of_closed h fun hexpired => ?_
  refine inFlight_foldl_poll_of_expired (s := { s with inFlight := [] }) ?_
  rw [expired, foldl_poll_eq (now_poll b)] at hexpired
  exact hexpired

/-! ## The turn of a team -/

/-- Why a closed resolution passes over the teams that still wait. -/
def reason (s : State) : Gap :=
  if s.cancelled then .cancelled else .deadlineExceeded

theorem start_of_closed (h : s.Closed b) (directory : Directory)
    (team : String) :
    s.start b directory team = s.record team (.unknown s.reason) := by
  rw [start, reason]
  split
  · rfl
  · next hc => exact if_pos (h.resolve_left hc)

/-- The state in which the directory has just been asked. -/
def ask (s : State) (team : String) : State :=
  { s with begun := s.begun ++ [(team, s.now)] }

theorem start_of_open (h : ¬ s.Closed b) (directory : Directory)
    (team : String) : s.start b directory team =
      if (directory team).delay = 0 then
        ((s.ask team).complete team (directory team)).sweep
      else
        { s.ask team with
          inFlight := s.inFlight ++
            [⟨team, s.now + (directory team).delay, directory team⟩] } := by
  obtain ⟨hc, he⟩ := not_or.1 h
  rw [start, if_neg hc, if_neg he]
  rfl

theorem begun_start_of_open (h : ¬ s.Closed b) (directory : Directory)
    (team : String) :
    (s.start b directory team).begun = s.begun ++ [(team, s.now)] := by
  rw [start_of_open h]
  split
  · rw [begun_sweep]
    rfl
  · rfl

/-- What is in flight after a turn was so before, or has been asked about now.
-/
theorem mem_inFlight_start (hg : g ∈ (s.start b directory team).inFlight) :
    g ∈ s.inFlight ∨ g.team = team ∧ g.reply = directory team := by
  by_cases hclosed : s.Closed b
  · rw [start_of_closed hclosed] at hg
    exact Or.inl hg
  · rw [start_of_open hclosed] at hg
    split at hg
    · have hstill := mem_inFlight_sweep hg
      exact Or.inl hstill
    · rcases List.mem_append.1 hg with hg | hg
      · exact Or.inl hg
      · rw [List.mem_singleton.1 hg]
        exact Or.inr ⟨rfl, rfl⟩

theorem inFlight_start_of_open (h : ¬ s.Closed b)
    (hclosed : (s.start b directory team).Closed b) :
    (s.start b directory team).inFlight = [] := by
  rw [start_of_open h] at hclosed ⊢
  split
  · next hdelay =>
      rw [if_pos hdelay] at hclosed
      exact inFlight_sweep_of_closed hclosed fun he => absurd (Or.inr he) h
  · next hdelay =>
      rw [if_neg hdelay] at hclosed
      exact absurd hclosed h

/-! ## The account -/

/-- Each team has a status or is in flight or waits, the directory has been
asked about the first of them, and none has been passed over while it still
answers. -/
structure Accounted (b : Bounds) (teams : List String) (s : State) : Prop where
  perm : (s.taken ++ s.waiting).Perm (ascending teams)
  order : ∃ skipped, (skipped ≠ [] → s.Closed b) ∧
    s.begun.map Prod.fst ++ (skipped ++ s.waiting) = ascending teams
  asked : ∀ f ∈ s.inFlight, f.team ∈ s.begun.map Prod.fst
  inFlight_of_closed : s.Closed b → s.inFlight = []
  length_le : s.inFlight.length ≤ b.slots

theorem accounted_initial (b : Bounds) (teams : List String) :
    (initial b teams).Accounted b teams :=
  ⟨.refl _, ⟨[], fun hne => absurd rfl hne, rfl⟩,
    fun _ hf => absurd hf List.not_mem_nil, fun _ => rfl, Nat.zero_le _⟩

theorem accounted_start (h : s.Accounted b teams)
    (hs : s.waiting = team :: rest) (hroom : s.inFlight.length < b.slots) :
    Accounted b teams { s.start b directory team with waiting := rest } := by
  obtain ⟨skipped, hskipped, horder⟩ := h.order
  have hperm : ((s.start b directory team).taken ++ rest).Perm
      (ascending teams) := by
    refine ((taken_start b directory s team).append_right rest).trans ?_
    refine List.perm_middle.symm.trans ?_
    rw [← hs]
    exact h.perm
  have hlength : (s.start b directory team).inFlight.length ≤ b.slots :=
    (length_inFlight_start_le b directory s team).trans hroom
  by_cases hclosed : s.Closed b
  · -- The team is passed over.
    rw [start_of_closed hclosed] at hperm hlength ⊢
    refine ⟨hperm, ⟨skipped ++ [team], fun _ => hclosed, ?_⟩, h.asked,
      h.inFlight_of_closed, hlength⟩
    rw [List.append_assoc, List.singleton_append, ← hs]
    exact horder
  · have hnone : skipped = [] := Decidable.not_not.1 (mt hskipped hclosed)
    refine ⟨hperm, ⟨[], fun hne => absurd rfl hne, ?_⟩, ?_,
      inFlight_start_of_open hclosed, hlength⟩
    · show (s.start b directory team).begun.map Prod.fst ++ rest = _
      rw [begun_start_of_open hclosed, List.map_append, List.append_assoc,
        List.map_singleton, List.singleton_append, ← hs, ← horder, hnone]
      rfl
    · intro f hf
      show f.team ∈ (s.start b directory team).begun.map Prod.fst
      rw [begun_start_of_open hclosed, List.map_append, List.mem_append]
      exact (mem_inFlight_start hf).imp (h.asked f)
        fun hasked => by simp [hasked.1]

theorem accounted_leap (h : s.Accounted b teams) (hs : s.inFlight ≠ [])
    (instant : Nat) : ((s.leap b instant).settle b).Accounted b teams := by
  obtain ⟨skipped, hskipped, horder⟩ := h.order
  have hnone : skipped = [] := by
    by_contra hne
    exact hs (h.inFlight_of_closed (hskipped hne))
  refine ⟨?_, ⟨[], fun hne => absurd rfl hne, ?_⟩, ?_,
    inFlight_settle_of_closed, ?_⟩
  · rw [waiting_settle]
    exact ((taken_settle b _).append_right _).trans h.perm
  · rw [begun_settle, waiting_settle, ← horder, hnone]
    rfl
  · intro f hf
    rw [begun_settle]
    have hstill := mem_inFlight_settle hf
    exact h.asked f hstill
  · exact (length_inFlight_settle_le b _).trans h.length_le

/-! ## Moments -/

/-- The turn of a team, for which there has to be a free slot, or a leap. -/
inductive Move (b : Bounds) (directory : Directory) : State → State → Prop
  | start {s : State} {team : String} {rest : List String} :
      s.waiting = team :: rest → s.inFlight.length < b.slots →
        Move b directory s { s.start b directory team with waiting := rest }
  | leap {s : State} {f : Flight} {others : List Flight} :
      s.inFlight = f :: others →
        Move b directory s ((s.leap b (nextInstant b f others)).settle b)

/-- The state is come to by moves from the first one. -/
def Moment (b : Bounds) (directory : Directory) (teams : List String)
    (s : State) : Prop :=
  Relation.ReflTransGen (Move b directory) (initial b teams) s

theorem Move.accounted (hmove : Move b directory s t)
    (h : s.Accounted b teams) : t.Accounted b teams := by
  cases hmove with
  | start hs hroom => exact accounted_start h hs hroom
  | leap hs => exact accounted_leap h (hs ▸ List.cons_ne_nil _ _) _

theorem Moment.accounted (h : Moment b directory teams s) :
    s.Accounted b teams := by
  induction h with
  | refl => exact accounted_initial b teams
  | tail _ hmove ih => exact hmove.accounted ih

theorem sweep_waiting (s : State) (teams : List String) :
    sweep { s with waiting := teams } = { s.sweep with waiting := teams } := by
  rw [sweep, sweep]
  by_cases hc : s.cancelled = true
  · rw [if_pos hc, if_pos hc]
  · rw [if_neg hc, if_neg hc]

/-- A turn does not depend on who else waits. -/
theorem start_waiting (b : Bounds) (directory : Directory) (s : State)
    (team : String) (teams : List String) :
    start b directory { s with waiting := teams } team =
      { s.start b directory team with waiting := teams } := by
  by_cases hclosed : s.Closed b
  · rw [start_of_closed hclosed,
      start_of_closed (s := { s with waiting := teams }) hclosed]
    rfl
  · rw [start_of_open hclosed,
      start_of_open (s := { s with waiting := teams }) hclosed]
    by_cases hdelay : (directory team).delay = 0
    · rw [if_pos hdelay, if_pos hdelay, ← sweep_waiting]
      rfl
    · rw [if_neg hdelay, if_neg hdelay]
      rfl

theorem moment_startAll
    (h : Moment b directory teams { s with waiting := rest }) :
    Moment b directory teams (s.startAll b directory rest) := by
  induction rest generalizing s with
  | nil => exact h
  | cons team rest ih =>
      rw [startAll]
      split
      · next hroom =>
          refine ih (h.tail ?_)
          have hstart :=
            @Move.start b directory { s with waiting := team :: rest } _ _ rfl
              hroom
          rwa [start_waiting] at hstart
      · exact h

theorem Moment.fill (h : Moment b directory teams s) :
    Moment b directory teams (s.fill b directory) :=
  moment_startAll h

/-! ## Rest -/

/-- The work of an instant is done, and time leaps next if anything is in
flight. -/
inductive Rests (b : Bounds) (directory : Directory) (teams : List String) :
    State → Prop
  | first : Rests b directory teams ((initial b teams).fill b directory)
  | next {s t : State} : Rests b directory teams s →
      s.advance b directory = some t → Rests b directory teams t

theorem Rests.full (h : Rests b directory teams s) : s.Full b := by
  cases h with
  | first => exact full_startAll _
  | next _ hstep =>
      unfold advance at hstep
      split at hstep
      · cases hstep
      · obtain rfl := Option.some.inj hstep
        exact full_startAll _

theorem Rests.moment (h : Rests b directory teams s) :
    Moment b directory teams s := by
  induction h with
  | first => exact Moment.fill .refl
  | next _ hstep ih =>
      unfold advance at hstep
      split at hstep
      · cases hstep
      · next f others hs =>
          obtain rfl := Option.some.inj hstep
          exact Moment.fill (ih.tail (.leap hs))

theorem Rests.run (h : Rests b directory teams s) :
    Rests b directory teams (s.run b directory) := by
  fun_induction State.run with
  | case1 s _ => exact h
  | case2 s later hstep ih => exact ih (h.next hstep)

theorem rests_final (b : Bounds) (directory : Directory)
    (teams : List String) :
    Rests b directory teams (final b directory teams) :=
  Rests.first.run

end Signoff.Resolution.State
