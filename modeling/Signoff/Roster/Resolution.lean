import Signoff.Ascending
import Signoff.Roster.Directory
import Signoff.Roster.Limits
import Signoff.Roster.Table

/-!
# Resolutions

A resolution asks a directory about a number of teams. It has a fixed number of
slots and starts the teams in ascending order, each as soon as a slot is free.
It can be cut short by a deadline and by a cancellation, which comes from
outside at a fixed time or from inside with a reply. A team that is cut off gets
that as its status, so a resolution ends with a status for every team.

Time stands still while a `State` works: at each instant it settles what is due,
in the order in which it was started, and then starts what there is room for.
Then time leaps to the next instant at which anything is due
(`State.nextInstant`). Each leap settles at least one team
(`outstanding_advance_lt`), which is why the resolution ends.

At any instant a cancellation is seen before the deadline and the deadline
before a reply. A reply that is due at the deadline is too late, and a team
whose turn comes at the deadline or after a cancellation is settled without a
question to the directory.
-/

namespace Signoff

namespace Resolution

open Roster (Status)

/-- What bounds a resolution, as times in milliseconds from its start. -/
structure Bounds where
  /-- The number of slots. -/
  slots : Nat
  slots_pos : 0 < slots
  deadline? : Option Nat
  /-- The time of the cancellation from outside. -/
  cancelAt? : Option Nat

/-- A question that is not answered yet. -/
structure Flight where
  team : String
  /-- The time at which the reply is due. -/
  due : Nat
  reply : Reply

structure State where
  now : Nat
  cancelled : Bool
  /-- The teams whose turn has not come, in order. -/
  waiting : List String
  /-- The open questions in the order in which they were started. -/
  inFlight : List Flight
  /-- The statuses so far, in the order in which they were settled. -/
  settled : List (String × Status)
  /-- The teams that the directory has been asked about, and when. -/
  begun : List (String × Nat)

namespace State

def record (s : State) (team : String) (status : Status) : State :=
  { s with settled := s.settled ++ [(team, status)] }

/-- Settles a team with what the directory says. -/
def complete (s : State) (team : String) (reply : Reply) : State :=
  { s.record team (.ofAnswer reply.answer) with
    cancelled := s.cancelled || reply.cancels }

/-- After a cancellation nothing stays in flight. -/
def sweep (s : State) : State :=
  if s.cancelled then
    { s with
      inFlight := []
      settled := s.settled ++
        s.inFlight.map fun f => (f.team, .unknown .cancelled) }
  else s

/-- Is it the deadline, or later? -/
def expired (b : Bounds) (s : State) : Bool := b.deadline?.any (· ≤ s.now)

/-- Settles a flight if it is to be settled now, and else keeps it in flight. -/
def poll (b : Bounds) (s : State) (f : Flight) : State :=
  if s.cancelled then s.record f.team (.unknown .cancelled)
  else if s.expired b then s.record f.team (.unknown .deadlineExceeded)
  else if f.due ≤ s.now then s.complete f.team f.reply
  else { s with inFlight := s.inFlight ++ [f] }

/-- Settles all that is due. -/
def settle (b : Bounds) (s : State) : State :=
  (s.inFlight.foldl (poll b) { s with inFlight := [] }).sweep

/-- The turn of a team. -/
def start (b : Bounds) (directory : Directory) (s : State) (team : String) :
    State :=
  if s.cancelled then s.record team (.unknown .cancelled)
  else if s.expired b then s.record team (.unknown .deadlineExceeded)
  else
    let reply := directory team
    let s := { s with begun := s.begun ++ [(team, s.now)] }
    if reply.delay = 0 then (s.complete team reply).sweep
    else
      { s with inFlight := s.inFlight ++ [⟨team, s.now + reply.delay, reply⟩] }

/-- Starts teams for as long as there is a free slot. The others go on waiting.
-/
def startAll (b : Bounds) (directory : Directory) (s : State) :
    List String → State
  | [] => { s with waiting := [] }
  | team :: teams =>
      if s.inFlight.length < b.slots then
        startAll b directory (s.start b directory team) teams
      else { s with waiting := team :: teams }

/-- Starts what there is room for. -/
def fill (b : Bounds) (directory : Directory) (s : State) : State :=
  s.startAll b directory s.waiting

/-- The earliest time at which anything can be due while the flight is open. -/
def nextInstant (b : Bounds) (f : Flight) (others : List Flight) : Nat :=
  (others.map Flight.due ++ b.deadline?.toList ++ b.cancelAt?.toList).foldl
    min f.due

/-- Lets time leap to an instant. -/
def leap (b : Bounds) (s : State) (instant : Nat) : State :=
  { s with
    now := instant
    cancelled := s.cancelled || b.cancelAt?.any (· ≤ instant) }

/-- Goes to the next instant and does all that is to be done then. Without an
open question there is no next instant, and the resolution is over. -/
def advance (b : Bounds) (directory : Directory) (s : State) : Option State :=
  match s.inFlight with
  | [] => none
  | f :: others =>
      some (((s.leap b (nextInstant b f others)).settle b).fill b directory)

/-- The teams that have no status yet. -/
def outstanding (s : State) : Nat := s.inFlight.length + s.waiting.length

/-! ## The resolution ends -/

theorem now_poll (b : Bounds) (s : State) (f : Flight) :
    (s.poll b f).now = s.now := by
  unfold poll
  repeat' split
  all_goals rfl

theorem waiting_poll (b : Bounds) (s : State) (f : Flight) :
    (s.poll b f).waiting = s.waiting := by
  unfold poll
  repeat' split
  all_goals rfl

/-- The flight does not stay open when it is polled. -/
def Settles (b : Bounds) (s : State) (f : Flight) : Prop :=
  s.cancelled = true ∨ s.expired b = true ∨ f.due ≤ s.now

/-- What is to be settled is still to be settled after another flight has been
polled. -/
theorem Settles.poll {b : Bounds} {s : State} {f : Flight}
    (h : s.Settles b f) (g : Flight) : (s.poll b g).Settles b f := by
  rcases h with h | h | h
  · exact .inl (by simp [State.poll, record, h])
  · exact .inr (.inl (by rw [expired, now_poll]; exact h))
  · exact .inr (.inr (by rw [now_poll]; exact h))

theorem length_inFlight_poll_le (b : Bounds) (s : State) (f : Flight) :
    (s.poll b f).inFlight.length ≤ s.inFlight.length + 1 := by
  unfold poll
  repeat' split
  all_goals simp [record, complete]

theorem Settles.length_inFlight_poll {b : Bounds} {s : State} {f : Flight}
    (h : s.Settles b f) : (s.poll b f).inFlight.length = s.inFlight.length := by
  unfold State.poll
  split
  · rfl
  · next hc =>
      split
      · rfl
      · next he =>
          split
          · rfl
          · next hd => exact absurd h (by simp [Settles, hc, he, hd])

theorem waiting_foldl_poll (b : Bounds) (s : State) (l : List Flight) :
    (l.foldl (poll b) s).waiting = s.waiting := by
  induction l generalizing s with
  | nil => rfl
  | cons f l ih => rw [List.foldl_cons, ih, waiting_poll]

theorem length_foldl_poll_le (b : Bounds) (s : State) (l : List Flight) :
    (l.foldl (poll b) s).inFlight.length ≤ s.inFlight.length + l.length := by
  induction l generalizing s with
  | nil => exact Nat.le_refl _
  | cons f l ih =>
      have hf := length_inFlight_poll_le b s f
      have hl := ih (s.poll b f)
      rw [List.foldl_cons, List.length_cons]
      omega

theorem length_foldl_poll_lt {b : Bounds} {s : State} {l : List Flight}
    {f : Flight} (hf : f ∈ l) (h : s.Settles b f) :
    (l.foldl (poll b) s).inFlight.length < s.inFlight.length + l.length := by
  induction l generalizing s with
  | nil => cases hf
  | cons g l ih =>
      rw [List.foldl_cons, List.length_cons]
      rcases List.mem_cons.1 hf with rfl | hf
      · have hl := length_foldl_poll_le b (s.poll b f) l
        have hEq := h.length_inFlight_poll
        omega
      · have hg := length_inFlight_poll_le b s g
        have hl := ih hf (h.poll g)
        omega

theorem length_inFlight_sweep_le (s : State) :
    s.sweep.inFlight.length ≤ s.inFlight.length := by
  unfold sweep
  split <;> simp

theorem waiting_sweep (s : State) : s.sweep.waiting = s.waiting := by
  unfold sweep
  split <;> rfl

theorem length_inFlight_start_le (b : Bounds) (directory : Directory)
    (s : State) (team : String) :
    (s.start b directory team).inFlight.length ≤ s.inFlight.length + 1 := by
  unfold start
  split
  · simp [record]
  · split
    · simp [record]
    · dsimp only
      split
      · exact Nat.le_trans (length_inFlight_sweep_le _)
          (by simp [complete, record])
      · simp

theorem outstanding_startAll_le (b : Bounds) (directory : Directory) (s : State)
    (teams : List String) :
    (s.startAll b directory teams).outstanding ≤
      s.inFlight.length + teams.length := by
  induction teams generalizing s with
  | nil => simp [startAll, outstanding]
  | cons team teams ih =>
      rw [startAll]
      split
      · have hs := length_inFlight_start_le b directory s team
        have hl := ih (s.start b directory team)
        rw [List.length_cons]
        omega
      · simp [outstanding]

theorem foldl_min_eq_or_mem (a : Nat) (l : List Nat) :
    l.foldl min a = a ∨ l.foldl min a ∈ l := by
  induction l generalizing a with
  | nil => exact .inl rfl
  | cons b l ih =>
      rw [List.foldl_cons]
      rcases ih (min a b) with h | h
      · rcases Nat.le_total a b with hab | hab
        · exact .inl (by rw [h, Nat.min_eq_left hab])
        · exact .inr (by rw [h, Nat.min_eq_right hab]; exact List.mem_cons_self)
      · exact .inr (List.mem_cons_of_mem _ h)

theorem any_le_of_mem {n : Nat} {o : Option Nat} (h : n ∈ o) :
    o.any (· ≤ n) = true := by
  obtain rfl := Option.mem_def.1 h
  exact decide_eq_true (Nat.le_refl n)

/-- At the next instant a flight is to be settled. -/
theorem exists_settles_leap (b : Bounds) (s : State) (f : Flight)
    (others : List Flight) :
    ∃ g ∈ f :: others, (s.leap b (nextInstant b f others)).Settles b g := by
  have hself : f ∈ f :: others := List.mem_cons_self
  rcases foldl_min_eq_or_mem f.due
    (others.map Flight.due ++ b.deadline?.toList ++ b.cancelAt?.toList) with
    h | h
  · exact ⟨f, hself, .inr (.inr (Nat.le_of_eq h.symm))⟩
  · rw [List.mem_append, List.mem_append, List.mem_map] at h
    rcases h with (⟨g, hg, hEq⟩ | h) | h
    · exact ⟨g, List.mem_cons_of_mem _ hg, .inr (.inr (Nat.le_of_eq hEq))⟩
    · exact ⟨f, hself, .inr (.inl (any_le_of_mem (Option.mem_toList.1 h)))⟩
    · exact ⟨f, hself, .inl (Bool.or_eq_true_iff.2
        (.inr (any_le_of_mem (Option.mem_toList.1 h))))⟩

/-- Each leap settles a team. -/
theorem outstanding_advance_lt {b : Bounds} {directory : Directory}
    {s t : State} (h : s.advance b directory = some t) :
    t.outstanding < s.outstanding := by
  unfold advance at h
  split at h
  · cases h
  · next f others hs =>
      obtain rfl := Option.some.inj h
      obtain ⟨g, hg, hsettles⟩ := exists_settles_leap b s f others
      let later := s.leap b (nextInstant b f others)
      have hlt : (later.settle b).inFlight.length < s.inFlight.length := by
        refine Nat.lt_of_le_of_lt (length_inFlight_sweep_le _) ?_
        have hlt := length_foldl_poll_lt (s := { later with inFlight := [] })
          hg hsettles
        rw [List.length_nil, Nat.zero_add, ← hs] at hlt
        exact hlt
      have hwait : (later.settle b).waiting = s.waiting := by
        rw [settle, waiting_sweep, waiting_foldl_poll]
        rfl
      have hfill := outstanding_startAll_le b directory (later.settle b)
        (later.settle b).waiting
      rw [hwait] at hfill
      rw [fill, hwait]
      exact Nat.lt_of_le_of_lt hfill (Nat.add_lt_add_right hlt _)

/-- Goes on until nothing is in flight. -/
def run (b : Bounds) (directory : Directory) (s : State) : State :=
  match _h : s.advance b directory with
  | none => s
  | some later => run b directory later
termination_by s.outstanding
decreasing_by exact outstanding_advance_lt _h

/-- The state before any work is done: every team waits for its turn. -/
def initial (b : Bounds) (teams : List String) : State where
  now := 0
  cancelled := b.cancelAt? == some 0
  waiting := Signoff.ascending teams
  inFlight := []
  settled := []
  begun := []

end State

end Resolution

/-- What came of asking a directory about some teams. -/
structure Resolution where
  table : RosterTable
  /-- The teams that the directory was asked about, and when. -/
  begun : List (String × Nat)
  /-- The time at which the last team was settled. -/
  elapsed : Nat
  /-- Has the resolution been cancelled by then? -/
  cancelled : Bool

namespace Resolution

/-- The last state of a resolution of some teams. -/
def final (b : Bounds) (directory : Directory) (teams : List String) : State :=
  ((State.initial b teams).fill b directory).run b directory

/-- Asks a directory about some teams, each of them once. -/
def resolve (b : Bounds) (directory : Directory) (teams : List String) :
    Resolution :=
  let s := final b directory teams
  ⟨.ofList s.settled, s.begun, s.now, s.cancelled⟩

/-- The bounds that limits set from the start of a resolution on. -/
def Bounds.ofLimits [Clock] (limits : Limits) (cancelAt? : Option Nat) :
    Except Limits.Error Bounds := do
  let deadline? ← limits.deadline?
  return ⟨limits.slots, Nat.le_max_right _ _, deadline?, cancelAt?⟩

end Resolution

end Signoff
