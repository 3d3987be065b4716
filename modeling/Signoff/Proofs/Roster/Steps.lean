import Mathlib.Data.ENat.Lattice
import Signoff.Roster.Resolution

/-!
# What a resolution does at one instant

The two ways to cut a resolution short are brought to one time, the cut, and
each instant lies before it or not. Before the cut a resolution only does what
the directory's replies and the free slots call for, and from the cut on it
settles whatever is left, all of it for the same reason. The lemmas below give
the state after each kind of work in full, in either case.

They are about directories that do not call off the resolution themselves, so
that the only cancellation is the one from outside. A state is `Synced` when its
flag tells just that, and `Orderly` when no instant has gone by at which there
would have been work to do.
-/

namespace Signoff.Resolution

open Roster (Status Gap)

/-! ## The cut -/

/-- A time that may be missing, in which case it never comes. -/
def instant (time? : Option Nat) : ℕ∞ := time?.elim ⊤ Nat.cast

theorem le_instant_iff {time? : Option Nat} {now : Nat} :
    now ≤ instant time? ↔ ∀ t ∈ time?, now ≤ t := by
  cases time? with
  | none => simp [instant]
  | some t => simp [instant]

theorem instant_le_iff {time? : Option Nat} {now : Nat} :
    instant time? ≤ now ↔ time?.any (· ≤ now) = true := by
  cases time? with
  | none => simp [instant]
  | some t => simp [instant]

namespace Bounds

/-- The time from which on nothing is answered any more. -/
def cut (b : Bounds) : ℕ∞ :=
  if instant b.cancelAt? ≤ instant b.deadline? then instant b.cancelAt?
  else instant b.deadline?

/-- Why teams are cut off. -/
def gap (b : Bounds) : Gap :=
  if instant b.cancelAt? ≤ instant b.deadline? then .cancelled
  else .deadlineExceeded

/-- What becomes of a team whose reply is due at a time. -/
def status (b : Bounds) (due : Nat) (reply : Reply) : Status :=
  if (due : ℕ∞) < b.cut then .ofAnswer reply.answer else .unknown b.gap

theorem cut_eq_min (b : Bounds) :
    b.cut = min (instant b.cancelAt?) (instant b.deadline?) :=
  (min_def _ _).symm

theorem status_of_lt {b : Bounds} {due : Nat} (h : (due : ℕ∞) < b.cut)
    (reply : Reply) : b.status due reply = .ofAnswer reply.answer := if_pos h

theorem status_of_le {b : Bounds} {due : Nat} (h : b.cut ≤ due)
    (reply : Reply) : b.status due reply = .unknown b.gap := if_neg (not_lt.2 h)

end Bounds

namespace State

variable {b : Bounds} {directory : Directory} {s : State}

/-- The resolution is cancelled if and only if it was, from outside, by now. -/
def Synced (b : Bounds) (s : State) : Prop :=
  s.cancelled = b.cancelAt?.any (· ≤ s.now)

/-- The cut has not gone by, no question has been left open past the time of its
reply, and no reply calls off the resolution. -/
structure Orderly (b : Bounds) (directory : Directory) (s : State) : Prop where
  synced : s.Synced b
  now_le_cut : s.now ≤ b.cut
  now_le_due : ∀ f ∈ s.inFlight, s.now ≤ f.due
  length_le : s.inFlight.length ≤ b.slots
  quiet_inFlight : ∀ f ∈ s.inFlight, f.reply.cancels = false
  quiet_waiting : ∀ team ∈ s.waiting, (directory team).cancels = false

theorem before_cut (hsync : s.Synced b) (h : (s.now : ℕ∞) < b.cut) :
    s.cancelled = false ∧ s.expired b = false := by
  rw [Bounds.cut_eq_min] at h
  obtain ⟨hc, hd⟩ := lt_min_iff.1 h
  refine ⟨?_, ?_⟩
  · rw [Synced] at hsync
    rw [hsync, ← Bool.not_eq_true, ← instant_le_iff]
    exact not_le.2 hc
  · rw [expired, ← Bool.not_eq_true, ← instant_le_iff]
    exact not_le.2 hd

/-- From the cut on, a team is settled as cancelled if the flag is set, and for
the deadline otherwise. At the cut itself that is the reason for the cut. -/
theorem at_cut (hsync : s.Synced b) (h : (s.now : ℕ∞) = b.cut) :
    (s.cancelled = true ∧ b.gap = .cancelled) ∨
      (s.cancelled = false ∧ s.expired b = true ∧
        b.gap = .deadlineExceeded) := by
  rw [Synced] at hsync
  have hflag : s.cancelled = true ↔
      instant b.cancelAt? ≤ instant b.deadline? := by
    rw [hsync, ← instant_le_iff, h, Bounds.cut_eq_min, le_min_iff]
    exact and_iff_right le_rfl
  by_cases hle : instant b.cancelAt? ≤ instant b.deadline?
  · exact Or.inl ⟨hflag.2 hle, if_pos hle⟩
  · refine Or.inr ⟨by simpa using fun hc => hle (hflag.1 hc), ?_, if_neg hle⟩
    rw [expired, ← instant_le_iff, h, Bounds.cut, if_neg hle]

/-! ## Before the cut -/

theorem complete_quiet {reply : Reply} (hquiet : reply.cancels = false)
    (team : String) :
    s.complete team reply = s.record team (.ofAnswer reply.answer) := by
  simp [complete, record, hquiet]

theorem sweep_of_not_cancelled (h : s.cancelled = false) : s.sweep = s := by
  simp [sweep, h]

theorem foldl_poll_before (hc : s.cancelled = false) (he : s.expired b = false)
    {flights : List Flight} (hquiet : ∀ f ∈ flights, f.reply.cancels = false) :
    flights.foldl (poll b) s =
      { s with
        inFlight := s.inFlight ++ flights.filter fun f => s.now < f.due
        settled := s.settled ++ (flights.filter fun f => f.due ≤ s.now).map
          fun f => (f.team, .ofAnswer f.reply.answer) } := by
  induction flights generalizing s with
  | nil => simp
  | cons f flights ih =>
      have hf := hquiet f List.mem_cons_self
      have hrest : ∀ g ∈ flights, g.reply.cancels = false :=
        fun g hg => hquiet g (List.mem_cons_of_mem f hg)
      rw [List.foldl_cons, poll, if_neg (Bool.not_eq_true _ ▸ hc),
        if_neg (Bool.not_eq_true _ ▸ he)]
      by_cases hdue : f.due ≤ s.now
      · rw [if_pos hdue, complete_quiet hf, ih (s := s.record _ _) hc he hrest]
        simp only [record, List.filter_cons, hdue, Nat.not_lt.2 hdue,
          decide_true, decide_false, if_true, List.map_cons, List.append_assoc]
        rfl
      · rw [if_neg hdue,
          ih (s := { s with inFlight := s.inFlight ++ [f] }) hc he hrest]
        simp [hdue, Nat.lt_of_not_le hdue]

/-- The flights that are over by now. -/
def landed (s : State) : List Flight := s.inFlight.filter fun f => f.due ≤ s.now

/-- The flights that go on. -/
def aloft (s : State) : List Flight := s.inFlight.filter fun f => s.now < f.due

theorem mem_landed_iff {f : Flight} :
    f ∈ s.landed ↔ f ∈ s.inFlight ∧ f.due ≤ s.now := by
  rw [landed, List.mem_filter, decide_eq_true_eq]

theorem mem_aloft_iff {f : Flight} :
    f ∈ s.aloft ↔ f ∈ s.inFlight ∧ s.now < f.due := by
  rw [aloft, List.mem_filter, decide_eq_true_eq]

theorem perm_inFlight (s : State) : s.inFlight.Perm (s.landed ++ s.aloft) := by
  have hperm := List.filter_append_perm (fun f => f.due ≤ s.now) s.inFlight
  simp only [← decide_not, Nat.not_le] at hperm
  exact hperm.symm

theorem settle_before (h : s.Orderly b directory) (hlt : s.now < b.cut) :
    s.settle b =
      { s with
        inFlight := s.aloft
        settled := s.settled ++
          s.landed.map fun f => (f.team, .ofAnswer f.reply.answer) } := by
  obtain ⟨hc, he⟩ := before_cut h.synced hlt
  rw [settle, foldl_poll_before (s := { s with inFlight := [] }) hc he
    h.quiet_inFlight, sweep_of_not_cancelled]
  · simp [landed, aloft]
  · exact hc

theorem start_before {team : String} {teams : List String}
    (h : Orderly b directory { s with waiting := team :: teams })
    (hlt : s.now < b.cut) :
    s.start b directory team =
      if (directory team).delay = 0 then
        { s with
          begun := s.begun ++ [(team, s.now)]
          settled := s.settled ++ [(team, .ofAnswer (directory team).answer)] }
      else
        { s with
          begun := s.begun ++ [(team, s.now)]
          inFlight := s.inFlight ++
            [⟨team, s.now + (directory team).delay, directory team⟩] } := by
  obtain ⟨hc, he⟩ := before_cut (s := s) h.synced hlt
  have hquiet := h.quiet_waiting team List.mem_cons_self
  rw [start, if_neg (Bool.not_eq_true _ ▸ hc), if_neg (Bool.not_eq_true _ ▸ he)]
  dsimp only
  split
  · rw [complete_quiet hquiet, sweep_of_not_cancelled]
    · rfl
    · exact hc
  · rfl

/-! ## At the cut -/

theorem foldl_poll_cut (hsync : s.Synced b) (h : (s.now : ℕ∞) = b.cut)
    (flights : List Flight) :
    flights.foldl (poll b) s =
      { s with
        settled :=
          s.settled ++ flights.map fun f => (f.team, .unknown b.gap) } := by
  induction flights generalizing s with
  | nil => simp
  | cons f flights ih =>
      have hpoll : s.poll b f = s.record f.team (.unknown b.gap) := by
        rcases at_cut hsync h with ⟨hc, hgap⟩ | ⟨hc, he, hgap⟩
        · simp [poll, hc, hgap]
        · simp [poll, hc, he, hgap]
      rw [List.foldl_cons, hpoll, ih (s := s.record _ _) hsync h]
      simp [record]

theorem settle_cut (hsync : s.Synced b) (h : (s.now : ℕ∞) = b.cut) :
    s.settle b =
      { s with
        inFlight := []
        settled := s.settled ++
          s.inFlight.map fun f => (f.team, .unknown b.gap) } := by
  rw [settle, foldl_poll_cut (s := { s with inFlight := [] }) hsync h, sweep]
  split
  · simp
  · rfl

theorem startAll_cut (hsync : s.Synced b) (h : (s.now : ℕ∞) = b.cut)
    (hidle : s.inFlight = []) (teams : List String) :
    s.startAll b directory teams =
      { s with
        waiting := []
        settled :=
          s.settled ++ teams.map fun team => (team, .unknown b.gap) } := by
  induction teams generalizing s with
  | nil => simp [startAll]
  | cons team teams ih =>
      have hstart :
          s.start b directory team = s.record team (.unknown b.gap) := by
        rcases at_cut hsync h with ⟨hc, hgap⟩ | ⟨hc, he, hgap⟩
        · simp [start, hc, hgap]
        · simp [start, hc, he, hgap]
      have hroom : s.inFlight.length < b.slots := by
        rw [hidle]
        exact b.slots_pos
      rw [startAll, if_pos hroom, hstart, ih (s := s.record _ _) hsync h hidle]
      simp [record]

end State

end Signoff.Resolution
