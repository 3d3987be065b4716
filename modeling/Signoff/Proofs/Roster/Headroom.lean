import Signoff.Proofs.Roster.Completeness

/-!
# More slots and more time

Teams that start earlier can be in the way of others, so it is not plain that
more slots do no harm. They do none because every team takes the slot that is
free first, whichever that is. All that counts of the slots is how many of them
are free by each time, and if these are no fewer at first, they are no fewer
after each booking (`NoFewerFree.take`). So no booking is later, and with a
deadline that is no earlier either, whoever was answered for in time still is,
and by the same answer.
-/

namespace Signoff

namespace Schedule

variable {delay : String → Nat} {free free' : List Nat} {first first' : Nat}

/-- By any time, as many slots are free in the second list. -/
def NoFewerFree (free free' : List Nat) : Prop :=
  ∀ t, free.countP (· ≤ t) ≤ free'.countP (· ≤ t)

theorem noFewerFree_replicate {slots slots' : Nat} (h : slots ≤ slots')
    (start : Nat) :
    NoFewerFree (List.replicate slots start) (List.replicate slots' start) := by
  intro t
  simp only [List.countP_replicate]
  split
  · exact h
  · exact Nat.le_refl 0

theorem countP_eq_of_min? (hfirst : free.min? = some first) (t : Nat) :
    free.countP (· ≤ t) =
      (free.erase first).countP (· ≤ t) + if first ≤ t then 1 else 0 := by
  have hmem := (List.min?_eq_some_iff.1 hfirst).1
  rw [(List.perm_cons_erase hmem).countP_eq, List.countP_cons]
  simp only [decide_eq_true_eq]

theorem countP_eq_zero_of_lt_min? (hfirst : free.min? = some first) {t : Nat}
    (ht : t < first) : free.countP (· ≤ t) = 0 := by
  rw [List.countP_eq_zero]
  intro u hu
  have hle := (List.min?_eq_some_iff.1 hfirst).2 u hu
  simpa using Nat.lt_of_lt_of_le ht hle

namespace NoFewerFree

theorem exists_min? (h : NoFewerFree free free')
    (hfirst : free.min? = some first) :
    ∃ first', free'.min? = some first' ∧ first' ≤ first := by
  have hmem := (List.min?_eq_some_iff.1 hfirst).1
  have hsome : 0 < free.countP (· ≤ first) :=
    List.countP_pos_iff.2 ⟨first, hmem, by simp⟩
  obtain ⟨u, hu, hle⟩ :=
    List.countP_pos_iff.1 (Nat.lt_of_lt_of_le hsome (h first))
  obtain ⟨first', hfirst'⟩ := Option.isSome_iff_exists.1
    (List.isSome_min?_of_ne_nil (List.ne_nil_of_mem hu))
  refine ⟨first', hfirst', ?_⟩
  exact Nat.le_trans ((List.min?_eq_some_iff.1 hfirst').2 u hu)
    (of_decide_eq_true hle)

/-- Taking the first slot for as long leaves as many free by any time. -/
theorem take (h : NoFewerFree free free') (hfirst : free.min? = some first)
    (hfirst' : free'.min? = some first') (hle : first' ≤ first)
    (duration : Nat) :
    NoFewerFree ((first + duration) :: free.erase first)
      ((first' + duration) :: free'.erase first') := by
  intro t
  have hfree := h t
  have hcount := countP_eq_of_min? hfirst t
  have hcount' := countP_eq_of_min? hfirst' t
  simp only [List.countP_cons, decide_eq_true_eq]
  by_cases ht : first ≤ t
  · -- Both first slots are gone by now, and the second may be back before.
    rw [if_pos ht] at hcount
    rw [if_pos (Nat.le_trans hle ht)] at hcount'
    split <;> split <;> omega
  · have hnone := countP_eq_zero_of_lt_min? hfirst (Nat.lt_of_not_le ht)
    rw [if_neg (by omega)]
    omega

end NoFewerFree

/-- The same team is booked, and no later. -/
structure NoLater (k k' : Booking) : Prop where
  team : k'.team = k.team
  start : k'.start ≤ k.start
  finish : k'.finish ≤ k.finish

theorem exists_noLater_book (h : NoFewerFree free free') (hne : free ≠ [])
    {teams : List String} {k : Booking} (hk : k ∈ book delay free teams) :
    ∃ k' ∈ book delay free' teams, NoLater k k' := by
  induction teams generalizing free free' with
  | nil => cases hk
  | cons team teams ih =>
      obtain ⟨first, hfirst⟩ :=
        Option.isSome_iff_exists.1 (List.isSome_min?_of_ne_nil hne)
      obtain ⟨first', hfirst', hle⟩ := h.exists_min? hfirst
      simp only [book, hfirst, hfirst', Option.getD_some] at hk ⊢
      rcases List.mem_cons.1 hk with rfl | hk
      · exact ⟨_, List.mem_cons_self, rfl, hle, Nat.add_le_add_right hle _⟩
      · obtain ⟨k', hk', hlater⟩ :=
          ih (h.take hfirst hfirst' hle _) (List.cons_ne_nil _ _) hk
        exact ⟨k', List.mem_cons_of_mem _ hk', hlater⟩

theorem exists_noLater_ofTeams {slots slots' : Nat} (hpos : 0 < slots)
    (h : slots ≤ slots') {directory : Directory} {teams : List String}
    {k : Booking} (hk : k ∈ ofTeams slots directory teams) :
    ∃ k' ∈ ofTeams slots' directory teams, NoLater k k' := by
  refine exists_noLater_book (noFewerFree_replicate h 0) ?_ hk
  simpa using Nat.ne_of_gt hpos

end Schedule

/-! ## Limits that leave more room -/

/-- The length of the span. -/
def Span.inNanoseconds (s : Span) : Nat :=
  s.seconds * nanosecondsPerSecond + s.nanoseconds

theorem Span.milliseconds_le {span span' : Span}
    (h : span.inNanoseconds ≤ span'.inNanoseconds) :
    span.milliseconds ≤ span'.milliseconds :=
  Nat.div_le_div_right (Nat.add_le_add_right h _)

/-- There are as many slots, and as much time if that has an end at all. -/
structure Limits.Widens (limits' limits : Limits) : Prop where
  slots : limits.slots ≤ limits'.slots
  timeout : ∀ span' ∈ limits'.timeout?, ∃ span ∈ limits.timeout?,
    span.inNanoseconds ≤ span'.inNanoseconds

namespace Resolution

open Roster (Status)

theorem instant_le_of_widens {limits limits' : Limits}
    (h : limits'.Widens limits) :
    instant (limits.timeout?.map Span.milliseconds) ≤
      instant (limits'.timeout?.map Span.milliseconds) := by
  cases htimeout' : limits'.timeout? with
  | none => exact le_top
  | some span' =>
      obtain ⟨span, htimeout, hle⟩ := h.timeout span' htimeout'
      rw [Option.mem_def] at htimeout
      rw [htimeout]
      exact Nat.cast_le.2 (Span.milliseconds_le hle)

theorem ofAnswer_ne_deadlineExceeded (answer : Except Roster.Failure Roster) :
    Status.ofAnswer answer ≠ .unknown .deadlineExceeded := by
  cases answer <;> simp [Status.ofAnswer]

namespace Bounds

variable {b b' : Bounds} {due due' : Nat} {reply : Reply}

theorem cut_of_uncancelled (h : b.cancelAt? = none) :
    b.cut = instant b.deadline? := by
  rw [cut_eq_min, h]
  exact min_eq_right le_top

theorem status_ne_deadlineExceeded_iff (h : b.cancelAt? = none) :
    b.status due reply ≠ .unknown .deadlineExceeded ↔ due < b.cut := by
  rcases lt_or_ge (due : ℕ∞) b.cut with hlt | hge
  · rw [status_of_lt hlt]
    exact iff_of_true (ofAnswer_ne_deadlineExceeded _) hlt
  · refine iff_of_false (not_not.2 ?_) (not_lt.2 hge)
    have hcut := cut_of_uncancelled h
    rw [hcut] at hge
    rw [status_of_le (hcut ▸ hge), gap, if_neg]
    rw [h]
    exact fun htop =>
      absurd (htop.trans hge) (not_le.2 (ENat.natCast_lt_top due))

/-- A reply that is in time still is when it is due earlier and the cut is
later. -/
theorem status_of_widens (h : b.cancelAt? = none) (hcut : b.cut ≤ b'.cut)
    (hdue : due' ≤ due)
    (hstatus : b.status due reply ≠ .unknown .deadlineExceeded) :
    b'.status due' reply = b.status due reply := by
  have hlt := (status_ne_deadlineExceeded_iff h).1 hstatus
  rw [status_of_lt hlt]
  exact status_of_lt ((Nat.cast_le.2 hdue).trans_lt (hlt.trans_le hcut)) reply

end Bounds

variable {b b' : Bounds} {directory : Directory} {teams : List String}

theorem get?_resolve_of_widens
    (hquiet : ∀ team ∈ teams, (directory team).cancels = false)
    (hcancel : b.cancelAt? = none) (hslots : b.slots ≤ b'.slots)
    (hcut : b.cut ≤ b'.cut) {team : String} {status : Status}
    (hget : (resolve b directory teams).table.get? team = some status)
    (hstatus : status ≠ .unknown .deadlineExceeded) :
    (resolve b' directory teams).table.get? team = some status := by
  rw [RosterTable.get?_eq_some_iff, entries_resolve hquiet] at hget ⊢
  obtain ⟨k, hk, heq⟩ := List.mem_map.1 hget
  obtain ⟨rfl, rfl⟩ := Prod.mk.inj heq
  obtain ⟨k', hk', hlater⟩ :=
    Schedule.exists_noLater_ofTeams b.slots_pos hslots hk
  refine List.mem_map.2 ⟨k', hk', ?_⟩
  rw [hlater.team, Bounds.status_of_widens hcancel hcut hlater.finish hstatus]

end Resolution

namespace Directory

open Resolution (Bounds resolve)

/-- Whoever is not given up at the deadline has the same status under wider
limits, so no more teams are given up under these. -/
theorem lookUp_of_widens [Clock] {directory : Directory}
    {limits limits' : Limits} {teams : List String}
    (hquiet : ∀ team ∈ teams, (directory team).cancels = false)
    (hwidens : limits'.Widens limits)
    (hclock : ∀ span ∈ limits.timeout?, Clock.Reaches span)
    (hclock' : ∀ span ∈ limits'.timeout?, Clock.Reaches span) :
    ∃ r r', lookUp (some directory) limits none teams = .ok (some r) ∧
      lookUp (some directory) limits' none teams = .ok (some r') ∧
      r.table.teams = ascending teams ∧ r'.table.teams = ascending teams ∧
      (∀ team status, r.table.get? team = some status →
        status ≠ .unknown .deadlineExceeded →
        r'.table.get? team = some status) ∧
      ∀ team, r'.table.get? team = some (.unknown .deadlineExceeded) →
        r.table.get? team = some (.unknown .deadlineExceeded) := by
  let b : Bounds := ⟨limits.slots, Nat.le_max_right _ _,
    limits.timeout?.map Span.milliseconds, none⟩
  let b' : Bounds := ⟨limits'.slots, Nat.le_max_right _ _,
    limits'.timeout?.map Span.milliseconds, none⟩
  have hcut : b.cut ≤ b'.cut := by
    rw [Bounds.cut_of_uncancelled rfl, Bounds.cut_of_uncancelled rfl]
    exact Resolution.instant_le_of_widens hwidens
  have hkept : ∀ team status,
      (resolve b directory teams).table.get? team = some status →
      status ≠ .unknown .deadlineExceeded →
      (resolve b' directory teams).table.get? team = some status :=
    fun _ _ => Resolution.get?_resolve_of_widens hquiet rfl hwidens.slots hcut
  have hteams := Resolution.teams_resolve b directory teams
  have hteams' := Resolution.teams_resolve b' directory teams
  refine ⟨_, _, lookUp_eq_ok hclock directory none teams,
    lookUp_eq_ok hclock' directory none teams, hteams, hteams', hkept, ?_⟩
  intro team hlate
  have hmem : team ∈ (resolve b directory teams).table.teams := by
    rw [hteams, ← hteams']
    exact RosterTable.mem_teams_iff.2 ⟨_, hlate⟩
  obtain ⟨status, hget⟩ := RosterTable.mem_teams_iff.1 hmem
  by_cases hstatus : status = .unknown .deadlineExceeded
  · exact hstatus ▸ hget
  · -- What is not given up is kept, and here it would have to be given up.
    have hsame := (hkept team status hget hstatus).symm.trans hlate
    exact absurd (Option.some.inj hsame) hstatus

/-- Of three teams that take five milliseconds each, the first is answered for
within 7.5 in one slot, and so it is in two slots and without an end. -/
theorem lookUp_of_widens_second_slot :
    let slow : Directory := fun team => .after 5 (.ok ⟨team, ["ann"]⟩) false
    let limits : Limits := ⟨0, some ⟨0, 7500000⟩⟩
    let limits' : Limits := ⟨2, none⟩
    let teams := ["web", "core", "docs"]
    (∀ team ∈ teams, (slow team).cancels = false) ∧ limits'.Widens limits ∧
      (∀ span ∈ limits.timeout?, Clock.Reaches span) ∧
      (∀ span ∈ limits'.timeout?, Clock.Reaches span) ∧
      ∃ r r', lookUp (some slow) limits none teams = .ok (some r) ∧
        lookUp (some slow) limits' none teams = .ok (some r') ∧
        r.table.entries = [("core", .known ["ann"]),
          ("docs", .unknown .deadlineExceeded),
          ("web", .unknown .deadlineExceeded)] ∧
        r'.table.get? "core" = some (.known ["ann"]) := by
  intro slow limits limits' teams
  have hquiet : ∀ team ∈ teams, (slow team).cancels = false := fun _ _ => rfl
  have hwidens : limits'.Widens limits := ⟨by decide, by simp [limits']⟩
  have hclock : ∀ span ∈ limits.timeout?, Clock.Reaches span := by
    decide
  have hclock' : ∀ span ∈ limits'.timeout?, Clock.Reaches span := by
    decide
  obtain ⟨r, r', hr, hr', _, _, hkept, _⟩ :=
    lookUp_of_widens hquiet hwidens hclock hclock'
  have hentries : r.table.entries = [("core", .known ["ann"]),
      ("docs", .unknown .deadlineExceeded),
      ("web", .unknown .deadlineExceeded)] := by
    rw [lookUp_eq_ok hclock] at hr
    obtain rfl := Option.some.inj (Except.ok.inj hr)
    rw [Resolution.entries_resolve hquiet]
    decide
  refine ⟨hquiet, hwidens, hclock, hclock', r, r', hr, hr', hentries, ?_⟩
  refine hkept "core" _ ?_ (by decide)
  rw [RosterTable.get?_eq_some_iff, hentries]
  exact List.mem_cons_self

end Directory

end Signoff
