import Signoff.Roster.Schedule

/-!
# Schedules and free slots

A schedule is determined by the times at which the slots become free, and the
order in which these are listed plays no part (`book_perm`). If `now` is the
earliest of them, the next team is booked from `now` on (`book_cons`), and no
booking begins earlier than that (`le_start_of_mem_book`).
-/

namespace Signoff.Schedule

variable {delay : String → Nat} {free free' : List Nat} {now : Nat}

theorem min?_eq_of_perm (h : free.Perm free') : free.min? = free'.min? := by
  cases hmin : free'.min? with
  | none =>
      rw [List.min?_eq_none_iff] at hmin ⊢
      rw [hmin] at h
      exact h.eq_nil
  | some t =>
      obtain ⟨hmem, hle⟩ := List.min?_eq_some_iff.1 hmin
      exact List.min?_eq_some_iff.2
        ⟨h.mem_iff.2 hmem, fun u hu => hle u (h.mem_iff.1 hu)⟩

theorem book_perm (h : free.Perm free') (teams : List String) :
    book delay free teams = book delay free' teams := by
  induction teams generalizing free free' with
  | nil => rfl
  | cons team teams ih =>
      simp only [book, min?_eq_of_perm h]
      rw [ih ((h.erase _).cons _)]

theorem book_cons (hmem : now ∈ free) (hle : ∀ t ∈ free, now ≤ t)
    (team : String) (teams : List String) :
    book delay free (team :: teams) =
      ⟨team, now, now + delay team⟩ ::
        book delay ((now + delay team) :: free.erase now) teams := by
  have hmin : free.min? = some now := List.min?_eq_some_iff.2 ⟨hmem, hle⟩
  simp only [book, hmin, Option.getD_some]

theorem map_team_book (teams : List String) :
    (book delay free teams).map Booking.team = teams := by
  induction teams generalizing free with
  | nil => rfl
  | cons team teams ih =>
      simp only [book, List.map_cons]
      rw [ih]

theorem finish_of_mem_book {teams : List String} {k : Booking}
    (hk : k ∈ book delay free teams) : k.finish = k.start + delay k.team := by
  induction teams generalizing free with
  | nil => cases hk
  | cons team teams ih =>
      simp only [book, List.mem_cons] at hk
      rcases hk with hk | hk
      · rw [hk]
      · exact ih hk

/-- No booking begins before a slot is free. -/
theorem le_start_of_mem_book {teams : List String} {k : Booking}
    (hne : free ≠ []) (hle : ∀ t ∈ free, now ≤ t)
    (hk : k ∈ book delay free teams) : now ≤ k.start := by
  induction teams generalizing free with
  | nil => cases hk
  | cons team teams ih =>
      obtain ⟨first, hfirst⟩ :=
        Option.isSome_iff_exists.1 (List.isSome_min?_of_ne_nil hne)
      have hfree := hle first (List.min?_eq_some_iff.1 hfirst).1
      simp only [book, hfirst, Option.getD_some, List.mem_cons] at hk
      rcases hk with hk | hk
      · rw [hk]
        exact hfree
      · refine ih (by simp) ?_ hk
        intro t ht
        rcases List.mem_cons.1 ht with ht | ht
        · omega
        · exact hle t (List.mem_of_mem_erase ht)

theorem map_team_ofTeams (slots : Nat) (directory : Directory)
    (teams : List String) :
    (ofTeams slots directory teams).map Booking.team = ascending teams :=
  map_team_book _

theorem foldl_max_le_iff {l : List Nat} {a t : Nat} :
    l.foldl max a ≤ t ↔ a ≤ t ∧ ∀ n ∈ l, n ≤ t := by
  induction l generalizing a with
  | nil => simp
  | cons n l ih =>
      rw [List.foldl_cons, ih, Nat.max_le, List.forall_mem_cons, and_assoc]

theorem makespan_le_iff {bookings : List Booking} {t : Nat} :
    makespan bookings ≤ t ↔ ∀ k ∈ bookings, k.finish ≤ t := by
  rw [makespan, foldl_max_le_iff]
  simp

end Signoff.Schedule
