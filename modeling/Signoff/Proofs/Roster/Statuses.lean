import Signoff.Proofs.Roster.Resolution

/-!
# What there is to know about teams

With no timeout and nobody who calls it off, a look-up finds out all there is to
find out: for each team what the directory answers, or that there is no
directory (`exists_lookUp_eq_statuses`). What it has about one team does not
depend on the others that it goes through, nor on the time that these take
(`get?_statuses_eq_some_iff`), so any two directories that answer alike will do
(`statuses_eq`).
-/

namespace Signoff.Directory

variable {directory? directory'? : Option Directory} {teams : List String}
  {team : String}

theorem exists_lookUp_of_unbounded [Clock] {directory : Directory}
    {limits : Limits}
    (hquiet : ∀ team ∈ teams, (directory team).cancels = false)
    (htimeout : limits.timeout? = none) :
    ∃ r, lookUp (some directory) limits none teams = .ok (some r) ∧
      r.table.entries = (ascending teams).map fun team =>
        (team, .ofAnswer (directory team).answer) := by
  refine ⟨_, ?_, Resolution.entries_resolve_of_unbounded
    (b := ⟨limits.slots, Nat.le_max_right _ _, none, none⟩) hquiet rfl rfl⟩
  rw [lookUp, Resolution.Bounds.ofLimits_eq_ok (by simp [htimeout]), htimeout]
  rfl

/-- What there is to know about a team, given time. -/
def statusOf (directory? : Option Directory) (team : String) : Roster.Status :=
  directory?.elim (.unknown .noDirectory) fun directory =>
    .ofAnswer (directory team).answer

/-- What there is to know about each of the teams. -/
def statuses (directory? : Option Directory) (teams : List String) :
    RosterTable where
  entries := (ascending teams).map fun team => (team, statusOf directory? team)
  ascending := List.pairwise_map.2 (isAscending_ascending teams)

theorem get?_statuses_eq_some_iff {status : Roster.Status} :
    (statuses directory? teams).get? team = some status ↔
      team ∈ teams ∧ statusOf directory? team = status := by
  rw [RosterTable.get?_eq_some_iff, statuses, List.mem_map]
  constructor
  · intro h
    obtain ⟨other, hother, heq⟩ := h
    obtain ⟨rfl, rfl⟩ := Prod.mk.inj heq
    exact ⟨mem_ascending.1 hother, rfl⟩
  · intro h
    obtain ⟨hteam, rfl⟩ := h
    exact ⟨team, mem_ascending.2 hteam, rfl⟩

theorem get?_statuses_of_subset {teams' : List String}
    (hteam : team ∈ teams) (hsub : teams ⊆ teams') :
    (statuses directory? teams).get? team =
      (statuses directory? teams').get? team := by
  rw [get?_statuses_eq_some_iff.2 ⟨hteam, rfl⟩,
    get?_statuses_eq_some_iff.2 ⟨hsub hteam, rfl⟩]

/-- Without a timeout and a cancellation all is found out, also that there is no
directory. -/
theorem exists_lookUp_eq_statuses [Clock] {limits : Limits}
    (hquiet : ∀ directory ∈ directory?, ∀ team,
      (directory team).cancels = false)
    (htimeout : limits.timeout? = none) (hteams : IsAscending teams) :
    ∃ resolution?, lookUp directory? limits none teams = .ok resolution? ∧
      (resolution?.map Resolution.table).getD (.withoutDirectory teams) =
        statuses directory? teams := by
  cases directory? with
  | none =>
      refine ⟨none, rfl, ?_⟩
      show RosterTable.withoutDirectory teams = statuses none teams
      rw [RosterTable.mk.injEq, RosterTable.entries_withoutDirectory hteams]
      simp only [statuses, ascending_eq_self hteams]
      rfl
  | some directory =>
      have hquiet' : ∀ team ∈ teams, (directory team).cancels = false :=
        fun team _ => hquiet directory rfl team
      obtain ⟨r, hlook, hentries⟩ := exists_lookUp_of_unbounded hquiet' htimeout
      refine ⟨some r, hlook, ?_⟩
      show r.table = statuses (some directory) teams
      rw [RosterTable.mk.injEq, hentries]
      rfl

/-! ## Directories that answer alike -/

/-- The directories say the same about each team, in their own time, and leave
it to others to call off a resolution. -/
def SaysSame (directory directory' : Directory) : Prop :=
  ∀ team, (directory team).answer = (directory' team).answer ∧
    (directory team).cancels = false ∧ (directory' team).cancels = false

theorem not_cancels (hdirectory : Option.Rel SaysSame directory? directory'?) :
    (∀ directory ∈ directory?, ∀ team, (directory team).cancels = false) ∧
      ∀ directory ∈ directory'?, ∀ team, (directory team).cancels = false := by
  cases hdirectory with
  | none => simp
  | some hsame => simpa using ⟨fun team => (hsame team).2.1,
      fun team => (hsame team).2.2⟩

theorem statuses_eq (hdirectory : Option.Rel SaysSame directory? directory'?) :
    statuses directory? = statuses directory'? := by
  have hstatus : statusOf directory? = statusOf directory'? := by
    funext team
    cases hdirectory with
    | none => rfl
    | some hsame => exact congrArg Roster.Status.ofAnswer (hsame team).1
  funext teams
  simp only [statuses, hstatus]

/-- What a look-up without a timeout finds out depends on the answers alone. -/
theorem table_lookUp_eq [Clock] {limits limits' : Limits}
    (hdirectory : Option.Rel SaysSame directory? directory'?)
    (htimeout : limits.timeout? = none) (htimeout' : limits'.timeout? = none)
    (teams : List String) :
    ∃ resolution? resolution'?,
      lookUp directory? limits none teams = .ok resolution? ∧
      lookUp directory'? limits' none teams = .ok resolution'? ∧
      resolution?.map Resolution.table = resolution'?.map Resolution.table := by
  cases hdirectory with
  | none => exact ⟨none, none, rfl, rfl, rfl⟩
  | some hsame =>
      have hquiet := fun team (_ : team ∈ teams) => (hsame team).2.1
      have hquiet' := fun team (_ : team ∈ teams) => (hsame team).2.2
      obtain ⟨r, hlook, hentries⟩ := exists_lookUp_of_unbounded hquiet htimeout
      obtain ⟨r', hlook', hentries'⟩ :=
        exists_lookUp_of_unbounded hquiet' htimeout'
      refine ⟨some r, some r', hlook, hlook', congrArg some ?_⟩
      rw [RosterTable.mk.injEq, hentries, hentries']
      refine List.map_congr_left fun team _ => ?_
      rw [(hsame team).1]

end Signoff.Directory
