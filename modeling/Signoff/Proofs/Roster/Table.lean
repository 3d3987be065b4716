import Mathlib.Data.List.Nodup
import Signoff.Ascending
import Signoff.Roster.Table

/-!
# Tables of distinct teams

As long as no team comes up twice, a table holds exactly the statuses that it
was made from. Their order in the table is the only one that ascends, so a list
of them in ascending order is the table, wherever the list came from. In a table
no team comes up twice anyway, so what it tells about a team is just what it has
an entry for (`get?_eq_some_iff`).
-/

namespace Signoff

/-- Where all entries under one key are the same, any of them is found. -/
theorem lookup_eq_some_iff_mem {α β : Type} [BEq α] [LawfulBEq α]
    {entries : List (α × β)}
    (hentries : ∀ e ∈ entries, ∀ e' ∈ entries, e.1 = e'.1 → e = e') {key : α}
    {value : β} :
    List.lookup key entries = some value ↔ (key, value) ∈ entries := by
  have hmem : ∀ {found : β}, List.lookup key entries = some found →
      (key, found) ∈ entries := by
    intro found hfound
    obtain ⟨_, _, hsplit, _⟩ := List.lookup_eq_some_iff.1 hfound
    rw [hsplit]
    exact List.mem_append_right _ List.mem_cons_self
  refine ⟨hmem, fun h => ?_⟩
  cases hfound : List.lookup key entries with
  | none =>
      have hother := List.lookup_eq_none_iff.1 hfound _ h
      exact absurd hother (by simp)
  | some found =>
      have heq := hentries _ (hmem hfound) _ h rfl
      rw [(Prod.mk.inj heq).2]

namespace RosterTable

open Roster (Status)

variable {team : String} {status : Status} {entries : List (String × Status)}

theorem perm_foldl_insert {statuses : List (String × Status)} {t : RosterTable}
    (hnodup : ((statuses ++ t.entries).map Prod.fst).Nodup) :
    (statuses.foldl (fun t entry => t.insert entry.1 entry.2) t).entries.Perm
      (statuses ++ t.entries) := by
  induction statuses generalizing t with
  | nil => exact .refl _
  | cons entry statuses ih =>
      rw [List.cons_append, List.map_cons, List.nodup_cons] at hnodup
      obtain ⟨hnew, hrest⟩ := hnodup
      have hinsert :
          (t.insert entry.1 entry.2).entries.Perm (entry :: t.entries) := by
        refine perm_alterEntry ?_
        rw [List.map_append, List.mem_append, not_or] at hnew
        exact hnew.2
      -- The entry moves past the other statuses and then into the table.
      have hmoved : (statuses ++ (t.insert entry.1 entry.2).entries).Perm
          (entry :: (statuses ++ t.entries)) :=
        (hinsert.append_left statuses).trans List.perm_middle
      rw [List.foldl_cons]
      refine (ih ?_).trans hmoved
      rw [(hmoved.map Prod.fst).nodup_iff, List.map_cons, List.nodup_cons]
      exact ⟨hnew, hrest⟩

/-- Statuses of distinct teams are all kept. -/
theorem perm_entries_ofList {statuses : List (String × Status)}
    (hnodup : (statuses.map Prod.fst).Nodup) :
    (ofList statuses).entries.Perm statuses := by
  have hentries :
      (ofList statuses).entries.Perm (statuses ++ empty.entries) := by
    refine perm_foldl_insert ?_
    rw [empty, List.append_nil]
    exact hnodup
  rwa [empty, List.append_nil] at hentries

theorem entries_ofList {statuses sorted : List (String × Status)}
    (hperm : statuses.Perm sorted)
    (hsorted : sorted.Pairwise fun a b => a.1 < b.1) :
    (ofList statuses).entries = sorted := by
  have hnodup : (statuses.map Prod.fst).Nodup := by
    rw [(hperm.map Prod.fst).nodup_iff, List.Nodup, List.pairwise_map]
    refine hsorted.imp ?_
    intro a b hlt heq
    exact String.lt_irrefl _ (heq ▸ hlt)
  refine ((perm_entries_ofList hnodup).trans hperm).eq_of_pairwise ?_
    (ofList statuses).ascending hsorted
  intro a b _ _ hab hba
  exact absurd (String.lt_trans hab hba) (String.lt_irrefl _)

theorem entries_withoutDirectory {teams : List String}
    (hteams : IsAscending teams) :
    (withoutDirectory teams).entries =
      teams.map fun team => (team, .unknown .noDirectory) :=
  entries_ofList (.refl _) (List.pairwise_map.2 hteams)

/-! ## Teams and their statuses -/

theorem isAscending_teams (t : RosterTable) : IsAscending t.teams :=
  List.pairwise_map.2 t.ascending

theorem get?_eq_some_iff {t : RosterTable} :
    t.get? team = some status ↔ (team, status) ∈ t.entries := by
  refine lookup_eq_some_iff_mem ?_
  intro entry hentry other hother hteam
  have hnodup := nodup_of_isAscending t.isAscending_teams
  exact List.inj_on_of_nodup_map hnodup hentry hother hteam

theorem mem_teams_iff {t : RosterTable} :
    team ∈ t.teams ↔ ∃ status, t.get? team = some status := by
  simp [teams, get?_eq_some_iff]

end RosterTable

end Signoff
