import Signoff.Group

/-!
# Changes

What is known about a proposed change: the files it touches, who has approved
it, and who has been asked for a review. Requests have no say in the verdict.
They matter only in that a requested team is looked up along with the teams that
own files.
-/

namespace Signoff

structure Change where
  files : List String
  approvals : List String
  /-- Users, or teams, that have been asked for a review. -/
  reviewers : List String
  /-- Teams that have been asked for a review. -/
  teams : List String
  deriving DecidableEq

/-- A change that touches nothing. -/
def Change.empty : Change := ⟨[], [], [], []⟩

/-- All who have been asked for a review. -/
def Change.requested (c : Change) : List String := c.reviewers ++ c.teams

/-- The teams that own a group, and the teams among the requested, in ascending
order. -/
def Grouping.teams (g : Grouping) (requested : List String) : List String :=
  ascending (g.groups.flatMap (fun group => group.teamOwners.map Owner.name) ++
    ((requested.map (Owner.ofName ∘ Owner.bareName)).filter Owner.isTeam).map
      Owner.name)

theorem Grouping.isAscending_teams (g : Grouping) (requested : List String) :
    IsAscending (g.teams requested) :=
  isAscending_ascending _

end Signoff
