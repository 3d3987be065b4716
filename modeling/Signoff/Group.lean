import Signoff.Entries
import Signoff.Label
import Signoff.Policy

/-!
# Groups

Files that have the same owners need one approval between them. Such files make
up a group, which is known by the names of its owners. Names of owners have no
comma, so the names joined by commas tell apart any two sets of them.

The files are sorted in one pass. Each goes into the bucket for its owners, or
to those that nobody owns, and after the last of them the buckets are made into
groups.
-/

namespace Signoff

/-- The names of some owners in order, each once, joined by commas. -/
def ownersKey (owners : List Owner) : String :=
  ",".intercalate (ascending (owners.map Owner.name))

/-- Files with the same owners, who can each approve all of them. -/
structure Group where
  key : String
  label : String
  /-- In ascending order, which is also the order in which they are asked. -/
  owners : List Owner
  /-- In the order in which they were given. -/
  files : List String
  /-- The patterns that gave these files their owners, by the place of their
  rules. -/
  patterns : List String
  deriving DecidableEq

/-- The owners of the group that are teams. -/
def Group.teamOwners (g : Group) : List Owner := g.owners.filter Owner.isTeam

/-- What has been put together of a group so far. -/
@[ext]
structure Bucket where
  owners : List Owner := []
  files : List String := []
  /-- The patterns by the places of their rules. -/
  patterns : List (Nat × String) := []
  deriving DecidableEq

namespace Bucket

/-- The owners and the pattern for each place are those that come first. -/
def add (b : Bucket) (o : Ownership) : Bucket where
  owners := if b.owners.isEmpty then ascending o.owners else b.owners
  files := b.files ++ [o.file]
  patterns :=
    match o.position?, o.pattern? with
    | some place, some pattern => alterEntry place (·.getD pattern) b.patterns
    | _, _ => b.patterns

/-- The group is labelled by the first of its patterns, or by its key if it has
none. -/
def toGroup (key : String) (b : Bucket) : Group :=
  let patterns := b.patterns.map Prod.snd
  { key, owners := b.owners, files := b.files, patterns
    label := (patterns.head?.map Label.ofPattern).getD key }

end Bucket

/-- The files that have been sorted so far, into buckets by ascending key. -/
structure Buckets where
  byKey : List (String × Bucket) := []
  unowned : List String := []
  deriving DecidableEq

def Buckets.add (s : Buckets) (o : Ownership) : Buckets :=
  if o.owners.isEmpty then { s with unowned := s.unowned ++ [o.file] }
  else
    { s with
      byKey := alterEntry (ownersKey o.owners)
        (fun bucket? => (bucket?.getD {}).add o) s.byKey }

/-- Files sorted into groups, and those that nobody owns. -/
structure Grouping where
  groups : List Group
  unowned : List String
  deriving DecidableEq

namespace Grouping

/-- One group for each set of names that occurs, by ascending key. -/
def ofOwnerships (all : List Ownership) : Grouping :=
  let sorted := all.foldl Buckets.add {}
  ⟨sorted.byKey.map fun entry => entry.2.toGroup entry.1, sorted.unowned⟩

/-- The number of files, owned or not. -/
def fileCount (g : Grouping) : Nat :=
  (g.groups.flatMap Group.files).length + g.unowned.length

end Grouping

end Signoff
