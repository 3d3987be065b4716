import Mathlib.Data.List.Basic
import Mathlib.Data.List.Induction
import Signoff.Group

/-!
# What the buckets come to

Files are sorted into buckets one by one. What is in a bucket can be said at any
time without going back over how it came there: the files with its key in their
order, the owners of the first of them, and for each place the pattern that was
first (`Bucket.ofMembers`). One more file keeps this true of its own bucket and
leaves all others as they are (`Buckets.add_ofOwnerships`), and the induction is
on the files sorted so far. So a grouping has a group for each key that occurs,
made of the members of the key (`Grouping.groups_ofOwnerships`), and beside them
the files without owners in their order (`Grouping.unowned_ofOwnerships`).
-/

namespace Signoff

/-! ## One bucket -/

namespace Group

/-- The places and patterns of the rules behind some ownerships, so far as both
are known. -/
def governing (members : List Ownership) : List (Nat × String) :=
  members.filterMap fun o => return (← o.position?, ← o.pattern?)

/-- The patterns in the order of their places, one for each place: the first
that is given. -/
def patternsOf (members : List Ownership) : List String :=
  let places := governing members
  (ascending (places.map Prod.fst)).filterMap fun place =>
    List.lookup place places

/-- The group of ownerships that all have the same owners. -/
def ofMembers (key : String) (members : List Ownership) : Group where
  key := key
  label := ((patternsOf members).head?.map Label.ofPattern).getD key
  owners := ascending ((members.head?.map Ownership.owners).getD [])
  files := members.map Ownership.file
  patterns := patternsOf members

end Group

namespace Bucket

variable {members : List Ownership} {o : Ownership}

/-- For each place the pattern that is given first. -/
def patternsAt (places : List (Nat × String)) : List (Nat × String) :=
  (ascending (places.map Prod.fst)).map fun place =>
    (place, (places.lookup place).getD "")

def ofMembers (members : List Ownership) : Bucket where
  owners := ascending ((members.head?.map Ownership.owners).getD [])
  files := members.map Ownership.file
  patterns := patternsAt (Group.governing members)

theorem mem_map_fst_iff_lookup {places : List (Nat × String)} {place : Nat} :
    place ∈ places.map Prod.fst ↔ (places.lookup place).isSome = true := by
  rw [List.lookup_isSome_iff, List.mem_map]
  simp only [beq_iff_eq, eq_comm (a := place)]

theorem alterEntry_patternsAt (places : List (Nat × String)) (place : Nat)
    (pattern : String) :
    alterEntry place (·.getD pattern) (patternsAt places) =
      patternsAt (places ++ [(place, pattern)]) := by
  rw [patternsAt, patternsAt, List.map_append, List.map_singleton,
    ascending_concat]
  refine alterEntry_map (isAscending_ascending _) ?_ ?_
  · simp only [mem_ascending, mem_map_fst_iff_lookup, List.lookup_append]
    cases places.lookup place with
    | none => simp
    | some first => rfl
  · intro other _ hne
    rw [List.lookup_append, List.lookup_cons, beq_false_of_ne hne,
      List.lookup_nil, Option.or_none]

theorem map_snd_patternsAt (members : List Ownership) :
    (patternsAt (Group.governing members)).map Prod.snd =
      Group.patternsOf members := by
  rw [patternsAt, Group.patternsOf, List.map_map, ← List.filterMap_eq_map]
  refine List.filterMap_congr fun place hplace => ?_
  rw [mem_ascending, mem_map_fst_iff_lookup, Option.isSome_iff_exists] at hplace
  obtain ⟨first, hfirst⟩ := hplace
  simp [hfirst]

theorem toGroup_ofMembers (key : String) (members : List Ownership) :
    (ofMembers members).toGroup key = .ofMembers key members := by
  simp only [toGroup, ofMembers, map_snd_patternsAt, Group.ofMembers]

theorem owners_add_ofMembers (hmembers : ∀ m ∈ members, m.owners ≠ []) :
    ((ofMembers members).add o).owners =
      (ofMembers (members ++ [o])).owners := by
  cases members with
  | nil => rfl
  | cons first members =>
      exact if_neg fun hnil => ascending_ne_nil
        (hmembers first List.mem_cons_self) (List.isEmpty_iff.1 hnil)

theorem patterns_add_ofMembers :
    ((ofMembers members).add o).patterns =
      (ofMembers (members ++ [o])).patterns := by
  simp only [add, ofMembers, Group.governing, List.filterMap_append]
  cases hplace : o.position? with
  | none => simp [hplace]
  | some place =>
      cases hpattern : o.pattern? with
      | none => simp [hplace, hpattern]
      | some pattern => simp [hplace, hpattern, alterEntry_patternsAt]

/-- One more ownership in the bucket is one more of its members. -/
theorem add_ofMembers (hmembers : ∀ m ∈ members, m.owners ≠ []) :
    (ofMembers members).add o = ofMembers (members ++ [o]) := by
  have hfiles : ((ofMembers members).add o).files =
      (ofMembers (members ++ [o])).files := by
    show members.map Ownership.file ++ [o.file] = _
    rw [ofMembers, List.map_append, List.map_singleton]
  exact Bucket.ext (owners_add_ofMembers hmembers) hfiles patterns_add_ofMembers

end Bucket

/-! ## All buckets -/

namespace Grouping

variable {all : List Ownership} {o : Ownership} {key : String}

/-- The ownerships whose files are put together under a key. -/
def membersOf (all : List Ownership) (key : String) : List Ownership :=
  all.filter fun o => !o.owners.isEmpty && ownersKey o.owners == key

theorem mem_membersOf_iff :
    o ∈ membersOf all key ↔
      o ∈ all ∧ o.owners ≠ [] ∧ ownersKey o.owners = key := by
  simp [membersOf]

theorem membersOf_append_self (hne : o.owners ≠ []) :
    membersOf (all ++ [o]) (ownersKey o.owners) =
      membersOf all (ownersKey o.owners) ++ [o] := by
  rw [membersOf, List.filter_append,
    List.filter_cons_of_pos (by simpa using hne), List.filter_nil, ← membersOf]

theorem membersOf_append_of_ne (hkey : key ≠ ownersKey o.owners) :
    membersOf (all ++ [o]) key = membersOf all key := by
  rw [membersOf, List.filter_append,
    List.filter_cons_of_neg (by simp [hkey.symm]), List.filter_nil,
    List.append_nil, ← membersOf]

/-- The keys under which files are put together. -/
def keysOf (all : List Ownership) : List String :=
  (all.filter fun o => !o.owners.isEmpty).map fun o => ownersKey o.owners

theorem mem_keysOf_iff : key ∈ keysOf all ↔ membersOf all key ≠ [] := by
  simp [keysOf, membersOf, List.filter_eq_nil_iff, and_assoc]

end Grouping

namespace Buckets

open Grouping (membersOf keysOf membersOf_append_self membersOf_append_of_ne
  mem_membersOf_iff mem_keysOf_iff)

variable {all : List Ownership} {o : Ownership}

/-- What the buckets hold when some ownerships have been sorted. -/
def ofOwnerships (all : List Ownership) : Buckets where
  byKey := (ascending (keysOf all)).map fun key =>
    (key, .ofMembers (membersOf all key))
  unowned := (all.filter fun o => o.owners.isEmpty).map Ownership.file

theorem add_of_unowned (hnone : o.owners = []) :
    (ofOwnerships all).add o = ofOwnerships (all ++ [o]) := by
  have hkeys : keysOf (all ++ [o]) = keysOf all := by
    simp [keysOf, hnone]
  have hmembers : membersOf (all ++ [o]) = membersOf all := by
    funext key
    simp [membersOf, hnone]
  rw [add, if_pos (List.isEmpty_iff.2 hnone), ofOwnerships, ofOwnerships, hkeys,
    hmembers]
  simp [hnone]

/-- A key that has not come up is as good as one without members. -/
theorem bucket_ofOwnerships (all : List Ownership) (key : String) :
    (if key ∈ ascending (keysOf all) then
        some (Bucket.ofMembers (membersOf all key)) else none).getD {} =
      .ofMembers (membersOf all key) := by
  split
  · rfl
  · next hnew =>
      rw [mem_ascending, mem_keysOf_iff, not_not] at hnew
      rw [hnew]
      rfl

theorem add_of_owned (hne : o.owners ≠ []) :
    (ofOwnerships all).add o = ofOwnerships (all ++ [o]) := by
  have hkeys : keysOf (all ++ [o]) = keysOf all ++ [ownersKey o.owners] := by
    simp [keysOf, hne]
  have hunowned : (ofOwnerships (all ++ [o])).unowned =
      (ofOwnerships all).unowned := by
    simp [ofOwnerships, hne]
  have hbyKey : alterEntry (ownersKey o.owners)
      (fun bucket? => (bucket?.getD {}).add o) (ofOwnerships all).byKey =
        (ofOwnerships (all ++ [o])).byKey := by
    rw [ofOwnerships, ofOwnerships, hkeys, ascending_concat]
    refine alterEntry_map (isAscending_ascending _) ?_ ?_
    · rw [bucket_ofOwnerships, membersOf_append_self hne]
      exact Bucket.add_ofMembers fun m hm => (mem_membersOf_iff.1 hm).2.1
    · intro key _ hkey
      rw [membersOf_append_of_ne hkey]
  rw [add, if_neg (mt List.isEmpty_iff.1 hne), hbyKey, ← hunowned]

/-- Each ownership goes where it belongs, and nothing else moves. -/
theorem add_ofOwnerships (all : List Ownership) (o : Ownership) :
    (ofOwnerships all).add o = ofOwnerships (all ++ [o]) := by
  by_cases hnone : o.owners = []
  · exact add_of_unowned hnone
  · exact add_of_owned hnone

theorem foldl_add (all : List Ownership) :
    all.foldl add {} = ofOwnerships all := by
  induction all using List.reverseRecOn with
  | nil => rfl
  | append_singleton all o ih =>
      rw [List.foldl_append, ih, List.foldl_cons, List.foldl_nil,
        add_ofOwnerships]

end Buckets

namespace Grouping

variable (all : List Ownership)

theorem groups_ofOwnerships :
    (ofOwnerships all).groups =
      (ascending (keysOf all)).map
        fun key => .ofMembers key (membersOf all key) := by
  rw [ofOwnerships, Buckets.foldl_add]
  simp only [Buckets.ofOwnerships, List.map_map]
  exact List.map_congr_left fun key _ => Bucket.toGroup_ofMembers key _

theorem unowned_ofOwnerships :
    (ofOwnerships all).unowned =
      (all.filter fun o => o.owners.isEmpty).map Ownership.file := by
  rw [ofOwnerships, Buckets.foldl_add]
  rfl

end Grouping

end Signoff
