import Mathlib.Data.Finset.Dedup
import Signoff.Proofs.Group

/-!
# Grouping is a partition

Each file goes where the set of its owners' names sends it: to the group with
these names, or to the files that nobody owns. Nothing is lost on the way and
nothing comes up twice, so a file that is given several times is also found that
often (`ofOwnerships_partition`).

Names without commas are all that is asked of the owners. Files go by the names
alone, so owners of one name count as one, whatever their kinds are.
-/

namespace Signoff

/-- The names of some owners, without their order and repetitions. -/
def ownerNames (owners : List Owner) : Finset String :=
  (owners.map Owner.name).toFinset

theorem ownerNames_eq_iff {l m : List Owner} :
    ownerNames l = ownerNames m ↔
      ∀ name, name ∈ l.map Owner.name ↔ name ∈ m.map Owner.name := by
  simp only [ownerNames, Finset.ext_iff, List.mem_toFinset]

theorem ownerNames_ascending (l : List Owner) :
    ownerNames (ascending l) = ownerNames l := by
  rw [ownerNames_eq_iff]
  intro name
  simp only [List.mem_map, mem_ascending]

theorem ownersKey_eq_iff {l m : List Owner} (hl : l ≠ []) (hm : m ≠ [])
    (hlc : ∀ o ∈ l, ',' ∉ o.name.toList) (hmc : ∀ o ∈ m, ',' ∉ o.name.toList) :
    ownersKey l = ownersKey m ↔ ownerNames l = ownerNames m := by
  rw [ownerNames_eq_iff]
  refine ⟨mem_names_of_ownersKey_eq hl hm hlc hmc, fun h => ?_⟩
  rw [ownersKey, ownersKey, ascending_congr h]

/-! ## Lists by keys -/

section ByKey

variable {α β : Type} [DecidableEq β] {f : α → β}

/-- A list is put together again from what each key finds in it. -/
theorem flatMap_filter_perm {keys : List β} (hkeys : keys.Nodup) {l : List α}
    (hmem : ∀ a ∈ l, f a ∈ keys) :
    (keys.flatMap fun key => l.filter fun a => f a == key).Perm l := by
  induction keys generalizing l with
  | nil =>
      have hnil : l = [] :=
        List.eq_nil_iff_forall_not_mem.2
          fun a ha => List.not_mem_nil (hmem a ha)
      rw [hnil]
      exact .nil
  | cons key keys ih =>
      obtain ⟨hkey, hkeys⟩ := List.nodup_cons.1 hkeys
      -- The other keys find the same with the elements under `key` gone.
      have hothers : (keys.flatMap fun k => l.filter fun a => f a == k) =
          keys.flatMap fun k =>
            (l.filter fun a => !(f a == key)).filter fun a => f a == k := by
        refine List.flatMap_congr fun k hk => ?_
        rw [List.filter_filter]
        refine List.filter_congr fun a _ => ?_
        by_cases ha : f a = k
        · have hne : f a ≠ key := fun h => hkey (h ▸ ha ▸ hk)
          simp [ha, ha ▸ hne]
        · simp [ha]
      have hrest : (keys.flatMap fun k =>
          (l.filter fun a => !(f a == key)).filter fun a => f a == k).Perm
            (l.filter fun a => !(f a == key)) := by
        refine ih hkeys fun a ha => ?_
        obtain ⟨ha, hne⟩ := List.mem_filter.1 ha
        exact (List.mem_cons.1 (hmem a ha)).resolve_left (by simpa using hne)
      rw [List.flatMap_cons, hothers]
      exact (hrest.append_left _).trans (List.filter_append_perm _ l)

end ByKey

/-- The file is owned, and its owners are the ones that the group is known by.
-/
def Group.Holds (g : Group) (o : Ownership) : Prop :=
  o.owners ≠ [] ∧ g.key = ownersKey o.owners

instance (g : Group) (o : Ownership) : Decidable (g.Holds o) :=
  inferInstanceAs (Decidable (_ ∧ _))

namespace Grouping

variable {all : List Ownership} {o o' : Ownership} {g : Group}

/-! ## One group -/

theorem eq_ofMembers (hg : g ∈ (ofOwnerships all).groups) :
    g = .ofMembers g.key (membersOf all g.key) := by
  obtain ⟨o, _, _, rfl⟩ := mem_groups_ofOwnerships_iff.1 hg
  rfl

theorem membersOf_key (all : List Ownership) (g : Group) :
    membersOf all g.key = all.filter fun o => g.Holds o := by
  refine List.filter_congr fun o _ => ?_
  rw [Bool.eq_iff_iff]
  simp [Group.Holds, eq_comm (a := g.key)]

theorem files_eq (hg : g ∈ (ofOwnerships all).groups) :
    g.files = (all.filter fun o => g.Holds o).map Ownership.file := by
  rw [← membersOf_key, eq_ofMembers hg]
  rfl

theorem exists_holds (hg : g ∈ (ofOwnerships all).groups) :
    ∃ o ∈ all, g.Holds o ∧ g.owners = ascending o.owners := by
  obtain ⟨o, ho, hne, hgroup⟩ := mem_groups_ofOwnerships_iff.1 hg
  have hmem : o ∈ membersOf all (ownersKey o.owners) :=
    mem_membersOf_iff.2 ⟨ho, hne, rfl⟩
  obtain ⟨first, hfirst, howners⟩ := Group.exists_owners_ofMembers
    (ownersKey o.owners) (List.ne_nil_of_mem hmem)
  obtain ⟨hall, hfne, hkey⟩ := mem_membersOf_iff.1 hfirst
  rw [hgroup]
  exact ⟨first, hall, ⟨hfne, hkey.symm⟩, howners⟩

theorem files_ne_nil (hg : g ∈ (ofOwnerships all).groups) : g.files ≠ [] := by
  obtain ⟨o, ho, hholds, _⟩ := exists_holds hg
  rw [files_eq hg]
  exact List.ne_nil_of_mem (List.mem_map_of_mem
    (List.mem_filter.2 ⟨ho, decide_eq_true hholds⟩))

theorem owners_ne_nil (hg : g ∈ (ofOwnerships all).groups) : g.owners ≠ [] := by
  obtain ⟨o, _, ⟨hne, _⟩, howners⟩ := exists_holds hg
  obtain ⟨owner, howner⟩ := List.exists_mem_of_ne_nil _ hne
  rw [howners]
  exact List.ne_nil_of_mem (mem_ascending.2 howner)

section Commas

variable (hcomma : ∀ o ∈ all, ∀ owner ∈ o.owners, ',' ∉ owner.name.toList)

include hcomma

theorem holds_iff (hg : g ∈ (ofOwnerships all).groups) (ho : o ∈ all) :
    g.Holds o ↔ o.owners ≠ [] ∧ ownerNames g.owners = ownerNames o.owners := by
  obtain ⟨first, hfirst, ⟨hne, hkey⟩, howners⟩ := exists_holds hg
  refine and_congr_right fun hone => ?_
  rw [hkey, howners, ownerNames_ascending,
    ownersKey_eq_iff hne hone (hcomma first hfirst) (hcomma o ho)]

theorem exists_holds_both_iff (ho : o ∈ all) (ho' : o' ∈ all)
    (hne : o.owners ≠ []) (hne' : o'.owners ≠ []) :
    (∃ g ∈ (ofOwnerships all).groups, g.Holds o ∧ g.Holds o') ↔
      ownerNames o.owners = ownerNames o'.owners := by
  rw [← ownersKey_eq_iff hne hne' (hcomma o ho) (hcomma o' ho')]
  refine ⟨fun h => ?_, fun hkey => ?_⟩
  · obtain ⟨g, _, ⟨_, hkey⟩, _, hkey'⟩ := h
    exact hkey.symm.trans hkey'
  · exact ⟨_, mem_groups_ofOwnerships_iff.2 ⟨o, ho, hne, rfl⟩, ⟨hne, rfl⟩,
      hne', hkey⟩

end Commas

/-! ## All groups -/

theorem map_key_groups (all : List Ownership) :
    (ofOwnerships all).groups.map Group.key = ascending (keysOf all) := by
  rw [groups_ofOwnerships, List.map_map]
  exact List.map_id _

theorem files_groups (all : List Ownership) :
    (ofOwnerships all).groups.flatMap Group.files =
      (((ofOwnerships all).groups.map Group.key).flatMap
        (membersOf all)).map Ownership.file := by
  rw [map_key_groups, groups_ofOwnerships, List.flatMap_map, List.map_flatMap]
  rfl

theorem owned_perm (all : List Ownership) :
    (((ofOwnerships all).groups.map Group.key).flatMap (membersOf all)).Perm
      (all.filter fun o => !o.owners.isEmpty) := by
  have hmembers : membersOf all = fun key =>
      (all.filter fun o => !o.owners.isEmpty).filter fun o =>
        ownersKey o.owners == key := by
    funext key
    simp only [membersOf, List.filter_filter, Bool.and_comm]
  rw [map_key_groups, hmembers]
  exact flatMap_filter_perm (nodup_of_isAscending (isAscending_ascending _))
    fun o ho => mem_ascending.2 (List.mem_map_of_mem ho)

theorem files_perm (all : List Ownership) :
    ((ofOwnerships all).groups.flatMap Group.files ++
      (ofOwnerships all).unowned).Perm (all.map Ownership.file) := by
  have hsplit :=
    List.filter_append_perm (fun o : Ownership => !o.owners.isEmpty) all
  simp only [Bool.not_not] at hsplit
  rw [files_groups, unowned_ofOwnerships, ← List.map_append]
  exact (((owned_perm all).append_right _).trans hsplit).map _

/-- Two owned files are in one group just when the names of their owners are the
same. A group has the files that belong to it in their order and as often as
they are given, and no group is without files or owners. -/
theorem ofOwnerships_partition
    (hcomma : ∀ o ∈ all, ∀ owner ∈ o.owners, ',' ∉ owner.name.toList) :
    let grouping := ofOwnerships all
    grouping.unowned =
        (all.filter fun o => o.owners = []).map Ownership.file ∧
      (∀ o ∈ all, ∀ o' ∈ all, o.owners ≠ [] → o'.owners ≠ [] →
        ((∃ g ∈ grouping.groups, g.Holds o ∧ g.Holds o') ↔
          ownerNames o.owners = ownerNames o'.owners)) ∧
      (∀ g ∈ grouping.groups,
        g.files = (all.filter fun o => g.Holds o).map Ownership.file ∧
        (∀ o ∈ all, g.Holds o ↔
          o.owners ≠ [] ∧ ownerNames g.owners = ownerNames o.owners) ∧
        g.files ≠ [] ∧ g.owners ≠ []) ∧
      (grouping.groups.map Group.key).Pairwise (· < ·) ∧
      (grouping.groups.flatMap Group.files ++ grouping.unowned).Perm
        (all.map Ownership.file) ∧
      grouping.fileCount = all.length := by
  intro grouping
  refine ⟨?_, ?_, ?_, ?_, files_perm all, ?_⟩
  · rw [unowned_ofOwnerships]
    refine congrArg (List.map Ownership.file) (List.filter_congr fun o _ => ?_)
    rw [Bool.eq_iff_iff, List.isEmpty_iff, decide_eq_true_iff]
  · intro o ho o' ho' hne hne'
    exact exists_holds_both_iff hcomma ho ho' hne hne'
  · intro g hg
    exact ⟨files_eq hg, fun o ho => holds_iff hcomma hg ho, files_ne_nil hg,
      owners_ne_nil hg⟩
  · rw [map_key_groups]
    exact isAscending_ascending _
  · rw [fileCount, ← List.length_append, (files_perm all).length_eq,
      List.length_map]

/-- A file that is given twice with the same names in another order, and a name
that begins like the key of these names. -/
theorem ofOwnerships_partition_prefix :
    let all : List Ownership :=
      [⟨"x", [.ofName "b", .ofName "a"], none, none⟩, ⟨"y", [], none, none⟩,
        ⟨"z", [.ofName "a-b"], none, none⟩,
        ⟨"x", [.ofName "a", .ofName "b", .ofName "a"], some "*", some 0⟩]
    (∀ o ∈ all, ∀ owner ∈ o.owners, ',' ∉ owner.name.toList) ∧
      (ofOwnerships all).groups.map (fun g => (g.key, g.files)) =
        [("a,b", ["x", "x"]), ("a-b", ["z"])] ∧
      (ofOwnerships all).fileCount = all.length := by
  intro all
  have hcomma : ∀ o ∈ all, ∀ owner ∈ o.owners, ',' ∉ owner.name.toList := by
    decide
  exact ⟨hcomma, by decide, (ofOwnerships_partition hcomma).2.2.2.2.2⟩

end Grouping

end Signoff
