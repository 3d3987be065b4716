import Signoff.Proofs.Group.Buckets
import Signoff.Proofs.Owner

/-!
# Groups and sets of owners

Files are put together by a text, the names of their owners joined by commas.
None of these names has a comma in it, so the text can be taken apart again, and
files are in one group just when they have the same owners. This is why a group
may take its owners from whichever of its files comes first
(`mem_owners_ofMembers_iff`).
-/

namespace Signoff

/-! ## Keys -/

theorem eq_of_intercalate_eq {l m : List String} (hl : l ≠ []) (hm : m ≠ [])
    (hlc : ∀ s ∈ l, ',' ∉ s.toList) (hmc : ∀ s ∈ m, ',' ∉ s.toList)
    (h : ",".intercalate l = ",".intercalate m) : l = m := by
  have hjoin := congrArg (fun s => s.toList.splitOn ',') h
  simp only [String.toList_intercalate] at hjoin
  have hcomma : ",".toList = [','] := rfl
  rw [hcomma, List.splitOn_intercalate, List.splitOn_intercalate] at hjoin
  · exact (List.map_inj_right fun _ _ => String.toList_inj.1).1 hjoin
  · intro t ht
    obtain ⟨s, hs, rfl⟩ := List.mem_map.1 ht
    exact hmc s hs
  · simpa using hm
  · intro t ht
    obtain ⟨s, hs, rfl⟩ := List.mem_map.1 ht
    exact hlc s hs
  · simpa using hl

/-- The key of some owners tells their names. -/
theorem mem_names_of_ownersKey_eq {l m : List Owner} (hl : l ≠ []) (hm : m ≠ [])
    (hlc : ∀ o ∈ l, ',' ∉ o.name.toList) (hmc : ∀ o ∈ m, ',' ∉ o.name.toList)
    (h : ownersKey l = ownersKey m) (name : String) :
    name ∈ l.map Owner.name ↔ name ∈ m.map Owner.name := by
  have hne : ∀ {k : List Owner}, k ≠ [] → ascending (k.map Owner.name) ≠ [] :=
    fun hk => ascending_ne_nil (mt List.map_eq_nil_iff.1 hk)
  have hcomma : ∀ {k : List Owner}, (∀ o ∈ k, ',' ∉ o.name.toList) →
      ∀ s ∈ ascending (k.map Owner.name), ',' ∉ s.toList := by
    intro k hk s hs
    obtain ⟨o, ho, rfl⟩ := List.mem_map.1 (mem_ascending.1 hs)
    exact hk o ho
  have heq := eq_of_intercalate_eq (hne hl) (hne hm) (hcomma hlc) (hcomma hmc) h
  rw [← mem_ascending, heq, mem_ascending]

/-- Owners that have been mentioned are told by the key altogether. -/
theorem mem_of_ownersKey_eq {l m : List Owner} (hl : l ≠ []) (hm : m ≠ [])
    (hlm : ∀ o ∈ l, o.IsMentionable) (hmm : ∀ o ∈ m, o.IsMentionable)
    (h : ownersKey l = ownersKey m) {o : Owner} (ho : o ∈ l) : o ∈ m := by
  have hnames := mem_names_of_ownersKey_eq hl hm
    (fun o ho => (hlm o ho).comma_notMem)
    (fun o ho => (hmm o ho).comma_notMem) h
  obtain ⟨o', ho', hname⟩ :=
    List.mem_map.1 ((hnames o.name).1 (List.mem_map_of_mem ho))
  rw [(hlm o ho).eq_of_name_eq (hmm o' ho') hname.symm]
  exact ho'

/-! ## Groups -/

/-- A group has the owners of one of its files. -/
theorem Group.exists_owners_ofMembers (key : String) {members : List Ownership}
    (hne : members ≠ []) : ∃ first ∈ members,
      (ofMembers key members).owners = ascending first.owners := by
  cases members with
  | nil => exact absurd rfl hne
  | cons first members => exact ⟨first, List.mem_cons_self, rfl⟩

namespace Grouping

variable {all : List Ownership} {o : Ownership} {g : Group}

theorem mem_groups_ofOwnerships_iff :
    g ∈ (ofOwnerships all).groups ↔ ∃ o ∈ all, o.owners ≠ [] ∧
      g = .ofMembers (ownersKey o.owners)
        (membersOf all (ownersKey o.owners)) := by
  rw [groups_ofOwnerships, List.mem_map]
  constructor
  · intro h
    obtain ⟨key, hkey, rfl⟩ := h
    obtain ⟨o, ho, rfl⟩ := List.mem_map.1 (mem_ascending.1 hkey)
    obtain ⟨hall, hne⟩ := List.mem_filter.1 ho
    exact ⟨o, hall, by simpa using hne, rfl⟩
  · intro h
    obtain ⟨o, ho, hne, rfl⟩ := h
    have howned : o ∈ all.filter fun o => !o.owners.isEmpty :=
      List.mem_filter.2 ⟨ho, by simpa using hne⟩
    exact ⟨_, mem_ascending.2 (List.mem_map.2 ⟨o, howned, rfl⟩), rfl⟩

theorem exists_group_of_owners (ho : o ∈ all) (hne : o.owners ≠ []) :
    ∃ g ∈ (ofOwnerships all).groups, o.file ∈ g.files :=
  ⟨_, mem_groups_ofOwnerships_iff.2 ⟨o, ho, hne, rfl⟩,
    List.mem_map_of_mem (mem_membersOf_iff.2 ⟨ho, hne, rfl⟩)⟩

/-- Each file in a group has the owners that the group has. -/
theorem mem_owners_ofMembers_iff
    (hall : ∀ o ∈ all, ∀ owner ∈ o.owners, owner.IsMentionable)
    (ho : o ∈ all) (hne : o.owners ≠ []) {owner : Owner} :
    owner ∈ (Group.ofMembers (ownersKey o.owners)
      (membersOf all (ownersKey o.owners))).owners ↔ owner ∈ o.owners := by
  have hmem : o ∈ membersOf all (ownersKey o.owners) :=
    mem_membersOf_iff.2 ⟨ho, hne, rfl⟩
  obtain ⟨first, hfirst, howners⟩ := Group.exists_owners_ofMembers
    (ownersKey o.owners) (List.ne_nil_of_mem hmem)
  obtain ⟨hfall, hfne, hkey⟩ := mem_membersOf_iff.1 hfirst
  rw [howners, mem_ascending]
  constructor
  · exact mem_of_ownersKey_eq hfne hne (hall first hfall) (hall o ho) hkey
  · exact mem_of_ownersKey_eq hne hfne (hall o ho) (hall first hfall) hkey.symm

theorem groups_ofOwnerships_ne_nil_iff :
    (ofOwnerships all).groups ≠ [] ↔ ∃ o ∈ all, o.owners ≠ [] := by
  constructor
  · intro h
    obtain ⟨g, hg⟩ := List.exists_mem_of_ne_nil _ h
    obtain ⟨o, ho, hne, _⟩ := mem_groups_ofOwnerships_iff.1 hg
    exact ⟨o, ho, hne⟩
  · intro h
    obtain ⟨o, ho, hne⟩ := h
    exact List.ne_nil_of_mem (mem_groups_ofOwnerships_iff.2 ⟨o, ho, hne, rfl⟩)

/-- What holds of an owner of each group holds of an owner of each owned file,
and the other way round. -/
theorem forall_groups_ofOwnerships_iff {P : Owner → Prop}
    (hall : ∀ o ∈ all, ∀ owner ∈ o.owners, owner.IsMentionable) :
    (∀ g ∈ (ofOwnerships all).groups, ∃ owner ∈ g.owners, P owner) ↔
      ∀ o ∈ all, o.owners ≠ [] → ∃ owner ∈ o.owners, P owner := by
  constructor
  · intro h o ho hne
    obtain ⟨owner, howner, hP⟩ :=
      h _ (mem_groups_ofOwnerships_iff.2 ⟨o, ho, hne, rfl⟩)
    exact ⟨owner, (mem_owners_ofMembers_iff hall ho hne).1 howner, hP⟩
  · intro h g hg
    obtain ⟨o, ho, hne, rfl⟩ := mem_groups_ofOwnerships_iff.1 hg
    obtain ⟨owner, howner, hP⟩ := h o ho hne
    exact ⟨owner, (mem_owners_ofMembers_iff hall ho hne).2 howner, hP⟩

end Grouping

end Signoff
