import Mathlib.Order.Bounds.Defs
import Signoff.Proofs.Evaluation
import Signoff.Proofs.Partition

/-!
# How many approvals are missing

A report counts an approval for each pending group. So many always do, since a
group of a rule file has an owner and an approval in the owner's name counts
whoever gives it. Fewer may do as well: an owner of two pending groups, or a
member of a team in each, can approve both at once. The count is the least
number of further approvals exactly if nobody can do that
(`isLeast_missing_iff`).

Of the groups only this matters, that an approval counts for some of them and
not for others. The first section is about lists and what serves their elements,
and the second one says that further approvals serve the pending groups.
-/

namespace Signoff

/-! ## Lists that serve others -/

section Serving

variable {α β : Type} {Serves : β → α → Prop} {l : List α}

theorem serving_cons {a : α} {x : β} {more : List β} (hx : Serves x a)
    (hserves : ∀ b ∈ l, ∃ y ∈ more, Serves y b) :
    ∀ b ∈ a :: l, ∃ y ∈ x :: more, Serves y b := by
  simp only [List.forall_mem_cons, List.exists_mem_cons_iff]
  exact ⟨Or.inl hx, fun b hb => Or.inr (hserves b hb)⟩

theorem exists_serving (hall : ∀ a ∈ l, ∃ x, Serves x a) :
    ∃ more : List β, more.length = l.length ∧
      ∀ a ∈ l, ∃ x ∈ more, Serves x a := by
  induction l with
  | nil => exact ⟨[], rfl, by simp⟩
  | cons a l ih =>
      rw [List.forall_mem_cons] at hall
      obtain ⟨x, hx⟩ := hall.1
      obtain ⟨more, hlength, hserves⟩ := ih hall.2
      exact ⟨x :: more, by simp [hlength], serving_cons hx hserves⟩

/-- Where nothing serves two elements, each takes one of its own. -/
theorem length_le_of_apart [DecidableEq β]
    (hapart : l.Pairwise fun a b => ¬ ∃ x, Serves x a ∧ Serves x b)
    {more : List β} (hserves : ∀ a ∈ l, ∃ x ∈ more, Serves x a) :
    l.length ≤ more.length := by
  induction l generalizing more with
  | nil => exact Nat.zero_le _
  | cons a l ih =>
      obtain ⟨ha, hapart⟩ := List.pairwise_cons.1 hapart
      rw [List.forall_mem_cons] at hserves
      obtain ⟨⟨x, hx, hxa⟩, hserves⟩ := hserves
      have hrest : l.length ≤ (more.erase x).length := by
        refine ih hapart fun b hb => ?_
        obtain ⟨y, hy, hyb⟩ := hserves b hb
        -- `x` is spent on `a`, and it would serve two of them.
        have hne : y ≠ x := fun heq => ha b hb ⟨x, hxa, heq ▸ hyb⟩
        exact ⟨y, (List.mem_erase_of_ne hne).2 hy, hyb⟩
      rw [List.length_erase_of_mem hx] at hrest
      have hpos := List.length_pos_of_mem hx
      rw [List.length_cons]
      omega

/-- What serves two elements saves one. -/
theorem exists_serving_lt (hall : ∀ a ∈ l, ∃ x, Serves x a)
    (hshared : ¬ l.Pairwise fun a b => ¬ ∃ x, Serves x a ∧ Serves x b) :
    ∃ more : List β, more.length < l.length ∧
      ∀ a ∈ l, ∃ x ∈ more, Serves x a := by
  induction l with
  | nil => exact absurd .nil hshared
  | cons a l ih =>
      rw [List.forall_mem_cons] at hall
      -- If `a` is not served together with a later one, two later ones are.
      by_cases ha : ∃ b ∈ l, ∃ x, Serves x a ∧ Serves x b
      · obtain ⟨b, hb, x, hxa, hxb⟩ := ha
        obtain ⟨front, back, hl⟩ := List.append_of_mem hb
        have hmem : ∀ c, c ∈ l ↔ c = b ∨ c ∈ front ++ back := by
          intro c
          rw [hl, List.mem_append, List.mem_cons, List.mem_append, or_left_comm]
        obtain ⟨more, hlength, hserves⟩ := exists_serving
          (fun c hc => hall.2 c ((hmem c).2 (Or.inr hc)))
        refine ⟨x :: more, by simp [hl, hlength], ?_⟩
        intro c hc
        rcases List.mem_cons.1 hc with rfl | hc
        · exact ⟨x, List.mem_cons_self, hxa⟩
        · exact serving_cons hxb hserves c
            (List.mem_cons.2 ((hmem c).1 hc))
      · have hrest : ¬ l.Pairwise fun a b => ¬ ∃ x, Serves x a ∧ Serves x b :=
          fun hapart => hshared
            (List.pairwise_cons.2 ⟨fun b hb hab => ha ⟨b, hb, hab⟩, hapart⟩)
        obtain ⟨more, hlength, hserves⟩ := ih hall.2 hrest
        obtain ⟨x, hx⟩ := hall.1
        exact ⟨x :: more, by simpa using hlength, serving_cons hx hserves⟩

end Serving

/-! ## Approvals and groups -/

variable {text : String} {files approvals more : List String}
  {table : RosterTable} {g : Grouping} {group : Group}

/-- Some list of so many further approvals leaves no group pending. -/
def Grouping.IsEnough (g : Grouping) (approvals : List String)
    (table : RosterTable) (n : Nat) : Prop :=
  ∃ more : List String, more.length = n ∧
    (Report.ofGrouping g (approvals ++ more) table).pending = []

theorem Report.missing_eq_length_groups (r : Report) :
    r.missing = (r.pending.map Assessment.group).length := by
  rw [missing, List.length_map]

theorem Report.pending_append_eq_nil_iff :
    (ofGrouping g (approvals ++ more) table).pending = [] ↔
      ∀ group ∈ (ofGrouping g approvals table).pending.map Assessment.group,
        ∃ approval ∈ more, group.IsServedBy table approval := by
  rw [← List.map_eq_nil_iff (f := Assessment.group),
    List.eq_nil_iff_forall_not_mem]
  simp only [mem_groups_pending_iff, List.mem_append]
  refine forall_congr' fun group => ?_
  refine ⟨fun h hpending => ?_, fun h hpending => ?_⟩
  · by_contra hmore
    refine h ⟨hpending.1, fun hserved => ?_⟩
    obtain ⟨approval, happroval | happroval, hserved⟩ := hserved
    · exact hpending.2 ⟨approval, happroval, hserved⟩
    · exact hmore ⟨approval, happroval, hserved⟩
  · obtain ⟨approval, happroval, hserved⟩ := h ⟨hpending.1, fun hserved => by
      obtain ⟨approval, happroval, hserved⟩ := hserved
      exact hpending.2 ⟨approval, Or.inl happroval, hserved⟩⟩
    exact hpending.2 ⟨approval, Or.inr happroval, hserved⟩

namespace Grouping

/-- The groups that the rules of a text make of some files. -/
def ofText [Engine] (text : String) (files : List String) : Grouping :=
  (Policy.ofRules (RuleFile.parse text).rules).grouping files

/-- An owner can approve, by the name that the rule file has. -/
theorem exists_isServedBy [Engine]
    (hgroup : group ∈ (ofText text files).groups) :
    ∃ approval, group.IsServedBy table approval := by
  obtain ⟨owner, howner⟩ := List.exists_mem_of_ne_nil _ (owners_ne_nil hgroup)
  obtain ⟨o, ho, _, howners⟩ := exists_holds hgroup
  have hmem := howner
  rw [howners, mem_ascending] at hmem
  have hmentioned := Policy.isMentionable_of_mem_ownerships o ho owner hmem
  refine ⟨owner.name, ?_, owner, howner, Or.inl hmentioned.bareName_name⟩
  rw [hmentioned.bareName_name]
  exact hmentioned.name_ne_empty

theorem exists_isServedBy_of_pending [Engine] (text : String)
    (files approvals : List String) (table : RosterTable) :
    ∀ group ∈ (Report.ofGrouping (ofText text files) approvals
        table).pending.map Assessment.group,
      ∃ approval, group.IsServedBy table approval := by
  intro group hgroup
  exact exists_isServedBy (Report.mem_groups_pending_iff.1 hgroup).1

theorem isEnough_missing [Engine] : (ofText text files).IsEnough approvals table
    (Report.ofGrouping (ofText text files) approvals table).missing := by
  obtain ⟨more, hlength, hserves⟩ := exists_serving
    (exists_isServedBy_of_pending text files approvals table)
  rw [Report.missing_eq_length_groups]
  exact ⟨more, hlength, Report.pending_append_eq_nil_iff.2 hserves⟩

/-- As many approvals as there are pending groups are enough if they are the
right ones. No fewer are exactly if no two of the pending groups can be approved
by one. -/
theorem isLeast_missing_iff [Engine] :
    (ofText text files).IsEnough approvals table
      (Report.ofGrouping (ofText text files) approvals table).missing ∧
    (IsLeast {n | (ofText text files).IsEnough approvals table n}
        (Report.ofGrouping (ofText text files) approvals table).missing ↔
      ((Report.ofGrouping (ofText text files) approvals table).pending.map
        Assessment.group).Pairwise fun g g' => ¬ ∃ approval,
          g.IsServedBy table approval ∧ g'.IsServedBy table approval) := by
  refine ⟨isEnough_missing, fun hleast => ?_,
    fun hapart => ⟨isEnough_missing, ?_⟩⟩
  · by_contra hshared
    obtain ⟨more, hlt, hserves⟩ := exists_serving_lt
      (exists_isServedBy_of_pending text files approvals table) hshared
    have hle := hleast.2
      ⟨more, rfl, Report.pending_append_eq_nil_iff.2 hserves⟩
    rw [Report.missing_eq_length_groups] at hle
    exact absurd hle (Nat.not_le_of_lt hlt)
  · intro n hn
    obtain ⟨more, rfl, hnone⟩ := hn
    rw [Report.missing_eq_length_groups]
    exact length_le_of_apart hapart (Report.pending_append_eq_nil_iff.1 hnone)

/-- One owner of two groups approves both, and two approvals are counted. -/
theorem not_isLeast_missing_of_shared_owner :
    (Report.ofGrouping (ofText "/a @x @y\n/b @x @z\n" ["a", "b"]) []
      .empty).missing = 2 ∧
    (ofText "/a @x @y\n/b @x @z\n" ["a", "b"]).IsEnough [] .empty 1 ∧
    ¬ IsLeast
      {n | (ofText "/a @x @y\n/b @x @z\n" ["a", "b"]).IsEnough [] .empty n}
      (Report.ofGrouping (ofText "/a @x @y\n/b @x @z\n" ["a", "b"]) []
        .empty).missing := by
  have htwo : (Report.ofGrouping (ofText "/a @x @y\n/b @x @z\n" ["a", "b"]) []
      .empty).missing = 2 := by
    decide
  have hone :
      (ofText "/a @x @y\n/b @x @z\n" ["a", "b"]).IsEnough [] .empty 1 :=
    ⟨["x"], rfl, by decide⟩
  refine ⟨htwo, hone, fun hleast => ?_⟩
  have hle := hleast.2 hone
  rw [htwo] at hle
  exact absurd hle (by decide)

end Grouping

end Signoff
