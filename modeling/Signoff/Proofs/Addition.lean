import Signoff.Proofs.Group.Patterns
import Signoff.Proofs.Teams

/-!
# One more file

A file that is added at the end of a change goes to one place: to the group of
its owners, or to the files that nobody owns. The groups are listed by their
keys, so all of them keep their order, and a new one is put between two others.
The patterns of a group are listed by the places of their rules, so they keep
their order as well (`exists_patternsOf_append`).

A report also depends on what is known about teams, and a new group can bring in
teams that were not asked about before. No team is forgotten for that, so the
verdicts about all other groups rest on the same rosters. Altogether, a report
on one more file gains at most one group and what is known about its teams
(`report_of_one_more_file`).
-/

namespace Signoff

/-! ## Ascending lists -/

/-- With an element more, an ascending list is the same, or has it in addition.
-/
theorem exists_ascending_of_more {l l' : List String} {a : String}
    (h : ∀ b, b ∈ l' ↔ b = a ∨ b ∈ l) :
    ∃ front back, ascending l' = front ++ a :: back ∧ a ∉ front ++ back ∧
      ascending l = if a ∈ l then front ++ a :: back else front ++ back := by
  obtain ⟨front, back, hsplit⟩ :=
    List.append_of_mem (mem_ascending.2 ((h a).2 (Or.inl rfl)))
  have hascending : IsAscending (front ++ a :: back) :=
    hsplit ▸ isAscending_ascending l'
  have hmem : ∀ b, b ∈ front ++ a :: back ↔ b = a ∨ b ∈ l := by
    intro b
    rw [← hsplit, mem_ascending, h]
  have hnew : a ∉ front ++ back := by
    have hnodup := nodup_of_isAscending hascending
    rw [List.perm_middle.nodup_iff, List.nodup_cons] at hnodup
    exact hnodup.1
  refine ⟨front, back, hsplit, hnew, ?_⟩
  split
  · next hmem' =>
      refine eq_of_ascending (isAscending_ascending l) hascending fun b => ?_
      rw [mem_ascending, hmem]
      exact ⟨Or.inr, fun hb => hb.elim (fun heq => heq ▸ hmem') id⟩
  · next hnot =>
      have hless : (front ++ back).Sublist (front ++ a :: back) :=
        (List.sublist_cons_self a back).append_left front
      refine eq_of_ascending (isAscending_ascending l)
        (hascending.sublist hless) fun b => ?_
      rw [mem_ascending]
      by_cases hb : b = a
      · rw [hb]
        exact iff_of_false hnot hnew
      · have hsame := hmem b
        rw [List.perm_middle.mem_iff, List.mem_cons] at hsame
        simpa [hb] using hsame.symm

/-! ## Groups -/

/-- The group has one more file, at the end, and at most one more pattern, at
the place of the rule. -/
structure Group.Gains (rules : List Rule) (file : String) (rule : Rule)
    (g g' : Group) : Prop where
  key : g'.key = g.key
  owners : g'.owners = g.owners
  files : g'.files = g.files ++ [file]
  patterns : ∃ front back, (front ++ rule :: back).Sublist rules ∧
    g'.patterns = (front ++ rule :: back).map Rule.pattern ∧
    (g.patterns = g'.patterns ∨ g.patterns = (front ++ back).map Rule.pattern)

namespace Grouping

variable {all : List Ownership} {o : Ownership} {key : String}

theorem ofOwnerships_append_of_unowned (hnone : o.owners = []) :
    ofOwnerships (all ++ [o]) =
      { ofOwnerships all with
        unowned := (ofOwnerships all).unowned ++ [o.file] } := by
  simp [ofOwnerships, Buckets.add, hnone]

theorem unowned_append_of_owned (hne : o.owners ≠ []) :
    (ofOwnerships (all ++ [o])).unowned = (ofOwnerships all).unowned := by
  simp [ofOwnerships, Buckets.add, hne]

theorem mem_keysOf_append (hne : o.owners ≠ []) :
    key ∈ keysOf (all ++ [o]) ↔
      key = ownersKey o.owners ∨ key ∈ keysOf all := by
  by_cases hkey : key = ownersKey o.owners
  · rw [hkey, mem_keysOf_iff, membersOf_append_self hne]
    simp
  · rw [mem_keysOf_iff, membersOf_append_of_ne hkey, ← mem_keysOf_iff]
    simp [hkey]

/-- All groups but one are the same, and in the same order. -/
theorem exists_groups_append (hne : o.owners ≠ []) :
    ∃ front back, (ofOwnerships (all ++ [o])).groups =
        front ++ .ofMembers (ownersKey o.owners)
          (membersOf all (ownersKey o.owners) ++ [o]) :: back ∧
      (∀ other ∈ front ++ back, other.key ≠ ownersKey o.owners) ∧
      (ofOwnerships all).groups =
        if membersOf all (ownersKey o.owners) = [] then front ++ back
        else front ++ .ofMembers (ownersKey o.owners)
          (membersOf all (ownersKey o.owners)) :: back := by
  obtain ⟨front, back, hnew, hothers, hold⟩ :=
    exists_ascending_of_more fun key => @mem_keysOf_append all o key hne
  have hsame : ∀ key ∈ front ++ back, Group.ofMembers key (membersOf all key) =
      .ofMembers key (membersOf (all ++ [o]) key) := by
    intro key hkey
    rw [membersOf_append_of_ne (ne_of_mem_of_not_mem hkey hothers)]
  rw [List.forall_mem_append] at hsame
  refine ⟨front.map fun key => .ofMembers key (membersOf all key),
    back.map fun key => .ofMembers key (membersOf all key), ?_, ?_, ?_⟩
  · rw [groups_ofOwnerships, hnew, List.map_append, List.map_cons,
      membersOf_append_self hne, List.map_congr_left hsame.1,
      List.map_congr_left hsame.2]
  · rw [← List.map_append, List.forall_mem_map]
    intro key hkey
    exact ne_of_mem_of_not_mem hkey hothers
  · rw [groups_ofOwnerships, hold]
    simp only [mem_keysOf_iff, ite_not]
    split <;> simp

end Grouping

/-! ## Patterns -/

namespace Policy

variable [Engine] {text file : String} {files : List String} {rule : Rule}
  {members : List Ownership}

theorem ownerships_append (p : Policy) (files : List String) (file : String) :
    p.ownerships (files ++ [file]) = p.ownerships files ++ [p.ownership file] :=
  List.map_append

theorem governing_append
    (hgoverns : rule.Governs (RuleFile.parse text).rules file) :
    Group.governing (members ++
        [(ofRules (RuleFile.parse text).rules).ownership file]) =
      Group.governing members ++ [(rule.position, rule.pattern)] := by
  rw [Group.governing, List.filterMap_append, ownership_of_governs hgoverns]
  rfl

theorem exists_patternsOf_append (hmembers : members ⊆
      (ofRules (RuleFile.parse text).rules).ownerships files)
    (hgoverns : rule.Governs (RuleFile.parse text).rules file) :
    ∃ front back, (front ++ rule :: back).Sublist (RuleFile.parse text).rules ∧
      Group.patternsOf (members ++
          [(ofRules (RuleFile.parse text).rules).ownership file]) =
        (front ++ rule :: back).map Rule.pattern ∧
      Group.patternsOf members =
        if (rule.position, rule.pattern) ∈ Group.governing members then
          (front ++ rule :: back).map Rule.pattern
        else (front ++ back).map Rule.pattern := by
  obtain ⟨earlier, later, hrules⟩ :=
    List.append_of_mem (mem_rules_of_governs hgoverns)
  have hmore : members ++
      [(ofRules (RuleFile.parse text).rules).ownership file] ⊆
        (ofRules (RuleFile.parse text).rules).ownerships (files ++ [file]) := by
    rw [ownerships_append]
    exact List.append_subset.2
      ⟨fun o ho => List.mem_append_left _ (hmembers ho),
      List.subset_append_right _ _⟩
  -- No other rule has the position of this one.
  have hother : ∀ other ∈ earlier ++ later,
      decide ((other.position, other.pattern) ∈ Group.governing members ++
        [(rule.position, rule.pattern)]) =
      decide ((other.position, other.pattern) ∈ Group.governing members) := by
    have hpositions :=
      (RuleFile.pairwise_position text).imp fun hlt => Nat.ne_of_lt hlt
    rw [hrules, List.pairwise_middle Ne.symm, List.pairwise_cons] at hpositions
    intro other hmem
    simp [(hpositions.1 other hmem).symm]
  rw [List.forall_mem_append] at hother
  refine ⟨earlier.filter fun rule =>
      (rule.position, rule.pattern) ∈ Group.governing members,
    later.filter fun rule =>
      (rule.position, rule.pattern) ∈ Group.governing members, ?_, ?_, ?_⟩
  · rw [hrules]
    exact List.filter_sublist.append (List.filter_sublist.cons_cons rule)
  · rw [patternsOf_eq hmore, governing_append hgoverns, hrules,
      List.filter_append, List.filter_cons_of_pos (by simp),
      List.filter_congr hother.1, List.filter_congr hother.2]
  · rw [patternsOf_eq hmembers, hrules, List.filter_append, List.filter_cons]
    simp only [decide_eq_true_eq]
    split <;> rfl

end Policy

/-! ## Groupings -/

namespace Grouping

variable {rules : List Rule} {rule : Rule} {file : String} {g g' : Grouping}

/-- The group of the rule gains the file, or there is a new one of this file
alone. All else is the same. -/
structure Gains (rules : List Rule) (file : String) (rule : Rule)
    (g g' : Grouping) : Prop where
  unowned : g'.unowned = g.unowned
  groups : ∃ front group' back, g'.groups = front ++ group' :: back ∧
    group'.key = ownersKey rule.owners ∧
    (∀ other ∈ front ++ back, other.key ≠ ownersKey rule.owners) ∧
    (g.groups = front ++ back ∧ group'.files = [file] ∨
      ∃ group, g.groups = front ++ group :: back ∧
        group.Gains rules file rule group')

theorem Gains.exists_owners_eq (h : g.Gains rules file rule g') {group : Group}
    (hgroup : group ∈ g.groups) :
    ∃ group' ∈ g'.groups, group'.owners = group.owners := by
  obtain ⟨front, group', back, hnew, _, _, hold⟩ := h.groups
  have hkept : ∀ other ∈ front ++ back, other ∈ g'.groups := by
    intro other hother
    rw [hnew, List.perm_middle.mem_iff]
    exact List.mem_cons_of_mem _ hother
  rcases hold with ⟨hold, _⟩ | ⟨old, hold, hgains⟩
  · exact ⟨group, hkept group (hold ▸ hgroup), rfl⟩
  · rw [hold, List.perm_middle.mem_iff] at hgroup
    rcases List.mem_cons.1 hgroup with rfl | hgroup
    · exact ⟨group', hnew ▸ List.mem_append_right _ List.mem_cons_self,
        hgains.owners⟩
    · exact ⟨group, hkept group hgroup, rfl⟩

theorem Gains.teams_subset (h : g.Gains rules file rule g')
    (requested : List String) : g.teams requested ⊆ g'.teams requested := by
  intro team hteam
  rw [mem_teams_iff] at hteam ⊢
  refine hteam.imp_left fun howner => ?_
  obtain ⟨group, hgroup, o, ho, hteam⟩ := howner
  obtain ⟨group', hgroup', howners⟩ := h.exists_owners_eq hgroup
  exact ⟨group', hgroup', o, howners ▸ ho, hteam⟩

end Grouping

namespace Policy

variable [Engine] {text file : String} {rule : Rule} {members : List Ownership}
  {files : List String}

theorem gains_ofMembers (key : String) (hne : members ≠ [])
    (hmembers : members ⊆
      (ofRules (RuleFile.parse text).rules).ownerships files)
    (hgoverns : rule.Governs (RuleFile.parse text).rules file) :
    (Group.ofMembers key members).Gains (RuleFile.parse text).rules file rule
      (.ofMembers key (members ++
        [(ofRules (RuleFile.parse text).rules).ownership file])) := by
  obtain ⟨front, back, hsub, hnew, hold⟩ :=
    exists_patternsOf_append hmembers hgoverns
  refine ⟨rfl, ?_, ?_, front, back, hsub, hnew, ?_⟩
  · simp only [Group.ofMembers]
    rw [List.head?_append_of_ne_nil _ hne]
  · simp only [Group.ofMembers]
    rw [List.map_append, ownership_of_governs hgoverns]
    rfl
  · show Group.patternsOf members = Group.patternsOf _ ∨
      Group.patternsOf members = _
    rw [hnew, hold]
    split
    · exact Or.inl rfl
    · exact Or.inr rfl

theorem grouping_append_of_not_governs
    (hnone : ¬ ∃ rule : Rule, rule.Governs (RuleFile.parse text).rules file) :
    (ofRules (RuleFile.parse text).rules).grouping (files ++ [file]) =
      { (ofRules (RuleFile.parse text).rules).grouping files with
        unowned :=
          ((ofRules (RuleFile.parse text).rules).grouping files).unowned ++
            [file] } := by
  have hunowned :
      ((ofRules (RuleFile.parse text).rules).ownership file).owners = [] := by
    by_contra hne
    obtain ⟨rule, hgoverns, _⟩ := exists_governs_of_owners hne
    exact hnone ⟨rule, hgoverns⟩
  rw [grouping, ownerships_append,
    Grouping.ofOwnerships_append_of_unowned hunowned, file_ownership]
  rfl

theorem gains_grouping (files : List String)
    (hgoverns : rule.Governs (RuleFile.parse text).rules file) :
    ((ofRules (RuleFile.parse text).rules).grouping files).Gains
      (RuleFile.parse text).rules file rule
      ((ofRules (RuleFile.parse text).rules).grouping (files ++ [file])) := by
  have hownership := ownership_of_governs hgoverns
  have hne :
      ((ofRules (RuleFile.parse text).rules).ownership file).owners ≠ [] := by
    rw [hownership]
    exact (RuleFile.owners_of_mem_parse (mem_rules_of_governs hgoverns)).1
  have howners : ((ofRules (RuleFile.parse text).rules).ownership file).owners =
      rule.owners := by
    rw [hownership]
  rw [grouping, grouping, ownerships_append]
  refine ⟨Grouping.unowned_append_of_owned hne, ?_⟩
  obtain ⟨front, back, hnew, hothers, hold⟩ :=
    @Grouping.exists_groups_append (ownerships _ files) _ hne
  rw [howners] at hnew hothers hold
  refine ⟨front, _, back, hnew, rfl, hothers, ?_⟩
  split at hold
  · next hnone =>
      refine Or.inl ⟨hold, ?_⟩
      rw [hnone, hownership]
      rfl
  · next hsome =>
      exact Or.inr ⟨_, hold, gains_ofMembers _ hsome
        List.filter_sublist.subset hgoverns⟩

end Policy

/-! ## Reports -/

namespace Assessment

/-- The group gains the file, and the verdict about it stands. -/
structure Gains (rules : List Rule) (file : String) (rule : Rule)
    (a a' : Assessment) : Prop where
  group : a.group.Gains rules file rule a'.group
  verdict : a'.verdict = a.verdict
  unknownTeams : a'.unknownTeams = a.unknownTeams

theorem gains_ofGroup {rules : List Rule} {file : String} {rule : Rule}
    {group group' : Group} (h : group.Gains rules file rule group')
    (approvers : List String) (table : RosterTable) :
    (ofGroup approvers table group).Gains rules file rule
      (ofGroup approvers table group') :=
  ⟨h, Group.verdict_congr h.owners (fun _ => Iff.rfl) fun _ _ _ => rfl,
    Group.unknownTeams_congr h.owners fun _ _ _ => rfl⟩

end Assessment

namespace Report

variable {rules : List Rule} {rule : Rule} {file : String} {r r' : Report}

/-- The group of the rule gains the file, or there is a new one of this file
alone. All else is the same, except that more may be known about teams. -/
structure Gains (rules : List Rule) (file : String) (rule : Rule)
    (r r' : Report) : Prop where
  unowned : r'.unowned = r.unowned
  rosters : ∀ team status, r.rosters.get? team = some status →
    r'.rosters.get? team = some status
  assessments : ∃ front a' back, r'.assessments = front ++ a' :: back ∧
    a'.group.key = ownersKey rule.owners ∧
    (∀ other ∈ front ++ back, other.group.key ≠ ownersKey rule.owners) ∧
    (r.assessments = front ++ back ∧ a'.group.files = [file] ∨
      ∃ a, r.assessments = front ++ a :: back ∧ a.Gains rules file rule a')

theorem Gains.missing_eq (h : r.Gains rules file rule r') :
    r'.missing = r.missing ∨ r'.missing = r.missing + 1 := by
  obtain ⟨front, a', back, hnew, _, _, ⟨hold, _⟩ | ⟨a, hold, hgains⟩⟩ :=
    h.assessments
  · simp only [missing, pending, hnew, hold, List.filter_append,
      List.filter_cons, List.length_append]
    split
    · exact Or.inr rfl
    · exact Or.inl rfl
  · refine Or.inl ?_
    have hsame : a'.isSatisfied = a.isSatisfied := by
      rw [Assessment.isSatisfied, hgains.verdict, ← Assessment.isSatisfied]
    simp only [missing, pending, hnew, hold, List.filter_append,
      List.filter_cons, List.length_append, hsame]
    split <;> rfl

theorem gains_ofGrouping {g g' : Grouping} (h : g.Gains rules file rule g')
    (approvals : List String) {table table' : RosterTable}
    (hrosters : ∀ team status, table.get? team = some status →
      table'.get? team = some status)
    (hasked : ∀ group ∈ g.groups, ∀ o ∈ group.owners, o.isTeam = true →
      table.get? o.name = table'.get? o.name) :
    (ofGrouping g approvals table).Gains rules file rule
      (ofGrouping g' approvals table') := by
  have hsame : g.groups.map (Assessment.ofGroup (approvers approvals) table) =
      g.groups.map (Assessment.ofGroup (approvers approvals) table') :=
    assessments_congr approvals hasked
  obtain ⟨front, group', back, hnew, hkey, hothers, hold⟩ := h.groups
  refine ⟨h.unowned, hrosters,
    front.map (Assessment.ofGroup (approvers approvals) table'),
    Assessment.ofGroup (approvers approvals) table' group',
    back.map (Assessment.ofGroup (approvers approvals) table'), ?_, hkey, ?_,
    ?_⟩
  · show g'.groups.map (Assessment.ofGroup _ _) = _
    rw [hnew, List.map_append, List.map_cons]
  · rw [← List.map_append, List.forall_mem_map]
    exact hothers
  · show g.groups.map (Assessment.ofGroup _ _) = _ ∧ _ ∨
      ∃ a, g.groups.map (Assessment.ofGroup _ _) = _ ∧ _
    rw [hsame]
    rcases hold with ⟨hold, hfiles⟩ | ⟨group, hold, hgains⟩
    · exact Or.inl ⟨by rw [hold, List.map_append], hfiles⟩
    · refine Or.inr ⟨_, ?_, Assessment.gains_ofGroup hgains _ _⟩
      rw [hold, List.map_append, List.map_cons]

end Report

/-! ## Evaluations -/

namespace Policy

variable {text : String}

/-- A file without a rule is listed as such, and nothing else changes. A file
under a rule changes one group, and no verdict. -/
theorem report_of_one_more_file [Engine] [Clock] {change : Change}
    {file : String} {directory? directory'? : Option Directory}
    {limits limits' : Limits}
    (hdirectory : Option.Rel Directory.SaysSame directory? directory'?)
    (htimeout : limits.timeout? = none) (htimeout' : limits'.timeout? = none) :
    let rules := (RuleFile.parse text).rules
    let more : Change := { change with files := change.files ++ [file] }
    ∃ e e', (ofRules rules).evaluate change directory? limits none = .ok e ∧
      (ofRules rules).evaluate more directory'? limits' none = .ok e' ∧
      ((¬ ∃ rule : Rule, rule.Governs rules file) →
        e'.report = { e.report with unowned := e.report.unowned ++ [file] }) ∧
      ∀ rule : Rule, rule.Governs rules file →
        e.report.Gains rules file rule e'.report ∧
        (e'.report.missing = e.report.missing ∨
          e'.report.missing = e.report.missing + 1) := by
  intro rules more
  obtain ⟨hquiet, hquiet'⟩ := Directory.not_cancels hdirectory
  obtain ⟨e, he, hreport⟩ :=
    exists_evaluate_eq (ofRules rules) change hquiet htimeout
  obtain ⟨e', he', hreport'⟩ :=
    exists_evaluate_eq (ofRules rules) more hquiet' htimeout'
  rw [← Directory.statuses_eq hdirectory] at hreport'
  refine ⟨e, e', he, he', fun hnone => ?_, fun rule hgoverns => ?_⟩
  · rw [hreport', hreport, grouping_append_of_not_governs hnone]
    rfl
  · have hgrouping := gains_grouping change.files hgoverns
    have hsub := hgrouping.teams_subset change.requested
    have hgains : e.report.Gains rules file rule e'.report := by
      rw [hreport, hreport']
      refine Report.gains_ofGrouping hgrouping _ ?_ ?_
      · intro team status hstatus
        rw [Directory.get?_statuses_eq_some_iff] at hstatus ⊢
        exact ⟨hsub hstatus.1, hstatus.2⟩
      · intro group hgroup o ho hteam
        exact Directory.get?_statuses_of_subset
          (Grouping.name_mem_teams _ hgroup ho hteam) hsub
    exact ⟨hgains, hgains.missing_eq⟩

/-- Two files that are added to the same two: one that goes to the first of
their groups and puts a pattern in front of the one there is, and one that no
rule covers. -/
theorem report_of_one_more_file_or_another :
    let text := "/docs/*.md @ann\n/lib/ @org/web\n*.txt @ann\n"
    let rules := (RuleFile.parse text).rules
    let change : Change := ⟨["a.txt", "lib/x"], ["cat"], ["org/core"], []⟩
    let more : Change :=
      ⟨["a.txt", "lib/x", "docs/a.md"], ["cat"], ["org/core"], []⟩
    let other : Change :=
      ⟨["a.txt", "lib/x", "main.c"], ["cat"], ["org/core"], []⟩
    let slow : Directory := fun team => .after 5 (.ok ⟨team, ["cat"]⟩) false
    let quick : Directory := fun team => .immediate (.ok ⟨team, ["cat"]⟩)
    let rule : Rule := ⟨"/docs/*.md", [.ofName "ann"], 0, 1⟩
    Option.Rel Directory.SaysSame (some slow) (some quick) ∧
      rule.Governs rules "docs/a.md" ∧
      (∃ e e',
        (ofRules rules).evaluate change (some slow) ⟨0, none⟩ none = .ok e ∧
        (ofRules rules).evaluate more (some quick) .standard none = .ok e' ∧
        e.report.Gains rules "docs/a.md" rule e'.report) ∧
      (¬ ∃ rule : Rule, rule.Governs rules "main.c") ∧
      ∃ e e',
        (ofRules rules).evaluate change (some slow) ⟨0, none⟩ none = .ok e ∧
        (ofRules rules).evaluate other (some quick) .standard none = .ok e' ∧
        e'.report =
          { e.report with unowned := e.report.unowned ++ ["main.c"] } := by
  intro text rules change more other slow quick rule
  have hdirectory : Option.Rel Directory.SaysSame (some slow) (some quick) :=
    .some fun _ => ⟨rfl, rfl, rfl⟩
  have hgoverns : rule.Governs rules "docs/a.md" :=
    governing?_ofRules_eq_some_iff.1 (by decide)
  have hnone : ¬ ∃ rule : Rule, rule.Governs rules "main.c" := by
    have hruleless : (ofRules rules).governing? "main.c" = none := by decide
    simp [← governing?_ofRules_eq_some_iff, hruleless]
  obtain ⟨e, e', he, he', _, hgains⟩ :=
    @report_of_one_more_file text _ _ change "docs/a.md" _ _ ⟨0, none⟩ .standard
      hdirectory rfl rfl
  obtain ⟨d, d', hd, hd', hunowned, _⟩ :=
    @report_of_one_more_file text _ _ change "main.c" _ _ ⟨0, none⟩ .standard
      hdirectory rfl rfl
  exact ⟨hdirectory, hgoverns, ⟨e, e', he, he', (hgains rule hgoverns).1⟩,
    hnone, d, d', hd, hd', hunowned hnone⟩

end Policy

end Signoff
