import Signoff.Policy

/-!
# The rule that governs a path

A policy lists the rules that cover a path and takes the last of them. Here the
same is said of the rules as they stand in the file, with nothing made ready and
nothing collected: a rule governs a path if its pattern compiles and covers it
and no later rule does (`governing?_ofRules_eq_some_iff`).
-/

namespace Signoff

variable [Engine]

/-- The pattern of the rule can be made ready, and it covers the path. -/
def Rule.Covers (rule : Rule) (path : String) : Prop :=
  ∃ p, Pattern.compile rule.pattern = .ok p ∧ p.covers path = true

/-- Of some rules, this is the last that covers the path. -/
def Rule.Governs (rules : List Rule) (path : String) (rule : Rule) : Prop :=
  ∃ earlier later, rules = earlier ++ rule :: later ∧ rule.Covers path ∧
    ∀ other ∈ later, ¬ other.Covers path

namespace Policy

variable {rules : List Rule} {rule : Rule} {path : String}

theorem Entry.covers_ofRule_iff :
    (Entry.ofRule rule).covers path = true ↔ rule.Covers path := by
  rw [covers_ofRule, Rule.Covers]
  cases Pattern.compile rule.pattern with
  | error e => simp [Except.toOption]
  | ok p => simp [Except.toOption]

instance (rule : Rule) (path : String) : Decidable (rule.Covers path) :=
  decidable_of_iff _ Entry.covers_ofRule_iff

theorem covering_ofRules (rules : List Rule) (path : String) :
    (ofRules rules).covering path =
      rules.filter fun rule => rule.Covers path := by
  have hentries : (ofRules rules).covering path =
      rules.filter fun rule => (Entry.ofRule rule).covers path := by
    rw [covering, ofRules, List.filter_map, List.map_map]
    exact List.map_id _
  rw [hentries]
  refine List.filter_congr fun rule _ => ?_
  rw [Bool.eq_iff_iff, decide_eq_true_iff, Entry.covers_ofRule_iff]

theorem governing?_ofRules_eq_some_iff :
    (ofRules rules).governing? path = some rule ↔ rule.Governs rules path := by
  rw [governing?_eq_getLast?, covering_ofRules, List.getLast?_eq_some_iff]
  constructor
  · intro h
    obtain ⟨front, h⟩ := h
    obtain ⟨first, last, hrules, _, hlast⟩ := List.filter_eq_append_iff.1 h
    obtain ⟨middle, later, hsplit, _, hcovers, hnone⟩ :=
      List.filter_eq_cons_iff.1 hlast
    refine ⟨first ++ middle, later, ?_, of_decide_eq_true hcovers, ?_⟩
    · rw [hrules, hsplit, List.append_assoc]
    · intro other hother hcover
      exact List.filter_eq_nil_iff.1 hnone other hother (decide_eq_true hcover)
  · intro h
    obtain ⟨earlier, later, hrules, hcovers, hnone⟩ := h
    have hlater : later.filter (fun rule => rule.Covers path) = [] := by
      rw [List.filter_eq_nil_iff]
      intro other hother hcover
      exact hnone other hother (of_decide_eq_true hcover)
    refine ⟨earlier.filter fun rule => rule.Covers path, ?_⟩
    rw [hrules, List.filter_append, List.filter_cons,
      if_pos (decide_eq_true hcovers), hlater]

theorem mem_rules_of_governs (h : rule.Governs rules path) : rule ∈ rules := by
  obtain ⟨earlier, later, hrules, _, _⟩ := h
  rw [hrules]
  exact List.mem_append_right _ List.mem_cons_self

/-- A rule that covers a path governs it, unless a later one does. -/
theorem exists_governs_of_covers {earlier later : List Rule}
    (hrules : rules = earlier ++ rule :: later) (hcovers : rule.Covers path) :
    ∃ governing ∈ rule :: later, governing.Governs rules path := by
  have hrule : rule ∈ (rule :: later).filter fun rule => rule.Covers path :=
    List.mem_filter.2 ⟨List.mem_cons_self, decide_eq_true hcovers⟩
  have hlast := List.getLast?_eq_some_getLast (List.ne_nil_of_mem hrule)
  refine ⟨_, (List.mem_filter.1 (List.mem_of_getLast? hlast)).1, ?_⟩
  rw [← governing?_ofRules_eq_some_iff, governing?_eq_getLast?,
    covering_ofRules, hrules, List.filter_append, List.getLast?_append, hlast,
    Option.some_or]

theorem file_ownership (p : Policy) (file : String) :
    (p.ownership file).file = file := by
  rw [ownership]
  split <;> rfl

theorem ownership_of_governs (h : rule.Governs rules path) :
    (ofRules rules).ownership path =
      ⟨path, rule.owners, some rule.pattern, some rule.position⟩ := by
  rw [ownership, governing?_ofRules_eq_some_iff.2 h]

/-- A file has owners only from the rule that governs it. -/
theorem exists_governs_of_owners
    (h : ((ofRules rules).ownership path).owners ≠ []) :
    ∃ rule : Rule, rule.Governs rules path ∧
      ((ofRules rules).ownership path).owners = rule.owners := by
  cases hrule : (ofRules rules).governing? path with
  | none =>
      rw [ownership, hrule] at h
      exact absurd rfl h
  | some rule =>
      refine ⟨rule, governing?_ofRules_eq_some_iff.1 hrule, ?_⟩
      rw [ownership, hrule]

end Policy

end Signoff
