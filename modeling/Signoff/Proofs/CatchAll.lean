import Mathlib.Data.List.DropRight
import Signoff.Proofs.Evaluation
import Signoff.Proofs.Glob.Tokens
import Signoff.Proofs.Pattern

/-!
# Rules for everything

A rule for `*` or for `**` is there so that no file is left without an owner,
whatever the rules around it say. It does this for every path that is a single
line (`unowned_of_isCatchAll`).

A path with a line feed may slip through. The segment that `*` stands for may
hold anything but a slash, so `*` minds a line feed only in the directories on
the way to a file, and `**` minds it everywhere. That is all they mind
(`covers_iff_of_isCatchAll`), so it is also what they miss: a rule for `*`
leaves a file to nobody if there is a line feed in the name of its directory
(`unowned_star_of_line_feed`).
-/

namespace Signoff

namespace Glob

variable {path : List Char}

/-! ## The expressions of the two patterns -/

theorem onLine_iff : OnLine path ↔
    ∀ c ∈ path, CharClass.onLine.contains c = true := by
  refine ⟨OnLine.contains, fun h hfeed => ?_⟩
  exact absurd (h _ hfeed) (by decide)

theorem takes_directories_iff : Piece.directories.Takes path ↔
    OnLine path ∧ ∀ c ∈ path.getLast?, c = '/' := by
  simp only [Piece.Takes, ← onLine_iff]
  refine ⟨fun h => ?_, fun h => ?_⟩
  · rcases h with hnil | ⟨front, hfront, hconcat⟩
    · simp [hnil, OnLine]
    · simpa [hconcat, OnLine] using hfront
  · obtain ⟨hline, hlast⟩ := h
    rcases List.eq_nil_or_concat path with hnil | ⟨front, c, hconcat⟩
    · exact Or.inl hnil
    · rw [List.concat_eq_append] at hconcat
      have hslash : c = '/' := by simpa [hconcat] using hlast
      rw [hslash] at hconcat
      rw [hconcat] at hline
      exact Or.inr ⟨front, hline.left, hconcat⟩

/-- Directories and a name after them, which the class limits. -/
theorem spans_directories_many {k : CharClass} :
    Spans [.directories, .many k] path ↔ ∃ front name, path = front ++ name ∧
      (OnLine front ∧ ∀ c ∈ front.getLast?, c = '/') ∧
      ∀ c ∈ name, k.contains c = true := by
  simp only [← takes_directories_iff]
  refine ⟨fun h => ?_, fun h => ?_⟩
  · obtain ⟨front, name, hpath, hfront, taken, rest, hname, htaken, hrest⟩ := h
    rw [spans_nil.1 hrest, List.append_nil] at hname
    exact ⟨front, name, hpath, hfront, hname ▸ htaken⟩
  · obtain ⟨front, name, hpath, hfront, hname⟩ := h
    exact ⟨front, name, hpath, hfront, name, [], (List.append_nil _).symm,
      hname, spans_nil.2 rfl⟩

/-- A path up to its last slash and with it. -/
def parents (path : List Char) : List Char := path.rdropWhile (· != '/')

theorem parents_append {front name : List Char}
    (hfront : ∀ c ∈ front.getLast?, c = '/') (hname : '/' ∉ name) :
    parents (front ++ name) = front := by
  -- The last slash is looked for from the end.
  induction name using List.reverseRecOn with
  | nil =>
      rw [List.append_nil, parents, List.rdropWhile_eq_self_iff]
      intro hne
      simpa using hfront _ (List.getLast?_eq_some_getLast hne)
  | append_singleton name c ih =>
      rw [List.mem_append, List.mem_singleton, not_or] at hname
      rw [← List.append_assoc, parents, List.rdropWhile_concat_pos]
      · exact ih hname.1
      · simpa using Ne.symm hname.2

theorem exists_eq_parents_append (path : List Char) :
    ∃ name, path = parents path ++ name ∧ '/' ∉ name := by
  refine ⟨path.rtakeWhile (· != '/'), ?_, fun hslash => ?_⟩
  · exact List.rdropWhile_append_rtakeWhile.symm
  · have hne := List.mem_rtakeWhile_imp hslash
    simp at hne

theorem eq_slash_of_mem_getLast?_parents :
    ∀ c ∈ (parents path).getLast?, c = '/' := by
  intro c hc
  have hne : parents path ≠ [] := by
    intro hnil
    simp [hnil] at hc
  rw [List.getLast?_eq_some_getLast hne, Option.mem_some_iff] at hc
  have hlast := List.rdropWhile_last_not (· != '/') path hne
  rw [← hc]
  simpa [parents] using hlast

theorem spans_star : Spans [.directories, .many .inSegment] path ↔
    OnLine (parents path) := by
  rw [spans_directories_many]
  simp only [forall_inSegment_iff]
  refine ⟨fun h => ?_, fun h => ?_⟩
  · obtain ⟨front, name, hpath, ⟨hline, hlast⟩, hname⟩ := h
    rwa [hpath, parents_append hlast hname]
  · obtain ⟨name, hpath, hname⟩ := exists_eq_parents_append path
    exact ⟨parents path, name, hpath,
      ⟨h, eq_slash_of_mem_getLast?_parents⟩, hname⟩

theorem spans_anyDepth : Spans [.directories, .many .onLine] path ↔
    OnLine path := by
  rw [spans_directories_many]
  simp only [← onLine_iff]
  refine ⟨fun h => ?_, fun h => ⟨[], path, rfl, by simp [OnLine], h⟩⟩
  obtain ⟨front, name, hpath, ⟨hfront, _⟩, hname⟩ := h
  rw [hpath, OnLine, List.mem_append, not_or]
  exact ⟨hfront, hname⟩

end Glob

/-! ## The rules -/

namespace Rule

variable {rule : Rule} {path : String}

/-- The pattern of the rule stands for every path. -/
def IsCatchAll (rule : Rule) : Prop :=
  rule.pattern = "*" ∨ rule.pattern = "**"

/-- The part of a path where a line feed keeps a catch-all rule from covering
it. -/
def mindedPart (rule : Rule) (path : String) : List Char :=
  if rule.pattern = "*" then Glob.parents path.toList else path.toList

theorem covers_iff_spans [Engine] {expression : List Glob.Piece}
    (hcompile : Pattern.compile rule.pattern =
      .ok ⟨rule.pattern, .spanned expression⟩) :
    rule.Covers path ↔ Glob.Spans expression path.toList := by
  rw [Covers, hcompile]
  simp [Pattern.covers, Pattern.Condition.covers, Glob.spans_iff]

theorem covers_iff_of_isCatchAll [Engine] (hall : rule.IsCatchAll) :
    rule.Covers path ↔ '\n' ∉ rule.mindedPart path := by
  rcases hall with hstar | hany
  · have hcompile : Pattern.compile rule.pattern =
        .ok ⟨rule.pattern, .spanned [.directories, .many .inSegment]⟩ := by
      rw [hstar]
      exact Pattern.compile_of_short (by decide) (by decide)
    rw [covers_iff_spans hcompile, Glob.spans_star, mindedPart, if_pos hstar,
      Glob.OnLine]
  · have hcompile : Pattern.compile rule.pattern =
        .ok ⟨rule.pattern, .spanned [.directories, .many .onLine]⟩ := by
      rw [hany]
      exact Pattern.compile_of_short (by decide) (by decide)
    have hne : rule.pattern ≠ "*" := by
      rw [hany]
      decide
    rw [covers_iff_spans hcompile, Glob.spans_anyDepth, mindedPart, if_neg hne,
      Glob.OnLine]

end Rule

namespace Policy

variable {text file : String} {files : List String} {earlier later : List Rule}
  {rule : Rule}

/-- With a catch-all rule among the rules of a file, the rule itself or a later
one governs every path that is on a line as far as the rule minds, and that path
is in a group. If all paths are, then no file is left without an owner. -/
theorem unowned_of_isCatchAll [Engine]
    (hrules : (RuleFile.parse text).rules = earlier ++ rule :: later)
    (hall : rule.IsCatchAll) :
    let grouping := (ofRules (RuleFile.parse text).rules).grouping files
    (∀ file, rule.Covers file ↔ '\n' ∉ rule.mindedPart file) ∧
      (∀ file ∈ files, '\n' ∉ rule.mindedPart file →
        (∃ governing ∈ rule :: later,
          governing.Governs (RuleFile.parse text).rules file) ∧
        ∃ group ∈ grouping.groups, file ∈ group.files) ∧
      ((∀ file ∈ files, '\n' ∉ rule.mindedPart file) →
        grouping.unowned = []) := by
  intro grouping
  have hgoverned : ∀ file, '\n' ∉ rule.mindedPart file →
      ∃ governing ∈ rule :: later,
        governing.Governs (RuleFile.parse text).rules file :=
    fun file hline => exists_governs_of_covers hrules
      ((Rule.covers_iff_of_isCatchAll hall).2 hline)
  have howned : ∀ file, '\n' ∉ rule.mindedPart file →
      ((ofRules (RuleFile.parse text).rules).ownership file).owners ≠ [] := by
    intro file hline
    obtain ⟨governing, _, hgoverns⟩ := hgoverned file hline
    exact (ownership_ne_nil_iff fun rule hrule =>
      (RuleFile.owners_of_mem_parse hrule).1).2 ⟨governing, hgoverns⟩
  refine ⟨fun file => Rule.covers_iff_of_isCatchAll hall, ?_, ?_⟩
  · intro file hfile hline
    refine ⟨hgoverned file hline, ?_⟩
    have hgroup := Grouping.exists_group_of_owners
      (List.mem_map_of_mem hfile) (howned file hline)
    rwa [file_ownership] at hgroup
  · intro hlines
    rw [unowned_grouping, List.filter_eq_nil_iff]
    intro file hfile
    simpa using howned file (hlines file hfile)

/-- A rule for each of the two patterns, with a rule before and one after: the
second takes a name with a line feed in it, and the last takes the directory. -/
theorem unowned_of_isCatchAll_names :
    let text := "** @ann\n* @bob @org/core\n/docs/ @org/docs\n"
    let files := ["a/b\nc", "docs/x.md"]
    ∃ earlier rule later,
      (RuleFile.parse text).rules = earlier ++ rule :: later ∧
      rule.IsCatchAll ∧ (∀ file ∈ files, '\n' ∉ rule.mindedPart file) ∧
      ((ofRules (RuleFile.parse text).rules).grouping files).unowned = [] := by
  intro text files
  have hrules : (RuleFile.parse text).rules =
      [⟨"**", [.ofName "ann"], 0, 1⟩] ++
        ⟨"*", [.ofName "bob", .ofName "org/core"], 1, 2⟩ ::
        [⟨"/docs/", [.ofName "org/docs"], 2, 3⟩] := by
    decide
  have hlines : ∀ file ∈ files, '\n' ∉ (Rule.mindedPart
      ⟨"*", [.ofName "bob", .ofName "org/core"], 1, 2⟩ file) := by
    decide
  exact ⟨_, _, _, hrules, Or.inl rfl, hlines,
    (unowned_of_isCatchAll hrules (Or.inl rfl)).2.2 hlines⟩

/-- The directory of the file is not on a line, and nobody owns the file. -/
theorem unowned_star_of_line_feed :
    let text := "* @ann\n"
    (∃ rule ∈ (RuleFile.parse text).rules, rule.IsCatchAll) ∧
      ((ofRules (RuleFile.parse text).rules).grouping ["a\nb/c"]).unowned =
        ["a\nb/c"] :=
  ⟨⟨⟨"*", [.ofName "ann"], 0, 1⟩, by decide, Or.inl rfl⟩, by decide⟩

end Policy

end Signoff
