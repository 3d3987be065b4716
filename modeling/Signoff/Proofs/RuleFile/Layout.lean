import Signoff.Proofs.Owner
import Signoff.Proofs.RuleFile.Lines
import Signoff.RuleFile.Layout

/-!
# Rule files are read as they are meant

However rules are laid out in a text, they are the rules that are read from it,
with their places and lines, and nothing is dropped (`parse_of_writes`).

A line is read by cutting the comment off and taking the words of the rest. So
the words that were written have to come out again whatever stands around them,
and this is shown along the owners of a line. A carriage return at the end of a
line joins the blanks or the comment there (`Says.append_return`), which leaves
the line feed as the only ending to think of. From lines to the text the
induction is on how the text is written.
-/

namespace Signoff

/-! ## Drafts -/

theorem eraseDups_eq_self {α : Type} [BEq α] [LawfulBEq α] {l : List α}
    (h : l.Nodup) : l.eraseDups = l := by
  induction l with
  | nil => rfl
  | cons a l ih =>
      obtain ⟨ha, hl⟩ := List.nodup_cons.1 h
      have hkeep : l.filter (fun b => !b == a) = l := by
        rw [List.filter_eq_self]
        intro b hb
        simpa using fun heq : b = a => ha (heq ▸ hb)
      rw [List.eraseDups_cons, hkeep, ih hl]

namespace Draft

variable {d : Draft}

/-- The words of a line for the draft. -/
def statement (d : Draft) : Statement :=
  ⟨d.pattern.toList, d.owners.map Owner.wordOf⟩

theorem filterMap_ofMention? (h : d.IsWritable) :
    d.statement.mentions.filterMap Owner.ofMention? =
      d.owners.map Owner.ofName := by
  rw [statement, List.filterMap_map, ← List.filterMap_eq_map]
  refine List.filterMap_congr fun name hname => ?_
  exact Owner.ofMention?_wordOf (h.name_ne_empty name hname)
    (h.name_chars name hname)

theorem owners_statement (h : d.IsWritable) :
    d.statement.owners = d.owners.map Owner.ofName := by
  rw [Statement.owners, filterMap_ofMention? h]
  have hinj : ∀ name name' : String, name ≠ name' →
      Owner.ofName name ≠ Owner.ofName name' :=
    fun name name' hne heq => hne (congrArg Owner.name heq)
  exact eraseDups_eq_self (List.Pairwise.map _ hinj h.owners_nodup)

theorem owners_statement_ne_nil (h : d.IsWritable) :
    d.statement.owners.isEmpty = false := by
  rw [owners_statement h, List.isEmpty_eq_false_iff, Ne, List.map_eq_nil_iff]
  exact h.owners_ne_nil

theorem rule?_statement (h : d.IsWritable) (position line : Nat) :
    d.statement.rule? position line = some (d.rule position line) := by
  rw [Statement.rule?, owners_statement_ne_nil h, owners_statement h, statement,
    String.ofList_toList]
  rfl

theorem notes_statement (h : d.IsWritable) : d.statement.notes = [] := by
  have hstrays : d.statement.strays = [] := by
    rw [Statement.strays, List.filter_eq_nil_iff]
    intro word hword
    obtain ⟨name, hname, rfl⟩ := List.mem_map.1 hword
    simp [Owner.ofMention?_wordOf (h.name_ne_empty name hname)
      (h.name_chars name hname)]
  rw [Statement.notes, owners_statement_ne_nil h, hstrays]
  rfl

end Draft

namespace Layout

variable {d : Draft} {said : Option Draft} {names : List String}
  {s t line margin : List Char}

/-! ## Lines -/

/-- The part of a line before a comment. -/
def uncommented (s : List Char) : List Char := s.takeWhile (· != '#')

theorem uncommented_append (h : '#' ∉ s) (t : List Char) :
    uncommented (s ++ t) = s ++ uncommented t := by
  refine List.takeWhile_append_of_pos fun c hc => ?_
  rw [bne_iff_ne]
  exact fun heq => h (heq ▸ hc)

namespace IsMargin

theorem isBlank (h : IsMargin margin) :
    ∀ c ∈ margin, Text.isBlank c = true := fun c hc => (h c hc).1

theorem newline_notMem (h : IsMargin margin) : '\n' ∉ margin :=
  fun hmem => (h _ hmem).2 rfl

theorem hash_notMem (h : IsMargin margin) : '#' ∉ margin :=
  fun hmem => absurd (h.isBlank _ hmem) (by decide)

theorem append_return (h : IsMargin margin) : IsMargin (margin ++ ['\r']) := by
  intro c hc
  rcases List.mem_append.1 hc with hc | hc
  · exact h c hc
  · rw [List.mem_singleton.1 hc]
    decide

end IsMargin

namespace SaysNothing

theorem isMargin_uncommented (h : SaysNothing s) :
    IsMargin (uncommented s) := by
  cases h with
  | margin hmargin =>
      have hself := uncommented_append hmargin.hash_notMem []
      rw [List.append_nil] at hself
      rw [hself]
      exact (List.append_nil s).symm ▸ hmargin
  | comment hmargin _ =>
      rw [uncommented_append hmargin.hash_notMem]
      exact (List.append_nil _).symm ▸ hmargin

theorem newline_notMem (h : SaysNothing s) : '\n' ∉ s := by
  cases h with
  | margin hmargin => exact hmargin.newline_notMem
  | comment hmargin hcomment =>
      simpa [hcomment] using hmargin.newline_notMem

theorem append_return (h : SaysNothing s) : SaysNothing (s ++ ['\r']) := by
  cases h with
  | margin hmargin => exact .margin hmargin.append_return
  | comment hmargin hcomment =>
      rw [List.append_assoc, List.cons_append]
      exact .comment hmargin (by simpa using hcomment)

end SaysNothing

/-- The characters of some names. -/
def AreNames (names : List String) : Prop :=
  ∀ name ∈ names, ∀ c ∈ name.toList, Owner.isNameChar c = true

theorem notMem_wordOf {c : Char} (hc : Owner.isNameChar c = false)
    (hne : c ≠ '@') {name : String}
    (hname : ∀ c ∈ name.toList, Owner.isNameChar c = true) :
    c ∉ Owner.wordOf name := by
  rw [Owner.wordOf, List.mem_cons, not_or]
  refine ⟨hne, fun hmem => ?_⟩
  rw [hname c hmem] at hc
  cases hc

theorem isBlank_of_mem_wordOf {name : String}
    (hname : ∀ c ∈ name.toList, Owner.isNameChar c = true) :
    ∀ c ∈ Owner.wordOf name, Text.isBlank c = false := by
  intro c hc
  rcases List.mem_cons.1 hc with rfl | hc
  · decide
  · exact Owner.isBlank_of_isNameChar (hname c hc)

namespace ListsOwners

/-- The names come out as words, and none of them runs into what is before. -/
theorem words (h : ListsOwners names s) (hnames : AreNames names) :
    (∀ c ∈ (uncommented s).head?, Text.isBlank c = true) ∧
      Text.words (uncommented s) = names.map Owner.wordOf := by
  induction h with
  | nil hnothing =>
      have hblank := hnothing.isMargin_uncommented.isBlank
      exact ⟨fun c hc => hblank c (List.mem_of_head? hc),
        Text.words_blank hblank⟩
  | @cons gap s name names hgap hne hlists ih =>
      obtain ⟨hname, hnames⟩ := List.forall_mem_cons.1 hnames
      obtain ⟨happart, hwords⟩ := ih hnames
      have hhash : '#' ∉ gap ++ Owner.wordOf name := by
        rw [List.mem_append, not_or]
        exact ⟨hgap.hash_notMem, notMem_wordOf (by decide) (by decide) hname⟩
      have hline : uncommented (gap ++ '@' :: name.toList ++ s) =
          gap ++ (Owner.wordOf name ++ uncommented s) := by
        rw [← List.append_assoc]
        exact uncommented_append hhash s
      rw [hline]
      refine ⟨?_, ?_⟩
      · intro c hc
        rw [List.head?_append_of_ne_nil gap hne] at hc
        exact hgap.isBlank c (List.mem_of_head? hc)
      · rw [Text.words_blank_append hgap.isBlank,
          Text.words_word_append (w := Owner.wordOf name)
            (List.cons_ne_nil _ _) (isBlank_of_mem_wordOf hname) happart,
          hwords, List.map_cons]

theorem newline_notMem (h : ListsOwners names s) (hnames : AreNames names) :
    '\n' ∉ s := by
  induction h with
  | nil hnothing => exact hnothing.newline_notMem
  | @cons gap s name names hgap _ _ ih =>
      obtain ⟨hname, hnames⟩ := List.forall_mem_cons.1 hnames
      rw [List.mem_append, List.mem_append, not_or, not_or]
      exact ⟨⟨hgap.newline_notMem,
        notMem_wordOf (by decide) (by decide) hname⟩, ih hnames⟩

theorem append_return (h : ListsOwners names s) :
    ListsOwners names (s ++ ['\r']) := by
  induction h with
  | nil hnothing => exact .nil hnothing.append_return
  | cons hgap hne _ ih =>
      rw [List.append_assoc]
      exact .cons hgap hne ih

end ListsOwners

namespace Says

theorem ofLine? (h : Says said line) (hsaid : ∀ d ∈ said, d.IsWritable) :
    Statement.ofLine? line = said.map Draft.statement := by
  cases h with
  | nothing hnothing =>
      have hwords : Text.words (line.takeWhile (· != '#')) = [] :=
        Text.words_blank hnothing.isMargin_uncommented.isBlank
      rw [Statement.ofLine?, hwords]
      rfl
  | @draft margin s d hmargin hlists =>
      have hd := hsaid d rfl
      have hpattern : d.pattern.toList ≠ [] := by
        simpa using hd.pattern_ne_empty
      have hhash : '#' ∉ margin ++ d.pattern.toList := by
        rw [List.mem_append, not_or]
        exact ⟨hmargin.hash_notMem, fun hmem => (hd.pattern_chars _ hmem).2 rfl⟩
      obtain ⟨happart, hlisted⟩ := hlists.words hd.name_chars
      have hwords : Text.words (uncommented (margin ++ d.pattern.toList ++ s)) =
          d.pattern.toList :: d.owners.map Owner.wordOf := by
        rw [uncommented_append hhash, List.append_assoc,
          Text.words_blank_append hmargin.isBlank,
          Text.words_word_append hpattern
            (fun c hc => (hd.pattern_chars c hc).1) happart, hlisted]
      rw [uncommented] at hwords
      rw [Statement.ofLine?, hwords]
      rfl

theorem newline_notMem (h : Says said line)
    (hsaid : ∀ d ∈ said, d.IsWritable) : '\n' ∉ line := by
  cases h with
  | nothing hnothing => exact hnothing.newline_notMem
  | @draft margin s d hmargin hlists =>
      have hd := hsaid d rfl
      rw [List.mem_append, List.mem_append, not_or, not_or]
      refine ⟨⟨hmargin.newline_notMem, fun hmem => ?_⟩,
        hlists.newline_notMem hd.name_chars⟩
      exact absurd (hd.pattern_chars _ hmem).1 (by decide)

theorem append_return (h : Says said line) : Says said (line ++ ['\r']) := by
  cases h with
  | nothing hnothing => exact .nothing hnothing.append_return
  | draft hmargin hlists =>
      rw [List.append_assoc]
      exact .draft hmargin hlists.append_return

/-- Whatever its ending, a line is one of the lines that the text is cut into.
-/
theorem exists_splitOn (h : Says said line) (hsaid : ∀ d ∈ said, d.IsWritable)
    {ending : List Char} (hending : ending = ['\n'] ∨ ending = ['\r', '\n'])
    (text : List Char) :
    ∃ cut, Says said cut ∧ (line ++ ending ++ text).splitOn '\n' =
      cut :: text.splitOn '\n' := by
  rcases hending with rfl | rfl
  · refine ⟨line, h, ?_⟩
    rw [List.append_assoc]
    exact List.splitOn_append_cons_self_of_not_mem (h.newline_notMem hsaid) text
  · refine ⟨line ++ ['\r'], h.append_return, ?_⟩
    rw [← List.splitOn_append_cons_self_of_not_mem
      (h.append_return.newline_notMem hsaid) text]
    simp

end Says

/-! ## Texts -/

theorem statementsOn_cons_said (n : Nat) (h : Says said line)
    (hsaid : ∀ d ∈ said, d.IsWritable) (lines : List (List Char)) :
    RuleFile.statementsOn n (line :: lines) =
      (said.toList.map (·, n)).map (Prod.map Draft.statement id) ++
        RuleFile.statementsOn (n + 1) lines := by
  rw [RuleFile.statementsOn_cons, h.ofLine? hsaid]
  cases said with
  | none => rfl
  | some d => rfl

end Layout

namespace RuleFile

open Layout (ListsOwners Says SaysNothing Writes)

variable {drafts : List (Draft × Nat)} {n : Nat} {text : String}

theorem statementsOn_of_writes {text : List Char} (h : Writes n drafts text)
    (hdrafts : ∀ entry ∈ drafts, entry.1.IsWritable) :
    statementsOn n (text.splitOn '\n') =
      drafts.map (Prod.map Draft.statement id) := by
  induction h with
  | @last n said line hline =>
      have hsaid : ∀ d ∈ said, d.IsWritable := fun d hd =>
        hdrafts (d, n) (List.mem_map_of_mem (Option.mem_toList.2 hd))
      rw [List.splitOn_eq_singleton (hline.newline_notMem hsaid),
        Layout.statementsOn_cons_said n hline hsaid]
      exact List.append_nil _
  | @line n said line ending text drafts hline hending _ ih =>
      obtain ⟨hhere, hlater⟩ := List.forall_mem_append.1 hdrafts
      have hsaid : ∀ d ∈ said, d.IsWritable := fun d hd =>
        hhere (d, n) (List.mem_map_of_mem (Option.mem_toList.2 hd))
      obtain ⟨cut, hcut, hsplit⟩ := hline.exists_splitOn hsaid hending text
      rw [hsplit, Layout.statementsOn_cons_said n hcut hsaid, ih hlater,
        List.map_append]

theorem rulesFrom_drafts (position : Nat)
    (hdrafts : ∀ entry ∈ drafts, entry.1.IsWritable) :
    rulesFrom position (drafts.map (Prod.map Draft.statement id)) =
      (drafts.zipIdx position).map fun entry =>
        entry.1.1.rule entry.2 entry.1.2 := by
  induction drafts generalizing position with
  | nil => rfl
  | cons entry drafts ih =>
      obtain ⟨hentry, hdrafts⟩ := List.forall_mem_cons.1 hdrafts
      rw [List.map_cons, Prod.map, rulesFrom, Draft.rule?_statement hentry,
        List.zipIdx_cons, List.map_cons, ← ih _ hdrafts]
      rfl

theorem diagnosticsOf_drafts
    (hdrafts : ∀ entry ∈ drafts, entry.1.IsWritable) :
    diagnosticsOf (drafts.map (Prod.map Draft.statement id)) = [] := by
  rw [diagnosticsOf, List.flatMap_map, List.flatMap_eq_nil_iff]
  intro entry hentry
  rw [Prod.map, Draft.notes_statement (hdrafts entry hentry), List.map_nil]

/-- A text that has drafts written down in any layout is read as the rules that
are meant, in order and with their lines, and nothing in it is dropped. -/
theorem parse_of_writes (hdrafts : ∀ entry ∈ drafts, entry.1.IsWritable)
    (h : Writes 1 drafts text.toList) :
    parse text =
      ⟨drafts.zipIdx.map fun entry => entry.1.1.rule entry.2 entry.1.2,
        []⟩ := by
  have hstatements : statements text.toList =
      drafts.map (Prod.map Draft.statement id) := by
    rw [statements_eq, statementsOn_of_writes h hdrafts]
  rw [parse, ofChars_eq, hstatements, rulesFrom_drafts 0 hdrafts,
    diagnosticsOf_drafts hdrafts]

/-- A comment by itself, a line with a comment at its last owner, and a last
line without an ending. -/
theorem parse_of_writes_comments :
    let drafts : List (Draft × Nat) :=
      [(⟨"/docs/*", ["org/docs", "ann"]⟩, 2), (⟨"*", ["bob"]⟩, 3)]
    let text := "# owners\r\n /docs/* \t@org/docs @ann#last\n* @bob"
    (∀ entry ∈ drafts, entry.1.IsWritable) ∧ Writes 1 drafts text.toList ∧
      parse text =
        ⟨[⟨"/docs/*", [⟨"org/docs", .team⟩, ⟨"ann", .individual⟩], 0, 2⟩,
          ⟨"*", [⟨"bob", .individual⟩], 1, 3⟩], []⟩ := by
  intro drafts text
  have hwritable : ∀ entry ∈ drafts, entry.1.IsWritable := by
    decide
  have hfirst : Says none "# owners".toList :=
    .nothing (@SaysNothing.comment [] _ (by decide) (by decide))
  have hends : SaysNothing "#last".toList :=
    @SaysNothing.comment [] _ (by decide) (by decide)
  have hsecond : Says (some ⟨"/docs/*", ["org/docs", "ann"]⟩)
      " /docs/* \t@org/docs @ann#last".toList :=
    @Says.draft [' '] _ _ (by decide)
      (@ListsOwners.cons [' ', '\t'] _ _ _ (by decide) (by decide)
        (@ListsOwners.cons [' '] _ _ _ (by decide) (by decide) (.nil hends)))
  have hthird : Says (some ⟨"*", ["bob"]⟩) "* @bob".toList :=
    @Says.draft [] _ _ (by decide)
      (@ListsOwners.cons [' '] _ _ _ (by decide) (by decide)
        (.nil (@SaysNothing.margin [] (by decide))))
  have htext : "# owners".toList ++ ['\r', '\n'] ++
      (" /docs/* \t@org/docs @ann#last".toList ++ ['\n'] ++
        "* @bob".toList) = text.toList := by
    decide
  have hwrites : Writes 1 drafts text.toList := by
    rw [← htext]
    exact .line (n := 1) hfirst (Or.inr rfl)
      (.line hsecond (Or.inl rfl) (.last hthird))
  refine ⟨hwritable, hwrites, ?_⟩
  rw [parse_of_writes hwritable hwrites]
  decide

end RuleFile

end Signoff
