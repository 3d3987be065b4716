import Mathlib.Data.List.TakeWhile
import Signoff.Proofs.RuleFile.WellFormed
import Signoff.RuleFile.Tidy

/-!
# What comes of each line

Rules and diagnostics carry the number of their line, and no two lines have one
number. So what a file has under a number is what comes of that line, whatever
stands on the others (`rulesOn_parse`, `notesOn_parse`). Only the place of the
rule depends on what is above it.

A line that says anything has a first word, which is the pattern, and what comes
after this word is read as mentions (`ofLine?_eq_some`). With this the words of
a line can be told from the line itself.
-/

namespace Signoff

namespace Text

variable {s : List Char}

/-! ## The first word -/

theorem dropWhile_isBlank_ne_nil (h : ∃ c ∈ s, isBlank c = false) :
    s.dropWhile isBlank ≠ [] := by
  obtain ⟨c, hc, hblank⟩ := h
  intro hnil
  rw [List.dropWhile_eq_nil_iff.1 hnil c hc] at hblank
  cases hblank

theorem firstWord_ne_nil (h : ∃ c ∈ s, isBlank c = false) :
    firstWord s ≠ [] := by
  obtain ⟨c, rest, hcons⟩ :=
    List.exists_cons_of_ne_nil (dropWhile_isBlank_ne_nil h)
  have hc : isBlank c = false :=
    not_of_mem_head?_dropWhile c (by rw [hcons]; rfl)
  rw [firstWord, hcons, List.takeWhile_cons_of_pos (by rw [hc]; rfl)]
  exact List.cons_ne_nil _ _

theorem isBlank_of_mem_margin : ∀ c ∈ margin s, isBlank c = true :=
  fun _ hc => List.mem_takeWhile_imp hc

theorem isBlank_of_mem_firstWord : ∀ c ∈ firstWord s, isBlank c = false :=
  fun _ hc => by simpa using List.mem_takeWhile_imp hc

theorem isBlank_of_mem_head?_afterFirstWord :
    ∀ c ∈ (afterFirstWord s).head?, isBlank c = true := by
  intro c hc
  have hword : (!isBlank c) = false := not_of_mem_head?_dropWhile c hc
  simpa using hword

theorem margin_append (s : List Char) :
    margin s ++ (firstWord s ++ afterFirstWord s) = s := by
  rw [firstWord, afterFirstWord, List.takeWhile_append_dropWhile, margin,
    List.takeWhile_append_dropWhile]

theorem words_eq_cons (h : ∃ c ∈ s, isBlank c = false) :
    words s = firstWord s :: words (afterFirstWord s) := by
  conv_lhs => rw [← margin_append s]
  rw [words_blank_append isBlank_of_mem_margin,
    words_word_append (firstWord_ne_nil h) isBlank_of_mem_firstWord
      isBlank_of_mem_head?_afterFirstWord]

end Text

namespace Statement

variable {line : List Char}

theorem ofLine?_eq_some
    (h : ∃ c ∈ line.takeWhile (· != '#'), Text.isBlank c = false) :
    ofLine? line = some ⟨Text.firstWord (line.takeWhile (· != '#')),
      Text.words (Text.afterFirstWord (line.takeWhile (· != '#')))⟩ := by
  rw [ofLine?, Text.words_eq_cons h]

theorem exists_of_ofLine?_ne_none (h : ofLine? line ≠ none) :
    ∃ c ∈ line.takeWhile (· != '#'), Text.isBlank c = false := by
  by_contra hblank
  have hwords : Text.words (line.takeWhile (· != '#')) = [] := by
    refine Text.words_blank fun c hc => ?_
    rw [← Bool.not_eq_false]
    exact fun hfalse => hblank ⟨c, hc, hfalse⟩
  rw [ofLine?, hwords] at h
  exact h rfl

/-! ## A rule or its absence -/

variable {s : Statement} {o : Owner} {word : List Char}

/-- What is said of the words that mention no owner. -/
def strayNotes (words : List (List Char)) : List Note :=
  (words.filter fun word => (Owner.ofMention? word).isNone).map
    fun word => .invalidOwner (.ofList word)

theorem mem_owners_iff :
    o ∈ s.owners ↔ ∃ word ∈ s.mentions, Owner.ofMention? word = some o := by
  rw [owners, List.mem_eraseDups, List.mem_filterMap]

/-- An owner that is mentioned is in the rule, and there is one. -/
theorem exists_rule?_of_mention (hword : word ∈ s.mentions)
    (ho : Owner.ofMention? word = some o) (position line : Nat) :
    ∃ rule ∈ (s.rule? position line).toList, o ∈ rule.owners := by
  have hmem : o ∈ s.owners := mem_owners_iff.2 ⟨word, hword, ho⟩
  have hsome : ¬ s.owners.isEmpty = true :=
    fun hnil => List.ne_nil_of_mem hmem (List.isEmpty_iff.1 hnil)
  rw [rule?, if_neg hsome]
  exact ⟨_, List.mem_singleton_self _, hmem⟩

/-- The rule is made and nothing is said of it, or it is not made and this is
said last. -/
theorem rule?_or_noOwners (s : Statement) (position line : Nat) :
    (∃ rule, (s.rule? position line).toList = [rule] ∧
        rule.pattern = .ofList s.pattern ∧ s.notes = strayNotes s.mentions) ∨
      ((s.rule? position line).toList = [] ∧
        s.notes =
          strayNotes s.mentions ++ [.noOwners (.ofList s.pattern)]) := by
  rw [rule?, notes]
  split
  · exact Or.inr ⟨rfl, rfl⟩
  · exact Or.inl ⟨_, rfl, rfl, List.append_nil _⟩

end Statement

namespace RuleFile

variable {found : List (Statement × Nat)} {s : Statement} {number : Nat}

/-! ## By the number of the line -/

/-- The rules that are made on a line. -/
def rulesOn (file : RuleFile) (number : Nat) : List Rule :=
  file.rules.filter fun rule => rule.line == number

/-- What is said of a line, in the order in which it is said. -/
def notesOn (file : RuleFile) (number : Nat) : List Note :=
  (file.diagnostics.filter fun d => d.line == number).map Diagnostic.note

theorem filter_line_rulesFrom (position : Nat)
    (h : ∀ entry ∈ found, entry.2 ≠ number) :
    (rulesFrom position found).filter (·.line == number) = [] := by
  rw [List.filter_eq_nil_iff]
  intro rule hrule hnumber
  obtain ⟨entry, hentry, hline⟩ := List.mem_map.1
    ((map_line_rulesFrom_sublist position found).subset
      (List.mem_map_of_mem hrule))
  exact h entry hentry (hline.trans (beq_iff_eq.1 hnumber))

theorem filter_line_rulesFrom_of_some (position : Nat)
    (h : found.filter (·.2 == number) = [(s, number)]) :
    ∃ place, (rulesFrom position found).filter (·.line == number) =
      (s.rule? place number).toList := by
  obtain ⟨above, below, hfound, habove, _, hbelow⟩ :=
    List.filter_eq_cons_iff.1 h
  refine ⟨position + (rulesFrom position above).length, ?_⟩
  have hothers : ∀ entry ∈ below, entry.2 ≠ number := by
    simpa using List.filter_eq_nil_iff.1 hbelow
  rw [hfound, rulesFrom_append, List.filter_append,
    filter_line_rulesFrom position (by simpa using habove), List.nil_append,
    rulesFrom]
  cases hrule :
      s.rule? (position + (rulesFrom position above).length) number with
  | none => exact filter_line_rulesFrom _ hothers
  | some rule =>
      have hline : rule.line = number := by
        rw [(eq_of_rule? hrule).1]
      dsimp only
      rw [List.filter_cons, if_pos (beq_iff_eq.2 hline),
        filter_line_rulesFrom _ hothers]
      rfl

theorem filter_line_diagnosticsOf (found : List (Statement × Nat)) :
    ((diagnosticsOf found).filter (·.line == number)).map Diagnostic.note =
      (found.filter (·.2 == number)).flatMap (·.1.notes) := by
  induction found with
  | nil => rfl
  | cons entry found ih =>
      obtain ⟨s, line⟩ := entry
      have hmap : (s.notes.map (Diagnostic.mk line)).map Diagnostic.note =
          s.notes := by
        rw [List.map_map]
        exact List.map_id _
      rw [diagnosticsOf, List.flatMap_cons, List.filter_append, List.map_append,
        ← diagnosticsOf, ih, List.filter_map, List.filter_cons]
      by_cases hline : line = number
      · simp [hline, Function.comp_def]
      · simp [hline, Function.comp_def]

/-! ## One line of a text -/

theorem filter_line_statementsOn (n : Nat) {lines : List (List Char)}
    {place : Nat} (h : place < lines.length) :
    (statementsOn n lines).filter (·.2 == n + place) =
      ((Statement.ofLine? lines[place]).map (·, n + place)).toList := by
  have hother : ∀ {m : Nat} {others : List (List Char)},
      n + place < m ∨ m + others.length ≤ n + place →
      (statementsOn m others).filter (·.2 == n + place) = [] := by
    intro m others hapart
    rw [List.filter_eq_nil_iff]
    intro entry hentry hnumber
    have hmem := (map_line_statementsOn_sublist m others).subset
      (List.mem_map_of_mem hentry)
    rw [List.mem_range'_1, beq_iff_eq.1 hnumber] at hmem
    omega
  have hlength : (lines.take place).length = place := by
    rw [List.length_take]
    omega
  conv_lhs => rw [← List.take_append_drop place lines,
    List.drop_eq_getElem_cons h]
  rw [statementsOn_append, statementsOn_cons, List.filter_append,
    List.filter_append, hlength, hother (by omega), hother (by omega),
    List.nil_append, List.append_nil]
  cases Statement.ofLine? lines[place] with
  | none => rfl
  | some s => simp

variable {text : String} {place : Nat}

theorem rulesOn_parse (h : place < (Text.lines text.toList).length) :
    ∃ position, (parse text).rulesOn (place + 1) =
      ((Statement.ofLine? (Text.lines text.toList)[place]).bind
        (·.rule? position (place + 1))).toList := by
  have hfound := filter_line_statementsOn 1 h
  rw [Nat.add_comm 1 place] at hfound
  cases hline : Statement.ofLine? (Text.lines text.toList)[place] with
  | none =>
      rw [hline] at hfound
      have hothers : ∀ entry ∈ statements text.toList, entry.2 ≠ place + 1 :=
        fun entry hentry hnumber => List.filter_eq_nil_iff.1 hfound entry hentry
          (beq_iff_eq.2 hnumber)
      exact ⟨0, filter_line_rulesFrom 0 hothers⟩
  | some s =>
      rw [hline] at hfound
      exact filter_line_rulesFrom_of_some 0 hfound

theorem notesOn_parse (h : place < (Text.lines text.toList).length) :
    (parse text).notesOn (place + 1) =
      ((Statement.ofLine? (Text.lines text.toList)[place]).map
        Statement.notes).getD [] := by
  have hfound := filter_line_statementsOn 1 h
  rw [Nat.add_comm 1 place] at hfound
  refine (filter_line_diagnosticsOf (statements text.toList)).trans ?_
  rw [show statements text.toList = statementsOn 1 (Text.lines text.toList)
    from rfl, hfound]
  cases Statement.ofLine? (Text.lines text.toList)[place] with
  | none => rfl
  | some s => exact List.append_nil _

theorem pairwise_line_diagnostics (text : String) :
    (parse text).diagnostics.Pairwise fun d d' => d.line ≤ d'.line := by
  have hlines : ((statements text.toList).map Prod.snd).Pairwise (· < ·) :=
    List.Pairwise.sublist (map_line_statementsOn_sublist 1 _)
      List.pairwise_lt_range'
  show (diagnosticsOf (statements text.toList)).Pairwise _
  rw [diagnosticsOf, List.pairwise_flatMap]
  refine ⟨fun entry _ => ?_, (List.pairwise_map.1 hlines).imp fun hlt => ?_⟩
  · exact List.pairwise_map.2 (List.pairwise_of_forall fun _ _ => Nat.le_refl _)
  · intro d hd d' hd'
    obtain ⟨_, _, rfl⟩ := List.mem_map.1 hd
    obtain ⟨_, _, rfl⟩ := List.mem_map.1 hd'
    exact Nat.le_of_lt hlt

end RuleFile

end Signoff
