import Signoff.Proofs.RuleFile.Accounts

/-!
# What is dropped is told, and does not matter

A word that should mention an owner and does not is dropped, and so is the whole
line if no owner is left. Either is said once and in its place, so the rules and
the diagnostics of a line together account for every word of it. And what is
dropped has had no effect. Take it out of the text, and the rules that are read
are the same to the last number, with nothing more to say about them
(`parse_tells_what_it_drops`).

The second half goes through the words of a line. Deleting some of them from the
text leaves the others apart, because the blanks on either side stay
(`words_keepWords`). The pattern is never deleted, so it remains the first word,
and a comment remains one, so a line says what it said without the strays
(`ofLine?_tidiedLine`).
-/

namespace Signoff

namespace Text

variable {keep : List Char → Bool} {s word : List Char}

/-! ## Words that are kept -/

theorem kept_nil (keep : List Char → Bool) : kept keep [] = [] := by
  rw [kept, ite_self]

theorem kept_sublist (keep : List Char → Bool) (word : List Char) :
    (kept keep word).Sublist word := by
  rw [kept]
  split
  · exact List.Sublist.refl word
  · exact List.nil_sublist word

theorem keepWordsFrom_sublist (keep : List Char → Bool) (word s : List Char) :
    (keepWordsFrom keep word s).Sublist (word ++ s) := by
  induction s generalizing word with
  | nil =>
      rw [keepWordsFrom, List.append_nil]
      exact kept_sublist keep word
  | cons c s ih =>
      rw [keepWordsFrom]
      split
      · exact (kept_sublist keep word).append ((ih []).cons_cons c)
      · have hgrown := ih (word ++ [c])
        rwa [List.append_assoc] at hgrown

theorem keepWords_sublist (keep : List Char → Bool) (s : List Char) :
    (keepWords keep s).Sublist s := keepWordsFrom_sublist keep [] s

theorem words_kept (hword : ∀ c ∈ word, isBlank c = false) :
    words (kept keep word) = (words word).filter keep := by
  cases word with
  | nil =>
      rw [kept_nil]
      rfl
  | cons c rest =>
      have hself := words_word_append (s := []) (List.cons_ne_nil c rest) hword
        (by simp)
      rw [List.append_nil, words_nil] at hself
      rw [hself, kept, List.filter_singleton]
      cases keep (c :: rest) with
      | true => exact hself
      | false => rfl

/-- The blank after a word ends it, whether or not the word is still there. -/
theorem words_keepWordsFrom (hword : ∀ c ∈ word, isBlank c = false) :
    words (keepWordsFrom keep word s) = (words (word ++ s)).filter keep := by
  induction s generalizing word with
  | nil => rw [keepWordsFrom, List.append_nil, words_kept hword]
  | cons c s ih =>
      rw [keepWordsFrom]
      split
      · next hc =>
          rw [words_append_cons hc, words_append_cons hc, words_kept hword,
            ih (by simp), List.filter_append, List.nil_append]
      · next hc =>
          rw [ih, List.append_assoc]
          · rfl
          · intro d hd
            rcases List.mem_append.1 hd with hd | hd
            · exact hword d hd
            · rw [List.mem_singleton.1 hd]
              exact Bool.eq_false_iff.2 hc

theorem words_keepWords (keep : List Char → Bool) (s : List Char) :
    words (keepWords keep s) = (words s).filter keep :=
  words_keepWordsFrom (by simp)

theorem isBlank_of_mem_head?_keepWords
    (hs : ∀ c ∈ s.head?, isBlank c = true) :
    ∀ c ∈ (keepWords keep s).head?, isBlank c = true := by
  cases s with
  | nil =>
      rw [keepWords, keepWordsFrom, kept_nil]
      simp
  | cons c s =>
      have hc : isBlank c = true := hs c rfl
      rw [keepWords, keepWordsFrom, if_pos hc, kept_nil]
      simpa using hc

end Text

namespace Statement

/-- The statement without the words that mention no owner, if it makes a
rule. -/
def tidied? (s : Statement) : Option Statement :=
  if s.owners.isEmpty then none
  else some { s with mentions := s.mentions.filter RuleFile.isMention }

variable {s t : Statement}

theorem eq_of_tidied? (h : s.tidied? = some t) : s.owners ≠ [] ∧
    t = { s with mentions := s.mentions.filter RuleFile.isMention } := by
  rw [tidied?] at h
  split at h
  · cases h
  · next hne => exact ⟨by simpa using hne, (Option.some.inj h).symm⟩

theorem owners_of_tidied? (h : s.tidied? = some t) : t.owners = s.owners := by
  rw [(eq_of_tidied? h).2, owners, owners, List.filterMap_filter]
  refine congrArg List.eraseDups (List.filterMap_congr fun word _ => ?_)
  rw [RuleFile.isMention]
  cases Owner.ofMention? word <;> rfl

theorem rule?_of_tidied? (h : s.tidied? = some t) (position line : Nat) :
    t.rule? position line = s.rule? position line := by
  rw [rule?, rule?, owners_of_tidied? h, (eq_of_tidied? h).2]

theorem notes_of_tidied? (h : s.tidied? = some t) : t.notes = [] := by
  have hne : t.owners.isEmpty = false := by
    rw [owners_of_tidied? h]
    simpa using (eq_of_tidied? h).1
  have hstrays : t.strays = [] := by
    rw [(eq_of_tidied? h).2, strays, List.filter_filter, List.filter_eq_nil_iff]
    intro word _
    rw [RuleFile.isMention]
    cases Owner.ofMention? word <;> simp
  rw [notes, hstrays, hne]
  rfl

theorem rule?_of_tidied?_eq_none (h : s.tidied? = none) (position line : Nat) :
    s.rule? position line = none := by
  rw [tidied?] at h
  split at h
  · next hnil => rw [rule?, if_pos hnil]
  · cases h

end Statement

namespace RuleFile

variable {line : List Char} {s : Statement}

/-! ## A tidied line -/

theorem tidiedBody_sublist (body : List Char) :
    (tidiedBody body).Sublist body := by
  conv_rhs => rw [← Text.margin_append body]
  exact ((Text.keepWords_sublist isMention _).append_left _).append_left _

theorem tidiedRule_sublist (line : List Char) :
    (tidiedRule line).Sublist line := by
  have hline := (tidiedBody_sublist (line.takeWhile (· != '#'))).append_right
    (line.dropWhile (· != '#'))
  rwa [List.takeWhile_append_dropWhile] at hline

theorem tidiedLine_sublist (line : List Char) :
    (tidiedLine line).Sublist line := by
  rw [tidiedLine]
  split
  · exact List.nil_sublist line
  · split
    · exact List.nil_sublist line
    · exact tidiedRule_sublist line

/-- What is left of the comment still begins with its `#`. -/
theorem takeWhile_tidiedRule (line : List Char) :
    (tidiedRule line).takeWhile (· != '#') =
      tidiedBody (line.takeWhile (· != '#')) := by
  have hcomment : (line.dropWhile (· != '#')).takeWhile (· != '#') = [] := by
    cases hdrop : line.dropWhile (· != '#') with
    | nil => rfl
    | cons c rest =>
        have hc : (c != '#') = false :=
          Text.not_of_mem_head?_dropWhile c (by rw [hdrop]; rfl)
        rw [List.takeWhile_cons, hc]
        rfl
  rw [tidiedRule, List.takeWhile_append_of_pos, hcomment, List.append_nil]
  intro c hc
  have hbody := (tidiedBody_sublist _).subset hc
  exact List.mem_takeWhile_imp (p := (· != '#')) hbody

theorem ofLine?_tidiedRule (h : Statement.ofLine? line = some s) :
    Statement.ofLine? (tidiedRule line) =
      some { s with mentions := s.mentions.filter isMention } := by
  have hsome : Statement.ofLine? line ≠ none := by
    rw [h]
    exact Option.some_ne_none s
  have hsays := Statement.exists_of_ofLine?_ne_none hsome
  rw [Statement.ofLine?_eq_some hsays] at h
  rw [Statement.ofLine?, takeWhile_tidiedRule, tidiedBody,
    Text.words_blank_append Text.isBlank_of_mem_margin,
    Text.words_word_append (Text.firstWord_ne_nil hsays)
      Text.isBlank_of_mem_firstWord (Text.isBlank_of_mem_head?_keepWords
        Text.isBlank_of_mem_head?_afterFirstWord),
    Text.words_keepWords, ← Option.some.inj h]

theorem ofLine?_tidiedLine (line : List Char) :
    Statement.ofLine? (tidiedLine line) =
      (Statement.ofLine? line).bind Statement.tidied? := by
  rw [tidiedLine]
  cases hline : Statement.ofLine? line with
  | none => rfl
  | some s =>
      rw [Option.bind_some, Statement.tidied?]
      dsimp only
      split
      · rfl
      · exact ofLine?_tidiedRule hline

/-! ## A tidied text -/

theorem splitOn_tidied (text : List Char) :
    (tidied text).splitOn '\n' = (text.splitOn '\n').map tidiedLine := by
  rw [tidied, List.splitOn_intercalate]
  · intro line hline
    obtain ⟨original, horiginal, rfl⟩ := List.mem_map.1 hline
    rw [List.splitOn_eq_splitOnP] at horiginal
    intro hfeed
    have hfalse := Text.not_of_mem_splitOnP horiginal '\n'
      ((tidiedLine_sublist original).subset hfeed)
    simp at hfalse
  · exact mt List.map_eq_nil_iff.1 (List.splitOn_ne_nil '\n' text)

/-- The statements that make rules, without stray words. -/
def tidiedStatements (found : List (Statement × Nat)) :
    List (Statement × Nat) :=
  found.filterMap fun entry => entry.1.tidied?.map (·, entry.2)

theorem statementsOn_map_tidiedLine (n : Nat) (lines : List (List Char)) :
    statementsOn n (lines.map tidiedLine) =
      tidiedStatements (statementsOn n lines) := by
  induction lines generalizing n with
  | nil => rfl
  | cons line lines ih =>
      rw [List.map_cons, statementsOn_cons, statementsOn_cons, ih,
        ofLine?_tidiedLine, tidiedStatements, tidiedStatements,
        List.filterMap_append]
      congr 1
      cases Statement.ofLine? line with
      | none => rfl
      | some s => cases h : s.tidied? <;> simp [h]

theorem statements_tidied (text : List Char) :
    statements (tidied text) = tidiedStatements (statements text) := by
  rw [statements_eq, splitOn_tidied, statementsOn_map_tidiedLine, statements_eq]

theorem rulesFrom_tidiedStatements (position : Nat)
    (found : List (Statement × Nat)) :
    rulesFrom position (tidiedStatements found) = rulesFrom position found := by
  induction found generalizing position with
  | nil => rfl
  | cons entry found ih =>
      obtain ⟨s, line⟩ := entry
      rw [tidiedStatements, List.filterMap_cons, rulesFrom]
      cases h : s.tidied? with
      | none =>
          rw [Statement.rule?_of_tidied?_eq_none h]
          exact ih position
      | some t =>
          rw [Option.map_some]
          dsimp only
          rw [rulesFrom, Statement.rule?_of_tidied? h]
          split
          · exact ih position
          · exact congrArg _ (ih (position + 1))

theorem diagnosticsOf_tidiedStatements (found : List (Statement × Nat)) :
    diagnosticsOf (tidiedStatements found) = [] := by
  rw [diagnosticsOf, List.flatMap_eq_nil_iff]
  intro entry hentry
  obtain ⟨⟨s, line⟩, _, hmade⟩ := List.mem_filterMap.1 hentry
  obtain ⟨t, ht, rfl⟩ := Option.map_eq_some_iff.1 hmade
  rw [Statement.notes_of_tidied? ht, List.map_nil]

theorem ofChars_tidied (text : List Char) :
    ofChars (tidied text) = ⟨(ofChars text).rules, []⟩ := by
  rw [ofChars_eq, statements_tidied, rulesFrom_tidiedStatements,
    diagnosticsOf_tidiedStatements, ofChars_eq]

/-! ## Accounts of a text -/

/-- A line that says anything makes one rule, or the last thing that is said of
it is that it makes none. What is said before that are the words after the
pattern that mention no owner, all of them in their order, and the other words
have their owners in the rule. Without all that is said to be dropped, the text
makes the same rules and leaves nothing to say. -/
theorem parse_tells_what_it_drops (text : String) :
    let file := parse text
    (∀ (place : Nat) (h : place < (Text.lines text.toList).length),
      let body := (Text.lines text.toList)[place].takeWhile (· != '#')
      (∃ c ∈ body, Text.isBlank c = false) →
      ∃ pattern words, Text.words body = pattern :: words ∧
        (∀ word ∈ words, ∀ o, Owner.ofMention? word = some o →
          ∃ rule ∈ file.rulesOn (place + 1), o ∈ rule.owners) ∧
        ((∃ rule, file.rulesOn (place + 1) = [rule] ∧
            rule.pattern = .ofList pattern ∧
            file.notesOn (place + 1) = Statement.strayNotes words) ∨
          (file.rulesOn (place + 1) = [] ∧
            file.notesOn (place + 1) =
              Statement.strayNotes words ++ [.noOwners (.ofList pattern)]))) ∧
      file.diagnostics.Pairwise (fun d d' => d.line ≤ d'.line) ∧
      parse (.ofList (tidied text.toList)) = ⟨file.rules, []⟩ := by
  intro file
  refine ⟨?_, pairwise_line_diagnostics text, ?_⟩
  · intro place h body hsays
    obtain ⟨position, hrules⟩ := rulesOn_parse h
    have hnotes := notesOn_parse h
    rw [Statement.ofLine?_eq_some hsays, Option.bind_some] at hrules
    rw [Statement.ofLine?_eq_some hsays, Option.map_some, Option.getD_some]
      at hnotes
    let s : Statement :=
      ⟨Text.firstWord body, Text.words (Text.afterFirstWord body)⟩
    refine ⟨s.pattern, s.mentions, Text.words_eq_cons hsays, ?_⟩
    rw [hrules, hnotes]
    refine ⟨fun word hword o ho => ?_, s.rule?_or_noOwners position (place + 1)⟩
    exact Statement.exists_rule?_of_mention hword ho position (place + 1)
  · rw [parse, String.toList_ofList, ofChars_tidied]
    rfl

/-- The first line has two strays that are the same, a mention that comes twice
and a comment that joins a stray. The second has nothing but a pattern, and the
third is a comment. -/
theorem parse_tells_what_it_drops_strays :
    let text := "/a x @b x\t@b y#@c\n*.md\r\n#/d @e"
    let file := parse text
    ∃ h : 0 < (Text.lines text.toList).length,
      (∃ c ∈ (Text.lines text.toList)[0].takeWhile (· != '#'),
        Text.isBlank c = false) ∧
      (∃ rule ∈ file.rulesOn 1, Owner.ofName "b" ∈ rule.owners) ∧
      file.notesOn 1 =
        [.invalidOwner "x", .invalidOwner "x", .invalidOwner "y"] ∧
      file.notesOn 2 = [.noOwners "*.md"] ∧
      tidied text.toList = "/a  @b \t@b #@c\n\n".toList ∧
      parse (.ofList (tidied text.toList)) =
        ⟨[⟨"/a", [.ofName "b"], 0, 1⟩], []⟩ := by
  intro text file
  have hfirst : (Text.lines text.toList)[0]? =
      some "/a x @b x\t@b y#@c".toList := by
    decide
  obtain ⟨h, hline⟩ := List.getElem?_eq_some_iff.1 hfirst
  have hsays : ∃ c ∈ (Text.lines text.toList)[0].takeWhile (· != '#'),
      Text.isBlank c = false := by
    rw [hline]
    exact ⟨'/', by decide, by decide⟩
  have hspoken :
      Text.words ((Text.lines text.toList)[0].takeWhile (· != '#')) =
        ["/a".toList, ['x'], "@b".toList, ['x'], "@b".toList, ['y']] := by
    rw [hline]
    decide
  obtain ⟨hlines, _, htidied⟩ := parse_tells_what_it_drops text
  obtain ⟨pattern, words, hwords, howners, _⟩ := hlines 0 h hsays
  have hmention : "@b".toList ∈ words := by
    rw [← (List.cons.inj (hspoken.symm.trans hwords)).2]
    decide
  have hkept : ∃ rule ∈ file.rulesOn 1, Owner.ofName "b" ∈ rule.owners :=
    howners _ hmention _ (by decide)
  have hrules : file.rules = [⟨"/a", [.ofName "b"], 0, 1⟩] := by decide
  rw [← hrules]
  exact ⟨h, hsays, hkept, by decide, by decide, by decide, htidied⟩

end RuleFile

end Signoff
