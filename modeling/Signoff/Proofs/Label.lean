import Mathlib.Data.List.TakeWhile
import Signoff.Label
import Signoff.Proofs.Glob.Segments

/-!
# Labels are names

A label is read off one segment of its pattern, and there are three ways to do
this (`isReadOff_ofChars`). Each of them takes the segment without its
wildcards, so a label is plain text whatever the pattern is made of. Only dots
are dropped beyond that, so it takes a segment of nothing but dots to leave a
label empty.

What a directory is called does not depend on how a pattern says that all of it
is meant. The slash, the star and the two stars are read in different places, by
the mark at the end, as a last segment that names nothing and as the first
segment that reaches to any depth, and each place sends back to the last segment
before it (`ofChars_directory`).
-/

namespace Signoff.Label

variable {pattern directory s label : List Char}
  {parts reversed : List (List Char)}

/-! ## Segments -/

theorem mem_segments_iff :
    s ∈ segments pattern ↔ s ∈ pattern.splitOn '/' ∧ s ≠ [] := by
  simp [segments]

theorem segments_append_slash (front back : List Char) :
    segments (front ++ '/' :: back) = segments front ++ segments back := by
  rw [segments, List.splitOn_append_cons_self, List.filter_append]
  rfl

theorem isWild_eq_false_iff : isWild s = false ↔ '*' ∉ s ∧ '?' ∉ s := by
  rw [isWild, List.any_eq_false]
  simp only [Bool.or_eq_true, beq_iff_eq, not_or]
  constructor
  · intro h
    exact ⟨fun hstar => (h _ hstar).1 rfl, fun hmark => (h _ hmark).2 rfl⟩
  · intro h c hc
    exact ⟨fun heq => h.1 (heq ▸ hc), fun heq => h.2 (heq ▸ hc)⟩

theorem isAnything_eq_false (h : isWild s = false) : isAnything s = false := by
  obtain ⟨hstar, _⟩ := isWild_eq_false_iff.1 h
  rw [isAnything, Bool.or_eq_false_iff, beq_eq_false_iff_ne,
    beq_eq_false_iff_ne]
  exact ⟨fun heq => hstar (by simp [heq]), fun heq => hstar (by simp [heq])⟩

theorem anyDepth_notMem (h : ∀ s ∈ parts, isWild s = false) :
    ['*', '*'] ∉ parts :=
  fun hmem => absurd (h _ hmem) (by decide)

/-! ## Where a label comes from -/

/-- The label says nothing of the segments, or it is what one of them names. -/
inductive IsReadOff (parts : List (List Char)) : List Char → Prop
  | global : IsReadOff parts global
  | extension {s : List Char} : '*' :: '.' :: s ∈ parts → isWild s = false →
      IsReadOff parts (s ++ "_files".toList)
  | name {s : List Char} : s ∈ parts → isWild s = false →
      IsReadOff parts (undotted s)
  | stem {s : List Char} : s ∈ parts → isWild s = false →
      IsReadOff parts (stem s)

theorem isReadOff_named (h : reversed ⊆ parts) :
    IsReadOff parts (ofReversed.named reversed) := by
  rw [ofReversed.named]
  cases hfind : reversed.find? (!isWild ·) with
  | none => exact .global
  | some s =>
      refine .name (h (List.mem_of_find?_eq_some hfind)) ?_
      simpa using List.find?_some hfind

theorem isReadOff_ofReversed (directory : Bool) (h : reversed ⊆ parts) :
    IsReadOff parts (ofReversed directory reversed) := by
  fun_cases ofReversed directory reversed with
  | case1 => exact .global
  | case2 last earlier hplain =>
      exact .name (h List.mem_cons_self) (by simpa using hplain)
  | case3 last earlier hplain =>
      exact .stem (h List.mem_cons_self) (by simpa using hplain)
  | case4 earlier s _ _ => exact isReadOff_named (List.subset_of_cons_subset h)
  | case5 earlier s hwild _ =>
      exact .extension (h List.mem_cons_self) (Bool.eq_false_iff.2 hwild)
  | case6 last earlier _ _ =>
      exact isReadOff_named (List.subset_of_cons_subset h)

theorem beforeAnyDepth?_eq_some (h : beforeAnyDepth? parts = some s) :
    s ∈ parts ∧ isWild s = false := by
  rw [beforeAnyDepth?] at h
  split at h
  · have hmem := List.mem_reverse.1 (List.mem_of_find?_eq_some h)
    exact ⟨(List.takeWhile_prefix _).subset hmem,
      by simpa using List.find?_some h⟩
  · cases h

theorem isReadOff_ofChars (pattern : List Char) :
    IsReadOff (segments pattern) (ofChars pattern) := by
  fun_cases ofChars pattern with
  | case1 => exact .global
  | case2 parts _ s hname =>
      obtain ⟨hmem, hplain⟩ := beforeAnyDepth?_eq_some hname
      exact .name hmem hplain
  | case3 =>
      exact isReadOff_ofReversed _ (List.reverse_subset.2 (List.Subset.refl _))

/-! ## What a label is made of -/

theorem undotted_subset (s : List Char) : undotted s ⊆ s :=
  (List.dropWhile_suffix _).subset

theorem stem_subset (s : List Char) : stem s ⊆ s :=
  fun _ hc => undotted_subset s ((List.takeWhile_prefix _).subset hc)

theorem undotted_ne_nil (h : ∃ c ∈ s, c ≠ '.') : undotted s ≠ [] := by
  obtain ⟨c, hc, hne⟩ := h
  intro hnil
  have hdot := List.dropWhile_eq_nil_iff.1 hnil c hc
  exact hne (by simpa using hdot)

/-- The first character that is kept is no dot, so the stem has it too. -/
theorem stem_ne_nil (h : ∃ c ∈ s, c ≠ '.') : stem s ≠ [] := by
  obtain ⟨c, rest, hcons⟩ := List.exists_cons_of_ne_nil (undotted_ne_nil h)
  have hhead : c ∈ (undotted s).head? := by
    rw [hcons]
    rfl
  have hc : (c == '.') = false := Text.not_of_mem_head?_dropWhile c hhead
  rw [stem, hcons]
  simp [bne, hc]

theorem forall_plain_iff : (∀ c ∈ s, c ≠ '/' ∧ c ≠ '*' ∧ c ≠ '?') ↔
    '/' ∉ s ∧ isWild s = false := by
  rw [isWild_eq_false_iff]
  refine ⟨fun h => ?_, fun h c hc => ?_⟩
  · exact ⟨fun hc => (h _ hc).1 rfl, fun hc => (h _ hc).2.1 rfl,
      fun hc => (h _ hc).2.2 rfl⟩
  · exact ⟨fun heq => h.1 (heq ▸ hc), fun heq => h.2.1 (heq ▸ hc),
      fun heq => h.2.2 (heq ▸ hc)⟩

theorem IsReadOff.plain (h : IsReadOff parts label)
    (hparts : ∀ s ∈ parts, '/' ∉ s) :
    ∀ c ∈ label, c ≠ '/' ∧ c ≠ '*' ∧ c ≠ '?' := by
  intro c hc
  cases h with
  | global =>
      have hglobal : '/' ∉ Label.global ∧ isWild Label.global = false := by
        decide
      exact forall_plain_iff.2 hglobal c hc
  | @extension s hmem hwild =>
      rcases List.mem_append.1 hc with hc | hc
      · refine forall_plain_iff.2 ⟨fun hslash => ?_, hwild⟩ c hc
        exact hparts _ hmem
          (List.mem_cons_of_mem _ (List.mem_cons_of_mem _ hslash))
      · have hfiles : '/' ∉ "_files".toList ∧
            isWild "_files".toList = false := by
          decide
        exact forall_plain_iff.2 hfiles c hc
  | name hmem hwild =>
      exact forall_plain_iff.2 ⟨hparts _ hmem, hwild⟩ c (undotted_subset _ hc)
  | stem hmem hwild =>
      exact forall_plain_iff.2 ⟨hparts _ hmem, hwild⟩ c (stem_subset _ hc)

theorem IsReadOff.ne_nil (h : IsReadOff parts label)
    (hparts : ∀ s ∈ parts, ∃ c ∈ s, c ≠ '.') : label ≠ [] := by
  cases h with
  | global => decide
  | extension _ _ => exact List.append_ne_nil_of_right_ne_nil _ (by decide)
  | name hmem _ => exact undotted_ne_nil (hparts _ hmem)
  | stem hmem _ => exact stem_ne_nil (hparts _ hmem)

/-! ## Directories -/

/-- Without a segment for any depth the label comes from the end. -/
theorem ofChars_of_mem (hmem : s ∈ segments pattern)
    (hplain : isWild s = false) :
    ofChars pattern = ((beforeAnyDepth? (segments pattern)).map undotted).getD
      (ofReversed (pattern.getLast? == some '/')
        (segments pattern).reverse) := by
  have hsome : ¬ (segments pattern).all isAnything = true := by
    intro hall
    have hany := List.all_eq_true.1 hall s hmem
    rw [isAnything_eq_false hplain] at hany
    cases hany
  unfold ofChars
  rw [if_neg hsome]
  cases beforeAnyDepth? (segments pattern) <;> rfl

theorem named_cons (h : isWild s = false) (earlier : List (List Char)) :
    ofReversed.named (s :: earlier) = undotted s := by
  rw [ofReversed.named, List.find?_cons_of_pos (by rw [h]; rfl)]
  rfl

theorem beforeAnyDepth?_concat {earlier : List (List Char)}
    (h : ∀ t ∈ earlier ++ [s], isWild t = false) :
    beforeAnyDepth? (earlier ++ [s] ++ [['*', '*']]) = some s := by
  have hwhile : (earlier ++ [s] ++ [['*', '*']]).takeWhile
      (· != ['*', '*']) = earlier ++ [s] := by
    rw [List.takeWhile_append_of_pos]
    · exact List.append_nil _
    · intro t ht
      rw [bne_iff_ne]
      exact fun heq => anyDepth_notMem h (heq ▸ ht)
  rw [beforeAnyDepth?, if_pos (by simp), hwhile, List.reverse_append]
  exact List.find?_cons_of_pos
    (by rw [h s (List.mem_append_right _ (List.mem_singleton_self s))]; rfl)

theorem beforeAnyDepth?_eq_none (h : ['*', '*'] ∉ parts) :
    beforeAnyDepth? parts = none := if_neg h

/-- The three ways to mean all of a directory give its own name. -/
theorem ofChars_directory {earlier : List (List Char)}
    (hsegments : segments directory = earlier ++ [s])
    (hplain : ∀ t ∈ earlier ++ [s], isWild t = false) :
    ofChars (directory ++ ['/']) = undotted s ∧
      ofChars (directory ++ ['/', '*']) = undotted s ∧
      ofChars (directory ++ ['/', '*', '*']) = undotted s := by
  have hs : isWild s = false := hplain s (by simp)
  have hnone := anyDepth_notMem hplain
  have hparts (ending : List Char) :
      segments (directory ++ '/' :: ending) =
        earlier ++ [s] ++ segments ending := by
    rw [segments_append_slash, hsegments]
  have hmem (ending : List Char) :
      s ∈ segments (directory ++ '/' :: ending) := by
    rw [hparts]
    simp
  refine ⟨?_, ?_, ?_⟩
  · have hall : segments (directory ++ ['/']) = earlier ++ [s] :=
      (hparts []).trans (List.append_nil _)
    rw [ofChars_of_mem (hmem []) hs, hall, beforeAnyDepth?_eq_none hnone]
    simp [ofReversed, hs]
  · have hall :
        segments (directory ++ ['/', '*']) = earlier ++ [s] ++ [['*']] :=
      hparts ['*']
    have hnone' : ['*', '*'] ∉ earlier ++ [s] ++ [['*']] := by
      simpa using hnone
    rw [ofChars_of_mem (hmem ['*']) hs, hall, beforeAnyDepth?_eq_none hnone']
    simp [ofReversed, isWild, named_cons hs]
  · have hall : segments (directory ++ ['/', '*', '*']) =
        earlier ++ [s] ++ [['*', '*']] := hparts ['*', '*']
    rw [ofChars_of_mem (hmem ['*', '*']) hs, hall,
      beforeAnyDepth?_concat hplain]
    rfl

/-! ## Labels of patterns -/

theorem ofChars_cons_slash (pattern : List Char) :
    ofChars ('/' :: pattern) = ofChars pattern := by
  have hsegments : segments ('/' :: pattern) = segments pattern :=
    segments_append_slash [] pattern
  cases pattern with
  | nil => rfl
  | cons c rest =>
      rw [ofChars, ofChars, hsegments, List.getLast?_cons_cons]

/-- A label has neither slashes nor wildcards, an anchor in front of the pattern
does not change it, and if no segment is all dots there is something to it. A
directory is called by its last segment without the dots in front, whichever way
a pattern takes all that is in it. -/
theorem ofPattern_names_directory (pattern directory : String) :
    (∀ c ∈ (ofPattern pattern).toList, c ≠ '/' ∧ c ≠ '*' ∧ c ≠ '?') ∧
      ofPattern ("/" ++ pattern) = ofPattern pattern ∧
      ((∀ s ∈ pattern.toList.splitOn '/', s ≠ [] → ∃ c ∈ s, c ≠ '.') →
        ofPattern pattern ≠ "") ∧
      ('*' ∉ directory.toList → '?' ∉ directory.toList →
        (∃ s ∈ directory.toList.splitOn '/', s ≠ []) →
        ∃ last, (segments directory.toList).getLast? = some last ∧
          ∀ ending ∈ ["/", "/*", "/**"],
            ofPattern (directory ++ ending) = .ofList (undotted last)) := by
  have hread := isReadOff_ofChars pattern.toList
  refine ⟨?_, ?_, ?_, ?_⟩
  · rw [ofPattern, String.toList_ofList]
    exact hread.plain fun s hs =>
      Glob.slash_notMem_of_mem_splitOn (mem_segments_iff.1 hs).1
  · rw [ofPattern, String.toList_append]
    exact congrArg String.ofList (ofChars_cons_slash pattern.toList)
  · intro hdots
    rw [ofPattern, Ne, ← String.toList_eq_nil_iff, String.toList_ofList]
    refine hread.ne_nil fun s hs => ?_
    obtain ⟨hs, hne⟩ := mem_segments_iff.1 hs
    exact hdots s hs hne
  · intro hstar hmark hsome
    obtain ⟨s, hs, hne⟩ := hsome
    have hplain : ∀ t ∈ segments directory.toList, isWild t = false := by
      intro t ht
      have ht := (mem_segments_iff.1 ht).1
      rw [List.splitOn_eq_splitOnP] at ht
      have hsub := (Text.sublist_of_mem_splitOnP ht).subset
      exact isWild_eq_false_iff.2
        ⟨fun h => hstar (hsub h), fun h => hmark (hsub h)⟩
    have hlast := List.getLast?_eq_some_getLast
      (List.ne_nil_of_mem (mem_segments_iff.2 ⟨hs, hne⟩))
    obtain ⟨earlier, hsegments⟩ := List.getLast?_eq_some_iff.1 hlast
    obtain ⟨hslash, hone, hany⟩ :=
      ofChars_directory hsegments (hsegments ▸ hplain)
    refine ⟨_, hlast, fun ending hending => ?_⟩
    rw [ofPattern, String.toList_append]
    simp only [List.mem_cons, List.not_mem_nil, or_false] at hending
    rcases hending with rfl | rfl | rfl
    · exact congrArg String.ofList hslash
    · exact congrArg String.ofList hone
    · exact congrArg String.ofList hany

/-- A hidden directory behind a doubled slash, and a pattern whose last segment
that is a name comes with dots and before another with wildcards. -/
theorem ofPattern_names_directory_hidden :
    (∀ s ∈ "a/..b.c/d?".toList.splitOn '/', s ≠ [] → ∃ c ∈ s, c ≠ '.') ∧
      ofPattern "a/..b.c/d?" ≠ "" ∧
      '*' ∉ "./a//.github".toList ∧ '?' ∉ "./a//.github".toList ∧
      (∃ s ∈ "./a//.github".toList.splitOn '/', s ≠ []) ∧
      ∃ last, (segments "./a//.github".toList).getLast? = some last ∧
        ∀ ending ∈ ["/", "/*", "/**"],
          ofPattern ("./a//.github" ++ ending) = .ofList (undotted last) := by
  obtain ⟨_, _, hne, hdirectory⟩ :=
    ofPattern_names_directory "a/..b.c/d?" "./a//.github"
  have hsplit : "a/..b.c/d?".toList.splitOn '/' =
      [['a'], ['.', '.', 'b', '.', 'c'], ['d', '?']] := by
    decide
  have hdots :
      ∀ s ∈ "a/..b.c/d?".toList.splitOn '/', s ≠ [] → ∃ c ∈ s, c ≠ '.' := by
    rw [hsplit]
    simp
  have hsome : ∃ s ∈ "./a//.github".toList.splitOn '/', s ≠ [] := by
    decide
  exact ⟨hdots, hne hdots, by decide, by decide, hsome,
    hdirectory (by decide) (by decide) hsome⟩

end Signoff.Label
