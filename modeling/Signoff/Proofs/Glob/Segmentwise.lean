import Signoff.Proofs.Pattern
import Signoff.Proofs.Glob.Segments
import Signoff.Proofs.Glob.Tokens

/-!
# Expressions cover paths segment by segment

An expression is one flat sequence of pieces, and those for `**` reach across
slashes. Here they are shown to consume whole segments only, so that the
expression of a glob covers a path exactly if the glob covers it segment by
segment.

The statement that carries the induction is `Reads`: some pieces decide about a
path as a property of its segments does. It holds of the pieces from any segment
of the pattern to the end, and each kind of segment passes it on to the pieces
with that segment in front. Behind the last segment the path is not at the start
of a segment but at the end of one, which is what `Ends` is about.

`**` at the end needs a word of its own. It takes all that is left of a path, so
nothing comes after it unless the pattern is about a directory, although it may
leave anything as far as segments go. Both ways of looking at it accept every
path, and `reads_anyDepth_last` says no more than that.
-/

namespace Signoff.Glob

variable {ps : List Piece} {Q Left : List (List Char) → Prop}

/-- The pieces decide about a path as the property does about its segments. -/
def Reads (ps : List Piece) (Q : List (List Char) → Prop) : Prop :=
  ∀ path, OnLine path → (Spans ps path ↔ Q (path.splitOn '/'))

/-- The same behind a segment: either the path is over, or a slash comes
first and the property decides about the segments after it. -/
def Ends (ps : List Piece) (Left : List (List Char) → Prop) : Prop :=
  ∀ path, OnLine path →
    (Spans ps path ↔
      (path = [] ∧ Left []) ∨
        ∃ back, path = '/' :: back ∧ Left (back.splitOn '/'))

/-! ## From piece to piece -/

theorem reads_directories (h : Reads ps Q) (hnil : ¬ Q []) :
    Reads (.directories :: ps)
      (fun segs => ∃ skipped rest, segs = skipped ++ rest ∧ Q rest) := by
  intro path hline
  rw [spans_directories hline]
  constructor
  · intro hs
    rcases hs with hs | ⟨front, back, hpath, hs⟩
    · exact ⟨[], _, rfl, (h path hline).1 hs⟩
    · rw [hpath] at hline
      refine ⟨front.splitOn '/', back.splitOn '/', ?_,
        (h back hline.right.tail).1 hs⟩
      rw [hpath, List.splitOn_append_cons_self]
  · intro hs
    obtain ⟨skipped, rest, hsegs, hQ⟩ := hs
    by_cases hskip : skipped = []
    · rw [hskip, List.nil_append] at hsegs
      exact Or.inl ((h path hline).2 (hsegs ▸ hQ))
    · rcases (append_eq_splitOn_iff hskip).1 hsegs with
        ⟨_, hrest⟩ | ⟨front, back, hpath, _, hrest⟩
      · exact absurd (hrest ▸ hQ) hnil
      · rw [hpath] at hline
        exact Or.inr ⟨front, back, hpath,
          (h back hline.right.tail).2 (hrest ▸ hQ)⟩

/-- The slash between two segments of a pattern. -/
theorem ends_slash (h : Reads ps Q) (hnil : ¬ Q []) :
    Ends (.one (.exactly '/') :: ps) Q := by
  intro path hline
  rw [spans_exactly]
  constructor
  · intro hs
    obtain ⟨back, hpath, hs⟩ := hs
    rw [hpath] at hline
    exact Or.inr ⟨back, hpath, (h back hline.tail).1 hs⟩
  · intro hs
    rcases hs with ⟨_, hQ⟩ | ⟨back, hpath, hQ⟩
    · exact absurd hQ hnil
    · rw [hpath] at hline
      exact ⟨back, hpath, (h back hline.tail).2 hQ⟩

theorem reads_tokens {p : List Char} (hp : '/' ∉ p)
    (hstars : starsApart p = true) (h : Ends ps Left) :
    Reads ((Token.ofChars p).map Token.piece ++ ps)
      (fun segs => ∃ segment rest,
        segs = segment :: rest ∧ Describes p segment ∧ Left rest) := by
  intro path hline
  rw [spans_tokens hp hstars]
  constructor
  · intro hb
    obtain ⟨front, rest, hpath, hslash, hD, hs⟩ := hb
    rw [hpath] at hline
    rcases (h rest hline.right).1 hs with ⟨hrest, hleft⟩ | ⟨back, hrest, hleft⟩
    · rw [hrest, List.append_nil] at hpath
      rw [hpath]
      exact ⟨front, [], List.splitOn_eq_singleton hslash, hD, hleft⟩
    · rw [hpath, hrest]
      exact ⟨front, back.splitOn '/',
        List.splitOn_append_cons_self_of_not_mem hslash back, hD, hleft⟩
  · intro hs
    obtain ⟨segment, rest, hsegs, hD, hleft⟩ := hs
    rcases splitOn_cases path with
      ⟨hslash, hone⟩ | ⟨s, back, hslash, hpath, hcons⟩
    · rw [hone] at hsegs
      simp only [List.cons.injEq] at hsegs
      obtain ⟨hseg, hrest⟩ := hsegs
      refine ⟨path, [], by simp, hslash, hseg ▸ hD, ?_⟩
      exact (h [] (by simp [OnLine])).2 (Or.inl ⟨rfl, hrest ▸ hleft⟩)
    · rw [hcons] at hsegs
      simp only [List.cons.injEq] at hsegs
      obtain ⟨hseg, hrest⟩ := hsegs
      refine ⟨s, '/' :: back, hpath, hslash, hseg ▸ hD, ?_⟩
      rw [hpath] at hline
      exact (h _ hline.right).2 (Or.inr ⟨back, rfl, hrest ▸ hleft⟩)

theorem reads_anyDepth (h : Ends ps Left) :
    Reads (.many .onLine :: ps)
      (fun segs => ∃ taken rest,
        segs = taken ++ rest ∧ taken ≠ [] ∧ Left rest) := by
  intro path hline
  rw [spans_many_onLine hline]
  constructor
  · intro hs
    obtain ⟨front, rest, hpath, hs⟩ := hs
    have hne := List.splitOn_ne_nil '/' front
    rw [hpath] at hline
    rcases (h rest hline.right).1 hs with ⟨hrest, hleft⟩ | ⟨back, hrest, hleft⟩
    · rw [hrest, List.append_nil] at hpath
      exact ⟨front.splitOn '/', [], by rw [hpath, List.append_nil], hne, hleft⟩
    · refine ⟨front.splitOn '/', back.splitOn '/', ?_, hne, hleft⟩
      rw [hpath, hrest, List.splitOn_append_cons_self]
  · intro hs
    obtain ⟨taken, rest, hsegs, hne, hleft⟩ := hs
    rcases (append_eq_splitOn_iff hne).1 hsegs with
      ⟨_, hrest⟩ | ⟨front, back, hpath, _, hrest⟩
    · refine ⟨path, [], by simp, ?_⟩
      exact (h [] (by simp [OnLine])).2 (Or.inl ⟨rfl, hrest ▸ hleft⟩)
    · refine ⟨front, '/' :: back, hpath, ?_⟩
      rw [hpath] at hline
      exact (h _ hline.right).2 (Or.inr ⟨back, rfl, hrest ▸ hleft⟩)

/-- Everything goes for a path that only has to be on a line. -/
theorem reads_anyDepth_last :
    Reads [.many .onLine]
      (fun segs => ∃ taken rest, segs = taken ++ rest ∧ taken ≠ [] ∧ True) := by
  intro path hline
  rw [spans_many_onLine hline]
  constructor
  · intro _
    exact ⟨path.splitOn '/', [], by simp, List.splitOn_ne_nil '/' path, trivial⟩
  · intro _
    exact ⟨path, [], by simp, rfl⟩

/-! ## The last segment and the ending -/

theorem ofChars_eq_nil_iff {p : List Char} : Token.ofChars p = [] ↔ p = [] := by
  constructor
  · intro h
    fun_cases Token.ofChars p with
    | case1 => rfl
    | case2 => rw [Token.ofChars] at h; cases h
    | case3 => rw [Token.ofChars] at h; cases h
    | case4 => rw [Token.ofChars] at h; cases h
    | case5 p rest hread => rw [Token.ofChars, hread] at h; cases h
    | case6 p rest hread => rw [Token.ofChars, hread] at h; cases h
    | case7 p hstar hstars =>
        rw [Token.ofChars] at h
        split at h <;> cases h
    | case8 c p h1 h2 h3 h4 =>
        rw [Token.ofChars.eq_6 _ _ h1 h2 h3 h4] at h
        cases h
  · intro h
    rw [h]
    rfl

/-- A lone star is read from a lone star only, and not from an escaped one. -/
theorem ofChars_eq_star_iff {p : List Char} :
    Token.ofChars p = [.star] ↔ p = ['*'] := by
  constructor
  · intro h
    have hhead := head?_of_ofChars_eq (Or.inl rfl) h
    obtain ⟨rest, hp⟩ := List.head?_eq_some_iff.1 hhead
    rw [hp] at h ⊢
    rw [Token.ofChars] at h
    split at h
    · cases h
    · cases h
    · simp only [List.cons.injEq, true_and] at h
      rw [ofChars_eq_nil_iff.1 h]
  · intro h
    rw [h]
    rfl

theorem segment_eq_star_iff {p : List Char} :
    Segment.ofChars p = .tokens [.star] ↔ p = ['*'] := by
  rw [Segment.ofChars]
  split
  · next hp => simp [hp]
  · next hp =>
      rw [Segment.tokens.injEq]
      exact ofChars_eq_star_iff

theorem segment_eq_anyDepth_iff {p : List Char} :
    Segment.ofChars p = .anyDepth ↔ p = anyDepth := by
  rw [Segment.ofChars]
  split
  · next hp => simp [hp, anyDepth]
  · next hp =>
      constructor
      · intro h
        cases h
      · intro h
        exact absurd h hp

theorem getLast?_segments {o : Outline} {last : List Char}
    (hlast : o.segments.getLast? = some last) :
    (ofOutline o).segments.getLast? = some (Segment.ofChars last) := by
  rw [show (ofOutline o).segments = o.segments.map Segment.ofChars from rfl,
    List.getLast?_map, hlast, Option.map_some]

/-- The pieces after the last segment say what may be left. Behind `**` they do
so for directories only. -/
theorem ends_ending {o : Outline} {last : List Char}
    (hlast : o.segments.getLast? = some last)
    (h : last = anyDepth → o.directory = true) :
    Ends (ofOutline o).ending o.MayBeLeft := by
  have hg := getLast?_segments hlast
  intro path hline
  rw [ending, show (ofOutline o).directory = o.directory from rfl]
  by_cases hd : o.directory = true
  · rw [if_pos hd, spans_exactly]
    simp only [Outline.MayBeLeft, if_pos hd]
    constructor
    · intro hs
      obtain ⟨back, hpath, _⟩ := hs
      exact Or.inr ⟨back, hpath, List.splitOn_ne_nil '/' back⟩
    · intro hs
      rcases hs with ⟨_, hnil⟩ | ⟨back, hpath, _⟩
      · exact absurd rfl hnil
      · rw [hpath] at hline
        refine ⟨back, hpath, (spans_many_onLine hline.tail).2 ?_⟩
        exact ⟨back, [], by simp, rfl⟩
  · have hany : last ≠ anyDepth := fun hl => hd (h hl)
    simp only [Outline.MayBeLeft, if_neg hd, coversBelow, hg, hlast]
    by_cases hstar : last = ['*']
    · have hseg := segment_eq_star_iff.2 hstar
      rw [hstar] at hseg
      simp [hseg, hstar, spans_nil]
    · have hseg : Segment.ofChars last ≠ .tokens [.star] :=
        fun hseg => hstar (segment_eq_star_iff.1 hseg)
      have hseg' : Segment.ofChars last ≠ .anyDepth :=
        fun hseg => hany (segment_eq_anyDepth_iff.1 hseg)
      simp [hseg, hseg', hstar, spans_below_nil hline]

/-! ## From segment to segment -/

theorem accounts_ordinary {p : List Char} {ps segs : List (List Char)}
    (hp : p ≠ anyDepth) :
    Accounts Left (p :: ps) segs ↔
      ∃ segment rest, segs = segment :: rest ∧ Describes p segment ∧
        Accounts Left ps rest := by
  rw [Accounts, if_neg hp]

theorem accounts_anyDepth {ps segs : List (List Char)} (hps : ps ≠ []) :
    Accounts Left (anyDepth :: ps) segs ↔
      ∃ skipped rest, segs = skipped ++ rest ∧ Accounts Left ps rest := by
  simp [Accounts, hps]

theorem accounts_anyDepth_last {segs : List (List Char)} :
    Accounts Left [anyDepth] segs ↔
      ∃ taken rest, segs = taken ++ rest ∧ taken ≠ [] ∧ Left rest := by
  simp [Accounts]

/-- A pattern needs a segment to account for. -/
theorem not_accounts_nil {ps : List (List Char)} (hps : ps ≠ []) :
    ¬ Accounts Left ps [] := by
  induction ps with
  | nil => exact absurd rfl hps
  | cons p ps ih =>
      intro h
      by_cases hp : p = anyDepth
      · rw [hp] at h
        cases ps with
        | nil =>
            obtain ⟨taken, rest, hnil, hne, _⟩ := accounts_anyDepth_last.1 h
            exact hne (List.append_eq_nil_iff.1 hnil.symm).1
        | cons q ps =>
            obtain ⟨taken, rest, hnil, hrest⟩ :=
              (accounts_anyDepth (by simp)).1 h
            rw [(List.append_eq_nil_iff.1 hnil.symm).2] at hrest
            exact ih (by simp) hrest
      · obtain ⟨segment, rest, hnil, _⟩ := (accounts_ordinary hp).1 h
        cases hnil

theorem pieces_ordinary {p : List Char} (hp : p ≠ anyDepth) :
    (Segment.ofChars p).lastPieces = (Token.ofChars p).map Token.piece ∧
      (Segment.ofChars p).innerPieces =
        (Token.ofChars p).map Token.piece ++ [.one (.exactly '/')] := by
  rw [Segment.ofChars, if_neg (show p ≠ ['*', '*'] from hp)]
  exact ⟨rfl, rfl⟩

theorem reads_lastPieces {o : Outline} {last : List Char}
    (hlast : o.segments.getLast? = some last) (hslash : '/' ∉ last)
    (hstars : last = anyDepth ∨ starsApart last = true) :
    Reads ((Segment.ofChars last).lastPieces ++ (ofOutline o).ending)
      (Accounts o.MayBeLeft [last]) := by
  by_cases hany : last = anyDepth
  · rw [segment_eq_anyDepth_iff.2 hany]
    intro path hline
    rw [hany, accounts_anyDepth_last]
    by_cases hd : o.directory = true
    · exact reads_anyDepth (ends_ending hlast fun _ => hd) path hline
    · have hg := getLast?_segments hlast
      rw [segment_eq_anyDepth_iff.2 hany] at hg
      have hend : (ofOutline o).ending = [] := by
        simp [ending, show (ofOutline o).directory = o.directory from rfl, hd,
          coversBelow, hg]
      have hleft : o.MayBeLeft = fun _ => True := by
        funext rest
        simp [Outline.MayBeLeft, hd, hlast, hany, anyDepth]
      rw [hend, hleft]
      exact reads_anyDepth_last path hline
  · have happly := reads_tokens hslash (hstars.resolve_left hany)
      (ends_ending hlast fun h => absurd h hany)
    intro path hline
    rw [(pieces_ordinary hany).1, accounts_ordinary hany]
    exact happly path hline

/-- The pieces from any segment on decide as the segments from there on do. The
induction goes from the back of the pattern to its front. -/
theorem reads_segmentPieces {o : Outline} {last : List Char} :
    ∀ ps : List (List Char), ps.getLast? = some last →
      o.segments.getLast? = some last →
      (∀ p ∈ ps, '/' ∉ p) → (∀ p ∈ ps, p = anyDepth ∨ starsApart p = true) →
      Reads (segmentPieces (ps.map Segment.ofChars) ++ (ofOutline o).ending)
        (Accounts o.MayBeLeft ps) := by
  intro ps
  induction ps with
  | nil => intro hnil; cases hnil
  | cons p ps ih =>
      intro hlast hout hslash hstars
      cases ps with
      | nil =>
          rw [List.getLast?_singleton, Option.some.injEq] at hlast
          exact reads_lastPieces (hlast ▸ hout) (hslash p (by simp))
            (hstars p (by simp))
      | cons q ps =>
          rw [List.getLast?_cons_cons] at hlast
          have hrest := ih hlast hout
            (fun r hr => hslash r (List.mem_cons_of_mem _ hr))
            (fun r hr => hstars r (List.mem_cons_of_mem _ hr))
          have hnil : ¬ Accounts o.MayBeLeft (q :: ps) [] :=
            not_accounts_nil (List.cons_ne_nil q ps)
          rw [List.map_cons, List.map_cons, segmentPieces, ← List.map_cons,
            List.append_assoc]
          · intro path hline
            by_cases hany : p = anyDepth
            · rw [segment_eq_anyDepth_iff.2 hany, hany,
                accounts_anyDepth (List.cons_ne_nil q ps)]
              exact reads_directories hrest hnil path hline
            · rw [(pieces_ordinary hany).2, accounts_ordinary hany,
                List.append_assoc]
              exact reads_tokens (hslash p (by simp))
                ((hstars p (by simp)).resolve_left hany)
                (ends_slash hrest hnil) path hline
          · simp

/-- The expression of a pattern takes the paths that the pattern covers segment
by segment. -/
theorem spans_expression_iff {o : Outline} (hstars : o.StarsApart)
    {path : List Char} (hline : OnLine path) :
    Spans (ofOutline o).expression path ↔ o.CoversSegments path := by
  have hne : o.segments ≠ [] := List.splitOn_ne_nil '/' o.body
  have hlast := List.getLast?_eq_some_getLast hne
  have hreads := reads_segmentPieces o.segments hlast hlast
    (fun p hp => slash_notMem_of_mem_splitOn hp) hstars
  have hnil : ¬ Accounts o.MayBeLeft o.segments [] := not_accounts_nil hne
  rw [expression, Outline.CoversSegments,
    show (ofOutline o).anchored = o.anchored from rfl, List.append_assoc]
  cases ha : o.anchored with
  | false =>
      simp only [Bool.false_eq_true, if_false, false_implies, true_and]
      exact reads_directories hreads hnil path hline
  | true =>
      simp only [if_true, forall_const]
      rw [List.nil_append]
      refine (hreads path hline).trans ?_
      constructor
      · intro h
        exact ⟨[], _, rfl, rfl, h⟩
      · intro h
        obtain ⟨skipped, rest, hsegs, hskip, h⟩ := h
        rw [hskip, List.nil_append] at hsegs
        rw [hsegs]
        exact h

end Signoff.Glob

namespace Signoff.Pattern

/-- A pattern with wildcards covers the paths that its segments account for. -/
theorem covers_iff_coversSegments [Engine] {source : String} {p : Pattern}
    (hcompile : compile source = .ok p)
    (hwild : source.toList.any isWildcard = true)
    (hstars : (Outline.ofChars source.toList).StarsApart) {path : String}
    (hline : '\n' ∉ path.toList) :
    p.covers path = true ↔
      (Outline.ofChars source.toList).CoversSegments path.toList := by
  rw [covers_eq_spans hcompile hwild, Glob.spans_iff]
  exact Glob.spans_expression_iff hstars hline

theorem covers_iff_coversSegments_anyDepth :
    ∃ p, compile "/a/**/b?\\**/" = .ok p ∧
      "/a/**/b?\\**/".toList.any isWildcard = true ∧
      (Outline.ofChars "/a/**/b?\\**/".toList).StarsApart ∧
      '\n' ∉ "a/x/y/bc*d/e".toList ∧
      p.covers "a/x/y/bc*d/e" = true ∧
      (Outline.ofChars "/a/**/b?\\**/".toList).CoversSegments
        "a/x/y/bc*d/e".toList :=
  ⟨_, rfl, by decide, by decide, by decide, by decide,
    (covers_iff_coversSegments rfl (by decide) (by decide) (by decide)).1
      (by decide)⟩

end Signoff.Pattern
