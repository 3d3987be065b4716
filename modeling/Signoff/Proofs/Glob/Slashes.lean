import Signoff.Proofs.Glob.Escape

/-!
# The slashes around a pattern

A slash in front of a pattern and a slash behind it say where in a path the
pattern applies, and nothing about what the rest of it stands for. Without the
first, a pattern covers what its anchored form covers, counted from the root or
from after any slash of the path (`covers_iff_anchored`). With the second, it
covers what lies below the paths that it covers without
(`covers_directory_iff`).

Patterns that are names are not treated apart. A name is its own escaped form,
and on a path that is a line an escaped form is matched by its expression as the
name is, so an expression decides for every pattern
(`covers_iff_spans_expression`). The slash in front is then one piece of it. The
slash behind changes the pieces after the last segment, and `described` is what
comes before these.
-/

namespace Signoff

namespace Glob

variable {g : Glob} {path q r : List Char}

/-! ## What lies below -/

/-- The pieces that take the paths that a glob describes, without anything
below them. -/
def described (g : Glob) : List Piece :=
  (if g.anchored then [] else [.directories]) ++ segmentPieces g.segments

theorem expression_eq (g : Glob) : g.expression = g.described ++ g.ending := rfl

theorem spans_expression_of_directory (hdirectory : g.directory = true)
    (hline : OnLine path) :
    Spans g.expression path ↔
      ∃ q r, path = q ++ '/' :: r ∧ Spans g.described q := by
  have hending : g.ending = [.one (.exactly '/'), .many .onLine] := by
    rw [ending, if_pos hdirectory]
  rw [expression_eq, hending, spans_append]
  constructor
  · intro h
    obtain ⟨q, back, hpath, hq, hback⟩ := h
    obtain ⟨r, rfl, _⟩ := spans_exactly.1 hback
    exact ⟨q, r, hpath, hq⟩
  · intro h
    obtain ⟨q, r, hpath, hq⟩ := h
    rw [hpath] at hline
    refine ⟨q, '/' :: r, hpath, hq, spans_exactly.2 ⟨r, rfl, ?_⟩⟩
    exact (spans_many_onLine hline.right.tail).2 ⟨r, [], by simp, rfl⟩

theorem spans_expression_of_described (hplain : g.directory = false)
    (h : Spans g.described path) : Spans g.expression path := by
  have hending : Spans g.ending [] := by
    rw [ending, hplain, if_neg Bool.false_ne_true]
    split
    · exact (spans_below_nil (by simp [OnLine])).2 (Or.inl rfl)
    · rfl
  rw [expression_eq, spans_append]
  exact ⟨path, [], by simp, h, hending⟩

/-- A path that is covered is described, or it lies below one that is. -/
theorem exists_described (hplain : g.directory = false) (hline : OnLine path)
    (h : Spans g.expression path) :
    Spans g.described path ∨
      ∃ q r, path = q ++ '/' :: r ∧ Spans g.described q := by
  rw [expression_eq, spans_append] at h
  obtain ⟨q, back, hpath, hq, hback⟩ := h
  have hnil : back = [] → Spans g.described path := by
    intro hback
    rw [hpath, hback, List.append_nil]
    exact hq
  rw [ending, hplain, if_neg Bool.false_ne_true] at hback
  split at hback
  · rw [hpath] at hline
    rcases (spans_below_nil hline.right).1 hback with hback | ⟨r, hback⟩
    · exact Or.inl (hnil hback)
    · exact Or.inr ⟨q, r, by rw [hpath, hback], hq⟩
  · exact Or.inl (hnil hback)

theorem segmentPieces_concat (segments : List Segment) (last : Segment) :
    segmentPieces (segments ++ [last]) =
      segments.flatMap Segment.innerPieces ++ last.lastPieces := by
  induction segments with
  | nil => rfl
  | cons segment segments ih =>
      rw [List.cons_append, segmentPieces, ih, List.flatMap_cons,
        List.append_assoc]
      simp

/-- At the end of a pattern `**` takes more along with whatever it takes. -/
theorem spans_described_append (hlast : g.segments.getLast? = some .anyDepth)
    (hline : OnLine (q ++ r)) (h : Spans g.described q) :
    Spans g.described (q ++ r) := by
  obtain ⟨segments, hsegments⟩ := List.getLast?_eq_some_iff.1 hlast
  rw [described, hsegments, segmentPieces_concat, ← List.append_assoc,
    spans_append] at h ⊢
  obtain ⟨front, back, hq, hfront, _⟩ := h
  rw [hq, List.append_assoc] at hline ⊢
  refine ⟨front, back ++ r, rfl, hfront, ?_⟩
  exact (spans_many_onLine hline.right).2 ⟨back ++ r, [], by simp, rfl⟩

/-- Only a lone star at the end keeps a glob from covering what lies below. -/
theorem spans_expression_below (hplain : g.directory = false)
    (hlast : g.segments.getLast? ≠ some (.tokens [.star]))
    (hline : OnLine (q ++ '/' :: r)) (h : Spans g.described q) :
    Spans g.expression (q ++ '/' :: r) := by
  by_cases hany : g.segments.getLast? = some .anyDepth
  · exact spans_expression_of_described hplain
      (spans_described_append hany hline h)
  · have hending : g.ending = [.below] := by
      simp [ending, hplain, coversBelow, hlast, hany]
    rw [expression_eq, hending, spans_append]
    exact ⟨q, '/' :: r, rfl, h,
      (spans_below_nil hline.right).2 (Or.inr ⟨r, rfl⟩)⟩

/-- With a slash behind it, a glob covers what lies below the paths that it
covers without. -/
theorem spans_directory_iff (hplain : g.directory = false)
    (hline : OnLine path) :
    Spans { g with directory := true }.expression path ↔
      ∃ q r, path = q ++ '/' :: r ∧ Spans g.expression q := by
  rw [spans_expression_of_directory rfl hline]
  constructor
  · intro h
    obtain ⟨q, r, hpath, hq⟩ := h
    exact ⟨q, r, hpath, spans_expression_of_described hplain hq⟩
  · intro h
    obtain ⟨q, r, hpath, hq⟩ := h
    rw [hpath] at hline
    -- The directory may itself lie below one that is described.
    rcases exists_described hplain hline.left hq with hq | ⟨q', r', hsplit, hq'⟩
    · exact ⟨q, r, hpath, hq⟩
    · exact ⟨q', r' ++ '/' :: r, by rw [hpath, hsplit]; simp, hq'⟩

end Glob

/-! ## The ends of a pattern -/

namespace Outline

variable {s : List Char}

theorem expression_of_head?_ne (h : s.head? ≠ some '/') :
    (Glob.ofChars s).expression =
      .directories :: (Glob.ofChars ('/' :: s)).expression := by
  rw [Glob.ofChars, ofChars_of_head?_ne h, Glob.ofChars,
    show ofChars ('/' :: s) = ofTail true s from rfl, ofTail, ofTail]
  split <;> rfl

theorem ofTail_concat_slash (anchored : Bool) (s : List Char) :
    ofTail anchored (s ++ ['/']) = ⟨anchored, true, s⟩ := by
  simp [ofTail]

theorem ofTail_of_getLast?_ne (anchored : Bool) (h : s.getLast? ≠ some '/') :
    ofTail anchored s = ⟨anchored, false, s⟩ := by
  rw [ofTail, if_neg h]

/-- The pattern is about no directory yet, and with a slash behind it is. A
slash alone would be read as the one in front, and so would the slash behind an
empty pattern. -/
theorem ofChars_concat_slash (hne : s ≠ []) (hlast : s.getLast? ≠ some '/') :
    (ofChars s).directory = false ∧
      ofChars (s ++ ['/']) = { ofChars s with directory := true } ∧
      (ofChars s).segments.getLast? = (s.splitOn '/').getLast? := by
  by_cases hhead : s.head? = some '/'
  · obtain ⟨t, rfl⟩ := List.head?_eq_some_iff.1 hhead
    have htail : t.getLast? ≠ some '/' := by
      intro h
      exact hlast (by rw [List.getLast?_cons, h, Option.getD_some])
    have houtline : ofChars ('/' :: t) = ⟨true, false, t⟩ :=
      ofTail_of_getLast?_ne true htail
    refine ⟨by rw [houtline], ?_, ?_⟩
    · rw [houtline]
      exact ofTail_concat_slash true t
    · have hne := List.splitOn_ne_nil '/' t
      rw [houtline, segments, ← List.nil_append ('/' :: t),
        List.splitOn_append_cons_self, List.getLast?_append,
        List.getLast?_eq_some_getLast hne, Option.some_or]
  · have houtline : ofChars s = ⟨false, false, s⟩ := by
      rw [ofChars_of_head?_ne hhead, ofTail_of_getLast?_ne false hlast]
    have hhead' : (s ++ ['/']).head? ≠ some '/' := by
      rwa [List.head?_append, List.head?_eq_some_head hne, Option.some_or,
        ← List.head?_eq_some_head hne]
    rw [houtline, ofChars_of_head?_ne hhead', ofTail_concat_slash]
    exact ⟨rfl, rfl, rfl⟩

theorem getLast?_segments_ne_star {o : Outline}
    (h : o.segments.getLast? ≠ some ['*']) :
    (Glob.ofOutline o).segments.getLast? ≠ some (.tokens [.star]) := by
  intro hstar
  rw [show (Glob.ofOutline o).segments =
      o.segments.map Glob.Segment.ofChars from rfl,
    List.getLast?_map, Option.map_eq_some_iff] at hstar
  obtain ⟨last, hlast, hread⟩ := hstar
  exact h (by rw [hlast, Glob.segment_eq_star_iff.1 hread])

end Outline

namespace Pattern

variable {source path : String} {p : Pattern}

theorem covers_iff_spans_expression [Engine] (hcompile : compile source = .ok p)
    (hline : '\n' ∉ path.toList) :
    p.covers path = true ↔
      Glob.Spans (Glob.ofChars source.toList).expression path.toList := by
  cases hwild : source.toList.any isWildcard with
  | true => rw [covers_eq_spans hcompile hwild, Glob.spans_iff]
  | false =>
      rw [compile_name hwild] at hcompile
      obtain rfl := Except.ok.inj hcompile
      -- In a name there is nothing to escape.
      have hself : (Outline.ofChars source.toList).escape =
          Outline.ofChars source.toList := by
        rw [← Outline.ofChars_escape, Glob.escape_of_plain hwild]
      have hspans := Glob.spans_expression_iff
        (Outline.starsApart_escape (Outline.ofChars source.toList)) hline
      rw [Outline.coversSegments_escape, hself] at hspans
      exact hspans.symm

theorem eq_append_slash_iff {front back : String} :
    path = front ++ "/" ++ back ↔
      path.toList = front.toList ++ '/' :: back.toList := by
  rw [← String.toList_inj]
  simp

/-- Where a path is cut at a slash, its two parts are paths again. -/
theorem exists_append_slash_iff {P : List Char → List Char → Prop} :
    (∃ front back, path.toList = front ++ '/' :: back ∧ P front back) ↔
      ∃ front back, path = front ++ "/" ++ back ∧
        P front.toList back.toList := by
  simp only [eq_append_slash_iff]
  constructor
  · intro h
    obtain ⟨front, back, hpath, hP⟩ := h
    exact ⟨.ofList front, .ofList back, by simpa using hpath, by simpa using hP⟩
  · intro h
    obtain ⟨front, back, h⟩ := h
    exact ⟨front.toList, back.toList, h⟩

/-- A pattern without a slash in front covers what it covers with the slash,
and every path that ends in this after a slash. -/
theorem covers_iff_anchored [Engine] {anchored : Pattern}
    (hhead : source.toList.head? ≠ some '/')
    (hcompile : compile source = .ok p)
    (hanchored : compile ("/" ++ source) = .ok anchored)
    (hline : '\n' ∉ path.toList) :
    p.covers path = true ↔
      anchored.covers path = true ∨
        ∃ front rest, path = front ++ "/" ++ rest ∧
          anchored.covers rest = true := by
  have hspans : ∀ {rest : String}, '\n' ∉ rest.toList →
      (anchored.covers rest = true ↔
        Glob.Spans (Glob.ofChars ('/' :: source.toList)).expression
          rest.toList) := by
    intro rest hrest
    rw [covers_iff_spans_expression hanchored hrest, String.toList_append]
    rfl
  rw [covers_iff_spans_expression hcompile hline, hspans hline,
    Outline.expression_of_head?_ne hhead, Glob.spans_directories hline]
  refine or_congr_right (exists_append_slash_iff.trans ?_)
  refine exists_congr fun front => exists_congr fun rest =>
    and_congr_right fun hpath => (hspans ?_).symm
  rw [eq_append_slash_iff] at hpath
  rw [hpath] at hline
  exact Glob.OnLine.tail (Glob.OnLine.right hline)

/-- The stars reach across a segment, and the pattern applies after two slashes
in a row. -/
theorem covers_iff_anchored_stars :
    ∃ p anchored, "a**/b?/".toList.head? ≠ some '/' ∧
      compile "a**/b?/" = .ok p ∧
      compile ("/" ++ "a**/b?/") = .ok anchored ∧
      '\n' ∉ "x//a/y/bc/d".toList ∧
      anchored.covers "x//a/y/bc/d" = false ∧
      p.covers "x//a/y/bc/d" = true :=
  have h := @covers_iff_anchored "a**/b?/" "x//a/y/bc/d" _ _ _ (by decide)
    rfl rfl (by decide)
  ⟨_, _, by decide, rfl, rfl, by decide, by decide,
    h.2 (Or.inr ⟨"x/", "a/y/bc/d", by decide, by decide⟩)⟩

theorem covers_directory_iff_spans [Engine] {directory : Pattern}
    (hne : source ≠ "") (hlast : source.toList.getLast? ≠ some '/')
    (hdirectory : compile (source ++ "/") = .ok directory)
    (hline : '\n' ∉ path.toList) :
    directory.covers path = true ↔
      Glob.Spans { Glob.ofChars source.toList with
        directory := true }.expression path.toList := by
  obtain ⟨_, hends, _⟩ := Outline.ofChars_concat_slash
    (mt String.toList_eq_nil_iff.1 hne) hlast
  rw [covers_iff_spans_expression hdirectory hline, String.toList_append,
    Glob.ofChars, show "/".toList = ['/'] from rfl, hends]
  rfl

/-- With a slash behind it, a pattern covers just those paths on the way to
which it covers a directory without the slash. Unless a lone star comes last,
the pattern without the slash covers these paths as well, so whatever it covers
it covers together with all that lies below. -/
theorem covers_directory_iff [Engine] {directory : Pattern}
    (hne : source ≠ "") (hlast : source.toList.getLast? ≠ some '/')
    (hcompile : compile source = .ok p)
    (hdirectory : compile (source ++ "/") = .ok directory)
    (hline : '\n' ∉ path.toList) :
    (directory.covers path = true ↔
      ∃ q r, path = q ++ "/" ++ r ∧ p.covers q = true) ∧
    ((source.toList.splitOn '/').getLast? ≠ some ['*'] →
      (directory.covers path = true → p.covers path = true) ∧
      ∀ q r, path = q ++ "/" ++ r → p.covers q = true →
        p.covers path = true) := by
  obtain ⟨hplain, _, hsegments⟩ := Outline.ofChars_concat_slash
    (mt String.toList_eq_nil_iff.1 hne) hlast
  have hspans := covers_directory_iff_spans hne hlast hdirectory hline
  have hbelow : directory.covers path = true ↔
      ∃ q r, path = q ++ "/" ++ r ∧ p.covers q = true := by
    rw [hspans, Glob.spans_directory_iff hplain hline]
    refine exists_append_slash_iff.trans ?_
    refine exists_congr fun q => exists_congr fun r =>
      and_congr_right fun hpath => ?_
    rw [eq_append_slash_iff] at hpath
    rw [hpath] at hline
    exact (covers_iff_spans_expression hcompile (Glob.OnLine.left hline)).symm
  have hcarries : (source.toList.splitOn '/').getLast? ≠ some ['*'] →
      directory.covers path = true → p.covers path = true := by
    intro hstar h
    rw [← hsegments] at hstar
    rw [hspans, Glob.spans_expression_of_directory rfl hline] at h
    obtain ⟨q, r, hpath, hq⟩ := h
    rw [covers_iff_spans_expression hcompile hline, hpath]
    rw [hpath] at hline
    exact Glob.spans_expression_below hplain
      (Outline.getLast?_segments_ne_star hstar) hline hq
  refine ⟨hbelow, fun hstar => ⟨hcarries hstar, ?_⟩⟩
  intro q r hpath hq
  exact hcarries hstar (hbelow.2 ⟨q, r, hpath, hq⟩)

theorem covers_directory_iff_anyDepth :
    ∃ p directory, "b?/**" ≠ "" ∧ "b?/**".toList.getLast? ≠ some '/' ∧
      compile "b?/**" = .ok p ∧ compile ("b?/**" ++ "/") = .ok directory ∧
      '\n' ∉ "x/bc/d/e".toList ∧ directory.covers "x/bc/d" = false ∧
      directory.covers "x/bc/d/e" = true ∧
      ("b?/**".toList.splitOn '/').getLast? ≠ some ['*'] ∧
      p.covers "x/bc/d/e" = true := by
  have h := @covers_directory_iff "b?/**" "x/bc/d/e" _ _ _ (by decide)
    (by decide) rfl rfl (by decide)
  have hdirectory := h.1.2 ⟨"x/bc/d", "e", by decide, by decide⟩
  exact ⟨_, _, by decide, by decide, rfl, rfl, by decide, by decide, hdirectory,
    by decide, (h.2 (by decide)).1 hdirectory⟩

/-- A lone star stays in its directory, and the slash takes it further down. -/
example : ∃ p directory, compile "/a/*" = .ok p ∧
    compile "/a/*/" = .ok directory ∧
    directory.covers "a/b/c" = true ∧ p.covers "a/b/c" = false :=
  ⟨_, _, rfl, rfl, by decide, by decide⟩

end Pattern

end Signoff
