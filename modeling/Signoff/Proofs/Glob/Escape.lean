import Signoff.Proofs.Glob.Literal
import Signoff.Proofs.Glob.Segmentwise

/-!
# Escaped patterns

A backslash in front of each star, question mark and backslash takes a pattern
at its word. The pattern has wildcards then as far as `Pattern.compile` is
concerned, and so it is matched by an expression. Matching it as a name must
come to the same thing, since that is what a pattern without wildcards gets.

Escaping neither adds nor removes a slash, so it leaves the ends of a pattern
alone and goes into its segments one by one. An escaped segment describes itself
and nothing else. In particular a lone star that is escaped no longer ends the
pattern as a lone star does.
-/

namespace Signoff

namespace Glob

/-- The pattern that means the text as it stands. -/
def escape (s : List Char) : List Char :=
  s.flatMap fun c => if Pattern.isWildcard c then ['\\', c] else [c]

theorem escape_cons_wildcard {c : Char} (s : List Char)
    (hc : Pattern.isWildcard c = true) :
    escape (c :: s) = '\\' :: c :: escape s := by
  rw [escape, List.flatMap_cons, if_pos hc]
  rfl

theorem escape_cons_plain {c : Char} (s : List Char)
    (hc : Pattern.isWildcard c = false) : escape (c :: s) = c :: escape s := by
  rw [escape, List.flatMap_cons, hc]
  rfl

theorem escape_append (s t : List Char) :
    escape (s ++ t) = escape s ++ escape t := List.flatMap_append

theorem escape_of_plain {s : List Char}
    (h : s.any Pattern.isWildcard = false) : escape s = s := by
  induction s with
  | nil => rfl
  | cons c s ih =>
      rw [List.any_cons, Bool.or_eq_false_iff] at h
      rw [escape_cons_plain s h.1, ih h.2]

theorem any_isWildcard_escape (s : List Char) :
    (escape s).any Pattern.isWildcard = s.any Pattern.isWildcard := by
  induction s with
  | nil => rfl
  | cons c s ih =>
      cases hc : Pattern.isWildcard c with
      | true =>
          rw [escape_cons_wildcard s hc]
          simp [hc]
      | false =>
          rw [escape_cons_plain s hc]
          simp [hc, ih]

theorem not_slash_of_isWildcard {c : Char}
    (hc : Pattern.isWildcard c = true) : c ≠ '/' := by
  intro h
  rw [h] at hc
  exact absurd hc (by decide)

/-- An escaped text never begins with a star. -/
theorem head?_escape_ne_star (s : List Char) :
    (escape s).head? ≠ some '*' := by
  cases s with
  | nil => simp [escape]
  | cons c s =>
      cases hc : Pattern.isWildcard c with
      | true =>
          rw [escape_cons_wildcard s hc]
          simp
      | false =>
          rw [escape_cons_plain s hc]
          intro h
          rw [List.head?_cons, Option.some.injEq] at h
          rw [h] at hc
          exact absurd hc (by decide)

theorem getLast?_escape (s : List Char) :
    (escape s).getLast? = s.getLast? := by
  rcases List.eq_nil_or_concat s with hs | ⟨t, c, hs⟩
  · rw [hs]
    rfl
  · rw [hs, List.concat_eq_append, escape_append]
    cases hc : Pattern.isWildcard c with
    | true => simp [escape_cons_wildcard [] hc, show escape [] = [] from rfl]
    | false => simp [escape_cons_plain [] hc, show escape [] = [] from rfl]

theorem splitOn_escape (s : List Char) :
    (escape s).splitOn '/' = (s.splitOn '/').map escape := by
  induction s with
  | nil => rfl
  | cons c s ih =>
      have hne := List.splitOn_ne_nil '/' s
      obtain ⟨p, ps, hps⟩ := List.exists_cons_of_ne_nil hne
      cases hc : Pattern.isWildcard c with
      | true =>
          have hslash := not_slash_of_isWildcard hc
          rw [escape_cons_wildcard s hc]
          simp only [List.splitOn_cons_eq_if_modifyHead, ih, hps]
          simp [hslash, escape_cons_wildcard p hc]
      | false =>
          rw [escape_cons_plain s hc]
          simp only [List.splitOn_cons_eq_if_modifyHead, ih, hps]
          by_cases hslash : c = '/'
          · simp [hslash, escape]
          · simp [hslash, escape_cons_plain p hc]

/-! ## Escaped segments -/

theorem plain_ne {c : Char} (hc : Pattern.isWildcard c = false) :
    c ≠ '*' ∧ c ≠ '?' ∧ c ≠ '\\' := by
  simpa [Pattern.isWildcard, and_assoc] using hc

theorem describes_escape {p s : List Char} :
    Describes (escape p) s ↔ s = p := by
  induction p generalizing s with
  | nil => exact Iff.rfl
  | cons c p ih =>
      have hcons : (∃ rest, s = c :: rest ∧ Describes (escape p) rest) ↔
          s = c :: p := by
        simp [ih]
      cases hc : Pattern.isWildcard c with
      | true =>
          rw [escape_cons_wildcard p hc, Describes]
          exact hcons
      | false =>
          obtain ⟨hstar, hsingle, hback⟩ := plain_ne hc
          rw [escape_cons_plain p hc, Describes]
          · exact hcons
          · exact fun h _ => hback h
          · exact fun _ _ h _ => hback h
          · exact hsingle
          · exact hstar

theorem starsApart_escape (p : List Char) : starsApart (escape p) = true := by
  induction p with
  | nil => rfl
  | cons c p ih =>
      cases hc : Pattern.isWildcard c with
      | true =>
          rw [escape_cons_wildcard p hc, starsApart]
          exact ih
      | false =>
          obtain ⟨hstar, _, hback⟩ := plain_ne hc
          rw [escape_cons_plain p hc, starsApart]
          · exact ih
          · exact fun _ _ h _ => hback h
          · exact fun _ h _ => hstar h

theorem escape_ne_anyDepth (p : List Char) : escape p ≠ anyDepth := by
  intro h
  exact head?_escape_ne_star p (by rw [h]; rfl)

theorem accounts_escape {Left : List (List Char) → Prop}
    {ps segs : List (List Char)} :
    Accounts Left (ps.map escape) segs ↔
      ∃ rest, segs = ps ++ rest ∧ Left rest := by
  induction ps generalizing segs with
  | nil => simp [Accounts]
  | cons p ps ih =>
      rw [List.map_cons, accounts_ordinary (escape_ne_anyDepth p)]
      simp only [describes_escape, ih]
      constructor
      · intro h
        obtain ⟨segment, tail, hsegs, hseg, rest, htail, hleft⟩ := h
        exact ⟨rest, by rw [hsegs, hseg, htail]; rfl, hleft⟩
      · intro h
        obtain ⟨rest, hsegs, hleft⟩ := h
        exact ⟨p, ps ++ rest, hsegs, rfl, rest, rfl, hleft⟩

end Glob

namespace Outline

/-- The same ends with an escaped body. -/
def escape (o : Outline) : Outline := { o with body := Glob.escape o.body }

theorem ofTail_escape (anchored : Bool) (s : List Char) :
    ofTail anchored (Glob.escape s) = (ofTail anchored s).escape := by
  rw [ofTail, ofTail, Glob.getLast?_escape]
  split
  · next hlast =>
      obtain ⟨t, ht⟩ := List.getLast?_eq_some_iff.1 hlast
      have hslash : Glob.escape ['/'] = ['/'] := rfl
      rw [ht, Glob.escape_append, hslash]
      simp [escape]
  · rfl

theorem ofChars_of_head?_ne {s : List Char} (h : s.head? ≠ some '/') :
    ofChars s = ofTail false s := by
  rw [ofChars]
  intro t ht
  rw [ht] at h
  exact h rfl

/-- Escaping does not touch the ends of a pattern. -/
theorem ofChars_escape (s : List Char) :
    ofChars (Glob.escape s) = (ofChars s).escape := by
  by_cases hhead : s.head? = some '/'
  · obtain ⟨t, ht⟩ := List.head?_eq_some_iff.1 hhead
    rw [ht, Glob.escape_cons_plain t (by decide)]
    exact ofTail_escape true t
  · have hhead' : (Glob.escape s).head? ≠ some '/' := by
      intro h
      cases s with
      | nil => cases h
      | cons c s =>
          cases hc : Pattern.isWildcard c with
          | true =>
              rw [Glob.escape_cons_wildcard s hc] at h
              simp at h
          | false =>
              rw [Glob.escape_cons_plain s hc] at h
              exact hhead h
    rw [ofChars_of_head?_ne hhead, ofChars_of_head?_ne hhead']
    exact ofTail_escape false s

theorem segments_escape (o : Outline) :
    o.escape.segments = o.segments.map Glob.escape :=
  Glob.splitOn_escape o.body

theorem starsApart_escape (o : Outline) : o.escape.StarsApart := by
  intro p hp
  rw [segments_escape] at hp
  obtain ⟨q, _, hq⟩ := List.mem_map.1 hp
  rw [← hq]
  exact Or.inr (Glob.starsApart_escape q)

theorem mayBeLeft_escape {o : Outline} {rest : List (List Char)} :
    o.escape.MayBeLeft rest ↔ (o.directory = true → rest ≠ []) := by
  have hstar : o.escape.segments.getLast? ≠ some ['*'] := by
    intro h
    rw [segments_escape, List.getLast?_map, Option.map_eq_some_iff] at h
    obtain ⟨q, _, hq⟩ := h
    exact Glob.head?_escape_ne_star q (by rw [hq]; rfl)
  rw [MayBeLeft, if_neg hstar, show o.escape.directory = o.directory from rfl]
  cases o.directory with
  | false => simp
  | true => simp

/-- Segment by segment an escaped pattern covers what the name covers. -/
theorem coversSegments_escape {o : Outline} {path : List Char} :
    o.escape.CoversSegments path ↔ o.covers path = true := by
  rw [covers_iff_segments, CoversSegments, segments_escape,
    show o.escape.anchored = o.anchored from rfl]
  simp only [Glob.accounts_escape, mayBeLeft_escape]
  constructor
  · intro h
    obtain ⟨skipped, tail, hsegs, ha, rest, htail, hd⟩ := h
    exact ⟨skipped, rest, by rw [hsegs, htail], ha, hd⟩
  · intro h
    obtain ⟨skipped, rest, hsegs, ha, hd⟩ := h
    exact ⟨skipped, o.segments ++ rest, hsegs, ha, rest, rfl, hd⟩

end Outline

namespace Pattern

/-- The expression of an escaped pattern covers what the name covers. So a
pattern without wildcards, which is its own escaped form, could as well be
matched by its expression, and an escaped pattern could as well be a name. -/
theorem spans_escape_eq_covers [Engine] {source path : String}
    (hline : '\n' ∉ path.toList) :
    Glob.spans (Glob.ofChars (Glob.escape source.toList)).expression
          path.toList =
        (Outline.ofChars source.toList).covers path.toList ∧
      (source.toList.any isWildcard = false →
        ∃ p, compile source = .ok p ∧
          p.covers path =
            Glob.spans (Glob.ofChars source.toList).expression path.toList) ∧
      ∀ p, compile (.ofList (Glob.escape source.toList)) = .ok p →
        p.covers path = (Outline.ofChars source.toList).covers path.toList := by
  have hspans :
      Glob.spans (Glob.ofChars (Glob.escape source.toList)).expression
          path.toList =
        (Outline.ofChars source.toList).covers path.toList := by
    rw [Bool.eq_iff_iff, Glob.spans_iff, Glob.ofChars, Outline.ofChars_escape,
      Glob.spans_expression_iff (Outline.starsApart_escape _) hline]
    exact Outline.coversSegments_escape
  refine ⟨hspans, ?_, ?_⟩
  · intro hplain
    refine ⟨_, compile_name hplain, ?_⟩
    rw [Glob.escape_of_plain hplain] at hspans
    exact hspans.symm
  · intro p hcompile
    cases hwild : source.toList.any isWildcard with
    | true =>
        rw [covers_eq_spans hcompile, String.toList_ofList]
        · exact hspans
        · rw [String.toList_ofList, Glob.any_isWildcard_escape, hwild]
    | false =>
        rw [Glob.escape_of_plain hwild, String.ofList_toList,
          compile_name hwild] at hcompile
        cases hcompile
        rfl

theorem spans_escape_eq_covers_star :
    '\n' ∉ "x/a*b/c".toList ∧
      Glob.spans (Glob.ofChars (Glob.escape "a*b/".toList)).expression
        "x/a*b/c".toList = true ∧
      (Outline.ofChars "a*b/".toList).covers "x/a*b/c".toList = true :=
  ⟨by decide, by decide,
    (spans_escape_eq_covers (by decide)).1.symm.trans (by decide)⟩

end Pattern

end Signoff
