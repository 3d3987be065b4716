import Signoff.Glob.Basic
import Signoff.Glob.Segmentwise
import Signoff.Proofs.Glob.Spans

/-!
# The pieces of one segment

Inside a segment a glob and its pieces agree character by character: the text
that the pieces of a segment take is the text that the segment describes, and
it holds no slash. Both sides recurse over the segment as it is written, so the
proof is one induction along the reading of the segment into tokens.

Two stars side by side are the exception, since they are read as one token that
does reach across slashes. `starsApart` rules them out. A token for a star can
then only be the first one of a segment that begins with a star, which is what
keeps two stars from being read as one.
-/

namespace Signoff.Glob

/-- The path begins with text of the form `D` that stays within a segment, and
`R` holds of what comes after it. -/
def Begins (D R : List Char → Prop) (path : List Char) : Prop :=
  ∃ front rest, path = front ++ rest ∧ '/' ∉ front ∧ D front ∧ R rest

section Begins

variable {D R : List Char → Prop} {path : List Char}

theorem begins_nil : Begins (fun s => s = []) R path ↔ R path := by
  constructor
  · intro h
    obtain ⟨front, rest, hpath, _, hnil, hR⟩ := h
    rw [hpath, hnil]
    exact hR
  · intro h
    exact ⟨[], path, rfl, by simp, rfl, h⟩

theorem begins_char {c : Char} (hc : c ≠ '/') :
    Begins (fun s => ∃ rest, s = c :: rest ∧ D rest) R path ↔
      ∃ rest, path = c :: rest ∧ Begins D R rest := by
  constructor
  · intro h
    obtain ⟨front, rest, hpath, hslash, ⟨s, hfront, hD⟩, hR⟩ := h
    rw [hfront] at hpath hslash
    have hs : '/' ∉ s := fun hs => hslash (List.mem_cons_of_mem c hs)
    exact ⟨s ++ rest, hpath, s, rest, rfl, hs, hD, hR⟩
  · intro h
    obtain ⟨tail, hpath, s, rest, htail, hslash, hD, hR⟩ := h
    refine ⟨c :: s, rest, by rw [hpath, htail]; rfl, ?_, ⟨s, rfl, hD⟩, hR⟩
    simp [hslash, Ne.symm hc]

theorem begins_single :
    Begins (fun s => ∃ c rest, s = c :: rest ∧ D rest) R path ↔
      ∃ c rest, path = c :: rest ∧ CharClass.inSegment.contains c = true ∧
        Begins D R rest := by
  constructor
  · intro h
    obtain ⟨front, rest, hpath, hslash, ⟨c, s, hfront, hD⟩, hR⟩ := h
    rw [hfront] at hpath hslash
    simp only [List.mem_cons, not_or] at hslash
    refine ⟨c, s ++ rest, hpath, ?_, s, rest, rfl, hslash.2, hD, hR⟩
    simp [CharClass.contains, Ne.symm hslash.1]
  · intro h
    obtain ⟨c, tail, hpath, hc, s, rest, htail, hslash, hD, hR⟩ := h
    have hne : c ≠ '/' := by simpa [CharClass.contains] using hc
    refine ⟨c :: s, rest, by rw [hpath, htail]; rfl, ?_, ⟨c, s, rfl, hD⟩, hR⟩
    simp [hslash, Ne.symm hne]

theorem forall_inSegment_iff {s : List Char} :
    (∀ c ∈ s, CharClass.inSegment.contains c = true) ↔ '/' ∉ s := by
  simp only [CharClass.contains, bne_iff_ne]
  constructor
  · intro h hs
    exact h '/' hs rfl
  · intro h c hc heq
    exact h (heq ▸ hc)

theorem begins_star :
    Begins (fun s => ∃ taken rest, s = taken ++ rest ∧ D rest) R path ↔
      ∃ taken rest, path = taken ++ rest ∧
        (∀ c ∈ taken, CharClass.inSegment.contains c = true) ∧
        Begins D R rest := by
  constructor
  · intro h
    obtain ⟨front, rest, hpath, hslash, ⟨taken, s, hfront, hD⟩, hR⟩ := h
    rw [hfront] at hpath hslash
    simp only [List.mem_append, not_or] at hslash
    refine ⟨taken, s ++ rest, by rw [hpath, List.append_assoc], ?_,
      s, rest, rfl, hslash.2, hD, hR⟩
    exact forall_inSegment_iff.2 hslash.1
  · intro h
    obtain ⟨taken, tail, hpath, htaken, s, rest, htail, hslash, hD, hR⟩ := h
    refine ⟨taken ++ s, rest, by rw [hpath, htail, List.append_assoc], ?_,
      ⟨taken, s, rfl, hD⟩, hR⟩
    simp [hslash, forall_inSegment_iff.1 htaken]

end Begins

theorem starsApart_tail {c : Char} {p : List Char} (hc : c ≠ '\\')
    (h : starsApart (c :: p) = true) : starsApart p = true := by
  by_cases hstars : c = '*' ∧ p.head? = some '*'
  · cases p with
    | nil => simp at hstars
    | cons d p =>
        obtain ⟨hc', hd⟩ := hstars
        rw [List.head?_cons, Option.some.injEq] at hd
        rw [hc', hd, starsApart] at h
        cases h
  · rw [starsApart] at h
    · exact h
    · intro d rest heq _
      exact hc heq
    · intro rest heq hp
      exact hstars ⟨heq, by rw [hp]; rfl⟩

theorem head?_ne_of_starsApart {p : List Char}
    (h : starsApart ('*' :: p) = true) : p.head? ≠ some '*' := by
  intro hhead
  cases p with
  | nil => cases hhead
  | cons c p =>
      rw [List.head?_cons, Option.some.injEq] at hhead
      rw [hhead, starsApart] at h
      cases h

/-- Only a star is read as stars. -/
theorem head?_of_ofChars_eq {p : List Char} {t : Token} {rest : List Token}
    (ht : t = .star ∨ t = .stars) (h : Token.ofChars p = t :: rest) :
    p.head? = some '*' := by
  fun_cases Token.ofChars p with
  | case1 => rw [Token.ofChars] at h; cases h
  | case2 => rw [Token.ofChars] at h; cases h; simp at ht
  | case3 => rw [Token.ofChars] at h; cases h; simp at ht
  | case4 => rw [Token.ofChars] at h; cases h; simp at ht
  | case5 => rfl
  | case6 => rfl
  | case7 => rfl
  | case8 c p h1 h2 h3 h4 =>
      rw [Token.ofChars.eq_6 _ _ h1 h2 h3 h4] at h
      cases h
      simp at ht

/-- The pieces of a segment take what the segment describes, and nothing of it
is a slash. -/
theorem spans_tokens {p : List Char} (hp : '/' ∉ p)
    (hstars : starsApart p = true) {ps : List Piece} (path : List Char) :
    Spans ((Token.ofChars p).map Token.piece ++ ps) path ↔
      Begins (Describes p) (Spans ps) path := by
  induction p using Token.ofChars.induct generalizing path with
  | case1 =>
      rw [show Describes [] = fun s => s = [] from rfl, begins_nil]
      rfl
  | case2 =>
      have hD : Describes ['\\'] =
          fun s => ∃ rest, s = '\\' :: rest ∧ rest = [] := by
        funext s
        simp [Describes]
      rw [hD, begins_char (by decide)]
      simp only [begins_nil]
      exact spans_exactly
  | case3 c p ih =>
      have hD : Describes ('\\' :: c :: p) =
          fun s => ∃ rest, s = c :: rest ∧ Describes p rest := by
        funext s
        rw [Describes]
      simp only [List.mem_cons, not_or] at hp
      rw [starsApart] at hstars
      rw [hD, begins_char (Ne.symm hp.2.1), Token.ofChars]
      simp only [List.map_cons, Token.piece, List.cons_append, spans_exactly,
        ih hp.2.2 hstars]
  | case4 p ih =>
      have hD : Describes ('?' :: p) =
          fun s => ∃ c rest, s = c :: rest ∧ Describes p rest := by
        funext s
        rw [Describes]
      simp only [List.mem_cons, not_or] at hp
      rw [hD, begins_single, Token.ofChars]
      simp only [List.map_cons, Token.piece, List.cons_append, spans_one,
        ih hp.2 (starsApart_tail (by decide) hstars)]
  | case5 p rest hread =>
      have hhead := head?_of_ofChars_eq (Or.inl rfl) hread
      exact absurd hhead (head?_ne_of_starsApart hstars)
  | case6 p rest hread =>
      have hhead := head?_of_ofChars_eq (Or.inr rfl) hread
      exact absurd hhead (head?_ne_of_starsApart hstars)
  | case7 p hstar hstars' ih =>
      have hD : Describes ('*' :: p) =
          fun s => ∃ taken rest, s = taken ++ rest ∧ Describes p rest := by
        funext s
        rw [Describes]
      have hT : Token.ofChars ('*' :: p) = .star :: Token.ofChars p := by
        rw [Token.ofChars]
        split
        · next rest h => exact absurd h (hstar rest)
        · next rest h => exact absurd h (hstars' rest)
        · rfl
      simp only [List.mem_cons, not_or] at hp
      rw [hD, begins_star, hT]
      simp only [List.map_cons, Token.piece, List.cons_append, spans_many,
        ih hp.2 (starsApart_tail (by decide) hstars)]
  | case8 c p h1 h2 h3 h4 ih =>
      have hD : Describes (c :: p) =
          fun s => ∃ rest, s = c :: rest ∧ Describes p rest := by
        funext s
        rw [Describes.eq_6 _ _ _ h1 h2 h3 h4]
      simp only [List.mem_cons, not_or] at hp
      have hc : c ≠ '\\' := by
        intro hc
        cases p with
        | nil => exact h1 hc rfl
        | cons d p => exact h2 d p hc rfl
      rw [hD, begins_char (Ne.symm hp.1), Token.ofChars.eq_6 _ _ h1 h2 h3 h4]
      simp only [List.map_cons, Token.piece, List.cons_append, spans_exactly,
        ih hp.2 (starsApart_tail hc hstars)]
end Signoff.Glob
