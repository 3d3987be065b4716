import Signoff.Glob.Expression

/-!
# What each piece takes

`Spans` gives a stretch of the path to each piece in turn. The lemmas below say
it once for each kind of piece in front, so that later proofs never choose
stretches by hand. On a path that is a single line the two pieces that reach
across slashes simplify: `directories` takes nothing or all up to some slash,
and `below` takes nothing or all there is from a slash on.
-/

namespace Signoff.Glob

/-- The text is a single line, which is what paths are. -/
def OnLine (s : List Char) : Prop := '\n' ∉ s

theorem OnLine.contains {s : List Char} (h : OnLine s) :
    ∀ c ∈ s, CharClass.onLine.contains c = true := by
  intro c hc
  have hne : c ≠ '\n' := by
    intro heq
    exact h (heq ▸ hc)
  simp [CharClass.contains, hne]

theorem OnLine.left {s t : List Char} (h : OnLine (s ++ t)) : OnLine s :=
  fun hs => h (List.mem_append_left t hs)

theorem OnLine.right {s t : List Char} (h : OnLine (s ++ t)) : OnLine t :=
  fun ht => h (List.mem_append_right s ht)

theorem OnLine.tail {c : Char} {s : List Char} (h : OnLine (c :: s)) :
    OnLine s := fun hs => h (List.mem_cons_of_mem c hs)

variable {ps qs : List Piece} {path : List Char}

theorem spans_nil : Spans [] path ↔ path = [] := Iff.rfl

/-- Pieces may be parted anywhere, and the path is parted with them. -/
theorem spans_append :
    Spans (ps ++ qs) path ↔
      ∃ front back, path = front ++ back ∧ Spans ps front ∧ Spans qs back := by
  induction ps generalizing path with
  | nil =>
      constructor
      · intro h
        exact ⟨[], path, rfl, rfl, h⟩
      · intro h
        obtain ⟨front, back, rfl, rfl, hback⟩ := h
        exact hback
  | cons p ps ih =>
      constructor
      · intro h
        obtain ⟨taken, rest, hpath, htaken, hrest⟩ := h
        obtain ⟨front, back, hsplit, hfront, hback⟩ := ih.1 hrest
        exact ⟨taken ++ front, back, by rw [hpath, hsplit, List.append_assoc],
          ⟨taken, front, rfl, htaken, hfront⟩, hback⟩
      · intro h
        obtain ⟨front, back, hpath,
          ⟨taken, rest, hsplit, htaken, hrest⟩, hback⟩ := h
        exact ⟨taken, rest ++ back, by rw [hpath, hsplit, List.append_assoc],
          htaken, ih.2 ⟨rest, back, rfl, hrest, hback⟩⟩

theorem spans_one {k : CharClass} :
    Spans (.one k :: ps) path ↔
      ∃ c rest, path = c :: rest ∧ k.contains c = true ∧ Spans ps rest := by
  constructor
  · intro h
    obtain ⟨u, v, hpath, ⟨c, hc, hu⟩, hv⟩ := h
    exact ⟨c, v, by rw [hpath, hu]; rfl, hc, hv⟩
  · intro h
    obtain ⟨c, rest, hpath, hc, hrest⟩ := h
    exact ⟨[c], rest, hpath, ⟨c, hc, rfl⟩, hrest⟩

theorem spans_exactly {c : Char} :
    Spans (.one (.exactly c) :: ps) path ↔
      ∃ rest, path = c :: rest ∧ Spans ps rest := by
  rw [spans_one]
  constructor
  · intro h
    obtain ⟨d, rest, hpath, hd, hrest⟩ := h
    rw [contains_exactly] at hd
    exact ⟨rest, by rw [hpath, hd], hrest⟩
  · intro h
    obtain ⟨rest, hpath, hrest⟩ := h
    exact ⟨c, rest, hpath, contains_exactly.2 rfl, hrest⟩

theorem spans_many {k : CharClass} :
    Spans (.many k :: ps) path ↔
      ∃ taken rest, path = taken ++ rest ∧
        (∀ c ∈ taken, k.contains c = true) ∧ Spans ps rest := Iff.rfl

theorem spans_many_onLine (h : OnLine path) :
    Spans (.many .onLine :: ps) path ↔
      ∃ taken rest, path = taken ++ rest ∧ Spans ps rest := by
  rw [spans_many]
  constructor
  · intro hs
    obtain ⟨taken, rest, hpath, _, hrest⟩ := hs
    exact ⟨taken, rest, hpath, hrest⟩
  · intro hs
    obtain ⟨taken, rest, hpath, hrest⟩ := hs
    rw [hpath] at h
    exact ⟨taken, rest, hpath, h.left.contains, hrest⟩

theorem spans_directories (h : OnLine path) :
    Spans (.directories :: ps) path ↔
      Spans ps path ∨
        ∃ front back, path = front ++ '/' :: back ∧ Spans ps back := by
  constructor
  · intro hs
    obtain ⟨u, v, hpath, hu, hv⟩ := hs
    rcases hu with hu | ⟨d, _, hu⟩
    · rw [hu, List.nil_append] at hpath
      rw [hpath]
      exact Or.inl hv
    · exact Or.inr ⟨d, v, by rw [hpath, hu]; simp, hv⟩
  · intro hs
    rcases hs with hs | ⟨front, back, hpath, hs⟩
    · exact ⟨[], path, rfl, Or.inl rfl, hs⟩
    · rw [hpath] at h
      exact ⟨front ++ ['/'], back, by rw [hpath]; simp,
        Or.inr ⟨front, h.left.contains, rfl⟩, hs⟩

/-- At the end of an expression `below` takes whatever a slash is in front
of. -/
theorem spans_below_nil (h : OnLine path) :
    Spans [.below] path ↔ path = [] ∨ ∃ back, path = '/' :: back := by
  constructor
  · intro hs
    obtain ⟨u, v, hpath, hu, hv⟩ := hs
    rw [spans_nil] at hv
    rw [hv, List.append_nil] at hpath
    rw [hpath]
    rcases hu with hu | ⟨d, _, hu⟩
    · exact Or.inl hu
    · exact Or.inr ⟨d, hu⟩
  · intro hs
    rcases hs with hs | ⟨back, hs⟩
    · exact ⟨[], [], hs, Or.inl rfl, rfl⟩
    · rw [hs] at h
      exact ⟨path, [], by simp, Or.inr ⟨back, h.tail.contains, hs⟩, rfl⟩

end Signoff.Glob
