/-!
# White space

The characters that separate the words of a rule file and make up the margins of
a line: those with the Unicode property `White_Space`. The zero-width space, the
byte order mark and the ASCII separators `U+001C` to `U+001F` do not have it and
belong to words like any letter.

Words are what is left between separators (`words`). Since a carriage return is
white space, a line that ends in one reads as if it were not there, so text may
use either line ending.
-/

namespace Signoff.Text

/-- The code points with the property `White_Space`, as ranges with both ends
included. -/
def blankRanges : List (Nat × Nat) :=
  [(0x09, 0x0D), (0x20, 0x20), (0x85, 0x85), (0xA0, 0xA0), (0x1680, 0x1680),
    (0x2000, 0x200A), (0x2028, 0x2029), (0x202F, 0x202F), (0x205F, 0x205F),
    (0x3000, 0x3000)]

def isBlank (c : Char) : Bool :=
  blankRanges.any fun range => range.1 ≤ c.toNat && c.toNat ≤ range.2

/-- Text without its margins. -/
def trim (s : List Char) : List Char :=
  ((s.dropWhile isBlank).reverse.dropWhile isBlank).reverse

/-- The longest stretches of text without a blank, in order. -/
def words (s : List Char) : List (List Char) :=
  (s.splitOnP isBlank).filter fun w => !w.isEmpty

/-- The lines of a text. A line feed ends a line, so one at the very end opens
no further line. -/
def lines (s : List Char) : List (List Char) :=
  let all := s.splitOn '\n'
  if all.getLast? = some [] then all.dropLast else all

/-- A line without the carriage return that may have come before the line feed.
-/
def withoutReturn (line : List Char) : List Char :=
  if line.getLast? = some '\r' then line.dropLast else line

/-- A column of at least `width` characters with the text at its left end. -/
def padRight (width : Nat) (s : String) : String :=
  s ++ String.ofList (List.replicate (width - s.length) ' ')

/-- A column of at least `width` characters with the text at its right end. -/
def padLeft (width : Nat) (s : String) : String :=
  String.ofList (List.replicate (width - s.length) ' ') ++ s

theorem isBlank_eq_false_of_toNat {c : Char} (hlow : 32 < c.toNat)
    (hhigh : c.toNat < 133) :
    isBlank c = false := by
  rw [isBlank, ← Bool.not_eq_true]
  intro hc
  simp only [blankRanges, List.any_cons, List.any_nil, Bool.or_eq_true,
    Bool.and_eq_true, decide_eq_true_eq, Bool.or_false] at hc
  omega

theorem words_nil : words [] = [] := rfl

theorem words_append_cons {c : Char} (hc : isBlank c = true) (s t : List Char) :
    words (s ++ c :: t) = words s ++ words t := by
  rw [words, List.splitOnP_append_cons s t hc, List.filter_append]
  rfl

theorem words_blank_append {margin : List Char}
    (h : ∀ c ∈ margin, isBlank c = true)
    (s : List Char) : words (margin ++ s) = words s := by
  induction margin with
  | nil => rfl
  | cons c margin ih =>
      obtain ⟨hc, hmargin⟩ := List.forall_mem_cons.1 h
      rw [List.cons_append]
      exact (words_append_cons hc [] (margin ++ s)).trans (ih hmargin)

theorem words_blank {margin : List Char} (h : ∀ c ∈ margin, isBlank c = true) :
    words margin = [] := by
  have hwords := words_blank_append h []
  rw [List.append_nil] at hwords
  exact hwords

/-- A word stands by itself if a blank follows, or nothing does. -/
theorem words_word_append {w s : List Char} (hne : w ≠ [])
    (hw : ∀ c ∈ w, isBlank c = false)
    (hs : ∀ c ∈ s.head?, isBlank c = true) : words (w ++ s) = w :: words s := by
  have hword : words w = [w] := by
    rw [words, List.splitOnP_eq_singleton hw]
    simp [hne]
  cases s with
  | nil => rw [List.append_nil, hword, words_nil]
  | cons c s =>
      have hc := hs c rfl
      rw [words_append_cons hc, hword]
      exact congrArg (w :: ·) (words_append_cons hc [] s).symm

theorem not_of_mem_head?_dropWhile {α : Type} {p : α → Bool} {s : List α} :
    ∀ a ∈ (s.dropWhile p).head?, p a = false := by
  intro a ha
  have hhead := List.head?_dropWhile_not p s
  rw [Option.mem_def.1 ha] at hhead
  simpa using hhead

/-- What lies between two separators holds none. -/
theorem not_of_mem_splitOnP {p : Char → Bool} {s w : List Char}
    (h : w ∈ s.splitOnP p) :
    ∀ c ∈ w, p c = false := by
  induction s generalizing w with
  | nil => simp_all
  | cons d s ih =>
      rw [List.splitOnP_cons_eq_if_modifyHead] at h
      split at h
      · rcases List.mem_cons.1 h with rfl | h
        · simp
        · exact ih h
      · next hd =>
          cases hs : s.splitOnP p with
          | nil => exact absurd hs (List.splitOnP_ne_nil p s)
          | cons v vs =>
              rw [hs, List.modifyHead_cons, List.mem_cons] at h
              rcases h with rfl | h
              · intro c hc
                rcases List.mem_cons.1 hc with rfl | hc
                · simpa using hd
                · exact ih (w := v) (by simp [hs]) c hc
              · exact ih (by simp [hs, h])

theorem sublist_of_mem_splitOnP {p : Char → Bool} {s w : List Char}
    (h : w ∈ s.splitOnP p) :
    w.Sublist s := by
  induction s generalizing w with
  | nil => simp_all
  | cons d s ih =>
      rw [List.splitOnP_cons_eq_if_modifyHead] at h
      split at h
      · rcases List.mem_cons.1 h with rfl | h
        · exact List.nil_sublist _
        · exact (ih h).cons d
      · cases hs : s.splitOnP p with
        | nil => exact absurd hs (List.splitOnP_ne_nil p s)
        | cons v vs =>
            rw [hs, List.modifyHead_cons, List.mem_cons] at h
            rcases h with rfl | h
            · exact (ih (by rw [hs]; exact List.mem_cons_self)).cons_cons d
            · exact (ih (by rw [hs]; exact List.mem_cons_of_mem v h)).cons d

theorem mem_of_mem_words {c : Char} {s w : List Char} (hw : w ∈ words s)
    (hc : c ∈ w) : c ∈ s :=
  (sublist_of_mem_splitOnP (List.mem_filter.1 hw).1).subset hc

/-- A word is never empty and holds no blank. -/
theorem forall_of_mem_words {s w : List Char} (h : w ∈ words s) :
    w ≠ [] ∧ ∀ c ∈ w, isBlank c = false := by
  obtain ⟨hw, hne⟩ := List.mem_filter.1 h
  exact ⟨by simpa using hne, not_of_mem_splitOnP hw⟩

end Signoff.Text
