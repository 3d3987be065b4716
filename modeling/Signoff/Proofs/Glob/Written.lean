import Signoff.Glob.Written

/-!
# Expressions read back

The text of an expression has the pieces of the expression again, and no others
(`read?_textOf`). So nothing in a pattern can pass for part of the expression
around it: a character of a name is read as that character, whatever it would
mean to the engine, and a star of the expression is none of the pattern's.

A class and a class with a star begin alike, so the reader looks one symbol
ahead. What comes after a piece never begins with a star (`head?_symbols_ne`),
and nothing else has to be known about the text behind a piece.
-/

namespace Signoff.Glob

/-! ## Symbols -/

theorem symbols_literal (c : Char) (text : List Char) :
    symbols (literal c ++ text) = .itself c :: symbols text := by
  rw [literal]
  split
  · next hmeta =>
      rw [List.cons_append, List.singleton_append, symbols, if_pos hmeta]
  · next hmeta =>
      have hne : c ≠ '\\' := by
        intro h
        exact hmeta (h ▸ rfl)
      rw [List.singleton_append, symbols, if_neg hmeta]
      exact fun _ _ h => absurd h hne

def CharClass.symbols : CharClass → List Symbol
  | .exactly c => [.itself c]
  | .inSegment => [.operator '[', .operator '^', .itself '/', .operator ']']
  | .onLine => [.operator '.']

theorem CharClass.symbols_written (k : CharClass) (text : List Char) :
    Glob.symbols (k.written ++ text) = k.symbols ++ Glob.symbols text := by
  cases k with
  | exactly c => exact symbols_literal c text
  | inSegment => rfl
  | onLine => rfl

theorem head?_symbols_ne (ps : List Piece) :
    (symbols (ps.flatMap Piece.written ++ ['\\', 'z'])).head? ≠
      some (.operator '*') := by
  cases ps with
  | nil => decide
  | cons p ps =>
      rw [List.flatMap_cons, List.append_assoc]
      cases p with
      | one k =>
          rw [Piece.written, k.symbols_written]
          cases k <;> simp [CharClass.symbols]
      | many k =>
          rw [Piece.written, List.append_assoc, k.symbols_written]
          cases k <;> simp [CharClass.symbols]
      | directories => simp [Piece.written, symbols, isMeta, metaCharacters]
      | below => simp [Piece.written, symbols, isMeta, metaCharacters]

/-! ## Pieces -/

theorem pieces?_class (k : CharClass) {s : List Symbol}
    (hstar : s.head? ≠ some (.operator '*')) :
    pieces? (k.symbols ++ s) = (pieces? s).map (.one k :: ·) := by
  have hnext : ∀ rest, s ≠ .operator '*' :: rest := by
    intro rest h
    exact hstar (by rw [h]; rfl)
  cases k with
  | exactly c =>
      rw [CharClass.symbols, List.singleton_append, pieces?]
      exact hnext
  | inSegment =>
      simp only [CharClass.symbols, List.cons_append, List.nil_append]
      rw [pieces?]
      exact hnext
  | onLine =>
      rw [CharClass.symbols, List.singleton_append, pieces?]
      exact hnext

theorem pieces?_class_star (k : CharClass) (s : List Symbol) :
    pieces? (k.symbols ++ .operator '*' :: s) =
      (pieces? s).map (.many k :: ·) := by
  cases k <;> rfl

/-- A piece is read from the front of a text, whatever comes behind it. -/
theorem pieces?_written (p : Piece) {text : List Char}
    (hstar : (symbols text).head? ≠ some (.operator '*')) :
    pieces? (symbols (p.written ++ text)) =
      (pieces? (symbols text)).map (p :: ·) := by
  cases p with
  | one k => rw [Piece.written, k.symbols_written, pieces?_class k hstar]
  | many k =>
      rw [Piece.written, List.append_assoc, k.symbols_written]
      exact pieces?_class_star k (symbols text)
  | directories => rfl
  | below => rfl

theorem read?_textOf (ps : List Piece) : read? (textOf ps) = some ps := by
  have hpieces : pieces? (symbols (ps.flatMap Piece.written ++ ['\\', 'z'])) =
      some ps := by
    induction ps with
    | nil => decide
    | cons p ps ih =>
        rw [List.flatMap_cons, List.append_assoc,
          pieces?_written p (head?_symbols_ne ps), ih]
        rfl
  exact hpieces

/-- The text that an engine is given has the pieces that a path is matched with.
-/
theorem read?_written (g : Glob) : read? g.written = some g.expression :=
  read?_textOf g.expression

/-- A name with characters in it that mean something to the engine. -/
example : (ofChars "/src?/c++.h".toList).written =
    "\\Asrc[^/]/c\\+\\+\\.h(?:/.*)?\\z".toList := by
  decide

end Signoff.Glob
