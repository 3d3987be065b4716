/-!
# Path expressions

What a glob is matched with: a sequence of pieces, each of which takes a stretch
of the path, such that together they take all of it.

`Spans` says this with one choice of a stretch per piece. `spans` decides it
without a choice: it goes through the pieces from the last to the first and
keeps one row of truth values, which says of every tail of the path whether the
pieces seen so far take exactly that tail. A piece turns one row into the next
in a single pass over the path, so the time is the product of the two lengths
whatever the pieces are. `spans_iff` joins the two.
-/

namespace Signoff.Glob

/-- The sets of characters that a piece may take. -/
inductive CharClass where
  | exactly (c : Char)
  /-- Anything but a slash, so nothing that leaves the segment. -/
  | inSegment
  /-- Anything but a line feed. -/
  | onLine
  deriving DecidableEq

def CharClass.contains : CharClass → Char → Bool
  | .exactly d, c => c == d
  | .inSegment, c => c != '/'
  | .onLine, c => c != '\n'

inductive Piece where
  /-- One character of the class. -/
  | one (k : CharClass)
  /-- Any number of characters of the class. -/
  | many (k : CharClass)
  /-- Nothing, or anything on a line up to and with a slash. -/
  | directories
  /-- Nothing, or a slash and anything on a line after it. -/
  | below
  deriving DecidableEq

/-- The piece may take exactly this stretch. -/
def Piece.Takes : Piece → List Char → Prop
  | .one k, s => ∃ c, k.contains c = true ∧ s = [c]
  | .many k, s => ∀ c ∈ s, k.contains c = true
  | .directories, s => s = [] ∨
      ∃ d, (∀ c ∈ d, CharClass.onLine.contains c = true) ∧ s = d ++ ['/']
  | .below, s => s = [] ∨
      ∃ d, (∀ c ∈ d, CharClass.onLine.contains c = true) ∧ s = '/' :: d

/-- The pieces take the path between them, each a stretch and all in order. -/
def Spans : List Piece → List Char → Prop
  | [], s => s = []
  | p :: ps, s => ∃ u v, s = u ++ v ∧ p.Takes u ∧ Spans ps v

/-! ## Rows -/

/-- One truth value for each tail of a path, the whole path first and the empty
tail last. -/
abbrev Row := List Bool

namespace Row

/-- The row of the empty tail: with no piece left, the path has to be used up.
-/
def atEnd : List Char → Row
  | [] => [true]
  | _ :: s => false :: atEnd s

/-- One character of the class and then a tail of the row. -/
def one (k : CharClass) : List Char → Row → Row
  | c :: s, _ :: row => (k.contains c && row.headD false) :: one k s row
  | _, _ => [false]

/-- Any number of characters of the class and then a tail of the row. -/
def many (k : CharClass) : List Char → Row → Row
  | c :: s, here :: row =>
      let later := many k s row
      (here || k.contains c && later.headD false) :: later
  | _, row => row

/-- A tail of either row. -/
def either (a b : Row) : Row := List.zipWith (· || ·) a b

end Row

/-- The row of the tails that begin with the piece and go on with a tail of the
given row. -/
def Piece.before (s : List Char) : Piece → Row → Row
  | .one k, row => Row.one k s row
  | .many k, row => Row.many k s row
  | .directories, row =>
      Row.either row (Row.many .onLine s (Row.one (.exactly '/') s row))
  | .below, row =>
      Row.either row (Row.one (.exactly '/') s (Row.many .onLine s row))

/-- Do the pieces take all of the path between them? -/
def spans (ps : List Piece) (s : List Char) : Bool :=
  (ps.foldr (Piece.before s) (Row.atEnd s)).headD false

/-! ## What rows tell

Each operation on rows is described by what the row before and the row after it
tell of the tails of the same path, and `spans_iff` only puts these descriptions
together. -/

/-- The row tells of each tail of the path whether it has the property. -/
def Row.Tells (P : List Char → Prop) : List Char → Row → Prop
  | [], row => ∃ b, row = [b] ∧ (b = true ↔ P [])
  | c :: s, row =>
      ∃ b rest, row = b :: rest ∧ (b = true ↔ P (c :: s)) ∧ Tells P s rest

namespace Row

variable {P Q : List Char → Prop} {s : List Char} {row other : Row}

theorem Tells.headD (h : row.Tells P s) : row.headD false = true ↔ P s := by
  cases s with
  | nil =>
      obtain ⟨b, rfl, hb⟩ := h
      exact hb
  | cons c s =>
      obtain ⟨b, rest, rfl, hb, -⟩ := h
      exact hb

theorem Tells.congr (h : row.Tells P s) (hPQ : ∀ u, P u ↔ Q u) :
    row.Tells Q s := by
  induction s generalizing row with
  | nil =>
      obtain ⟨b, rfl, hb⟩ := h
      exact ⟨b, rfl, hb.trans (hPQ _)⟩
  | cons c s ih =>
      obtain ⟨b, rest, rfl, hb, hrest⟩ := h
      exact ⟨b, rest, rfl, hb.trans (hPQ _), ih hrest⟩

theorem tells_atEnd (s : List Char) : (atEnd s).Tells (· = []) s := by
  induction s with
  | nil => exact ⟨true, rfl, by simp⟩
  | cons c s ih => exact ⟨false, atEnd s, rfl, by simp, ih⟩

theorem tells_one (k : CharClass) (h : row.Tells P s) :
    (one k s row).Tells
      (fun u => ∃ c v, k.contains c = true ∧ u = c :: v ∧ P v) s := by
  induction s generalizing row with
  | nil => exact ⟨false, rfl, by simp⟩
  | cons c s ih =>
      obtain ⟨b, rest, rfl, -, hrest⟩ := h
      refine ⟨_, _, rfl, ?_, ih hrest⟩
      rw [Bool.and_eq_true, hrest.headD]
      constructor
      · rintro ⟨hc, hP⟩
        exact ⟨c, s, hc, rfl, hP⟩
      · rintro ⟨d, v, hd, hEq, hP⟩
        obtain ⟨rfl, rfl⟩ := List.cons.inj hEq
        exact ⟨hd, hP⟩

theorem tells_many (k : CharClass) (h : row.Tells P s) :
    (many k s row).Tells (fun u =>
      ∃ a v, u = a ++ v ∧ (∀ c ∈ a, k.contains c = true) ∧ P v) s := by
  induction s generalizing row with
  | nil =>
      obtain ⟨b, rfl, hb⟩ := h
      refine ⟨b, rfl, hb.trans ⟨fun hP => ⟨[], [], rfl, by simp, hP⟩, ?_⟩⟩
      rintro ⟨a, v, hEq, -, hP⟩
      obtain ⟨rfl, rfl⟩ := List.append_eq_nil_iff.1 hEq.symm
      exact hP
  | cons c s ih =>
      obtain ⟨b, rest, rfl, hb, hrest⟩ := h
      refine ⟨_, _, rfl, ?_, ih hrest⟩
      rw [Bool.or_eq_true, Bool.and_eq_true, hb, (ih hrest).headD]
      constructor
      · rintro (hP | ⟨hc, a, v, rfl, ha, hP⟩)
        · exact ⟨[], c :: s, rfl, by simp, hP⟩
        · exact ⟨c :: a, v, rfl, by simpa [hc] using ha, hP⟩
      · rintro ⟨a, v, hEq, ha, hP⟩
        cases a with
        | nil => exact .inl (hEq ▸ hP)
        | cons d a =>
            obtain ⟨rfl, rfl⟩ := List.cons.inj hEq
            exact .inr ⟨ha c List.mem_cons_self, a, v, rfl,
              fun e he => ha e (List.mem_cons_of_mem _ he), hP⟩

theorem tells_either (h : row.Tells P s) (h' : other.Tells Q s) :
    (either row other).Tells (fun u => P u ∨ Q u) s := by
  induction s generalizing row other with
  | nil =>
      obtain ⟨b, rfl, hb⟩ := h
      obtain ⟨b', rfl, hb'⟩ := h'
      exact ⟨b || b', rfl, by rw [Bool.or_eq_true, hb, hb']⟩
  | cons c s ih =>
      obtain ⟨b, rest, rfl, hb, hrest⟩ := h
      obtain ⟨b', rest', rfl, hb', hrest'⟩ := h'
      exact ⟨b || b', either rest rest', rfl, by rw [Bool.or_eq_true, hb, hb'],
        ih hrest hrest'⟩

end Row

theorem contains_exactly {c d : Char} :
    (CharClass.exactly c).contains d = true ↔ d = c := by
  simp [CharClass.contains]

/-- A piece before a row tells of the tails that begin with the piece. -/
theorem Piece.tells_before (p : Piece) {P : List Char → Prop} {s : List Char}
    {row : Row} (h : row.Tells P s) :
    (p.before s row).Tells
      (fun u => ∃ a v, u = a ++ v ∧ p.Takes a ∧ P v) s := by
  cases p with
  | one k =>
      refine (Row.tells_one k h).congr fun u => ⟨?_, ?_⟩
      · rintro ⟨c, v, hc, rfl, hP⟩
        exact ⟨[c], v, rfl, ⟨c, hc, rfl⟩, hP⟩
      · rintro ⟨a, v, rfl, ⟨c, hc, rfl⟩, hP⟩
        exact ⟨c, v, hc, rfl, hP⟩
  | many k => exact Row.tells_many k h
  | directories =>
      have hslash := Row.tells_many .onLine (Row.tells_one (.exactly '/') h)
      refine (Row.tells_either h hslash).congr fun u => ⟨?_, ?_⟩
      · rintro (hP | ⟨d, v, rfl, hd, c, w, hc, rfl, hP⟩)
        · exact ⟨[], u, rfl, .inl rfl, hP⟩
        · obtain rfl := contains_exactly.1 hc
          exact ⟨d ++ ['/'], w, by simp, .inr ⟨d, hd, rfl⟩, hP⟩
      · rintro ⟨a, v, rfl, rfl | ⟨d, hd, rfl⟩, hP⟩
        · exact .inl hP
        · exact .inr ⟨d, '/' :: v, by simp, hd, '/', v,
            contains_exactly.2 rfl, rfl, hP⟩
  | below =>
      have hslash := Row.tells_one (.exactly '/') (Row.tells_many .onLine h)
      refine (Row.tells_either h hslash).congr fun u => ⟨?_, ?_⟩
      · rintro (hP | ⟨c, v, hc, rfl, d, w, rfl, hd, hP⟩)
        · exact ⟨[], u, rfl, .inl rfl, hP⟩
        · obtain rfl := contains_exactly.1 hc
          exact ⟨'/' :: d, w, rfl, .inr ⟨d, hd, rfl⟩, hP⟩
      · rintro ⟨a, v, rfl, rfl | ⟨d, hd, rfl⟩, hP⟩
        · exact .inl hP
        · exact .inr ⟨'/', d ++ v, contains_exactly.2 rfl, rfl, d, v, rfl, hd,
            hP⟩

theorem tells_foldr_before (ps : List Piece) (s : List Char) :
    (ps.foldr (Piece.before s) (Row.atEnd s)).Tells (Spans ps) s := by
  induction ps with
  | nil => exact Row.tells_atEnd s
  | cons p ps ih => exact p.tells_before ih

/-- The rows decide whether pieces take a path between them. -/
theorem spans_iff {ps : List Piece} {s : List Char} :
    spans ps s = true ↔ Spans ps s :=
  (tells_foldr_before ps s).headD

end Signoff.Glob
