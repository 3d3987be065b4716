import Signoff.Text.Blank
import Signoff.Ascending

/-!
# Owners

An owner is a user or a team that a rule makes responsible for files. Rule files
mention owners with a leading `@`; the name is what follows it. Teams live
inside an organisation, so a name with a slash in it is a team's and any other
is an individual's.

Owners are ordered by name. The kind only breaks ties, which occur when an owner
is given with a kind that its name does not suggest.
-/

namespace Signoff

inductive Owner.Kind where
  | individual
  | team
  deriving DecidableEq

/-- A user or a team, named without the leading `@`. -/
structure Owner where
  name : String
  kind : Owner.Kind
  deriving DecidableEq

namespace Owner

/-- The characters that a mentioned name may be made of. -/
def isNameChar (c : Char) : Bool :=
  c.isAlphanum || c == '_' || c == '/' || c == '-'

/-- The owner with a name, a team if the name has a slash. -/
def ofName (name : String) : Owner :=
  ⟨name, if '/' ∈ name.toList then .team else .individual⟩

/-- Reads a mention: `@` and then at least one character, all of them name
characters. -/
def ofMention? : List Char → Option Owner
  | '@' :: name =>
      if !name.isEmpty && name.all isNameChar then some (ofName (.ofList name))
      else none
  | _ => none

def isTeam (o : Owner) : Bool := o.kind == .team

/-- How an owner is written in a rule file and in a report. -/
def mention (o : Owner) : String := "@" ++ o.name

/-- A name as people type it, with or without `@` in front, brought to the bare
name. -/
def bareName (s : String) : String := .ofList (s.toList.dropWhile (· == '@'))

/-! ## Order -/

instance : LT Owner where
  lt a b := a.name < b.name ∨
    a.name = b.name ∧ a.kind = .individual ∧ b.kind = .team

instance (a b : Owner) : Decidable (a < b) :=
  inferInstanceAs (Decidable (_ ∨ _ ∧ _ ∧ _))

theorem lt_iff {a b : Owner} :
    a < b ↔ a.name < b.name ∨
      a.name = b.name ∧ a.kind = .individual ∧ b.kind = .team :=
  Iff.rfl

instance : Std.Irrefl (α := Owner) (· < ·) where
  irrefl a h := by
    rcases lt_iff.1 h with h | ⟨-, h, h'⟩
    · exact String.lt_irrefl _ h
    · exact absurd (h.symm.trans h') (by decide)

instance : Std.Trichotomous (α := Owner) (· < ·) where
  trichotomous a b hab hba := by
    obtain ⟨name, kind⟩ := a
    obtain ⟨name', kind'⟩ := b
    simp only [lt_iff, not_or, not_and] at hab hba
    obtain rfl : name = name' := Std.Trichotomous.trichotomous _ _ hab.1 hba.1
    have h := hab.2 rfl
    have h' := hba.2 rfl
    cases kind <;> cases kind' <;> simp_all

instance : Trans (α := Owner) (· < ·) (· < ·) (· < ·) where
  trans {a b c} hab hbc := by
    rcases lt_iff.1 hab with hab | ⟨hab, hk, hk'⟩ <;>
      rcases lt_iff.1 hbc with hbc | ⟨hbc, hl, hl'⟩
    · exact .inl (String.lt_trans hab hbc)
    · exact .inl (hbc ▸ hab)
    · exact .inl (hab ▸ hbc)
    · exact absurd (hk'.symm.trans hl) (by decide)

end Owner

end Signoff
