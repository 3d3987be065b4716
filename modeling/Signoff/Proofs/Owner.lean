import Signoff.Owner

/-!
# Owners that are mentioned

A mention carries a name and no kind, so an owner that comes from one has the
kind that its name suggests, and two of them are equal as soon as their names
are. The characters of such a name are few. A comma is none of them, which is
what makes it fit to stand between names.
-/

namespace Signoff.Owner

variable {o o' : Owner} {name : String}

theorem toNat_of_isNameChar {c : Char} (h : isNameChar c = true) :
    45 ≤ c.toNat ∧ c.toNat ≤ 122 := by
  have hrange : ∀ {low high : Char}, low ≤ c ∧ c ≤ high →
      45 ≤ low.toNat → high.toNat ≤ 122 → 45 ≤ c.toNat ∧ c.toNat ≤ 122 :=
    fun hc hlow hhigh =>
      ⟨Nat.le_trans hlow (UInt32.le_iff_toNat_le.1 hc.1),
        Nat.le_trans (UInt32.le_iff_toNat_le.1 hc.2) hhigh⟩
  have hkinds : (c.isUpper || c.isLower || c.isDigit || c == '_' || c == '/' ||
      c == '-') = true := h
  simp only [Bool.or_eq_true, beq_iff_eq] at hkinds
  rcases hkinds with ((((hc | hc) | hc) | rfl) | rfl) | rfl
  · exact hrange (of_decide_eq_true hc) (by decide) (by decide)
  · obtain ⟨hlow, hhigh⟩ := Bool.and_eq_true_iff.1 hc
    exact hrange ⟨of_decide_eq_true hlow, of_decide_eq_true hhigh⟩ (by decide)
      (by decide)
  · obtain ⟨hlow, hhigh⟩ := Char.isDigit_iff_toNat.1 hc
    exact ⟨Nat.le_trans (by decide) hlow, Nat.le_trans hhigh (by decide)⟩
  · decide
  · decide
  · decide

theorem isBlank_of_isNameChar {c : Char} (h : isNameChar c = true) :
    Text.isBlank c = false := by
  obtain ⟨hlow, hhigh⟩ := toNat_of_isNameChar h
  exact Text.isBlank_eq_false_of_toNat (by omega) (by omega)

/-- The mention of a name. -/
def wordOf (name : String) : List Char := '@' :: name.toList

theorem ofMention?_wordOf (hne : name ≠ "")
    (hchars : ∀ c ∈ name.toList, isNameChar c = true) :
    ofMention? (wordOf name) = some (ofName name) := by
  have hvalid :
      (!name.toList.isEmpty && name.toList.all isNameChar) = true := by
    simpa [List.all_eq_true] using ⟨hne, hchars⟩
  rw [wordOf, ofMention?, if_pos hvalid, String.ofList_toList]

/-- There is a mention of the owner. -/
structure IsMentionable (o : Owner) : Prop where
  name_ne_empty : o.name ≠ ""
  isNameChar_of_mem : ∀ c ∈ o.name.toList, isNameChar c = true
  ofName_name : ofName o.name = o

theorem isMentionable_of_ofMention? {word : List Char}
    (h : ofMention? word = some o) : o.IsMentionable := by
  unfold ofMention? at h
  split at h
  · next name =>
      split at h
      · next hname =>
          obtain rfl := Option.some.inj h
          rw [Bool.and_eq_true, Bool.not_eq_true', List.isEmpty_eq_false_iff,
            List.all_eq_true] at hname
          refine ⟨?_, ?_, rfl⟩
          · rw [ofName, Ne, ← String.toList_eq_nil_iff, String.toList_ofList]
            exact hname.1
          · rw [ofName, String.toList_ofList]
            exact hname.2
      · cases h
  · cases h

theorem IsMentionable.comma_notMem (h : o.IsMentionable) :
    ',' ∉ o.name.toList := by
  intro hcomma
  exact absurd (h.isNameChar_of_mem ',' hcomma) (by decide)

/-- A name does not begin with what is dropped from the front of one. -/
theorem IsMentionable.bareName_name (h : o.IsMentionable) :
    bareName o.name = o.name := by
  have hdrop : o.name.toList.dropWhile (· == '@') = o.name.toList := by
    cases hname : o.name.toList with
    | nil => rfl
    | cons c name =>
        have hc := h.isNameChar_of_mem c (by simp [hname])
        have hne : c ≠ '@' := by
          intro heq
          rw [heq] at hc
          exact absurd hc (by decide)
        simp [hne]
  rw [bareName, hdrop, String.ofList_toList]

theorem isTeam_ofName : (ofName name).isTeam = true ↔ '/' ∈ name.toList := by
  rw [isTeam, ofName]
  split
  · next hslash => exact iff_of_true rfl hslash
  · next hslash => exact iff_of_false Bool.false_ne_true hslash

/-- The kind of a mentioned owner shows in its name. -/
theorem IsMentionable.isTeam_iff (h : o.IsMentionable) :
    o.isTeam = true ↔ '/' ∈ o.name.toList := by
  rw [← isTeam_ofName, h.ofName_name]

theorem IsMentionable.eq_of_name_eq (h : o.IsMentionable)
    (h' : o'.IsMentionable) (hname : o.name = o'.name) : o = o' := by
  rw [← h.ofName_name, ← h'.ofName_name, hname]

end Signoff.Owner
