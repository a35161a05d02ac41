import ArgusEdr.Go.Text

/-!
# What the program relies on in the tables of `unicode`

The tables are parameters. `Unicode.Lawful` says what holds of the case tables: on ASCII they are the
ASCII ones, and no character has an ASCII capital as its lower case. `Classes` are the two character
classes a lexer reads, the ASCII ones on ASCII, and disjoint.
-/

namespace ArgusEdr.Go

/-- What holds of the case tables. -/
structure Unicode.Lawful (u : Unicode) : Prop where
  toLower_lower : ∀ c : Char, (u.lower c).toLower = u.lower c
  lower_ascii : ∀ c : Char, c.toNat < 128 → u.lower c = c.toLower
  fold_ascii : ∀ c d : Char, c.toNat < 128 → d.toNat < 128 →
    (u.fold c = u.fold d ↔ c.toLower = d.toLower)

theorem toLower_toLower (c : Char) : c.toLower.toLower = c.toLower := by
  by_cases h : c.toNat < 128
  · have hall : ∀ n : Fin 128, (Char.ofNat n).toLower.toLower = (Char.ofNat n).toLower := by decide
    rw [← Char.ofNat_toNat c]
    exact hall ⟨c.toNat, h⟩
  · have hself : c.toLower = c := by
      unfold Char.toLower
      rw [dif_neg]
      rintro ⟨-, hle⟩
      have hz : c.toNat ≤ 'Z'.toNat := UInt32.le_iff_toNat_le.mp hle
      have : 'Z'.toNat = 90 := rfl
      omega
    rw [hself, hself]

theorem Unicode.ascii_lawful : Unicode.ascii.Lawful where
  toLower_lower := toLower_toLower
  lower_ascii := fun _ _ => rfl
  fold_ascii := fun _ _ _ _ => Iff.rfl

structure Classes where
  isLetter : Char → Bool
  isDigit : Char → Bool
  isLetter_ascii : ∀ c : Char, c.toNat < 128 → isLetter c = c.isAlpha
  isDigit_ascii : ∀ c : Char, c.toNat < 128 → isDigit c = c.isDigit
  isDigit_of_isLetter : ∀ c, isLetter c = true → isDigit c = false
  isLetter_of_isSpace : ∀ c, isSpace c = true → isLetter c = false
  isDigit_of_isSpace : ∀ c, isSpace c = true → isDigit c = false

theorem isAlpha_iff (c : Char) :
    c.isAlpha = true ↔ (65 ≤ c.toNat ∧ c.toNat ≤ 90) ∨ (97 ≤ c.toNat ∧ c.toNat ≤ 122) := by
  simp [Char.isAlpha, Char.isUpper, Char.isLower, UInt32.le_iff_toNat_le]

theorem isDigit_iff (c : Char) : c.isDigit = true ↔ 48 ≤ c.toNat ∧ c.toNat ≤ 57 := by
  simp [Char.isDigit, UInt32.le_iff_toNat_le]

def Classes.ascii : Classes where
  isLetter := Char.isAlpha
  isDigit := Char.isDigit
  isLetter_ascii := fun _ _ => rfl
  isDigit_ascii := fun _ _ => rfl
  isDigit_of_isLetter := by
    intro c h
    rw [isAlpha_iff] at h
    rw [Bool.eq_false_iff, ne_eq, isDigit_iff]
    omega
  isLetter_of_isSpace := by
    intro c h
    rw [Bool.eq_false_iff, ne_eq, isAlpha_iff]
    simp [isSpace] at h
    omega
  isDigit_of_isSpace := by
    intro c h
    rw [Bool.eq_false_iff, ne_eq, isDigit_iff]
    simp [isSpace] at h
    omega

end ArgusEdr.Go
