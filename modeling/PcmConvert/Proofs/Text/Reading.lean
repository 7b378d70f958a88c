/-
  PcmConvert.Proofs.Text.Reading — what the readers of texts accept. The pieces of a text are
  the only texts without a separator that give it with separators between them
  (`pieces_eq_iff`). What is left of a trimmed text has no blanks but those it had around it
  (`padded_trim`, `trim_of_padded`). A byte is a numeral in decimal, a plus sign and zeros in
  front as one likes (`readByte_eq_some_iff`); the digits that a number is printed in are one.
-/

import Mathlib.Data.List.TakeWhile
import PcmConvert.Text.Blank
import PcmConvert.Text.Numeral

namespace PcmConvert.Text

/-! ## Pieces -/

variable {sep : Char} {s t : List Char}

theorem pieces_eq_splitOn (sep : Char) (s : List Char) : pieces sep s = s.splitOn sep := by
  induction s with
  | nil => rfl
  | cons c r ih =>
    unfold List.splitOn at ih ⊢
    rw [List.splitOnP_cons_eq_if_modifyHead, pieces, ← ih]
    by_cases hc : c = sep
    · rw [if_pos hc, if_pos (beq_iff_eq.mpr hc)]
    · rw [if_neg hc, if_neg (by simpa using hc)]
      cases hr : pieces sep r with
      | nil => exact absurd (ih.symm.trans hr) (List.splitOnP_ne_nil _ r)
      | cons p ps => rfl

theorem not_mem_of_mem_pieces {p : List Char} (h : p ∈ pieces sep s) : sep ∉ p := by
  induction s generalizing p with
  | nil =>
    rw [List.mem_singleton.mp h]
    exact List.not_mem_nil
  | cons c r ih =>
    rw [pieces] at h
    split at h
    · rcases List.mem_cons.mp h with rfl | h
      · exact List.not_mem_nil
      · exact ih h
    · next hc =>
      split at h
      · next q qs hr =>
        rw [hr] at ih
        rcases List.mem_cons.mp h with rfl | h
        · rw [List.mem_cons, not_or]
          exact ⟨Ne.symm hc, ih List.mem_cons_self⟩
        · exact ih (List.mem_cons_of_mem _ h)
      · rw [List.mem_singleton.mp h, List.mem_singleton]
        exact Ne.symm hc

/-- Texts without a separator are the pieces of what they give with separators between them, and of nothing else. -/
theorem pieces_eq_iff {ps : List (List Char)} :
    pieces sep s = ps ↔ ps ≠ [] ∧ (∀ p ∈ ps, sep ∉ p) ∧ [sep].intercalate ps = s := by
  constructor
  · rintro rfl
    refine ⟨?_, fun p hp => not_mem_of_mem_pieces hp, ?_⟩
    · rw [pieces_eq_splitOn]
      exact List.splitOn_ne_nil sep s
    · rw [pieces_eq_splitOn, List.intercalate_splitOn]
  · rintro ⟨hne, hsep, rfl⟩
    rw [pieces_eq_splitOn, List.splitOn_intercalate sep hsep hne]

/-! ## Blanks -/

/-- `s` is `t` with blanks around it. -/
def Padded (s t : List Char) : Prop :=
  ∃ l r, s = l ++ t ++ r ∧ (∀ c ∈ l, isBlank c = true) ∧ ∀ c ∈ r, isBlank c = true

theorem padded_trim (s : List Char) : Padded s (trim s) := by
  let rest := s.dropWhile isBlank
  have hend : rest = trim s ++ (rest.reverse.takeWhile isBlank).reverse := by
    rw [trim, ← List.reverse_append, List.takeWhile_append_dropWhile, List.reverse_reverse]
  refine ⟨s.takeWhile isBlank, (rest.reverse.takeWhile isBlank).reverse, ?_, ?_, ?_⟩
  · rw [List.append_assoc, ← hend, List.takeWhile_append_dropWhile]
  · exact fun c hc => List.mem_takeWhile_imp hc
  · exact fun c hc => List.mem_takeWhile_imp (List.mem_reverse.mp hc)

/-- Blanks around a text without any are what is trimmed off. -/
theorem trim_of_padded (h : Padded s t) (ht : ∀ c ∈ t, isBlank c = false) : trim s = t := by
  obtain ⟨l, r, rfl, hl, hr⟩ := h
  have hkeep {u : List Char} (hu : ∀ c ∈ u, isBlank c = false) : u.dropWhile isBlank = u := by
    cases u with
    | nil => rfl
    | cons c u => exact List.dropWhile_cons_of_neg (by simp [hu c List.mem_cons_self])
  cases t with
  | nil =>
    have hnone : (l ++ [] ++ r).dropWhile isBlank = [] := by
      rw [List.append_nil, List.dropWhile_eq_nil_iff]
      intro c hc
      rcases List.mem_append.mp hc with hc | hc
      · exact hl c hc
      · exact hr c hc
    rw [trim, hnone]
    rfl
  | cons c t =>
    have hfront : (l ++ (c :: t) ++ r).dropWhile isBlank = c :: t ++ r := by
      rw [List.append_assoc, List.dropWhile_append_of_pos hl, List.cons_append]
      exact List.dropWhile_cons_of_neg (by simp [ht c List.mem_cons_self])
    have hback : ((c :: t) ++ r).reverse.dropWhile isBlank = (c :: t).reverse := by
      rw [List.reverse_append, List.dropWhile_append_of_pos fun x hx => hr x (List.mem_reverse.mp hx)]
      exact hkeep fun x hx => ht x (List.mem_reverse.mp hx)
    rw [trim, hfront, hback, List.reverse_reverse]

/-! ## Numerals -/

/-- `s` is decimal digits, one at least, of the value `n`. -/
def IsNumeral (s : List Char) (n : Nat) : Prop :=
  s ≠ [] ∧ (∀ c ∈ s, c.isDigit = true) ∧ Nat.ofDigitChars 10 s 0 = n

theorem isNumeral_toDigits (n : Nat) : IsNumeral (Nat.toDigits 10 n) n :=
  ⟨Nat.toDigits_ne_nil, fun _ hc => Nat.isDigit_of_mem_toDigits (by decide) (by decide) hc,
    Nat.ofDigitChars_ten_toDigits⟩

theorem IsNumeral.unique {m n : Nat} (h : IsNumeral s m) (h' : IsNumeral s n) : m = n :=
  h.2.2.symm.trans h'.2.2

theorem digitValue?_eq_some_iff {c : Char} {d : Nat} :
    digitValue? c = some d ↔ c.isDigit = true ∧ c.toNat - '0'.toNat = d := by
  have hdigit : c.isDigit = true ↔ '0' ≤ c ∧ c ≤ '9' := by
    rw [Char.isDigit, Bool.and_eq_true, decide_eq_true_iff, decide_eq_true_iff]
    rfl
  unfold digitValue?
  rw [hdigit]
  split
  · next h => simp [h]
  · next h => simp [h]

theorem readDigits_eq_some_iff {acc n : Nat} :
    readDigits acc s = some n ↔ (∀ c ∈ s, c.isDigit = true) ∧ Nat.ofDigitChars 10 s acc = n := by
  induction s generalizing acc with
  | nil => simp [readDigits]
  | cons c r ih =>
    rw [readDigits, Option.bind_eq_some_iff, List.forall_mem_cons, Nat.ofDigitChars_cons]
    constructor
    · rintro ⟨d, hd, hr⟩
      obtain ⟨hc, rfl⟩ := digitValue?_eq_some_iff.mp hd
      obtain ⟨hrest, hvalue⟩ := ih.mp hr
      exact ⟨⟨hc, hrest⟩, hvalue⟩
    · rintro ⟨⟨hc, hrest⟩, hvalue⟩
      exact ⟨_, digitValue?_eq_some_iff.mpr ⟨hc, rfl⟩, ih.mpr ⟨hrest, hvalue⟩⟩

theorem readUnsignedByte_eq_some_iff {n : Nat} : readUnsignedByte s = some n ↔ IsNumeral s n ∧ n ≤ 255 := by
  unfold readUnsignedByte IsNumeral
  by_cases hs : s = []
  · simp [hs]
  · rw [if_neg hs, Option.filter_eq_some_iff, readDigits_eq_some_iff, decide_eq_true_iff]
    exact and_congr_left fun _ => (and_iff_right hs).symm

/-- A byte is a numeral, or a plus sign and a numeral. -/
theorem readByte_eq_some_iff {n : Nat} :
    readByte s = some n ↔ (IsNumeral s n ∨ ∃ r, s = '+' :: r ∧ IsNumeral r n) ∧ n ≤ 255 := by
  have hplus {r : List Char} : ¬IsNumeral ('+' :: r) n := fun h => absurd (h.2.1 '+' List.mem_cons_self) (by decide)
  unfold readByte
  split
  · next r => simp [readUnsignedByte_eq_some_iff, hplus]
  · next hno =>
    rw [readUnsignedByte_eq_some_iff]
    refine and_congr_left fun _ => (or_iff_left ?_).symm
    rintro ⟨r, rfl, _⟩
    exact hno r rfl

end PcmConvert.Text
