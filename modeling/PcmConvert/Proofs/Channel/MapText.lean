/-
  PcmConvert.Proofs.Channel.MapText — which texts are maps, and of which positions. A position is
  spelled by its name, or by `aux` and a numeral with a plus sign or without (`Position.Spells`).
  These never collide, as no name begins with `aux` (`Position.parse?_eq_some_iff`). None of them
  has a comma or a blank in it (`Position.Spells.plain`). So the commas of a text part it into the
  positions it spells, and trimming takes off the blanks around them and no more
  (`Position.spells_trim_iff`, `ChannelMap.parse?_eq_some_iff`).

  The text that a position is printed in is one of its spellings, unless it is an auxiliary one
  with a number that no stream has (`Position.spells_render`, `Position.parse?_render_aux`). What
  is printed for a map has a piece for each position (`ChannelMap.pieces_render`). Only for no
  position it has a piece too many, the empty one.
-/

import PcmConvert.Channel.Map
import PcmConvert.Proofs.Lists
import PcmConvert.Proofs.Text.Reading

namespace PcmConvert

open Text

/-! ## Positions -/

/-- No blanks and no commas. -/
def Plain (s : List Char) : Prop := ∀ c ∈ s, isBlank c = false ∧ c ≠ ','

instance (s : List Char) : Decidable (Plain s) := List.decidableBAll _ s

theorem plain_append {s t : List Char} (hs : Plain s) (ht : Plain t) : Plain (s ++ t) :=
  List.forall_mem_append.mpr ⟨hs, ht⟩

theorem plain_of_isNumeral {s : List Char} {n : Nat} (h : IsNumeral s n) : Plain s := by
  intro c hc
  obtain ⟨hlow, hhigh⟩ := Char.isDigit_iff_toNat.mp (h.2.1 c hc)
  have hlow : 48 ≤ c.toNat := hlow
  have hhigh : c.toNat ≤ 57 := hhigh
  constructor
  · simp [isBlank, blankRanges]
    omega
  · rintro rfl
    exact absurd hlow (by decide)

namespace Position

/-- The ways to write a position: its name, if it has one, or `aux` and its number. -/
inductive Spells : List Char → Position → Prop
  | name {p : Position} {t : String} : p.name? = some t → Spells t.toList p
  | aux {s : List Char} {n : Nat} : IsNumeral s n → n < maxChannels → Spells ("aux".toList ++ s) (aux n)
  | signed {s : List Char} {n : Nat} : IsNumeral s n → n < maxChannels → Spells ("aux+".toList ++ s) (aux n)

theorem plain_of_name {p : Position} {t : String} (h : p.name? = some t) : Plain t.toList := by
  cases p <;> cases h <;> decide +kernel

theorem Spells.plain {s : List Char} {p : Position} (h : Spells s p) : Plain s := by
  cases h with
  | name h => exact plain_of_name h
  | aux h _ => exact plain_append (by decide) (plain_of_isNumeral h)
  | signed h _ => exact plain_append (by decide) (plain_of_isNumeral h)

theorem parse?_name {p : Position} {t : String} (h : p.name? = some t) : parse? t.toList = some p := by
  cases p <;> cases h <;> decide +kernel

theorem parse?_aux (s : List Char) : parse? ("aux".toList ++ s) = ((readByte s).filter (· < maxChannels)).map aux := rfl

theorem parse?_signed (s : List Char) :
    parse? ("aux+".toList ++ s) = ((readByte ('+' :: s)).filter (· < maxChannels)).map aux := rfl

/-- What is read as a position spells it. -/
theorem parse?_eq_some_iff {s : List Char} {p : Position} : parse? s = some p ↔ Spells s p := by
  have hbyte {r : List Char} {n : Nat} : (readByte r).filter (· < maxChannels) = some n ↔
      (IsNumeral r n ∨ ∃ d, r = '+' :: d ∧ IsNumeral d n) ∧ n < maxChannels := by
    rw [Option.filter_eq_some_iff, readByte_eq_some_iff, decide_eq_true_iff, and_assoc]
    refine and_congr_right fun _ => and_iff_right_of_imp fun h => ?_
    exact Nat.le_of_lt (Nat.lt_trans h (by decide))
  constructor
  · intro h
    unfold parse? at h
    split at h
    · next r =>
      obtain ⟨n, hn, rfl⟩ := Option.map_eq_some_iff.mp h
      obtain ⟨hnum | ⟨d, rfl, hnum⟩, hlt⟩ := hbyte.mp hn
      · exact .aux hnum hlt
      · exact .signed hnum hlt
    · have hname := List.find?_some h
      rw [beq_iff_eq] at hname
      simpa using Spells.name hname
  · intro h
    cases h with
    | name h => exact parse?_name h
    | aux h hlt => rw [parse?_aux, hbyte.mpr ⟨.inl h, hlt⟩, Option.map_some]
    | signed h hlt => rw [parse?_signed, hbyte.mpr ⟨.inr ⟨_, rfl, h⟩, hlt⟩, Option.map_some]

theorem Spells.lt {s : List Char} {n : Nat} (h : Spells s (.aux n)) : n < maxChannels := by
  cases h with
  | name h => cases h
  | aux _ h => exact h
  | signed _ h => exact h

/-- Trimming takes off what may be around a position, and no more. -/
theorem spells_trim_iff {p : List Char} {q : Position} :
    Spells (trim p) q ↔ ∃ t, Padded p t ∧ Spells t q := by
  constructor
  · exact fun h => ⟨trim p, padded_trim p, h⟩
  · rintro ⟨t, hp, ht⟩
    rwa [trim_of_padded hp fun c hc => (ht.plain c hc).1]

theorem toList_render_aux (n : Nat) : (aux n).render.toList = "aux".toList ++ Nat.toDigits 10 n := by
  rw [render, String.toList_append, Nat.toString_eq_repr, Nat.toList_repr]

theorem name?_render {p : Position} (h : ∀ n, p ≠ aux n) : p.name? = some p.render := by
  cases p with
  | aux n => exact absurd rfl (h n)
  | _ => rfl

/-- A position is printed in one of its spellings. -/
theorem spells_render {p : Position} (h : ∀ n, p = aux n → n < maxChannels) : Spells p.render.toList p := by
  cases p with
  | aux n =>
    rw [toList_render_aux]
    exact .aux (isNumeral_toDigits n) (h n rfl)
  | _ => exact .name rfl

theorem plain_render (p : Position) : Plain p.render.toList := by
  by_cases h : ∃ n, p = aux n
  · obtain ⟨n, rfl⟩ := h
    rw [toList_render_aux]
    exact plain_append (by decide) (plain_of_isNumeral (isNumeral_toDigits n))
  · exact plain_of_name (name?_render (not_exists.mp h))

/-- What is printed for a number that no stream has is not read. -/
theorem parse?_render_aux {n : Nat} (h : maxChannels ≤ n) : parse? (aux n).render.toList = none := by
  rw [toList_render_aux, parse?_aux, Option.map_eq_none_iff, Option.eq_none_iff_forall_ne_some]
  intro k hk
  obtain ⟨hk, hlt⟩ := Option.filter_eq_some_iff.mp hk
  obtain ⟨hread | ⟨r, hr, -⟩, -⟩ := readByte_eq_some_iff.mp hk
  · have hkn := hread.unique (isNumeral_toDigits n)
    exact absurd (hkn ▸ of_decide_eq_true hlt) (Nat.not_lt.mpr h)
  · have hdigit := (isNumeral_toDigits n).2.1 '+' (hr ▸ List.mem_cons_self)
    exact absurd hdigit (by decide)

end Position

namespace ChannelMap

/-! ## Maps -/

variable {s : List Char} {m : ChannelMap}

/-- Texts of the positions, with blanks around each as one likes and commas between them. -/
def Spells (s : List Char) (m : ChannelMap) : Prop :=
  ∃ ps, ps ≠ [] ∧ (∀ p ∈ ps, ',' ∉ p) ∧ [','].intercalate ps = s ∧
    List.Forall₂ (fun p q => ∃ t, Padded p t ∧ Position.Spells t q) ps m

/-- The maps that have a text: a position at least, and none with a number that no stream has. -/
def Printable (m : ChannelMap) : Prop := m ≠ [] ∧ ∀ k, Position.aux k ∈ m → k < maxChannels

/-- Every piece, once trimmed, spells the position in its place. -/
theorem parse?_eq_some_iff_pieces :
    parse? s = some m ↔ List.Forall₂ (fun p q => Position.Spells (trim p) q) (pieces ',' s) m := by
  simp only [parse?, mapM_eq_some_iff_forall₂, Position.parse?_eq_some_iff]

theorem parse?_eq_some_iff : parse? s = some m ↔ Spells s m := by
  simp only [parse?_eq_some_iff_pieces, Position.spells_trim_iff]
  constructor
  · intro h
    obtain ⟨hne, hsep, hs⟩ := pieces_eq_iff.mp (rfl : pieces ',' s = _)
    exact ⟨_, hne, hsep, hs, h⟩
  · rintro ⟨ps, hne, hsep, hs, h⟩
    rwa [pieces_eq_iff.mpr ⟨hne, hsep, hs⟩]

theorem exists_parse?_iff : (∃ m, parse? s = some m) ↔ ∀ p ∈ pieces ',' s, ∃ q, Position.Spells (trim p) q := by
  simp only [parse?_eq_some_iff_pieces]
  exact exists_forall₂_iff

theorem toList_render (m : ChannelMap) :
    m.render.toList = [','].intercalate (m.map fun p => p.render.toList) := by
  rw [render, String.toList_intercalate, List.map_map]
  rfl

/-- The pieces of what is printed are what is printed for each position. -/
theorem pieces_render (h : m ≠ []) : pieces ',' m.render.toList = m.map fun p => p.render.toList := by
  refine pieces_eq_iff.mpr ⟨List.map_eq_nil_iff.not.mpr h, ?_, (toList_render m).symm⟩
  rw [List.forall_mem_map]
  exact fun p _ hp => (Position.plain_render p _ hp).2 rfl

theorem trim_render (p : Position) : trim p.render.toList = p.render.toList :=
  trim_of_padded ⟨[], [], by simp⟩ fun c hc => (Position.plain_render p c hc).1

theorem parse?_render (h : m.Printable) : parse? m.render.toList = some m := by
  rw [parse?_eq_some_iff_pieces, pieces_render h.1, List.forall₂_map_left_iff, List.forall₂_same]
  intro p hp
  rw [trim_render]
  exact Position.spells_render fun n hn => h.2 n (hn ▸ hp)

theorem parse?_render_eq_none {n : Nat} (hn : .aux n ∈ m) (h : maxChannels ≤ n) : parse? m.render.toList = none := by
  rw [Option.eq_none_iff_forall_ne_some]
  intro m' hm'
  have hread := exists_parse?_iff.mp ⟨m', hm'⟩
  rw [pieces_render (List.ne_nil_of_mem hn), List.forall_mem_map] at hread
  obtain ⟨q, hq⟩ := hread _ hn
  rw [trim_render, ← Position.parse?_eq_some_iff, Position.parse?_render_aux h] at hq
  exact absurd hq (by simp)

/-- Whatever is read can be printed. -/
theorem printable_of_parse? (h : parse? s = some m) : m.Printable := by
  rw [parse?_eq_some_iff_pieces] at h
  constructor
  · rintro rfl
    exact (pieces_eq_iff.mp rfl).1 (List.forall₂_nil_right_iff.mp h)
  · intro k hk
    obtain ⟨p, hp⟩ := exists_forall₂_iff.mp ⟨_, h.flip⟩ (.aux k) hk
    exact hp.lt

theorem validate_of_printable {spec : StreamSpec} (h : m.Printable) (hlength : m.length = spec.channels) :
    m.validate spec = .ok () := by
  have hstray : m.any isStray = false := by
    rw [List.any_eq_false]
    intro p hp
    cases p with
    | aux n => simpa [isStray] using h.2 n hp
    | _ => simp [isStray]
  simp [validate, hlength, hstray]
  rfl

/-- What is printed for a map is read as that map, so no two maps are printed alike. A text is read exactly if each
    piece of it, once trimmed, is the name of a position or `aux` and a byte below `maxChannels`: as these positions,
    one for each piece. They fit every stream of as many channels, and what is printed for them is read as them again.
    What is printed for no position, or for a number that no stream has, is not read. -/
theorem text_read_exactly :
    (∀ m : ChannelMap, m.Printable → ofText? m.render = some m) ∧
    (∀ m m' : ChannelMap, m.Printable → m'.Printable → m.render = m'.render → m = m') ∧
    (∀ s m, ofText? s = some m ↔ Spells s.toList m) ∧
    (∀ s : String, (∃ m, ofText? s = some m) ↔ ∀ p ∈ pieces ',' s.toList, ∃ q, Position.Spells (trim p) q) ∧
    (∀ s m, ofText? s = some m →
      List.Forall₂ (fun p q => Position.Spells (trim p) q) (pieces ',' s.toList) m ∧ m.Printable ∧
      (∀ spec : StreamSpec, m.length = spec.channels → m.validate spec = .ok ()) ∧ ofText? m.render = some m) ∧
    ofText? (render []) = none ∧
    ∀ (m : ChannelMap) n, .aux n ∈ m → maxChannels ≤ n → ofText? m.render = none := by
  refine ⟨fun m => parse?_render, ?_, fun s m => parse?_eq_some_iff, fun s => exists_parse?_iff, ?_, by decide,
    fun m n => parse?_render_eq_none⟩
  · intro m m' hm hm' h
    have hread := parse?_render hm
    rw [h, parse?_render hm'] at hread
    exact (Option.some.inj hread).symm
  · intro s m h
    have hm := printable_of_parse? h
    exact ⟨parse?_eq_some_iff_pieces.mp h, hm, fun spec => validate_of_printable hm, parse?_render hm⟩

/-- A plus sign, zeros and blanks are read and not printed; a number that no stream has is printed and not read. -/
theorem text_read_exactly_auxiliary :
    let m : ChannelMap := [.aux 31, .lfe]
    (m.Printable ∧ m.render = "aux31,lfe" ∧ ofText? "aux31,lfe" = some m) ∧
    (Spells " aux+031 ,\tlfe".toList m ∧ ofText? " aux+031 ,\tlfe" = some m) ∧
    ofText? (render [.aux 32, .lfe]) = none := by
  obtain ⟨hprint, -, hread, -, hback, -, hstray⟩ := text_read_exactly
  have htext : ofText? " aux+031 ,\tlfe" = some [.aux 31, .lfe] := by decide +kernel
  have hm := (hback _ _ htext).2.1
  have hrender : render [.aux 31, .lfe] = "aux31,lfe" := by decide
  exact ⟨⟨hm, hrender, hrender ▸ hprint _ hm⟩, ⟨(hread _ _).mp htext, htext⟩,
    hstray _ 32 List.mem_cons_self (Nat.le_refl _)⟩

end ChannelMap

end PcmConvert
