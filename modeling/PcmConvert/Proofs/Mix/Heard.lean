/-
  PcmConvert.Proofs.Mix.Heard — no input is lost that an output can take in (`Hosts`), the gains
  being what the rules say of rational numbers. All of them are positive (`link_pos`,
  `residual_pos`), and scaling a row leaves them so.

  An input is taken in the end only if some output took it when its turn came
  (`exists_link_of_takenAfter`), and nothing overwrites what that one took of it
  (`gain?_build_of_link`). An input that no output took is mixed in where it finds a host
  (`exists_residual`): the hosts that it would not be mixed into take it by name. And an output
  with a side never ends with nothing if outputs are filled and there is an input on its side
  (`exists_link`).
-/

import Mathlib.Algebra.Order.Field.Rat
import Mathlib.Tactic.Positivity
import PcmConvert.Proofs.Mix.Rivals

namespace PcmConvert

namespace Mix

/-- An output at `b` can take in an input at `a`. -/
inductive Hosts (f : Flags) : Position → Position → Prop
  | mono (a : Position) : Hosts f a .mono
  | ofMono {b : Position} : b.isLfe = false → Hosts f .mono b
  | left {a b : Position} : a.isLeft = true → b.isLeft = true → Hosts f a b
  | right {a b : Position} : a.isRight = true → b.isRight = true → Hosts f a b
  | center {a b : Position} : a.isCenter = true → b.isLeft ∨ b.isRight ∨ b.isCenter → Hosts f a b
  | lfe {a b : Position} : a.isLfe = true → b.isLfe = true → Hosts f a b
  | consumed {a b : Position} : a.isLfe = true → f.consumeLfe = true → b.isLeft ∨ b.isRight ∨ b.isCenter → Hosts f a b
  | aux (n : Nat) : Hosts f (.aux n) (.aux n)

/-! ## Which rule applies -/

section

variable {α : Type} [Gain α]

theorem isSome_named_iff {n : Nat} {m : α} {a b : Position} :
    (named n m a b).isSome = true ↔ a = b ∨ (a = .mono ∧ 0 < m) ∨ b = .mono := by
  unfold named
  split_ifs with hab hmono hb
  · simp [hab]
  · simp [hmono]
  · simp [hb]
  · simp [hab, hmono, hb]

theorem isSome_residual_iff {outputs : List Position} {f : Flags} {sources : List Source} {b : Position} {s : Source} :
    (residual outputs f sources b s : Option α).isSome = true ↔ s.taken = false ∧
      (s.position.isLeft = true ∧ b.isLeft = true ∨ s.position.isRight = true ∧ b.isRight = true ∨
        s.position.isCenter = true ∧ b.isCenter = true ∨
        s.position.isLfe = true ∧ f.consumeLfe = true ∧ (b.isLeft = true ∨ b.isRight = true ∨ b.isCenter = true) ∨
        s.position.isCenter = true ∧ outputs.any Position.isCenter = false ∧ reaches outputs s.position b = true) := by
  unfold residual
  dsimp only
  cases ht : s.taken with
  | true => simp
  | false =>
    simp only [Bool.and_eq_true, Bool.or_eq_true, Bool.not_eq_true', and_assoc, or_assoc, Bool.false_eq_true, if_false,
      true_and]
    split_ifs with hl hr hc hlfe hspread
    · exact iff_of_true rfl (.inl hl)
    · exact iff_of_true rfl (.inr (.inl hr))
    · exact iff_of_true rfl (.inr (.inr (.inl hc)))
    · exact iff_of_true rfl (.inr (.inr (.inr (.inl hlfe))))
    · exact iff_of_true rfl (.inr (.inr (.inr (.inr hspread))))
    · refine iff_of_false Bool.false_ne_true ?_
      rintro (h | h | h | h | h)
      · exact hl h
      · exact hr h
      · exact hc h
      · exact hlfe h
      · exact hspread h

end

/-! ## Gains are positive -/

theorem share_pos {n : Nat} (h : 0 < n) : (0 : Rat) < Gain.share n := by
  show (0 : Rat) < 1 / (n : Rat)
  positivity

theorem ratio_pos {n d : Nat} (hn : 0 < n) (hd : 0 < d) : (0 : Rat) < Gain.ratio n d := by
  show (0 : Rat) < (n : Rat) / (d : Rat)
  positivity

theorem count_pos {kind : Position → Bool} {ps : List Position} {a : Position} (ha : a ∈ ps) (hk : kind a = true) :
    0 < count kind ps := List.length_pos_of_mem (List.mem_filter.mpr ⟨ha, hk⟩)

variable {mono : MonoRoute Rat} {f : Flags} {ps outputs : List Position} {t : Position → Bool} {a b : Position}

theorem named_pos {n : Nat} (hn : 0 < n) {m g : Rat} (h : named n m a b = some g) : 0 < g := by
  unfold named at h
  split_ifs at h with hab hmono hb
  · cases h
    exact one_pos
  · cases h
    exact hmono.2
  · cases h
    exact share_pos hn

theorem filled_pos (ha : a ∈ ps) {g : Rat} (h : filled ps b a = some g) : 0 < g := by
  unfold filled at h
  dsimp only at h
  split_ifs at h with hleft hk hright hk hcenter hany hk hk
  all_goals cases h
  · exact share_pos (count_pos ha hk)
  · exact share_pos (count_pos ha hk)
  · exact share_pos (count_pos ha hk)
  · exact share_pos (count_pos ha hk)

/-- What an output takes of an input is more than nothing. -/
theorem link_pos (ha : a ∈ ps) {g : Rat} (h : link mono f ps t b a = some g) : 0 < g := by
  unfold link at h
  split_ifs at h
  · exact named_pos (List.length_pos_of_mem ha) h
  · cases h
    exact one_pos
  · exact filled_pos ha h

/-- What is mixed in of an input that is left is more than nothing. -/
theorem residual_pos (ha : a ∈ ps) (hta : t a = false) {g : Rat}
    (h : residual outputs f (sourcesAt ps t) b ⟨a, t a⟩ = some g) : 0 < g := by
  have hpart {n d : Nat} {kind : Position → Bool} (hn : 0 < n) (hd : 0 < d) (hk : kind a = true) :
      (0 : Rat) < Gain.ratio n d / Gain.ofNat (leftOver kind (sourcesAt ps t)) := by
    have hleft : 0 < leftOver kind (sourcesAt ps t) := by
      rw [leftOver_sourcesAt]
      exact count_pos (List.mem_filter.mpr ⟨ha, by simp [hta]⟩) hk
    exact div_pos (ratio_pos hn hd) (Nat.cast_pos.mpr hleft)
  unfold residual at h
  dsimp only at h
  split_ifs at h with _ hl hr hc hlfe hspread
  all_goals cases h
  · exact hpart (by decide) (by decide) (Bool.and_eq_true_iff.mp hl).1
  · exact hpart (by decide) (by decide) (Bool.and_eq_true_iff.mp hr).1
  · exact hpart (by decide) (by decide) (Bool.and_eq_true_iff.mp hc).1
  · exact hpart (by decide) (by decide) (Bool.and_eq_true_iff.mp (Bool.and_eq_true_iff.mp hlfe).1).1
  · refine hpart (by decide) (by decide) ?_
    obtain ⟨hcenter, hreach⟩ := Bool.and_eq_true_iff.mp hspread
    rw [(Bool.and_eq_true_iff.mp hcenter).1, hreach]
    rfl

/-- Scaling a row keeps its gains positive. -/
theorem normalize_pos {row : List Rat} {i : Nat} {g : Rat} (h : row[i]? = some g) (hg : 0 < g) :
    ∃ g', (normalize row)[i]? = some g' ∧ 0 < g' := by
  unfold normalize
  dsimp only
  split_ifs with hsum
  · have hpos : (0 : Rat) < Gain.total row := lt_trans one_pos hsum
    exact ⟨g / Gain.total row, by rw [List.getElem?_map, h]; rfl, div_pos hg hpos⟩
  · exact ⟨g, h, hg⟩

/-! ## Inputs that are taken -/

/-- What is taken in the end some output took. -/
theorem exists_link_of_takenAfter {t : Position → Bool} (h : takenAfter mono f ps t outputs a = true) :
    t a = true ∨ ∃ pre b post, outputs = pre ++ b :: post ∧
      (link mono f ps (takenAfter mono f ps t pre) b a).isSome = true := by
  induction outputs generalizing t with
  | nil => exact .inl h
  | cons c outputs ih =>
    rcases ih h with htaken | ⟨pre, b, post, rfl, hlink⟩
    · rcases Bool.or_eq_true_iff.mp htaken with hta | hlink
      · exact .inl hta
      · exact .inr ⟨[], c, outputs, rfl, hlink⟩
    · exact .inr ⟨c :: pre, b, post, rfl, hlink⟩

/-- What an input names is taken. -/
theorem takenAfter_of_named (hb : b ∈ outputs) (ha : a ∈ ps) (h : (named ps.length (mono.gainAt b) a b).isSome = true)
    (t : Position → Bool) : takenAfter mono f ps t outputs a = true := by
  obtain ⟨pre, post, rfl⟩ := List.append_of_mem hb
  apply takenAfter_of_link
  rw [link_of_isNamed (List.any_eq_true.mpr ⟨a, ha, h⟩)]
  exact h

/-- Some output gets all or a part of a mono input, if any can. -/
theorem exists_gainAt_pos (f : Flags) (hb : b ∈ outputs) (hlfe : b.isLfe = false) :
    ∃ c ∈ outputs, 0 < (monoRoute outputs f : MonoRoute Rat).gainAt c := by
  unfold monoRoute
  split_ifs with hfill hmono hfront hpair
  · exact ⟨b, hb, by simp [MonoRoute.gainAt, hlfe]⟩
  · exact ⟨.mono, List.contains_iff_mem.mp hmono, by simp [MonoRoute.gainAt]⟩
  · exact ⟨.frontCenter, List.contains_iff_mem.mp hfront, by simp [MonoRoute.gainAt]⟩
  · exact ⟨.frontLeft, List.contains_iff_mem.mp (Bool.and_eq_true_iff.mp hpair).1, by simp [MonoRoute.gainAt]⟩
  · refine ⟨b, hb, ?_⟩
    rw [MonoRoute.gainAt, if_pos (by simp [hlfe])]
    exact share_pos (Nat.le_max_left 1 _)

/-! ## Inputs that are left -/

/-- A center that no center takes in reaches some output with a side, if there is one. -/
theorem exists_reaches (a : Position) (hb : b ∈ outputs) (hside : b.isSided = true) :
    ∃ c ∈ outputs, reaches outputs a c = true := by
  by_cases hplace : ∃ c ∈ outputs, c.isSided = true ∧ c.placement = a.placement
  · obtain ⟨c, hc, hsided, hsame⟩ := hplace
    exact ⟨c, hc, by simp [reaches, hsided, hsame]⟩
  · refine ⟨b, hb, ?_⟩
    have hnone : outputs.any (fun o => o.isSided && o.placement == a.placement) = false := by
      rw [List.any_eq_false]
      intro c hc hboth
      rw [Bool.and_eq_true, beq_iff_eq] at hboth
      exact hplace ⟨c, hc, hboth⟩
    simp [reaches, hside, hnone]

/-- An input that no output took, and that has a host, is mixed into some output. -/
theorem exists_residual (ha : a ∈ ps) (hb : b ∈ outputs) (h : Hosts f a b)
    (hleft : takenAfter (monoRoute outputs f : MonoRoute Rat) f ps untaken outputs a = false) (sources : List Source) :
    ∃ c ∈ outputs, (residual outputs f sources c ⟨a, false⟩ : Option Rat).isSome = true := by
  -- what names an output is taken
  have hnamed : ∀ c ∈ outputs, ¬(named ps.length ((monoRoute outputs f : MonoRoute Rat).gainAt c) a c).isSome = true := by
    intro c hc hname
    rw [takenAfter_of_named hc ha hname] at hleft
    cases hleft
  cases h with
  | mono =>
    refine absurd ?_ (hnamed .mono hb)
    rw [isSome_named_iff]
    exact .inr (.inr rfl)
  | ofMono hlfe =>
    obtain ⟨c, hc, hpos⟩ := exists_gainAt_pos f hb hlfe
    refine absurd ?_ (hnamed c hc)
    rw [isSome_named_iff]
    exact .inr (.inl ⟨rfl, hpos⟩)
  | left hal hbl =>
    refine ⟨b, hb, ?_⟩
    rw [isSome_residual_iff]
    exact ⟨rfl, .inl ⟨hal, hbl⟩⟩
  | right har hbr =>
    refine ⟨b, hb, ?_⟩
    rw [isSome_residual_iff]
    exact ⟨rfl, .inr (.inl ⟨har, hbr⟩)⟩
  | center hac hbs =>
    cases hnone : outputs.any Position.isCenter with
    | true =>
      obtain ⟨c, hc, hcc⟩ := List.any_eq_true.mp hnone
      refine ⟨c, hc, ?_⟩
      rw [isSome_residual_iff]
      exact ⟨rfl, .inr (.inr (.inl ⟨hac, hcc⟩))⟩
    | false =>
      have hside : b.isSided = true := by
        rw [List.any_eq_false] at hnone
        unfold Position.isSided
        rcases hbs with hl | hr | hc
        · rw [hl, Bool.true_or]
        · rw [hr, Bool.or_true]
        · exact absurd hc (hnone b hb)
      obtain ⟨c, hc, hreach⟩ := exists_reaches a hb hside
      refine ⟨c, hc, ?_⟩
      rw [isSome_residual_iff]
      exact ⟨rfl, .inr (.inr (.inr (.inr ⟨hac, hnone, hreach⟩)))⟩
  | lfe hal hbl =>
    refine absurd ?_ (hnamed b hb)
    rw [isSome_named_iff]
    exact .inl ((of_decide_eq_true hal).trans (of_decide_eq_true hbl).symm)
  | consumed hal hf hbs =>
    refine ⟨b, hb, ?_⟩
    rw [isSome_residual_iff]
    exact ⟨rfl, .inr (.inr (.inr (.inl ⟨hal, hf, hbs⟩)))⟩
  | aux n => exact absurd (by simp [named]) (hnamed _ hb)

/-! ## Outputs with a side -/

theorem sideOf_eq {side : Position → Bool} (hside : side ∈ [Position.isLeft, Position.isRight]) (h : side b = true) :
    sideOf b = side := by
  simp only [List.mem_cons, List.not_mem_nil, or_false] at hside
  unfold sideOf
  rcases hside with rfl | rfl
  · exact if_pos h
  · refine if_neg ?_
    cases b <;> first | exact Bool.false_ne_true | cases h

/-- An output with a side that is filled takes some input, if one is on its side. -/
theorem exists_link (mono : MonoRoute Rat) (hfill : f.noFillSink = false) (hb : sideOf b b = true) (ha : a ∈ ps)
    (hside : sideOf b a = true) (t : Position → Bool) : ∃ x ∈ ps, (link mono f ps t b x).isSome = true := by
  have hlfe : b.isLfe = false := by
    rw [← Bool.not_eq_true]
    intro h
    rw [of_decide_eq_true h] at hb
    cases hb
  unfold link
  split_ifs with hn hany hno
  · exact List.any_eq_true.mp hn
  · obtain ⟨x, hx, hxb⟩ := List.any_eq_true.mp hany
    exact ⟨x, hx, by rw [if_pos hxb]; rfl⟩
  · rw [hlfe, hfill] at hno
    cases hno
  · exact ⟨a, ha, by rw [filled_of_sideOf hb, if_pos hside]; rfl⟩

end Mix

/-! ## The matrix -/

namespace Matrix

open Mix

variable {i o : ChannelMap} {f : Flags} {n k : Nat} {a b : Position}

/-- A gain that is positive before its row is scaled. -/
theorem gain?_build_pos (hf : f.noRemap = false) (hremix : f.noRemix = false) {row : List Rat} {g : Rat}
    (hrow : (remix i o f : Matrix Rat).rows[n]? = some row) (hg : row[k]? = some g) (hpos : 0 < g) :
    ∃ g', (build i o f : Matrix Rat).gain? n k = some g' ∧ 0 < g' := by
  obtain ⟨g', hg', hpos'⟩ := normalize_pos hg hpos
  refine ⟨g', ?_, hpos'⟩
  simp only [gain?, build, rules, hf, hremix, Bool.false_eq_true, if_false, List.getElem?_map, hrow, Option.map_some]
  exact hg'

/-- What an output takes it gives, whatever comes after it. -/
theorem gain?_build_of_link (hf : f.noRemap = false) (hremix : f.noRemix = false) {pre post : ChannelMap}
    (ho : o = pre ++ b :: post) (hk : i[k]? = some a)
    (h : (link (monoRoute o f : MonoRoute Rat) f i (takenAfter (monoRoute o f : MonoRoute Rat) f i untaken pre) b a).isSome =
      true) : ∃ g, (build i o f : Matrix Rat).gain? pre.length k = some g ∧ 0 < g := by
  subst ho
  obtain ⟨g, hg⟩ := Option.isSome_iff_exists.mp h
  have ha : a ∈ i := List.mem_of_getElem? hk
  have htaken := takenAfter_of_link pre post h
  refine gain?_build_pos hf hremix (remix_row_any i pre post f b) (g := g) ?_ (link_pos ha hg)
  rw [List.getElem?_map, hk, Option.map_some, synthesizes_map_of_isSome f b ha h, hg, htaken]
  rfl

/-- What is left of the inputs and mixed in. -/
theorem gain?_build_of_residual (hf : f.noRemap = false) (hremix : f.noRemix = false) {pre post : ChannelMap}
    (ho : o = pre ++ b :: post) (hk : i[k]? = some a)
    (hleft : takenAfter (monoRoute o f : MonoRoute Rat) f i untaken o a = false)
    (h : (residual o f (sourcesAt i (takenAfter (monoRoute o f : MonoRoute Rat) f i untaken o)) b ⟨a, false⟩ :
      Option Rat).isSome = true) : ∃ g, (build i o f : Matrix Rat).gain? pre.length k = some g ∧ 0 < g := by
  subst ho
  rw [← hleft] at h
  obtain ⟨g, hg⟩ := Option.isSome_iff_exists.mp h
  have hpos := residual_pos (List.mem_of_getElem? hk) hleft hg
  refine gain?_build_pos hf hremix (remix_row_any i pre post f b) (g := g) ?_ hpos
  rw [List.getElem?_map, hk, Option.map_some, hg, Option.getD_some]

/-- Every input that finds a host among the outputs has a positive gain in some output; and with
    outputs being filled, so has every output on a side that has an input. -/
theorem every_input_heard (hf : f.noRemap = false) (hremix : f.noRemix = false) :
    (∀ k a, i[k]? = some a → (∃ b ∈ o, Hosts f a b) → ∃ n g, (build i o f : Matrix Rat).gain? n k = some g ∧ 0 < g) ∧
      (f.noFillSink = false → ∀ side ∈ [Position.isLeft, Position.isRight], (∃ a ∈ i, side a = true) →
        ∀ n b, o[n]? = some b → side b = true → ∃ k g, (build i o f : Matrix Rat).gain? n k = some g ∧ 0 < g) := by
  constructor
  · rintro k a hk ⟨b, hb, hhost⟩
    -- it is heard where it was taken, or else where it is mixed in
    cases hleft : takenAfter (monoRoute o f : MonoRoute Rat) f i untaken o a with
    | true =>
      rcases exists_link_of_takenAfter hleft with huntaken | ⟨pre, c, post, ho, hlink⟩
      · cases huntaken
      · exact ⟨_, gain?_build_of_link hf hremix ho hk hlink⟩
    | false =>
      obtain ⟨c, hc, hres⟩ := exists_residual (List.mem_of_getElem? hk) hb hhost hleft
        (sourcesAt i (takenAfter (monoRoute o f : MonoRoute Rat) f i untaken o))
      obtain ⟨pre, post, ho⟩ := List.append_of_mem hc
      exact ⟨_, gain?_build_of_residual hf hremix ho hk hleft hres⟩
  · rintro hfill side hside ⟨a, ha, hsa⟩ n b hn hsb
    obtain ⟨pre, post, ho, rfl⟩ := exists_split hn
    have hown : sideOf b = side := sideOf_eq hside hsb
    obtain ⟨x, hx, hlink⟩ := exists_link (monoRoute o f : MonoRoute Rat) hfill (hown ▸ hsb) ha (hown ▸ hsa)
      (takenAfter (monoRoute o f : MonoRoute Rat) f i untaken pre)
    obtain ⟨k, hk⟩ := List.getElem?_of_mem hx
    exact ⟨k, gain?_build_of_link hf hremix ho hk hlink⟩

/-- Center and low frequencies find no output of their own, and of two inputs at one position none is lost. -/
theorem every_input_heard_on_two_sides :
    let i : ChannelMap := [.frontCenter, .lfe, .sideLeft, .sideLeft]
    let o : ChannelMap := [.sideLeft, .rearLeft, .topFrontRight]
    let m : Matrix Rat := build i o { consumeLfe := true }
    (∀ k < 4, ∃ n g, m.gain? n k = some g ∧ 0 < g) ∧ ∃ k g, m.gain? 1 k = some g ∧ 0 < g := by
  intro i o m
  obtain ⟨hinputs, hsides⟩ := every_input_heard (i := i) (o := o) (f := { consumeLfe := true }) rfl rfl
  refine ⟨fun k hk => ?_, hsides rfl Position.isLeft (by simp) ⟨.sideLeft, by simp [i], rfl⟩ 1 .rearLeft rfl rfl⟩
  obtain rfl | rfl | rfl | rfl : k = 0 ∨ k = 1 ∨ k = 2 ∨ k = 3 := by omega
  · exact hinputs 0 .frontCenter rfl ⟨.rearLeft, by simp [o], .center rfl (.inl rfl)⟩
  · exact hinputs 1 .lfe rfl ⟨.topFrontRight, by simp [o], .consumed rfl rfl (.inr (.inl rfl))⟩
  · exact hinputs 2 .sideLeft rfl ⟨.rearLeft, by simp [o], .left rfl rfl⟩
  · exact hinputs 3 .sideLeft rfl ⟨.rearLeft, by simp [o], .left rfl rfl⟩

end Matrix

end PcmConvert
