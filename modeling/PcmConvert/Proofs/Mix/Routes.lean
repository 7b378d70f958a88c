/-
  PcmConvert.Proofs.Mix.Routes — no input gets to an output that the rules do not lead it to
  (`Routes`). A gain that is not zero was written by one of the rules, and each of them asks
  for one of the conditions: to take (`remixes_of_link`), to mix in what is left
  (`remixes_of_residual`), to make a low frequency output from all inputs (`synthesizes_iff`).
  Scaling a row writes no gain where there was none.

  All of that holds of the binary32 gains, too. Of rational ones none is negative, and no row
  that is scaled sums to more than one (`total_normalize_le`).
-/

import PcmConvert.Proofs.Mix.Heard
import PcmConvert.Proofs.Mix.Scaled

namespace PcmConvert

/-- Zero is not positive, and scaling leaves it. -/
structure Gain.Zeroed (α : Type) [Gain α] : Prop where
  not_pos : ¬(0 : α) < 0
  zero_div : ∀ {s : α}, 1 < s → 0 / s = 0

theorem Gain.zeroed_rat : Gain.Zeroed Rat := ⟨lt_irrefl 0, fun _ => zero_div _⟩

theorem Gain.zeroed_float32 : Gain.Zeroed Float32 := ⟨by decide +kernel, Number.zero_div⟩

namespace Mix

variable {f : Flags} {ps outputs : List Position} {t t' : Position → Bool} {n : Nat} {a b : Position}

/-! ## The routes -/

/-- The rules lead from an input at `a` to an output at another position `b`. -/
inductive Remixes (inputs outputs : List Position) (f : Flags) : Position → Position → Prop
  | ofMono {b : Position} : b.isLfe = false → Remixes inputs outputs f .mono b
  | toMono (a : Position) : Remixes inputs outputs f a .mono
  | surround {a b : Position} : a.isAlias b = true → Remixes inputs outputs f a b
  | left {a b : Position} : a.isLeft = true → b.isLeft = true → Remixes inputs outputs f a b
  | right {a b : Position} : a.isRight = true → b.isRight = true → Remixes inputs outputs f a b
  | center {a b : Position} : a.isCenter = true → b.isCenter = true → Remixes inputs outputs f a b
  | toCenter {a b : Position} : a.isSided = true → b.isCenter = true → inputs.any Position.isCenter = false →
      Remixes inputs outputs f a b
  | fromCenter {a b : Position} : a.isCenter = true → b.isSided = true → outputs.any Position.isCenter = false →
      Remixes inputs outputs f a b
  | consumed {a b : Position} : a.isLfe = true → f.consumeLfe = true → b.isLeft ∨ b.isRight ∨ b.isCenter →
      Remixes inputs outputs f a b
  | produced {a b : Position} : b.isLfe = true → f.produceLfe = true → Position.lfe ∉ inputs →
      Remixes inputs outputs f a b

/-- The rules lead from an input at `a` to an output at `b`. -/
def Routes (inputs outputs : List Position) (f : Flags) (a b : Position) : Prop :=
  a = b ∨ f.noRemix = false ∧ Remixes inputs outputs f a b

theorem of_isSided (h : a.isSided = true) : a ≠ .mono ∧ a.isCenter = false ∧ a.isLfe = false := by
  cases a <;> first | exact ⟨Position.noConfusion, rfl, rfl⟩ | cases h

theorem isLeft_of_isRight (h : a.isRight = true) : a.isLeft = false := by
  cases a <;> first | rfl | cases h

/-- From one side there is no route to the other. -/
theorem Routes.isLeft_eq (h : Routes ps outputs f a b) (ha : a.isSided = true) (hb : b.isSided = true) :
    a.isLeft = b.isLeft := by
  obtain ⟨hamono, hacenter, halfe⟩ := of_isSided ha
  obtain ⟨hbmono, hbcenter, hblfe⟩ := of_isSided hb
  rcases h with rfl | ⟨-, h⟩
  · rfl
  · cases h with
    | ofMono => exact absurd rfl hamono
    | toMono => exact absurd rfl hbmono
    | surround hab =>
      rw [isAlias_iff] at hab
      simp only [List.mem_cons, Prod.mk.injEq, List.not_mem_nil, or_false] at hab
      rcases hab with ⟨rfl, rfl⟩ | ⟨rfl, rfl⟩ | ⟨rfl, rfl⟩ | ⟨rfl, rfl⟩ <;> rfl
    | left hal hbl => rw [hal, hbl]
    | right har hbr => rw [isLeft_of_isRight har, isLeft_of_isRight hbr]
    | center hac => rw [hacenter] at hac; cases hac
    | toCenter _ hbc => rw [hbcenter] at hbc; cases hbc
    | fromCenter hac => rw [hacenter] at hac; cases hac
    | consumed hal => rw [halfe] at hal; cases hal
    | produced hbl => rw [hblfe] at hbl; cases hbl

/-! ## What a rule asks for -/

section

variable {α : Type} [Gain α]

theorem gainAt_of_isLfe (outputs : List Position) (f : Flags) (hb : b.isLfe = true) :
    (monoRoute outputs f : MonoRoute α).gainAt b = 0 := by
  rw [of_decide_eq_true hb]
  unfold monoRoute
  split_ifs <;> rfl

/-- No mono input gets to low frequencies. -/
theorem isLfe_of_gainAt_pos (hz : Gain.Zeroed α) (h : 0 < (monoRoute outputs f : MonoRoute α).gainAt b) :
    b.isLfe = false := by
  rw [← Bool.not_eq_true]
  intro hb
  rw [gainAt_of_isLfe outputs f hb] at h
  exact hz.not_pos h

theorem remixes_of_filled {g : α} (h : filled ps b a = some g) : Remixes ps outputs f a b := by
  unfold filled at h
  dsimp only at h
  split_ifs at h with hbl hal hbr har hbc hany hac has
  · exact .left hal hbl
  · exact .right har hbr
  · exact .center hac hbc
  · exact .toCenter has hbc (Bool.eq_false_iff.mpr hany)

/-- What an output takes of an input it is led to. -/
theorem remixes_of_link (hz : Gain.Zeroed α) {g : α}
    (h : link (monoRoute outputs f : MonoRoute α) f ps t b a = some g) : a = b ∨ Remixes ps outputs f a b := by
  unfold link at h
  split_ifs at h with hn hany hab
  · rcases isSome_named_iff.mp (Option.isSome_of_eq_some h) with rfl | ⟨rfl, hpos⟩ | rfl
    · exact .inl rfl
    · exact .inr (.ofMono (isLfe_of_gainAt_pos hz hpos))
    · exact .inr (.toMono a)
  · exact .inr (.surround (Bool.and_eq_true_iff.mp hab).2)
  · exact .inr (remixes_of_filled h)

/-- So is what is mixed in of an input that is left. -/
theorem remixes_of_residual {sources : List Source} {s : Source} {g : α}
    (h : residual outputs f sources b s = some g) : Remixes ps outputs f s.position b := by
  obtain ⟨-, h⟩ := isSome_residual_iff.mp (Option.isSome_of_eq_some h)
  rcases h with ⟨hal, hbl⟩ | ⟨har, hbr⟩ | ⟨hac, hbc⟩ | ⟨hal, hf, hb⟩ | ⟨hac, hnone, hreach⟩
  · exact .left hal hbl
  · exact .right har hbr
  · exact .center hac hbc
  · exact .consumed hal hf hb
  · exact .fromCenter hac (Bool.and_eq_true_iff.mp hreach).1 hnone

/-- A low frequency output takes the inputs at low frequencies, and no others. -/
theorem isSome_link_lfe_iff (hz : Gain.Zeroed α) (ha : a ∈ ps) :
    (link (monoRoute outputs f : MonoRoute α) f ps t .lfe a).isSome = true ↔ a = .lfe := by
  have hname : ∀ x, (named ps.length ((monoRoute outputs f : MonoRoute α).gainAt .lfe) x .lfe).isSome = true ↔
      x = .lfe := by
    intro x
    rw [isSome_named_iff, gainAt_of_isLfe outputs f rfl]
    simp [hz.not_pos]
  constructor
  · intro h
    unfold link at h
    split_ifs at h with hn hany hab hlfe
    · exact (hname a).mp h
    · rw [isAlias_of_isLfe rfl, Bool.and_false] at hab
      cases hab
    · cases h
    · cases h
    · exact absurd (Bool.or_eq_true_iff.mpr (.inl rfl)) hlfe
  · rintro rfl
    rw [link_of_isNamed (List.any_eq_true.mpr ⟨_, ha, (hname _).mpr rfl⟩)]
    exact (hname _).mpr rfl

/-- A low frequency output is made from all inputs if it may be and none of them is one for it. -/
theorem synthesizes_iff (hz : Gain.Zeroed α) :
    synthesizes f b (ps.map (link (monoRoute outputs f : MonoRoute α) f ps t b)) = true ↔
      b = .lfe ∧ f.produceLfe = true ∧ Position.lfe ∉ ps := by
  unfold synthesizes
  rw [any_map_isSome, Bool.and_eq_true, Bool.and_eq_true, Bool.not_eq_true', List.any_eq_false, Position.isLfe,
    decide_eq_true_iff, and_assoc]
  refine and_congr_right fun hb => and_congr_right fun _ => ?_
  subst hb
  constructor
  · intro hnone hlfe
    exact hnone _ hlfe ((isSome_link_lfe_iff hz hlfe).mpr rfl)
  · intro hlfe x hx hsome
    rw [(isSome_link_lfe_iff hz hx).mp hsome] at hx
    exact hlfe hx

/-- What an output gets of an input, before its row is scaled: `t` is taken when its turn comes, `t'` in the end. -/
def gainFor (ps outputs : List Position) (f : Flags) (t t' : Position → Bool) (b a : Position) : α :=
  (residual outputs f (sourcesAt ps t') b ⟨a, t' a⟩).getD
    (if synthesizes f b (ps.map (link (monoRoute outputs f : MonoRoute α) f ps t b)) then Gain.share ps.length
      else (link (monoRoute outputs f) f ps t b a).getD 0)

theorem exists_remix_row (ps : ChannelMap) (f : Flags) (hb : outputs[n]? = some b) :
    ∃ t t', (remix ps outputs f : Matrix α).rows[n]? = some (ps.map (gainFor ps outputs f t t' b)) := by
  obtain ⟨pre, post, rfl, rfl⟩ := exists_split hb
  exact ⟨_, _, remix_row_any ps pre post f b⟩

/-- That is nothing where no rule leads. -/
theorem gainFor_eq_zero (hz : Gain.Zeroed α) (hab : ¬a = b) (h : ¬Remixes ps outputs f a b) :
    (gainFor ps outputs f t t' b a : α) = 0 := by
  unfold gainFor
  cases hr : (residual outputs f (sourcesAt ps t') b ⟨a, t' a⟩ : Option α) with
  | some g => exact absurd (remixes_of_residual hr) h
  | none =>
    rw [Option.getD_none]
    split_ifs with hs
    · obtain ⟨rfl, hf, hlfe⟩ := (synthesizes_iff hz).mp hs
      exact absurd (.produced rfl hf hlfe) h
    · cases hl : (link (monoRoute outputs f) f ps t b a : Option α) with
      | some g => exact ((remixes_of_link hz hl).elim hab h).elim
      | none => rfl

end

/-! ## Signs and sums -/

theorem gainFor_nonneg (ha : a ∈ ps) : (0 : Rat) ≤ gainFor ps outputs f t t' b a := by
  unfold gainFor
  cases hr : (residual outputs f (sourcesAt ps t') b ⟨a, t' a⟩ : Option Rat) with
  | some g =>
    have hleft : t' a = false := (isSome_residual_iff.mp (Option.isSome_of_eq_some hr)).1
    exact le_of_lt (residual_pos ha hleft hr)
  | none =>
    rw [Option.getD_none]
    split_ifs with hs
    · exact le_of_lt (share_pos (List.length_pos_of_mem ha))
    · cases hl : (link (monoRoute outputs f) f ps t b a : Option Rat) with
      | some g => exact le_of_lt (link_pos ha hl)
      | none => exact le_refl 0

theorem total_map_div (row : List Rat) (s : Rat) : Gain.total (row.map (· / s)) = Gain.total row / s := by
  have hfold : ∀ acc : Rat, (row.map (· / s)).foldl (· + ·) (acc / s) = row.foldl (· + ·) acc / s := by
    induction row with
    | nil => exact fun _ => rfl
    | cons g row ih =>
      intro acc
      rw [List.map_cons, List.foldl_cons, List.foldl_cons, ← ih (acc + g)]
      congr 1
      exact (add_div acc g s).symm
  rw [Gain.total, ← zero_div s]
  exact hfold 0

theorem total_normalize_le (row : List Rat) : Gain.total (normalize row) ≤ 1 := by
  unfold normalize
  dsimp only
  split_ifs with h
  · rw [total_map_div]
    exact le_of_eq (div_self (ne_of_gt (lt_trans one_pos h)))
  · exact not_lt.mp h

theorem scaled_nonneg (row : List Rat) {g : Rat} (h : 0 ≤ g) : 0 ≤ scaled row g := by
  unfold scaled
  split_ifs with hsum
  · exact div_nonneg h (le_of_lt (lt_trans one_pos hsum))
  · exact h

end Mix

/-! ## The matrix -/

namespace Matrix

open Mix

variable {i o : ChannelMap} {f : Flags} {n k : Nat} {a b : Position}

section

variable {α : Type} [Gain α]

/-- An output has a gain for each input, and where no route leads it is nothing. -/
theorem exists_gain?_rules (hz : Gain.Zeroed α) (hf : f.noRemap = false) (hb : o[n]? = some b) (ha : i[k]? = some a) :
    ∃ row g, (rules i o f : Matrix α).rows[n]? = some row ∧ row[k]? = some g ∧ (¬Routes i o f a b → g = 0) := by
  unfold rules
  rw [hf, if_neg Bool.false_ne_true]
  cases hremix : f.noRemix with
  | true =>
    refine ⟨_, _, by rw [if_pos rfl, List.getElem?_map, hb]; rfl, by rw [List.getElem?_map, ha]; rfl, fun h => ?_⟩
    exact if_neg fun heq => h (.inl heq)
  | false =>
    obtain ⟨t, t', hrow⟩ := exists_remix_row (α := α) i f hb
    refine ⟨_, _, hrow, by rw [List.getElem?_map, ha]; rfl, fun h => ?_⟩
    exact gainFor_eq_zero hz (fun heq => h (.inl heq)) fun hr => h (.inr ⟨hremix, hr⟩)

theorem exists_gain?_build (hz : Gain.Zeroed α) (hf : f.noRemap = false) (hb : o[n]? = some b) (ha : i[k]? = some a) :
    ∃ g, (build i o f : Matrix α).gain? n k = some g ∧ (¬Routes i o f a b → g = 0) := by
  obtain ⟨row, g, hrow, hg, hzero⟩ := exists_gain?_rules hz hf hb ha
  refine ⟨scaled row g, ?_, fun h => ?_⟩
  · simp only [gain?, build, List.getElem?_map, hrow, Option.map_some, Option.bind_eq_bind, Option.bind_some,
      normalize_eq_scaled, hg]
  · rw [hzero h, scaled]
    split_ifs with hsum
    · exact hz.zero_div hsum
    · rfl

theorem lfeSynthesized_build_iff (hz : Gain.Zeroed α) : (build i o f : Matrix α).lfeSynthesized = true ↔
    f.noRemap = false ∧ f.noRemix = false ∧ f.produceLfe = true ∧ Position.lfe ∈ o ∧ Position.lfe ∉ i := by
  unfold build rules
  cases hf : f.noRemap with
  | true => simp
  | false =>
    cases hremix : f.noRemix with
    | true => simp
    | false =>
      simp only [Bool.false_eq_true, if_false, remix, true_and]
      rw [sourcesAt_untaken, scan_lfeSynthesized, List.any_eq_true]
      simp only [synthesizes_iff hz]
      constructor
      · rintro ⟨b, hb, rfl, hp, hi⟩
        exact ⟨hp, hb, hi⟩
      · rintro ⟨hp, ho, hi⟩
        exact ⟨.lfe, ho, rfl, hp, hi⟩

end

/-- No gain is negative, whatever its row is scaled by. -/
theorem nonneg_of_mem_rules {row : List Rat} (hrow : row ∈ (rules i o f : Matrix Rat).rows) {g : Rat} (hg : g ∈ row) :
    0 ≤ g := by
  have hbit (p : Prop) [Decidable p] : (0 : Rat) ≤ if p then 1 else 0 := by
    split_ifs
    · exact zero_le_one
    · exact le_refl 0
  unfold rules at hrow
  split_ifs at hrow with hf hremix
  · obtain ⟨m, -, rfl⟩ := List.mem_map.mp hrow
    obtain ⟨j, -, rfl⟩ := List.mem_map.mp hg
    exact hbit _
  · obtain ⟨b, -, rfl⟩ := List.mem_map.mp hrow
    obtain ⟨a, -, rfl⟩ := List.mem_map.mp hg
    exact hbit _
  · obtain ⟨m, hm⟩ := List.getElem?_of_mem hrow
    have hlt : m < o.length := by
      have hrows := (List.getElem?_eq_some_iff.mp hm).1
      simpa [remix, length_scan_rows] using hrows
    obtain ⟨t, t', hown⟩ := exists_remix_row (α := Rat) i f (List.getElem?_eq_getElem hlt)
    rw [hown] at hm
    obtain rfl := Option.some.inj hm
    obtain ⟨a, ha, rfl⟩ := List.mem_map.mp hg
    exact gainFor_nonneg ha

/-- Whatever the maps, no gain is negative and no row sums to more than one. A gain that is
    positive is one that a route leads to: without a route it is nothing, of rational numbers and
    of the binary32 numbers that a stream is mixed with; so left and right do not get into each
    other. And a low frequency output is made from all inputs exactly if it is to be, there is
    such an output and no such input. -/
theorem no_gain_without_route (i o : ChannelMap) (f : Flags) :
    (∀ row ∈ (build i o f : Matrix Rat).rows, (∀ g ∈ row, 0 ≤ g) ∧ Gain.total row ≤ 1) ∧
      (f.noRemap = false → ∀ n b k a, o[n]? = some b → i[k]? = some a →
        (∃ g, (build i o f : Matrix Rat).gain? n k = some g ∧ (0 < g → Routes i o f a b)) ∧
          (a.isSided = true → b.isSided = true → a.isLeft ≠ b.isLeft →
            (build i o f : Matrix Rat).gain? n k = some 0) ∧
          (¬Routes i o f a b → (build i o f : Matrix Float32).gain? n k = some 0)) ∧
      ((build i o f : Matrix Rat).lfeSynthesized = true ↔
        f.noRemap = false ∧ f.noRemix = false ∧ f.produceLfe = true ∧ Position.lfe ∈ o ∧ Position.lfe ∉ i) ∧
      (build i o f : Matrix Float32).lfeSynthesized = (build i o f : Matrix Rat).lfeSynthesized := by
  refine ⟨?_, ?_, lfeSynthesized_build_iff Gain.zeroed_rat, ?_⟩
  · intro row hrow
    obtain ⟨raw, hraw, rfl⟩ := List.mem_map.mp hrow
    refine ⟨fun g hg => ?_, total_normalize_le raw⟩
    rw [normalize_eq_scaled] at hg
    obtain ⟨x, hx, rfl⟩ := List.mem_map.mp hg
    exact scaled_nonneg raw (nonneg_of_mem_rules hraw hx)
  · intro hf n b k a hb ha
    obtain ⟨g, hg, hzero⟩ := exists_gain?_build Gain.zeroed_rat hf hb ha
    obtain ⟨g', hg', hzero'⟩ := exists_gain?_build Gain.zeroed_float32 hf hb ha
    refine ⟨⟨g, hg, fun hpos => ?_⟩, fun hsa hsb hne => ?_, fun h => ?_⟩
    · by_contra h
      rw [hzero h] at hpos
      exact lt_irrefl 0 hpos
    · rw [hg, hzero fun h => hne (h.isLeft_eq hsa hsb)]
    · rw [hg', hzero' h]
  · rw [Bool.eq_iff_iff, lfeSynthesized_build_iff Gain.zeroed_rat, lfeSynthesized_build_iff Gain.zeroed_float32]

/-- Two inputs at one position on the left; a right output, which has no input on its side, and a low frequency one. -/
theorem no_gain_without_route_lefts :
    let i : ChannelMap := [.frontLeft, .rearLeft, .frontLeft]
    let o : ChannelMap := [.frontRight, .lfe, .sideLeft]
    let f : Flags := { produceLfe := true }
    let m : Matrix Rat := build i o f
    (∀ row ∈ m.rows, Gain.total row ≤ 1) ∧ m.gain? 0 2 = some 0 ∧
      (build i o f : Matrix Float32).gain? 0 2 = some 0 ∧ m.lfeSynthesized = true ∧ m.gain? 1 2 = some (1 / 3) := by
  intro i o f m
  obtain ⟨hrows, hgains, hlfe, -⟩ := no_gain_without_route i o f
  obtain ⟨-, hsides, hbits⟩ := hgains rfl 0 .frontRight 2 .frontLeft rfl rfl
  refine ⟨fun row hrow => (hrows row hrow).2, hsides rfl rfl (by decide), hbits fun h => ?_, hlfe.mpr ?_, ?_⟩
  · exact absurd (h.isLeft_eq rfl rfl) (by decide)
  · exact ⟨rfl, rfl, rfl, by decide, by decide⟩
  · decide +kernel

end Matrix

end PcmConvert
